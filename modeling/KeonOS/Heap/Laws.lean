import KeonOS.Heap.Tiling

/-!
# Laws of `kmalloc` and `kfree`

Coalescing depends on the order neither of the merges nor of the releases, and it leaves a list with no
two free neighbours alone. In the runs of the heap no two neighbours are free.

* `push`, **`coalesce_cons`**: coalescing as a fold; `coalesce_map`: releasing blocks before it or after;
* **`kfree_undoes_kmalloc`**, **`kfree_comm`**.
-/

namespace KeonOS

open Word Relation

variable {bs xs zs : List Block} {b : Block}

/-! ## Coalescing -/

def push (b : Block) : List Block → List Block
  | [] => [b]
  | c :: cs => if b.free = true ∧ c.free = true then joinBlock b c :: cs else b :: c :: cs

theorem joinBlock_joinBlock (b c d : Block) :
    joinBlock (joinBlock b c) d = joinBlock b (joinBlock c d) := by
  simp only [joinBlock, Block.mk.injEq, true_and, and_true]
  omega

theorem coalesce_cons (b : Block) (bs : List Block) : coalesce (b :: bs) = push b (coalesce bs) := by
  induction bs generalizing b with
  | nil => simp [coalesce, push]
  | cons c cs ih =>
    rw [coalesce, ih c, ih (joinBlock b c)]
    cases hcs : coalesce cs with
    | nil => simp [push]
    | cons d ds =>
      -- The three blocks are joined in one of two orders.
      by_cases hb : b.free = true <;> by_cases hc : c.free = true <;> by_cases hd : d.free = true
      all_goals
        simp [push, hb, hc, hd, joinBlock_joinBlock]
        try simp [joinBlock, hb, hc]

theorem coalesce_append {ys : List Block} (h : coalesce ys = coalesce zs) :
    coalesce (xs ++ ys) = coalesce (xs ++ zs) := by
  induction xs with
  | nil => exact h
  | cons x xs ih => rw [List.cons_append, List.cons_append, coalesce_cons, coalesce_cons, ih]

theorem coalesce_freeBlock : coalesce (freeBlock b zs) = coalesce ({ b with free := true } :: zs) := by
  cases zs with
  | nil => rfl
  | cons c zs =>
    rw [freeBlock]
    split_ifs with hc
    · rw [coalesce.eq_3, if_pos ⟨rfl, hc⟩]
    · rfl

theorem NoFreePair.coalesce_eq (h : NoFreePair bs) : coalesce bs = bs := by
  induction bs with
  | nil => rw [coalesce]
  | cons b bs ih =>
    rw [coalesce_cons, ih h.tail]
    cases bs with
    | nil => rfl
    | cons c bs => rw [push, if_neg (List.isChain_cons_cons.mp h).1]

theorem coalesce_map {f : Block → Block} (hf : ∀ b, b.free = true → f b = b) (bs : List Block) :
    coalesce ((coalesce bs).map f) = coalesce (bs.map f) := by
  induction bs using coalesce.induct with
  | case1 => rw [coalesce]
  | case2 b => rw [coalesce]
  | case3 b c bs hfree ih =>
    have hjoin : f (joinBlock b c) = joinBlock b c := hf _ hfree.1
    rw [coalesce, if_pos hfree, ih]
    simp only [List.map_cons, hf b hfree.1, hf c hfree.2, hjoin]
    rw [coalesce.eq_3, if_pos hfree]
  | case4 b c bs hfree ih =>
    rw [coalesce, if_neg hfree, List.map_cons, coalesce_cons, ih, ← coalesce_cons, ← List.map_cons]

def release (p : ℕ) (b : Block) : Block := if b.payload = p then { b with free := true } else b

theorem release_of_free (p : ℕ) (b : Block) (h : b.free = true) : release p b = b := by
  unfold release
  split_ifs
  · cases b
    simp_all
  · rfl

theorem release_comm (p q : ℕ) (b : Block) : release p (release q b) = release q (release p b) := by
  by_cases hp : b.payload = p <;> by_cases hq : b.payload = q <;> simp_all [release, Block.payload]

theorem Ordered.map_release (ho : Ordered (xs ++ b :: zs)) :
    (xs ++ b :: zs).map (release b.payload) = xs ++ { b with free := true } :: zs := by
  have hother : ∀ c ∈ xs ++ zs, release b.payload c = c := by
    intro c hc
    refine if_neg fun e => ?_
    have haddr := Block.addr_eq_of_payload e
    rcases List.mem_append.mp hc with hc | hc
    · exact absurd haddr (Nat.ne_of_lt (c.addr_lt_stop.trans_le (ho.before c hc)))
    · exact absurd haddr (Nat.ne_of_gt (b.addr_lt_stop.trans_le (ho.after c hc)))
  rw [List.map_append, List.map_cons, release, if_pos rfl,
    List.map_congr_left (g := id) fun c hc => hother c (by simp [hc]),
    List.map_congr_left (g := id) fun c hc => hother c (by simp [hc]), List.map_id, List.map_id]

/-! ## The blocks of a run -/

section Runs

variable {σ : Type} {sbrk : ℕ → σ → ℕ × σ} {brk : σ → ℕ} {lo : ℕ} {s s₀ t : HeapRun σ}

theorem kfree_release {hi : ℕ} {h : Heap} (hv : HeapInv h bs lo hi) (hb : b ∈ bs) :
    ∃ h', HeapInv h' (coalesce (bs.map (release b.payload))) lo hi ∧
      Ends (fun fuel => kfree fuel h b.payload) h' := by
  obtain ⟨xs, zs, rfl⟩ := List.append_of_mem hb
  obtain ⟨h', hinv, hend⟩ := kfree_refines hv
  rw [coalesce_append coalesce_freeBlock, ← hv.ordered.map_release] at hinv
  exact ⟨h', hinv, _, hend⟩

/-- The blocks of a state: the live pointers are among them and no two neighbours are free. -/
structure RunBy (lo : ℕ) (brk : σ → ℕ) (s : HeapRun σ) (bs : List Block) : Prop where
  heap : HeapInv s.heap bs lo (brk s.vmm)
  liveIn : LiveIn s.live bs
  noFreePair : NoFreePair bs

/-- The first-fit walk of `kmalloc` over the list of the heap. -/
def firstFit (h : Heap) (n fuel : ℕ) : Option (ℕ × ℕ) :=
  kmallocScan h.blocks (roundSize n) fuel h.heapStart 0

/-- The bytes in headers and payloads. -/
def managed (bs : List Block) : ℕ := (bs.map fun b => 24 + b.size).sum

theorem managed_takeBlock (size : ℕ) (b : Block) : managed (takeBlock size b) = 24 + b.size := by
  unfold takeBlock
  split_ifs
  · simp [managed, hdr] at *
    omega
  · simp [managed]

theorem managed_coalesce (bs : List Block) : managed (coalesce bs) = managed bs := by
  induction bs using coalesce.induct with
  | case1 => rw [coalesce]
  | case2 b => rw [coalesce]
  | case3 b c bs hfree ih =>
    rw [coalesce, if_pos hfree, ih]
    simp [managed, joinBlock, hdr]
    omega
  | case4 b c bs hfree ih =>
    rw [coalesce, if_neg hfree]
    simpa [managed] using ih

theorem managed_release (p : ℕ) (bs : List Block) : managed (bs.map (release p)) = managed bs := by
  have hsize : ∀ b : Block, (release p b).size = b.size := fun b => by
    unfold release
    split_ifs <;> rfl
  simp [managed, Function.comp_def, hsize]

theorem RunBy.malloc (hs : RunBy lo brk s bs) (hk : SbrkOk sbrk brk) {n p found last : ℕ} {h : Heap}
    {v : σ} (hn : NoOverflow n) (hfit : Ends (firstFit s.heap n) (found, last))
    (hend : Ends (fun fuel => kmalloc sbrk fuel s.heap s.vmm n) (p, h, v)) :
    ∃ bs', RunBy lo brk ⟨h, v, if p = 0 then s.live else p :: s.live⟩ bs' ∧
      managed bs' = managed bs + if found = 0 ∧ p ≠ 0 then grownSize n else 0 := by
  have hround := (roundSize_of_noOverflow hn).2
  have hp : pageSize = 4096 := rfl
  have hle := hk.brk_le (sbrk (roundSize n + hdr) s.vmm).2
  rcases @kmallocScan_spec _ (roundSize n) bs _ 0 hs.heap.rep with
    ⟨xs, y, zs, l, rfl, hyf, hys, hfound⟩ | ⟨-, hnone⟩
  · cases hend.unique ⟨_, fun k hk => kmalloc_fit hs.heap (hfound k hk)⟩
    cases hfit.unique ⟨_, hfound⟩
    have hinv := kmallocTake_inv hs.heap hys (by omega)
    have hy0 : y.addr ≠ 0 := hs.heap.rep.chain.ne_null _ (by simp)
    obtain ⟨-, hl⟩ := @liveIn_malloced _ _ (roundSize n) 0 0 _ brk _ s.vmm _ _ _ _ _ _ hs.heap
      hs.heap.hi_le hs.liveIn (.fit rfl hyf hys hinv)
    refine ⟨_, ⟨hinv, hl, hs.noFreePair.take hyf⟩, ?_⟩
    rw [if_neg fun hc => hy0 hc.1]
    have := managed_takeBlock (roundSize n) y
    simp only [managed, List.map_append, List.sum_append, List.map_cons, List.sum_cons] at this ⊢
    omega
  · cases hfit.unique ⟨_, hnone⟩
    rcases hk.region _ s.vmm (by omega) with ⟨hfail, hhi⟩ | ⟨hlo, hhi⟩
    · cases hend.unique ⟨_, fun k hk => kmalloc_fail hs.heap hn (hnone k hk) hfail⟩
      exact ⟨bs, ⟨hs.heap.mono hhi hle, hs.liveIn, hs.noFreePair⟩, by simp⟩
    obtain ⟨h', hinv, hg⟩ := kmalloc_grow hs.heap hn hle hlo hhi
    cases hend.unique ⟨_, fun k hk => hg k (hnone k hk)⟩
    obtain ⟨-, hl⟩ := @liveIn_malloced _ _ 0 _ _ _ brk _ _ _ _ _ _ _ _ hs.heap hle hs.liveIn
      (.grow hlo hhi hinv)
    have := pageSize_le_grownSize n
    refine ⟨_, ⟨hinv, hl, hs.noFreePair.concat rfl⟩, ?_⟩
    rw [if_pos ⟨rfl, by simp⟩]
    simp only [managed, List.map_append, List.sum_append, List.map_singleton, List.sum_singleton, hdr]
    omega

theorem RunBy.free (hs : RunBy lo brk s bs) {p : ℕ} {h : Heap} (hp : p ∈ s.live)
    (hend : Ends (fun fuel => kfree fuel s.heap p) h) :
    ∃ bs', RunBy lo brk ⟨h, s.vmm, s.live.erase p⟩ bs' ∧ managed bs' = managed bs := by
  obtain ⟨b, hb, rfl, -⟩ := hs.liveIn.2 p hp
  obtain ⟨xs, zs, rfl⟩ := List.append_of_mem hb
  obtain ⟨h', hinv, hend'⟩ := kfree_refines hs.heap
  cases hend.unique ⟨_, hend'⟩
  refine ⟨_, ⟨hinv, hs.liveIn.free, coalesce_noFreePair _⟩, ?_⟩
  rw [coalesce_append coalesce_freeBlock, ← hs.heap.ordered.map_release, managed_coalesce,
    managed_release]

theorem RunBy.init (hle : brk s.vmm ≤ 2 ^ 64) (hs : HeapInit lo brk s) :
    ∃ bs, RunBy lo brk s bs ∧ managed bs = s.heap.heapTotalSize := by
  obtain ⟨h₀, size, hinit, hbrk, hlive⟩ := hs
  obtain ⟨hinv, hsize, htotal⟩ := HeapInv.init hinit hbrk hle
  refine ⟨_, ⟨hinv, by simp [LiveIn, hlive], List.isChain_singleton _⟩, ?_⟩
  simp [managed, htotal, hdr] at hsize ⊢
  omega

theorem RunBy.reachable (hk : SbrkOk sbrk brk) (h₀ : HeapInit lo brk s₀)
    (hs : ReflTransGen (HeapStep sbrk) s₀ s) : ∃ bs, RunBy lo brk s bs := by
  induction hs with
  | refl =>
    obtain ⟨bs, h, -⟩ := RunBy.init (hk.brk_le _) h₀
    exact ⟨bs, h⟩
  | @tail s t _ hst ih =>
    obtain ⟨bs, h⟩ := ih
    cases hst with
    | @malloc n _ _ _ hn hend =>
      obtain ⟨⟨found, last⟩, hfit⟩ : ∃ r, Ends (firstFit s.heap n) r := by
        rcases @kmallocScan_spec _ (roundSize n) bs _ 0 h.heap.rep with
          ⟨_, _, _, _, -, -, -, hfound⟩ | ⟨-, hnone⟩
        · exact ⟨_, _, hfound⟩
        · exact ⟨_, _, hnone⟩
      obtain ⟨bs', h', -⟩ := h.malloc hk hn hfit hend
      exact ⟨bs', h'⟩
    | free hp hend =>
      obtain ⟨bs', h', -⟩ := h.free hp hend
      exact ⟨bs', h'⟩

/-! ## The laws -/

def SameBlocks (h h' : Heap) : Prop :=
  h.heapStart = h'.heapStart ∧ ∃ bs, Represents h.blocks h.heapStart bs ∧
    Represents h'.blocks h'.heapStart bs ∧ ∀ b ∈ bs, h.blocks b.addr = h'.blocks b.addr

theorem HeapInv.sameBlocks {h h' : Heap} {lo lo' hi hi' : ℕ} (hv : HeapInv h bs lo hi)
    (hv' : HeapInv h' bs lo' hi') : SameBlocks h h' := by
  have hstart : ∀ {h : Heap} {lo hi}, HeapInv h bs lo hi → h.heapStart = firstAddr bs := by
    intro h lo hi hv
    have hc := hv.rep.chain
    cases bs with
    | nil => exact hc
    | cons b bs => exact hc.1
  refine ⟨(hstart hv).trans (hstart hv').symm, bs, hv.rep, hv'.rep, fun b hb => ?_⟩
  obtain ⟨hsize, hfree⟩ := hv.rep.data b hb
  obtain ⟨hsize', hfree'⟩ := hv'.rep.data b hb
  obtain ⟨xs, zs, rfl⟩ := List.append_of_mem hb
  have hnext := hv.rep.next_eq.2.trans hv'.rep.next_eq.2.symm
  cases hblock : h.blocks b.addr
  cases hblock' : h'.blocks b.addr
  simp_all

theorem freeBlock_takeBlock (size : ℕ) (h : NoFreePair (b :: zs)) (hb : b.free = true) :
    ∃ c cs, takeBlock size b = c :: cs ∧ c.payload = b.payload ∧ freeBlock c (cs ++ zs) = b :: zs := by
  have hset : ({ b with free := true } : Block) = b := by rw [← hb]
  unfold takeBlock
  split_ifs with hsplit
  · refine ⟨_, _, rfl, rfl, ?_⟩
    rw [List.singleton_append, freeBlock, if_pos rfl]
    have hsize : size + (hdr + (b.size - size - hdr)) = b.size := by omega
    simp only [joinBlock, hsize, hset]
  refine ⟨_, _, rfl, rfl, ?_⟩
  rw [List.nil_append]
  cases zs with
  | nil => rw [freeBlock, hset]
  | cons c zs =>
    have hc : ¬c.free = true := fun hc => (List.isChain_cons_cons.mp h).1 ⟨hb, hc⟩
    rw [freeBlock, if_neg hc, hset]

/-- **`kfree` undoes `kmalloc`**: in every state of every run, for every request that a free block can
satisfy, the two calls leave the block list as it was. -/
theorem kfree_undoes_kmalloc (hk : SbrkOk sbrk brk) (h₀ : HeapInit lo brk s₀)
    (hs : ReflTransGen (HeapStep sbrk) s₀ s) :
    ∃ bs, Represents s.heap.blocks s.heap.heapStart bs ∧
      ∀ n, NoOverflow n → (∃ b ∈ bs, b.free = true ∧ roundSize n ≤ b.size) →
        ∃ p h v h', p ≠ 0 ∧ Ends (fun fuel => kmalloc sbrk fuel s.heap s.vmm n) (p, h, v) ∧
          Ends (fun fuel => kfree fuel h p) h' ∧ SameBlocks s.heap h' := by
  obtain ⟨bs, h⟩ := RunBy.reachable hk h₀ hs
  refine ⟨bs, h.heap.rep, fun n hn ⟨b, hb, hbf, hbs⟩ => ?_⟩
  have hround := (roundSize_of_noOverflow hn).2
  have hp : pageSize = 4096 := rfl
  rcases @kmallocScan_spec _ (roundSize n) bs _ 0 h.heap.rep with
    ⟨xs, y, zs, l, rfl, hyf, hys, hfound⟩ | ⟨hnone, -⟩
  · obtain ⟨-, hyz, -⟩ := List.isChain_append.mp h.noFreePair
    obtain ⟨c, cs, htake, hpay, hfree⟩ := freeBlock_takeBlock (roundSize n) hyz hyf
    have hinv := kmallocTake_inv h.heap hys (by omega)
    rw [htake, List.append_assoc, List.cons_append] at hinv
    obtain ⟨h', hinv', hend⟩ := kfree_refines hinv
    rw [hfree, h.noFreePair.coalesce_eq] at hinv'
    rw [hpay] at hend
    exact ⟨y.payload, _, _, h', Nat.ne_of_gt (Nat.zero_lt_of_lt y.addr_lt_payload),
      ⟨_, fun k hk => kmalloc_fit h.heap (hfound k hk)⟩, ⟨_, hend⟩, h.heap.sameBlocks hinv'⟩
  · exact absurd hbs (not_le.mpr (hnone b hb hbf))

theorem kfree_undoes_kmalloc_onePage : ∃ bs, Represents onePage.heap.blocks onePage.heap.heapStart bs ∧
      ∀ n, NoOverflow n → (∃ b ∈ bs, b.free = true ∧ roundSize n ≤ b.size) →
        ∃ p h v h', p ≠ 0 ∧ Ends (fun fuel => kmalloc bumpSbrk fuel onePage.heap onePage.vmm n) (p, h, v) ∧
          Ends (fun fuel => kfree fuel h p) h' ∧ SameBlocks onePage.heap h' :=
  kfree_undoes_kmalloc bumpSbrk_ok onePage_init .refl

/-- **The order of two calls of `kfree` does not matter.** -/
theorem kfree_comm (hk : SbrkOk sbrk brk) (h₀ : HeapInit lo brk s₀)
    (hs : ReflTransGen (HeapStep sbrk) s₀ s) {p q : ℕ} (hp : p ∈ s.live) (hq : q ∈ s.live)
    (hne : p ≠ q) :
    ∃ h₁ h₂ k₁ k₂, Ends (fun fuel => kfree fuel s.heap p) h₁ ∧ Ends (fun fuel => kfree fuel h₁ q) h₂ ∧
      Ends (fun fuel => kfree fuel s.heap q) k₁ ∧ Ends (fun fuel => kfree fuel k₁ p) k₂ ∧
      SameBlocks h₂ k₂ := by
  obtain ⟨bs, h⟩ := RunBy.reachable hk h₀ hs
  -- Releasing one block leaves the other in the list, in use.
  have htwo : ∀ {p q : ℕ}, p ∈ s.live → q ∈ s.live → p ≠ q → ∃ h₁ h₂,
      Ends (fun fuel => kfree fuel s.heap p) h₁ ∧ Ends (fun fuel => kfree fuel h₁ q) h₂ ∧
        HeapInv h₂ (coalesce ((bs.map (release p)).map (release q))) lo (brk s.vmm) := by
    intro p q hp hq hne
    obtain ⟨b, hb, rfl, -⟩ := h.liveIn.2 p hp
    obtain ⟨c, hc, rfl, hcf⟩ := h.liveIn.2 q hq
    obtain ⟨h₁, hv₁, hend₁⟩ := kfree_release h.heap hb
    have hc' : c ∈ coalesce (bs.map (release b.payload)) :=
      (mem_coalesce_iff hcf).mpr (List.mem_map.mpr ⟨c, hc, if_neg hne.symm⟩)
    obtain ⟨h₂, hv₂, hend₂⟩ := kfree_release hv₁ hc'
    rw [coalesce_map (release_of_free _)] at hv₂
    exact ⟨h₁, h₂, hend₁, hend₂, hv₂⟩
  obtain ⟨h₁, h₂, hend₁, hend₂, hv⟩ := htwo hp hq hne
  obtain ⟨k₁, k₂, kend₁, kend₂, kv⟩ := htwo hq hp hne.symm
  rw [List.map_map, show release p ∘ release q = release q ∘ release p from
    funext (release_comm p q), ← List.map_map] at kv
  exact ⟨h₁, h₂, k₁, k₂, hend₁, hend₂, kend₁, kend₂, hv.sameBlocks kv⟩

theorem kfree_comm_onePage : ∃ s, ReflTransGen (HeapStep bumpSbrk) onePage s ∧
    s.live = [0x1000A0, 0x100018] ∧
    ∃ h₁ h₂ k₁ k₂, Ends (fun fuel => kfree fuel s.heap 0x100018) h₁ ∧
      Ends (fun fuel => kfree fuel h₁ 0x1000A0) h₂ ∧
      Ends (fun fuel => kfree fuel s.heap 0x1000A0) k₁ ∧
      Ends (fun fuel => kfree fuel k₁ 0x100018) k₂ ∧ SameBlocks h₂ k₂ := by
  have hst : HeapStep bumpSbrk ⟨kmallocTake onePage.heap 0x100000 112, 0x101000, [0x100018]⟩
      ⟨kmallocTake (kmallocTake onePage.heap 0x100000 112) 0x100088 112, 0x101000,
        [0x1000A0, 0x100018]⟩ :=
    .malloc (n := 100) (p := 0x1000A0) (by decide) ⟨2, fun k hk => by
      obtain ⟨k, rfl⟩ := Nat.exists_eq_add_of_le' hk
      rfl⟩
  have hrun := (ReflTransGen.single onePage_malloc).tail hst
  exact ⟨_, hrun, rfl, kfree_comm bumpSbrk_ok onePage_init hrun (by decide) (by decide) (by decide)⟩

end Runs

end KeonOS
