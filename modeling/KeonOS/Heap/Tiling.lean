import KeonOS.Heap.Adequate

/-!
# The heap tiles its memory

When `VMM::sbrk` provides each region at the break, or fails and leaves the break where it was, the
blocks of the heap lie end to end from `heap_start` to the break, and no two neighbours are free.

* **`heap_tiled`**: in every state of every run the blocks tile the heap, their sizes add up, and a
  heap with no live pointer is one free block.
-/

namespace KeonOS

open Word

/-! ## Runs -/

/-- One call, with the bytes by which it moves the break. -/
inductive ContiguousStep : HeapRun Vmm → ℕ → HeapRun Vmm → Prop
  | fit {s : HeapRun Vmm} {n a last p : ℕ} {h : Heap} {v : Vmm} : NoOverflow n →
      Ends (fun k => kmallocScan s.heap.blocks (roundSize n) k s.heap.heapStart 0) (a, last) →
      a ≠ 0 → Ends (fun k => kmalloc vmmSbrk k s.heap s.vmm n) (p, h, v) →
      ContiguousStep s 0 ⟨h, v, if p = 0 then s.live else p :: s.live⟩
  | fail {s : HeapRun Vmm} {n last p : ℕ} {h : Heap} {v : Vmm} : NoOverflow n →
      Ends (fun k => kmallocScan s.heap.blocks (roundSize n) k s.heap.heapStart 0) (0, last) →
      (vmmSbrk (roundSize n + hdr) s.vmm).1 = 2 ^ 64 - 1 →
      (vmmSbrk (roundSize n + hdr) s.vmm).2.kernelDynamicBreak = s.vmm.kernelDynamicBreak →
      Ends (fun k => kmalloc vmmSbrk k s.heap s.vmm n) (p, h, v) →
      ContiguousStep s 0 ⟨h, v, if p = 0 then s.live else p :: s.live⟩
  | grow {s : HeapRun Vmm} {n last p : ℕ} {h : Heap} {v : Vmm} : NoOverflow n →
      Ends (fun k => kmallocScan s.heap.blocks (roundSize n) k s.heap.heapStart 0) (0, last) →
      (vmmSbrk (roundSize n + hdr) s.vmm).1 = s.vmm.kernelDynamicBreak →
      (vmmSbrk (roundSize n + hdr) s.vmm).2.kernelDynamicBreak =
        s.vmm.kernelDynamicBreak + 4096 * sbrkPages (roundSize n + hdr) →
      Ends (fun k => kmalloc vmmSbrk k s.heap s.vmm n) (p, h, v) →
      ContiguousStep s (4096 * sbrkPages (roundSize n + hdr))
        ⟨h, v, if p = 0 then s.live else p :: s.live⟩
  | free {s : HeapRun Vmm} {p : ℕ} {h : Heap} : p ∈ s.live →
      Ends (fun k => kfree k s.heap p) h → ContiguousStep s 0 ⟨h, s.vmm, s.live.erase p⟩

/-- A run from `s₀`, with the growth of the break over all its calls. -/
inductive ContiguousRun (s₀ : HeapRun Vmm) : ℕ → HeapRun Vmm → Prop
  | refl : ContiguousRun s₀ 0 s₀
  | step {g g' : ℕ} {s t : HeapRun Vmm} : ContiguousRun s₀ g s → ContiguousStep s g' t →
      ContiguousRun s₀ (g + g') t

/-- A successful `kheap_init(lo, size)` with the break at the end of the heap. -/
structure ContiguousInit (lo size : ℕ) (s : HeapRun Vmm) : Prop where
  init : ∃ h₀, kheapInit h₀ lo size = (true, s.heap)
  brk : s.vmm.kernelDynamicBreak = lo + size
  brk_lt : s.vmm.kernelDynamicBreak < 2 ^ 64
  live : s.live = []

/-! ## Lists of blocks that lie end to end -/

def HeapTiles : ℕ → List Block → ℕ → Prop
  | lo, [], hi => lo = hi
  | lo, b :: bs, hi => b.addr = lo ∧ HeapTiles b.stop bs hi

def NoFreePair (bs : List Block) : Prop := bs.IsChain fun b c => ¬ (b.free = true ∧ c.free = true)

section Lists

variable {lo mid hi size : ℕ} {xs ys zs bs : List Block} {b c : Block}

theorem heapTiles_append : HeapTiles lo (xs ++ ys) hi ↔ ∃ mid, HeapTiles lo xs mid ∧ HeapTiles mid ys hi := by
  induction xs generalizing lo with
  | nil => simp [HeapTiles]
  | cons x xs ih => simp [HeapTiles, ih, and_assoc]

theorem HeapTiles.sum (h : HeapTiles lo bs hi) : lo + (bs.map fun b => hdr + b.size).sum = hi := by
  induction bs generalizing lo with
  | nil => exact h
  | cons b bs ih =>
    have hstop : b.stop = lo + hdr + b.size := by rw [Block.stop, h.1]
    have := ih h.2
    rw [List.map_cons, List.sum_cons]
    omega

theorem HeapTiles.isChain (h : HeapTiles lo bs hi) :
    bs.IsChain fun b c => c.addr = b.addr + hdr + b.size := by
  induction bs generalizing lo with
  | nil => exact List.isChain_nil
  | cons b bs ih =>
    cases bs with
    | nil => exact List.isChain_singleton _
    | cons c bs => exact List.isChain_cons_cons.mpr ⟨h.2.1, ih h.2⟩

theorem HeapTiles.getLast (h : HeapTiles lo bs hi) (hne : bs ≠ []) : (bs.getLast hne).stop = hi := by
  obtain ⟨ys, b, rfl⟩ := (List.eq_nil_or_concat bs).resolve_left hne
  simp only [List.concat_eq_append] at h ⊢
  obtain ⟨mid, -, -, hb⟩ := heapTiles_append.mp h
  rwa [List.getLast_concat]

theorem heapTiles_takeBlock (size : ℕ) (b : Block) : HeapTiles b.addr (takeBlock size b) b.stop := by
  unfold takeBlock
  split_ifs with hs
  · refine ⟨rfl, rfl, ?_⟩
    simp only [Block.stop, HeapTiles]
    omega
  · exact ⟨rfl, rfl⟩

theorem HeapTiles.take (h : HeapTiles lo (xs ++ b :: zs) hi) (size : ℕ) :
    HeapTiles lo (xs ++ takeBlock size b ++ zs) hi := by
  obtain ⟨mid, hx, hb, hz⟩ := heapTiles_append.mp h
  rw [List.append_assoc]
  exact heapTiles_append.mpr ⟨mid, hx, heapTiles_append.mpr ⟨_, hb ▸ heapTiles_takeBlock size b, hz⟩⟩

theorem HeapTiles.join (h : HeapTiles lo (b :: c :: zs) hi) : HeapTiles lo (joinBlock b c :: zs) hi := by
  have hstop : (joinBlock b c).stop = c.stop := by
    have := h.2.1
    simp only [Block.stop, joinBlock] at this ⊢
    omega
  refine ⟨h.1, ?_⟩
  rw [hstop]
  exact h.2.2

theorem HeapTiles.coalesce : ∀ {lo : ℕ}, HeapTiles lo bs hi → HeapTiles lo (coalesce bs) hi := by
  induction bs using KeonOS.coalesce.induct with
  | case1 =>
    intro lo h
    rwa [KeonOS.coalesce]
  | case2 b =>
    intro lo h
    rwa [KeonOS.coalesce]
  | case3 b c bs hfree ih =>
    intro lo h
    rw [KeonOS.coalesce, if_pos hfree]
    exact ih h.join
  | case4 b c bs hfree ih =>
    intro lo h
    rw [KeonOS.coalesce, if_neg hfree]
    exact ⟨h.1, ih h.2⟩

theorem HeapTiles.freeBlock (h : HeapTiles lo (b :: zs) hi) : HeapTiles lo (freeBlock b zs) hi := by
  have hset : HeapTiles lo ({ b with free := true } :: zs) hi := h
  cases zs with
  | nil => exact hset
  | cons c zs =>
    rw [KeonOS.freeBlock]
    split_ifs
    · exact hset.join
    · exact hset

theorem coalesce_head (b : Block) (bs : List Block) :
    ∃ d ds, coalesce (b :: bs) = d :: ds ∧ d.free = b.free := by
  induction bs generalizing b with
  | nil => exact ⟨b, [], by rw [coalesce], rfl⟩
  | cons c bs ih =>
    rw [coalesce]
    split_ifs
    · exact ih (joinBlock b c)
    · exact ⟨b, _, rfl, rfl⟩

theorem coalesce_noFreePair (bs : List Block) : NoFreePair (coalesce bs) := by
  induction bs using coalesce.induct with
  | case1 =>
    rw [coalesce]
    exact List.isChain_nil
  | case2 b =>
    rw [coalesce]
    exact List.isChain_singleton _
  | case3 b c bs hfree ih => rwa [coalesce, if_pos hfree]
  | case4 b c bs hfree ih =>
    rw [coalesce, if_neg hfree]
    obtain ⟨d, ds, hd, hdf⟩ := coalesce_head c bs
    rw [hd] at ih ⊢
    exact List.isChain_cons_cons.mpr ⟨hdf.symm ▸ hfree, ih⟩

theorem NoFreePair.take (h : NoFreePair (xs ++ b :: zs)) (hb : b.free = true) :
    NoFreePair (xs ++ takeBlock size b ++ zs) := by
  obtain ⟨hx, hbz, hlast⟩ := List.isChain_append.mp h
  have hz : ∀ z ∈ zs.head?, z.free = false := by
    intro z hz
    obtain ⟨rest, rfl⟩ := List.head?_eq_some_iff.mp hz
    have := (List.isChain_cons_cons.mp hbz).1
    simpa [hb] using this
  have hzs : zs.IsChain fun b c => ¬ (b.free = true ∧ c.free = true) := hbz.tail
  rw [List.append_assoc]
  refine List.isChain_append.mpr ⟨hx, ?_, ?_⟩
  · unfold takeBlock
    split_ifs
    · refine List.isChain_append.mpr ⟨by simp, hzs, fun y _ z hz' => ?_⟩
      simp [hz z hz']
    · refine List.isChain_append.mpr ⟨by simp, hzs, fun y _ z hz' => ?_⟩
      simp [hz z hz']
  · intro x _ y hy
    have hy' : y.free = false := by
      unfold takeBlock at hy
      split_ifs at hy <;> (simp at hy; rw [← hy])
    simp [hy']

theorem NoFreePair.concat (h : NoFreePair bs) (hb : b.free = false) : NoFreePair (bs ++ [b]) := by
  refine List.isChain_append.mpr ⟨h, List.isChain_singleton _, fun x _ y hy => ?_⟩
  obtain rfl : b = y := by simpa using hy
  simp [hb]

theorem NoFreePair.eq_singleton (h : NoFreePair bs) (hne : bs ≠ [])
    (hfree : ∀ b ∈ bs, b.free = true) : ∃ b, bs = [b] := by
  cases bs with
  | nil => exact absurd rfl hne
  | cons b bs =>
    cases bs with
    | nil => exact ⟨b, rfl⟩
    | cons c bs =>
      exact absurd ⟨hfree b (by simp), hfree c (by simp)⟩ (List.isChain_cons_cons.mp h).1

theorem mem_of_mem_freeBlock {d : Block} (hd : d ∈ freeBlock b zs) (hdf : d.free = false) : d ∈ zs := by
  cases zs with
  | nil =>
    obtain rfl := List.mem_singleton.mp hd
    cases hdf
  | cons c zs =>
    rw [freeBlock] at hd
    split_ifs at hd
    · rcases List.mem_cons.mp hd with rfl | hd
      · cases hdf
      · exact List.mem_cons_of_mem _ hd
    · rcases List.mem_cons.mp hd with rfl | hd
      · cases hdf
      · exact hd

end Lists

/-! ## The invariant -/

/-- The blocks, end to end from `lo` to the break, with a live pointer for each block in use. -/
structure TiledBy (lo : ℕ) (s : HeapRun Vmm) (bs : List Block) : Prop where
  heap : HeapInv s.heap bs lo s.vmm.kernelDynamicBreak
  liveIn : LiveIn s.live bs
  tiles : HeapTiles lo bs s.vmm.kernelDynamicBreak
  noFreePair : NoFreePair bs
  used : ∀ b ∈ bs, b.free = false → b.payload ∈ s.live

theorem TiledBy.init {lo size : ℕ} {s : HeapRun Vmm} (h : ContiguousInit lo size s) :
    ∃ bs, TiledBy lo s bs := by
  obtain ⟨⟨h₀, hinit⟩, hbrk, hlt, hlive⟩ := h
  obtain ⟨hinv, hsize, -⟩ := HeapInv.init hinit hbrk.ge hlt.le
  refine ⟨_, hinv, by simp [LiveIn, hlive], ⟨rfl, ?_⟩, List.isChain_singleton _, by simp⟩
  simp only [HeapTiles, Block.stop]
  omega

theorem sbrkPages_eq_grownSize {n : ℕ} (hn : NoOverflow n) :
    4096 * sbrkPages (roundSize n + hdr) = grownSize n := by
  obtain ⟨-, h⟩ := roundSize_of_noOverflow hn
  have hp : pageSize = 4096 := rfl
  simp only [sbrkPages, grownSize, alignUp, alignDown]
  rw [add64_of_lt (by omega), hp]
  omega

theorem takeBlock_used {size : ℕ} {b c : Block} (hc : c ∈ takeBlock size b) (hcf : c.free = false) :
    c.payload = b.payload := by
  unfold takeBlock at hc
  split_ifs at hc
  · simp only [List.mem_cons, List.not_mem_nil, or_false] at hc
    rcases hc with rfl | rfl
    · rfl
    · cases hcf
  · obtain rfl := List.mem_singleton.mp hc
    rfl

namespace TiledBy

variable {lo g : ℕ} {s t : HeapRun Vmm} {bs xs zs : List Block} {y : Block}

theorem fit {n : ℕ} (h : TiledBy lo s (xs ++ y :: zs)) (hn : NoOverflow n) (hyf : y.free = true)
    (hys : roundSize n ≤ y.size) :
    TiledBy lo ⟨kmallocTake s.heap y.addr (roundSize n), s.vmm,
      if y.payload = 0 then s.live else y.payload :: s.live⟩
      (xs ++ takeBlock (roundSize n) y ++ zs) := by
  obtain ⟨-, hn2⟩ := roundSize_of_noOverflow hn
  have hp : pageSize = 4096 := rfl
  have hinv := kmallocTake_inv h.heap hys (by omega)
  obtain ⟨-, hl⟩ := @liveIn_malloced _ _ (roundSize n) 0 0 _ Vmm.kernelDynamicBreak _ s.vmm _ _ _
    _ _ _ h.heap h.heap.hi_le h.liveIn (.fit rfl hyf hys hinv)
  refine ⟨hinv, hl, h.tiles.take _, h.noFreePair.take hyf, fun c hc hcf => ?_⟩
  rw [List.append_assoc, List.mem_append, List.mem_append] at hc
  rcases hc with hc | hc | hc
  · exact List.mem_cons_of_mem _ (h.used c (by simp [hc]) hcf)
  · exact takeBlock_used hc hcf ▸ List.mem_cons_self
  · exact List.mem_cons_of_mem _ (h.used c (by simp [hc]) hcf)

theorem grow {n : ℕ} {h' : Heap} {v : Vmm} (h : TiledBy lo s bs)
    (hbrk : v.kernelDynamicBreak = s.vmm.kernelDynamicBreak + grownSize n)
    (hlt : v.kernelDynamicBreak < 2 ^ 64)
    (hinv : HeapInv h' (bs ++
      [{ addr := s.vmm.kernelDynamicBreak, size := grownSize n - hdr, free := false }])
      lo v.kernelDynamicBreak) :
    TiledBy lo ⟨h', v, if s.vmm.kernelDynamicBreak + hdr = 0 then s.live
      else (s.vmm.kernelDynamicBreak + hdr) :: s.live⟩
      (bs ++ [{ addr := s.vmm.kernelDynamicBreak, size := grownSize n - hdr, free := false }]) := by
  have h24 : hdr = 24 := rfl
  have hp : pageSize = 4096 := rfl
  have hlen := pageSize_le_grownSize n
  obtain ⟨-, hl⟩ := @liveIn_malloced _ _ 0 _ _ _ Vmm.kernelDynamicBreak _ v _ _ _ _ _ _ h.heap
    hlt.le h.liveIn (.grow le_rfl hbrk.ge hinv)
  refine ⟨hinv, hl, ?_, h.noFreePair.concat rfl, fun c hc hcf => ?_⟩
  · refine heapTiles_append.mpr ⟨_, h.tiles, rfl, ?_⟩
    simp only [HeapTiles, Block.stop]
    omega
  · rcases List.mem_append.mp hc with hc | hc
    · exact List.mem_cons_of_mem _ (h.used c hc hcf)
    · obtain rfl := List.mem_singleton.mp hc
      exact List.mem_cons_self

theorem free {h' : Heap} (h : TiledBy lo s (xs ++ y :: zs))
    (hinv : HeapInv h' (coalesce (xs ++ freeBlock y zs)) lo s.vmm.kernelDynamicBreak) :
    TiledBy lo ⟨h', s.vmm, s.live.erase y.payload⟩ (coalesce (xs ++ freeBlock y zs)) := by
  refine ⟨hinv, h.liveIn.free, ?_, coalesce_noFreePair _, fun d hd hdf => ?_⟩
  · obtain ⟨mid, hx, hyz⟩ := heapTiles_append.mp h.tiles
    exact (heapTiles_append.mpr ⟨mid, hx, hyz.freeBlock⟩).coalesce
  have ho := h.heap.ordered
  have hd' := List.mem_append.mp ((mem_coalesce_iff hdf).mp hd)
  have hmem : d ∈ xs ++ y :: zs ∧ d.addr ≠ y.addr := by
    rcases hd' with hd' | hd'
    · exact ⟨by simp [hd'], Nat.ne_of_lt (d.addr_lt_stop.trans_le (ho.before d hd'))⟩
    · have hz := mem_of_mem_freeBlock hd' hdf
      exact ⟨by simp [hz], Nat.ne_of_gt (y.addr_lt_stop.trans_le (ho.after d hz))⟩
  refine (List.mem_erase_of_ne fun e => hmem.2 ?_).mpr (h.used d hmem.1 hdf)
  exact Block.addr_eq_of_payload e

end TiledBy

/-! ## Runs -/

theorem sbrkLoop_brk_lt (n : ℕ) : ∀ {v : Vmm}, v.kernelDynamicBreak < 2 ^ 64 →
    (sbrkLoop n v).2.kernelDynamicBreak < 2 ^ 64 := by
  induction n with
  | zero => exact fun h => h
  | succ n ih =>
    intro v h
    have hpage : (sbrkPage v).2.kernelDynamicBreak < 2 ^ 64 := by
      unfold sbrkPage
      dsimp only
      split_ifs
      · exact h
      · exact Nat.mod_lt _ (by norm_num)
    rw [sbrkLoop]
    rcases hp : sbrkPage v with ⟨_ | _, v'⟩
    all_goals rw [hp] at hpage
    · exact hpage
    · exact ih hpage

theorem vmmSbrk_brk_lt (n : ℕ) {v : Vmm} (h : v.kernelDynamicBreak < 2 ^ 64) :
    (vmmSbrk n v).2.kernelDynamicBreak < 2 ^ 64 := by
  unfold vmmSbrk
  split_ifs
  · exact h
  · exact h
  have hl := sbrkLoop_brk_lt (sbrkPages n) (v := v.account (sbrkPages n * 4096)) h
  rcases hs : sbrkLoop (sbrkPages n) (v.account (sbrkPages n * 4096)) with ⟨_ | _, v'⟩
  all_goals
    rwa [hs] at hl

/-- The state of a run: the blocks tile the heap, and the break has moved by `g`. -/
structure TiledRun (lo size g : ℕ) (s : HeapRun Vmm) : Prop where
  blocks : ∃ bs, TiledBy lo s bs
  brk : s.vmm.kernelDynamicBreak = lo + size + g
  brk_lt : s.vmm.kernelDynamicBreak < 2 ^ 64

theorem TiledRun.step {lo size g g' : ℕ} {s t : HeapRun Vmm} (h : TiledRun lo size g s)
    (hst : ContiguousStep s g' t) : TiledRun lo size (g + g') t := by
  obtain ⟨⟨bs, hb⟩, hbrk, hlt⟩ := h
  have hscan (n : ℕ) := @kmallocScan_spec s.heap.blocks (roundSize n) bs s.heap.heapStart 0 hb.heap.rep
  have hends {n : ℕ} {r : ℕ × ℕ} (hr : ∀ k, bs.length < k →
      kmallocScan s.heap.blocks (roundSize n) k s.heap.heapStart 0 = some r) :
      Ends (fun k => kmallocScan s.heap.blocks (roundSize n) k s.heap.heapStart 0) r :=
    ⟨bs.length + 1, hr⟩
  cases hst with
  | @fit n a last p h' v hn hsc ha hend =>
    rcases hscan n with ⟨xs, y, zs, l, rfl, hyf, hys, hfound⟩ | ⟨-, hnone⟩
    · cases hend.unique ⟨_, fun k hk => kmalloc_fit hb.heap (hfound k hk)⟩
      exact ⟨⟨_, hb.fit hn hyf hys⟩, hbrk, hlt⟩
    · cases hsc.unique (hends hnone)
      exact absurd rfl ha
  | @fail n last p h' v hn hsc hr hsame hend =>
    rcases hscan n with ⟨xs, y, zs, l, rfl, -, -, hfound⟩ | ⟨-, hnone⟩
    · obtain ⟨hy, -⟩ := Prod.mk.inj (hsc.unique (hends hfound))
      exact absurd hy.symm (hb.heap.rep.chain.ne_null _ (by simp))
    · cases hend.unique ⟨_, fun k hk => kmalloc_fail hb.heap hn (hnone k hk) (.inl hr)⟩
      refine ⟨⟨bs, ?_⟩, hsame.trans hbrk, hsame.trans_lt hlt⟩
      exact ⟨hsame ▸ hb.heap, hb.liveIn, hsame ▸ hb.tiles, hb.noFreePair, hb.used⟩
  | @grow n last p h' v hn hsc hr hmove hend =>
    rcases hscan n with ⟨xs, y, zs, l, rfl, -, -, hfound⟩ | ⟨-, hnone⟩
    · obtain ⟨hy, -⟩ := Prod.mk.inj (hsc.unique (hends hfound))
      exact absurd hy.symm (hb.heap.rep.chain.ne_null _ (by simp))
    have hlt' := vmmSbrk_brk_lt (roundSize n + hdr) hlt
    rw [sbrkPages_eq_grownSize hn] at hmove ⊢
    obtain ⟨h', hinv, hk⟩ := kmalloc_grow hb.heap hn hlt'.le hr.ge (hr ▸ hmove.ge)
    rw [hr] at hinv hk
    cases hend.unique ⟨_, fun k hlen => hk k (hnone k hlen)⟩
    exact ⟨⟨_, hb.grow hmove hlt' hinv⟩, by rw [hmove, hbrk, Nat.add_assoc], hlt'⟩
  | @free p h' hp hend =>
    obtain ⟨y, hy, rfl, -⟩ := hb.liveIn.2 p hp
    obtain ⟨xs, zs, rfl⟩ := List.append_of_mem hy
    obtain ⟨h', hinv, hk⟩ := kfree_refines hb.heap
    cases hend.unique ⟨_, hk⟩
    exact ⟨⟨_, hb.free hinv⟩, hbrk, hlt⟩

theorem ContiguousRun.tiled {lo size g : ℕ} {s₀ s : HeapRun Vmm} (h₀ : ContiguousInit lo size s₀)
    (hs : ContiguousRun s₀ g s) : TiledRun lo size g s := by
  induction hs with
  | refl => exact ⟨TiledBy.init h₀, h₀.brk, h₀.brk_lt⟩
  | step _ hst ih => exact ih.step hst

/-- What a heap of `total` bytes from `lo` to the break `brk` must look like. -/
structure TilingBlocks (lo total brk : ℕ) (live : List ℕ) (bs : List Block) : Prop where
  first : ∃ b, bs.head? = some b ∧ b.addr = lo
  next : bs.IsChain fun b c => c.addr = b.addr + 24 + b.size
  last : ∃ b, bs.getLast? = some b ∧ b.addr + 24 + b.size = brk
  sum : (bs.map fun b => 24 + b.size).sum = total
  noFreePair : bs.IsChain fun b c => ¬ (b.free = true ∧ c.free = true)
  empty : live = [] → bs = [{ addr := lo, size := total - 24, free := true }]

/-- **The heap tiles its memory** in every run in which each `VMM::sbrk` provides a region at the break or
leaves it: the blocks lie end to end up to the break, no two neighbours are free, and a heap with no live
pointer is one free block. -/
theorem heap_tiled {lo size g : ℕ} {s₀ s : HeapRun Vmm} (h₀ : ContiguousInit lo size s₀)
    (hs : ContiguousRun s₀ g s) :
    ∃ bs, Represents s.heap.blocks s.heap.heapStart bs ∧
      TilingBlocks lo (size + g) s.vmm.kernelDynamicBreak s.live bs := by
  obtain ⟨⟨bs, hb⟩, hbrk, -⟩ := hs.tiled h₀
  have hsum := hb.tiles.sum
  have htotal : (bs.map fun b => 24 + b.size).sum = size + g := by
    have h : (bs.map fun b => hdr + b.size) = bs.map fun b => 24 + b.size := rfl
    rw [h] at hsum
    omega
  refine ⟨bs, hb.heap.rep, ?_, hb.tiles.isChain, ?_, htotal, hb.noFreePair, fun hlive => ?_⟩
  · obtain ⟨b, bs, rfl⟩ := List.exists_cons_of_ne_nil hb.heap.ne_nil
    exact ⟨b, rfl, hb.tiles.1⟩
  · exact ⟨_, List.getLast?_eq_some_getLast hb.heap.ne_nil, hb.tiles.getLast hb.heap.ne_nil⟩
  have hfree : ∀ b ∈ bs, b.free = true := by
    intro b hm
    by_contra hbf
    have := hb.used b hm (by simpa using hbf)
    rw [hlive] at this
    cases this
  obtain ⟨b, rfl⟩ := hb.noFreePair.eq_singleton hb.heap.ne_nil hfree
  have haddr : b.addr = lo := hb.tiles.1
  have hbf := hfree b List.mem_cons_self
  rw [List.map_singleton, List.sum_singleton] at htotal
  cases b
  simp only at haddr hbf htotal
  rw [haddr, hbf, ← htotal, Nat.add_sub_cancel_left]

theorem heap_tiled_onePage : ∃ s, ContiguousRun onePageHeap 8192 s ∧ ∃ bs,
      Represents s.heap.blocks s.heap.heapStart bs ∧
        TilingBlocks 0xFFFFFFFF80200000 (0x1000 + 8192) s.vmm.kernelDynamicBreak s.live bs := by
  have h₀ : ContiguousInit 0xFFFFFFFF80200000 0x1000 onePageHeap :=
    ⟨⟨⟨fun _ => ⟨0, false, 0⟩, 0, 0⟩, rfl⟩, by decide +kernel, by decide +kernel, rfl⟩
  obtain ⟨p, h, v, hend, -⟩ := kernelHeap_malloc (n := 4096)
    (kernelHeap_reachable kernelHeapInit_onePageHeap .refl) (by decide)
    (by unfold RequestCovered; decide +kernel)
  have hscan : Ends (fun k => kmallocScan onePageHeap.heap.blocks (roundSize 4096) k
      onePageHeap.heap.heapStart 0) (0, 0xFFFFFFFF80200000) := by
    refine ⟨2, fun k hk => ?_⟩
    obtain ⟨k, rfl⟩ := Nat.exists_eq_add_of_le' hk
    rfl
  have hst := ContiguousStep.grow (by decide) hscan (by decide +kernel) (by decide +kernel) hend
  have hrun : ContiguousRun onePageHeap 8192 _ := .step .refl hst
  exact ⟨_, hrun, heap_tiled h₀ hrun⟩

end KeonOS
