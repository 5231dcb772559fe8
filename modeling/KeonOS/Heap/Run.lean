import KeonOS.Heap.Refine
import KeonOS.Lib.Fuel

/-!
# Runs of the kernel heap

A run starts with a successful `kheap_init` and goes on with calls of `kmalloc`, for requests that
do not overflow, and of `kfree`, for live pointers. `VMM::sbrk` is any provider that returns whole
pages above everything it returned before, or fails (`SbrkOk`).

* **`heap_safe`**: in every state of every run the block list is finite and ordered, and the live
  pointers are distinct payloads that meet no other payload and no header.
-/

namespace KeonOS

open Word Relation

variable {σ : Type} {lo : ℕ}

/-- `VMM::sbrk` as the heap relies on it. Everything provided so far lies below `brk v`. -/
structure SbrkOk (sbrk : ℕ → σ → ℕ × σ) (brk : σ → ℕ) : Prop where
  region : ∀ n v, n + (pageSize - 1) < 2 ^ 64 →
    RegionOk (brk v) (alignUp pageSize n) (sbrk n v).1 (brk (sbrk n v).2)
  brk_le : ∀ v, brk v ≤ 2 ^ 64

/-- A state of a run: the heap, the provider and the pointers handed out and not yet freed. -/
structure HeapRun (σ : Type) where
  heap : Heap
  vmm : σ
  live : List ℕ

inductive HeapStep (sbrk : ℕ → σ → ℕ × σ) : HeapRun σ → HeapRun σ → Prop
  | malloc {s : HeapRun σ} {n p : ℕ} {h : Heap} {v : σ} : NoOverflow n →
      Ends (fun fuel => kmalloc sbrk fuel s.heap s.vmm n) (p, h, v) →
      HeapStep sbrk s ⟨h, v, if p = 0 then s.live else p :: s.live⟩
  | free {s : HeapRun σ} {p : ℕ} {h : Heap} : p ∈ s.live →
      Ends (fun fuel => kfree fuel s.heap p) h → HeapStep sbrk s ⟨h, s.vmm, s.live.erase p⟩

/-- The state after a successful `kheap_init` on memory from `lo` on, below the first region. -/
def HeapInit (lo : ℕ) (brk : σ → ℕ) (s : HeapRun σ) : Prop :=
  ∃ h₀ size, kheapInit h₀ lo size = (true, s.heap) ∧ lo + size ≤ brk s.vmm ∧ s.live = []

/-- The live pointers are distinct payloads of blocks in use. -/
def LiveIn (live : List ℕ) (bs : List Block) : Prop :=
  live.Nodup ∧ ∀ p ∈ live, ∃ b ∈ bs, b.payload = p ∧ b.free = false

def RunInv (lo : ℕ) (brk : σ → ℕ) (s : HeapRun σ) : Prop :=
  ∃ bs, HeapInv s.heap bs lo (brk s.vmm) ∧ LiveIn s.live bs

/-! ## The start -/

theorem HeapInv.init {h₀ h : Heap} {size hi : ℕ} (hinit : kheapInit h₀ lo size = (true, h))
    (hle : lo + size ≤ hi) (hhi : hi ≤ 2 ^ 64) :
    HeapInv h [{ addr := lo, size := size - hdr, free := true }] lo hi ∧ hdr * 2 ≤ size ∧
      h.heapTotalSize = size := by
  have h24 : hdr = 24 := rfl
  unfold kheapInit at hinit
  split_ifs at hinit with hbad
  · simp at hinit
  simp only [Prod.mk.injEq, true_and] at hinit
  rw [not_or] at hbad
  have hsub : sub64 size hdr = size - hdr := sub64_of_le (by omega)
  subst hinit
  refine ⟨⟨⟨?_, ?_⟩, List.pairwise_singleton _ _, ?_, by omega, hhi, by simp⟩, by omega, rfl⟩
  · exact ⟨rfl, hbad.1, by simp [Heap.put, Chain]⟩
  · simp [Heap.put, hsub]
  · intro b hb
    obtain rfl := List.mem_singleton.mp hb
    simp only [Block.payload, Block.stop]
    omega

variable {brk : σ → ℕ} {s : HeapRun σ} {bs bs' : List Block} {b c : Block} {p : ℕ}
  {sbrk : ℕ → σ → ℕ × σ}

theorem runInv_init {lo : ℕ} (hle : brk s.vmm ≤ 2 ^ 64) (hs : HeapInit lo brk s) : RunInv lo brk s := by
  obtain ⟨h₀, size, hinit, hbrk, hlive⟩ := hs
  exact ⟨_, (HeapInv.init hinit hbrk hle).1, by simp [LiveIn, hlive]⟩

/-! ## One call -/

theorem LiveIn.mono {live : List ℕ} (h : LiveIn live bs)
    (hb : ∀ b ∈ bs, b.free = false → b ∈ bs') : LiveIn live bs' :=
  ⟨h.1, fun p hp => by
    obtain ⟨b, hb1, hb2, hb3⟩ := h.2 p hp
    exact ⟨b, hb b hb1 hb3, hb2, hb3⟩⟩

theorem LiveIn.cons {live : List ℕ} {bs bs' : List Block} (h : LiveIn live bs)
    (hb : ∀ b ∈ bs, b.free = false → b ∈ bs') {c : Block} (hc : c ∈ bs') (hcf : c.free = false)
    (hnew : ∀ b ∈ bs, b.free = false → b.payload ≠ c.payload) : LiveIn (c.payload :: live) bs' := by
  refine ⟨List.nodup_cons.mpr ⟨fun hp => ?_, h.1⟩, fun p hp => ?_⟩
  · obtain ⟨b, hb1, hb2, hb3⟩ := h.2 _ hp
    exact hnew b hb1 hb3 hb2
  · rcases List.mem_cons.mp hp with rfl | hp
    · exact ⟨c, hc, rfl, hcf⟩
    · exact (h.mono hb).2 p hp

theorem Block.addr_eq_of_payload (h : b.payload = c.payload) : b.addr = c.addr := by
  simpa [Block.payload] using h

theorem liveIn_malloced {size r len p : ℕ} {brk : σ → ℕ} {v v₁ v' : σ} {h h' : Heap}
    {bs bs' : List Block} {live : List ℕ} (hv : HeapInv h bs lo (brk v)) (hle : brk v₁ ≤ 2 ^ 64)
    (hl : LiveIn live bs) (hm : Malloced size r len h bs lo (brk v) (brk v₁) v v₁ p h' v' bs') :
    HeapInv h' bs' lo (brk v') ∧ LiveIn (if p = 0 then live else p :: live) bs' := by
  cases hm with
  | @fit _ xs zs y hbs hyf hys hinv =>
    subst hbs
    obtain ⟨c, hc, hca, hcf, -⟩ := takeBlock_head hys
    have hcp : c.payload = y.payload := by simp only [Block.payload, hca]
    have hne : ∀ b ∈ xs ++ y :: zs, b.free = false → b ≠ y := by
      rintro b - hbf rfl
      simp [hyf] at hbf
    have hp0 : y.payload ≠ 0 := Nat.ne_of_gt (Nat.zero_lt_of_lt y.addr_lt_payload)
    rw [if_neg hp0, ← hcp]
    refine ⟨hinv, hl.cons (fun b hb hbf => ?_) (by simp [hc]) hcf fun b hb hbf e => ?_⟩
    · have hby := hne b hb hbf
      simp only [List.mem_append, List.mem_cons] at hb ⊢
      tauto
    · exact hne b hb hbf (hv.ordered.eq_of_addr hb (by simp) ((Block.addr_eq_of_payload e).trans hca))
  | fail hh => exact ⟨hv.mono hh hle, by simpa using hl⟩
  | grow hlo hhi hinv =>
    refine ⟨hinv, hl.cons (c := { addr := r, size := len - hdr, free := false })
      (fun b hb _ => by simp [hb]) (by simp) rfl fun b hb _ e => ?_⟩
    have h1 := (hv.within b hb).2.2
    have h2 := b.addr_lt_stop
    have h3 : b.addr = r := Block.addr_eq_of_payload e
    omega

theorem adequate_malloced {size r len hi hi' : ℕ} {v v₁ v' : σ} {h h' : Heap} (hlen : size + hdr ≤ len)
    (hm : Malloced size r len h bs lo hi hi' v v₁ p h' v' bs') (hp : p ≠ 0) :
    ∃ b ∈ bs', b.payload = p ∧ size ≤ b.size := by
  cases hm with
  | @fit _ xs zs y hbs hyf hys hinv =>
    obtain ⟨c, hc, hca, -, hcs⟩ := takeBlock_head hys
    exact ⟨c, by simp [hc], by simp only [Block.payload, hca], hcs⟩
  | fail => exact absurd rfl hp
  | grow => exact ⟨{ addr := r, size := len - hdr, free := false }, by simp, rfl, by simp; omega⟩

theorem runInv_malloc {n : ℕ} (hs : RunInv lo brk s) (hn : NoOverflow n)
    (hle : brk (sbrk (roundSize n + hdr) s.vmm).2 ≤ 2 ^ 64)
    (hr : RegionOk (brk s.vmm) (grownSize n) (sbrk (roundSize n + hdr) s.vmm).1
      (brk (sbrk (roundSize n + hdr) s.vmm).2)) :
    ∃ p h v, Ends (fun fuel => kmalloc sbrk fuel s.heap s.vmm n) (p, h, v) ∧
      RunInv lo brk ⟨h, v, if p = 0 then s.live else p :: s.live⟩ ∧
      (v = s.vmm ∨ v = (sbrk (roundSize n + hdr) s.vmm).2) ∧
      (p ≠ 0 → ∃ a, a + hdr = p ∧ n ≤ (h.blocks a).size ∧ lo ≤ a ∧
        a + hdr + (h.blocks a).size ≤ brk v) := by
  obtain ⟨bs, hv, hl⟩ := hs
  obtain ⟨hn1, -⟩ := roundSize_of_noOverflow hn
  obtain ⟨p, h, v, bs', hend, hm⟩ := kmalloc_refines hv hn hle hr
  obtain ⟨h1, h2⟩ := liveIn_malloced hv hle hl hm
  refine ⟨p, h, v, ⟨bs.length + 1, hend⟩, ⟨bs', h1, h2⟩, ?_, fun hp => ?_⟩
  · cases hm <;> simp
  obtain ⟨b, hb, rfl, hbs⟩ := adequate_malloced (le_alignUp (by norm_num) _) hm hp
  obtain ⟨hlo, -, hstop⟩ := h1.within b hb
  refine ⟨b.addr, rfl, ?_, hlo, ?_⟩
  · rw [(h1.rep.data b hb).1]
    exact hn1.trans hbs
  · rwa [(h1.rep.data b hb).1]

theorem mem_coalesce_free {xs zs : List Block} (hc : c ∈ xs ++ b :: zs)
    (hcb : c ≠ b) (hcf : c.free = false) : c ∈ coalesce (xs ++ freeBlock b zs) := by
  rw [mem_coalesce_iff hcf]
  rw [List.mem_append] at hc ⊢
  refine hc.imp_right fun hc => ?_
  have hc : c ∈ zs := (List.mem_cons.mp hc).resolve_left hcb
  cases zs with
  | nil => simp at hc
  | cons d zs =>
    rw [freeBlock]
    split_ifs with hd
    · rcases List.mem_cons.mp hc with rfl | hc
      · simp [hcf] at hd
      · exact List.mem_cons_of_mem _ hc
    · exact List.mem_cons_of_mem _ hc

theorem LiveIn.free {live : List ℕ} {xs zs : List Block} {b : Block} (h : LiveIn live (xs ++ b :: zs)) :
    LiveIn (live.erase b.payload) (coalesce (xs ++ freeBlock b zs)) := by
  refine ⟨h.1.erase _, fun q hq => ?_⟩
  obtain ⟨hqp, hq⟩ := (List.Nodup.mem_erase_iff h.1).mp hq
  obtain ⟨c, hc, rfl, hcf⟩ := h.2 q hq
  exact ⟨c, mem_coalesce_free hc (fun e => hqp (e ▸ rfl)) hcf, rfl, hcf⟩

theorem runInv_free (hs : RunInv lo brk s)
    (hp : p ∈ s.live) : ∃ h, Ends (fun fuel => kfree fuel s.heap p) h ∧
      RunInv lo brk ⟨h, s.vmm, s.live.erase p⟩ := by
  obtain ⟨bs, hv, hl⟩ := hs
  obtain ⟨b, hb, rfl, hbf⟩ := hl.2 p hp
  obtain ⟨xs, zs, rfl⟩ := List.append_of_mem hb
  obtain ⟨h, hv', hend⟩ := kfree_refines hv
  exact ⟨h, ⟨_, fun k hk => hend k hk⟩, _, hv', hl.free⟩

/-! ## Whole runs -/

theorem runInv_step (hk : SbrkOk sbrk brk) {t : HeapRun σ}
    (hs : RunInv lo brk s) (hst : HeapStep sbrk s t) : RunInv lo brk t := by
  cases hst with
  | malloc hn hend =>
    obtain ⟨p', h', v', hend', hinv, -⟩ := runInv_malloc hs hn (hk.brk_le _)
      (hk.region _ s.vmm (roundSize_of_noOverflow hn).2)
    cases hend.unique hend'
    exact hinv
  | free hp hend =>
    obtain ⟨h', hend', hinv⟩ := runInv_free hs hp
    cases hend.unique hend'
    exact hinv

theorem runInv_reachable (hk : SbrkOk sbrk brk)
    {s₀ : HeapRun σ} (h₀ : HeapInit lo brk s₀) (hs : ReflTransGen (HeapStep sbrk) s₀ s) :
    RunInv lo brk s := by
  induction hs with
  | refl => exact runInv_init (hk.brk_le _) h₀
  | tail _ hst ih => exact runInv_step hk ih hst

/-- The blocks `bs` are what a heap must look like with the pointers `live` handed out. -/
structure SafeBlocks (live : List ℕ) (bs : List Block) : Prop where
  increasing : (bs.map Block.addr).Pairwise (· < ·)
  apart : bs.IsChain fun b c => b.addr + 24 + b.size ≤ c.addr
  live_nodup : live.Nodup
  live_block : ∀ p ∈ live, ∃! b, b ∈ bs ∧ b.addr + 24 = p ∧ b.free = false
  payloads : ∀ b ∈ bs, ∀ c ∈ bs, b.payload ∈ live → c.payload ∈ live → b.payload ≠ c.payload →
    Disjoint b.payloadRange c.payloadRange
  headers : ∀ b ∈ bs, ∀ c ∈ bs, b.payload ∈ live → Disjoint b.payloadRange c.headerRange

theorem RunInv.safeBlocks (hs : RunInv lo brk s) :
    ∃ bs, Represents s.heap.blocks s.heap.heapStart bs ∧ SafeBlocks s.live bs := by
  obtain ⟨bs, hv, hnd, hl⟩ := hs
  have ho := hv.ordered
  refine ⟨bs, hv.rep, ?_, ?_, hnd, fun p hp => ?_, ?_, ?_⟩
  · exact List.pairwise_map.mpr (ho.imp Apart.addr_lt)
  · exact List.Pairwise.isChain ho
  · obtain ⟨b, hb, hbp, hbf⟩ := hl p hp
    refine ⟨b, ⟨hb, hbp, hbf⟩, fun c hc => ho.eq_of_addr hc.1 hb ?_⟩
    exact Block.addr_eq_of_payload (hc.2.1.trans hbp.symm)
  · exact fun b hb c hc _ _ hne => ho.payload_disjoint hb hc fun e => hne (e ▸ rfl)
  · exact fun b hb c hc _ => ho.payload_header_disjoint hb hc

/-- **Kernel heap safety.** In every state of every run the blocks form a finite list, one behind the
other, the live pointers are the payloads of blocks in use, which meet neither each other nor any header,
and every further call ends. -/
theorem heap_safe {sbrk : ℕ → σ → ℕ × σ} {brk : σ → ℕ} (hk : SbrkOk sbrk brk) {s₀ s : HeapRun σ}
    (h₀ : HeapInit lo brk s₀) (hs : ReflTransGen (HeapStep sbrk) s₀ s) :
    (∃ bs, Represents s.heap.blocks s.heap.heapStart bs ∧ SafeBlocks s.live bs) ∧
      (∀ n, NoOverflow n → ∃ r, Ends (fun fuel => kmalloc sbrk fuel s.heap s.vmm n) r) ∧
      ∀ p ∈ s.live, ∃ h, Ends (fun fuel => kfree fuel s.heap p) h := by
  have hinv := runInv_reachable hk h₀ hs
  refine ⟨hinv.safeBlocks, fun n hn => ?_, fun p hp => ?_⟩
  · obtain ⟨p, h, v, hend, -⟩ := runInv_malloc hinv hn (hk.brk_le _)
      (hk.region _ s.vmm (roundSize_of_noOverflow hn).2)
    exact ⟨_, hend⟩
  · obtain ⟨h, hend, -⟩ := runInv_free hinv hp
    exact ⟨h, hend⟩

/-- A provider that hands out ascending pages up to the end of the address space. -/
def bumpSbrk (n v : ℕ) : ℕ × ℕ :=
  if v + alignUp pageSize n ≤ 2 ^ 64 then (v, v + alignUp pageSize n) else (2 ^ 64 - 1, v)

theorem bumpSbrk_ok : SbrkOk bumpSbrk fun v => min v (2 ^ 64) := by
  refine ⟨fun n v _ => ?_, fun v => min_le_right _ _⟩
  unfold bumpSbrk
  split_ifs with h
  · exact .inr ⟨min_le_left _ _, le_min le_rfl h⟩
  · exact .inl ⟨.inl rfl, le_rfl⟩

def onePage : HeapRun ℕ where
  heap := (kheapInit ⟨fun _ => ⟨0, false, 0⟩, 0, 0⟩ 0x100000 0x1000).2
  vmm := 0x101000
  live := []

theorem onePage_init : HeapInit 0x100000 (fun v => min v (2 ^ 64)) onePage :=
  ⟨⟨fun _ => ⟨0, false, 0⟩, 0, 0⟩, 0x1000, rfl, by decide, rfl⟩

theorem onePage_malloc : HeapStep bumpSbrk onePage
    ⟨kmallocTake onePage.heap 0x100000 112, 0x101000, [0x100018]⟩ :=
  .malloc (n := 100) (p := 0x100018) (by decide) ⟨1, fun k hk => by
    obtain ⟨k, rfl⟩ := Nat.exists_eq_add_of_le' hk
    rfl⟩

theorem heap_safe_onePage : ∃ s, ReflTransGen (HeapStep bumpSbrk) onePage s ∧ s.live = [0x100018] ∧
      ∃ bs, Represents s.heap.blocks s.heap.heapStart bs ∧ SafeBlocks s.live bs :=
  ⟨_, .single onePage_malloc, rfl, (heap_safe bumpSbrk_ok onePage_init (.single onePage_malloc)).1⟩

end KeonOS
