import KeonOS.Heap.Run
import KeonOS.Mm.Vmm

/-!
# Adequacy of `kmalloc` on the real `VMM::sbrk`

The kernel heap over `VMM::sbrk`, for requests of any size. Above `2 ^ 64 - 4128` one of the roundings of
`kmalloc` wraps, and the memory behind the pointer is less than what was asked for.

* **`heap_adequate_iff`**: in every state of such a run, what `kmalloc` returns is adequate exactly when
  the request does not overflow.
-/

namespace KeonOS

open Word Relation

/-- The byte at `a` is in the heap from `lo` to the break, on a mapped page. -/
def Provided (lo : ℕ) (v : Vmm) (a : ℕ) : Prop :=
  lo ≤ a ∧ a < v.kernelDynamicBreak ∧ (v.mmu.pte a).isSome = true

/-- The pointer `p` returned for `n` bytes: its block has room for them, and they are provided. -/
def Adequate (lo n p : ℕ) (h : Heap) (v : Vmm) : Prop :=
  ∃ a, a + hdr = p ∧ n ≤ (h.blocks a).size ∧ ∀ x, p ≤ x → x < p + n → Provided lo v x

/-- The pages that `VMM::sbrk` maps for a request of `n` bytes do not run out of page tables. -/
def RequestCovered (n : ℕ) (v : Vmm) : Prop := TablesCovered (sbrkPages (add64 (roundSize n) hdr)) v

/-- The start: `kheap_init` on memory from `lo` on that lies below the break and is mapped. -/
structure KernelHeapInit (lo : ℕ) (s : HeapRun Vmm) : Prop where
  init : HeapInit lo Vmm.kernelDynamicBreak s
  vmm : VmmInv lo s.vmm

inductive KernelHeapStep : HeapRun Vmm → HeapRun Vmm → Prop
  | malloc {s : HeapRun Vmm} {n p : ℕ} {h : Heap} {v : Vmm} : NoOverflow n →
      RequestCovered n s.vmm →
      Ends (fun fuel => kmalloc vmmSbrk fuel s.heap s.vmm n) (p, h, v) →
      KernelHeapStep s ⟨h, v, if p = 0 then s.live else p :: s.live⟩
  | free {s : HeapRun Vmm} {p : ℕ} {h : Heap} : p ∈ s.live →
      Ends (fun fuel => kfree fuel s.heap p) h →
      KernelHeapStep s ⟨h, s.vmm, s.live.erase p⟩

structure KernelHeapInv (lo : ℕ) (s : HeapRun Vmm) : Prop where
  run : RunInv lo Vmm.kernelDynamicBreak s
  vmm : VmmInv lo s.vmm

variable {lo n : ℕ} {v : Vmm} {s : HeapRun Vmm}

theorem VmmInv.brk_lt (hv : VmmInv lo v) : v.kernelDynamicBreak < 2 ^ 64 := by
  have := hv.room
  omega

theorem regionOk_vmmSbrk (hv : VmmInv lo v) (hn : n + 4095 < 2 ^ 64)
    (hn0 : n ≠ 0) (hc : TablesCovered (sbrkPages n) v) :
    RegionOk v.kernelDynamicBreak (alignUp pageSize n) (vmmSbrk n v).1
      (vmmSbrk n v).2.kernelDynamicBreak := by
  have hpages : 4096 * sbrkPages n = alignUp pageSize n := by
    rw [sbrkPages, add64_of_lt hn, alignUp, alignDown, Nat.mul_comm]
    rfl
  rcases (vmmSbrk_spec hv hc).2.2 with ⟨h1, h2⟩ | ⟨h1, h2⟩
  · exact .inl ⟨.inl h1, h2⟩
  · rw [if_neg hn0, hpages] at h2
    exact .inr ⟨h1.ge, by rw [h1, h2]⟩

theorem kernelHeap_malloc (hs : KernelHeapInv lo s) (hn : NoOverflow n) (hc : RequestCovered n s.vmm) :
    ∃ p h v, Ends (fun fuel => kmalloc vmmSbrk fuel s.heap s.vmm n) (p, h, v) ∧
      KernelHeapInv lo ⟨h, v, if p = 0 then s.live else p :: s.live⟩ ∧
      (p ≠ 0 → Adequate lo n p h v) := by
  obtain ⟨hn1, hn2⟩ := roundSize_of_noOverflow hn
  have h24 : hdr = 24 := rfl
  rw [RequestCovered, add64_of_lt (by omega)] at hc
  obtain ⟨hv', hlt, -⟩ := vmmSbrk_spec hs.vmm hc
  obtain ⟨p, h, v, hend, hrun, hv, hadq⟩ := runInv_malloc hs.run hn hlt.le
    (regionOk_vmmSbrk hs.vmm (by omega) (by omega) hc)
  have hvmm : VmmInv lo v := by
    rcases hv with rfl | rfl
    · exact hs.vmm
    · exact hv'
  refine ⟨p, h, v, hend, ⟨hrun, hvmm⟩, fun hp0 => ?_⟩
  obtain ⟨a, ha, hsize, hlo, hstop⟩ := hadq hp0
  refine ⟨a, ha, hsize, fun x hx1 hx2 => ?_⟩
  have hx : lo ≤ x ∧ x < v.kernelDynamicBreak := by omega
  exact ⟨hx.1, hx.2, hvmm.mapped x hx.1 hx.2⟩

theorem kernelHeap_step {t : HeapRun Vmm} (hs : KernelHeapInv lo s)
    (hst : KernelHeapStep s t) : KernelHeapInv lo t := by
  cases hst with
  | malloc hn hc hend =>
    obtain ⟨p, h, v, hend', hinv, -⟩ := kernelHeap_malloc hs hn hc
    cases hend.unique hend'
    exact hinv
  | free hp hend =>
    obtain ⟨h, hend', hinv⟩ := runInv_free hs.run hp
    cases hend.unique hend'
    exact ⟨hinv, hs.vmm⟩

theorem kernelHeap_reachable {s₀ : HeapRun Vmm} (h₀ : KernelHeapInit lo s₀)
    (hs : ReflTransGen KernelHeapStep s₀ s) : KernelHeapInv lo s := by
  induction hs with
  | refl => exact ⟨runInv_init h₀.vmm.brk_lt.le h₀.init, h₀.vmm⟩
  | tail _ hst ih => exact kernelHeap_step ih hst

/-! ## Requests that overflow -/

theorem noOverflow_iff (hn : n < 2 ^ 64) : NoOverflow n ↔ n ≤ 2 ^ 64 - 4128 := by
  have h24 : hdr = 24 := rfl
  have hp : pageSize = 4096 := rfl
  simp only [NoOverflow, alignUp, alignDown, h24, hp]
  omega

theorem overflow_request (hn : n < 2 ^ 64) (h : ¬ NoOverflow n) :
    add64 (roundSize n) hdr ≠ 0 ∧ (alignUp64 pageSize (add64 (roundSize n) hdr) = 4096 ∨
      alignUp64 pageSize (add64 (roundSize n) hdr) = 0 ∧ sbrkPages (add64 (roundSize n) hdr) = 0) := by
  rw [noOverflow_iff hn] at h
  have h24 : hdr = 24 := rfl
  have hp : pageSize = 4096 := rfl
  simp only [roundSize, alignUp64, alignDown, sbrkPages, add64, h24, hp]
  omega

theorem kmallocTake_size_le {h : Heap} {a size : ℕ} (hs : size ≤ (h.blocks a).size) :
    ((kmallocTake h a size).blocks a).size ≤ (h.blocks a).size := by
  simp only [kmallocTake]
  split_ifs
  · simpa [Heap.put] using hs
  · simp [Heap.put]

theorem lastAddr_mem {bs : List Block} (h : bs ≠ []) : ∃ b ∈ bs, lastAddr 0 bs = b.addr := by
  obtain ⟨xs, b, hbs⟩ := (List.eq_nil_or_concat bs).resolve_left h
  subst hbs
  exact ⟨b, by simp, by simp [lastAddr]⟩

theorem not_adequate_of_overflow {p : ℕ} {h : Heap}
    (hs : KernelHeapInv lo s) (hn : n < 2 ^ 64) (hover : ¬ NoOverflow n)
    (hc : RequestCovered n s.vmm)
    (hend : Ends (fun fuel => kmalloc vmmSbrk fuel s.heap s.vmm n) (p, h, v)) (hp : p ≠ 0) :
    ¬ Adequate lo n p h v := by
  obtain ⟨bs, hv, -⟩ := hs.run
  have h24 : hdr = 24 := rfl
  have hup := hs.vmm.upper
  have hlt := hs.vmm.brk_lt
  have hbig : 2 ^ 64 - 4128 < n := by
    rw [noOverflow_iff hn] at hover
    omega
  rintro ⟨a, ha, hsize, hall⟩
  obtain ⟨N, hN⟩ := hend
  have hk := hN (max N (bs.length + 1)) (le_max_left _ _)
  have hfuel : bs.length < max N (bs.length + 1) := lt_of_lt_of_le (Nat.lt_succ_self _)
    (le_max_right _ _)
  simp only [kmalloc, if_neg hv.heapStart_ne] at hk
  rcases @kmallocScan_spec s.heap.blocks (roundSize n) bs s.heap.heapStart 0 hv.rep with
    ⟨xs, y, zs, l, rfl, -, hys, hscan⟩ | ⟨-, hscan⟩
  · -- a listed block is far smaller than the request
    obtain ⟨hy1, hy2, hy3⟩ := hv.within y (by simp)
    have hy0 : y.addr ≠ 0 := hv.rep.chain.ne_null _ (by simp)
    have hdata := (hv.rep.data y (by simp)).1
    have hstop : y.stop = y.addr + hdr + y.size := rfl
    simp only [hscan _ hfuel, ne_eq, hy0, not_false_eq_true, if_true, Option.some.injEq,
      Prod.mk.injEq] at hk
    obtain ⟨rfl, rfl, rfl⟩ := hk
    rw [add64_of_lt (by omega)] at ha
    obtain rfl : a = y.addr := by omega
    have hle := @kmallocTake_size_le s.heap y.addr (roundSize n) (by rw [hdata]; exact hys)
    omega
  -- the heap grows by one page at most
  obtain ⟨htot, hact⟩ := overflow_request hn hover
  obtain ⟨b, hb, hlast⟩ := lastAddr_mem hv.ne_nil
  obtain ⟨hb1, hb2, hb3⟩ := hv.within b hb
  have hb0 : b.addr ≠ 0 := by omega
  have hpay : b.payload = b.addr + hdr := rfl
  obtain ⟨-, -, hreg⟩ := vmmSbrk_spec hs.vmm hc
  have hal := hs.vmm.aligned
  simp only [hscan _ hfuel, ne_eq, not_true_eq_false, if_false, hlast, hb0, not_false_eq_true,
    if_true] at hk
  split_ifs at hk with hfail
  · simp only [Option.some.injEq, Prod.mk.injEq] at hk
    exact hp hk.1.symm
  rcases hreg with ⟨hr, -⟩ | ⟨hr, hbrk⟩
  · exact hfail (.inl hr)
  obtain ⟨rfl, rfl, rfl⟩ := hk
  rw [hr, add64_of_lt (by omega)] at ha hall
  obtain rfl : a = s.vmm.kernelDynamicBreak := by omega
  simp only [Heap.put, hr] at hsize
  rw [Function.update_of_ne (by omega), Function.update_self] at hsize
  rw [if_neg htot] at hbrk
  rcases hact with hact | ⟨hact, hpages⟩
  · rw [hact, sub64_of_le (by omega)] at hsize
    dsimp only at hsize
    omega
  · obtain ⟨-, hx, -⟩ := hall (s.vmm.kernelDynamicBreak + hdr) le_rfl (by omega)
    omega

/-- **Adequacy of the heap.** A pointer returned for `n` is adequate exactly when `n` is at most `2 ^ 64 -
4128`. -/
theorem heap_adequate_iff {lo n p : ℕ} {s₀ s : HeapRun Vmm} {h : Heap} {v : Vmm}
    (h₀ : KernelHeapInit lo s₀) (hs : ReflTransGen KernelHeapStep s₀ s) (hn : n < 2 ^ 64)
    (hc : RequestCovered n s.vmm)
    (hend : Ends (fun fuel => kmalloc vmmSbrk fuel s.heap s.vmm n) (p, h, v)) (hp : p ≠ 0) :
    Adequate lo n p h v ↔ n ≤ 2 ^ 64 - 4128 := by
  have hinv := kernelHeap_reachable h₀ hs
  rw [← noOverflow_iff hn]
  constructor
  · intro hadq
    by_contra hover
    exact not_adequate_of_overflow hinv hn hover hc hend hp hadq
  · intro hok
    obtain ⟨p', h', v', hend', -, hadq⟩ := kernelHeap_malloc hinv hok hc
    cases hend.unique hend'
    exact hadq hp

/-! ## A heap of one page -/

/-- The break at the start of `heapBase`, with nothing mapped yet. -/
def heapBase : Vmm where
  mmu := emptyTables
  kernelDynamicBreak := 0xFFFFFFFF80200000
  vmmAllocatedBytes := 0

/-- One page from `VMM::sbrk`, made into a heap. -/
def onePageHeap : HeapRun Vmm where
  heap := (kheapInit ⟨fun _ => ⟨0, false, 0⟩, 0, 0⟩ 0xFFFFFFFF80200000 0x1000).2
  vmm := (vmmSbrk 0x1000 heapBase).2
  live := []

theorem vmmInv_heapBase : VmmInv 0xFFFFFFFF80200000 heapBase where
  wf := wellFormed_emptyTables
  upper := by norm_num
  le_brk := le_rfl
  aligned := rfl
  room := by
    have h : heapBase.mmu.pfa.freeFrames.card ≤ (Finset.range 64).card := Finset.card_filter_le _ _
    rw [Finset.card_range] at h
    change 0xFFFFFFFF80200000 + 4096 * heapBase.mmu.pfa.freeFrames.card < 2 ^ 64
    omega
  mapped := fun a h1 h2 => absurd h1 (not_le_of_gt h2)

theorem kernelHeapInit_onePageHeap : KernelHeapInit 0xFFFFFFFF80200000 onePageHeap where
  init := ⟨⟨fun _ => ⟨0, false, 0⟩, 0, 0⟩, 0x1000, rfl, by decide +kernel, rfl⟩
  vmm := (vmmSbrk_spec vmmInv_heapBase (by decide +kernel)).1

/-- **A request of `2 ^ 64 - 1` bytes is granted** with a block of size 0. -/
theorem kmalloc_overflow : ∃ p h v,
    Ends (fun fuel => kmalloc vmmSbrk fuel onePageHeap.heap onePageHeap.vmm (2 ^ 64 - 1)) (p, h, v) ∧
      p ≠ 0 ∧ ¬ Adequate 0xFFFFFFFF80200000 (2 ^ 64 - 1) p h v := by
  refine ⟨0xFFFFFFFF80200018, kmallocTake onePageHeap.heap 0xFFFFFFFF80200000 0, onePageHeap.vmm,
    ⟨1, fun k hk => ?_⟩, by decide, ?_⟩
  · obtain ⟨k, rfl⟩ := Nat.exists_eq_add_of_le' hk
    rfl
  · rintro ⟨a, ha, hsize, -⟩
    have h24 : hdr = 24 := rfl
    obtain rfl : a = 0xFFFFFFFF80200000 := by omega
    exact absurd hsize (by decide +kernel)

theorem heap_adequate_iff_onePage : ∃ p h v,
    Ends (fun fuel => kmalloc vmmSbrk fuel onePageHeap.heap onePageHeap.vmm 100) (p, h, v) ∧
      p ≠ 0 ∧ (Adequate 0xFFFFFFFF80200000 100 p h v ↔ 100 ≤ 2 ^ 64 - 4128) := by
  have hend : Ends (fun fuel => kmalloc vmmSbrk fuel onePageHeap.heap onePageHeap.vmm 100)
      (0xFFFFFFFF80200018, kmallocTake onePageHeap.heap 0xFFFFFFFF80200000 112, onePageHeap.vmm) :=
    ⟨1, fun k hk => by
      obtain ⟨k, rfl⟩ := Nat.exists_eq_add_of_le' hk
      rfl⟩
  exact ⟨_, _, _, hend, by decide, heap_adequate_iff kernelHeapInit_onePageHeap .refl (by norm_num)
    (by unfold RequestCovered; decide +kernel) hend (by decide)⟩

end KeonOS
