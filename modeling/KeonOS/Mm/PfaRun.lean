import KeonOS.Mm.Fresh

/-!
# Runs of the frame allocator

The counter `used_frames` is kept beside the bitmap. A state is consistent when the counter agrees
with the bitmap, the bits past the last frame are set and frame 0 is never free.

* **`pfa_run_correct`**: over any run the counter is exact, an allocation returns the lowest free
  frame or, when none is left, null, and no frame is returned twice without being freed.
-/

namespace KeonOS

open Word

/-! ## The calls -/

inductive PfaOp
  | alloc
  | markUsed (frameStart frameCount : ℕ)
  | free (frame : ℕ)

def PfaOp.run : PfaOp → Mmu → Mmu
  | .alloc, s => (pfaAllocFrame s).2
  | .markUsed frameStart frameCount, s => { s with pfa := pfaMarkUsed s.pfa frameStart frameCount }
  | .free frame, s => { s with pfa := pfaFreeFrame s.pfa frame }

def pfaRun (ops : List PfaOp) (s : Mmu) : Mmu := ops.foldl (fun s op => op.run s) s

/-- An address outside frame 0 is freed. -/
def PfaOp.Allowed : PfaOp → Prop
  | .free frame => frame / 4096 ≠ 0
  | _ => True

/-! ## Consistency -/

namespace Pfa

variable {p : Pfa} {f g i bit : ℕ}

def usedSet (p : Pfa) : Finset ℕ := (Finset.range p.totalFrames).filter fun f => p.isUsed f = true

/-- The counter agrees with the bitmap, and frame 0 and the bits past the last frame are set. -/
structure Consistent (p : Pfa) : Prop where
  count : p.usedFrames = p.usedSet.card
  high : ∀ g, p.totalFrames ≤ g → g < 32 * p.frameBitmapSize → p.isUsed g = true
  zero : p.isUsed 0 = true

theorem mem_usedSet : g ∈ p.usedSet ↔ g < p.totalFrames ∧ p.isUsed g = true := by
  rw [usedSet, Finset.mem_filter, Finset.mem_range]

theorem card_usedSet_le (p : Pfa) : p.usedSet.card ≤ p.totalFrames := by
  refine (Finset.card_filter_le _ _).trans ?_
  rw [Finset.card_range]

theorem Consistent.used_le (h : p.Consistent) : p.usedFrames ≤ p.totalFrames :=
  h.count.trans_le p.card_usedSet_le

theorem consistent_setBit (h : p.Consistent) (hb : bit < 32) (hlt : i * 32 + bit < p.totalFrames)
    (hfree : p.isUsed (i * 32 + bit) = false) : (p.setBit i bit).Consistent := by
  have hset : (p.setBit i bit).usedSet = insert (i * 32 + bit) p.usedSet := by
    ext g
    rw [Finset.mem_insert, mem_usedSet, mem_usedSet, isUsed_setBit hb, Bool.or_eq_true,
      decide_eq_true_iff, totalFrames_setBit]
    constructor
    · rintro ⟨h1, rfl | h2⟩
      · exact .inl rfl
      · exact .inr ⟨h1, h2⟩
    · rintro (rfl | ⟨h1, h2⟩)
      · exact ⟨hlt, .inl rfl⟩
      · exact ⟨h1, .inr h2⟩
  have hnot : i * 32 + bit ∉ p.usedSet := by simp [mem_usedSet, hfree]
  have hle := p.card_usedSet_le
  have htot := p.total_le
  refine ⟨?_, fun g h1 h2 => ?_, ?_⟩
  · rw [hset, Finset.card_insert_of_notMem hnot, ← h.count]
    have hlt64 : p.usedFrames + 1 < 2 ^ 64 := by
      rw [h.count]
      omega
    exact add64_of_lt hlt64
  · rw [isUsed_setBit hb, h.high g h1 h2, Bool.or_true]
  · rw [isUsed_setBit hb, h.zero, Bool.or_true]

theorem consistent_clearBit (h : p.Consistent) (hb : bit < 32) (hlt : i * 32 + bit < p.totalFrames)
    (hused : p.isUsed (i * 32 + bit) = true) (h0 : i * 32 + bit ≠ 0) :
    (p.clearBit i bit).Consistent := by
  have hset : (p.clearBit i bit).usedSet = p.usedSet.erase (i * 32 + bit) := by
    ext g
    rw [Finset.mem_erase, mem_usedSet, mem_usedSet, isUsed_clearBit hb, Bool.and_eq_true,
      decide_eq_true_iff, totalFrames_clearBit]
    tauto
  have hmem : i * 32 + bit ∈ p.usedSet := mem_usedSet.mpr ⟨hlt, hused⟩
  have hpos : 1 ≤ p.usedFrames := by
    rw [h.count]
    exact Finset.card_pos.mpr ⟨_, hmem⟩
  refine ⟨?_, fun g h1 h2 => ?_, ?_⟩
  · rw [hset, Finset.card_erase_of_mem hmem, ← h.count]
    exact if_pos hpos
  · rw [isUsed_clearBit hb, h.high g h1 h2, decide_eq_true, Bool.true_and]
    exact fun hg => absurd hlt (not_lt.mpr (hg ▸ h1))
  · rw [isUsed_clearBit hb, h.zero, decide_eq_true h0.symm, Bool.true_and]

theorem consistent_markFrame (h : p.Consistent) (f : ℕ) : (p.markFrame f).Consistent := by
  rw [markFrame]
  split_ifs with h1 h2
  · refine consistent_setBit h (Nat.mod_lt _ (by norm_num)) ?_ ?_
    · rwa [Nat.div_add_mod']
    · rwa [Nat.div_add_mod']
  · exact h
  · exact h

theorem consistent_markUsed (h : p.Consistent) (frameStart n : ℕ) :
    (pfaMarkUsed p frameStart n).Consistent := by
  induction n with
  | zero => exact h
  | succ n ih => exact consistent_markFrame ih _

theorem consistent_free (h : p.Consistent) (h0 : f / 4096 ≠ 0) : (pfaFreeFrame p f).Consistent := by
  unfold pfaFreeFrame
  dsimp only
  split_ifs with h1 h2
  · refine consistent_clearBit h (Nat.mod_lt _ (by norm_num)) ?_ ?_ ?_
    · rwa [Nat.div_add_mod']
    · rwa [Nat.div_add_mod']
    · rwa [Nat.div_add_mod']
  · exact h
  · exact h

theorem consistent_take {p' : Pfa} (h : p.Consistent) (ht : p.take = some (f, p')) : p'.Consistent := by
  have hs := find_spec (p := p) (n := p.frameBitmapSize) (i := 0) (by omega)
  unfold take at ht
  cases hf : p.find p.frameBitmapSize 0 with
  | none => simp [hf] at ht
  | some r =>
    rw [hf] at hs ht
    simp only [Option.map_some, Option.some.injEq, Prod.mk.injEq] at ht
    rw [← ht.2]
    exact consistent_setBit h hs.1 hs.2.1 hs.2.2.1

end Pfa

/-! ## One call -/

section Step

variable {s : Mmu}

theorem pfaAllocFrame_result (h : s.pfa.Consistent) :
    ((pfaAllocFrame s).1 = 0 ↔ ∀ g < s.pfa.totalFrames, s.pfa.isUsed g = true) ∧
    ((pfaAllocFrame s).1 ≠ 0 → ∃ f, (pfaAllocFrame s).1 = f * 4096 ∧
      s.pfa.Takes f (pfaAllocFrame s).2.pfa) := by
  unfold pfaAllocFrame
  cases ht : s.pfa.take with
  | none => exact ⟨iff_of_true rfl (Pfa.take_eq_none.mp ht), fun h => absurd rfl h⟩
  | some a =>
    have hs : s.pfa.Takes a.1 a.2 := Pfa.take_spec ht
    have h0 : a.1 ≠ 0 := by
      intro h0
      have hz := h.zero
      rw [← h0, hs.free] at hz
      exact Bool.noConfusion hz
    dsimp only
    refine ⟨iff_of_false (by omega) fun hall => ?_, fun _ => ⟨a.1, rfl, hs⟩⟩
    have hu := hall a.1 hs.lt
    rw [hs.free] at hu
    exact Bool.noConfusion hu

theorem PfaOp.consistent {op : PfaOp} (h : s.pfa.Consistent) (ha : op.Allowed) :
    (op.run s).pfa.Consistent := by
  cases op with
  | alloc =>
    cases ht : s.pfa.take with
    | none =>
      rwa [PfaOp.run, pfaAllocFrame, ht]
    | some a =>
      rw [PfaOp.run, pfaAllocFrame, ht]
      exact Pfa.consistent_take h ht
  | markUsed frameStart frameCount => exact Pfa.consistent_markUsed h frameStart frameCount
  | free frame => exact Pfa.consistent_free h ha

theorem PfaOp.isUsed {op : PfaOp} {f : ℕ} (hu : s.pfa.isUsed f = true)
    (hn : ∀ frame, op = .free frame → frame / 4096 ≠ f) : (op.run s).pfa.isUsed f = true := by
  cases op with
  | alloc =>
    cases ht : s.pfa.take with
    | none =>
      rwa [PfaOp.run, pfaAllocFrame, ht]
    | some a =>
      have hs : s.pfa.Takes a.1 a.2 := Pfa.take_spec ht
      rw [PfaOp.run, pfaAllocFrame, ht]
      exact (hs.used f).trans (by rw [hu, Bool.or_true])
  | markUsed frameStart frameCount => exact (Pfa.isUsed_markFrames f).mpr (.inr hu)
  | free frame =>
    change (pfaFreeFrame s.pfa frame).isUsed f = true
    have hne : f ≠ frame / 4096 := (hn frame rfl).symm
    rw [Pfa.isUsed_free, hu, decide_eq_false fun h => hne h.1]
    rfl

end Step

/-! ## Runs -/

theorem pfaRun_consistent {ops : List PfaOp} {s : Mmu} (h : s.pfa.Consistent)
    (ha : ∀ op ∈ ops, op.Allowed) : (pfaRun ops s).pfa.Consistent := by
  induction ops generalizing s with
  | nil => exact h
  | cons op ops ih =>
    rw [List.forall_mem_cons] at ha
    exact ih (PfaOp.consistent h ha.1) ha.2

theorem pfaRun_isUsed {ops : List PfaOp} {s : Mmu} {f : ℕ} (hu : s.pfa.isUsed f = true)
    (hn : ∀ frame, .free frame ∈ ops → frame / 4096 ≠ f) : (pfaRun ops s).pfa.isUsed f = true := by
  induction ops generalizing s with
  | nil => exact hu
  | cons op ops ih =>
    refine ih (PfaOp.isUsed hu fun frame hop => hn frame ?_) fun frame hf => hn frame ?_
    · rw [hop]
      exact List.mem_cons_self
    · exact List.mem_cons_of_mem _ hf

/-- What a state of the allocator guarantees to the next caller of `pfa_alloc_frame`. -/
structure AllocatorCorrect (s : Mmu) : Prop where
  consistent : s.pfa.Consistent
  used_le : s.pfa.usedFrames ≤ s.pfa.totalFrames
  null : (pfaAllocFrame s).1 = 0 ↔ ∀ g < s.pfa.totalFrames, s.pfa.isUsed g = true
  lowest : (pfaAllocFrame s).1 ≠ 0 → ∃ f, (pfaAllocFrame s).1 = f * 4096 ∧
    f < s.pfa.totalFrames ∧ s.pfa.isUsed f = false ∧ ∀ g < f, s.pfa.isUsed g = true

/-- **The frame allocator** after any run of the three calls: the next allocation returns the lowest free
frame, and null exactly when every frame is used, and not again a frame that has not been freed. -/
theorem pfa_run_correct {s : Mmu} (h : s.pfa.Consistent) {ops : List PfaOp}
    (ha : ∀ op ∈ ops, op.Allowed) :
    AllocatorCorrect (pfaRun ops s) ∧
    ∀ ops' : List PfaOp, (∀ op ∈ ops', op.Allowed) → (pfaAllocFrame (pfaRun ops s)).1 ≠ 0 →
      (pfaAllocFrame (pfaRun ops' (pfaAllocFrame (pfaRun ops s)).2)).1 =
        (pfaAllocFrame (pfaRun ops s)).1 →
      ∃ frame, .free frame ∈ ops' ∧ frame / 4096 = (pfaAllocFrame (pfaRun ops s)).1 / 4096 := by
  have hc := pfaRun_consistent h ha
  obtain ⟨hnull, hsome⟩ := pfaAllocFrame_result hc
  refine ⟨⟨hc, hc.used_le, hnull, fun hne => ?_⟩, fun ops' ha' hne heq => ?_⟩
  · obtain ⟨f, hf, ht⟩ := hsome hne
    exact ⟨f, hf, ht.lt, ht.free, ht.lowest⟩
  -- the frame is used from the first allocation on, and free at the second
  obtain ⟨f, hf, ht⟩ := hsome hne
  by_contra hnone
  push Not at hnone
  have hu : (pfaAllocFrame (pfaRun ops s)).2.pfa.isUsed f = true := by simp [ht.used]
  have hc₁ : (pfaAllocFrame (pfaRun ops s)).2.pfa.Consistent := @PfaOp.consistent _ .alloc hc trivial
  have hu' := pfaRun_isUsed hu fun frame hm => by
    have := hnone frame hm
    rwa [hf, Nat.mul_div_cancel _ (by norm_num)] at this
  obtain ⟨f', hf', ht'⟩ := (pfaAllocFrame_result (pfaRun_consistent hc₁ ha')).2 (heq ▸ hne)
  have hff : f' = f := by
    omega
  rw [← hff, ht'.free] at hu'
  exact Bool.noConfusion hu'

def smallPfa : Pfa :=
  { emptyTables.pfa with
    frameBitmap := fun i => if i = 0 then 3#32 else if i = 1 then 0#32 else 0xFFFFFFFF#32 }

theorem consistent_smallPfa : smallPfa.Consistent := by
  refine ⟨by decide +kernel, fun g h1 h2 => ?_, by decide⟩
  have hw : smallPfa.frameBitmap (g / 32) = 0xFFFFFFFF#32 := by
    have hg : 2 ≤ g / 32 := by
      change 64 ≤ g at h1
      omega
    simp only [smallPfa]
    rw [if_neg (by omega), if_neg (by omega)]
  exact Pfa.getLsbD_of_full hw (Nat.mod_lt _ (by norm_num))

theorem pfa_run_correct_small : AllocatorCorrect (pfaRun [.markUsed 0x3000 2, .alloc, .free 0x2000]
      { pfa := smallPfa, mem := fun _ => 0, cr3 := 0, mappedPages := 0 }) :=
  (pfa_run_correct (s := { pfa := smallPfa, mem := fun _ => 0, cr3 := 0, mappedPages := 0 })
    consistent_smallPfa (by simp [PfaOp.Allowed])).1

end KeonOS
