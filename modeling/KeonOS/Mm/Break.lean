import KeonOS.Mm.Vmm
import KeonOS.Mm.Guard

/-!
# Failures of the kernel break

`VMM::sbrk` counts the bytes and moves the break page by page, `VMM::allocate` moves it at the end; neither
takes anything back when the frames run out.

* **`break_atomic_iff`**: the failures that leave everything as it was.
-/

namespace KeonOS

open Word

/-- The loop of `VMM::allocate` from page `i` on; `false` for `return nullptr`. -/
def allocateLoop (base flags : ℕ) : ℕ → ℕ → Mmu → Bool × Mmu
  | 0, _, s => (true, s)
  | n + 1, i, s =>
    let (physFrame, s) := pfaAllocFrame s
    if physFrame = 0 then (false, s)
    else allocateLoop base flags n (i + 1) (pagingMapPage s (add64 base (i * 4096)) physFrame flags)

/-- `VMM::allocate(pages, flags)` -/
def vmmAllocate (pages flags : ℕ) (v : Vmm) : ℕ × Vmm :=
  if v.kernelDynamicBreak = 0 then (0, v)
  else
    match allocateLoop v.kernelDynamicBreak flags pages 0 v.mmu with
    | (true, s) => (v.kernelDynamicBreak,
      { v with mmu := s, kernelDynamicBreak := add64 v.kernelDynamicBreak (pages * 4096) })
    | (false, s) => (0, { v with mmu := s })

/-- The frames in use are those from before and page tables. -/
def SameFrames (s s' : Mmu) : Prop := ∀ g, s'.pfa.isUsed g = true ↔
    s.pfa.isUsed g = true ∨ ∃ q, q.length ≤ 3 ∧ s'.walk s'.root q = some g

structure BreakKept (v v' : Vmm) : Prop where
  brk : v'.kernelDynamicBreak = v.kernelDynamicBreak
  bytes : v'.vmmAllocatedBytes = v.vmmAllocatedBytes
  mapped : ∀ a, 2 ^ 64 - 2 ^ 47 ≤ a → a < 2 ^ 64 → (v'.mmu.pte a).isSome = (v.mmu.pte a).isSome
  frames : SameFrames v.mmu v'.mmu

/-! ## Frames that are taken -/

section Frames

variable {s : Mmu} {f g : ℕ} {pfa : Pfa}

theorem WellFormed.sameFrames (hw : WellFormed s.root s) : SameFrames s s := fun g =>
  ⟨.inl, fun h => h.elim id fun ⟨q, hq, ht⟩ => hw.used q g hq ht⟩

/-- The tables stay well formed, and the frames in use for pages stay so. -/
structure KeepsData (s s' : Mmu) : Prop where
  wf : WellFormed s'.root s'
  data : ∀ g, DataFrame s g → DataFrame s' g

theorem KeepsData.refl (hw : WellFormed s.root s) : KeepsData s s := ⟨hw, fun _ => id⟩

theorem KeepsData.trans {s' s'' : Mmu} (h : KeepsData s s') (h' : KeepsData s' s'') : KeepsData s s'' :=
  ⟨h'.wf, fun g hg => h'.data g (h.data g hg)⟩

theorem KeepsData.alloc (hw : WellFormed s.root s) (h : s.pfa.take = some (f, pfa)) :
    KeepsData s (pfaAllocFrame s).2 ∧ DataFrame (pfaAllocFrame s).2 f := by
  obtain ⟨s', halloc, hz, -⟩ := frameZeroed_alloc h
  have hroot := Mmu.root_congr hz.cr3
  have hkeep := hz.keepsTree hw
  have hdata : ∀ g, s'.pfa.isUsed g = true → (∀ q, q.length ≤ 3 → s.walk s.root q ≠ some g) →
      DataFrame s' g := by
    refine fun g hg hnot => ⟨hg, fun q hq => ?_⟩
    rw [hroot, hkeep.walk q hq]
    exact hnot q hq
  rw [halloc]
  refine ⟨⟨hroot ▸ hkeep.wf hw, fun g hg => hdata g (hkeep.used g hg.1) hg.2⟩, hdata f ?_ ?_⟩
  · simp [hz.takes.used]
  · exact hw.not_table hz.takes.free

theorem pfaAllocFrame_lt (s : Mmu) : (pfaAllocFrame s).1 < 2 ^ 64 := by
  cases h : s.pfa.take with
  | none =>
    rw [pfaAllocFrame, h]
    exact Nat.two_pow_pos 64
  | some r =>
    obtain ⟨s', halloc, -⟩ := frameZeroed_alloc h
    have hlt := (Pfa.take_spec h).lt
    have htotal := s.pfa.total_le
    rw [halloc]
    omega

theorem KeepsData.page (hw : WellFormed s.root s) (a : ℕ) {flags : ℕ} (hf : flags < 2 ^ 64) :
    KeepsData s (pfaAllocFrame s).2 ∧
      KeepsData (pfaAllocFrame s).2 (pagingMapPage (pfaAllocFrame s).2 a (pfaAllocFrame s).1 flags) := by
  have halloc : KeepsData s (pfaAllocFrame s).2 := by
    cases h : s.pfa.take with
    | none =>
      rw [pfaAllocFrame, h]
      exact .refl hw
    | some r => exact (KeepsData.alloc hw h).1
  have hm := pagingMapPage_spec (v := a) halloc.wf (pfaAllocFrame_lt s) hf
  exact ⟨halloc, hm.wf, fun g hg => hg.of_fresh hm.cr3 hm.used hm.fresh⟩

theorem allocateLoop_keeps {base flags : ℕ} (hf : flags < 2 ^ 64) : ∀ (n i : ℕ) {s : Mmu},
    WellFormed s.root s → KeepsData s (allocateLoop base flags n i s).2
  | 0, _, _, hw => .refl hw
  | n + 1, i, s, hw => by
    obtain ⟨halloc, hmap⟩ := KeepsData.page hw (add64 base (i * 4096)) hf
    rw [allocateLoop]
    dsimp only
    split_ifs
    · exact halloc
    · exact (halloc.trans hmap).trans (allocateLoop_keeps hf n _ hmap.wf)

theorem allocateLoop_taken (base : ℕ) {flags : ℕ} (hf : flags < 2 ^ 64) (hw : WellFormed s.root s)
    (h : s.pfa.take = some (f, pfa)) (n i : ℕ) :
    DataFrame (allocateLoop base flags (n + 1) i s).2 f := by
  obtain ⟨-, hdata⟩ := KeepsData.alloc hw h
  obtain ⟨-, hmap⟩ := KeepsData.page hw (add64 base (i * 4096)) hf
  rw [allocateLoop]
  dsimp only
  split_ifs
  · exact hdata
  · exact (hmap.trans (allocateLoop_keeps hf n _ hmap.wf)).data f hdata

theorem allocateLoop_full {base flags : ℕ} (h : s.pfa.take = none) (n i : ℕ) :
    allocateLoop base flags (n + 1) i s = (false, s) := by
  rw [allocateLoop, pfaAllocFrame, h]
  rfl

theorem DataFrame.not_sameFrames {s' : Mmu} (hfree : s.pfa.isUsed f = false) (h : DataFrame s' f) :
    ¬SameFrames s s' := by
  intro hsame
  rcases (hsame f).mp h.1 with hbefore | ⟨q, hq, ht⟩
  · rw [hfree] at hbefore
    cases hbefore
  · exact h.2 q hq ht

end Frames

/-! ## Failures -/

section Failures

variable {v : Vmm}

theorem BreakKept.refl (hw : WellFormed v.mmu.root v.mmu) : BreakKept v v :=
  ⟨rfl, rfl, fun _ _ _ => rfl, hw.sameFrames⟩

theorem sbrkLoop_bytes : ∀ (n : ℕ) (v : Vmm), (sbrkLoop n v).2.vmmAllocatedBytes = v.vmmAllocatedBytes
  | 0, _ => rfl
  | n + 1, v => by
    have hpage : (sbrkPage v).2.vmmAllocatedBytes = v.vmmAllocatedBytes := by
      unfold sbrkPage
      dsimp only
      split_ifs <;> rfl
    rw [sbrkLoop]
    rcases hp : sbrkPage v with ⟨_ | _, v'⟩
    all_goals rw [hp] at hpage
    · exact hpage
    · exact (sbrkLoop_bytes n v').trans hpage

theorem sbrk_kept_iff (hw : WellFormed v.mmu.root v.mmu) (hb : v.vmmAllocatedBytes < 2 ^ 64) (n : ℕ) :
    BreakKept v (vmmSbrk n v).2 ↔ v.kernelDynamicBreak = 0 ∨ sbrkPages n = 0 := by
  by_cases h0 : v.kernelDynamicBreak = 0
  · rw [vmmSbrk, if_pos h0]
    exact iff_of_true (.refl hw) (.inl h0)
  by_cases hn : n = 0
  · rw [vmmSbrk, if_neg h0, if_pos hn, hn]
    exact iff_of_true (.refl hw) (.inr rfl)
  rw [vmmSbrk, if_neg h0, if_neg hn]
  by_cases hp : sbrkPages n = 0
  · refine iff_of_true ?_ (.inr hp)
    rw [hp]
    refine ⟨rfl, ?_, fun _ _ _ => rfl, hw.sameFrames⟩
    exact Nat.mod_eq_of_lt hb
  refine iff_of_false (fun h => ?_) (not_or.mpr ⟨h0, hp⟩)
  have hbytes := sbrkLoop_bytes (sbrkPages n) (v.account (sbrkPages n * 4096))
  have hkept := h.bytes
  have hlt : sbrkPages n * 4096 < 2 ^ 64 := by
    unfold sbrkPages add64
    omega
  rcases hl : sbrkLoop (sbrkPages n) (v.account (sbrkPages n * 4096)) with ⟨_ | _, v'⟩
  all_goals
    rw [hl] at hbytes hkept
    simp only [Vmm.account, add64] at hbytes hkept
    omega

theorem allocate_kept_iff {pages flags : ℕ} (hw : WellFormed v.mmu.root v.mmu) (hf : flags < 2 ^ 32)
    (hfail : (vmmAllocate pages flags v).1 = 0) :
    BreakKept v (vmmAllocate pages flags v).2 ↔
      v.kernelDynamicBreak = 0 ∨ ∀ g < v.mmu.pfa.totalFrames, v.mmu.pfa.isUsed g = true := by
  by_cases h0 : v.kernelDynamicBreak = 0
  · rw [vmmAllocate, if_pos h0]
    exact iff_of_true (.refl hw) (.inl h0)
  rw [vmmAllocate, if_neg h0] at hfail ⊢
  rcases hl : allocateLoop v.kernelDynamicBreak flags pages 0 v.mmu with ⟨_ | _, s⟩
  all_goals rw [hl] at hfail
  swap
  · exact absurd hfail h0
  obtain _ | pages := pages
  · cases hl
  rw [← Pfa.take_eq_none, or_iff_right h0]
  cases htake : v.mmu.pfa.take with
  | none =>
    rw [allocateLoop_full htake] at hl
    obtain rfl : v.mmu = s := (Prod.mk.inj hl).2
    exact iff_of_true (.refl hw) rfl
  | some r =>
    refine iff_of_false (fun h => ?_) nofun
    have htaken := allocateLoop_taken v.kernelDynamicBreak (by omega : flags < 2 ^ 64) hw htake pages 0
    rw [hl] at htaken
    exact htaken.not_sameFrames (Pfa.take_spec htake).free h.frames

/-- **The failures of the kernel break that change nothing**: before the break is set, or, for
`VMM::allocate`, when there is no free frame at all. `VMM::sbrk` has counted the bytes by then. -/
theorem break_atomic_iff (hw : WellFormed v.mmu.root v.mmu) (hb : v.vmmAllocatedBytes < 2 ^ 64) :
    (∀ n, (vmmSbrk n v).1 = 2 ^ 64 - 1 →
      (BreakKept v (vmmSbrk n v).2 ↔ v.kernelDynamicBreak = 0 ∨ sbrkPages n = 0)) ∧
    ∀ pages flags, flags < 2 ^ 32 → (vmmAllocate pages flags v).1 = 0 →
      (BreakKept v (vmmAllocate pages flags v).2 ↔
        v.kernelDynamicBreak = 0 ∨ ∀ g < v.mmu.pfa.totalFrames, v.mmu.pfa.isUsed g = true) :=
  ⟨fun n _ => sbrk_kept_iff hw hb n, fun _ _ hf hfail => allocate_kept_iff hw hf hfail⟩

end Failures

/-- Four free frames: one for a page and three for its tables. -/
def fourFrames : Vmm where
  mmu := { emptyTables with pfa := { emptyTables.pfa with
    totalFrames := 6, frameBitmapSize := 1, total_le := by norm_num, size_eq := rfl } }
  kernelDynamicBreak := 0xFFFFFFFF80200000
  vmmAllocatedBytes := 0

/-- The second page finds no frame: the first one stays mapped, behind the break that has moved. -/
theorem sbrk_not_atomic :
    let v' := (vmmSbrk 8192 fourFrames).2
    (vmmSbrk 8192 fourFrames).1 = 2 ^ 64 - 1 ∧ v'.vmmAllocatedBytes = 8192 ∧
      v'.kernelDynamicBreak = 0xFFFFFFFF80201000 ∧ (v'.mmu.pte 0xFFFFFFFF80200000).isSome = true ∧
      (fourFrames.mmu.pte 0xFFFFFFFF80200000).isSome = false := by
  decide +kernel

theorem break_atomic_iff_fourFrames :
    (vmmSbrk 8192 fourFrames).1 = 2 ^ 64 - 1 ∧ ¬BreakKept fourFrames (vmmSbrk 8192 fourFrames).2 := by
  have hw : WellFormed fourFrames.mmu.root fourFrames.mmu :=
    wellFormed_empty (by decide +kernel) fun j => by
      rw [fourFrames, Mmu.entry_withPfa]
      exact emptyTables_entry j
  have hfail : (vmmSbrk 8192 fourFrames).1 = 2 ^ 64 - 1 := by decide +kernel
  refine ⟨hfail, fun h => ?_⟩
  have := ((break_atomic_iff hw (by decide)).1 8192 hfail).mp h
  revert this
  decide +kernel

end KeonOS
