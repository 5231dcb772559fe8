import KeonOS.Mm.Fresh

/-!
# `VMM::sbrk`

The kernel break and the pages mapped below it.

* **`vmmSbrk_spec`**: a call keeps the invariant and provides the pages asked for, or fails.
-/

namespace KeonOS

open Word

/-! ## The code -/

/-- The state of the virtual memory manager. -/
structure Vmm where
  mmu : Mmu
  kernelDynamicBreak : ℕ
  vmmAllocatedBytes : ℕ

/-- One iteration of `VMM::sbrk`; `false` for `return (void*)-1`. -/
def sbrkPage (v : Vmm) : Bool × Vmm :=
  let (physFrame, mmu) := pfaAllocFrame v.mmu
  if physFrame = 0 then (false, { v with mmu := mmu })
  else
    (true, { v with
      mmu := pagingMapPage mmu v.kernelDynamicBreak physFrame (ptePresent ||| pteRw),
      kernelDynamicBreak := add64 v.kernelDynamicBreak 4096 })

/-- The loop of `VMM::sbrk`. -/
def sbrkLoop : ℕ → Vmm → Bool × Vmm
  | 0, v => (true, v)
  | n + 1, v =>
    match sbrkPage v with
    | (true, v) => sbrkLoop n v
    | (false, v) => (false, v)

/-- The number of pages `VMM::sbrk` computes. -/
def sbrkPages (incrementBytes : ℕ) : ℕ := add64 incrementBytes 4095 / 4096

/-- `vmm_allocated_bytes += n` -/
def Vmm.account (v : Vmm) (n : ℕ) : Vmm :=
  { v with vmmAllocatedBytes := add64 v.vmmAllocatedBytes n }

/-- `VMM::sbrk(increment_bytes)` -/
def vmmSbrk (incrementBytes : ℕ) (v : Vmm) : ℕ × Vmm :=
  if v.kernelDynamicBreak = 0 then (2 ^ 64 - 1, v)
  else if incrementBytes = 0 then (v.kernelDynamicBreak, v)
  else
    match sbrkLoop (sbrkPages incrementBytes) (v.account (sbrkPages incrementBytes * 4096)) with
    | (true, v') => (v.kernelDynamicBreak, v')
    | (false, v') => (2 ^ 64 - 1, v')

/-- In none of `n` iterations does the page get a frame but no page table. -/
def TablesCovered : ℕ → Vmm → Prop
  | 0, _ => True
  | n + 1, v =>
    (Pfa.CanTake 1 v.mmu.pfa → Pfa.CanTake
      (missingTables v.mmu v.mmu.root (tableIdx v.kernelDynamicBreak) + 1) v.mmu.pfa) ∧
    ((sbrkPage v).1 = true → TablesCovered n (sbrkPage v).2)

instance decidableTablesCovered : ∀ (n : ℕ) (v : Vmm), Decidable (TablesCovered n v)
  | 0, _ => isTrue trivial
  | n + 1, v =>
    have := decidableTablesCovered n (sbrkPage v).2
    inferInstanceAs (Decidable ((_ → _) ∧ (_ → _)))

/-- The pages from `lo` to the break are mapped, and there is room above for all free frames. -/
structure VmmInv (lo : ℕ) (v : Vmm) : Prop where
  wf : WellFormed v.mmu.root v.mmu
  upper : 2 ^ 64 - 2 ^ 47 ≤ lo
  le_brk : lo ≤ v.kernelDynamicBreak
  aligned : v.kernelDynamicBreak % 4096 = 0
  room : v.kernelDynamicBreak + 4096 * v.mmu.pfa.freeFrames.card < 2 ^ 64
  mapped : ∀ a, lo ≤ a → a < v.kernelDynamicBreak → (v.mmu.pte a).isSome = true

/-! ## One page -/

variable {lo k : ℕ} {v : Vmm}

theorem sbrkPage_spec (hv : VmmInv lo v) (hc : Pfa.CanTake 1 v.mmu.pfa → Pfa.CanTake
      (missingTables v.mmu v.mmu.root (tableIdx v.kernelDynamicBreak) + 1) v.mmu.pfa) :
    VmmInv lo (sbrkPage v).2 ∧ (sbrkPage v).2.kernelDynamicBreak =
      if (sbrkPage v).1 = true then v.kernelDynamicBreak + 4096 else v.kernelDynamicBreak := by
  have hup := hv.upper
  have hle := hv.le_brk
  have hal := hv.aligned
  have hroom := hv.room
  by_cases hcan : Pfa.CanTake 1 v.mmu.pfa
  · obtain ⟨f, s₁, halloc, hm⟩ := mapsFresh_of_canTake (ptePresent ||| pteRw) hv.wf (by decide) (hc hcan)
    have hcard := hm.card_freeFrames
    have hpage : sbrkPage v = (true, { v with
        mmu := pagingMapPage s₁ v.kernelDynamicBreak (f * 4096) (ptePresent ||| pteRw),
        kernelDynamicBreak := v.kernelDynamicBreak + 4096 }) := by
      have hf0 := hm.ne_zero
      rw [sbrkPage, halloc]
      simp only
      rw [if_neg (by omega), add64_of_lt (by omega)]
    rw [hpage]
    refine ⟨⟨hm.wf, hup, by dsimp only; omega, by dsimp only; omega, by dsimp only; omega,
      fun a ha hlt => ?_⟩, rfl⟩
    dsimp only at hlt
    have hca : Canonical a := .inr ⟨by omega, by omega⟩
    have hcb : Canonical v.kernelDynamicBreak := .inr ⟨by omega, by omega⟩
    by_cases hvpn : vpn a = vpn v.kernelDynamicBreak
    · rw [Mmu.pte_of_vpn hvpn, hm.self]
      rfl
    · rw [hm.other a hvpn]
      rw [vpn_eq_iff hcb hca] at hvpn
      exact hv.mapped a ha (by omega)
  · obtain ⟨h0, hext⟩ := pfaAllocFrame_fail hv.wf hcan
    have hpage : sbrkPage v = (false, { v with mmu := (pfaAllocFrame v.mmu).2 }) := by
      rw [sbrkPage]
      simp only
      rw [if_pos h0]
    have hcard := Finset.card_le_card (Pfa.freeFrames_subset hext.total hext.used)
    rw [hpage]
    refine ⟨⟨?_, hup, hle, hal, by dsimp only; omega, fun a ha hlt => ?_⟩, rfl⟩
    · rw [Mmu.root_congr hext.cr3]
      exact hext.wf
    · rw [hext.pte]
      exact hv.mapped a ha hlt

/-! ## Calls -/

theorem sbrkLoop_spec : ∀ {n : ℕ} {v : Vmm}, VmmInv lo v → TablesCovered n v →
    VmmInv lo (sbrkLoop n v).2 ∧ v.kernelDynamicBreak ≤ (sbrkLoop n v).2.kernelDynamicBreak ∧
      ((sbrkLoop n v).1 = true → (sbrkLoop n v).2.kernelDynamicBreak = v.kernelDynamicBreak + 4096 * n)
  | 0, v, hv, _ => ⟨hv, le_rfl, fun _ => rfl⟩
  | n + 1, v, hv, ⟨hc, hrest⟩ => by
    obtain ⟨hv', hb⟩ := sbrkPage_spec hv hc
    rw [sbrkLoop]
    rcases hp : sbrkPage v with ⟨_ | _, v'⟩
    all_goals rw [hp] at hv' hb hrest
    · exact ⟨hv', hb.ge, fun h => Bool.noConfusion h⟩
    obtain ⟨h1, h2, h3⟩ := sbrkLoop_spec hv' (hrest rfl)
    rw [if_pos rfl] at hb
    dsimp only at hb h1 h2 h3 ⊢
    refine ⟨h1, by omega, fun h => ?_⟩
    rw [h3 h, hb]
    ring

theorem sbrkPage_account (v : Vmm) (k : ℕ) :
    sbrkPage (v.account k) = ((sbrkPage v).1, (sbrkPage v).2.account k) := by
  by_cases h : (pfaAllocFrame v.mmu).1 = 0 <;> simp [sbrkPage, Vmm.account, h]

theorem TablesCovered.account : ∀ {n : ℕ} {v : Vmm}, TablesCovered n v → TablesCovered n (v.account k)
  | 0, _, _ => trivial
  | n + 1, v, ⟨hc, hrest⟩ => by
    refine ⟨hc, fun h => ?_⟩
    rw [sbrkPage_account] at h ⊢
    exact (hrest h).account

theorem VmmInv.account (hv : VmmInv lo v) : VmmInv lo (v.account k) :=
  ⟨hv.wf, hv.upper, hv.le_brk, hv.aligned, hv.room, hv.mapped⟩

theorem vmmSbrk_spec {n : ℕ} (hv : VmmInv lo v) (hc : TablesCovered (sbrkPages n) v) :
    VmmInv lo (vmmSbrk n v).2 ∧ (vmmSbrk n v).2.kernelDynamicBreak < 2 ^ 64 ∧
      ((vmmSbrk n v).1 = 2 ^ 64 - 1 ∧ v.kernelDynamicBreak ≤ (vmmSbrk n v).2.kernelDynamicBreak ∨
        (vmmSbrk n v).1 = v.kernelDynamicBreak ∧ (vmmSbrk n v).2.kernelDynamicBreak =
          v.kernelDynamicBreak + if n = 0 then 0 else 4096 * sbrkPages n) := by
  have hlt : ∀ {u : Vmm}, VmmInv lo u → u.kernelDynamicBreak < 2 ^ 64 := fun hu => by
    have := hu.room
    omega
  have hpos : v.kernelDynamicBreak ≠ 0 := by
    have := hv.upper
    have := hv.le_brk
    omega
  rw [vmmSbrk, if_neg hpos]
  split_ifs with hn
  · exact ⟨hv, hlt hv, .inr ⟨rfl, rfl⟩⟩
  obtain ⟨h1, h2, h3⟩ := sbrkLoop_spec (hv.account (k := sbrkPages n * 4096)) hc.account
  rcases hl : sbrkLoop (sbrkPages n) (v.account (sbrkPages n * 4096)) with ⟨_ | _, v'⟩
  all_goals rw [hl] at h1 h2 h3
  · exact ⟨h1, hlt h1, .inl ⟨rfl, h2⟩⟩
  · exact ⟨h1, hlt h1, .inr ⟨rfl, h3 rfl⟩⟩

end KeonOS
