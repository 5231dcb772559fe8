import KeonOS.Mm.PageMap

/-!
# Mapping a fresh frame

All memory of the kernel heap and of user threads is obtained in the same way: a frame from
`pfa_alloc_frame`, then `paging_map_page`. This module says once what the pair of calls does.

* `Pfa.freeFrames`: the frames that are left; **`Pfa.canTake_of_card`**;
* **`MapsFresh`**, **`mapsFresh_of_canTake`**: when the frames suffice for the page and its tables, the page
  is mapped to a zeroed frame that was free, and nothing else that was in use changes.
-/

namespace KeonOS

open Word

/-! ## Counting free frames -/

variable {f v flags : ℕ} {s : Mmu}

namespace Pfa

def freeFrames (p : Pfa) : Finset ℕ := (Finset.range p.totalFrames).filter fun f => p.isUsed f = false

variable {p p' : Pfa}

theorem freeFrames_subset (ht : p'.totalFrames = p.totalFrames)
    (hu : ∀ f, p.isUsed f = true → p'.isUsed f = true) : p'.freeFrames ⊆ p.freeFrames := by
  intro f hf
  simp only [freeFrames, Finset.mem_filter, Finset.mem_range] at hf ⊢
  refine ⟨ht ▸ hf.1, Bool.eq_false_of_not_eq_true fun h => ?_⟩
  rw [hu f h] at hf
  exact Bool.noConfusion hf.2

theorem Takes.freeFrames_eq (h : p.Takes f p') : p'.freeFrames = p.freeFrames.erase f := by
  ext g
  simp only [freeFrames, Finset.mem_filter, Finset.mem_range, Finset.mem_erase, h.total, h.used,
    Bool.or_eq_false_iff, decide_eq_false_iff_not]
  tauto

theorem Takes.card_freeFrames (h : p.Takes f p') : p.freeFrames.card = p'.freeFrames.card + 1 := by
  have hf : f ∈ p.freeFrames := Finset.mem_filter.mpr ⟨Finset.mem_range.mpr h.lt, h.free⟩
  rw [h.freeFrames_eq, Finset.card_erase_add_one hf]

theorem canTake_of_card : ∀ {k : ℕ} {p : Pfa}, p.isUsed 0 = true → k ≤ p.freeFrames.card → CanTake k p
  | 0, _, _, _ => trivial
  | k + 1, p, h0, hk => by
    cases ht : p.take with
    | none =>
      have hne : p.freeFrames.Nonempty := Finset.card_pos.mp (by omega)
      obtain ⟨g, hg⟩ := hne
      simp only [freeFrames, Finset.mem_filter, Finset.mem_range] at hg
      rw [take_eq_none.mp ht g hg.1] at hg
      exact Bool.noConfusion hg.2
    | some r =>
      obtain ⟨f, p'⟩ := r
      have hs := take_spec ht
      refine ⟨f, p', ht, ?_, canTake_of_card ?_ ?_⟩
      · rintro rfl
        rw [hs.free] at h0
        exact Bool.noConfusion h0
      · rw [hs.used, h0, Bool.or_true]
      · have := hs.card_freeFrames
        omega

end Pfa

/-! ## Taking a frame -/

section Alloc

variable {r : ℕ} {s s' : Mmu}

theorem missingTables_of_reach (h : ∀ q t, q.length < 3 → s.walk r q = some t →
    ∀ j, s'.entry t j = s.entry t j) : ∀ {is p : List (Fin 512)} {t : ℕ},
    p.length + is.length ≤ 3 → s.walk r p = some t → missingTables s' t is = missingTables s t is
  | [], _, _, _, _ => rfl
  | i :: is, p, t, hlen, ht => by
    rw [List.length_cons] at hlen
    rw [missingTables, missingTables, h p t (by omega) ht]
    split_ifs with hp
    · exact missingTables_of_reach h (p := p ++ [i])
        (by rw [List.length_append, List.length_singleton]; omega)
        (Mmu.walk_snoc_of_present ht hp)
    · rfl

theorem missingTables_eq_zero : ∀ {is : List (Fin 512)} {t u : ℕ},
    s.walk t is = some u → missingTables s t is = 0
  | [], _, _, _ => rfl
  | i :: is, t, u, h => by
    unfold Mmu.walk Radix.walk at h
    split_ifs at h with hp
    rw [missingTables, if_pos hp]
    exact missingTables_eq_zero h

theorem FrameZeroed.missingTables_eq (h : FrameZeroed s s' f) (hw : WellFormed s.root s)
    (v : ℕ) : missingTables s' s'.root (tableIdx v) = missingTables s s.root (tableIdx v) := by
  rw [Mmu.root_congr h.cr3]
  refine missingTables_of_reach (fun q t hq ht j => ?_) (p := []) (le_refl 3) rfl
  rw [h.entry, if_neg]
  rintro rfl
  exact hw.not_table h.takes.free q hq.le ht

theorem card_freeFrames_pfaAllocFrame (s : Mmu) :
    s.pfa.freeFrames.card ≤ (pfaAllocFrame s).2.pfa.freeFrames.card + 1 := by
  rw [pfaAllocFrame]
  cases ht : s.pfa.take with
  | none => exact Nat.le_succ _
  | some r =>
    have hs : s.pfa.Takes r.1 r.2 := Pfa.take_spec ht
    exact hs.card_freeFrames.le

theorem card_freeFrames_getPteStep (s : Mmu) (t : ℕ) (i : Fin 512) (create : Bool) (flags : ℕ) :
    s.pfa.freeFrames.card ≤ (getPteStep s t i create flags).2.pfa.freeFrames.card + 1 := by
  have h := card_freeFrames_pfaAllocFrame s
  rw [getPteStep]
  split_ifs
  · exact Nat.le_succ _
  · rcases hp : pfaAllocFrame s with ⟨n, s₁⟩
    rw [hp] at h
    dsimp only at h ⊢
    by_cases hn : n = 0
    · rwa [if_pos hn]
    · rwa [if_neg hn]
  all_goals exact Nat.le_succ _

theorem card_freeFrames_getPteLoop (create : Bool) (flags : ℕ) : ∀ (is : List (Fin 512)) (s : Mmu)
    (t : ℕ), s.pfa.freeFrames.card ≤ (getPteLoop s t create flags is).2.pfa.freeFrames.card + is.length
  | [], _, _ => le_rfl
  | i :: is, s, t => by
    have h := card_freeFrames_getPteStep s t i create flags
    rw [getPteLoop, List.length_cons]
    rcases hs : getPteStep s t i create flags with ⟨_ | u, s₁⟩
    all_goals
      rw [hs] at h
      dsimp only at h ⊢
    · omega
    · have h' := card_freeFrames_getPteLoop create flags is s₁ u
      omega

theorem card_freeFrames_pagingMapPage (s : Mmu) (v phys flags : ℕ) :
    s.pfa.freeFrames.card ≤ (pagingMapPage s v phys flags).pfa.freeFrames.card + 3 := by
  have h := card_freeFrames_getPteLoop true flags (tableIdx v) s s.root
  rw [pagingMapPage, getPte]
  rcases hl : getPteLoop s s.root true flags (tableIdx v) with ⟨_ | u, s₁⟩
  all_goals
    rwa [hl] at h

theorem pfaAllocFrame_fail (hw : WellFormed s.root s) (h : ¬ Pfa.CanTake 1 s.pfa) :
    (pfaAllocFrame s).1 = 0 ∧
      Extends s.root (fun f => s.pfa.isUsed f = false) s (pfaAllocFrame s).2 := by
  cases ht : s.pfa.take with
  | none =>
    rw [pfaAllocFrame, ht]
    exact ⟨rfl, .refl hw⟩
  | some a =>
    obtain ⟨f, pfa⟩ := a
    have hf : f = 0 := by
      by_contra hf
      exact h ⟨f, pfa, ht, hf, trivial⟩
    obtain ⟨s', halloc, hz, -⟩ := frameZeroed_alloc ht
    rw [halloc]
    refine ⟨by rw [hf], (extends_alloc hz hw).1.mono ?_⟩
    rintro g rfl
    exact hz.takes.free

end Alloc

/-! ## The pair of calls -/

/-- `s'` is `s` with the page of `v` mapped to the frame `f`, which was free and is zeroed. -/
structure MapsFresh (s s' : Mmu) (v f flags : ℕ) : Prop where
  wf : WellFormed s'.root s'
  cr3 : s'.cr3 = s.cr3
  total : s'.pfa.totalFrames = s.pfa.totalFrames
  ne_zero : f ≠ 0
  lt : f < s.pfa.totalFrames
  free : s.pfa.isUsed f = false
  taken : s'.pfa.isUsed f = true
  used : ∀ g, s.pfa.isUsed g = true → s'.pfa.isUsed g = true
  self : s'.pte v = some (f * 4096 ||| flags ||| ptePresent)
  other : ∀ w, vpn w ≠ vpn v → s'.pte w = s.pte w
  fresh : ∀ q t, q.length ≤ 3 → s'.walk s.root q = some t →
    s.walk s.root q = some t ∨ s.pfa.isUsed t = false ∧ t ≠ f
  walk : ∀ q t, q.length ≤ 3 → s.walk s.root q = some t → s'.walk s.root q = some t
  tables : ∀ g, s'.pfa.isUsed g = true → s.pfa.isUsed g = true ∨ g = f ∨
    ∃ q, q.length ≤ 3 ∧ s'.walk s.root q = some g
  zero : ∀ x, x / 4096 = f → s'.mem x = 0
  frame : ∀ x, s.pfa.isUsed (x / 4096) = true →
    (∀ q, q.length ≤ 3 → s.walk s.root q ≠ some (x / 4096)) → s'.mem x = s.mem x

theorem mapsFresh_of_canTake (flags : ℕ) (hw : WellFormed s.root s) (hf : flags < 4096)
    (hc : Pfa.CanTake (missingTables s s.root (tableIdx v) + 1) s.pfa) :
    ∃ f s₁, pfaAllocFrame s = (f * 4096, s₁) ∧
      MapsFresh s (pagingMapPage s₁ v (f * 4096) flags) v f flags := by
  obtain ⟨f, pfa, htake, hf0, hrest⟩ := hc
  obtain ⟨s₁, halloc, hz, rfl⟩ := frameZeroed_alloc htake
  obtain ⟨hext, hwalk⟩ := extends_alloc hz hw
  have hroot : s₁.root = s.root := Mmu.root_congr hz.cr3
  have hwf₁ : WellFormed s₁.root s₁ := by rw [hroot]; exact hext.wf
  have hsuf : FramesSuffice s₁ v := by
    rwa [FramesSuffice, hz.missingTables_eq hw]
  have hflt : f * 4096 < 2 ^ 64 := by
    have := hz.takes.lt
    have := s.pfa.total_le
    omega
  have hm := pagingMapPage_spec (v := v) hwf₁ hflt (show flags < 2 ^ 64 by omega)
  have hused₁ : s₁.pfa.isUsed f = true := by
    rw [hz.takes.used, decide_eq_true rfl, Bool.true_or]
  -- `f` is no table before the mapping, and being in use it does not become one
  have hnt : ∀ q, q.length ≤ 3 → s₁.walk s₁.root q ≠ some f := by
    intro q hq
    rw [hroot, hwalk q hq]
    exact hw.not_table hz.takes.free q hq
  have he : alignDown 4096 (f * 4096) = f * 4096 := alignDown_of_mod (Nat.mul_mod_left _ _)
  rw [he] at hm
  refine ⟨f, s₁, halloc, hm.wf, hm.cr3.trans hz.cr3, hm.total.trans hz.takes.total, hf0,
    hz.takes.lt, hz.takes.free, hm.used f hused₁, fun g hg => hm.used g (hext.used g hg),
    hm.self hsuf, fun w hv => (hm.other w hv).trans hext.pte, fun q t hq ht => ?_,
    fun q t hq ht => ?_, fun g hg => ?_, fun x hx => ?_, fun x hx hx' => ?_⟩
  · rw [← hroot] at ht
    rcases hm.fresh q t hq ht with h | h
    · rw [hroot, hwalk q hq] at h
      exact .inl h
    · rw [hz.takes.used] at h
      simp only [Bool.or_eq_false_iff, decide_eq_false_iff_not] at h
      exact .inr ⟨h.2, h.1⟩
  · rw [← hroot]
    exact hm.walk q t hq (by rw [hroot, hwalk q hq, ht])
  · rw [← hroot]
    rcases hm.tables hsuf g hg with h | h
    · rw [hz.takes.used, Bool.or_eq_true, decide_eq_true_iff] at h
      exact h.elim (fun h => .inr (.inl h)) .inl
    · exact .inr (.inr h)
  · rw [hm.frame x (by rw [hx, hused₁]) (by rw [hx]; exact hnt)]
    exact hz.zero x hx
  · rw [hm.frame x (hext.used _ hx) (by rw [hroot]; exact fun q hq => by rw [hwalk q hq]; exact hx' q hq)]
    refine hext.frame x ?_ hx'
    rintro rfl
    rw [hz.takes.free] at hx
    exact Bool.noConfusion hx

theorem missingTables_le (s : Mmu) : ∀ (is : List (Fin 512)) (t : ℕ), missingTables s t is ≤ is.length
  | [], _ => le_rfl
  | i :: is, t => by
    have := missingTables_le s is (s.entry t i / 4096)
    rw [missingTables, List.length_cons]
    split_ifs <;> omega

theorem mapsFresh_of_card (v : ℕ) (hw : WellFormed s.root s)
    (h0 : s.pfa.isUsed 0 = true) (hc : 4 ≤ s.pfa.freeFrames.card) (hf : flags < 4096) :
    ∃ f s₁, pfaAllocFrame s = (f * 4096, s₁) ∧
      MapsFresh s (pagingMapPage s₁ v (f * 4096) flags) v f flags ∧
      s.pfa.freeFrames.card ≤ (pagingMapPage s₁ v (f * 4096) flags).pfa.freeFrames.card + 4 := by
  have hle : missingTables s s.root (tableIdx v) ≤ 3 := missingTables_le s _ _
  obtain ⟨f, s₁, halloc, hm⟩ := mapsFresh_of_canTake flags hw hf
    (Pfa.canTake_of_card h0 (show missingTables s s.root (tableIdx v) + 1 ≤ _ by omega))
  have h1 := card_freeFrames_pfaAllocFrame s
  have h2 := card_freeFrames_pagingMapPage s₁ v (f * 4096) flags
  rw [halloc] at h1
  dsimp only at h1
  exact ⟨f, s₁, halloc, hm, by omega⟩

theorem pte_eq_none_of_not_suffice (h : ¬ FramesSuffice s v) : s.pte v = none := by
  cases hw : s.walk s.root (tableIdx v) with
  | none => rw [Mmu.pte, Mmu.leaf, hw, Option.bind_none]
  | some t =>
    refine absurd ?_ h
    rw [FramesSuffice, missingTables_eq_zero hw]
    trivial

theorem pagingMapPage_fail (phys flags : ℕ) (hw : WellFormed s.root s) (h : ¬ FramesSuffice s v) :
    Extends s.root (fun f => s.pfa.isUsed f = false) s (pagingMapPage s v phys flags) := by
  obtain ⟨hext, hres⟩ := @getPteLoop_spec s.root flags (tableIdx v) [] s.root s hw rfl rfl
    fun _ => rfl
  rw [pagingMapPage, getPte]
  rcases hl : getPteLoop s s.root true flags (tableIdx v) with ⟨_ | t, s₁⟩
  all_goals rw [hl] at hext hres
  · exact hext
  · exact absurd hres.1 h

theorem allocMap_cases {s₁ : Mmu} {phys : ℕ} (v : ℕ) (hw : WellFormed s.root s)
    (hf : flags < 4096) (halloc : pfaAllocFrame s = (phys, s₁)) (h0 : phys ≠ 0) :
    (∃ f, MapsFresh s (pagingMapPage s₁ v phys flags) v f flags) ∨
      (pagingMapPage s₁ v phys flags).pte v = none ∧
      Extends s.root (fun f => s.pfa.isUsed f = false) s (pagingMapPage s₁ v phys flags) := by
  cases ht : s.pfa.take with
  | none =>
    rw [pfaAllocFrame, ht] at halloc
    cases halloc
    exact absurd rfl h0
  | some r =>
    obtain ⟨f, pfa⟩ := r
    obtain ⟨s₁', halloc', hz, rfl⟩ := frameZeroed_alloc ht
    rw [halloc, Prod.mk.injEq] at halloc'
    obtain ⟨rfl, rfl⟩ := halloc'
    obtain ⟨hext, -⟩ := extends_alloc hz hw
    have hroot : s₁.root = s.root := Mmu.root_congr hz.cr3
    have hfree : ∀ g, s₁.pfa.isUsed g = false → s.pfa.isUsed g = false := fun g hg =>
      Bool.eq_false_of_not_eq_true fun h => by
        rw [hext.used g h] at hg
        exact Bool.noConfusion hg
    by_cases hsuf : FramesSuffice s₁ v
    · have hcan : Pfa.CanTake (missingTables s s.root (tableIdx v) + 1) s.pfa := by
        rw [Pfa.canTake_succ_of_take ht, ← hz.missingTables_eq hw]
        exact ⟨by omega, hsuf⟩
      obtain ⟨f', s₁', halloc', hm⟩ := mapsFresh_of_canTake flags hw hf hcan
      rw [halloc, Prod.mk.injEq] at halloc'
      obtain ⟨hff, rfl⟩ := halloc'
      rw [← hff] at hm
      exact .inl ⟨f', hm⟩
    · have hwf₁ : WellFormed s₁.root s₁ := by
        rw [hroot]
        exact hext.wf
      have hfail := pagingMapPage_fail (f * 4096) flags hwf₁ hsuf
      refine .inr ⟨hfail.pte.trans (pte_eq_none_of_not_suffice hsuf), ?_⟩
      rw [hroot] at hfail
      refine Extends.trans (hext.mono ?_) (hfail.mono hfree)
      rintro g rfl
      exact hz.takes.free

theorem MapsFresh.card_freeFrames {s' : Mmu} (h : MapsFresh s s' v f flags) :
    s'.pfa.freeFrames.card < s.pfa.freeFrames.card := by
  refine Finset.card_lt_card ⟨Pfa.freeFrames_subset h.total h.used, fun hsub => ?_⟩
  have hf : f ∈ s.pfa.freeFrames := Finset.mem_filter.mpr ⟨Finset.mem_range.mpr h.lt, h.free⟩
  have hf' := (Finset.mem_filter.mp (hsub hf)).2
  rw [h.taken] at hf'
  exact Bool.noConfusion hf'

end KeonOS
