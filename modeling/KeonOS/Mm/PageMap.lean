import KeonOS.Mm.Tables

/-!
# Page tables refine a map

The page tables represent a map from virtual pages to last-level entries, `Mmu.pte`. On a
well-formed state `paging_map_page` updates this map at one page, or leaves it alone when the frames
for missing tables run out; `paging_unmap_page` removes one page; the two queries read it.

* **`getPteLoop_spec`**: the walk of `get_pte` extends the tree and finds the last table exactly
  when the frames suffice;
* **`page_tables_refine_map`**: both updates in terms of the two queries.
-/

namespace KeonOS

open Word List Option

/-- The number of tables missing on the path `is` from table `t`. -/
def missingTables (s : Mmu) : ℕ → List (Fin 512) → ℕ
  | _, [] => 0
  | t, i :: is =>
    if hasFlag (s.entry t i) ptePresent then missingTables s (s.entry t i / 4096) is
    else is.length + 1

/-- The frame allocator has the frames for the tables that mapping `v` has to create. -/
def FramesSuffice (s : Mmu) (v : ℕ) : Prop := Pfa.CanTake (missingTables s s.root (tableIdx v)) s.pfa

/-! ## One level of `get_pte` -/

section Step

variable {r t : ℕ} {s s' s'' : Mmu} {p : List (Fin 512)} {i : Fin 512}

/-- Entries got more permissions but lead where they did. -/
structure Upgraded (r : ℕ) (s s' : Mmu) : Prop where
  ext : Extends r (fun _ => False) s s'
  pfa : s'.pfa = s.pfa
  same : ∀ u j, hasFlag (s'.entry u j) ptePresent = hasFlag (s.entry u j) ptePresent ∧
    s'.entry u j / 4096 = s.entry u j / 4096
  user : ∀ u j, hasFlag (s.entry u j) pteUser = true → hasFlag (s'.entry u j) pteUser = true

theorem Upgraded.refl (hw : WellFormed r s) : Upgraded r s s :=
  ⟨.refl hw, rfl, fun _ _ => ⟨rfl, rfl⟩, fun _ _ h => h⟩

theorem Upgraded.trans (h : Upgraded r s s') (h' : Upgraded r s' s'') : Upgraded r s s'' where
  ext := h.ext.trans h'.ext
  pfa := h'.pfa.trans h.pfa
  same u j := ⟨(h'.same u j).1.trans (h.same u j).1, (h'.same u j).2.trans (h.same u j).2⟩
  user u j hu := h'.user u j (h.user u j hu)

theorem upgraded_or (c : Bool) {k : ℕ} (hw : WellFormed r s) (hp : p.length < 3)
    (ht : s.walk r p = some t) (hk : k < 4096) (hk1 : hasFlag k ptePresent = false)
    (hk2 : hasFlag k pteLarge = false) :
    Upgraded r s (if c then s.setEntry t i (s.entry t i ||| k) else s) := by
  cases c with
  | false => exact .refl hw
  | true =>
    have hset : EntrySet s (s.setEntry t i (s.entry t i ||| k)) t i (s.entry t i ||| k) :=
      entrySet_setEntry (Nat.or_lt_two_pow (s.entry_lt t i) (by omega))
    rw [if_pos rfl]
    refine ⟨extends_upgrade hset hw hp ht hk hk1 hk2, hset.pfa, fun u j => ?_, fun u j hu => ?_⟩
    · rw [hset.entry]
      split_ifs with h
      · rw [hasFlag_or, hk1, Bool.or_false, or_div_page hk, h.1, h.2]
        exact ⟨rfl, rfl⟩
      · exact ⟨rfl, rfl⟩
    · rw [hset.entry]
      split_ifs with h
      · rw [hasFlag_or, ← h.1, ← h.2, hu, Bool.true_or]
      · exact hu

theorem getPteStep_present (create : Bool) (flags : ℕ) (hw : WellFormed r s) (hp : p.length < 3)
    (ht : s.walk r p = some t) (hpr : hasFlag (s.entry t i) ptePresent = true) :
    ∃ s', getPteStep s t i create flags = (some (s.entry t i / 4096), s') ∧ Upgraded r s s' ∧
      s'.walk r (p ++ [i]) = some (s.entry t i / 4096) ∧
      (hasFlag flags pteUser = true → userWalk s r p = true → userWalk s' r (p ++ [i]) = true) := by
  set s₁ := if hasFlag flags pteUser then s.setEntry t i (s.entry t i ||| pteUser) else s with h₁
  set s₂ := if hasFlag flags pteRw then s₁.setEntry t i (s₁.entry t i ||| pteRw) else s₁ with h₂
  have hu₁ : Upgraded r s s₁ := upgraded_or _ hw hp ht (by norm_num) (by decide) (by decide)
  have hu₂ : Upgraded r s₁ s₂ :=
    upgraded_or _ hu₁.ext.wf hp (hu₁.ext.walk p t hp.le ht) (by norm_num) (by decide) (by decide)
  have hup := hu₁.trans hu₂
  have ht₂ := hup.ext.walk p t hp.le ht
  have hpr₂ : hasFlag (s₂.entry t i) ptePresent = true := by rw [(hup.same t i).1, hpr]
  refine ⟨s₂, ?_, hup, ?_, fun hf hu =>
    userWalk_snoc.mpr ⟨hup.ext.user p hp.le hu, t, ht₂, hpr₂, hu₂.user t i ?_⟩⟩
  · rw [getPteStep, if_neg (by rw [hpr]; exact Bool.noConfusion)]
    exact congrArg (fun x => (some x, s₂)) (hup.same t i).2
  · rw [Mmu.walk_snoc_of_present ht₂ hpr₂, (hup.same t i).2]
  · rw [h₁, if_pos hf, Mmu.entry_setEntry (Nat.or_lt_two_pow (s.entry_lt t i) (by norm_num)),
      if_pos ⟨rfl, rfl⟩, hasFlag_or]
    exact Bool.or_true _

theorem frameZeroed_alloc {f : ℕ} {pfa : Pfa} (h : s.pfa.take = some (f, pfa)) :
    ∃ s', pfaAllocFrame s = (f * 4096, s') ∧ FrameZeroed s s' f ∧ s'.pfa = pfa := by
  refine ⟨{ s with pfa := pfa, mem := s.mem.fillMem (f * 4096) 4096 0 }, ?_, ⟨fun u j => ?_,
    fun x hx => Mem.fillMem_apply_of_notMem (by omega),
    fun x hx => Mem.fillMem_apply (by omega) (by omega), Pfa.take_spec h, rfl⟩, rfl⟩
  · rw [pfaAllocFrame, h]
  rw [Mmu.entry]
  split_ifs with hu
  · exact Mem.readLE_fillMem_zero (by omega) (by omega)
  · rw [Mmu.entry]
    exact Mem.readLE_fillMem_of_disjoint (by omega)

theorem newEntry_spec {f : ℕ} (flags : ℕ) (hf : f < 2 ^ 52) :
    let e := f * 4096 ||| ptePresent ||| pteRw ||| (flags &&& pteUser)
    e < 2 ^ 64 ∧ e / 4096 = f ∧ hasFlag e ptePresent = true ∧ hasFlag e pteLarge = false ∧
      hasFlag e pteUser = hasFlag flags pteUser := by
  have hu : flags &&& pteUser < 4096 := lt_of_le_of_lt Nat.and_le_right (by norm_num)
  refine ⟨?_, ?_, ?_, ?_, ?_⟩
  · exact Nat.or_lt_two_pow (Nat.or_lt_two_pow (Nat.or_lt_two_pow (by omega) (by norm_num))
      (by norm_num)) (by omega)
  · rw [or_div_page hu, or_div_page (by norm_num), or_div_page (by norm_num)]
    omega
  · simp only [hasFlag_or]
    rw [show hasFlag ptePresent ptePresent = true from rfl]
    simp
  · simp only [hasFlag_or]
    rw [hasFlag_frame (by norm_num), hasFlag_and_of_disjoint (by decide)]
    rfl
  · simp only [hasFlag_or]
    rw [hasFlag_frame (by norm_num), hasFlag_and_self]
    exact Bool.false_or _

theorem getPteStep_absent {f : ℕ} {pfa : Pfa} (flags : ℕ) (hw : WellFormed r s) (hp : p.length < 3)
    (ht : s.walk r p = some t) (habs : hasFlag (s.entry t i) ptePresent = false)
    (htake : s.pfa.take = some (f, pfa)) (hf0 : f ≠ 0) :
    ∃ s', getPteStep s t i true flags = (some f, s') ∧ Extends r (· = f) s s' ∧ s'.pfa = pfa ∧
      s'.walk r (p ++ [i]) = some f ∧ (∀ j, s'.entry f j = 0) ∧
      (hasFlag flags pteUser = true → userWalk s r p = true → userWalk s' r (p ++ [i]) = true) := by
  obtain ⟨s₁, halloc, hz, hpfa⟩ := frameZeroed_alloc htake
  have hlt : f < 2 ^ 52 := lt_of_lt_of_le hz.takes.lt s.pfa.total_le
  obtain ⟨he, hef, he1, he2, he3⟩ := newEntry_spec flags hlt
  set e := f * 4096 ||| ptePresent ||| pteRw ||| (flags &&& pteUser) with hedef
  have hset : EntrySet s₁ (s₁.setEntry t i e) t i e := entrySet_setEntry he
  obtain ⟨h₁, hwalk₁⟩ := extends_alloc hz hw
  have hft : t ≠ f := by
    rintro rfl
    exact hw.not_table hz.takes.free p hp.le ht
  have habs₁ : hasFlag (s₁.entry t i) ptePresent = false := by rw [hz.entry, if_neg hft, habs]
  have hempty : ∀ j, s₁.entry f j = 0 := fun j => by rw [hz.entry, if_pos rfl]
  have hnt : ∀ q, q.length ≤ 3 → s₁.walk r q ≠ some f := by
    intro q hq
    rw [hwalk₁ q hq]
    exact hw.not_table hz.takes.free q hq
  have hused : s₁.pfa.isUsed f = true := by
    rw [hz.takes.used, decide_eq_true rfl, Bool.true_or]
  obtain ⟨h₂, hwalk₂⟩ := extends_link hset h₁.wf hp (h₁.walk p t hp.le ht) habs₁
    (by rwa [hef]) (by rwa [hef]) (by rwa [hef]) he1 he2
  rw [hef] at h₂ hwalk₂
  have hself : (s₁.setEntry t i e).entry t i = e := by rw [hset.entry, if_pos ⟨rfl, rfl⟩]
  have hext := h₁.trans h₂
  refine ⟨s₁.setEntry t i e, ?_, hext, hset.pfa.trans hpfa, hwalk₂, fun j => ?_, fun hf hu =>
    userWalk_snoc.mpr ⟨hext.user p hp.le hu, t, hext.walk p t hp.le ht, ?_, ?_⟩⟩
  · rw [getPteStep, if_pos habs, if_neg Bool.noConfusion, halloc]
    simp only
    rw [if_neg (by omega), ← hedef, hself, hef]
  · rw [hset.entry, if_neg fun h => hft h.1.symm, hempty]
  · rw [hself, he1]
  · rw [hself, he3, hf]

theorem getPteStep_fail (flags : ℕ) (hw : WellFormed r s)
    (habs : hasFlag (s.entry t i) ptePresent = false)
    (htake : ∀ f pfa, s.pfa.take = some (f, pfa) → f = 0) :
    ∃ s', getPteStep s t i true flags = (none, s') ∧
      Extends r (fun f => s.pfa.isUsed f = false) s s' := by
  cases h : s.pfa.take with
  | none =>
    refine ⟨s, ?_, .refl hw⟩
    rw [getPteStep, if_pos habs, if_neg Bool.noConfusion, pfaAllocFrame, h]
    rfl
  | some a =>
    obtain ⟨s₁, halloc, hz, -⟩ := frameZeroed_alloc h
    refine ⟨s₁, ?_, (extends_alloc hz hw).1.mono ?_⟩
    · rw [getPteStep, if_pos habs, if_neg Bool.noConfusion, halloc, htake _ _ h]
      rfl
    · rintro f rfl
      exact hz.takes.free

end Step

/-! ## The walk -/

section Loop

variable {r t flags : ℕ} {s s' : Mmu} {p is : List (Fin 512)}

theorem missingTables_congr (h : ∀ u j, hasFlag (s'.entry u j) ptePresent =
    hasFlag (s.entry u j) ptePresent ∧ s'.entry u j / 4096 = s.entry u j / 4096) :
    missingTables s' t is = missingTables s t is := by
  induction is generalizing t with
  | nil => rfl
  | cons i is ih => rw [missingTables, missingTables, (h t i).1, (h t i).2, ih]

theorem missingTables_of_empty (h : ∀ j, s.entry t j = 0) : missingTables s t is = is.length := by
  cases is with
  | nil => rfl
  | cons i is =>
    rw [missingTables, h, if_neg (by decide), length_cons]

theorem getPteLoop_spec : ∀ {is p : List (Fin 512)} {t : ℕ} {s : Mmu}, WellFormed r s →
    p.length + is.length = 3 → s.walk r p = some t →
    (hasFlag flags pteUser = true → userWalk s r p = true) →
    Extends r (fun f => s.pfa.isUsed f = false) s (getPteLoop s t true flags is).2 ∧
    match getPteLoop s t true flags is with
    | (some u, s') => Pfa.CanTake (missingTables s t is) s.pfa ∧ s'.walk r (p ++ is) = some u ∧
        (hasFlag flags pteUser = true → userWalk s' r (p ++ is) = true) ∧
        ∀ g, s'.pfa.isUsed g = true →
          s.pfa.isUsed g = true ∨ ∃ q, q.length ≤ 3 ∧ s'.walk r q = some g
    | (none, _) => ¬ Pfa.CanTake (missingTables s t is) s.pfa
  | [], p, t, s, hw, hlen, ht, hu => by
    rw [append_nil]
    exact ⟨.refl hw, trivial, ht, hu, fun _ => .inl⟩
  | i :: is, p, t, s, hw, hlen, ht, hu => by
    rw [length_cons] at hlen
    have hp : p.length < 3 := by omega
    have hlen' : (p ++ [i]).length + is.length = 3 := by
      rw [length_append, length_singleton]
      omega
    rw [append_cons p i is]
    by_cases hpr : hasFlag (s.entry t i) ptePresent = true
    · -- the entry is there: go down
      obtain ⟨s', hstep, hup, hwalk, huser⟩ := getPteStep_present true flags hw hp ht hpr
      have ih := getPteLoop_spec hup.ext.wf hlen' hwalk fun hf => huser hf (hu hf)
      rw [missingTables_congr hup.same, hup.pfa] at ih
      rw [getPteLoop, hstep, missingTables, if_pos hpr]
      exact ⟨(hup.ext.mono fun _ h => h.elim).trans ih.1, ih.2⟩
    rw [Bool.not_eq_true] at hpr
    rw [getPteLoop, missingTables, if_neg (by rw [hpr]; exact Bool.noConfusion)]
    by_cases hcan : ∃ f pfa, s.pfa.take = some (f, pfa) ∧ f ≠ 0
    · -- a new table is linked; everything below it is missing
      obtain ⟨f, pfa, htake, hf0⟩ := hcan
      obtain ⟨s', hstep, hext, hpfa, hwalk, hempty, huser⟩ :=
        getPteStep_absent flags hw hp ht hpr htake hf0
      have htakes := Pfa.take_spec htake
      obtain ⟨hext₂, hres⟩ := getPteLoop_spec hext.wf hlen' hwalk fun hf => huser hf (hu hf)
      have hext' : Extends r (fun f => s.pfa.isUsed f = false) s s' := by
        refine hext.mono ?_
        rintro g rfl
        exact htakes.free
      have hfree' : ∀ g, s'.pfa.isUsed g = false → s.pfa.isUsed g = false := fun g hg =>
        Bool.eq_false_of_not_eq_true fun h => by
          rw [hext.used g h] at hg
          exact Bool.noConfusion hg
      have hiff : Pfa.CanTake (is.length + 1) s.pfa ↔ Pfa.CanTake (missingTables s' f is) s'.pfa := by
        rw [missingTables_of_empty hempty, hpfa, Pfa.canTake_succ_of_take htake]
        exact and_iff_right hf0
      have hnew := hext₂.walk _ f (by omega) hwalk
      rw [hstep, hiff]
      refine ⟨hext'.trans (hext₂.mono hfree'), ?_⟩
      dsimp only
      revert hres hnew
      rcases getPteLoop s' f true flags is with ⟨_ | u, s''⟩
      · exact fun h _ => h
      rintro ⟨hcan, ht', hu', htab⟩ hnew
      refine ⟨hcan, ht', hu', fun g hg => (htab g hg).elim (fun h => ?_) .inr⟩
      rw [hpfa, htakes.used, Bool.or_eq_true, decide_eq_true_iff] at h
      rcases h with rfl | h
      · exact .inr ⟨p ++ [i], by omega, hnew⟩
      · exact .inl h
    · push Not at hcan
      obtain ⟨s', hstep, hext⟩ := getPteStep_fail flags hw hpr hcan
      rw [hstep]
      refine ⟨hext, ?_⟩
      rintro ⟨f, pfa, h, hf0, -⟩
      exact hf0 (hcan f pfa h)

theorem getPteLoop_read : getPteLoop s t false 0 is = (s.walk t is, s) := by
  induction is generalizing t with
  | nil => rfl
  | cons i is ih =>
    have h0 : ∀ k, hasFlag 0 k = false := fun k => by rw [hasFlag, Nat.zero_and]; rfl
    cases hp : hasFlag (s.entry t i) ptePresent with
    | false => simp [getPteLoop, getPteStep, Radix.walk, hp]
    | true => simp [getPteLoop, getPteStep, Radix.walk, hp, h0, ih]

end Loop

/-! ## The represented map -/

/-- The page number of a virtual address, as far as the tables distinguish pages. -/
def vpn (v : ℕ) : ℕ := v / 4096 % 2 ^ 36

def Canonical (v : ℕ) : Prop := v < 2 ^ 47 ∨ 2 ^ 64 - 2 ^ 47 ≤ v ∧ v < 2 ^ 64

/-- The present entry of the page of `v`. -/
def Mmu.pte (s : Mmu) (v : ℕ) : Option ℕ := s.leaf s.root (tableIdx v) (ptIdx v)

/-- The physical address behind `v`, if it is mapped. -/
def Mmu.translate (s : Mmu) (v : ℕ) : Option ℕ := (s.pte v).map fun e => alignDown 4096 e + v % 4096

theorem idx_eq_iff {v w : ℕ} : tableIdx w = tableIdx v ∧ ptIdx w = ptIdx v ↔ vpn w = vpn v := by
  simp only [tableIdx, pml4Idx, pdptIdx, pdIdx, ptIdx, vpn, List.cons.injEq, and_true,
    Fin.ext_iff, Fin.val_ofNat]
  omega

theorem vpn_eq_iff {v w : ℕ} (hv : Canonical v) (hw : Canonical w) :
    vpn w = vpn v ↔ w / 4096 = v / 4096 := by
  unfold Canonical at hv hw
  unfold vpn
  omega

section PageMap

variable {s s' : Mmu} {v w e phys flags : ℕ}

theorem getPte_read : getPte s s.root v false 0 =
    ((s.walk s.root (tableIdx v)).map fun t => (t, ptIdx v), s) := by
  rw [getPte, getPteLoop_read]

theorem pagingGetPhysicalAddress_eq : pagingGetPhysicalAddress s v = (s.translate v).getD 0 := by
  rw [pagingGetPhysicalAddress, getPte_read, Mmu.translate, Mmu.pte, Mmu.leaf]
  cases s.walk s.root (tableIdx v) with
  | none => rfl
  | some t =>
    simp only [map_some, bind_some]
    split_ifs <;> rfl

theorem pagingIsUserAccessible_eq (hw : WellFormed s.root s) :
    pagingIsUserAccessible s v = (s.pte v).any (hasFlag · pteUser) := by
  rw [Bool.eq_iff_iff, pagingIsUserAccessible, userWalk_snoc, Option.any_eq_true, Mmu.pte]
  constructor
  · rintro ⟨-, t, ht, hp, hu⟩
    exact ⟨s.entry t (ptIdx v), by rw [Mmu.leaf, ht, bind_some, if_pos hp], hu⟩
  rintro ⟨e, he, hu⟩
  refine ⟨hw.user _ _ e rfl he hu, ?_⟩
  rw [Mmu.leaf] at he
  cases ht : s.walk s.root (tableIdx v) with
  | none => simp [ht] at he
  | some t =>
    simp only [ht, bind_some] at he
    split_ifs at he with hp
    cases he
    exact ⟨t, rfl, hp, hu⟩

/-- What `paging_map_page` does: the page of `v` gets the entry `e` if the frames suffice, and memory is
written only in tables. -/
structure MapsPage (s s' : Mmu) (v e : ℕ) : Prop where
  wf : WellFormed s'.root s'
  cr3 : s'.cr3 = s.cr3
  total : s'.pfa.totalFrames = s.pfa.totalFrames
  self : FramesSuffice s v → s'.pte v = some e
  fail : ¬ FramesSuffice s v → s'.pte v = s.pte v
  other : ∀ w, vpn w ≠ vpn v → s'.pte w = s.pte w
  walk : ∀ q t, q.length ≤ 3 → s.walk s.root q = some t → s'.walk s.root q = some t
  used : ∀ f, s.pfa.isUsed f = true → s'.pfa.isUsed f = true
  tables : FramesSuffice s v → ∀ g, s'.pfa.isUsed g = true → s.pfa.isUsed g = true ∨
    ∃ q, q.length ≤ 3 ∧ s'.walk s.root q = some g
  fresh : ∀ q t, q.length ≤ 3 → s'.walk s.root q = some t →
    s.walk s.root q = some t ∨ s.pfa.isUsed t = false
  frame : ∀ x, s.pfa.isUsed (x / 4096) = true →
    (∀ q, q.length ≤ 3 → s.walk s.root q ≠ some (x / 4096)) → s'.mem x = s.mem x

theorem pageEntry_spec (hp : phys < 2 ^ 64) (hf : flags < 2 ^ 64) :
    alignDown 4096 phys ||| flags ||| ptePresent < 2 ^ 64 ∧
    hasFlag (alignDown 4096 phys ||| flags ||| ptePresent) ptePresent = true ∧
    hasFlag (alignDown 4096 phys ||| flags ||| ptePresent) pteUser = hasFlag flags pteUser := by
  refine ⟨?_, ?_, ?_⟩
  · refine Nat.or_lt_two_pow (Nat.or_lt_two_pow ?_ hf) (by norm_num)
    exact lt_of_le_of_lt (alignDown_le _ _) hp
  · rw [hasFlag_or]
    exact Bool.or_true _
  · rw [hasFlag_or, hasFlag_or, alignDown, hasFlag_frame (by norm_num), Bool.false_or]
    exact Bool.or_false _

theorem Mmu.root_congr (h : s'.cr3 = s.cr3) : s'.root = s.root := by
  rw [Mmu.root, Mmu.root, h]

theorem Extends.pte {new : ℕ → Prop} (h : Extends s.root new s s') : s'.pte w = s.pte w := by
  rw [Mmu.pte, Mmu.root_congr h.cr3]
  exact h.leaf _ _ rfl

theorem EntrySet.pte {t : ℕ} (h : EntrySet s s' t (ptIdx v) e) (hw : WellFormed s.root s)
    (ht : s.walk s.root (tableIdx v) = some t) : s'.pte w =
      if vpn w = vpn v then (if hasFlag e ptePresent then some e else none) else s.pte w := by
  rw [Mmu.pte, Mmu.root_congr h.cr3, (leaf_writeLeaf h hw rfl ht).2 _ _ rfl]
  simp only [idx_eq_iff]
  rfl

theorem pagingMapPage_spec (hw : WellFormed s.root s) (hp : phys < 2 ^ 64) (hf : flags < 2 ^ 64) :
    MapsPage s (pagingMapPage s v phys flags) v (alignDown 4096 phys ||| flags ||| ptePresent) := by
  obtain ⟨he, he1, he2⟩ := pageEntry_spec hp hf
  obtain ⟨hext, hres⟩ := @getPteLoop_spec s.root flags (tableIdx v) [] s.root s hw rfl rfl
    fun _ => rfl
  rw [nil_append] at hres
  rw [pagingMapPage, getPte]
  rcases hl : getPteLoop s s.root true flags (tableIdx v) with ⟨_ | t, s₁⟩
  all_goals
    rw [hl] at hext hres
    dsimp only [map_none, map_some] at hext hres ⊢
  · -- a missing table could not be created
    refine ⟨?_, hext.cr3, hext.total, fun h => absurd h hres, fun _ => hext.pte,
      fun _ _ => hext.pte, hext.walk, hext.used, fun h => absurd h hres, hext.fresh,
      fun x hx => hext.frame x ?_⟩
    · rw [Mmu.root_congr hext.cr3]
      exact hext.wf
    · rw [hx]
      exact Bool.noConfusion
  obtain ⟨hcan, ht, hu, htab⟩ := hres
  have hset := (entrySet_setEntry (s := s₁) (t := t) (i := ptIdx v) he).mapped (add64 s₁.mappedPages 1)
  set s₂ : Mmu := { s₁.setEntry t (ptIdx v) (alignDown 4096 phys ||| flags ||| ptePresent) with
    mappedPages := add64 s₁.mappedPages 1 } with hs₂
  have hroot : s₁.root = s.root := Mmu.root_congr hext.cr3
  have hwf : WellFormed s₁.root s₁ := by rw [hroot]; exact hext.wf
  have hpte : ∀ w, s₂.pte w = if vpn w = vpn v then
      some (alignDown 4096 phys ||| flags ||| ptePresent) else s.pte w := by
    intro w
    rw [hset.pte hwf (by rw [hroot, ht]), if_pos he1, hext.pte]
  have hwalk := (leaf_writeLeaf hset hext.wf rfl ht).1
  refine ⟨?_, hset.cr3.trans hext.cr3, ?_, fun _ => ?_, fun h => absurd hcan h, fun w hw' => ?_,
    fun q u hq h => ?_, fun f h => ?_, fun _ g hg => ?_, fun q u hq h => ?_,
    fun x hx hnt => ?_⟩
  · rw [Mmu.root_congr hset.cr3, hroot]
    exact wellFormed_writeLeaf hset hext.wf rfl ht fun h => hu (by rwa [← he2])
  · rw [hset.pfa, hext.total]
  · rw [hpte, if_pos rfl]
  · rw [hpte, if_neg hw']
  · rw [hwalk q hq, hext.walk q u hq h]
  · exact hext.used f h
  · refine (htab g hg).imp_right ?_
    rintro ⟨q, hq, h⟩
    exact ⟨q, hq, by rw [hwalk q hq, h]⟩
  · exact hext.fresh q u hq (by rw [← hwalk q hq, h])
  · have hnew : ¬ s.pfa.isUsed (x / 4096) = false := by
      rw [hx]
      exact Bool.noConfusion
    rw [hset.mem x fun h => hext.not_table hnew hnt _ le_rfl (by rw [h]; exact ht)]
    exact hext.frame x hnew hnt

theorem Mmu.pte_of_vpn (h : vpn w = vpn v) : s.pte w = s.pte v := by
  obtain ⟨h1, h2⟩ := idx_eq_iff.mpr h
  rw [Mmu.pte, Mmu.pte, h1, h2]

/-- What `paging_unmap_page` does: the page of `v` is no longer mapped, and nothing else changes. -/
structure UnmapsPage (s s' : Mmu) (v : ℕ) : Prop where
  wf : WellFormed s'.root s'
  cr3 : s'.cr3 = s.cr3
  pfa : s'.pfa = s.pfa
  pte : ∀ w, s'.pte w = if vpn w = vpn v then none else s.pte w
  walk : ∀ q, q.length ≤ 3 → s'.walk s.root q = s.walk s.root q
  mem : ∀ x, (∀ q, q.length ≤ 3 → s.walk s.root q ≠ some (x / 4096)) → s'.mem x = s.mem x

theorem unmapsPage_refl (hw : WellFormed s.root s) (h : s.pte v = none) : UnmapsPage s s v := by
  refine ⟨hw, rfl, rfl, fun w => ?_, fun _ _ => rfl, fun _ _ => rfl⟩
  split_ifs with hv
  · rw [Mmu.pte_of_vpn hv, h]
  · rfl

theorem pagingUnmapPage_spec (hw : WellFormed s.root s) (v : ℕ) :
    UnmapsPage s (pagingUnmapPage s v) v := by
  rw [pagingUnmapPage, getPte_read]
  cases ht : s.walk s.root (tableIdx v) with
  | none =>
    refine unmapsPage_refl hw ?_
    rw [Mmu.pte, Mmu.leaf, ht, bind_none]
  | some t =>
    dsimp only [map_some]
    split_ifs with hp
    · have hset := (entrySet_setEntry (s := s) (t := t) (i := ptIdx v) (e := 0) (by norm_num)).mapped
        (sub64 s.mappedPages 1)
      refine ⟨?_, hset.cr3, hset.pfa, fun w => ?_, (leaf_writeLeaf hset hw rfl ht).1,
        fun x hx => hset.mem x fun h => hx _ le_rfl (by rw [h]; exact ht)⟩
      · exact wellFormed_writeLeaf hset hw rfl ht fun h => absurd h (by decide)
      · rw [hset.pte hw ht]
        rfl
    · refine unmapsPage_refl hw ?_
      rw [Mmu.pte, Mmu.leaf, ht, bind_some, if_neg hp]

/-! ## Refinement -/

/-- The queries of the code see the same at `w` in both states. -/
def SameView (s s' : Mmu) (w : ℕ) : Prop := s'.translate w = s.translate w ∧
    pagingGetPhysicalAddress s' w = pagingGetPhysicalAddress s w ∧
    pagingIsUserAccessible s' w = pagingIsUserAccessible s w

theorem sameView_of_pte (hw : WellFormed s.root s) (hw' : WellFormed s'.root s')
    (h : s'.pte w = s.pte w) : SameView s s' w := by
  have ht : s'.translate w = s.translate w := by rw [Mmu.translate, Mmu.translate, h]
  refine ⟨ht, ?_, ?_⟩
  · rw [pagingGetPhysicalAddress_eq, pagingGetPhysicalAddress_eq, ht]
  · rw [pagingIsUserAccessible_eq hw, pagingIsUserAccessible_eq hw', h]

/-- **Page tables refine a map.** `paging_map_page` makes the page of `v` translate to `p`, or changes no
page when the frames for its tables run out; `paging_unmap_page` takes the page away. No other page
changes. -/
theorem page_tables_refine_map {p : ℕ} (hw : WellFormed s.root s) (hv : Canonical v)
    (hp : p % 4096 = 0) (hp64 : p < 2 ^ 64)
    (hf : flags ||| (ptePresent ||| pteRw ||| pteUser) = ptePresent ||| pteRw ||| pteUser) :
    (WellFormed (pagingMapPage s v p flags).root (pagingMapPage s v p flags) ∧ (FramesSuffice s v →
        pagingGetPhysicalAddress (pagingMapPage s v p flags) v = p + v % 4096 ∧
        (pagingMapPage s v p flags).translate v = some (p + v % 4096) ∧
        pagingIsUserAccessible (pagingMapPage s v p flags) v = hasFlag flags pteUser) ∧
      (¬ FramesSuffice s v → ∀ w, Canonical w → SameView s (pagingMapPage s v p flags) w) ∧
      ∀ w, Canonical w → w / 4096 ≠ v / 4096 → SameView s (pagingMapPage s v p flags) w) ∧
    WellFormed (pagingUnmapPage s v).root (pagingUnmapPage s v) ∧
      (∀ w, Canonical w → w / 4096 = v / 4096 → (pagingUnmapPage s v).translate w = none ∧
        pagingGetPhysicalAddress (pagingUnmapPage s v) w = 0 ∧
        pagingIsUserAccessible (pagingUnmapPage s v) w = false) ∧
      ∀ w, Canonical w → w / 4096 ≠ v / 4096 → SameView s (pagingUnmapPage s v) w := by
  have hf8 : flags < 8 := lt_of_le_of_lt (Nat.left_le_or) (hf.trans_lt (by decide))
  have hm := pagingMapPage_spec (v := v) hw hp64 (show flags < 2 ^ 64 by omega)
  have hu := pagingUnmapPage_spec hw v
  refine ⟨⟨hm.wf, fun hs => ?_, fun hs w hcw => sameView_of_pte hw hm.wf ?_, fun w hcw hne =>
    sameView_of_pte hw hm.wf (hm.other w (by rwa [ne_eq, vpn_eq_iff hv hcw]))⟩, hu.wf,
    fun w hcw heq => ?_, fun w hcw hne => sameView_of_pte hw hu.wf ?_⟩
  · have htr : (pagingMapPage s v p flags).translate v = some (p + v % 4096) := by
      rw [Mmu.translate, hm.self hs, map_some, alignDown_of_mod hp, alignDown,
        or_div_page (by norm_num), or_div_page (by omega)]
      exact congrArg (fun x => some (x + v % 4096)) (Nat.div_mul_cancel (Nat.dvd_of_mod_eq_zero hp))
    refine ⟨?_, htr, ?_⟩
    · rw [pagingGetPhysicalAddress_eq, htr, getD_some]
    · rw [pagingIsUserAccessible_eq hm.wf, hm.self hs, any_some]
      exact (pageEntry_spec hp64 (by omega)).2.2
  · by_cases hvw : vpn w = vpn v
    · rw [Mmu.pte_of_vpn hvw, hm.fail hs, ← Mmu.pte_of_vpn hvw]
    · exact hm.other w hvw
  · have hnone : (pagingUnmapPage s v).pte w = none := by
      rw [hu.pte, if_pos ((vpn_eq_iff hv hcw).mpr heq)]
    have htr : (pagingUnmapPage s v).translate w = none := by rw [Mmu.translate, hnone]; rfl
    refine ⟨htr, ?_, ?_⟩
    · rw [pagingGetPhysicalAddress_eq, htr, getD_none]
    · rw [pagingIsUserAccessible_eq hu.wf, hnone, any_none]
  · rw [hu.pte, if_neg (by rwa [vpn_eq_iff hv hcw])]

end PageMap

theorem wellFormed_empty {r : ℕ} {s : Mmu} (hu : s.pfa.isUsed r = true)
    (h : ∀ j, s.entry r j = 0) : WellFormed r s := by
  have hwalk : ∀ q t, s.walk r q = some t → q = [] ∧ t = r := by
    intro q t hq
    cases q with
    | nil => exact ⟨rfl, (Option.some.inj hq).symm⟩
    | cons i q => simp [Radix.walk, h, hasFlag] at hq
  refine ⟨fun p q t _ _ hp hq => ?_, fun q t _ hq => ?_, fun q t i _ hq hp => ?_,
    fun q i e hq hl => ?_⟩
  · rw [(hwalk p t hp).1, (hwalk q t hq).1]
  · rw [(hwalk q t hq).2, hu]
  · rw [(hwalk q t hq).2, h] at hp
    exact absurd hp (by decide)
  · cases hq' : s.walk r q with
    | none => simp [Mmu.leaf, hq'] at hl
    | some t =>
      rw [(hwalk q t hq').1] at hq
      cases hq

/-- 64 frames, of which frame 0 and the empty root table in frame 1 are used. -/
def emptyTables : Mmu where
  pfa :=
    { totalFrames := 64
      usedFrames := 2
      frameBitmap := fun i => if i = 0 then 3#32 else 0#32
      frameBitmapSize := 3
      total_le := by norm_num
      size_eq := rfl }
  mem := fun _ => 0
  cr3 := 4096
  mappedPages := 0

theorem emptyTables_entry (j : Fin 512) : emptyTables.entry 1 j = 0 := by
  rw [Mmu.entry]
  exact Mem.readLE_of_zero fun _ _ => rfl

theorem wellFormed_emptyTables : WellFormed emptyTables.root emptyTables :=
  wellFormed_empty rfl emptyTables_entry

theorem framesSuffice_emptyTables (v : ℕ) : FramesSuffice emptyTables v := by
  rw [FramesSuffice, show emptyTables.root = 1 from rfl, missingTables_of_empty emptyTables_entry]
  change Pfa.CanTake 3 emptyTables.pfa
  decide +kernel

theorem page_tables_refine_map_empty :
    pagingGetPhysicalAddress (pagingMapPage emptyTables 0x400123 0x5000 7) 0x400123 = 0x5123 ∧
    pagingIsUserAccessible (pagingMapPage emptyTables 0x400123 0x5000 7) 0x400123 = true :=
  have h := (page_tables_refine_map wellFormed_emptyTables (.inl (by norm_num)) rfl (by norm_num)
    (by decide)).1.2.1 (framesSuffice_emptyTables 0x400123)
  ⟨h.1, h.2.2⟩

end KeonOS
