import KeonOS.Mm.Virt

/-!
# Memory out of reach

While a loader works, some pages `W` of the lower half are its to write, and some frames `K` in use
are not to be touched: the kernel's, and those of pages outside `W`.

* **`Guard.allocMap`**, **`Guard.storeBytes`**: the operations of the loaders are such changes.
-/

namespace KeonOS

open Word

/-- The frame `g` is in use and holds no page table. -/
def DataFrame (s : Mmu) (g : ℕ) : Prop :=
  s.pfa.isUsed g = true ∧ ∀ q, q.length ≤ 3 → s.walk s.root q ≠ some g

/-- The pages in `W` lead to data frames outside `K`. -/
structure Guard (W K : ℕ → Prop) (s : Mmu) : Prop where
  wf : WellFormed s.root s
  lower : ∀ p, W p → p < 2 ^ 35
  page : ∀ p e, W p → s.pte (4096 * p) = some e → DataFrame s (e / 4096) ∧ ¬ K (e / 4096)
  kept : ∀ g, K g → DataFrame s g

/-- The pages in `W` became those in `W'`; the frames of `K` and the other mappings stayed. -/
structure Confines (K W : ℕ → Prop) (s : Mmu) (W' : ℕ → Prop) (s' : Mmu) : Prop where
  guard : Guard W' K s'
  sub : ∀ p, W p → W' p
  pte : ∀ w, Canonical w → ¬ W' (w / 4096) → s'.pte w = s.pte w
  mem : ∀ x, K (x / 4096) → s'.mem x = s.mem x

section

variable {K W W' W'' : ℕ → Prop} {s s' s'' : Mmu} {a v f : ℕ}

theorem Confines.refl (h : Guard W K s) : Confines K W s W s :=
  ⟨h, fun _ hp => hp, fun _ _ _ => rfl, fun _ _ => rfl⟩

theorem Confines.trans (h : Confines K W s W' s') (h' : Confines K W' s' W'' s'') :
    Confines K W s W'' s'' where
  guard := h'.guard
  sub p hp := h'.sub p (h.sub p hp)
  pte w hc hw := (h'.pte w hc hw).trans (h.pte w hc fun hw' => hw (h'.sub _ hw'))
  mem x hx := (h'.mem x hx).trans (h.mem x hx)

theorem DataFrame.of_fresh {g : ℕ} (h : DataFrame s g) (hc : s'.cr3 = s.cr3)
    (hu : ∀ f, s.pfa.isUsed f = true → s'.pfa.isUsed f = true)
    (hf : ∀ q t, q.length ≤ 3 → s'.walk s.root q = some t →
      s.walk s.root q = some t ∨ s.pfa.isUsed t = false) : DataFrame s' g := by
  refine ⟨hu g h.1, fun q hq ht => ?_⟩
  rw [Mmu.root_congr hc] at ht
  rcases hf q g hq ht with ht | hfree
  · exact h.2 q hq ht
  · rw [h.1] at hfree
    exact Bool.noConfusion hfree

theorem Guard.extends (h : Guard W K s)
    (he : Extends s.root (fun f => s.pfa.isUsed f = false) s s') : Confines K W s W s' := by
  have hd : ∀ g, DataFrame s g → DataFrame s' g := fun g hg => hg.of_fresh he.cr3 he.used he.fresh
  refine ⟨⟨?_, h.lower, fun p e hp hpe => ?_, fun g hg => hd g (h.kept g hg)⟩, fun _ hp => hp,
    fun w _ _ => he.pte, fun x hx => ?_⟩
  · rw [Mmu.root_congr he.cr3]
    exact he.wf
  · rw [he.pte] at hpe
    exact (h.page p e hp hpe).imp_left (hd _)
  · obtain ⟨hu, hnt⟩ := h.kept _ hx
    refine he.frame x ?_ hnt
    rw [hu]
    exact Bool.noConfusion

theorem MapsFresh.dataFrame {flags : ℕ} (hm : MapsFresh s s' v f flags)
    (hw : WellFormed s.root s) : DataFrame s' f := by
  refine ⟨hm.taken, fun q hq ht => ?_⟩
  rw [Mmu.root_congr hm.cr3] at ht
  rcases hm.fresh q f hq ht with ht | ⟨-, hne⟩
  · exact hw.not_table hm.free q hq ht
  · exact hne rfl

theorem Guard.mapsFresh (h : Guard W K s) (hm : MapsFresh s s' v f userFlags) (hv : v < 2 ^ 47) :
    Confines K W s (fun p => W p ∨ p = v / 4096) s' := by
  have hd : ∀ g, DataFrame s g → DataFrame s' g := fun g hg =>
    hg.of_fresh hm.cr3 hm.used fun q t hq ht => (hm.fresh q t hq ht).imp_right And.left
  have hself : DataFrame s' f ∧ ¬ K f := by
    refine ⟨hm.dataFrame h.wf, fun hk => ?_⟩
    have hu := (h.kept f hk).1
    rw [hm.free] at hu
    exact Bool.noConfusion hu
  have hvpn : ∀ p, p < 2 ^ 35 → (vpn (4096 * p) = vpn v ↔ p = v / 4096) := by
    intro p hp
    rw [vpn_eq_iff (.inl hv) (.inl (by omega))]
    omega
  have hlow : ∀ p, W p ∨ p = v / 4096 → p < 2 ^ 35 := by
    rintro p (hp | rfl)
    · exact h.lower p hp
    · omega
  refine ⟨⟨hm.wf, hlow, fun p e hp hpe => ?_, fun g hg => hd g (h.kept g hg)⟩,
    fun _ hp => .inl hp, fun w hc hw => ?_, fun x hx => ?_⟩
  · by_cases hpv : p = v / 4096
    · rw [Mmu.pte_of_vpn ((hvpn p (hlow p hp)).2 hpv), hm.self] at hpe
      cases hpe
      rwa [or_div_page (by decide), or_div_page (by decide), Nat.mul_div_cancel _ (by norm_num)]
    · rw [hm.other _ fun he => hpv ((hvpn p (hlow p hp)).1 he)] at hpe
      exact (h.page p e (hp.resolve_right hpv) hpe).imp_left (hd _)
  · refine hm.other w fun he => hw (.inr ?_)
    exact (vpn_eq_iff (.inl hv) hc).1 he
  · obtain ⟨hu, hnt⟩ := h.kept _ hx
    exact hm.frame x hu hnt

theorem Guard.allocMap {s₁ : Mmu} {phys : ℕ} (h : Guard W K s) (hv : v < 2 ^ 47)
    (halloc : pfaAllocFrame s = (phys, s₁)) (h0 : phys ≠ 0) :
    ∃ W', Confines K W s W' (pagingMapPage s₁ v phys userFlags) ∧
      (W' (v / 4096) ∨ (pagingMapPage s₁ v phys userFlags).pte v = none) := by
  rcases allocMap_cases v h.wf (show userFlags < 4096 by decide) halloc h0 with ⟨f, hm⟩ | ⟨hn, he⟩
  · exact ⟨_, h.mapsFresh hm hv, .inl (.inr rfl)⟩
  · exact ⟨W, h.extends he, .inr hn⟩

theorem Guard.allocFail {s₁ : Mmu} (h : Guard W K s) (halloc : pfaAllocFrame s = (0, s₁)) :
    Confines K W s W s₁ := by
  have hcan : ¬ Pfa.CanTake 1 s.pfa := by
    rintro ⟨f, pfa, ht, hf0, -⟩
    obtain ⟨s', halloc', -, -⟩ := frameZeroed_alloc ht
    rw [halloc, Prod.mk.injEq] at halloc'
    omega
  obtain ⟨-, he⟩ := pfaAllocFrame_fail h.wf hcan
  rw [halloc] at he
  exact h.extends he

theorem DataFrame.sameTables {g : ℕ} (h : DataFrame s g) (hs : SameTables s s') :
    DataFrame s' g := by
  refine ⟨by rw [hs.pfa, h.1], fun q hq => ?_⟩
  rw [Mmu.root_congr hs.cr3, hs.walk q hq]
  exact h.2 q hq

theorem Guard.sameTables (h : Guard W K s) (hs : SameTables s s')
    (hm : ∀ x, K (x / 4096) → s'.mem x = s.mem x) : Confines K W s W s' := by
  refine ⟨⟨hs.wf h.wf, h.lower, fun p e hp hpe => ?_, fun g hg => (h.kept g hg).sameTables hs⟩,
    fun _ hp => hp, fun w _ _ => hs.pte w, hm⟩
  rw [hs.pte] at hpe
  exact (h.page p e hp hpe).imp_left fun hd => hd.sameTables hs

theorem writeVirt_dataFrame {e : ℕ} (b : UInt8) (hc : Canonical a) (hp : s.pte a = some e)
    (hd : DataFrame s (e / 4096)) :
    ∃ s', s.writeVirt a b = some s' ∧ SameTables s s' ∧
      ∀ x, x / 4096 ≠ e / 4096 → s'.mem x = s.mem x := by
  have hx : (alignDown 4096 e + a % 4096) / 4096 = e / 4096 := by
    rw [alignDown]
    omega
  refine ⟨{ s with mem := Function.update s.mem (alignDown 4096 e + a % 4096) b }, ?_,
    ⟨rfl, rfl, fun q x hq ht => Function.update_of_ne ?_ _ _⟩, fun x hne => Function.update_of_ne ?_ _ _⟩
  · rw [Mmu.writeVirt, Mmu.access, if_pos hc, Mmu.translate, hp, Option.map_some, Option.map_some]
  · rintro rfl
    rw [hx] at ht
    exact hd.2 q hq ht
  · rintro rfl
    exact hne hx

theorem storeBytes_dataFrame {e n : ℕ} (byte : ℕ → UInt8) (hn : n ≤ 4096) (hv : v % 4096 = 0)
    (hc : Canonical v) (hp : s.pte v = some e) (hd : DataFrame s (e / 4096)) :
    ∃ s', s.storeBytes byte v n = some s' ∧ SameTables s s' := by
  induction n with
  | zero => exact ⟨s, rfl, .refl s⟩
  | succ n ih =>
    obtain ⟨s₁, hs₁, hst₁⟩ := ih (by omega)
    unfold Canonical at hc
    have hvn : vpn (v + n) = vpn v := by
      unfold vpn
      omega
    have hcn : Canonical (v + n) := by
      unfold Canonical
      omega
    obtain ⟨s₂, hs₂, hst₂, -⟩ := writeVirt_dataFrame (byte n) hcn
      (by rw [hst₁.pte, Mmu.pte_of_vpn hvn, hp]) (hd.sameTables hst₁)
    refine ⟨s₂, ?_, hst₁.trans hst₂⟩
    rw [Mmu.storeBytes, hs₁, Option.bind_some, add64_of_lt (by omega), hs₂]

theorem Guard.writeVirt {b : UInt8} (h : Guard W K s) (ha : a < 2 ^ 47) (hw : W (a / 4096))
    (hs : s.writeVirt a b = some s') : Confines K W s W s' := by
  have hc : Canonical a := .inl ha
  have hvpn : vpn a = vpn (4096 * (a / 4096)) := by
    unfold vpn
    omega
  cases hpe : s.pte a with
  | none =>
    rw [Mmu.writeVirt, Mmu.access, if_pos hc, Mmu.translate, hpe] at hs
    cases hs
  | some e =>
    obtain ⟨hd, hk⟩ := h.page _ e hw (by rw [← Mmu.pte_of_vpn hvpn, hpe])
    obtain ⟨s₁, hs₁, hst, hmem⟩ := writeVirt_dataFrame b hc hpe hd
    rw [hs, Option.some.injEq] at hs₁
    subst hs₁
    refine h.sameTables hst fun x hx => hmem x ?_
    rintro he
    rw [he] at hx
    exact hk hx

theorem Guard.storeBytes (byte : ℕ → UInt8) : ∀ {n : ℕ} {s' : Mmu}, Guard W K s →
    (n = 0 ∨ a + n ≤ 2 ^ 47) → (∀ k < n, W ((a + k) / 4096)) →
    s.storeBytes byte a n = some s' → Confines K W s W s'
  | 0, _, h, _, _, hs => by
    cases hs
    exact .refl h
  | n + 1, s', h, hle, hw, hs => by
    rw [Mmu.storeBytes] at hs
    cases hs₁ : s.storeBytes byte a n with
    | none =>
      rw [hs₁] at hs
      cases hs
    | some s₁ =>
      rw [hs₁, Option.bind_some, add64_of_lt (by omega)] at hs
      have h₁ := Guard.storeBytes byte h (by omega) (fun k hk => hw k (by omega)) hs₁
      exact h₁.trans (h₁.guard.writeVirt (by omega) (hw n (by omega)) hs)

end

end KeonOS
