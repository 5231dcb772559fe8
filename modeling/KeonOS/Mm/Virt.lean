import KeonOS.Mm.Fresh

/-!
# Accesses through the page tables

Kernel code that writes to a virtual address reaches physical memory through the current page
tables; without a translation it faults.

* **`Owns.mapFresh`**, **`Owns.storeBytes`**: what a fresh page and a run of stores do to the contents;
* `Grows`: what they do to the frames, over any number of steps.
-/

namespace KeonOS

open Word Function Option

instance : DecidablePred Canonical := fun _ => inferInstanceAs (Decidable (_ ∨ _))

abbrev userFlags : ℕ := ptePresent ||| pteRw ||| pteUser

namespace Mmu

/-- The physical address an access to `a` reaches; a fault if there is none. -/
def access (s : Mmu) (a : ℕ) : Option ℕ := if Canonical a then s.translate a else none

def readVirt (s : Mmu) (a : ℕ) : Option UInt8 := (s.access a).map s.mem

def writeVirt (s : Mmu) (a : ℕ) (b : UInt8) : Option Mmu :=
  (s.access a).map fun p => { s with mem := Function.update s.mem p b }

/-- Store `byte 0`, …, `byte (n - 1)` from `a` on, in this order. -/
def storeBytes (byte : ℕ → UInt8) (a : ℕ) : ℕ → Mmu → Option Mmu
  | 0, s => some s
  | n + 1, s => (storeBytes byte a n s).bind fun s => s.writeVirt (add64 a n) (byte n)

/-- The little-endian number of `n` bytes at `a`. -/
def readVirtLE (s : Mmu) : ℕ → ℕ → Option ℕ
  | _, 0 => some 0
  | a, n + 1 =>
    (s.readVirt a).bind fun b => (readVirtLE s (add64 a 1) n).map fun r => b.toNat + 256 * r

end Mmu

/-! ## Memory outside the tables -/

section Tables

variable {s s' : Mmu}

/-- `s'` differs from `s` only in memory outside the page tables. -/
structure SameTables (s s' : Mmu) : Prop where
  pfa : s'.pfa = s.pfa
  cr3 : s'.cr3 = s.cr3
  mem : ∀ q x, q.length ≤ 3 → s.walk s.root q = some (x / 4096) → s'.mem x = s.mem x

theorem SameTables.refl (s : Mmu) : SameTables s s := ⟨rfl, rfl, fun _ _ _ _ => rfl⟩

theorem SameTables.keepsTree (h : SameTables s s') : KeepsTree s.root s s' :=
  ⟨h.mem, fun g hg => by rwa [h.pfa]⟩

theorem SameTables.walk (h : SameTables s s') :
    ∀ q, q.length ≤ 3 → s'.walk s.root q = s.walk s.root q := h.keepsTree.walk

theorem SameTables.trans {s'' : Mmu} (h : SameTables s s') (h' : SameTables s' s'') :
    SameTables s s'' where
  pfa := h'.pfa.trans h.pfa
  cr3 := h'.cr3.trans h.cr3
  mem q x hq hx := (h'.mem q x hq (by rw [Mmu.root_congr h.cr3, h.walk q hq, hx])).trans
    (h.mem q x hq hx)

theorem SameTables.pte (h : SameTables s s') (w : ℕ) : s'.pte w = s.pte w := by
  rw [Mmu.pte, Mmu.root_congr h.cr3]
  exact h.keepsTree.leaf rfl _

theorem SameTables.wf (h : SameTables s s') (hw : WellFormed s.root s) : WellFormed s'.root s' := by
  rw [Mmu.root_congr h.cr3]
  exact h.keepsTree.wf hw

end Tables

/-! ## Owned pages -/

/-- The pages in `own`, by number, are mapped for users to frames of their own. -/
structure Owns (s : Mmu) (own : ℕ → Option ℕ) : Prop where
  wf : WellFormed s.root s
  lower : ∀ p f, own p = some f → p < 2 ^ 35
  mapped : ∀ p f, own p = some f → s.pte (4096 * p) = some (f * 4096 ||| userFlags ||| ptePresent)
  used : ∀ p f, own p = some f → s.pfa.isUsed f = true
  frame : ∀ p f, own p = some f → f ≠ 0 ∧ f < s.pfa.totalFrames
  notTable : ∀ p f, own p = some f → ∀ q, q.length ≤ 3 → s.walk s.root q ≠ some f
  inj : ∀ p p' f, own p = some f → own p' = some f → p = p'

def ownByte (s : Mmu) (own : ℕ → Option ℕ) (a : ℕ) : Option UInt8 :=
  (own (a / 4096)).map fun f => s.mem (4096 * f + a % 4096)

namespace Owns

variable {s s' : Mmu} {own : ℕ → Option ℕ} {a f v : ℕ}

theorem empty (hw : WellFormed s.root s) : Owns s fun _ => none :=
  ⟨hw, by simp, by simp, by simp, by simp, by simp, by simp⟩

theorem access (h : Owns s own) (hf : own (a / 4096) = some f) :
    s.access a = some (4096 * f + a % 4096) := by
  have hp := h.lower _ f hf
  have hv : vpn a = vpn (4096 * (a / 4096)) := by
    unfold vpn
    omega
  have hc : Canonical a := .inl (by omega)
  rw [Mmu.access, if_pos hc, Mmu.translate, Mmu.pte_of_vpn hv, h.mapped _ f hf,
    map_some, alignDown, or_div_page (by decide), or_div_page (by decide),
    Nat.mul_div_cancel _ (by norm_num), Nat.mul_comm]

theorem readVirt (h : Owns s own) (hf : own (a / 4096) = some f) : s.readVirt a = ownByte s own a := by
  rw [Mmu.readVirt, h.access hf, ownByte, hf, map_some, map_some]

theorem accessible (h : Owns s own) (hf : own (a / 4096) = some f) :
    pagingIsUserAccessible s a = true := by
  have hv : vpn a = vpn (4096 * (a / 4096)) := by
    unfold vpn
    omega
  rw [pagingIsUserAccessible_eq h.wf, Mmu.pte_of_vpn hv, h.mapped _ f hf, any_some]
  simp only [hasFlag_or, show hasFlag pteUser pteUser = true from rfl, Bool.or_true, Bool.true_or]

theorem sameTables (h : Owns s own) (hs : SameTables s s') : Owns s' own where
  wf := hs.wf h.wf
  lower := h.lower
  mapped p f hf := by rw [hs.pte, h.mapped p f hf]
  used p f hf := by rw [hs.pfa, h.used p f hf]
  frame p f hf := by rw [hs.pfa]; exact h.frame p f hf
  notTable p f hf q hq := by
    rw [Mmu.root_congr hs.cr3, hs.walk q hq]
    exact h.notTable p f hf q hq
  inj := h.inj

theorem mapFresh (h : Owns s own) (hm : MapsFresh s s' v f userFlags) (hv : v < 2 ^ 47) :
    Owns s' (Function.update own (v / 4096) (some f)) ∧
      ∀ a, ownByte s' (Function.update own (v / 4096) (some f)) a =
        if a / 4096 = v / 4096 then some 0 else ownByte s own a := by
  have hroot : s'.root = s.root := Mmu.root_congr hm.cr3
  -- `f` was free, so it is none of the frames owned before
  have hne : ∀ p g, own p = some g → g ≠ f := by
    rintro p g hg rfl
    have hfree := hm.free
    rw [h.used p g hg] at hfree
    exact Bool.noConfusion hfree
  have hnt : ∀ p g, own p = some g → ∀ q, q.length ≤ 3 → s'.walk s'.root q ≠ some g := by
    intro p g hg q hq ht
    rw [hroot] at ht
    rcases hm.fresh q g hq ht with h1 | ⟨h1, -⟩
    · exact h.notTable p g hg q hq h1
    · rw [h.used p g hg] at h1
      exact Bool.noConfusion h1
  have hself : ∀ q, q.length ≤ 3 → s'.walk s'.root q ≠ some f := by
    intro q hq ht
    rw [hroot] at ht
    rcases hm.fresh q f hq ht with h1 | ⟨-, h1⟩
    · exact h.wf.not_table hm.free q hq h1
    · exact h1 rfl
  have hcases : ∀ p g, Function.update own (v / 4096) (some f) p = some g →
      p = v / 4096 ∧ g = f ∨ p ≠ v / 4096 ∧ own p = some g := by
    intro p g hg
    rw [update_apply] at hg
    split_ifs at hg with hp
    · exact .inl ⟨hp, (Option.some.inj hg).symm⟩
    · exact .inr ⟨hp, hg⟩
  refine ⟨⟨hm.wf, fun p g hg => ?_, fun p g hg => ?_, fun p g hg => ?_, fun p g hg => ?_,
    fun p g hg => ?_, fun p p' g hg hg' => ?_⟩, fun a => ?_⟩
  · rcases hcases p g hg with ⟨rfl, -⟩ | ⟨-, hg⟩
    · omega
    · exact h.lower p g hg
  · rcases hcases p g hg with ⟨rfl, rfl⟩ | ⟨hp, hg⟩
    · rw [← hm.self]
      refine Mmu.pte_of_vpn ?_
      unfold vpn
      omega
    · have hlt := h.lower p g hg
      rw [hm.other, h.mapped p g hg]
      unfold vpn
      omega
  · rcases hcases p g hg with ⟨-, rfl⟩ | ⟨-, hg⟩
    · exact hm.taken
    · exact hm.used g (h.used p g hg)
  · rw [hm.total]
    rcases hcases p g hg with ⟨-, rfl⟩ | ⟨-, hg⟩
    · exact ⟨hm.ne_zero, hm.lt⟩
    · exact h.frame p g hg
  · rcases hcases p g hg with ⟨-, rfl⟩ | ⟨-, hg⟩
    · exact hself
    · exact hnt p g hg
  · rcases hcases p g hg with ⟨hp, hg1⟩ | ⟨-, hg1⟩ <;>
      rcases hcases p' g hg' with ⟨hp', hg2⟩ | ⟨-, hg2⟩
    · rw [hp, hp']
    · exact absurd hg1 (hne p' g hg2)
    · exact absurd hg2 (hne p g hg1)
    · exact h.inj p p' g hg1 hg2
  · rw [ownByte, update_apply]
    split_ifs with ha
    · rw [map_some, hm.zero _ (by omega)]
    rw [ownByte]
    cases hg : own (a / 4096) with
    | none => rfl
    | some g =>
      have hx : (4096 * g + a % 4096) / 4096 = g := by omega
      rw [map_some, map_some, hm.frame _ (by rw [hx, h.used _ g hg])
        (by rw [hx]; exact h.notTable _ g hg)]

theorem writeVirt (h : Owns s own) (hf : own (a / 4096) = some f) (b : UInt8) :
    ∃ s', s.writeVirt a b = some s' ∧ Owns s' own ∧ SameTables s s' ∧
      ∀ x, ownByte s' own x = if x = a then some b else ownByte s own x := by
  have hst : SameTables s { s with mem := Function.update s.mem (4096 * f + a % 4096) b } := by
    refine ⟨rfl, rfl, fun q x hq ht => ?_⟩
    refine update_of_ne ?_ _ _
    rintro rfl
    exact h.notTable _ f hf q hq (by rw [ht]; congr 1; omega)
  refine ⟨_, by rw [Mmu.writeVirt, h.access hf, map_some], h.sameTables hst, hst,
    fun x => ?_⟩
  rw [ownByte]
  dsimp only
  split_ifs with hx
  · rw [hx, hf, map_some, update_self]
  rw [ownByte]
  cases hg : own (x / 4096) with
  | none => rfl
  | some g =>
    rw [map_some, map_some, update_of_ne]
    intro hphys
    obtain rfl : g = f := by omega
    have := h.inj _ _ g hg hf
    omega

theorem storeBytes (byte : ℕ → UInt8) : ∀ {n : ℕ}, Owns s own → a + n ≤ 2 ^ 47 →
    (∀ k < n, ∃ f, own ((a + k) / 4096) = some f) →
    ∃ s', s.storeBytes byte a n = some s' ∧ Owns s' own ∧ SameTables s s' ∧
      ∀ x, ownByte s' own x = if a ≤ x ∧ x < a + n then some (byte (x - a)) else ownByte s own x
  | 0, h, _, _ => ⟨s, rfl, h, .refl s, fun x => by rw [if_neg (by omega)]⟩
  | n + 1, h, hle, hown => by
    obtain ⟨s₁, hs₁, h₁, hp₁, hb₁⟩ := storeBytes byte (n := n) h (by omega)
      fun k hk => hown k (by omega)
    obtain ⟨f, hf⟩ := hown n (by omega)
    obtain ⟨s₂, hs₂, h₂, hp₂, hb₂⟩ := h₁.writeVirt hf (byte n)
    refine ⟨s₂, ?_, h₂, hp₁.trans hp₂, fun x => ?_⟩
    · rw [Mmu.storeBytes, hs₁, bind_some, add64_of_lt (by omega), hs₂]
    rw [hb₂, hb₁]
    by_cases hx : x = a + n
    · rw [if_pos hx, if_pos (by omega), hx, Nat.add_sub_cancel_left]
    · rw [if_neg hx]
      by_cases hx' : a ≤ x ∧ x < a + n
      · rw [if_pos hx', if_pos (by omega)]
      · rw [if_neg hx', if_neg (by omega)]

end Owns

/-! ## Growing -/

/-- The pages of `own` stayed and became those of `own'`, the new ones on frames that were free. -/
structure Grows (s : Mmu) (own : ℕ → Option ℕ) (s' : Mmu) (own' : ℕ → Option ℕ) : Prop where
  owns : Owns s' own'
  cr3 : s'.cr3 = s.cr3
  total : s'.pfa.totalFrames = s.pfa.totalFrames
  used : ∀ g, s.pfa.isUsed g = true → s'.pfa.isUsed g = true
  walk : ∀ q t, q.length ≤ 3 → s.walk s.root q = some t → s'.walk s'.root q = some t
  keep : ∀ p g, own p = some g → own' p = some g
  fresh : ∀ p g, own' p = some g → own p = some g ∨ s.pfa.isUsed g = false
  tables : ∀ g, s'.pfa.isUsed g = true → s.pfa.isUsed g = true ∨ (∃ p, own' p = some g) ∨
    ∃ q, q.length ≤ 3 ∧ s'.walk s'.root q = some g
  other : ∀ w, Canonical w → own' (w / 4096) = none → s'.pte w = s.pte w

namespace Grows

variable {s s' s'' : Mmu} {own own' own'' : ℕ → Option ℕ} {v f : ℕ}

theorem of_sameTables (h : Owns s own) (hs : SameTables s s') : Grows s own s' own where
  owns := h.sameTables hs
  cr3 := hs.cr3
  total := by rw [hs.pfa]
  used g hg := by rw [hs.pfa, hg]
  walk q t hq ht := by rw [Mmu.root_congr hs.cr3, hs.walk q hq, ht]
  keep _ _ hg := hg
  fresh _ _ hg := .inl hg
  tables g hg := .inl (by rw [← hs.pfa, hg])
  other w _ _ := hs.pte w

theorem refl (h : Owns s own) : Grows s own s own := of_sameTables h (.refl s)

theorem trans (h : Grows s own s' own') (h' : Grows s' own' s'' own'') : Grows s own s'' own'' where
  owns := h'.owns
  cr3 := h'.cr3.trans h.cr3
  total := h'.total.trans h.total
  used g hg := h'.used g (h.used g hg)
  walk q t hq ht := h'.walk q t hq (h.walk q t hq ht)
  keep p g hg := h'.keep p g (h.keep p g hg)
  fresh p g hg := by
    rcases h'.fresh p g hg with hg | hg
    · exact h.fresh p g hg
    · refine .inr (Bool.eq_false_of_not_eq_true fun hu => ?_)
      rw [h.used g hu] at hg
      exact Bool.noConfusion hg
  tables g hg := by
    rcases h'.tables g hg with hg | hg
    · rcases h.tables g hg with hg | ⟨p, hg⟩ | ⟨q, hq, hg⟩
      · exact .inl hg
      · exact .inr (.inl ⟨p, h'.keep p g hg⟩)
      · exact .inr (.inr ⟨q, hq, h'.walk q g hq hg⟩)
    · exact .inr hg
  other w hc hw := by
    rw [h'.other w hc hw]
    refine h.other w hc ?_
    cases ho : own' (w / 4096) with
    | none => rfl
    | some g =>
      rw [h'.keep _ g ho] at hw
      cases hw

theorem of_mapsFresh (h : Owns s own) (hm : MapsFresh s s' v f userFlags) (hv : v < 2 ^ 47)
    (hown : own (v / 4096) = none) :
    Grows s own s' (Function.update own (v / 4096) (some f)) where
  owns := (h.mapFresh hm hv).1
  cr3 := hm.cr3
  total := hm.total
  used := hm.used
  walk q t hq ht := by
    rw [Mmu.root_congr hm.cr3]
    exact hm.walk q t hq ht
  keep p g hg := by
    rw [update_of_ne, hg]
    rintro rfl
    rw [hown] at hg
    cases hg
  fresh p g hg := by
    rw [update_apply] at hg
    split_ifs at hg
    · cases hg
      exact .inr hm.free
    · exact .inl hg
  tables g hg := by
    rw [Mmu.root_congr hm.cr3]
    rcases hm.tables g hg with hg | rfl | hg
    · exact .inl hg
    · exact .inr (.inl ⟨v / 4096, update_self ..⟩)
    · exact .inr (.inr hg)
  other w hc hw := by
    refine hm.other w fun hvw => ?_
    rw [vpn_eq_iff (.inl hv) hc] at hvw
    rw [hvw, update_self] at hw
    cases hw

end Grows

end KeonOS
