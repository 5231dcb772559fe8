import Mathlib.Tactic

/-!
# Radix trees in a store

A store of tables: `g t i` is the entry of table `t` at index `i`. An entry is present or not, and a
present entry names a child table. A path of indices from a root leads through present entries to a
table (`walk`).

* **`walk_update`**: under `Spread`, changing one entry only concerns the paths through it;
* **`walk_link_self`**, `spread_link`: linking an empty table that is not in the tree adds one path.
-/

/-- How entries are read. -/
structure RadixFormat (T V : Type) where
  present : V → Bool
  child : V → T

namespace Radix

variable {T I V : Type} (F : RadixFormat T V)

/-- The table reached from `t` along a path. -/
def walk (g : T → I → V) : T → List I → Option T
  | t, [] => some t
  | t, i :: p => if F.present (g t i) = true then walk g (F.child (g t i)) p else none

variable {F} {g g' : T → I → V} {r t u : T} {i j : I} {p q : List I} {n : ℕ}

@[simp] theorem walk_nil : walk F g r ([] : List I) = some r := rfl

theorem walk_append : walk F g r (p ++ q) = (walk F g r p).bind fun t => walk F g t q := by
  induction p generalizing r with
  | nil => rfl
  | cons i p ih =>
    rw [List.cons_append, walk, walk]
    split_ifs
    · exact ih
    · rfl

theorem walk_snoc : walk F g r (p ++ [i]) =
    (walk F g r p).bind fun t => if F.present (g t i) = true then some (F.child (g t i)) else none := by
  rw [walk_append]
  rfl

/-- The tables on paths of length at most `n` are pairwise different. -/
def Spread (F : RadixFormat T V) (g : T → I → V) (r : T) (n : ℕ) : Prop :=
  ∀ p q t, p.length ≤ n → q.length ≤ n → walk F g r p = some t → walk F g r q = some t → p = q

theorem walk_congr (h : ∀ p t, p.length < n → walk F g r p = some t → ∀ i, g' t i = g t i) :
    ∀ q : List I, q.length ≤ n → walk F g' r q = walk F g r q := by
  intro q
  induction q using List.reverseRecOn with
  | nil => intro _; rfl
  | append_singleton q j ih =>
    intro hq
    rw [List.length_append, List.length_singleton] at hq
    rw [walk_snoc, walk_snoc, ih (by omega)]
    cases hw : walk F g r q with
    | none => rfl
    | some t => simp only [Option.bind_some, h q t (by omega) hw j]

theorem walk_update (hs : Spread F g r n) (hp : p.length ≤ n) (ht : walk F g r p = some t)
    (hg : ∀ u j, ¬ (u = t ∧ j = i) → g' u j = g u j) :
    ∀ q : List I, q.length ≤ n + 1 → ¬ p ++ [i] <+: q → walk F g' r q = walk F g r q := by
  intro q
  induction q using List.reverseRecOn with
  | nil => intro _ _; rfl
  | append_singleton q j ih =>
    intro hq hpre
    rw [List.length_append, List.length_singleton] at hq
    have hq' : ¬ p ++ [i] <+: q := fun h => hpre (h.trans (List.prefix_append _ _))
    rw [walk_snoc, walk_snoc, ih (by omega) hq']
    cases hw : walk F g r q with
    | none => rfl
    | some u =>
      simp only [Option.bind_some]
      rw [hg u j]
      rintro ⟨rfl, rfl⟩
      exact hpre (by rw [hs p q u hp (by omega) ht hw])

theorem walk_of_same_child (h : ∀ u j, F.present (g' u j) = F.present (g u j) ∧
    F.child (g' u j) = F.child (g u j)) (q : List I) : walk F g' r q = walk F g r q := by
  induction q generalizing r with
  | nil => rfl
  | cons j q ih => rw [walk, walk, (h r j).1, (h r j).2, ih]

theorem Spread.congr (hs : Spread F g r n) (h : ∀ q : List I, q.length ≤ n →
    walk F g' r q = walk F g r q) : Spread F g' r n := by
  intro p q t hp hq h1 h2
  rw [h p hp] at h1
  rw [h q hq] at h2
  exact hs p q t hp hq h1 h2

/-! ## Linking a new table -/

section Link

variable {c : T}

/-- `g'` is `g` with the absent entry `i` of table `t` made to lead to the empty table `c`. -/
structure Linked (F : RadixFormat T V) (g g' : T → I → V) (t : T) (i : I) (c : T) : Prop where
  other : ∀ u j, ¬ (u = t ∧ j = i) → g' u j = g u j
  absent : F.present (g t i) = false
  present : F.present (g' t i) = true
  child : F.child (g' t i) = c
  empty : ∀ j, F.present (g' c j) = false

theorem walk_link_self (hl : Linked F g g' t i c) (hs : Spread F g r n) (hp : p.length ≤ n)
    (ht : walk F g r p = some t) : walk F g' r (p ++ [i]) = some c := by
  have hp' : walk F g' r p = some t := by
    rw [← ht]
    refine walk_update hs hp ht hl.other p (by omega) fun h => ?_
    have := h.length_le
    simp at this
  rw [walk_snoc, hp']
  simp [hl.present, hl.child]

theorem walk_link_beyond (hl : Linked F g g' t i c) (hs : Spread F g r n) (hp : p.length ≤ n)
    (ht : walk F g r p = some t) : walk F g' r (p ++ [i] ++ j :: q) = none := by
  rw [walk_append, walk_link_self hl hs hp ht]
  simp [walk, hl.empty]

theorem walk_absent (ht : walk F g r p = some t) (ha : F.present (g t i) = false) :
    walk F g r (p ++ [i] ++ q) = none := by
  rw [List.append_assoc, walk_append, ht]
  simp [walk, ha]

theorem walk_link [DecidableEq I] (hl : Linked F g g' t i c) (hs : Spread F g r n) (hp : p.length ≤ n)
    (ht : walk F g r p = some t) (hq : q.length ≤ n + 1) :
    walk F g' r q = if q = p ++ [i] then some c else walk F g r q := by
  split_ifs with he
  · rw [he]
    exact walk_link_self hl hs hp ht
  by_cases hpre : p ++ [i] <+: q
  · obtain ⟨w, rfl⟩ := hpre
    rw [walk_absent ht hl.absent]
    cases w with
    | nil => simp at he
    | cons j w => exact walk_link_beyond hl hs hp ht
  · exact walk_update hs hp ht hl.other q hq hpre

theorem spread_link [DecidableEq I] (hl : Linked F g g' t i c) (hs : Spread F g r n) (hp : p.length < n)
    (ht : walk F g r p = some t) (hc : ∀ q : List I, q.length ≤ n → walk F g r q ≠ some c) :
    Spread F g' r n := by
  intro q q' u hq hq' h1 h2
  rw [walk_link hl hs hp.le ht (by omega)] at h1 h2
  split_ifs at h1 h2 with e1 e2 e2
  · rw [e1, e2]
  · cases h1
    exact absurd h2 (hc q' hq')
  · cases h2
    exact absurd h1 (hc q hq)
  · exact hs q q' u hq hq' h1 h2

end Link

end Radix
