import Mathlib.Tactic

/-!
# Loops with a bound on their iterations

A loop whose end is not evident from its definition takes a bound and returns `none` when the bound
is reached first. `Ends f r`: the loop ends with `r`, whatever the bound, once that is large enough.
-/

def Ends {α : Type} (f : ℕ → Option α) (r : α) : Prop := ∃ N, ∀ k, N ≤ k → f k = some r

namespace Ends

variable {α : Type} {f : ℕ → Option α} {r r' : α}

theorem unique (h : Ends f r) (h' : Ends f r') : r = r' := by
  obtain ⟨N, hN⟩ := h
  obtain ⟨N', hN'⟩ := h'
  have h1 := hN (max N N') (le_max_left _ _)
  rw [hN' _ (le_max_right _ _)] at h1
  exact (Option.some.inj h1).symm

theorem of_eq (h : ∀ k, f k = some r) : Ends f r := ⟨0, fun k _ => h k⟩

theorem congr_succ {g : ℕ → Option α} (h : Ends g r) (heq : ∀ k, f (k + 1) = g (k + 1)) : Ends f r := by
  obtain ⟨N, hN⟩ := h
  refine ⟨N + 1, fun k hk => ?_⟩
  obtain ⟨k, rfl⟩ := Nat.exists_eq_add_of_le' (Nat.le_of_add_left_le hk)
  exact (heq k).trans (hN _ (Nat.le_of_succ_le hk))

theorem of_succ (h : ∀ k, f (k + 1) = some r) : Ends f r := congr_succ (of_eq fun _ => rfl) h

variable {β : Type} {g : ℕ → α → Option β} {b : β}

theorem bind (h : Ends f r) (hg : Ends (fun k => g k r) b) : Ends (fun k => (f k).bind (g k)) b := by
  obtain ⟨N, hN⟩ := h
  obtain ⟨M, hM⟩ := hg
  refine ⟨max N M, fun k hk => ?_⟩
  change (f k).bind (g k) = some b
  rw [hN k (le_trans (le_max_left _ _) hk)]
  exact hM k (le_trans (le_max_right _ _) hk)

theorem map (g : α → β) (h : Ends f r) : Ends (fun k => (f k).map g) (g r) := by
  obtain ⟨N, hN⟩ := h
  refine ⟨N, fun k hk => ?_⟩
  change (f k).map g = some (g r)
  rw [hN k hk]
  rfl

theorem exists_eq (h : Ends f r) : ∃ k, f k = some r := by
  obtain ⟨N, hN⟩ := h
  exact ⟨N, hN N le_rfl⟩

/-! ## Loops that follow a function -/

section Follow

-- An iteration ends the loop, or takes it to the next state, of which `π` is the part that `t` follows.
variable {σ τ : Type} (loop : ℕ → σ → Option α) (π : σ → τ) (t : τ → τ) (Q : τ → Prop)

theorem of_iterate (hstep : ∀ x, (∃ r, Ends (loop · x) r) ∨
      ¬Q (π x) ∧ ∃ y, π y = t (π x) ∧ ∀ k, loop (k + 1) x = loop k y) (n : ℕ) :
    ∀ x, Q (t^[n] (π x)) → ∃ r, Ends (loop · x) r := by
  induction n with
  | zero => exact fun x hQ => (hstep x).resolve_right fun h => h.1 hQ
  | succ n ih =>
    intro x hQ
    obtain hend | ⟨-, y, hy, hloop⟩ := hstep x
    · exact hend
    rw [Function.iterate_succ_apply, ← hy] at hQ
    obtain ⟨r, N, hN⟩ := ih y hQ
    refine ⟨r, N + 1, fun k hk => ?_⟩
    obtain ⟨k, rfl⟩ := Nat.exists_eq_add_of_le' (Nat.le_of_add_left_le hk)
    exact (hloop k).trans (hN k (Nat.le_of_succ_le_succ hk))

theorem iterate_of (hzero : ∀ x, loop 0 x = none) (hstep : ∀ x, Q (π x) ∨
      ∃ y, π y = t (π x) ∧ ∀ k, loop (k + 1) x = loop k y) (k : ℕ) :
    ∀ x, loop k x ≠ none → ∃ n, Q (t^[n] (π x)) := by
  induction k with
  | zero => exact fun x h => absurd (hzero x) h
  | succ k ih =>
    intro x h
    obtain hQ | ⟨y, hy, hloop⟩ := hstep x
    · exact ⟨0, hQ⟩
    rw [hloop] at h
    obtain ⟨n, hn⟩ := ih y h
    exact ⟨n + 1, by rwa [Function.iterate_succ_apply, ← hy]⟩

end Follow

end Ends
