import Mathlib.Tactic

/-!
# Loops as orbits

A loop goes on from a state to the next one until there is none.

* **`halts_iff`**: among finitely many states, it ends exactly if it comes back to none of them;
* **`loop_ne_none_iff`**: a loop with a bound on its iterations;
* `mem_loop_iff`, **`forall_mem_loop_iff`**: what a loop collects on its way.
-/

/-- The state after `n` iterations; none when the loop has ended before. -/
def orbit {α : Type} (f : α → Option α) (a : α) : ℕ → Option α
  | 0 => some a
  | n + 1 => (orbit f a n).bind f

def Halts {α : Type} (f : α → Option α) (a : α) : Prop := ∃ n, orbit f a n = none

section Orbit

variable {α : Type} {f g : α → Option α} {a b : α} {i j m n : ℕ}

theorem orbit_succ (n : ℕ) : orbit f a (n + 1) = (orbit f a n).bind f := rfl

theorem orbit_add (m n : ℕ) : orbit f a (m + n) = (orbit f a m).bind fun b => orbit f b n := by
  induction n with
  | zero => exact (Option.bind_fun_some (orbit f a m)).symm
  | succ n ih =>
    rw [← Nat.add_assoc, orbit_succ, ih, Option.bind_assoc]
    rfl

theorem orbit_succ_left (n : ℕ) : orbit f a (n + 1) = (f a).bind fun b => orbit f b n := by
  rw [Nat.add_comm, orbit_add]
  rfl

theorem orbit_none_of_le (h : orbit f a m = none) (hmn : m ≤ n) : orbit f a n = none := by
  rw [← Nat.add_sub_cancel' hmn, orbit_add, h]
  rfl

theorem halts_of_next (h : f a = some b) : Halts f a ↔ Halts f b := by
  constructor
  · rintro ⟨n, hn⟩
    have hn' := orbit_none_of_le hn (Nat.le_succ n)
    rw [orbit_succ_left, h] at hn'
    exact ⟨n, hn'⟩
  · rintro ⟨n, hn⟩
    refine ⟨n + 1, ?_⟩
    rwa [orbit_succ_left, h]

theorem halts_of_none (h : f a = none) : Halts f a := ⟨1, h⟩

theorem orbit_shift (h : orbit f a i = orbit f a j) (n : ℕ) : orbit f a (i + n) = orbit f a (j + n) := by
  rw [orbit_add, h, orbit_add]

theorem orbit_period (h : orbit f a i = orbit f a (i + m)) (hn : i ≤ n) (k : ℕ) :
    orbit f a (n + k * m) = orbit f a n := by
  induction k with
  | zero => rw [Nat.zero_mul, Nat.add_zero]
  | succ k ih =>
    have hshift := orbit_shift h (n - i + k * m)
    rw [show i + (n - i + k * m) = n + k * m by omega, ih,
      show i + m + (n - i + k * m) = n + (k + 1) * m by rw [Nat.succ_mul]; omega] at hshift
    exact hshift.symm

theorem not_halts_of_repeat (hij : i < j) (hi : orbit f a i = some b) (hj : orbit f a j = some b) :
    ¬Halts f a := by
  rintro ⟨n, hn⟩
  have hper : orbit f a i = orbit f a (i + (j - i)) := by rw [hi, Nat.add_sub_cancel' hij.le, hj]
  have hle : n ≤ i + n * (j - i) := (Nat.le_mul_of_pos_right n (by omega)).trans (Nat.le_add_left _ _)
  have hnone := orbit_none_of_le hn hle
  rw [orbit_period hper le_rfl, hi] at hnone
  cases hnone

variable {S : Finset α}

theorem exists_repeat (hS : ∀ n b c, orbit f a n = some b → f b = some c → b ∈ S)
    (hgo : orbit f a (S.card + 1) ≠ none) :
    ∃ i j b, i < j ∧ j ≤ S.card ∧ orbit f a i = some b ∧ orbit f a j = some b := by
  classical
  have hsome : ∀ k ∈ Finset.range (S.card + 1), ∃ b ∈ S, orbit f a k = some b := by
    intro k hk
    have hk1 : orbit f a (k + 1) ≠ none := fun h =>
      hgo (orbit_none_of_le h (Nat.succ_le_of_lt (Finset.mem_range.mp hk)))
    obtain ⟨c, hc⟩ := Option.ne_none_iff_exists'.mp hk1
    obtain ⟨b, hb, hbc⟩ := Option.bind_eq_some_iff.mp hc
    exact ⟨b, hS k b c hb hbc, hb⟩
  have hcard : (S.image some).card < (Finset.range (S.card + 1)).card := by
    rw [Finset.card_range]
    exact Nat.lt_succ_of_le Finset.card_image_le
  obtain ⟨x, hx, y, hy, hne, hxy⟩ := Finset.exists_ne_map_eq_of_card_lt_of_maps_to hcard
    fun k hk => by
      obtain ⟨b, hb, hk⟩ := hsome k hk
      exact Finset.mem_coe.mpr (Finset.mem_image.mpr ⟨b, hb, hk.symm⟩)
  obtain ⟨b, -, hb⟩ := hsome x hx
  rw [Finset.mem_range] at hx hy
  rcases lt_or_gt_of_ne hne with h | h
  · exact ⟨x, y, b, h, by omega, hb, hxy.symm.trans hb⟩
  · exact ⟨y, x, b, h, by omega, hxy.symm.trans hb, hb⟩

theorem halts_iff (hS : ∀ n b c, orbit f a n = some b → f b = some c → b ∈ S) :
    Halts f a ↔ ∀ i j b, i < j → orbit f a i = some b → orbit f a j ≠ some b := by
  constructor
  · intro h i j b hij hi hj
    exact not_halts_of_repeat hij hi hj h
  · intro h
    by_contra hgo
    obtain ⟨i, j, b, hij, -, hi, hj⟩ := exists_repeat hS fun hn => hgo ⟨_, hn⟩
    exact h i j b hij hi hj

theorem Halts.bound (h : Halts f a) (hS : ∀ n b c, orbit f a n = some b → f b = some c → b ∈ S) :
    orbit f a (S.card + 1) = none := by
  by_contra hgo
  obtain ⟨i, j, b, hij, -, hi, hj⟩ := exists_repeat hS hgo
  exact not_halts_of_repeat hij hi hj h

theorem halts_iff_of_jump (hstop : ∀ a, f a = none → Halts g a)
    (hjump : ∀ a b, f a = some b → ∃ n, 0 < n ∧ orbit g a n = some b) (a : α) :
    Halts f a ↔ Halts g a := by
  constructor
  · rintro ⟨n, hn⟩
    induction n generalizing a with
    | zero => cases hn
    | succ n ih =>
      cases hfa : f a with
      | none => exact hstop a hfa
      | some b =>
        rw [orbit_succ_left, hfa] at hn
        obtain ⟨k, -, hk⟩ := hjump a b hfa
        obtain ⟨m, hm⟩ := ih b hn
        refine ⟨k + m, ?_⟩
        rwa [orbit_add, hk]
  rintro ⟨m, hm⟩
  by_contra hgo
  -- the other loop is still going after at least as many iterations
  have hreach : ∀ n, ∃ k b, n ≤ k ∧ orbit f a n = some b ∧ orbit g a k = some b := by
    intro n
    induction n with
    | zero => exact ⟨0, a, le_rfl, rfl, rfl⟩
    | succ n ih =>
      obtain ⟨k, b, hk, hb, hgb⟩ := ih
      cases hfb : f b with
      | none => exact absurd ⟨n + 1, by rw [orbit_succ, hb]; exact hfb⟩ hgo
      | some c =>
        obtain ⟨l, hl, hc⟩ := hjump b c hfb
        refine ⟨k + l, c, by omega, ?_, ?_⟩
        · rwa [orbit_succ, hb]
        · rwa [orbit_add, hgb]
  obtain ⟨k, b, hk, -, hgb⟩ := hreach m
  rw [orbit_none_of_le hm hk] at hgb
  cases hgb

theorem Halts.mono (h : Halts g a) (hfg : ∀ a b, f a = some b → g a = some b) : Halts f a := by
  have horbit : ∀ n b, orbit f a n = some b → orbit g a n = some b := by
    intro n
    induction n with
    | zero => exact fun b h => h
    | succ n ih =>
      intro b h
      obtain ⟨c, hc, hcb⟩ := Option.bind_eq_some_iff.mp h
      rw [orbit_succ, ih c hc]
      exact hfg c b hcb
  obtain ⟨n, hn⟩ := h
  refine ⟨n, Option.eq_none_iff_forall_ne_some.mpr fun b hb => ?_⟩
  rw [horbit n b hb] at hn
  cases hn

/-! ## Loops with a bound -/

theorem loop_ne_none_iff {β : Type} (loop : ℕ → α → Option β) (hzero : ∀ a, loop 0 a ≠ none → f a = none)
    (hiter : ∀ k a, ∃ r, loop (k + 1) a = (f a).elim (some r) (loop k))
    (hS : ∀ n b c, orbit f a n = some b → f b = some c → b ∈ S) {k : ℕ} (hk : S.card < k) :
    loop k a ≠ none ↔ Halts f a := by
  have hends : ∀ k a, loop k a ≠ none → Halts f a := by
    intro k
    induction k with
    | zero => exact fun a h => halts_of_none (hzero a h)
    | succ k ih =>
      intro a h
      obtain ⟨r, hr⟩ := hiter k a
      rw [hr] at h
      cases hfa : f a with
      | none => exact halts_of_none hfa
      | some b =>
        rw [hfa] at h
        exact (halts_of_next hfa).mpr (ih b h)
  have hwithin : ∀ k a, orbit f a k = none → loop k a ≠ none := by
    intro k
    induction k with
    | zero => exact fun a h => absurd h (Option.some_ne_none a)
    | succ k ih =>
      intro a h
      obtain ⟨r, hr⟩ := hiter k a
      rw [orbit_succ_left] at h
      rw [hr]
      cases hfa : f a with
      | none => exact Option.some_ne_none r
      | some b =>
        rw [hfa] at h
        exact ih b h
  exact ⟨hends k a, fun h => hwithin k a (orbit_none_of_le (h.bound hS) hk)⟩

/-! ## Loops that collect -/

section Collect

variable {β : Type} (loop : ℕ → α → List β) {list : α → List β} {V : α → Prop}
  (hzero : ∀ a, loop 0 a = [])
  (hiter : ∀ k a, V a → loop (k + 1) a = list a ++ (f a).elim [] (loop k))
  (hV : ∀ a b, V a → f a = some b → V b)
include hzero hiter hV

theorem mem_loop_iff (ha : V a) (k : ℕ) {r : β} :
    r ∈ loop k a ↔ ∃ n < k, ∃ b, orbit f a n = some b ∧ r ∈ list b := by
  induction k generalizing a with
  | zero =>
    rw [hzero]
    exact ⟨fun h => absurd h List.not_mem_nil, fun ⟨n, hn, _⟩ => absurd hn (Nat.not_lt_zero n)⟩
  | succ k ih =>
    rw [hiter k a ha, List.mem_append]
    constructor
    · rintro (hr | hr)
      · exact ⟨0, Nat.succ_pos k, a, rfl, hr⟩
      cases hfa : f a with
      | none =>
        rw [hfa] at hr
        exact absurd hr List.not_mem_nil
      | some b =>
        rw [hfa] at hr
        obtain ⟨n, hn, c, hc, hr⟩ := (ih (hV a b ha hfa)).mp hr
        exact ⟨n + 1, Nat.succ_lt_succ hn, c, by rw [orbit_succ_left, hfa]; exact hc, hr⟩
    · rintro ⟨n, hn, c, hc, hr⟩
      cases n with
      | zero =>
        cases hc
        exact .inl hr
      | succ n =>
        rw [orbit_succ_left] at hc
        obtain ⟨b, hb, hc⟩ := Option.bind_eq_some_iff.mp hc
        rw [hb]
        exact .inr ((ih (hV a b ha hb)).mpr ⟨n, Nat.lt_of_succ_lt_succ hn, c, hc, hr⟩)

theorem forall_mem_loop_iff (ha : V a) (rank : α → ℕ)
    (hrank : ∀ a b, V a → f a = some b → rank b < rank a) {k : ℕ} (hk : rank a < k) {P : β → Prop} :
    (∀ r ∈ loop k a, P r) ↔ ∀ n b, orbit f a n = some b → ∀ r ∈ list b, P r := by
  have hle : ∀ n b, orbit f a n = some b → V b ∧ n + rank b ≤ rank a := by
    intro n
    induction n with
    | zero =>
      intro b hb
      cases hb
      exact ⟨ha, by omega⟩
    | succ n ih =>
      intro b hb
      obtain ⟨c, hc, hcb⟩ := Option.bind_eq_some_iff.mp hb
      obtain ⟨hVc, hn⟩ := ih c hc
      have hlt := hrank c b hVc hcb
      exact ⟨hV c b hVc hcb, by omega⟩
  constructor
  · intro h n b hb r hr
    have hn := (hle n b hb).2
    exact h r ((mem_loop_iff loop hzero hiter hV ha k).mpr ⟨n, by omega, b, hb, hr⟩)
  · intro h r hr
    obtain ⟨n, -, b, hb, hr⟩ := (mem_loop_iff loop hzero hiter hV ha k).mp hr
    exact h n b hb r hr

end Collect

end Orbit
