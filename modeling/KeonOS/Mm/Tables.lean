import KeonOS.Mm.Paging
import KeonOS.Lib.Radix

/-!
# Page tables as a tree

The tables reached from a root form a radix tree of depth three over physical memory. The state is
well formed when the tables are different used frames, hold no large pages, and a leaf for users
lies below entries for users.

* **`WellFormed`**: the tree invariant;
* **`Extends`**: all that `get_pte` may do to a well-formed state: new empty tables and wider
  permissions above the leaves, but no leaf changes.
-/

namespace KeonOS

open Word

/-! ## Entries -/

section Flags

variable {a b e k f : ℕ}

theorem hasFlag_or : hasFlag (a ||| b) k = (hasFlag a k || hasFlag b k) := by
  rw [Bool.eq_iff_iff]
  simp only [hasFlag, bne_iff_ne, Bool.or_eq_true, Nat.and_or_distrib_right, ne_eq, Nat.or_eq_zero_iff]
  tauto

theorem hasFlag_frame (hk : k < 4096) : hasFlag (f * 4096) k = false := by
  have h : f * 4096 &&& k = 0 := by
    refine Nat.eq_of_testBit_eq fun j => ?_
    rw [Nat.testBit_and, Nat.zero_testBit, show f * 4096 = 2 ^ 12 * f by omega, Nat.testBit_two_pow_mul]
    by_cases hj : 12 ≤ j
    · rw [Nat.testBit_lt_two_pow (lt_of_lt_of_le hk (Nat.pow_le_pow_right two_pos hj)), Bool.and_false]
    · simp [hj]
  simp [hasFlag, h]

theorem hasFlag_and_self : hasFlag (a &&& k) k = hasFlag a k := by
  rw [hasFlag, hasFlag, Nat.and_assoc, Nat.and_self]

theorem hasFlag_and_of_disjoint (h : b &&& k = 0) : hasFlag (a &&& b) k = false := by
  rw [hasFlag, Nat.and_assoc, h, Nat.and_zero]
  rfl

theorem or_div_page (hk : k < 4096) : (e ||| k) / 4096 = e / 4096 := by
  have h := @Nat.or_div_two_pow e k 12
  rwa [show (2 : ℕ) ^ 12 = 4096 by norm_num, Nat.div_eq_of_lt hk, Nat.or_zero] at h

end Flags

/-- How the hardware and the code read an entry. -/
abbrev pteFormat : RadixFormat ℕ ℕ where
  present e := hasFlag e ptePresent
  child e := e / 4096

variable {s : Mmu} {t e : ℕ} {q : List (Fin 512)} {i : Fin 512}

namespace Mmu

variable {s : Mmu} {t u f : ℕ} {i j : Fin 512} {e : ℕ}

theorem entry_lt (s : Mmu) (t : ℕ) (i : Fin 512) : s.entry t i < 2 ^ 64 := by
  have h := s.mem.readLE_lt (4096 * t + 8 * i) 8
  rw [entry]
  rwa [show 256 ^ 8 = 2 ^ 64 by norm_num] at h

theorem entry_setEntry (he : e < 2 ^ 64) : (s.setEntry t i e).entry u j =
    if u = t ∧ j = i then e else s.entry u j := by
  rw [entry, setEntry]
  split_ifs with h
  · obtain ⟨rfl, rfl⟩ := h
    rw [Mem.readLE_writeLE, show 256 ^ 8 = 2 ^ 64 by norm_num, Nat.mod_eq_of_lt he]
  · rw [entry]
    exact Mem.readLE_writeLE_of_disjoint (by omega)

theorem entry_withPfa (s : Mmu) (pfa : Pfa) : ({ s with pfa := pfa } : Mmu).entry = s.entry := by
  funext t i
  rw [entry, entry]

theorem mem_setEntry_of_ne {x : ℕ} (hx : x / 4096 ≠ t) : (s.setEntry t i e).mem x = s.mem x := by
  exact Mem.writeLE_apply_of_notMem (by omega)

/-- The table reached from `r` along a path. -/
abbrev walk (s : Mmu) (r : ℕ) (q : List (Fin 512)) : Option ℕ := Radix.walk pteFormat s.entry r q

theorem walk_snoc_of_present {r : ℕ}
    (hq : s.walk r q = some t) (hp : hasFlag (s.entry t i) ptePresent = true) :
    s.walk r (q ++ [i]) = some (s.entry t i / 4096) := by
  unfold walk at hq ⊢
  rw [Radix.walk_snoc, hq, Option.bind_some, if_pos hp]

/-- The present last-level entry at index `i` of the table at the end of `q`. -/
def leaf (s : Mmu) (r : ℕ) (q : List (Fin 512)) (i : Fin 512) : Option ℕ :=
  (s.walk r q).bind fun t => if hasFlag (s.entry t i) ptePresent then some (s.entry t i) else none

end Mmu

/-- The tables below `r` are different used frames, and a user leaf has `PTE_USER` on the way to it. -/
structure WellFormed (r : ℕ) (s : Mmu) : Prop where
  spread : Radix.Spread pteFormat s.entry r 3
  used : ∀ q t, q.length ≤ 3 → s.walk r q = some t → s.pfa.isUsed t = true
  noLarge : ∀ q t i, q.length < 3 → s.walk r q = some t →
    hasFlag (s.entry t i) ptePresent = true → hasFlag (s.entry t i) pteLarge = false
  user : ∀ q i e, q.length = 3 → s.leaf r q i = some e → hasFlag e pteUser = true → userWalk s r q = true

/-- What `get_pte` may do to the tree below `r`, the frames in `new` becoming tables. -/
structure Extends (r : ℕ) (new : ℕ → Prop) (s s' : Mmu) : Prop where
  wf : WellFormed r s'
  cr3 : s'.cr3 = s.cr3
  total : s'.pfa.totalFrames = s.pfa.totalFrames
  walk : ∀ q t, q.length ≤ 3 → s.walk r q = some t → s'.walk r q = some t
  leaf : ∀ q i, q.length = 3 → s'.leaf r q i = s.leaf r q i
  user : ∀ q, q.length ≤ 3 → userWalk s r q = true → userWalk s' r q = true
  used : ∀ f, s.pfa.isUsed f = true → s'.pfa.isUsed f = true
  fresh : ∀ q t, q.length ≤ 3 → s'.walk r q = some t → s.walk r q = some t ∨ new t
  frame : ∀ x, ¬ new (x / 4096) → (∀ q, q.length ≤ 3 → s.walk r q ≠ some (x / 4096)) → s'.mem x = s.mem x

namespace Extends

variable {r : ℕ} {new new' : ℕ → Prop} {s s' s'' : Mmu}

theorem refl (h : WellFormed r s) : Extends r new s s :=
  ⟨h, rfl, rfl, fun _ _ _ h => h, fun _ _ _ => rfl, fun _ _ h => h, fun _ h => h,
    fun _ _ _ h => .inl h, fun _ _ _ => rfl⟩

theorem mono (h : Extends r new s s') (hn : ∀ f, new f → new' f) : Extends r new' s s' :=
  { h with
    fresh := fun q t hq hw => (h.fresh q t hq hw).imp_right (hn t)
    frame := fun x hx => h.frame x fun hx' => hx (hn _ hx') }

theorem not_table (h : Extends r new s s') {f : ℕ} (hn : ¬ new f)
    (hf : ∀ q, q.length ≤ 3 → s.walk r q ≠ some f) :
    ∀ q, q.length ≤ 3 → s'.walk r q ≠ some f :=
  fun q hq hw => (h.fresh q f hq hw).elim (hf q hq) hn

theorem trans (h : Extends r new s s') (h' : Extends r new s' s'') : Extends r new s s'' where
  wf := h'.wf
  cr3 := h'.cr3.trans h.cr3
  total := h'.total.trans h.total
  walk q t hq hw := h'.walk q t hq (h.walk q t hq hw)
  leaf q i hq := (h'.leaf q i hq).trans (h.leaf q i hq)
  user q hq hu := h'.user q hq (h.user q hq hu)
  used f hf := h'.used f (h.used f hf)
  fresh q t hq hw := (h'.fresh q t hq hw).elim (h.fresh q t hq) .inr
  frame x hn hx := (h'.frame x hn (h.not_table hn hx)).trans (h.frame x hn hx)

end Extends

/-! ## The user bits of a path -/

section UserWalk

variable {r : ℕ} {s s' : Mmu} {q : List (Fin 512)} {j : Fin 512} {n : ℕ}

theorem userWalk_snoc : userWalk s r (q ++ [j]) = true ↔ userWalk s r q = true ∧
    ∃ t, s.walk r q = some t ∧ hasFlag (s.entry t j) ptePresent = true ∧
      hasFlag (s.entry t j) pteUser = true := by
  induction q generalizing r with
  | nil =>
    simp only [List.nil_append, userWalk, Radix.walk_nil, Option.some.injEq, exists_eq_left']
    split_ifs <;> simp_all
  | cons i q ih =>
    simp only [List.cons_append, userWalk, Mmu.walk, Radix.walk]
    cases hp : hasFlag (s.entry r i) ptePresent with
    | false => simp
    | true =>
      cases hu : hasFlag (s.entry r i) pteUser with
      | false => simp
      | true => simpa using ih

theorem userWalk_mono (hw : ∀ q t, q.length < n → s.walk r q = some t → s'.walk r q = some t)
    (he : ∀ q t j, q.length < n → s.walk r q = some t → hasFlag (s.entry t j) ptePresent = true →
      hasFlag (s.entry t j) pteUser = true → hasFlag (s'.entry t j) ptePresent = true ∧
        hasFlag (s'.entry t j) pteUser = true) :
    ∀ q, q.length ≤ n → userWalk s r q = true → userWalk s' r q = true := by
  intro q
  induction q using List.reverseRecOn with
  | nil => intro _ _; rfl
  | append_singleton q j ih =>
    intro hq h
    rw [List.length_append, List.length_singleton] at hq
    rw [userWalk_snoc] at h ⊢
    obtain ⟨h1, t, ht, hp, hu⟩ := h
    exact ⟨ih (by omega) h1, t, hw q t (by omega) ht, he q t j (by omega) ht hp hu⟩

end UserWalk

/-! ## The writes of `get_pte` -/

/-- `s'` is `s` with entry `i` of table `t` set to `e`; counters may differ. -/
structure EntrySet (s s' : Mmu) (t : ℕ) (i : Fin 512) (e : ℕ) : Prop where
  entry : ∀ u j, s'.entry u j = if u = t ∧ j = i then e else s.entry u j
  mem : ∀ x, x / 4096 ≠ t → s'.mem x = s.mem x
  pfa : s'.pfa = s.pfa
  cr3 : s'.cr3 = s.cr3

theorem entrySet_setEntry (he : e < 2 ^ 64) : EntrySet s (s.setEntry t i e) t i e :=
  ⟨fun _ _ => Mmu.entry_setEntry he, fun _ => Mmu.mem_setEntry_of_ne, rfl, rfl⟩

theorem EntrySet.mapped {s' : Mmu} (h : EntrySet s s' t i e) (n : ℕ) :
    EntrySet s { s' with mappedPages := n } t i e := by
  refine ⟨fun u j => ?_, h.mem, h.pfa, h.cr3⟩
  rw [← h.entry, Mmu.entry, Mmu.entry]

structure FrameZeroed (s s' : Mmu) (f : ℕ) : Prop where
  entry : ∀ u j, s'.entry u j = if u = f then 0 else s.entry u j
  mem : ∀ x, x / 4096 ≠ f → s'.mem x = s.mem x
  zero : ∀ x, x / 4096 = f → s'.mem x = 0
  takes : s.pfa.Takes f s'.pfa
  cr3 : s'.cr3 = s.cr3

section Writes

variable {r t f k : ℕ} {s s' : Mmu} {p : List (Fin 512)} {i : Fin 512} {e : ℕ} {new : ℕ → Prop}

variable {u : ℕ} {j : Fin 512}

theorem WellFormed.ne_of_length (hw : WellFormed r s)
    (hp : p.length ≤ 3) (hq : q.length ≤ 3) (hne : p.length ≠ q.length)
    (ht : s.walk r p = some t) (hu : s.walk r q = some u) : u ≠ t := by
  rintro rfl
  exact hne (by rw [hw.spread p q u hp hq ht hu])

theorem Mmu.leaf_congr (hw : s'.walk r q = s.walk r q)
    (he : ∀ u, s.walk r q = some u → s'.entry u j = s.entry u j) :
    s'.leaf r q j = s.leaf r q j := by
  rw [Mmu.leaf, Mmu.leaf, hw]
  cases hu : s.walk r q with
  | none => rfl
  | some u => rw [Option.bind_some, Option.bind_some, he u hu]

theorem EntrySet.entry_leaf (h : EntrySet s s' t i e) (hw : WellFormed r s) (hp : p.length < 3)
    (ht : s.walk r p = some t) (hq : q.length = 3)
    (hu : s.walk r q = some u) : s'.entry u j = s.entry u j := by
  rw [h.entry, if_neg]
  rintro ⟨rfl, -⟩
  exact hw.ne_of_length hp.le hq.le (by omega) ht hu rfl

theorem extends_upgrade (h : EntrySet s s' t i (s.entry t i ||| k)) (hw : WellFormed r s)
    (hp : p.length < 3) (ht : s.walk r p = some t) (hk : k < 4096)
    (hk1 : hasFlag k ptePresent = false) (hk2 : hasFlag k pteLarge = false) :
    Extends r new s s' := by
  -- the written entry differs in the added flags only
  have hsame : ∀ u j, hasFlag (s'.entry u j) ptePresent = hasFlag (s.entry u j) ptePresent ∧
      s'.entry u j / 4096 = s.entry u j / 4096 := by
    intro u j
    rw [h.entry]
    split_ifs with hu
    · rw [hasFlag_or, hk1, Bool.or_false, or_div_page hk, hu.1, hu.2]
      exact ⟨rfl, rfl⟩
    · exact ⟨rfl, rfl⟩
  have hwalk : ∀ q, s'.walk r q = s.walk r q := Radix.walk_of_same_child hsame
  have huser : ∀ q, q.length ≤ 3 → userWalk s r q = true → userWalk s' r q = true := by
    refine userWalk_mono (fun q u _ h => by rw [hwalk, h]) fun q u j _ _ h1 h2 => ?_
    rw [(hsame u j).1]
    refine ⟨h1, ?_⟩
    rw [h.entry]
    split_ifs with hu
    · rw [hasFlag_or, ← hu.1, ← hu.2, h2, Bool.true_or]
    · exact h2
  have hleaf : ∀ q j, q.length = 3 → s'.leaf r q j = s.leaf r q j := fun q j hq =>
    Mmu.leaf_congr (hwalk q) fun u hu => h.entry_leaf hw hp ht hq hu
  refine ⟨⟨hw.spread.congr fun q _ => hwalk q, fun q u hq hq' => ?_, fun q u j hq hq' h1 => ?_,
    fun q j e hq hl h1 => ?_⟩, h.cr3, by rw [h.pfa], fun q u _ h => by rw [hwalk, h], hleaf, huser,
    fun f hf => by rwa [h.pfa], fun q u _ h => .inl (by rw [← hwalk, h]), fun x _ hnt => ?_⟩
  · rw [h.pfa]
    exact hw.used q u hq (by rw [← hwalk, hq'])
  · rw [(hsame u j).1] at h1
    rw [hwalk] at hq'
    rw [h.entry]
    split_ifs with he
    · rw [hasFlag_or, hk2, Bool.or_false, ← he.1, ← he.2, hw.noLarge q u j hq hq' h1]
    · exact hw.noLarge q u j hq hq' h1
  · rw [hleaf q j hq] at hl
    exact huser q hq.le (hw.user q j e hq hl h1)
  · exact h.mem x fun hx => hnt p hp.le (by rw [ht, hx])

theorem WellFormed.not_table (hw : WellFormed r s) (hf : s.pfa.isUsed f = false) :
    ∀ q, q.length ≤ 3 → s.walk r q ≠ some f := by
  intro q hq h
  rw [hw.used q f hq h] at hf
  exact Bool.noConfusion hf

/-- Everything in the tables below `r` is as it was, and no used frame became free. -/
structure KeepsTree (r : ℕ) (s s' : Mmu) : Prop where
  mem : ∀ q x, q.length ≤ 3 → s.walk r q = some (x / 4096) → s'.mem x = s.mem x
  used : ∀ g, s.pfa.isUsed g = true → s'.pfa.isUsed g = true

namespace KeepsTree

theorem entry (h : KeepsTree r s s') (hq : q.length ≤ 3)
    (ht : s.walk r q = some t) (j : Fin 512) : s'.entry t j = s.entry t j := by
  rw [Mmu.entry, Mmu.entry]
  refine Mem.readLE_congr fun i hi => h.mem q _ hq ?_
  rw [ht, show (4096 * t + 8 * (j : ℕ) + i) / 4096 = t by omega]

theorem walk (h : KeepsTree r s s') : ∀ q, q.length ≤ 3 → s'.walk r q = s.walk r q :=
  Radix.walk_congr fun _ _ hq ht j => h.entry hq.le ht j

theorem leaf (h : KeepsTree r s s') (hq : q.length = 3) (j : Fin 512) : s'.leaf r q j = s.leaf r q j :=
  Mmu.leaf_congr (h.walk q hq.le) fun _ ht => h.entry hq.le ht j

theorem user (h : KeepsTree r s s') : ∀ q, q.length ≤ 3 → userWalk s r q = true →
    userWalk s' r q = true := by
  refine userWalk_mono (fun q t hq ht => by rw [h.walk q hq.le, ht]) fun q t j hq ht h1 h2 => ?_
  rw [h.entry hq.le ht]
  exact ⟨h1, h2⟩

theorem wf (h : KeepsTree r s s') (hw : WellFormed r s) : WellFormed r s' := by
  refine ⟨hw.spread.congr h.walk, fun q t hq ht => ?_, fun q t i hq ht hp => ?_,
    fun q i e hq hl hu => ?_⟩
  · exact h.used t (hw.used q t hq (by rw [← h.walk q hq, ht]))
  · rw [h.walk q hq.le] at ht
    rw [h.entry hq.le ht] at hp ⊢
    exact hw.noLarge q t i hq ht hp
  · rw [h.leaf hq] at hl
    exact h.user q hq.le (hw.user q i e hq hl hu)

end KeepsTree

theorem FrameZeroed.keepsTree (h : FrameZeroed s s' f) (hw : WellFormed r s) : KeepsTree r s s' where
  mem q x hq hx := h.mem x fun hf => hw.not_table h.takes.free q hq (by rw [hx, hf])
  used g hg := by rw [h.takes.used, hg, Bool.or_true]

theorem extends_alloc (h : FrameZeroed s s' f) (hw : WellFormed r s) :
    Extends r (· = f) s s' ∧ ∀ q, q.length ≤ 3 → s'.walk r q = s.walk r q := by
  have hk : KeepsTree r s s' := h.keepsTree hw
  exact ⟨⟨hk.wf hw, h.cr3, h.takes.total, fun q u hq h => by rw [hk.walk q hq, h],
    fun _ _ hq => hk.leaf hq _, hk.user, hk.used, fun q u hq h => .inl (by rw [← hk.walk q hq, h]),
    fun x hx _ => h.mem x hx⟩, hk.walk⟩

theorem extends_link (h : EntrySet s s' t i e) (hw : WellFormed r s) (hp : p.length < 3)
    (ht : s.walk r p = some t) (habs : hasFlag (s.entry t i) ptePresent = false)
    (hempty : ∀ j, s.entry (e / 4096) j = 0)
    (hnt : ∀ q, q.length ≤ 3 → s.walk r q ≠ some (e / 4096))
    (hu : s.pfa.isUsed (e / 4096) = true)
    (he1 : hasFlag e ptePresent = true) (he2 : hasFlag e pteLarge = false) :
    Extends r (· = e / 4096) s s' ∧ s'.walk r (p ++ [i]) = some (e / 4096) := by
  have hft : e / 4096 ≠ t := fun h => hnt p hp.le (by rw [ht, h])
  have hl : Radix.Linked pteFormat s.entry s'.entry t i (e / 4096) := by
    refine ⟨fun u j hu => by rw [h.entry, if_neg hu], habs, ?_, ?_, fun j => ?_⟩
    · simpa [h.entry] using he1
    · simp [h.entry]
    · simp [h.entry, hft, hempty, hasFlag]
  have hwalk : ∀ q, q.length ≤ 3 → s'.walk r q = if q = p ++ [i] then some (e / 4096) else s.walk r q :=
    fun q hq => Radix.walk_link hl hw.spread hp.le ht (by omega)
  have hnone : s.walk r (p ++ [i]) = none := by
    have := Radix.walk_absent (q := []) ht habs
    rwa [List.append_nil] at this
  have hext : ∀ q u, q.length ≤ 3 → s.walk r q = some u → s'.walk r q = some u := by
    intro q u hq hq'
    rw [hwalk q hq, if_neg, hq']
    rintro rfl
    rw [hnone] at hq'
    cases hq'
  have huser : ∀ q, q.length ≤ 3 → userWalk s r q = true → userWalk s' r q = true := by
    refine userWalk_mono (fun q u hq h => hext q u hq.le h) fun q u j hq _ h1 h2 => ?_
    rw [h.entry, if_neg]
    · exact ⟨h1, h2⟩
    · rintro ⟨rfl, rfl⟩
      rw [habs] at h1
      exact Bool.noConfusion h1
  have hleaf : ∀ q j, q.length = 3 → s'.leaf r q j = s.leaf r q j := by
    intro q j hq
    by_cases hqp : q = p ++ [i]
    · rw [Mmu.leaf, Mmu.leaf, hwalk q hq.le, if_pos hqp, hqp, hnone]
      simp [h.entry, hft, hempty, hasFlag]
    · refine Mmu.leaf_congr ?_ fun u hu => h.entry_leaf hw hp ht hq hu
      rw [hwalk q hq.le, if_neg hqp]
  refine ⟨⟨⟨Radix.spread_link hl hw.spread hp ht hnt, fun q u hq hq' => ?_,
    fun q u j hq hq' h1 => ?_, fun q j e' hq hq' h1 => ?_⟩, h.cr3, by rw [h.pfa], hext, hleaf, huser,
    fun f hf => by rwa [h.pfa], fun q u hq hq' => ?_, fun x _ hx => ?_⟩,
    Radix.walk_link_self hl hw.spread hp.le ht⟩
  · rw [hwalk q hq] at hq'
    rw [h.pfa]
    split_ifs at hq' with hqp
    · rwa [← Option.some.inj hq']
    · exact hw.used q u hq hq'
  · rw [hwalk q hq.le] at hq'
    rw [h.entry] at h1 ⊢
    split_ifs with h2
    · exact he2
    rw [if_neg h2] at h1
    split_ifs at hq' with hqp
    · rw [← Option.some.inj hq', hempty] at h1
      exact Bool.noConfusion h1
    · exact hw.noLarge q u j hq hq' h1
  · rw [hleaf q j hq] at hq'
    exact huser q hq.le (hw.user q j e' hq hq' h1)
  · rw [hwalk q hq] at hq'
    split_ifs at hq' with hqp
    · exact .inr (Option.some.inj hq').symm
    · exact .inl hq'
  · exact h.mem x fun hx' => hx p hp.le (by rw [ht, hx'])

/-! ## Writing a leaf -/

theorem leaf_writeLeaf (h : EntrySet s s' t i e) (hw : WellFormed r s) (hp : p.length = 3)
    (ht : s.walk r p = some t) :
    (∀ q, q.length ≤ 3 → s'.walk r q = s.walk r q) ∧
    ∀ q j, q.length = 3 → s'.leaf r q j =
      if q = p ∧ j = i then (if hasFlag e ptePresent then some e else none)
      else s.leaf r q j := by
  have hwalk : ∀ q, q.length ≤ 3 → s'.walk r q = s.walk r q := by
    refine Radix.walk_congr fun q u hq hu j => ?_
    rw [h.entry, if_neg]
    rintro ⟨rfl, -⟩
    exact hw.ne_of_length hp.le hq.le (by omega) ht hu rfl
  refine ⟨hwalk, fun q j hq => ?_⟩
  by_cases hqp : q = p ∧ j = i
  · obtain ⟨rfl, rfl⟩ := hqp
    rw [if_pos ⟨rfl, rfl⟩, Mmu.leaf, hwalk q hq.le, ht, Option.bind_some]
    simp only [h.entry, and_self, if_true]
  rw [if_neg hqp]
  refine Mmu.leaf_congr (hwalk q hq.le) fun u hu => ?_
  rw [h.entry, if_neg]
  rintro ⟨rfl, rfl⟩
  exact hqp ⟨hw.spread q p u hq.le hp.le hu ht, rfl⟩

theorem wellFormed_writeLeaf (h : EntrySet s s' t i e) (hw : WellFormed r s) (hp : p.length = 3)
    (ht : s.walk r p = some t) (hu : hasFlag e pteUser = true → userWalk s r p = true) :
    WellFormed r s' := by
  obtain ⟨hwalk, hleaf⟩ := leaf_writeLeaf h hw hp ht
  have hent : ∀ q u j, q.length < 3 → s.walk r q = some u → s'.entry u j = s.entry u j := by
    intro q u j hq hq'
    rw [h.entry, if_neg]
    rintro ⟨rfl, -⟩
    exact hw.ne_of_length hp.le hq.le (by omega) ht hq' rfl
  have huser : ∀ q, q.length ≤ 3 → userWalk s r q = true → userWalk s' r q = true := by
    refine userWalk_mono (fun q u hq h => by rw [hwalk q hq.le, h]) fun q u j hq hq' h1 h2 => ?_
    rw [hent q u j hq hq']
    exact ⟨h1, h2⟩
  refine ⟨hw.spread.congr hwalk, fun q u hq hq' => ?_, fun q u j hq hq' h1 => ?_,
    fun q j e' hq hl h1 => huser q hq.le ?_⟩
  · rw [h.pfa]
    exact hw.used q u hq (by rw [← hwalk q hq, hq'])
  · rw [hwalk q hq.le] at hq'
    rw [hent q u j hq hq'] at h1 ⊢
    exact hw.noLarge q u j hq hq' h1
  · rw [hleaf q j hq] at hl
    split_ifs at hl with hqp he
    · rw [hqp.1]
      exact hu (by rwa [Option.some.inj hl])
    · exact hw.user q j e' hq hl h1

end Writes

end KeonOS
