import Mathlib.Tactic

/-!
# Null-terminated chains

A store of nodes with a `next` field, read as a function `next : α → α`, and a null node. The
nodes reached from `a` before the null node form the list `xs` (`Chain null next a xs`).

* **`Chain.insert_after`**, **`Chain.remove_after`**, **`Chain.snoc`**: the three edits of a chain by
  pointer assignments.

A ring is a chain that ends where it starts: `LinkRing next a xs` says that `xs` are the nodes from `a`
back to `a`.

* **`LinkRing.rotate`**: the same ring seen from another node;
* **`Chain.erase`**, **`LinkRing.exists_insert`**, **`LinkRing.erase`**: a node leaves or joins.
-/

/-- `xs` are the nodes from `a` to the null node along `next`. -/
def Chain {α : Type} (null : α) (next : α → α) : α → List α → Prop
  | a, [] => a = null
  | a, x :: xs => a = x ∧ x ≠ null ∧ Chain null next (next x) xs

namespace Chain

variable {α : Type} {null : α} {next next' : α → α}

theorem ne_null : ∀ {xs : List α} {a : α}, Chain null next a xs → ∀ x ∈ xs, x ≠ null
  | [], _, _ => by simp
  | y :: ys, a, ⟨_, hy, h⟩ => by
    intro x hx
    rcases List.mem_cons.mp hx with rfl | hx
    · exact hy
    · exact h.ne_null x hx

theorem unique : ∀ {xs ys : List α} {a : α}, Chain null next a xs → Chain null next a ys → xs = ys
  | [], [], _, _, _ => rfl
  | [], y :: ys, a, h, ⟨h1, h2, _⟩ => absurd (h1.symm.trans h) h2
  | x :: xs, [], a, ⟨h1, h2, _⟩, h => absurd (h1.symm.trans h) h2
  | x :: xs, y :: ys, a, ⟨h1, _, h⟩, ⟨h1', _, h'⟩ => by
    obtain rfl : x = y := h1.symm.trans h1'
    rw [h.unique h']

theorem congr : ∀ {xs : List α} {a : α}, (∀ x ∈ xs, next' x = next x) → Chain null next a xs →
    Chain null next' a xs
  | [], _, _, h => h
  | x :: xs, a, hn, ⟨h1, h2, h⟩ => by
    refine ⟨h1, h2, ?_⟩
    rw [hn x List.mem_cons_self]
    exact congr (fun y hy => hn y (List.mem_cons_of_mem _ hy)) h

theorem next_of_append : ∀ {xs ys : List α} {a y : α}, Chain null next a (xs ++ y :: ys) →
    Chain null next (next y) ys
  | [], _, _, _, ⟨_, _, h⟩ => h
  | _ :: _, _, _, _, ⟨_, _, h⟩ => h.next_of_append

theorem replace_after : ∀ {xs ys zs : List α} {a y : α}, Chain null next a (xs ++ y :: ys) →
    (∀ x ∈ xs, next' x = next x) → Chain null next' (next' y) zs → Chain null next' a (xs ++ y :: zs)
  | [], _, _, _, _, ⟨h1, h2, _⟩, _, hz => ⟨h1, h2, hz⟩
  | x :: xs, _, _, _, _, ⟨h1, h2, h⟩, hn, hz => by
    refine ⟨h1, h2, ?_⟩
    rw [hn x List.mem_cons_self]
    exact h.replace_after (fun w hw => hn w (List.mem_cons_of_mem _ hw)) hz

theorem insert_after {xs ys : List α} {a y z : α} (h : Chain null next a (xs ++ y :: ys))
    (hz : z ≠ null) (hy : next' y = z) (hz' : next' z = next y)
    (hxs : ∀ x ∈ xs, next' x = next x) (hys : ∀ x ∈ ys, next' x = next x) :
    Chain null next' a (xs ++ y :: z :: ys) := by
  refine h.replace_after hxs ⟨hy, hz, ?_⟩
  rw [hz']
  exact h.next_of_append.congr hys

theorem remove_after {xs ys : List α} {a y z : α} (h : Chain null next a (xs ++ y :: z :: ys))
    (hy : next' y = next z) (hxs : ∀ x ∈ xs, next' x = next x) (hys : ∀ x ∈ ys, next' x = next x) :
    Chain null next' a (xs ++ y :: ys) := by
  refine h.replace_after hxs ?_
  rw [hy]
  exact h.next_of_append.2.2.congr hys

theorem snoc {xs : List α} {a y z : α} (h : Chain null next a (xs ++ [y])) (hz : z ≠ null)
    (hy : next' y = z) (hz' : next' z = null) (hxs : ∀ x ∈ xs, next' x = next x) :
    Chain null next' a (xs ++ [y, z]) :=
  h.replace_after hxs ⟨hy, hz, hz'⟩

theorem nodup {xs : List α} {a : α} (h : Chain null next a xs) : xs.Nodup := by
  induction xs generalizing a with
  | nil => exact List.nodup_nil
  | cons x xs ih =>
    refine List.nodup_cons.mpr ⟨fun hx => ?_, ih h.2.2⟩
    obtain ⟨ys, zs, rfl⟩ := List.append_of_mem hx
    have hlen := congrArg List.length (h.2.2.unique h.2.2.next_of_append)
    simp at hlen
    omega

theorem before {xs ys : List α} {a y : α} (h : Chain null next a (xs ++ y :: ys)) :
    Chain y next a xs := by
  induction xs generalizing a with
  | nil => exact h.1
  | cons x xs ih =>
    have hx := (List.nodup_cons.mp h.nodup).1
    refine ⟨h.1, fun hxy => hx ?_, ih h.2.2⟩
    rw [hxy]
    exact List.mem_append_right _ List.mem_cons_self

theorem join {xs ys : List α} {a y : α} (h : Chain y next a xs) (hxs : ∀ x ∈ xs, x ≠ null)
    (hy : y ≠ null) (h' : Chain null next (next y) ys) : Chain null next a (xs ++ y :: ys) := by
  induction xs generalizing a with
  | nil => exact ⟨h, hy, h'⟩
  | cons x xs ih =>
    rw [List.forall_mem_cons] at hxs
    exact ⟨h.1, hxs.1, ih h.2.2 hxs.2⟩

theorem mem_of_ne_null {xs : List α} {a : α} (h : Chain null next a xs) (ha : a ≠ null) : a ∈ xs := by
  cases xs with
  | nil => exact absurd h ha
  | cons x xs => exact h.1 ▸ List.mem_cons_self

theorem next_mem {xs : List α} {a x : α} (h : Chain null next a xs) (hx : x ∈ xs) :
    next x = null ∨ next x ∈ xs := by
  obtain ⟨us, vs, rfl⟩ := List.append_of_mem hx
  by_cases h0 : next x = null
  · exact .inl h0
  · have hm := h.next_of_append.mem_of_ne_null h0
    exact .inr (List.mem_append_right _ (List.mem_cons_of_mem _ hm))

theorem next_ne {xs : List α} {a x : α} (h : Chain null next a xs) (hx : x ∈ xs) : next x ≠ x := by
  obtain ⟨us, vs, rfl⟩ := List.append_of_mem hx
  intro he
  have htail := h.next_of_append
  rw [he] at htail
  have hnd := (List.nodup_append.mp h.nodup).2.1
  exact (List.nodup_cons.mp hnd).1 (htail.mem_of_ne_null (h.ne_null x hx))

theorem exists_insert {xs : List α} {a p z : α} (h : Chain null next a xs) (hp : p ∈ xs)
    (hz : z ≠ null) (hn' : next' p = z) (hz' : next' z = next p)
    (hn : ∀ x ∈ xs, x ≠ p → next' x = next x) :
    ∃ ys, Chain null next' a ys ∧ ys.Perm (z :: xs) := by
  obtain ⟨us, vs, rfl⟩ := List.append_of_mem hp
  have hnd := List.nodup_append.mp h.nodup
  refine ⟨us ++ p :: z :: vs, h.insert_after hz hn' hz' (fun x hx => ?_) (fun x hx => ?_), ?_⟩
  · exact hn x (by simp [hx]) (hnd.2.2 x hx p (by simp))
  · refine hn x (by simp [hx]) ?_
    rintro rfl
    exact (List.nodup_cons.mp hnd.2.1).1 hx
  · have hmid : (us ++ [p] ++ z :: vs).Perm (z :: (us ++ [p] ++ vs)) := List.perm_middle
    simpa using hmid

theorem erase [DecidableEq α] {xs : List α} {a p z : α} (h : Chain null next a xs) (hp : p ∈ xs)
    (hz : next p = z) (hz' : z ≠ null) (hn' : next' p = next z)
    (hn : ∀ x ∈ xs, x ≠ p → x ≠ z → next' x = next x) : Chain null next' a (xs.erase z) := by
  obtain ⟨us, vs, rfl⟩ := List.append_of_mem hp
  have htail := h.next_of_append
  rw [hz] at htail
  cases vs with
  | nil => exact absurd htail hz'
  | cons y vs =>
    obtain rfl : z = y := htail.1
    have hnd := List.nodup_append.mp h.nodup
    have hpz : p ∉ z :: vs := (List.nodup_cons.mp hnd.2.1).1
    have hzv : z ∉ vs := (List.nodup_cons.mp (List.nodup_cons.mp hnd.2.1).2).1
    have hus : ∀ x ∈ us, x ≠ p ∧ x ≠ z := fun x hx =>
      ⟨hnd.2.2 x hx p (by simp), hnd.2.2 x hx z (by simp)⟩
    have hzu : z ∉ us := fun hm => (hus z hm).2 rfl
    have hzp : ¬ (p == z) = true := by
      rw [beq_iff_eq]
      rintro rfl
      exact hpz List.mem_cons_self
    have he : (us ++ p :: z :: vs).erase z = us ++ p :: vs := by
      rw [List.erase_append_right _ hzu, List.erase_cons_tail hzp, List.erase_cons_head]
    rw [he]
    refine h.remove_after hn' (fun x hx => hn x (by simp [hx]) (hus x hx).1 (hus x hx).2) ?_
    intro x hx
    refine hn x (by simp [hx]) (fun hxp => hpz (hxp ▸ List.mem_cons_of_mem _ hx)) ?_
    exact fun hxz => hzv (hxz ▸ hx)

end Chain

/-! ## Rings -/

/-- `xs` are the nodes from `a`, which is not one of them, back to `a`. -/
def LinkRing {α : Type} (next : α → α) (a : α) (xs : List α) : Prop := Chain a next (next a) xs

namespace LinkRing

variable {α : Type} {next next' : α → α} {a b z : α} {xs ys : List α} (h : LinkRing next a xs)
include h

theorem notMem : a ∉ xs := fun ha => h.ne_null a ha rfl

theorem unique (h' : LinkRing next a ys) : xs = ys := Chain.unique h h'

theorem nodup : (a :: xs).Nodup := List.nodup_cons.mpr ⟨h.notMem, Chain.nodup h⟩

theorem congr (hn : ∀ x ∈ a :: xs, next' x = next x) : LinkRing next' a xs := by
  rw [List.forall_mem_cons] at hn
  unfold LinkRing at h ⊢
  rw [hn.1]
  exact h.congr hn.2

omit h in
theorem rotate (h : LinkRing next a (xs ++ b :: ys)) : LinkRing next b (ys ++ a :: xs) := by
  have hnd := List.nodup_append.mp (Chain.nodup h)
  have hb : b ∉ ys := (List.nodup_cons.mp hnd.2.1).1
  refine Chain.join (Chain.next_of_append h) (fun y hy hyb => hb (hyb ▸ hy)) ?_ (Chain.before h)
  rintro rfl
  exact h.notMem (List.mem_append_right _ List.mem_cons_self)

theorem from_next : ∃ l, LinkRing next (next a) l ∧ next a :: l = xs ++ [a] := by
  cases xs with
  | nil =>
    have ha : next a = a := h
    refine ⟨[], ?_, by rw [ha]; rfl⟩
    rwa [LinkRing, ha]
  | cons x xs =>
    have hx : next a = x := h.1
    rw [hx]
    exact ⟨xs ++ [a], @rotate _ _ _ _ [] _ h, rfl⟩

theorem exists_rotate (hb : b ∈ a :: xs) :
    ∃ ys, LinkRing next b ys ∧ ∀ x, x ∈ b :: ys ↔ x ∈ a :: xs := by
  rcases List.mem_cons.mp hb with rfl | hb
  · exact ⟨xs, h, fun _ => Iff.rfl⟩
  · obtain ⟨us, vs, rfl⟩ := List.append_of_mem hb
    refine ⟨vs ++ a :: us, h.rotate, fun x => ?_⟩
    simp only [List.mem_cons, List.mem_append]
    tauto

theorem next_mem {x : α} (hx : x ∈ a :: xs) : next x ∈ a :: xs := by
  rcases List.mem_cons.mp hx with rfl | hx
  · by_cases h0 : next x = x
    · exact h0.symm ▸ List.mem_cons_self
    · exact List.mem_cons_of_mem _ (Chain.mem_of_ne_null h h0)
  · rcases Chain.next_mem h hx with h0 | h0
    · exact h0.symm ▸ List.mem_cons_self
    · exact List.mem_cons_of_mem _ h0

theorem next_ne {x : α} (hxs : xs ≠ []) (hx : x ∈ a :: xs) : next x ≠ x := by
  rcases List.mem_cons.mp hx with rfl | hx
  · intro he
    unfold LinkRing at h
    rw [he] at h
    cases xs with
    | nil => exact hxs rfl
    | cons y xs => exact h.2.1 h.1.symm
  · exact Chain.next_ne h hx

theorem exists_insert {p : α} (hp : p ∈ a :: xs) (hz : z ≠ a)
    (hn' : next' p = z) (hz' : next' z = next p) (hn : ∀ x ∈ a :: xs, x ≠ p → next' x = next x) :
    ∃ ys, LinkRing next' a ys ∧ ys.Perm (z :: xs) := by
  unfold LinkRing at h ⊢
  rcases List.mem_cons.mp hp with rfl | hp
  · refine ⟨z :: xs, ⟨hn', hz, ?_⟩, List.Perm.refl _⟩
    rw [hz']
    exact h.congr fun x hx => hn x (List.mem_cons_of_mem _ hx) (h.ne_null x hx)
  · rw [hn a List.mem_cons_self (Ne.symm (h.ne_null p hp))]
    exact h.exists_insert hp hz hn' hz' fun x hx => hn x (List.mem_cons_of_mem _ hx)

theorem erase [DecidableEq α] {p : α} (hp : p ∈ a :: xs) (hz : next p = z)
    (hza : z ≠ a) (hn' : next' p = next z)
    (hn : ∀ x ∈ a :: xs, x ≠ p → x ≠ z → next' x = next x) : LinkRing next' a (xs.erase z) := by
  rcases List.mem_cons.mp hp with rfl | hp
  · unfold LinkRing at h ⊢
    rw [hz] at h
    cases xs with
    | nil => exact absurd h hza
    | cons y xs =>
      obtain rfl : z = y := h.1
      rw [hn', List.erase_cons_head]
      have hnd := List.nodup_cons.mp h.nodup
      refine h.2.2.congr fun x hx => hn x (by simp [hx]) ?_ fun hxz => hnd.1 (hxz ▸ hx)
      exact h.2.2.ne_null x hx
  · unfold LinkRing at h ⊢
    rw [hn a List.mem_cons_self (fun hap => h.ne_null p hp hap.symm) (Ne.symm hza)]
    exact Chain.erase h hp hz hza hn' fun x hx => hn x (List.mem_cons_of_mem _ hx)

end LinkRing
