import KeonOS.Sched.Model

/-!
# The loops over threads

What each loop of the scheduler does, in terms of the nodes it passes.

* **`walkLoop_ends`**, `walkLoop_null`: a walk visits each thread up to its end once; along a list
  that ends with the null pointer it has no result;
* **`findReady_ends`**: the scan returns the first thread that can run;
* **`cleanupLoop_ends`**: every thread on the zombie list is released.
-/

namespace KeonOS

open List Option

namespace Sched

variable {s : Sched} {a b : ℕ} {c : Tcb}

theorem next_eq (h : s.tcb a = some c) : s.next a = c.next := by
  rw [next, h]
  rfl

theorem modify_tcb (f : Tcb → Tcb) :
    (s.modify a f).tcb b = if b = a then (s.tcb b).map f else s.tcb b := by
  by_cases hb : b = a
  · subst hb
    simp [modify]
  · simp [modify, hb]

@[simp] theorem modify_zombieListHead (f : Tcb → Tcb) :
    (s.modify a f).zombieListHead = s.zombieListHead := rfl

theorem not_exiting (h : s.tcb s.currentThread = some c) (hc : c.state ≠ .zombie) : ¬ s.Exiting := by
  rintro ⟨d, hd, hz⟩
  rw [Option.some.inj (h.symm.trans hd)] at hc
  exact hc hz

/-- Visit the threads in `xs`. -/
def mapOn (s : Sched) (xs : List ℕ) (f : Tcb → Tcb) : Sched :=
  { s with tcb := fun a => if a ∈ xs then (s.tcb a).map f else s.tcb a }

theorem modify_eq_mapOn (f : Tcb → Tcb) : s.modify a f = s.mapOn [a] f := by
  unfold mapOn
  rw [modify, mk.injEq]
  refine ⟨?_, rfl, rfl, rfl, rfl, rfl⟩
  funext b
  have h := modify_tcb (s := s) (a := a) (b := b) f
  simpa [modify] using h

variable {xs : List ℕ}

theorem modify_mapOn (f : Tcb → Tcb) (ha : a ∉ xs) :
    (s.modify a f).mapOn xs f = s.mapOn (a :: xs) f := by
  unfold mapOn
  rw [mk.injEq]
  refine ⟨?_, rfl, rfl, rfl, rfl, rfl⟩
  funext b
  rw [modify_tcb]
  by_cases hb : b = a
  · subst hb
    simp [ha]
  · simp [hb]

theorem mapOn_next {f : Tcb → Tcb} (hf : ∀ c, (f c).next = c.next) : (s.mapOn xs f).next = s.next := by
  funext b
  simp only [next, mapOn]
  split_ifs
  · cases s.tcb b <;> simp [hf]
  · rfl

end Sched

/-! ## Walks -/

variable {l : List ℕ} {t k id prev curr self : ℕ} {s s' : Sched}

section Walk

variable {f : Tcb → Tcb} {stop : ℕ}

theorem walkLoop_ends (hf : ∀ c, (f c).next = c.next)
    (hl : Chain stop s.next (s.next t) l) (ht : t ∉ l) (hs : ∀ a ∈ t :: l, (s.tcb a).isSome)
    (hk : l.length < k) : walkLoop f stop k t s = some (s.mapOn (t :: l) f) := by
  induction l generalizing t k s with
  | nil =>
    obtain ⟨k, rfl⟩ := Nat.exists_eq_add_of_lt hk
    obtain ⟨c, hc⟩ := isSome_iff_exists.mp (hs t mem_cons_self)
    have hstop : c.next = stop := (Sched.next_eq hc).symm.trans hl
    simp only [walkLoop, hc, hstop, if_true, Sched.modify_eq_mapOn]
  | cons x l ih =>
    obtain ⟨k, rfl⟩ : ∃ k', k = k' + 1 := ⟨k - 1, by omega⟩
    obtain ⟨c, hc⟩ := isSome_iff_exists.mp (hs t mem_cons_self)
    have hx : c.next = x := (Sched.next_eq hc).symm.trans hl.1
    have hnext : (s.modify t f).next = s.next := by rw [Sched.modify_eq_mapOn, Sched.mapOn_next hf]
    have hnd : x ∉ l := (nodup_cons.mp hl.nodup).1
    simp only [walkLoop, hc, hx, if_neg hl.2.1]
    rw [ih (by rw [hnext]; exact hl.2.2) hnd ?_ (by simpa using hk), Sched.modify_mapOn _ ht]
    intro a ha
    have hsome := hs a (mem_cons_of_mem _ ha)
    rw [Sched.modify_tcb]
    split_ifs
    · simpa using hsome
    · exact hsome

theorem walkLoop_null (hf : ∀ c, (f c).next = c.next) (hstop : stop ≠ 0)
    (hl : Chain 0 s.next (s.next t) l) (hm : stop ∉ l) (h0 : s.tcb 0 = none) :
    walkLoop f stop k t s = none := by
  induction k generalizing l t s with
  | zero => rfl
  | succ k ih =>
    rw [walkLoop]
    cases hc : s.tcb t with
    | none => rfl
    | some c =>
      have hnext : (s.modify t f).next = s.next := by
        rw [Sched.modify_eq_mapOn, Sched.mapOn_next hf]
      have h0' : (s.modify t f).tcb 0 = none := by
        rw [Sched.modify_tcb]
        split_ifs <;> simp [h0]
      rw [Sched.next_eq hc] at hl
      cases l with
      | nil =>
        have hc0 : c.next = 0 := hl
        simp only [hc0, if_neg (Ne.symm hstop)]
        cases k with
        | zero => rfl
        | succ k => simp only [walkLoop, h0']
      | cons x l =>
        obtain rfl := hl.1
        have hne : c.next ≠ stop := fun h => hm (h ▸ mem_cons_self)
        simp only [if_neg hne]
        refine ih (l := l) ?_ (fun h => hm (mem_cons_of_mem _ h)) h0'
        rw [hnext]
        exact hl.2.2

end Walk

/-! ## The scan of `yield` -/

/-- The scan of `yield` stops at `a`. -/
def Sched.CanRun (s : Sched) (idle a : ℕ) : Prop := (s.tcb a).map Tcb.state = some .ready ∧ a ≠ idle

instance (s : Sched) (idle a : ℕ) : Decidable (s.CanRun idle a) := inferInstanceAs (Decidable (_ ∧ _))

theorem findReady_ends {idle stop : ℕ}
    (hl : Chain stop s.next (s.next t) l) (hs : ∀ a ∈ t :: l, (s.tcb a).isSome) (hk : l.length < k) :
    findReady idle stop k t s = some ((t :: l).find? fun a => s.CanRun idle a) := by
  induction l generalizing t k with
  | nil =>
    obtain ⟨k, rfl⟩ : ∃ k', k = k' + 1 := ⟨k - 1, by omega⟩
    obtain ⟨c, hc⟩ := isSome_iff_exists.mp (hs t mem_cons_self)
    have hstop : c.next = stop := (Sched.next_eq hc).symm.trans hl
    simp only [findReady, hc, hstop, if_true, find?_cons, find?_nil, Sched.CanRun,
      map_some, Option.some.injEq]
    by_cases hr : c.state = .ready ∧ t ≠ idle
    · rw [if_pos hr, decide_eq_true hr]
    · rw [if_neg hr, decide_eq_false hr]
  | cons x l ih =>
    obtain ⟨k, rfl⟩ : ∃ k', k = k' + 1 := ⟨k - 1, by omega⟩
    obtain ⟨c, hc⟩ := isSome_iff_exists.mp (hs t mem_cons_self)
    have hx : c.next = x := (Sched.next_eq hc).symm.trans hl.1
    have hrec := ih hl.2.2 (fun a ha => hs a (mem_cons_of_mem _ ha)) (k := k) (by simpa using hk)
    rw [find?_cons]
    simp only [findReady, hc, hx, if_neg hl.2.1, hrec]
    by_cases hr : c.state = .ready ∧ t ≠ idle
    · have hcan : s.CanRun idle t := by simpa [Sched.CanRun, hc] using hr
      rw [if_pos hr, decide_eq_true hcan]
    · have hcan : ¬ s.CanRun idle t := by simpa [Sched.CanRun, hc] using hr
      rw [if_neg hr, decide_eq_false hcan]

/-! ## Searches -/

theorem killLoop_true (hp : (s.tcb prev).isSome)
    (hpc : s.next prev = curr) (h : killLoop id k prev curr s = some (true, s')) :
    ∃ p t c, (s.tcb p).isSome ∧ s.next p = t ∧ s.tcb t = some c ∧ c.id = id ∧
      s' = (s.setNext p c.next).bury t (-1) := by
  induction k generalizing prev curr with
  | zero => simp [killLoop] at h
  | succ k ih =>
    rw [killLoop] at h
    cases hc : s.tcb curr with
    | none => simp [hc] at h
    | some c =>
      simp only [hc] at h
      split_ifs at h with h1 h2
      · simp only [Option.some.injEq, Prod.mk.injEq, true_and] at h
        exact ⟨prev, curr, c, hp, hpc, hc, h1, h.symm⟩
      · simp at h
      · exact ih (by simp [hc]) (Sched.next_eq hc) h

theorem killLoop_false (h : killLoop id k prev curr s = some (false, s')) : s' = s := by
  induction k generalizing prev curr with
  | zero => simp [killLoop] at h
  | succ k ih =>
    rw [killLoop] at h
    cases hc : s.tcb curr with
    | none => simp [hc] at h
    | some c =>
      simp only [hc] at h
      split_ifs at h with h1 h2
      · simp at h
      · simpa using h.symm
      · exact ih h

theorem killLoop_ends (id : ℕ) {l : List ℕ} {prev curr : ℕ} {s : Sched}
    (hl : Chain s.currentThread s.next curr l) (hne : l ≠ []) (hs : ∀ a ∈ l, (s.tcb a).isSome) :
    ∃ r, ∀ k, l.length ≤ k → killLoop id k prev curr s = some r := by
  induction l generalizing prev curr with
  | nil => exact absurd rfl hne
  | cons x l ih =>
    obtain rfl := hl.1
    obtain ⟨c, hc⟩ := isSome_iff_exists.mp (hs curr mem_cons_self)
    have hlt : ∀ k, (curr :: l).length ≤ k → ∃ k', k = k' + 1 := fun k hk =>
      ⟨k - 1, by simp only [length_cons] at hk; omega⟩
    by_cases hid : c.id = id
    · refine ⟨(true, (s.setNext prev c.next).bury curr (-1)), fun k hk => ?_⟩
      obtain ⟨k, rfl⟩ := hlt k hk
      simp only [killLoop, hc, if_pos hid]
    have hrest := hl.2.2
    rw [Sched.next_eq hc] at hrest
    by_cases hend : c.next = s.currentThread
    · refine ⟨(false, s), fun k hk => ?_⟩
      obtain ⟨k, rfl⟩ := hlt k hk
      simp only [killLoop, hc, if_neg hid, if_pos hend]
    have hl' : l ≠ [] := by
      rintro rfl
      exact hend hrest
    obtain ⟨r, hr⟩ := @ih curr _ hrest hl' fun a ha => hs a (mem_cons_of_mem _ ha)
    refine ⟨r, fun k hk => ?_⟩
    obtain ⟨k, rfl⟩ := hlt k hk
    simp only [killLoop, hc, if_neg hid, if_neg hend]
    exact hr k (by simpa using hk)

theorem findPrev_eq {p : ℕ} (h : findPrev self k prev s = some p) :
    (s.tcb p).isSome ∧ s.next p = self := by
  induction k generalizing prev with
  | zero => simp [findPrev] at h
  | succ k ih =>
    rw [findPrev] at h
    cases hc : s.tcb prev with
    | none => simp [hc] at h
    | some c =>
      simp only [hc] at h
      split_ifs at h with h1
      · cases h
        exact ⟨by simp [hc], (Sched.next_eq hc).trans h1⟩
      · exact ih h

theorem findPrev_ends (hl : Chain self s.next (s.next prev) l) (hs : ∀ a ∈ prev :: l, (s.tcb a).isSome) :
    ∃ p, ∀ k, l.length < k → findPrev self k prev s = some p := by
  induction l generalizing prev with
  | nil =>
    obtain ⟨c, hc⟩ := isSome_iff_exists.mp (hs prev mem_cons_self)
    refine ⟨prev, fun k hk => ?_⟩
    obtain ⟨k, rfl⟩ : ∃ k', k = k' + 1 := ⟨k - 1, by omega⟩
    simp only [findPrev, hc, if_pos ((Sched.next_eq hc).symm.trans hl)]
  | cons x l ih =>
    obtain ⟨c, hc⟩ := isSome_iff_exists.mp (hs prev mem_cons_self)
    have hx : c.next = x := (Sched.next_eq hc).symm.trans hl.1
    obtain ⟨p, hp⟩ := ih hl.2.2 fun a ha => hs a (mem_cons_of_mem _ ha)
    refine ⟨p, fun k hk => ?_⟩
    obtain ⟨k, rfl⟩ : ∃ k', k = k' + 1 := ⟨k - 1, by omega⟩
    simp only [findPrev, hc, hx, if_neg hl.2.1]
    exact hp k (by simpa using hk)

/-! ## Releasing -/

theorem cleanupLoop_ends (hl : Chain 0 s.next curr l)
    (hs : ∀ a ∈ l, (s.tcb a).isSome) (hk : l.length < k) :
    cleanupLoop k curr s = some { s with
      tcb := fun a => if a ∈ l then none else s.tcb a
      released := l.reverse ++ s.released } := by
  induction l generalizing curr k s with
  | nil =>
    obtain ⟨k, rfl⟩ : ∃ k', k = k' + 1 := ⟨k - 1, by omega⟩
    have h0 : curr = 0 := hl
    simp [cleanupLoop, h0]
  | cons x l ih =>
    obtain ⟨k, rfl⟩ : ∃ k', k = k' + 1 := ⟨k - 1, by omega⟩
    obtain rfl := hl.1
    obtain ⟨c, hc⟩ := isSome_iff_exists.mp (hs curr mem_cons_self)
    have hnd : curr ∉ l := (nodup_cons.mp hl.nodup).1
    have hne : ∀ a ∈ l, a ≠ curr := fun a ha h => hnd (h ▸ ha)
    have hrest := hl.2.2
    rw [Sched.next_eq hc] at hrest
    simp only [cleanupLoop, hl.2.1, if_false, hc]
    have hsome : ∀ a ∈ l, (Function.update s.tcb curr none a).isSome := fun a ha => by
      simpa [hne a ha] using hs a (mem_cons_of_mem _ ha)
    rw [ih (hrest.congr fun a ha => ?_) hsome (by simpa using hk)]
    · rw [Option.some.injEq, Sched.mk.injEq]
      refine ⟨?_, rfl, rfl, rfl, rfl, by simp⟩
      funext a
      by_cases ha : a = curr
      · subst ha
        simp
      · simp [ha]
    · simp [Sched.next, hne a ha]

end KeonOS
