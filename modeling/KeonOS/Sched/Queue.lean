import KeonOS.Sched.Loops

/-!
# The run queue

In every state that the scheduler reaches, the threads in memory are those of a ring through the idle
thread and those of the zombie list.

* `Queue.sameLinks`, **`Queue.add`**, **`Queue.unlink`**, **`Queue.cleanup`**: the steps keep it;
* **`run_queue_intact`**: what holds in every state reached.
-/

namespace KeonOS

open List Option

/-! ## The invariant -/

/-- The ids: the two system threads have id 0, and no other id occurs twice. -/
structure ThreadIds (kernel n : ℕ) (s : Sched) : Prop where
  nextId : s.nextThreadId = (n + 1) % 2 ^ 32
  count : n < 2 ^ 32
  le : ∀ a c, s.tcb a = some c → c.id ≤ n
  system : ∀ a c, s.tcb a = some c → a = kernel ∨ a = s.idleThread → c.id = 0
  unique : ∀ a b c d, s.tcb a = some c → s.tcb b = some d → c.id = d.id → c.id ≠ 0 → a = b

variable {kernel n idle a t id : ℕ} {s s' : Sched} {xs : List ℕ} {f : Tcb → Tcb} {c d : Tcb}

theorem ThreadIds.congr (h : ThreadIds kernel n s)
    (hid : ∀ a c', s'.tcb a = some c' → ∃ c, s.tcb a = some c ∧ c'.id = c.id)
    (hnext : s'.nextThreadId = s.nextThreadId) (hidle : s'.idleThread = s.idleThread) :
    ThreadIds kernel n s' := by
  refine ⟨hnext.trans h.nextId, h.count, fun a c' hc' => ?_, fun a c' hc' hsys => ?_,
    fun a b c' d' hc' hd' heq h0 => ?_⟩
  · obtain ⟨c, hc, hk⟩ := hid a c' hc'
    exact hk ▸ h.le a c hc
  · obtain ⟨c, hc, hk⟩ := hid a c' hc'
    rw [hidle] at hsys
    exact hk.trans (h.system a c hc hsys)
  · obtain ⟨c, hc, hk⟩ := hid a c' hc'
    obtain ⟨d, hd, hk'⟩ := hid b d' hd'
    rw [hk] at h0
    rw [hk, hk'] at heq
    exact h.unique a b c d hc hd heq h0

structure Queue (kernel : ℕ) (created : List ℕ) (s : Sched) (ring zombies : List ℕ) : Prop where
  cycle : LinkRing s.next s.idleThread ring
  kernel_mem : kernel ∈ ring
  list : Chain 0 s.next s.zombieListHead zombies
  nodup : (s.idleThread :: ring ++ zombies).Nodup
  alloc : ∀ a, (s.tcb a).isSome ↔ a ∈ s.idleThread :: ring ++ zombies
  null : s.tcb 0 = none
  accounts : (kernel :: s.idleThread :: created).Perm (s.released ++ (s.idleThread :: ring ++ zombies))
  live : ∀ a ∈ s.idleThread :: ring, ∀ c, s.tcb a = some c → c.state ≠ .zombie
  current : s.currentThread ∈ s.idleThread :: ring ∨ s.Exiting ∧ s.currentThread ∈ zombies
  ids : ThreadIds kernel created.length s

theorem queue_init (hk : kernel ≠ 0) (hi : idle ≠ 0) (hki : kernel ≠ idle) :
    Queue kernel [] (threadInit kernel idle) [kernel] [] := by
  have hkt : (threadInit kernel idle).tcb kernel = some { newTcb with next := idle } := by
    simp [threadInit, hki]
  have hit : (threadInit kernel idle).tcb idle = some { newTcb with next := kernel } := by
    simp [threadInit]
  have hother : ∀ a, a ≠ kernel → a ≠ idle → (threadInit kernel idle).tcb a = none := by
    intro a ha ha'
    simp [threadInit, ha, ha']
  have hcases : ∀ a c, (threadInit kernel idle).tcb a = some c →
      (a = kernel ∨ a = idle) ∧ c.id = 0 ∧ c.state = .ready := by
    intro a c hc
    by_cases h1 : a = kernel
    · subst h1
      rw [hkt] at hc
      cases hc
      exact ⟨.inl rfl, rfl, rfl⟩
    by_cases h2 : a = idle
    · subst h2
      rw [hit] at hc
      cases hc
      exact ⟨.inr rfl, rfl, rfl⟩
    · rw [hother a h1 h2] at hc
      exact absurd hc (by simp)
  refine
    { cycle := ⟨Sched.next_eq hit, hki, Sched.next_eq hkt⟩
      kernel_mem := mem_singleton_self _
      list := rfl
      nodup := by simpa [threadInit] using Ne.symm hki
      alloc := fun a => ?_
      null := hother 0 (Ne.symm hk) (Ne.symm hi)
      accounts := List.Perm.swap _ _ _
      live := fun a _ c hc => ?_
      current := .inl (mem_cons_of_mem _ (mem_singleton_self _))
      ids := ⟨rfl, by norm_num, ?_, ?_, ?_⟩ }
  · constructor
    · intro ha
      obtain ⟨c, hc⟩ := isSome_iff_exists.mp ha
      rcases (hcases a c hc).1 with rfl | rfl
      · simp
      · exact mem_cons_self
    · intro ha
      rcases mem_cons.mp ha with rfl | ha
      · exact isSome_iff_exists.mpr ⟨_, hit⟩
      · rw [mem_singleton.mp ha, hkt]
        rfl
  · rw [(hcases a c hc).2.2]
    decide
  · exact fun a c hc => (hcases a c hc).2.1.le
  · exact fun a c hc _ => (hcases a c hc).2.1
  · exact fun a b c d hc _ _ h0 => absurd (hcases a c hc).2.1 h0

/-! ## Steps that keep the links -/

/-- The parts of a thread that the run queue rests on. -/
structure Tcb.Keeps (c c' : Tcb) : Prop where
  id : c'.id = c.id
  next : c'.next = c.next
  zombie : c'.state = .zombie → c.state = .zombie

structure SameLinks (s s' : Sched) : Prop where
  tcb : ∀ a, Option.Rel Tcb.Keeps (s.tcb a) (s'.tcb a)
  idleThread : s'.idleThread = s.idleThread
  nextThreadId : s'.nextThreadId = s.nextThreadId
  zombieListHead : s'.zombieListHead = s.zombieListHead
  released : s'.released = s.released

namespace SameLinks

variable {s s' : Sched}

theorem next (h : SameLinks s s') : s'.next = s.next := by
  funext a
  have ha := h.tcb a
  unfold Sched.next
  generalize s.tcb a = x at ha ⊢
  generalize s'.tcb a = y at ha ⊢
  cases ha with
  | none => rfl
  | some hk => exact hk.next

theorem isSome (h : SameLinks s s') (a : ℕ) : (s'.tcb a).isSome = (s.tcb a).isSome := by
  have ha := h.tcb a
  generalize s.tcb a = x at ha ⊢
  generalize s'.tcb a = y at ha ⊢
  cases ha <;> rfl

theorem exists_tcb (h : SameLinks s s') {c' : Tcb} (hc : s'.tcb a = some c') :
    ∃ c, s.tcb a = some c ∧ c.Keeps c' := by
  have ha := h.tcb a
  rw [hc] at ha
  generalize s.tcb a = x at ha ⊢
  cases ha with
  | some hk => exact ⟨_, rfl, hk⟩

end SameLinks

theorem Sched.sameLinks_mapOn (hf : ∀ a ∈ xs, ∀ c, s.tcb a = some c → c.Keeps (f c)) (cur : ℕ) :
    SameLinks s { s.mapOn xs f with currentThread := cur } := by
  refine ⟨fun a => ?_, rfl, rfl, rfl, rfl⟩
  simp only [Sched.mapOn]
  cases hc : s.tcb a with
  | none => simp
  | some c =>
    split_ifs with ha
    · exact Option.Rel.some (hf a ha c hc)
    · exact Option.Rel.some ⟨rfl, rfl, id⟩

theorem wakeSleeper_keeps (c : Tcb) : c.Keeps (wakeSleeper c) := by
  unfold wakeSleeper
  split_ifs with h
  · exact ⟨rfl, rfl, by simp [h.1]⟩
  · exact ⟨rfl, rfl, id⟩

theorem tickSleeper_keeps (c : Tcb) : c.Keeps (tickSleeper c) := by
  by_cases h : c.state = .sleeping
  · simp only [tickSleeper, if_pos h]
    constructor <;> split_ifs <;> simp [h]
  · simp only [tickSleeper, if_neg h]
    exact ⟨rfl, rfl, id⟩

theorem wakeBlocked_keeps (c : Tcb) : c.Keeps (wakeBlocked c) := by
  unfold wakeBlocked
  split_ifs with h
  · exact ⟨rfl, rfl, by simp [h]⟩
  · exact ⟨rfl, rfl, id⟩

namespace Queue

variable {kernel : ℕ} {created : List ℕ} {s s' : Sched} {ring zombies : List ℕ}
  (q : Queue kernel created s ring zombies)
include q

theorem ring_ne_nil : ring ≠ [] := fun h =>
  absurd (h ▸ q.kernel_mem) (by simp)

theorem isSome_ring : ∀ a ∈ s.idleThread :: ring, (s.tcb a).isSome := fun a ha =>
  (q.alloc a).mpr (mem_append_left _ ha)

theorem isSome_zombies :
    ∀ a ∈ zombies, (s.tcb a).isSome := fun a ha => (q.alloc a).mpr (mem_append_right _ ha)

theorem disjoint {b : ℕ} (ha : a ∈ s.idleThread :: ring) (hb : b ∈ zombies) : a ≠ b :=
  (nodup_append.mp q.nodup).2.2 a ha b hb

theorem ne_zero (ha : (s.tcb a).isSome) : a ≠ 0 := by
  rintro rfl
  rw [q.null] at ha
  exact absurd ha (by simp)

theorem current_mem (h : ¬ s.Exiting) :
    s.currentThread ∈ s.idleThread :: ring := q.current.resolve_right fun hz => h hz.1

theorem current_isSome : (s.tcb s.currentThread).isSome :=
  q.current.elim (q.isSome_ring _) fun h => q.isSome_zombies _ h.2

theorem sameLinks (h : SameLinks s s')
    (hcur : s'.currentThread ∈ s.idleThread :: ring ∨ s'.Exiting ∧ s'.currentThread ∈ zombies) :
    Queue kernel created s' ring zombies := by
  refine
    { cycle := by rw [h.next, h.idleThread]; exact q.cycle
      kernel_mem := q.kernel_mem
      list := by rw [h.next, h.zombieListHead]; exact q.list
      nodup := by rw [h.idleThread]; exact q.nodup
      alloc := fun a => by rw [h.isSome, h.idleThread]; exact q.alloc a
      null := ?_
      accounts := by rw [h.idleThread, h.released]; exact q.accounts
      live := fun a ha c' hc' => ?_
      current := by rw [h.idleThread]; exact hcur
      ids := ?_ }
  · have h0 := h.isSome 0
    rw [q.null] at h0
    simpa using h0
  · obtain ⟨c, hc, hk⟩ := h.exists_tcb hc'
    rw [h.idleThread] at ha
    exact fun hz => q.live a ha c hc (hk.zombie hz)
  · refine q.ids.congr (fun a c' hc' => ?_) h.nextThreadId h.idleThread
    obtain ⟨c, hc, hk⟩ := h.exists_tcb hc'
    exact ⟨c, hc, hk.id⟩

theorem setCurrent (hex : ¬ s.Exiting) (hid : ∀ c, (f c).id = c.id) (hnext : ∀ c, (f c).next = c.next)
    (hst : ∀ c, (f c).state ≠ .zombie) :
    Queue kernel created (s.modify s.currentThread f) ring zombies := by
  have hmem := q.current_mem hex
  rw [Sched.modify_eq_mapOn]
  refine q.sameLinks (Sched.sameLinks_mapOn (fun a _ c _ => ?_) s.currentThread) (.inl hmem)
  exact ⟨hid c, hnext c, fun h => absurd h (hst c)⟩

theorem setOther (ht : t ≠ s.currentThread)
    (hid : ∀ c, (f c).id = c.id) (hnext : ∀ c, (f c).next = c.next)
    (hst : ∀ c, (f c).state ≠ .zombie) : Queue kernel created (s.modify t f) ring zombies := by
  have hcur : (s.modify t f).tcb s.currentThread = s.tcb s.currentThread := by
    rw [Sched.modify_tcb, if_neg (Ne.symm ht)]
  have hlinks : SameLinks s (s.modify t f) := by
    rw [Sched.modify_eq_mapOn]
    exact Sched.sameLinks_mapOn (fun a _ c _ => ⟨hid c, hnext c, fun h => absurd h (hst c)⟩)
      s.currentThread
  refine q.sameLinks hlinks (q.current.imp_right fun h => ⟨?_, h.2⟩)
  obtain ⟨c, hc, hz⟩ := h.1
  exact ⟨c, hcur.trans hc, hz⟩

end Queue

/-! ## Adding a thread -/

/-- What `thread_add` leaves: the new thread stands after the current one, `c`. -/
def Sched.withThread (s : Sched) (t : ℕ) (c : Tcb) : Sched :=
  { s with
    tcb := fun a =>
      if a = t then some { newTcb with id := s.nextThreadId, next := c.next }
      else if a = s.currentThread then some { c with next := t } else s.tcb a
    nextThreadId := (s.nextThreadId + 1) % 2 ^ 32 }

theorem ne_of_fresh (hc : s.tcb a = some c) (hnew : s.tcb t = none) : a ≠ t := by
  rintro rfl
  rw [hnew] at hc
  exact absurd hc (by simp)

theorem threadAdd_eq (ht : t ≠ 0) (hne : s.currentThread ≠ t)
    (hc : s.tcb s.currentThread = some c) : threadAdd t s = some (s.withThread t c) := by
  simp only [threadAdd, if_neg ht, Function.update_of_ne hne, hc, map_some, Option.some.injEq]
  rw [Sched.setNext, Sched.setNext, Sched.modify, Sched.withThread, Sched.mk.injEq]
  refine ⟨?_, rfl, rfl, rfl, rfl, rfl⟩
  funext a
  by_cases ha : a = s.currentThread
  · subst ha
    simp [Sched.modify, hne, hc]
  · by_cases hat : a = t
    · subst hat
      simp [Sched.modify, ha]
    · simp [Sched.modify, ha, hat]

theorem Sched.withThread_tcb
    (hc : s.tcb s.currentThread = some c) (h : (s.withThread t c).tcb a = some d) :
    a = t ∧ d.id = s.nextThreadId ∧ d.state = .ready ∨
      ∃ d', s.tcb a = some d' ∧ d.id = d'.id ∧ d.state = d'.state := by
  unfold Sched.withThread at h
  dsimp only at h
  split_ifs at h with h1 h2
  · cases h
    exact .inl ⟨h1, rfl, rfl⟩
  · cases h
    exact .inr ⟨c, h2 ▸ hc, rfl, rfl⟩
  · exact .inr ⟨d, h, rfl, rfl⟩

theorem ThreadIds.add (h : ThreadIds kernel n s)
    (hn : n + 1 < 2 ^ 32) (hc : s.tcb s.currentThread = some c) (hk : t ≠ kernel)
    (hi : t ≠ s.idleThread) : ThreadIds kernel (n + 1) (s.withThread t c) := by
  have hid : s.nextThreadId = n + 1 := h.nextId.trans (Nat.mod_eq_of_lt hn)
  refine ⟨?_, hn, fun a d hd => ?_, fun a d hd hsys => ?_, fun a b d e hd he heq h0 => ?_⟩
  · change (s.nextThreadId + 1) % 2 ^ 32 = _
    rw [hid]
  · rcases Sched.withThread_tcb hc hd with ⟨-, h1, -⟩ | ⟨d', hd', h1, -⟩
    · exact (h1.trans hid).le
    · exact h1 ▸ (h.le a d' hd').trans (Nat.le_succ n)
  · rcases Sched.withThread_tcb hc hd with ⟨rfl, -, -⟩ | ⟨d', hd', h1, -⟩
    · exact absurd hsys (not_or.mpr ⟨hk, hi⟩)
    · exact h1.trans (h.system a d' hd' hsys)
  · -- the new id is above all the others
    rcases Sched.withThread_tcb hc hd with ⟨ha, h1, -⟩ | ⟨d', hd', h1, -⟩ <;>
      rcases Sched.withThread_tcb hc he with ⟨hb, h2, -⟩ | ⟨e', he', h2, -⟩
    · exact ha.trans hb.symm
    · have := h.le b e' he'
      omega
    · have := h.le a d' hd'
      omega
    · exact h.unique a b d' e' hd' he' (by omega) (by omega)

namespace Queue

variable {kernel : ℕ} {created : List ℕ} {s s' : Sched} {ring zombies : List ℕ}

theorem add_lists (q : Queue kernel created s ring zombies) (ht : t ≠ 0)
    (hnew : s.tcb t = none) (hc : s.tcb s.currentThread = some c) :
    ∃ ring' zombies', LinkRing (s.withThread t c).next s.idleThread ring' ∧
      Chain 0 (s.withThread t c).next s.zombieListHead zombies' ∧
      (ring'.Perm (t :: ring) ∧ zombies' = zombies ∨
        ring' = ring ∧ zombies'.Perm (t :: zombies) ∧ s.Exiting) := by
  have hold : ∀ a ∈ s.idleThread :: ring ++ zombies, a ≠ t := fun a ha hat => by
    have := (q.alloc a).mpr ha
    rw [hat, hnew] at this
    exact absurd this (by simp)
  have hring : ∀ a ∈ s.idleThread :: ring, a ≠ t := fun a ha => hold a (mem_append_left _ ha)
  have hzom : ∀ a ∈ zombies, a ≠ t := fun a ha => hold a (mem_append_right _ ha)
  have hnext : ∀ a, a ≠ t → a ≠ s.currentThread → (s.withThread t c).next a = s.next a := by
    intro a h1 h2
    simp [Sched.next, Sched.withThread, h1, h2]
  have hnt : (s.withThread t c).next t = s.next s.currentThread := by
    rw [Sched.next_eq hc]
    simp [Sched.next, Sched.withThread]
  rcases q.current with hm | ⟨hex, hm⟩
  · have hnc : (s.withThread t c).next s.currentThread = t := by
      simp [Sched.next, Sched.withThread, hring _ hm]
    obtain ⟨ring', h1, h2⟩ := q.cycle.exists_insert hm (Ne.symm (hring _ mem_cons_self)) hnc hnt
      fun a ha => hnext a (hring a ha)
    refine ⟨ring', zombies, h1, q.list.congr fun a ha => ?_, .inl ⟨h2, rfl⟩⟩
    exact hnext a (hzom a ha) (Ne.symm (q.disjoint hm ha))
  · have hnc : (s.withThread t c).next s.currentThread = t := by
      simp [Sched.next, Sched.withThread, hzom _ hm]
    obtain ⟨zombies', h1, h2⟩ := q.list.exists_insert hm ht hnc hnt fun a ha => hnext a (hzom a ha)
    refine ⟨ring, zombies', q.cycle.congr fun a ha => ?_, h1, .inr ⟨rfl, h2, hex⟩⟩
    exact hnext a (hring a ha) (q.disjoint ha hm)

theorem add (q : Queue kernel created s ring zombies) (ht : t ≠ 0)
    (hnew : s.tcb t = none) (hc : s.tcb s.currentThread = some c)
    (hcount : (t :: created).length < 2 ^ 32) :
    ∃ ring' zombies', Queue kernel (t :: created) (s.withThread t c) ring' zombies' := by
  obtain ⟨ring', zombies', hcyc, hlist, hcases⟩ := q.add_lists ht hnew hc
  have hnot : t ∉ s.idleThread :: ring ++ zombies := by
    rw [← q.alloc t, hnew]
    simp
  have hsub : ∀ a ∈ ring, a ∈ ring' := by
    rcases hcases with ⟨h, -⟩ | ⟨rfl, -, -⟩
    · exact fun a ha => h.mem_iff.mpr (mem_cons_of_mem _ ha)
    · exact fun a ha => ha
  have hperm : (s.idleThread :: ring' ++ zombies').Perm (t :: (s.idleThread :: ring ++ zombies)) := by
    rcases hcases with ⟨h, rfl⟩ | ⟨rfl, h, -⟩
    · exact (((h.cons _).trans (List.Perm.swap _ _ _)).append_right _)
    · exact (h.append_left _).trans perm_middle
  have hcur : (s.withThread t c).tcb s.currentThread = some { c with next := t } := by
    simp [Sched.withThread, ne_of_fresh hc hnew]
  have hkm := mem_append_left zombies (mem_cons_of_mem s.idleThread q.kernel_mem)
  have him : s.idleThread ∈ s.idleThread :: ring ++ zombies := mem_cons_self
  refine ⟨ring', zombies',
    { cycle := hcyc
      kernel_mem := hsub _ q.kernel_mem
      list := hlist
      nodup := hperm.nodup_iff.mpr (nodup_cons.mpr ⟨hnot, q.nodup⟩)
      alloc := fun a => ?_
      null := ?_
      accounts := ?_
      live := fun a ha d hd => ?_
      current := ?_
      ids := q.ids.add hcount hc (fun h => hnot (h ▸ hkm)) fun h => hnot (h ▸ him) }⟩
  · rw [show a ∈ (s.withThread t c).idleThread :: ring' ++ zombies' ↔ _ from hperm.mem_iff,
      mem_cons, ← q.alloc a]
    unfold Sched.withThread
    dsimp only
    split_ifs with h1 h2
    · simp [h1]
    · simp [h2, hc]
    · simp [h1]
  · have h0 : s.currentThread ≠ 0 := q.ne_zero q.current_isSome
    simp [Sched.withThread, Ne.symm ht, Ne.symm h0, q.null]
  · have h1 : (kernel :: s.idleThread :: t :: created).Perm (t :: kernel :: s.idleThread :: created) :=
      @List.perm_middle _ t [kernel, s.idleThread] created
    exact h1.trans ((q.accounts.cons t).trans
      (perm_middle.symm.trans (hperm.symm.append_left s.released)))
  · rcases Sched.withThread_tcb hc hd with ⟨-, -, h1⟩ | ⟨d', hd', -, h1⟩
    · rw [h1]
      decide
    rw [h1]
    refine q.live a ?_ d' hd'
    rcases hcases with ⟨h, -⟩ | ⟨rfl, -, -⟩
    · have hat : a ≠ t := ne_of_fresh hd' hnew
      rcases mem_cons.mp ha with rfl | ha
      · exact mem_cons_self
      · exact mem_cons_of_mem _ ((mem_cons.mp (h.mem_iff.mp ha)).resolve_left hat)
    · exact ha
  · rcases q.current with hm | ⟨⟨e, he, hz⟩, hm⟩
    · left
      rcases mem_cons.mp hm with h | h
      · exact mem_cons.mpr (.inl h)
      · exact mem_cons_of_mem _ (hsub _ h)
    right
    obtain rfl := Option.some.inj (hc.symm.trans he)
    refine ⟨⟨_, hcur, hz⟩, ?_⟩
    rcases hcases with ⟨-, rfl⟩ | ⟨-, h, -⟩
    · exact hm
    · exact h.mem_iff.mpr (mem_cons_of_mem _ hm)

end Queue

/-! ## Unlinking a thread -/

namespace Sched

variable {s : Sched} {p t : ℕ} {c : Tcb} {code : ℤ}

/-- What `thread_kill` and `thread_exit` do with a thread `t` that they find after `p`. -/
def unlinked (s : Sched) (p t : ℕ) (c : Tcb) (code : ℤ) : Sched := (s.setNext p c.next).bury t code

theorem unlinked_self (code : ℤ) (hc : s.tcb t = some c) (hpt : p ≠ t) : (s.unlinked p t c code).tcb t =
      some { c with state := .zombie, exitCode := code, next := s.zombieListHead } := by
  simp [unlinked, bury, modify_tcb, setNext, Ne.symm hpt, hc]

theorem unlinked_other {a : ℕ} (hat : a ≠ t) : (s.unlinked p t c code).tcb a =
      if a = p then (s.tcb a).map fun d => { d with next := c.next } else s.tcb a := by
  simp [unlinked, bury, modify_tcb, setNext, hat]

theorem unlinked_tcb (hc : s.tcb t = some c) (hpt : p ≠ t) (h : (s.unlinked p t c code).tcb a = some d) :
    ∃ d', s.tcb a = some d' ∧ d.id = d'.id ∧ (a ≠ t → d.state = d'.state) := by
  by_cases hat : a = t
  · subst hat
    rw [unlinked_self code hc hpt] at h
    cases h
    exact ⟨c, hc, rfl, fun h => absurd rfl h⟩
  · rw [unlinked_other hat] at h
    split_ifs at h with hap
    · obtain ⟨d', hd', rfl⟩ := map_eq_some_iff.mp h
      exact ⟨d', hd', rfl, fun _ => rfl⟩
    · exact ⟨d, h, rfl, fun _ => rfl⟩

theorem unlinked_isSome (s : Sched) (p t : ℕ) (c : Tcb) (code : ℤ) (a : ℕ) :
    ((s.unlinked p t c code).tcb a).isSome = (s.tcb a).isSome := by
  simp only [unlinked, bury, modify_tcb, setNext]
  split_ifs <;> simp

theorem unlinked_exiting (hc : s.tcb t = some c) (hpt : p ≠ t) (hct : s.currentThread ≠ t)
    (h : s.Exiting) : (s.unlinked p t c code).Exiting := by
  obtain ⟨e, he, hz⟩ := h
  have hsome : ((s.unlinked p t c code).tcb s.currentThread).isSome := by
    rw [unlinked_isSome, he]
    rfl
  obtain ⟨d, hd⟩ := isSome_iff_exists.mp hsome
  obtain ⟨d', hd', -, hst⟩ := unlinked_tcb hc hpt hd
  obtain rfl := Option.some.inj (he.symm.trans hd')
  exact ⟨d, hd, (hst hct).trans hz⟩

theorem unlinked_next_self (hc : s.tcb t = some c) (hpt : p ≠ t) :
    (s.unlinked p t c code).next t = s.zombieListHead := next_eq (unlinked_self code hc hpt)

theorem unlinked_next_before (hp : (s.tcb p).isSome) (hpt : p ≠ t) :
    (s.unlinked p t c code).next p = c.next := by
  obtain ⟨d, hd⟩ := isSome_iff_exists.mp hp
  rw [next, unlinked_other hpt, if_pos rfl, hd]
  rfl

theorem unlinked_next_other (hap : a ≠ p) (hat : a ≠ t) : (s.unlinked p t c code).next a = s.next a := by
  rw [next, unlinked_other hat, if_neg hap]
  rfl

end Sched

namespace Queue

variable {kernel : ℕ} {created : List ℕ} {s : Sched} {ring zombies : List ℕ} {p t : ℕ} {c : Tcb}
  {code : ℤ} (q : Queue kernel created s ring zombies)
include q

theorem same_list (hp : (s.tcb p).isSome) (hpt : s.next p = t) (hc : s.tcb t = some c) :
    p ∈ s.idleThread :: ring ∧ t ∈ s.idleThread :: ring ∨ p ∈ zombies ∧ t ∈ zombies := by
  rcases mem_append.mp ((q.alloc p).mp hp) with hm | hm
  · exact .inl ⟨hm, hpt ▸ q.cycle.next_mem hm⟩
  · refine .inr ⟨hm, (hpt ▸ q.list.next_mem hm).resolve_left ?_⟩
    exact q.ne_zero (by simp [hc])

theorem unlink_lists (code : ℤ) (hp : (s.tcb p).isSome)
    (hpt : s.next p = t) (hc : s.tcb t = some c) (hti : t ≠ s.idleThread) :
    p ≠ t ∧ LinkRing (s.unlinked p t c code).next s.idleThread (ring.erase t) ∧
      Chain 0 (s.unlinked p t c code).next t (t :: zombies.erase t) ∧
      (ring.erase t ++ t :: zombies.erase t).Perm (ring ++ zombies) := by
  have ht0 : t ≠ 0 := q.ne_zero (by simp [hc])
  rcases q.same_list hp hpt hc with ⟨hpm, htm⟩ | ⟨hpm, htm⟩
  · have hne : p ≠ t := fun h => q.cycle.next_ne q.ring_ne_nil hpm (hpt.trans h.symm)
    have htr : t ∈ ring := (mem_cons.mp htm).resolve_left hti
    have htz : t ∉ zombies := fun h => q.disjoint htm h rfl
    have hnext : (s.unlinked p t c code).next p = s.next t := by
      rw [Sched.unlinked_next_before hp hne, Sched.next_eq hc]
    rw [erase_of_not_mem htz]
    refine ⟨hne, q.cycle.erase hpm hpt hti hnext fun a _ h1 h2 => Sched.unlinked_next_other h1 h2,
      ⟨rfl, ht0, ?_⟩, ?_⟩
    · rw [Sched.unlinked_next_self hc hne]
      exact q.list.congr fun a ha =>
        Sched.unlinked_next_other (Ne.symm (q.disjoint hpm ha)) (Ne.symm (q.disjoint htm ha))
    · exact perm_middle.trans ((perm_cons_erase htr).symm.append_right zombies)
  · have hne : p ≠ t := fun h => q.list.next_ne hpm (hpt.trans h.symm)
    have htr : t ∉ ring := fun h => q.disjoint (mem_cons_of_mem _ h) htm rfl
    have hnext : (s.unlinked p t c code).next p = s.next t := by
      rw [Sched.unlinked_next_before hp hne, Sched.next_eq hc]
    rw [erase_of_not_mem htr]
    refine ⟨hne, q.cycle.congr fun a ha =>
        Sched.unlinked_next_other (q.disjoint ha hpm) (q.disjoint ha htm), ⟨rfl, ht0, ?_⟩, ?_⟩
    · rw [Sched.unlinked_next_self hc hne]
      exact q.list.erase hpm hpt ht0 hnext fun a _ h1 h2 => Sched.unlinked_next_other h1 h2
    · exact (perm_cons_erase htm).symm.append_left ring

theorem unlink (hp : (s.tcb p).isSome) (hpt : s.next p = t) (hc : s.tcb t = some c) (hid : c.id ≠ 0) :
    Queue kernel created (s.unlinked p t c code) (ring.erase t) (t :: zombies.erase t) := by
  have hti : t ≠ s.idleThread := fun h => hid (q.ids.system t c hc (.inr h))
  have htk : t ≠ kernel := fun h => hid (q.ids.system t c hc (.inl h))
  obtain ⟨hne, hcyc, hlist, hperm⟩ := q.unlink_lists code hp hpt hc hti
  have hperm' : (s.idleThread :: ring.erase t ++ t :: zombies.erase t).Perm
      (s.idleThread :: ring ++ zombies) := hperm.cons s.idleThread
  refine
    { cycle := hcyc
      kernel_mem := (mem_erase_of_ne (Ne.symm htk)).mpr q.kernel_mem
      list := hlist
      nodup := hperm'.nodup_iff.mpr q.nodup
      alloc := fun a => ?_
      null := ?_
      accounts := q.accounts.trans (hperm'.symm.append_left s.released)
      live := fun a ha d hd => ?_
      current := ?_
      ids := q.ids.congr (fun a d hd => ?_) rfl rfl }
  · rw [Sched.unlinked_isSome, q.alloc a]
    exact hperm'.mem_iff.symm
  · have h0 := Sched.unlinked_isSome s p t c code 0
    rw [q.null] at h0
    simpa using h0
  · have hat : a ≠ t := by
      rintro rfl
      have hnd := (nodup_append.mp (hperm'.nodup_iff.mpr q.nodup)).2.2
      exact hnd a ha a mem_cons_self rfl
    obtain ⟨d', hd', -, hst⟩ := Sched.unlinked_tcb hc hne hd
    rw [hst hat]
    refine q.live a ?_ d' hd'
    rcases mem_cons.mp ha with h | h
    · exact mem_cons.mpr (.inl h)
    · exact mem_cons_of_mem _ (mem_of_mem_erase h)
  · by_cases hct : s.currentThread = t
    · have hself := Sched.unlinked_self code hc hne
      rw [← congrArg (s.unlinked p t c code).tcb hct] at hself
      exact .inr ⟨⟨_, hself, rfl⟩, mem_cons.mpr (.inl hct)⟩
    rcases q.current with hm | ⟨hex, hm⟩
    · left
      rcases mem_cons.mp hm with h | h
      · exact mem_cons.mpr (.inl h)
      · exact mem_cons_of_mem _ ((mem_erase_of_ne hct).mpr h)
    · exact .inr ⟨Sched.unlinked_exiting hc hne hct hex,
        mem_cons_of_mem _ ((mem_erase_of_ne hct).mpr hm)⟩
  · obtain ⟨d', hd', h1, -⟩ := Sched.unlinked_tcb hc hne hd
    exact ⟨d', hd', h1⟩

variable {k : ℕ}

theorem kill_true (h : threadKill k id s = some (true, s')) :
    ∃ p t c, (s.tcb p).isSome ∧ s.next p = t ∧ s.tcb t = some c ∧ c.id = id ∧ id ≠ 0 ∧
      s' = s.unlinked p t c (-1) := by
  obtain ⟨cur, hcur⟩ := isSome_iff_exists.mp q.current_isSome
  obtain ⟨idle, hidle⟩ := isSome_iff_exists.mp (q.isSome_ring _ mem_cons_self)
  simp only [threadKill, hcur, hidle, bind_some] at h
  split_ifs at h with h1
  · simp at h
  · obtain ⟨p, t, c, hp, hpt, hc, hid, hs'⟩ := killLoop_true q.current_isSome (Sched.next_eq hcur) h
    exact ⟨p, t, c, hp, hpt, hc, hid, fun h0 => h1 (.inr (.inr h0)), hs'⟩

omit q in
theorem kill_false (h : threadKill k id s = some (false, s')) : s' = s := by
  obtain ⟨cur, -, h⟩ := bind_eq_some_iff.mp h
  obtain ⟨idle, -, h⟩ := bind_eq_some_iff.mp h
  split_ifs at h with h1
  · simpa using h.symm
  · exact killLoop_false h

omit q in
theorem exit_eq (h : threadExitUnlink k code s = some s') :
    ∃ p c, (s.tcb p).isSome ∧ s.next p = s.currentThread ∧ s.tcb s.currentThread = some c ∧
      c.id ≠ 0 ∧ s' = s.unlinked p s.currentThread c code := by
  obtain ⟨c, hc, h⟩ := bind_eq_some_iff.mp h
  split_ifs at h with h1
  obtain ⟨p, hp, rfl⟩ := map_eq_some_iff.mp h
  obtain ⟨hp', hpc⟩ := findPrev_eq hp
  exact ⟨p, c, hp', hpc, hc, fun h0 => h1 (.inl h0), rfl⟩

end Queue

/-! ## Releasing the zombies -/

def Sched.cleaned (s : Sched) (zombies : List ℕ) : Sched :=
  { s with
    tcb := fun a => if a ∈ zombies then none else s.tcb a
    zombieListHead := 0
    released := zombies.reverse ++ s.released }

namespace Queue

variable {kernel : ℕ} {created : List ℕ} {s : Sched} {ring zombies : List ℕ}

theorem cleanup_ends (q : Queue kernel created s ring zombies) :
    Ends (fun k => cleanupList k s) (s.cleaned zombies) :=
  ⟨zombies.length + 1, fun _ hk =>
    cleanupLoop_ends (s := { s with zombieListHead := 0 }) q.list q.isSome_zombies hk⟩

theorem cleanup (q : Queue kernel created s ring zombies) (hex : ¬ s.Exiting) :
    Queue kernel created (s.cleaned zombies) ring [] := by
  have hring : ∀ a ∈ s.idleThread :: ring, a ∉ zombies := fun a ha hz => q.disjoint ha hz rfl
  have htcb : ∀ a d, (s.cleaned zombies).tcb a = some d → s.tcb a = some d := by
    intro a d hd
    simp only [Sched.cleaned] at hd
    split_ifs at hd
    exact hd
  refine
    { cycle := q.cycle.congr fun a ha => ?_
      kernel_mem := q.kernel_mem
      list := rfl
      nodup := (append_nil (s.idleThread :: ring)).symm ▸ (nodup_append.mp q.nodup).1
      alloc := fun a => ?_
      null := ?_
      accounts := ?_
      live := fun a ha d hd => q.live a ha d (htcb a d hd)
      current := .inl (q.current_mem hex)
      ids := q.ids.congr (fun a d hd => ⟨d, htcb a d hd, rfl⟩) rfl rfl }
  · simp only [Sched.next, Sched.cleaned, if_neg (hring a ha)]
  · have hiff := q.alloc a
    simp only [Sched.cleaned, append_nil]
    by_cases hz : a ∈ zombies
    · simp only [if_pos hz, isSome_none, Bool.false_eq_true, false_iff]
      exact fun ha => hring a ha hz
    · rw [if_neg hz, hiff]
      simp [hz]
  · simp [Sched.cleaned, q.null]
  · have h1 : (s.released ++ (s.idleThread :: ring ++ zombies)).Perm
        (zombies.reverse ++ s.released ++ (s.idleThread :: ring)) := by
      rw [← append_assoc, append_assoc zombies.reverse]
      exact perm_append_comm.trans ((reverse_perm zombies).symm.append_right _)
    simpa [Sched.cleaned] using q.accounts.trans h1

end Queue

/-! ## Walks round the ring -/

def Sched.afterWalk (s : Sched) (ring : List ℕ) (f : Tcb → Tcb) (cur : ℕ) : Sched :=
  { s.mapOn (s.idleThread :: ring) f with currentThread := cur }

theorem Sched.mapOn_congr {ys : List ℕ} (f : Tcb → Tcb) (h : ∀ a, a ∈ xs ↔ a ∈ ys) :
    s.mapOn xs f = s.mapOn ys f := by
  simp only [Sched.mapOn, h]

namespace Queue

variable {kernel : ℕ} {created : List ℕ} {s : Sched} {ring zombies : List ℕ} {f : Tcb → Tcb}
  (q : Queue kernel created s ring zombies)
include q

theorem afterWalk (hf : ∀ c : Tcb, c.Keeps (f c)) {cur : ℕ} (hcur : cur ∈ s.idleThread :: ring) :
    Queue kernel created (s.afterWalk ring f cur) ring zombies :=
  q.sameLinks (Sched.sameLinks_mapOn (fun _ _ c _ => hf c) cur) (.inl hcur)

theorem walk_ends (hf : ∀ c : Tcb, c.Keeps (f c)) (ht : t ∈ s.idleThread :: ring) :
    Ends (fun k => walkLoop f t k t s) (s.mapOn (s.idleThread :: ring) f) := by
  obtain ⟨l, hl, hmem⟩ := q.cycle.exists_rotate ht
  refine ⟨l.length + 1, fun k hk => ?_⟩
  rw [← Sched.mapOn_congr f hmem]
  exact walkLoop_ends (fun c => (hf c).next) hl hl.notMem
    (fun a ha => q.isSome_ring a ((hmem a).mp ha)) hk

theorem walk_exiting (hf : ∀ c : Tcb, c.Keeps (f c))
    (hex : s.Exiting) (k : ℕ) : walkLoop f s.currentThread k s.currentThread s = none := by
  have hm : s.currentThread ∈ zombies := by
    rcases q.current with hm | ⟨-, hm⟩
    · obtain ⟨c, hc, hz⟩ := hex
      exact absurd hz (q.live _ hm c hc)
    · exact hm
  obtain ⟨us, vs, rfl⟩ := append_of_mem hm
  have hnd := (nodup_append.mp q.list.nodup).2.1
  exact walkLoop_null (fun c => (hf c).next) (q.ne_zero q.current_isSome) q.list.next_of_append
    (nodup_cons.mp hnd).1 q.null

theorem wakeup_ends (hex : ¬ s.Exiting) :
    Ends (fun k => threadWakeupBlocked k s) (s.afterWalk ring wakeBlocked s.currentThread) := by
  have h0 : s.currentThread ≠ 0 := q.ne_zero q.current_isSome
  simp only [threadWakeupBlocked, if_neg h0]
  exact q.walk_ends wakeBlocked_keeps (q.current_mem hex)

theorem yield_ends : ∃ cur, Ends (fun k => schedYield k s) (s.afterWalk ring wakeSleeper cur) ∧
      cur ∈ s.idleThread :: ring ∧
      (cur = s.idleThread ∨
        ((s.afterWalk ring wakeSleeper cur).tcb cur).map Tcb.state = some .ready) := by
  obtain ⟨prev, hprev⟩ := isSome_iff_exists.mp q.current_isSome
  have hidle : s.idleThread ∈ s.idleThread :: ring := mem_cons_self
  -- the walk starts at the thread after `start`, which is in the run queue in both cases
  have hstart : (if prev.state = .zombie then s.idleThread else s.currentThread) ∈
      s.idleThread :: ring := by
    split_ifs with hz
    · exact hidle
    · exact q.current_mem (Sched.not_exiting hprev hz)
  obtain ⟨start, hst⟩ := isSome_iff_exists.mp (q.isSome_ring _ hstart)
  have hb : start.next ∈ s.idleThread :: ring := Sched.next_eq hst ▸ q.cycle.next_mem hstart
  obtain ⟨l, hl, hmem⟩ := q.cycle.exists_rotate hb
  have h0 : ¬ (s.currentThread = 0 ∨ s.idleThread = 0) :=
    not_or.mpr ⟨q.ne_zero q.current_isSome, q.ne_zero (q.isSome_ring _ hidle)⟩
  set s₁ := s.mapOn (s.idleThread :: ring) wakeSleeper with hs₁
  have q₁ := q.afterWalk wakeSleeper_keeps hidle
  have hlinks : SameLinks s s₁ :=
    Sched.sameLinks_mapOn (fun _ _ c _ => wakeSleeper_keeps c) s.currentThread
  have hscan : Ends (fun k => findReady s₁.idleThread start.next k start.next s₁)
      ((start.next :: l).find? fun a => s₁.CanRun s.idleThread a) := by
    refine ⟨l.length + 1, fun k hk => findReady_ends (by rw [hlinks.next]; exact hl) (fun a ha => ?_) hk⟩
    exact q₁.isSome_ring a ((hmem a).mp ha)
  obtain ⟨prev₁, hprev₁⟩ : ∃ c, s₁.tcb s.currentThread = some c := by
    simp only [hs₁, Sched.mapOn, hprev]
    split_ifs <;> exact ⟨_, rfl⟩
  generalize hr : ((start.next :: l).find? fun a => decide (s₁.CanRun s.idleThread a)) = r at hscan
  refine ⟨nextToRun s₁ prev₁ r, ?_, ?_⟩
  · simp only [schedYield, if_neg h0, hprev, hst, bind_some]
    refine (q.walk_ends wakeSleeper_keeps hb).bind (hscan.bind (Ends.of_eq fun k => ?_))
    rw [show s₁.currentThread = s.currentThread from rfl, hprev₁]
    rfl
  cases r with
  | some a =>
    have hcan : s₁.CanRun s.idleThread a := by simpa using find?_some hr
    exact ⟨(hmem a).mp (mem_of_find?_eq_some hr), .inr hcan.1⟩
  | none =>
    simp only [nextToRun]
    split_ifs with hrdy
    · refine ⟨q.current_mem ?_, .inr ?_⟩
      · rintro ⟨c, hc, hz⟩
        have hsame : wakeSleeper c = c := by simp [wakeSleeper, hz]
        have hc₁ : s₁.tcb s.currentThread = some c := by
          simp only [hs₁, Sched.mapOn, hc, map_some, hsame, ite_self]
        rw [Option.some.inj (hprev₁.symm.trans hc₁), hz] at hrdy
        exact ThreadState.noConfusion hrdy
      · change (s₁.tcb s.currentThread).map Tcb.state = _
        rw [hprev₁, map_some, hrdy]
    · exact ⟨hidle, .inl rfl⟩

theorem tick_ends (hex : ¬ s.Exiting) : ∃ cur, Ends (fun k => timerHandler k s)
        ((s.afterWalk ring tickSleeper s.currentThread).afterWalk ring wakeSleeper cur) ∧
      cur ∈ s.idleThread :: ring ∧
      (cur = s.idleThread ∨
        (((s.afterWalk ring tickSleeper s.currentThread).afterWalk ring wakeSleeper cur).tcb
          cur).map Tcb.state = some .ready) := by
  have h0 : s.currentThread ≠ 0 := q.ne_zero q.current_isSome
  obtain ⟨cur, hcur, hrest⟩ := (q.afterWalk tickSleeper_keeps (q.current_mem hex)).yield_ends
  refine ⟨cur, ?_, hrest⟩
  simp only [timerHandler, if_neg h0]
  exact (q.walk_ends tickSleeper_keeps (q.current_mem hex)).bind hcur

theorem kill_ends (hex : ¬ s.Exiting) (id : ℕ) : ∃ r, Ends (fun k => threadKill k id s) r := by
  obtain ⟨cur, hcur⟩ := isSome_iff_exists.mp q.current_isSome
  obtain ⟨idle, hidle⟩ := isSome_iff_exists.mp (q.isSome_ring _ mem_cons_self)
  simp only [threadKill, hcur, hidle, bind_some]
  split_ifs
  · exact ⟨_, Ends.of_eq fun _ => rfl⟩
  obtain ⟨l, hl, hmem⟩ := q.cycle.exists_rotate (q.current_mem hex)
  have hne : s.next s.currentThread ≠ s.currentThread :=
    q.cycle.next_ne q.ring_ne_nil (q.current_mem hex)
  have hl' : l ≠ [] := by
    rintro rfl
    exact hne hl
  have hsome : ∀ a ∈ l, (s.tcb a).isSome := fun a ha =>
    q.isSome_ring a ((hmem a).mp (mem_cons_of_mem _ ha))
  obtain ⟨r, hr⟩ := @killLoop_ends id l s.currentThread _ s hl hl' hsome
  refine ⟨r, l.length, fun k hk => ?_⟩
  rw [← Sched.next_eq hcur]
  exact hr k hk

theorem exit_ends (hex : ¬ s.Exiting) (code : ℤ) (hid : ∀ c, s.tcb s.currentThread = some c → c.id ≠ 0) :
    ∃ s', Ends (fun k => threadExitUnlink k code s) s' := by
  obtain ⟨c, hc⟩ := isSome_iff_exists.mp q.current_isSome
  have hsys : ¬ (c.id = 0 ∨ s.currentThread = s.idleThread) := by
    rintro (h | h)
    · exact hid c hc h
    · exact hid c hc (q.ids.system _ c hc (.inr h))
  obtain ⟨l, hl, hmem⟩ := q.cycle.exists_rotate (q.current_mem hex)
  obtain ⟨p, hp⟩ := findPrev_ends hl fun a ha => q.isSome_ring a ((hmem a).mp ha)
  simp only [threadExitUnlink, hc, bind_some, if_neg hsys]
  exact ⟨_, Ends.map _ ⟨l.length + 1, hp⟩⟩

end Queue

/-! ## Runs -/

inductive SchedEffect (s : Sched) (ring zombies : List ℕ) : SchedOp → Sched → Prop
  | nothing {op : SchedOp} : op = .add 0 ∨ (∃ id, op = .kill id) → SchedEffect s ring zombies op s
  | added {t : ℕ} {c : Tcb} : t ≠ 0 → s.tcb t = none → s.tcb s.currentThread = some c →
      SchedEffect s ring zombies (.add t) (s.withThread t c)
  | unlinked {op : SchedOp} {p t : ℕ} {c : Tcb} {code : ℤ} :
      op = .kill c.id ∧ code = -1 ∨ op = .exitUnlink code ∧ t = s.currentThread →
        (s.tcb p).isSome → s.next p = t → s.tcb t = some c → c.id ≠ 0 →
          SchedEffect s ring zombies op (s.unlinked p t c code)
  | yielded {cur : ℕ} : cur ∈ s.idleThread :: ring →
      (cur = s.idleThread ∨ ((s.afterWalk ring wakeSleeper cur).tcb cur).map Tcb.state = some .ready) →
      SchedEffect s ring zombies .yield (s.afterWalk ring wakeSleeper cur)
  | ticked {cur : ℕ} : ¬ s.Exiting → cur ∈ s.idleThread :: ring →
      (cur = s.idleThread ∨
        (((s.afterWalk ring tickSleeper s.currentThread).afterWalk ring wakeSleeper cur).tcb
          cur).map Tcb.state = some .ready) →
      SchedEffect s ring zombies .tick
        ((s.afterWalk ring tickSleeper s.currentThread).afterWalk ring wakeSleeper cur)
  | woken : ¬ s.Exiting →
      SchedEffect s ring zombies .wakeup (s.afterWalk ring wakeBlocked s.currentThread)
  | cleaned : ¬ s.Exiting → SchedEffect s ring zombies .cleanup (s.cleaned zombies)
  | blocked : ¬ s.Exiting →
      SchedEffect s ring zombies .block (s.setState s.currentThread .blocked)
  | slept {ms : ℕ} : ¬ s.Exiting →
      SchedEffect s ring zombies (.sleep ms) (s.modify s.currentThread fun c =>
        { c with sleepTicks := sleepTicksOf ms, state := .sleeping })

def SchedOp.Returns (op : SchedOp) (s : Sched) : Prop := ∃ s', Ends (fun fuel => op.run fuel s) s'

/-- In the middle of `thread_exit` only `yield`, and no `thread_exit` of the system threads. -/
def SchedOp.Callable (op : SchedOp) (s : Sched) : Prop := op.Enabled s ∧ (s.Exiting → op = .yield) ∧
    ∀ code, op = .exitUnlink code → ∀ c, s.tcb s.currentThread = some c → c.id ≠ 0

/-- `thread_kill(id)` has moved the thread `t` to the head of the zombie list, and no other. -/
structure KillMoves (s s' : Sched) (ring zombies : List ℕ) (id t : ℕ) : Prop where
  found : ∀ a, (s.tcb a).map Tcb.id = some id ↔ a = t
  cycle : LinkRing s'.next s.idleThread (ring.erase t)
  list : Chain 0 s'.next s'.zombieListHead (t :: zombies.erase t)
  others : ∀ a, a ≠ t → (s'.tcb a).map (fun c => { c with next := 0 }) =
    (s.tcb a).map fun c => { c with next := 0 }

namespace Queue

variable {kernel : ℕ} {created : List ℕ} {s s' : Sched} {ring zombies : List ℕ}
  (q : Queue kernel created s ring zombies)
include q

variable {op : SchedOp}

theorem step_effect (h : SchedStep s op s') :
    SchedEffect s ring zombies op s' := by
  obtain ⟨hen, hends⟩ := h
  cases op with
  | add t =>
    by_cases ht : t = 0
    · subst ht
      obtain rfl := hends.unique (Ends.of_eq fun _ => rfl)
      exact .nothing (.inl rfl)
    · obtain ⟨c, hc⟩ := isSome_iff_exists.mp q.current_isSome
      have hnew : s.tcb t = none := hen.resolve_left ht
      obtain rfl := hends.unique (Ends.of_eq fun _ => threadAdd_eq ht (ne_of_fresh hc hnew) hc)
      exact .added ht hnew hc
  | kill id =>
    obtain ⟨k, hk⟩ := hends.exists_eq
    obtain ⟨⟨b, s₁⟩, hr, rfl⟩ := map_eq_some_iff.mp hk
    cases b with
    | false =>
      obtain rfl := kill_false hr
      exact .nothing (.inr ⟨id, rfl⟩)
    | true =>
      obtain ⟨p, t, c, hp, hpt, hc, hid, h0, rfl⟩ := q.kill_true hr
      exact .unlinked (.inl ⟨by rw [hid], rfl⟩) hp hpt hc (hid.symm ▸ h0)
  | exitUnlink code =>
    obtain ⟨k, hk⟩ := hends.exists_eq
    obtain ⟨p, c, hp, hpc, hc, hid, rfl⟩ := exit_eq hk
    exact .unlinked (.inr ⟨rfl, rfl⟩) hp hpc hc hid
  | yield =>
    obtain ⟨cur, hcur, hm, hrdy⟩ := q.yield_ends
    obtain rfl := hends.unique hcur
    exact .yielded hm hrdy
  | tick =>
    by_cases hex : s.Exiting
    · -- the walk meets the null pointer
      obtain ⟨k, hk⟩ := hends.exists_eq
      have h0 : s.currentThread ≠ 0 := q.ne_zero q.current_isSome
      simp [SchedOp.run, timerHandler, h0, q.walk_exiting tickSleeper_keeps hex] at hk
    · obtain ⟨cur, hcur, hm, hrdy⟩ := q.tick_ends hex
      obtain rfl := hends.unique hcur
      exact .ticked hex hm hrdy
  | wakeup =>
    by_cases hex : s.Exiting
    · obtain ⟨k, hk⟩ := hends.exists_eq
      have h0 : s.currentThread ≠ 0 := q.ne_zero q.current_isSome
      simp [SchedOp.run, threadWakeupBlocked, h0, q.walk_exiting wakeBlocked_keeps hex] at hk
    · obtain rfl := hends.unique (q.wakeup_ends hex)
      exact .woken hex
  | cleanup =>
    obtain rfl := hends.unique q.cleanup_ends
    exact .cleaned hen
  | block =>
    obtain rfl := hends.unique (Ends.of_eq fun _ => rfl)
    exact .blocked hen
  | sleep ms =>
    obtain rfl := hends.unique (Ends.of_eq fun _ => rfl)
    exact .slept hen

theorem step {op : SchedOp} (h : SchedStep s op s') (hcount : (op.created ++ created).length < 2 ^ 32) :
    s'.idleThread = s.idleThread ∧
      ∃ ring' zombies', Queue kernel (op.created ++ created) s' ring' zombies' := by
  cases q.step_effect h with
  | nothing hop =>
    have h0 : op.created = [] := by rcases hop with rfl | ⟨id, rfl⟩ <;> rfl
    rw [h0]
    exact ⟨rfl, ring, zombies, q⟩
  | added ht hnew hc =>
    simp only [SchedOp.created, if_neg ht, singleton_append] at hcount ⊢
    exact ⟨rfl, q.add ht hnew hc hcount⟩
  | unlinked hop hp hpt hc hid =>
    have h0 : op.created = [] := by rcases hop with ⟨rfl, -⟩ | ⟨rfl, -⟩ <;> rfl
    rw [h0]
    exact ⟨rfl, _, _, q.unlink hp hpt hc hid⟩
  | yielded hm _ => exact ⟨rfl, ring, zombies, q.afterWalk wakeSleeper_keeps hm⟩
  | ticked hex hm _ =>
    have q₁ := q.afterWalk tickSleeper_keeps (q.current_mem hex)
    exact ⟨rfl, ring, zombies, q₁.afterWalk wakeSleeper_keeps hm⟩
  | woken hex => exact ⟨rfl, ring, zombies, q.afterWalk wakeBlocked_keeps (q.current_mem hex)⟩
  | cleaned hex => exact ⟨rfl, ring, [], q.cleanup hex⟩
  | blocked hex =>
    exact ⟨rfl, ring, zombies,
      q.setCurrent hex (fun _ => rfl) (fun _ => rfl) fun _ => ThreadState.noConfusion⟩
  | slept hex =>
    exact ⟨rfl, ring, zombies,
      q.setCurrent hex (fun _ => rfl) (fun _ => rfl) fun _ => ThreadState.noConfusion⟩

theorem returns (h : op.Callable s) : op.Returns s := by
  obtain ⟨hen, hyield, hexit⟩ := h
  by_cases hex : s.Exiting
  · rw [hyield hex]
    obtain ⟨cur, hcur, -⟩ := q.yield_ends
    exact ⟨_, hcur⟩
  cases op with
  | add t =>
    by_cases ht : t = 0
    · exact ⟨s, Ends.of_eq fun _ => by simp [SchedOp.run, threadAdd, ht]⟩
    · obtain ⟨c, hc⟩ := isSome_iff_exists.mp q.current_isSome
      have hne := ne_of_fresh hc (hen.resolve_left ht)
      exact ⟨_, Ends.of_eq fun _ => threadAdd_eq ht hne hc⟩
  | kill id =>
    obtain ⟨r, hr⟩ := q.kill_ends hex id
    exact ⟨_, hr.map Prod.snd⟩
  | exitUnlink code => exact q.exit_ends hex code (hexit code rfl)
  | yield =>
    obtain ⟨cur, hcur, -⟩ := q.yield_ends
    exact ⟨_, hcur⟩
  | tick =>
    obtain ⟨cur, hcur, -⟩ := q.tick_ends hex
    exact ⟨_, hcur⟩
  | wakeup => exact ⟨_, q.wakeup_ends hex⟩
  | cleanup => exact ⟨_, q.cleanup_ends⟩
  | block => exact ⟨_, Ends.of_eq fun _ => rfl⟩
  | sleep ms => exact ⟨_, Ends.of_eq fun _ => rfl⟩

theorem killMoves
    (h : Ends (fun k => threadKill k id s) (true, s')) : ∃ t, KillMoves s s' ring zombies id t := by
  obtain ⟨k, hk⟩ := h.exists_eq
  obtain ⟨p, t, c, hp, hpt, hc, hid, h0, rfl⟩ := q.kill_true hk
  have hti : t ≠ s.idleThread := fun h => h0 (hid ▸ q.ids.system t c hc (.inr h))
  obtain ⟨hne, hcyc, hlist, -⟩ := q.unlink_lists (-1) hp hpt hc hti
  refine ⟨t, fun a => ⟨fun ha => ?_, fun ha => ?_⟩, hcyc, hlist, fun a hat => ?_⟩
  · obtain ⟨d, hd, hd'⟩ := map_eq_some_iff.mp ha
    exact q.ids.unique a t d c hd hc (hd'.trans hid.symm) (hd'.symm ▸ h0)
  · rw [ha, hc, map_some, hid]
  rw [Sched.unlinked_other hat]
  split_ifs
  · rw [Option.map_map]
    rfl
  · rfl

end Queue

theorem SchedReach.queue (hk : kernel ≠ 0) (hi : idle ≠ 0) (hki : kernel ≠ idle)
    {created : List ℕ} (h : SchedReach kernel idle created s) :
    s.idleThread = idle ∧ ∃ ring zombies, Queue kernel created s ring zombies := by
  induction h with
  | init => exact ⟨rfl, _, _, queue_init hk hi hki⟩
  | step op _ hstep hcount ih =>
    obtain ⟨hidle, ring, zombies, q⟩ := ih
    obtain ⟨hidle', hq⟩ := q.step hstep hcount
    exact ⟨hidle'.trans hidle, hq⟩

/-- **The run queue is intact in every state reached**: one ring through the idle and the kernel thread,
and a zombie list that shares no thread with it; each thread created is in one of them or has been
released, once; `thread_kill` moves one thread only; and no call faults or runs forever. -/
theorem run_queue_intact {kernel idle : ℕ} (hk : kernel ≠ 0) (hi : idle ≠ 0) (hki : kernel ≠ idle)
    {created : List ℕ} {s : Sched} (h : SchedReach kernel idle created s) :
    s.idleThread = idle ∧ ∃ ring zombies, Queue kernel created s ring zombies ∧
      (∀ id s', Ends (fun k => threadKill k id s) (true, s') → ∃ t, KillMoves s s' ring zombies id t) ∧
      ∀ op : SchedOp, op.Callable s → op.Returns s := by
  obtain ⟨hidle, ring, zombies, q⟩ := h.queue hk hi hki
  exact ⟨hidle, ring, zombies, q, fun _ _ hkill => q.killMoves hkill, fun _ hop => q.returns hop⟩

theorem run_queue_intact_kill :
    SchedReach 1 2 [3] ((threadInit 1 2).withThread 3 { newTcb with next := 2 }) ∧ ∃ ring zombies s',
        Ends (fun k => threadKill k 1 ((threadInit 1 2).withThread 3 { newTcb with next := 2 }))
          (true, s') ∧
        Queue 1 [3] ((threadInit 1 2).withThread 3 { newTcb with next := 2 }) ring zombies ∧
        KillMoves ((threadInit 1 2).withThread 3 { newTcb with next := 2 }) s' ring zombies 1 3 := by
  have hadd : threadAdd 3 (threadInit 1 2) =
      some ((threadInit 1 2).withThread 3 { newTcb with next := 2 }) :=
    threadAdd_eq (by decide) (by decide) rfl
  have hreach : SchedReach 1 2 [3] ((threadInit 1 2).withThread 3 { newTcb with next := 2 }) :=
    SchedReach.step (.add 3) SchedReach.init ⟨.inr rfl, Ends.of_eq fun _ => hadd⟩ (by decide)
  have hkill : Ends (fun k =>
      threadKill k 1 ((threadInit 1 2).withThread 3 { newTcb with next := 2 })) (true, _) :=
    ⟨1, fun k hk => by
      obtain ⟨k, rfl⟩ := Nat.exists_eq_add_of_le' hk
      rfl⟩
  obtain ⟨-, ring, zombies, q, hmoves, -⟩ := run_queue_intact (by decide) (by decide) (by decide) hreach
  obtain ⟨t, ht⟩ := hmoves 1 _ hkill
  obtain rfl : 3 = t := (ht.found 3).mp rfl
  exact ⟨hreach, ring, zombies, _, hkill, q, ht⟩

end KeonOS
