import KeonOS.Sched.Queue

/-!
# What a step does to one thread

Every change of a thread's state and of the current thread, once for all scheduler steps.

* **`Queue.step_state`**, **`Queue.step_current`**: there are no others;
* `Sched.Queued`, **`Queue.step_queued`**: a thread leaves the run queue as a zombie;
* **`Queue.wakeup_not_blocked`**: after `thread_wakeup_blocked` no thread of the run queue is blocked;
* **`ended_thread_stays_gone`**: a thread that has ended never runs again.
-/

namespace KeonOS

open List

inductive StateChange (s : Sched) (op : SchedOp) (t : ℕ) : ThreadState → ThreadState → Prop
  | same (st : ThreadState) : StateChange s op t st st
  | ended (st : ThreadState) : StateChange s op t st .zombie
  | slept : StateChange s op t .sleeping .ready
  | woken : op = .wakeup → StateChange s op t .blocked .ready
  | block (st : ThreadState) : op = .block → t = s.currentThread → StateChange s op t st .blocked
  | sleep (st : ThreadState) (ms : ℕ) : op = .sleep ms → t = s.currentThread →
      StateChange s op t st .sleeping

theorem wakeSleeper_state (c : Tcb) :
    (wakeSleeper c).state = c.state ∨ c.state = .sleeping ∧ (wakeSleeper c).state = .ready := by
  unfold wakeSleeper
  split_ifs with h
  · exact .inr ⟨h.1, rfl⟩
  · exact .inl rfl

theorem tickSleeper_state (c : Tcb) :
    (tickSleeper c).state = c.state ∨ c.state = .sleeping ∧ (tickSleeper c).state = .ready := by
  by_cases h : c.state = .sleeping
  · simp only [tickSleeper, if_pos h]
    split_ifs <;> simp [h]
  · simp only [tickSleeper, if_neg h, true_or]

theorem wakeBlocked_state (c : Tcb) :
    (wakeBlocked c).state = c.state ∨ c.state = .blocked ∧ (wakeBlocked c).state = .ready := by
  unfold wakeBlocked
  split_ifs with h
  · exact .inr ⟨h, rfl⟩
  · exact .inl rfl

theorem wakeBlocked_ne_blocked (c : Tcb) : (wakeBlocked c).state ≠ .blocked := by
  unfold wakeBlocked
  split_ifs with h
  · exact ThreadState.noConfusion
  · exact h

section

variable {s : Sched} {op : SchedOp} {t : ℕ} {c : Tcb}

variable {ring : List ℕ} {f : Tcb → Tcb}

theorem afterWalk_stateChange (cur : ℕ) (hc : s.tcb t = some c)
    (hf : StateChange s op t c.state (f c).state) :
    ∃ c', (s.afterWalk ring f cur).tcb t = some c' ∧ StateChange s op t c.state c'.state := by
  simp only [Sched.afterWalk, Sched.mapOn, hc, Option.map_some]
  split_ifs
  · exact ⟨_, rfl, hf⟩
  · exact ⟨_, rfl, StateChange.same _⟩

theorem stateChange_of_sleeper (h : (f c).state = c.state ∨ c.state = .sleeping ∧ (f c).state = .ready) :
    StateChange s op t c.state (f c).state := by
  rcases h with h | ⟨h, h'⟩
  · rw [h]
    exact StateChange.same _
  · rw [h, h']
    exact StateChange.slept

theorem ticked_stateChange (cur : ℕ) (hc : s.tcb t = some c) :
    ∃ c', ((s.afterWalk ring tickSleeper s.currentThread).afterWalk ring wakeSleeper cur).tcb t =
      some c' ∧ StateChange s op t c.state c'.state := by
  simp only [Sched.afterWalk, Sched.mapOn, hc, Option.map_some]
  split_ifs
  · refine ⟨_, rfl, ?_⟩
    rcases tickSleeper_state c with h | ⟨h, h'⟩
    · rw [← h]
      exact stateChange_of_sleeper (wakeSleeper_state _)
    have hw : (wakeSleeper (tickSleeper c)).state = .ready := by
      rcases wakeSleeper_state (tickSleeper c) with hw | hw
      · exact hw.trans h'
      · exact hw.2
    rw [h, hw]
    exact StateChange.slept
  · exact ⟨_, rfl, StateChange.same _⟩

theorem modify_stateChange (hc : s.tcb t = some c)
    (hf : t = s.currentThread → StateChange s op t c.state (f c).state) :
    ∃ c', (s.modify s.currentThread f).tcb t = some c' ∧ StateChange s op t c.state c'.state := by
  rw [Sched.modify_tcb]
  split_ifs with h
  · exact ⟨_, by rw [hc]; rfl, hf h⟩
  · exact ⟨c, hc, StateChange.same _⟩

end

def Sched.Queued (s : Sched) (t : ℕ) : Prop :=
  ∃ xs, LinkRing s.next s.idleThread xs ∧ t ∈ s.idleThread :: xs

/-- The thread has ended, or is not in memory, and does not run. -/
def Sched.Gone (s : Sched) (t : ℕ) : Prop :=
  s.currentThread ≠ t ∧ ∀ c, s.tcb t = some c → c.state = .zombie

namespace Queue

variable {kernel : ℕ} {created : List ℕ} {s s' : Sched} {ring zombies : List ℕ} {op : SchedOp}
  {t : ℕ} {c : Tcb} (q : Queue kernel created s ring zombies)
include q

theorem queued_iff : s.Queued t ↔ t ∈ s.idleThread :: ring := by
  constructor
  · rintro ⟨xs, hxs, ht⟩
    rwa [q.cycle.unique hxs]
  · exact fun ht => ⟨ring, q.cycle, ht⟩

theorem step_state (h : SchedStep s op s') (hc : s.tcb t = some c) :
    op = .cleanup ∧ s'.tcb t = none ∨ ∃ c', s'.tcb t = some c' ∧ StateChange s op t c.state c'.state := by
  cases q.step_effect h with
  | nothing => exact .inr ⟨c, hc, StateChange.same _⟩
  | @added u d hu hnew hd =>
    right
    by_cases htc : t = s.currentThread
    · subst htc
      refine ⟨{ d with next := u }, by simp [Sched.withThread, ne_of_fresh hd hnew], ?_⟩
      rw [Option.some.inj (hc.symm.trans hd)]
      exact StateChange.same _
    · exact ⟨c, by simp [Sched.withThread, ne_of_fresh hc hnew, htc, hc], StateChange.same _⟩
  | @unlinked _ p u d code _ hp hpu hd hid =>
    right
    have hui : u ≠ s.idleThread := fun h => hid (q.ids.system u d hd (.inr h))
    have hne := (q.unlink_lists code hp hpu hd hui).1
    by_cases htu : t = u
    · subst htu
      exact ⟨_, Sched.unlinked_self code hd hne, StateChange.ended _⟩
    have hsome : ((s.unlinked p u d code).tcb t).isSome := by
      rw [Sched.unlinked_isSome, hc]
      rfl
    obtain ⟨c', hc'⟩ := Option.isSome_iff_exists.mp hsome
    obtain ⟨c'', h1, -, h2⟩ := Sched.unlinked_tcb hd hne hc'
    refine ⟨c', hc', ?_⟩
    rw [h2 htu, Option.some.inj (hc.symm.trans h1)]
    exact StateChange.same _
  | yielded => exact .inr (afterWalk_stateChange _ hc (stateChange_of_sleeper (wakeSleeper_state c)))
  | ticked => exact .inr (ticked_stateChange _ hc)
  | woken =>
    refine .inr (afterWalk_stateChange _ hc ?_)
    rcases wakeBlocked_state c with h | ⟨h, h'⟩
    · rw [h]
      exact StateChange.same _
    · rw [h, h']
      exact StateChange.woken rfl
  | cleaned =>
    by_cases hz : t ∈ zombies
    · exact .inl ⟨rfl, by simp [Sched.cleaned, hz]⟩
    · exact .inr ⟨c, by simp [Sched.cleaned, hz, hc], StateChange.same _⟩
  | blocked => exact .inr (modify_stateChange hc fun ht => StateChange.block _ rfl ht)
  | slept => exact .inr (modify_stateChange hc fun ht => StateChange.sleep _ _ rfl ht)

theorem step_fresh (h : SchedStep s op s')
    (hnone : s.tcb t = none) (hc : s'.tcb t = some c) : c.state = .ready ∧ t ∈ op.created := by
  cases q.step_effect h with
  | added hu _ hd =>
    rcases Sched.withThread_tcb hd hc with ⟨rfl, -, h1⟩ | ⟨d', hd', -⟩
    · exact ⟨h1, by simp [SchedOp.created, hu]⟩
    · rw [hnone] at hd'
      exact absurd hd' (by simp)
  | @unlinked _ p u d code =>
    have hsome := Sched.unlinked_isSome s p u d code t
    rw [hc, hnone] at hsome
    exact absurd hsome (by simp)
  | nothing => simp [hnone] at hc
  | yielded => simp [Sched.afterWalk, Sched.mapOn, hnone] at hc
  | ticked => simp [Sched.afterWalk, Sched.mapOn, hnone] at hc
  | woken => simp [Sched.afterWalk, Sched.mapOn, hnone] at hc
  | cleaned => simp [Sched.cleaned, hnone] at hc
  | blocked => simp [Sched.setState, Sched.modify_tcb, hnone] at hc
  | slept => simp [Sched.modify_tcb, hnone] at hc

theorem step_isSome (h : SchedStep s op s')
    (hop : op ≠ .cleanup) (hc : s.tcb t = some c) : (s'.tcb t).isSome := by
  rcases q.step_state h hc with ⟨h0, -⟩ | ⟨c', hc', -⟩
  · exact absurd h0 hop
  · rw [hc']
    rfl

theorem step_current (h : SchedStep s op s') :
    s'.currentThread = s.currentThread ∨ s'.currentThread = s.idleThread ∨
      (s'.tcb s'.currentThread).map Tcb.state = some .ready := by
  cases q.step_effect h with
  | yielded _ hrdy => exact .inr hrdy
  | ticked _ _ hrdy => exact .inr hrdy
  | _ => exact .inl rfl

theorem yield_current (h : SchedStep s .yield s') :
    s'.currentThread = s.idleThread ∨ (s'.tcb s'.currentThread).map Tcb.state = some .ready := by
  cases q.step_effect h with
  | nothing hop => rcases hop with h | ⟨id, h⟩ <;> cases h
  | unlinked hop => rcases hop with ⟨h, -⟩ | ⟨h, -⟩ <;> cases h
  | yielded _ hrdy => exact hrdy

theorem step_queued (h : SchedStep s op s')
    (ht : s.Queued t) : s'.Queued t ∨ (s'.tcb t).map Tcb.state = some .zombie := by
  have hm := q.queued_iff.mp ht
  cases q.step_effect h with
  | nothing => exact .inl ht
  | added hu hnew hd =>
    obtain ⟨ring', zombies', hcyc, -, hcases⟩ := q.add_lists hu hnew hd
    refine .inl ⟨ring', hcyc, ?_⟩
    rcases hcases with ⟨hperm, -⟩ | ⟨rfl, -⟩
    · rcases mem_cons.mp hm with h | h
      · exact mem_cons.mpr (.inl h)
      · exact mem_cons_of_mem _ (hperm.mem_iff.mpr (mem_cons_of_mem _ h))
    · exact hm
  | @unlinked _ p u d code _ hp hpu hd hid =>
    have hui : u ≠ s.idleThread := fun h => hid (q.ids.system u d hd (.inr h))
    obtain ⟨hne, hcyc, -⟩ := q.unlink_lists code hp hpu hd hui
    by_cases htu : t = u
    · subst htu
      exact .inr (by rw [Sched.unlinked_self code hd hne]; rfl)
    · refine .inl ⟨ring.erase u, hcyc, ?_⟩
      rcases mem_cons.mp hm with h | h
      · exact mem_cons.mpr (.inl h)
      · exact mem_cons_of_mem _ ((mem_erase_of_ne htu).mpr h)
  | yielded hcur _ => exact .inl ((q.afterWalk wakeSleeper_keeps hcur).queued_iff.mpr hm)
  | ticked hex hcur _ =>
    have q₁ := q.afterWalk tickSleeper_keeps (q.current_mem hex)
    exact .inl ((q₁.afterWalk wakeSleeper_keeps hcur).queued_iff.mpr hm)
  | woken hex =>
    exact .inl ((q.afterWalk wakeBlocked_keeps (q.current_mem hex)).queued_iff.mpr hm)
  | cleaned hex => exact .inl ((q.cleanup hex).queued_iff.mpr hm)
  | blocked hex =>
    have q₁ : Queue kernel created (s.setState s.currentThread .blocked) ring zombies :=
      q.setCurrent hex (fun _ => rfl) (fun _ => rfl) fun _ => ThreadState.noConfusion
    exact .inl (q₁.queued_iff.mpr hm)
  | @slept ms hex =>
    have q₁ : Queue kernel created (s.modify s.currentThread fun c =>
        { c with sleepTicks := sleepTicksOf ms, state := .sleeping }) ring zombies :=
      q.setCurrent hex (fun _ => rfl) (fun _ => rfl) fun _ => ThreadState.noConfusion
    exact .inl (q₁.queued_iff.mpr hm)

theorem wakeup_not_blocked (h : SchedStep s .wakeup s')
    (ht : s.Queued t) : (s'.tcb t).map Tcb.state ≠ some .blocked := by
  have hm := q.queued_iff.mp ht
  cases q.step_effect h with
  | nothing hop => rcases hop with h | ⟨id, h⟩ <;> cases h
  | unlinked hop => rcases hop with ⟨h, -⟩ | ⟨h, -⟩ <;> cases h
  | woken hex =>
    simp only [Sched.afterWalk, Sched.mapOn, if_pos hm]
    cases s.tcb t with
    | none => simp
    | some c => simpa using wakeBlocked_ne_blocked c

theorem step_gone (h : SchedStep s op s') (hg : s.Gone t) (hop : t ∉ op.created) : s'.Gone t := by
  have hstate : ∀ c', s'.tcb t = some c' → c'.state = .zombie := by
    intro c' hc'
    cases hc : s.tcb t with
    | none => exact absurd (q.step_fresh h hc hc').2 hop
    | some c =>
      rcases q.step_state h hc with ⟨-, hnone⟩ | ⟨d, hd, hchange⟩
      · cases hnone.symm.trans hc'
      obtain rfl := Option.some.inj (hd.symm.trans hc')
      rw [hg.2 c hc] at hchange
      generalize d.state = st at hchange ⊢
      cases hchange with
      | same => rfl
      | ended => rfl
      | block _ _ ht => exact absurd ht.symm hg.1
      | sleep _ _ _ ht => exact absurd ht.symm hg.1
  refine ⟨fun hcur => ?_, hstate⟩
  rcases q.step_current h with hsame | hidle | hready
  · exact hg.1 (hsame.symm.trans hcur)
  · -- the idle thread does not end
    obtain ⟨c, hc⟩ := Option.isSome_iff_exists.mp (q.isSome_ring _ mem_cons_self)
    exact q.live _ mem_cons_self c hc (hg.2 c (by rw [← hcur, hidle, hc]))
  · rw [hcur] at hready
    obtain ⟨c', hc', hrdy⟩ := Option.map_eq_some_iff.mp hready
    rw [hstate c' hc'] at hrdy
    cases hrdy

end Queue

/-- **A thread that has ended never runs again**, unless a new one is created at its address. -/
theorem ended_thread_stays_gone {kernel idle t : ℕ} (hk : kernel ≠ 0) (hi : idle ≠ 0) (hki : kernel ≠ idle)
    {s s' : Sched} (hg : s.Gone t) (hrun : Relation.ReflTransGen (fun s s' => ∃ created op,
      SchedReach kernel idle created s ∧ t ∉ op.created ∧ SchedStep s op s') s s') : s'.Gone t := by
  induction hrun with
  | refl => exact hg
  | tail _ hlater ih =>
    obtain ⟨created, op, hreach, hop, hstep⟩ := hlater
    obtain ⟨-, ring, zombies, q⟩ := hreach.queue hk hi hki
    exact q.step_gone hstep ih hop

theorem ended_thread_stays_gone_kill : ∃ s s', SchedReach 1 2 [3] s ∧
    (s.tcb 3).map Tcb.state = some .zombie ∧ SchedStep s .yield s' ∧ s'.currentThread ≠ 3 := by
  have h1 := SchedReach.step (.add 3) (@SchedReach.init 1 2)
    ⟨.inr rfl, Ends.of_eq fun _ => threadAdd_eq (by decide) (by decide) rfl⟩ (by decide)
  have h2 := SchedReach.step (.kill 1) h1 ⟨trivial, 5, fun k hk => by
    obtain ⟨k, rfl⟩ := Nat.exists_eq_add_of_le' hk
    rfl⟩ (by decide)
  obtain ⟨-, ring, zombies, q⟩ := h2.queue (by decide) (by decide) (by decide)
  obtain ⟨s', hyield⟩ := q.returns (show SchedOp.Callable .yield _ from ⟨trivial, fun _ => rfl, nofun⟩)
  have hstep : SchedStep _ .yield s' := ⟨trivial, hyield⟩
  have hgone := ended_thread_stays_gone (t := 3) (by decide) (by decide) (by decide)
    ⟨by decide, fun c hc => by cases hc; rfl⟩ (.single ⟨_, .yield, h2, not_mem_nil, hstep⟩)
  exact ⟨_, s', h2, rfl, hstep, hgone.1⟩

end KeonOS
