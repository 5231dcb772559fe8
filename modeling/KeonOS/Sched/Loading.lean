import KeonOS.Sched.Steps

/-!
# Programs that are being loaded

`kex_load` creates its thread with interrupts disabled, parks it as blocked, loads the segments with
interrupts enabled, and makes the thread ready at the end. Meanwhile interrupts come and other threads
run.

* `Parked`, **`Queue.parked_step`**: a parked thread stays parked under every step but
  `thread_wakeup_blocked`;
* **`no_half_loaded_thread_runs`**: what holds when no key wakes the blocked threads during a load.
-/

namespace KeonOS

open List

/-- The scheduler, and the threads whose `kex_load` has not finished. -/
structure Loads where
  sched : Sched
  loading : List ℕ

/-- The steps: those of the scheduler, and the sections of `kex_load` that touch it. -/
inductive LoadOp
  | sched (op : SchedOp)
  /-- `thread_add`, and `t->state = THREAD_BLOCKED` -/
  | start (t : ℕ)
  /-- `t->state = THREAD_READY` after the last segment -/
  | finish (t : ℕ)
  /-- `thread_kill(t->id)` when there is no frame for a segment -/
  | fail (t : ℕ)

def LoadOp.created : LoadOp → List ℕ
  | .sched op => op.created
  | .start t => SchedOp.created (.add t)
  | _ => []

/-- One step. A thread that `cleanup_zombies` has released is no longer one that is loaded. -/
inductive LoadStep : Loads → LoadOp → Loads → Prop
  | sched {L : Loads} {op : SchedOp} {s' : Sched} : SchedStep L.sched op s' →
      LoadStep L (.sched op) ⟨s', L.loading.filter fun t => (s'.tcb t).isSome⟩
  | noThread {L : Loads} : LoadStep L (.start 0) L
  | start {L : Loads} {t : ℕ} {s' : Sched} : t ≠ 0 → SchedStep L.sched (.add t) s' →
      LoadStep L (.start t) ⟨s'.setState t .blocked, t :: L.loading⟩
  | finish {L : Loads} {t : ℕ} : t ∈ L.loading → t ≠ L.sched.currentThread →
      LoadStep L (.finish t) ⟨L.sched.setState t .ready, L.loading.filter fun u => u ≠ t⟩
  | fail {L : Loads} {t : ℕ} {c : Tcb} {s' : Sched} : t ∈ L.loading → L.sched.tcb t = some c →
      SchedStep L.sched (.kill c.id) s' →
      LoadStep L (.fail t) ⟨s', L.loading.filter fun u => u ≠ t⟩

inductive LoadReach (ok : Loads → LoadOp → Prop) (kernel idle : ℕ) : List ℕ → Loads → Prop
  | init : LoadReach ok kernel idle [] ⟨threadInit kernel idle, []⟩
  | step {created : List ℕ} {L L' : Loads} (op : LoadOp) : LoadReach ok kernel idle created L →
      ok L op → LoadStep L op L' → (op.created ++ created).length < 2 ^ 32 →
        LoadReach ok kernel idle (op.created ++ created) L'

/-- No `thread_wakeup_blocked` while a program is being loaded. -/
def NoWakeupWhileLoading (L : Loads) (op : LoadOp) : Prop := op = .sched .wakeup → L.loading = []

/-! ## Parked threads -/

/-- The thread is not the current one and cannot be selected. -/
structure Parked (s : Sched) (t : ℕ) : Prop where
  not_idle : t ≠ s.idleThread
  not_current : t ≠ s.currentThread
  state : ∃ c, s.tcb t = some c ∧ (c.state = .blocked ∨ c.state = .zombie)

namespace Queue

variable {kernel : ℕ} {created : List ℕ} {s s' : Sched} {ring zombies : List ℕ} {op : SchedOp}
  {t : ℕ}

theorem parked_step (q : Queue kernel created s ring zombies) (h : SchedStep s op s')
    (hop : op ≠ .wakeup) (hidle : s'.idleThread = s.idleThread) (ht : Parked s t)
    (hsome : (s'.tcb t).isSome) : Parked s' t := by
  obtain ⟨c, hc, hst⟩ := ht.state
  have hstate : ∃ c', s'.tcb t = some c' ∧ (c'.state = .blocked ∨ c'.state = .zombie) := by
    rcases q.step_state h hc with ⟨-, hnone⟩ | ⟨c', hc', hch⟩
    · rw [hnone] at hsome
      exact absurd hsome (by simp)
    refine ⟨c', hc', ?_⟩
    generalize c.state = st at hst hch
    generalize c'.state = st' at hch
    cases hch with
    | same => exact hst
    | ended => exact .inr rfl
    | slept => simp at hst
    | woken hw => exact absurd hw hop
    | block _ _ hcur => exact absurd hcur ht.not_current
    | sleep _ _ _ hcur => exact absurd hcur ht.not_current
  refine ⟨hidle.symm ▸ ht.not_idle, fun htc => ?_, hstate⟩
  rcases q.step_current h with hcur | hcur | hcur
  · exact ht.not_current (htc.trans hcur)
  · exact ht.not_idle (htc.trans hcur)
  -- the selected thread is ready
  obtain ⟨c', hc', hst'⟩ := hstate
  rw [← htc, hc', Option.map_some, Option.some.injEq] at hcur
  rw [hcur] at hst'
  simp at hst'

theorem parked_start (q : Queue kernel created s ring zombies) (ht : t ≠ 0)
    (h : SchedStep s (.add t) s') : Parked (s'.setState t .blocked) t ∧ s.tcb t = none := by
  cases q.step_effect h with
  | nothing hop =>
    rcases hop with h0 | ⟨id, h0⟩
    · exact absurd (SchedOp.add.inj h0) ht
    · cases h0
  | @added _ c _ hnew hc =>
    obtain ⟨d, hd⟩ := Option.isSome_iff_exists.mp (q.isSome_ring _ mem_cons_self)
    refine ⟨⟨Ne.symm (ne_of_fresh hd hnew), Ne.symm (ne_of_fresh hc hnew), ?_⟩, hnew⟩
    rw [Sched.setState, Sched.modify_tcb, if_pos rfl]
    simp [Sched.withThread]
  | unlinked hop => rcases hop with ⟨h0, -⟩ | ⟨h0, -⟩ <;> cases h0

end Queue

theorem Parked.setOther {s : Sched} {t u : ℕ} {st : ThreadState} (h : Parked s t) (hut : t ≠ u) :
    Parked (s.setState u st) t := by
  obtain ⟨c, hc, hst⟩ := h.state
  refine ⟨h.not_idle, h.not_current, c, ?_, hst⟩
  rw [Sched.setState, Sched.modify_tcb, if_neg hut, hc]

/-! ## Runs -/

/-- The run queue is intact and every thread that is being loaded is parked. -/
structure LoadsParked (kernel idle : ℕ) (created : List ℕ) (L : Loads) : Prop where
  idle : L.sched.idleThread = idle
  queue : ∃ ring zombies, Queue kernel created L.sched ring zombies
  parked : ∀ t ∈ L.loading, Parked L.sched t

theorem LoadsParked.step {kernel idle : ℕ} {created : List ℕ} {L L' : Loads} {op : LoadOp}
    (hL : LoadsParked kernel idle created L) (hok : NoWakeupWhileLoading L op)
    (h : LoadStep L op L') (hcount : (op.created ++ created).length < 2 ^ 32) :
    LoadsParked kernel idle (op.created ++ created) L' := by
  obtain ⟨ring, zombies, q⟩ := hL.queue
  cases h with
  | @sched op s' hs =>
    obtain ⟨hidle, hq⟩ := q.step hs hcount
    refine ⟨hidle.trans hL.idle, hq, fun t ht => ?_⟩
    obtain ⟨ht, hsome⟩ := mem_filter.mp ht
    refine q.parked_step hs ?_ hidle (hL.parked t ht) hsome
    rintro rfl
    rw [hok rfl] at ht
    exact absurd ht (by simp)
  | noThread => exact ⟨hL.idle, ⟨ring, zombies, q⟩, hL.parked⟩
  | @start t s' ht hs =>
    obtain ⟨hidle, ring', zombies', q'⟩ := q.step hs hcount
    obtain ⟨hpark, hnew⟩ := q.parked_start ht hs
    refine ⟨hidle.trans hL.idle, ⟨ring', zombies', ?_⟩, fun u hu => ?_⟩
    · exact q'.setOther hpark.not_current (fun _ => rfl) (fun _ => rfl) fun _ =>
        ThreadState.noConfusion
    rcases mem_cons.mp hu with rfl | hu
    · exact hpark
    · obtain ⟨c, hc, -⟩ := (hL.parked u hu).state
      have hsome := q.step_isSome hs (by simp) hc
      exact (q.parked_step hs (by simp) hidle (hL.parked u hu) hsome).setOther (ne_of_fresh hc hnew)
  | @finish t ht hcur =>
    refine ⟨hL.idle, ⟨ring, zombies, ?_⟩, fun u hu => ?_⟩
    · exact q.setOther hcur (fun _ => rfl) (fun _ => rfl) fun _ => ThreadState.noConfusion
    · obtain ⟨hu, hut⟩ := mem_filter.mp hu
      exact (hL.parked u hu).setOther (by simpa using hut)
  | @fail t c s' ht hc hs =>
    obtain ⟨hidle, hq⟩ := q.step hs hcount
    refine ⟨hidle.trans hL.idle, hq, fun u hu => ?_⟩
    obtain ⟨hu, -⟩ := mem_filter.mp hu
    obtain ⟨d, hd, -⟩ := (hL.parked u hu).state
    exact q.parked_step hs (by simp) hidle (hL.parked u hu) (q.step_isSome hs (by simp) hd)

/-- **No half-loaded program runs**, in every run in which no key wakes the blocked threads during a
load. -/
theorem no_half_loaded_thread_runs {kernel idle : ℕ} (hk : kernel ≠ 0) (hi : idle ≠ 0)
    (hki : kernel ≠ idle) {created : List ℕ} {L : Loads}
    (h : LoadReach NoWakeupWhileLoading kernel idle created L) :
    ∀ t ∈ L.loading, t ≠ L.sched.currentThread := by
  suffices hL : LoadsParked kernel idle created L from fun t ht => (hL.parked t ht).not_current
  induction h with
  | init => exact ⟨rfl, ⟨_, _, queue_init hk hi hki⟩, by simp⟩
  | step op _ hok hstep hcount ih => exact ih.step hok hstep hcount

theorem no_half_loaded_tick : ∃ L, LoadReach NoWakeupWhileLoading 1 2 [3] L ∧ L.loading = [3] ∧
    3 ≠ L.sched.currentThread := by
  have h1 := LoadReach.step (.start 3) (@LoadReach.init NoWakeupWhileLoading 1 2)
    (fun h => LoadOp.noConfusion h) (.start (by decide)
      ⟨.inr rfl, Ends.of_eq fun _ => threadAdd_eq (by decide) (by decide) rfl⟩) (by decide)
  have h2 := LoadReach.step (.sched .tick) h1 (fun h => by cases h) (.sched ⟨trivial, 5, fun k hk => by
      obtain ⟨k, rfl⟩ := Nat.exists_eq_add_of_le' hk
      rfl⟩) (by decide)
  exact ⟨_, h2, rfl, no_half_loaded_thread_runs (by decide) (by decide) (by decide) h2 3 mem_cons_self⟩

/-- A key during a load wakes the parked thread, and the next timer interrupt selects it. -/
theorem key_runs_half_loaded : ∃ L, LoadReach (fun _ _ => True) 1 2 [3] L ∧ 3 ∈ L.loading ∧
    L.sched.currentThread = 3 := by
  have h1 := LoadReach.step (.start 3) (@LoadReach.init (fun _ _ => True) 1 2) trivial
    (.start (by decide)
      ⟨.inr rfl, Ends.of_eq fun _ => threadAdd_eq (by decide) (by decide) rfl⟩) (by decide)
  have h2 := LoadReach.step (.sched .wakeup) h1 trivial (.sched ⟨trivial, 5, fun k hk => by
      obtain ⟨k, rfl⟩ := Nat.exists_eq_add_of_le' hk
      rfl⟩) (by decide)
  have h3 := LoadReach.step (.sched .tick) h2 trivial (.sched ⟨trivial, 5, fun k hk => by
      obtain ⟨k, rfl⟩ := Nat.exists_eq_add_of_le' hk
      rfl⟩) (by decide)
  exact ⟨_, h3, mem_cons_self, rfl⟩

end KeonOS
