import KeonOS.Sched.Queue

/-!
# Walks from the current thread

The timer and the keyboard walk the `next` fields from the current thread. The walk comes back to it
exactly when the current thread is in the run queue. Between the unlock in `thread_exit` and its
`yield` it is on the zombie list instead, and the walk follows a null pointer.

* **`walk_returns_iff`**: when it does, and when the two handlers end.
-/

namespace KeonOS

/-- The walk from the current thread comes back to it, with no null pointer on the way. -/
def ReturnsToCurrent (s : Sched) : Prop :=
  ∃ xs, LinkRing s.next s.currentThread xs ∧ ∀ a ∈ s.currentThread :: xs, (s.tcb a).isSome

namespace Queue

variable {kernel : ℕ} {created : List ℕ} {s : Sched} {ring zombies : List ℕ}

theorem returnsToCurrent (q : Queue kernel created s ring zombies) (hex : ¬ s.Exiting) :
    ReturnsToCurrent s := by
  obtain ⟨xs, hxs, hmem⟩ := q.cycle.exists_rotate (q.current_mem hex)
  exact ⟨xs, hxs, fun a ha => q.isSome_ring a ((hmem a).mp ha)⟩

theorem not_returnsToCurrent (q : Queue kernel created s ring zombies) (hex : s.Exiting) :
    ¬ ReturnsToCurrent s := by
  rintro ⟨xs, hxs, hsome⟩
  have hwalk := walkLoop_ends (fun c => (wakeBlocked_keeps c).next) hxs hxs.notMem hsome
    (Nat.lt_succ_self xs.length)
  rw [q.walk_exiting wakeBlocked_keeps hex] at hwalk
  exact absurd hwalk (by simp)

theorem not_returns_tick (q : Queue kernel created s ring zombies) (hex : s.Exiting) :
    ¬ SchedOp.tick.Returns s := by
  rintro ⟨s', hends⟩
  obtain ⟨k, hk⟩ := hends.exists_eq
  have h0 : s.currentThread ≠ 0 := q.ne_zero q.current_isSome
  simp [SchedOp.run, timerHandler, h0, q.walk_exiting tickSleeper_keeps hex] at hk

theorem not_returns_wakeup (q : Queue kernel created s ring zombies) (hex : s.Exiting) :
    ¬ SchedOp.wakeup.Returns s := by
  rintro ⟨s', hends⟩
  obtain ⟨k, hk⟩ := hends.exists_eq
  have h0 : s.currentThread ≠ 0 := q.ne_zero q.current_isSome
  simp [SchedOp.run, threadWakeupBlocked, h0, q.walk_exiting wakeBlocked_keeps hex] at hk

end Queue

/-- **A walk from the current thread comes back to it exactly outside `thread_exit`**, in every state
reached. -/
theorem walk_returns_iff {kernel idle : ℕ} (hk : kernel ≠ 0) (hi : idle ≠ 0) (hki : kernel ≠ idle)
    {created : List ℕ} {s : Sched} (h : SchedReach kernel idle created s) :
    (ReturnsToCurrent s ↔ ¬ s.Exiting) ∧ (SchedOp.tick.Returns s ↔ ¬ s.Exiting) ∧
      (SchedOp.wakeup.Returns s ↔ ¬ s.Exiting) := by
  obtain ⟨-, ring, zombies, q⟩ := h.queue hk hi hki
  refine ⟨⟨fun hr hex => q.not_returnsToCurrent hex hr, q.returnsToCurrent⟩,
    ⟨fun hr hex => q.not_returns_tick hex hr, fun hex => ?_⟩,
    ⟨fun hr hex => q.not_returns_wakeup hex hr, fun hex => ⟨_, q.wakeup_ends hex⟩⟩⟩
  obtain ⟨cur, hcur, -⟩ := q.tick_ends hex
  exact ⟨_, hcur⟩

theorem walk_returns_init : SchedReach 1 2 [] (threadInit 1 2) ∧ ¬ (threadInit 1 2).Exiting ∧
      ReturnsToCurrent (threadInit 1 2) := by
  have hex : ¬ (threadInit 1 2).Exiting := Sched.not_exiting rfl ThreadState.noConfusion
  have h := walk_returns_iff (by decide) (by decide) (by decide) (@SchedReach.init 1 2)
  exact ⟨SchedReach.init, hex, h.1.mpr hex⟩

/-! ## The window -/

/-- A timer interrupt or a key between the unlock of `thread_exit` and its `yield` finds no way back. -/
theorem exit_then_tick :
    ∃ s, SchedReach 1 2 [3] s ∧ s.Exiting ∧ ¬ ReturnsToCurrent s ∧ ¬ SchedOp.tick.Returns s ∧
      ¬ SchedOp.wakeup.Returns s := by
  have h1 := SchedReach.step (.add 3) (@SchedReach.init 1 2)
    ⟨.inr rfl, Ends.of_eq fun _ => threadAdd_eq (by decide) (by decide) rfl⟩ (by decide)
  have h2 := SchedReach.step .yield h1 ⟨trivial, 5, fun k hk => by
    obtain ⟨k, rfl⟩ := Nat.exists_eq_add_of_le' hk
    rfl⟩ (by decide)
  have h3 := SchedReach.step (.exitUnlink 0) h2 ⟨trivial, 5, fun k hk => by
    obtain ⟨k, rfl⟩ := Nat.exists_eq_add_of_le' hk
    rfl⟩ (by decide)
  obtain ⟨-, ring, zombies, q⟩ := h3.queue (by decide) (by decide) (by decide)
  suffices hex : Sched.Exiting _ from
    ⟨_, h3, hex, q.not_returnsToCurrent hex, q.not_returns_tick hex, q.not_returns_wakeup hex⟩
  exact ⟨_, rfl, rfl⟩

end KeonOS
