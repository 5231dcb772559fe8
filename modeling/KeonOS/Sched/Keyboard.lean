import KeonOS.Sched.Steps

/-!
# Waiting for the keyboard

A thread that reads the keyboard tests the buffer, marks itself blocked and yields, with interrupts
enabled between the three. This is the loop of `keyboard_getchar`, and of `sys_read` on the standard
input after its first `yield`. A key stores its character and then wakes the blocked threads.

* **`no_lost_wakeup`**: what holds when no key comes between the test and the mark.
-/

namespace KeonOS

/-! ## The buffer -/

def keyboardBufferSize : ℕ := 256

/-- The ring buffer of `keyboard.cpp`. -/
structure Keyboard where
  buffer : ℕ → ℕ
  readPos : ℕ
  writePos : ℕ

namespace Keyboard

/-- `keyboard_has_input()` -/
def hasInput (b : Keyboard) : Bool := b.readPos ≠ b.writePos

def store (b : Keyboard) (ascii : ℕ) : Keyboard :=
  { b with
    buffer := Function.update b.buffer b.writePos ascii
    writePos := (b.writePos + 1) % keyboardBufferSize }

/-- The end of `keyboard_getchar()`. -/
def take (b : Keyboard) : ℕ × Keyboard :=
  (b.buffer b.readPos, { b with readPos := (b.readPos + 1) % keyboardBufferSize })

end Keyboard

/-! ## The reader -/

inductive ReaderPc
  | head
  | empty
  | marked
  | found
deriving DecidableEq, Repr

/-- The scheduler, the buffer and the reader. -/
structure Console where
  sched : Sched
  keyboard : Keyboard
  pc : ReaderPc

/-- The steps: those of the reader, a key, and those of the rest of the system. -/
inductive ConsoleOp
  | test
  | mark
  | yield
  | getchar
  | key (ascii : ℕ)
  | sched (op : SchedOp)

def ConsoleOp.created : ConsoleOp → List ℕ
  | .sched op => op.created
  | _ => []

/-- The steps of the rest of the system. -/
def SchedOp.Other (reader : ℕ) (op : SchedOp) (s : Sched) : Prop :=
  op ≠ .wakeup ∧ (op = .block → s.currentThread ≠ reader)

/-- One step. The reader moves when it is the current thread; in `sys_read` a character of the serial line
may come where the buffer is empty. -/
inductive ConsoleStep (reader : ℕ) : Console → ConsoleOp → Console → Prop
  | test {C : Console} : C.sched.currentThread = reader → C.pc = .head ∨ C.pc = .found →
      ConsoleStep reader C .test
        { C with pc := if C.keyboard.hasInput then .found else .empty }
  | serial {C : Console} : C.sched.currentThread = reader → C.pc = .empty →
      ConsoleStep reader C .test { C with pc := .head }
  | mark {C : Console} {s' : Sched} : C.sched.currentThread = reader → C.pc = .empty →
      SchedStep C.sched .block s' → ConsoleStep reader C .mark { C with sched := s', pc := .marked }
  | yield {C : Console} {s' : Sched} : C.sched.currentThread = reader → C.pc = .marked →
      SchedStep C.sched .yield s' → ConsoleStep reader C .yield { C with sched := s', pc := .head }
  | getchar {C : Console} : C.sched.currentThread = reader → C.pc = .found →
      ConsoleStep reader C .getchar { C with keyboard := C.keyboard.take.2, pc := .head }
  | key {C : Console} {s' : Sched} (ascii : ℕ) : SchedStep C.sched .wakeup s' →
      ConsoleStep reader C (.key ascii) { C with sched := s', keyboard := C.keyboard.store ascii }
  | sched {C : Console} {op : SchedOp} {s' : Sched} : op.Other reader C.sched →
      SchedStep C.sched op s' →
      ConsoleStep reader C (.sched op)
        { C with sched := s', pc := if op = .add reader then .head else C.pc }

inductive ConsoleReach (ok : Console → ConsoleOp → Prop) (kernel idle reader : ℕ) :
    List ℕ → Console → Prop
  | init (b : Keyboard) : ConsoleReach ok kernel idle reader [] ⟨threadInit kernel idle, b, .head⟩
  | step {created : List ℕ} {C C' : Console} (op : ConsoleOp) :
      ConsoleReach ok kernel idle reader created C → ok C op → ConsoleStep reader C op C' →
      (op.created ++ created).length < 2 ^ 32 →
        ConsoleReach ok kernel idle reader (op.created ++ created) C'

/-- The reader has been descheduled as blocked while the buffer holds a character. -/
def Console.Asleep (reader : ℕ) (C : Console) : Prop := C.sched.currentThread ≠ reader ∧
    (C.sched.tcb reader).map Tcb.state = some .blocked ∧ C.keyboard.hasInput = true

/-- No key comes while the reader is between its test and the store of `THREAD_BLOCKED`. -/
def NoKeyAfterTest (C : Console) (op : ConsoleOp) : Prop := ∀ ascii, op = .key ascii → C.pc ≠ .empty

/-! ## The invariant -/

/-- A blocked reader is in the run queue, where a key finds it, and the buffer is empty. -/
structure Awake (kernel idle reader : ℕ) (created : List ℕ) (C : Console) : Prop where
  idle : C.sched.idleThread = idle
  queue : ∃ ring zombies, Queue kernel created C.sched ring zombies
  blocked : (C.sched.tcb reader).map Tcb.state = some .blocked →
    C.sched.Queued reader ∧ C.keyboard.hasInput = false ∧
      (C.sched.currentThread = reader → C.pc = .marked)
  empty : C.pc = .empty → C.keyboard.hasInput = false

namespace Queue

variable {kernel : ℕ} {created : List ℕ} {s s' : Sched} {ring zombies : List ℕ} {op : SchedOp}
  {t : ℕ}

theorem step_blocked (q : Queue kernel created s ring zombies) (h : SchedStep s op s')
    (hop : op = .block → s.currentThread ≠ t) (hidle : t ≠ s.idleThread)
    (hb : (s'.tcb t).map Tcb.state = some .blocked) :
    (s.tcb t).map Tcb.state = some .blocked ∧ (s.Queued t → s'.Queued t) ∧
      (s'.currentThread = t → s.currentThread = t) := by
  cases hc' : s'.tcb t with
  | none => simp [hc'] at hb
  | some c' =>
    have hst' : c'.state = .blocked := by simpa [hc'] using hb
    cases hc : s.tcb t with
    | none => exact ThreadState.noConfusion (hst'.symm.trans (q.step_fresh h hc hc').1)
    | some c =>
      have hst : c.state = .blocked := by
        rcases q.step_state h hc with ⟨-, hnone⟩ | ⟨d, hd, hch⟩
        · simp [hc'] at hnone
        rw [← Option.some.inj (hc'.symm.trans hd), hst'] at hch
        generalize c.state = st at hch
        cases hch with
        | same => rfl
        | block _ hb hcur => exact absurd hcur.symm (hop hb)
      refine ⟨by rw [Option.map_some, hst], fun hq => ?_, fun hcur => ?_⟩
      · rcases q.step_queued h hq with hq' | hz
        · exact hq'
        · simp [hc', hst'] at hz
      · rcases q.step_current h with h1 | h1 | h1
        · exact h1.symm.trans hcur
        · exact absurd (hcur.symm.trans h1) hidle
        · simp [hcur, hc', hst'] at h1

end Queue

namespace Awake

variable {kernel idle reader : ℕ} {created : List ℕ} {C C' : Console}

theorem init (hk : kernel ≠ 0) (hi : idle ≠ 0) (hki : kernel ≠ idle) (b : Keyboard) :
    Awake kernel idle reader [] ⟨threadInit kernel idle, b, .head⟩ := by
  refine ⟨rfl, ⟨_, _, queue_init hk hi hki⟩, fun hb => ?_, fun h => by cases h⟩
  obtain ⟨c, hc, hst⟩ := Option.map_eq_some_iff.mp hb
  simp only [threadInit, Function.update_apply] at hc
  split_ifs at hc <;> (obtain rfl := Option.some.inj hc; cases hst)

theorem sched_step (h : Awake kernel idle reader created C) (hri : reader ≠ idle) {op : SchedOp}
    {s' : Sched} (hs : SchedStep C.sched op s')
    (hop : op = .block → C.sched.currentThread ≠ reader) {pc : ReaderPc}
    (hpc : pc = .empty → C.pc = .empty)
    (hmark : s'.currentThread = reader → C.sched.currentThread = reader → C.pc = .marked →
      (s'.tcb reader).map Tcb.state = some .blocked → pc = .marked)
    (hcount : (op.created ++ created).length < 2 ^ 32) :
    Awake kernel idle reader (op.created ++ created) { C with sched := s', pc := pc } := by
  obtain ⟨ring, zombies, q⟩ := h.queue
  obtain ⟨hidle, hq⟩ := q.step hs hcount
  refine ⟨hidle.trans h.idle, hq, fun hb => ?_, fun he => h.empty (hpc he)⟩
  obtain ⟨hb₀, hqueued, hcur⟩ := q.step_blocked hs hop (h.idle.symm ▸ hri) hb
  obtain ⟨h1, h2, h3⟩ := h.blocked hb₀
  exact ⟨hqueued h1, h2, fun hc => hmark hc (hcur hc) (h3 (hcur hc)) hb⟩

theorem not_blocked (h : Awake kernel idle reader created C) (hcur : C.sched.currentThread = reader)
    (hpc : C.pc ≠ .marked) : (C.sched.tcb reader).map Tcb.state ≠ some .blocked :=
  fun hb => hpc ((h.blocked hb).2.2 hcur)

/-- **One step keeps the invariant**, when no key comes between the test and the mark. -/
theorem step (h : Awake kernel idle reader created C) (hri : reader ≠ idle) {op : ConsoleOp}
    (hok : NoKeyAfterTest C op) (hs : ConsoleStep reader C op C')
    (hcount : (op.created ++ created).length < 2 ^ 32) :
    Awake kernel idle reader (op.created ++ created) C' := by
  obtain ⟨ring, zombies, q⟩ := h.queue
  cases hs with
  | test hcur hpc =>
    have hnb := h.not_blocked hcur (by rcases hpc with hpc | hpc <;> simp [hpc])
    refine ⟨h.idle, h.queue, fun hb => absurd hb hnb, fun he => ?_⟩
    by_cases hin : C.keyboard.hasInput = true
    · simp [hin] at he
    · simpa using hin
  | serial hcur hpc =>
    have hnb := h.not_blocked hcur (by simp [hpc])
    exact ⟨h.idle, h.queue, fun hb => absurd hb hnb, fun he => by cases he⟩
  | @mark s' hcur hpc hs =>
    obtain ⟨hidle, hq⟩ := q.step hs hcount
    refine ⟨hidle.trans h.idle, hq, fun hb => ?_, fun he => by cases he⟩
    have hqueued : C.sched.Queued reader := q.queued_iff.mpr (hcur ▸ q.current_mem hs.1)
    rcases q.step_queued hs hqueued with hq' | hz
    · exact ⟨hq', h.empty hpc, fun _ => rfl⟩
    · exact absurd (hb.symm.trans hz) (by simp)
  | @yield s' hcur hpc hs =>
    refine h.sched_step hri hs (fun h => by cases h) (fun h => by cases h) ?_ hcount
    -- `yield` returns to the reader only when it is ready
    intro hcur' _ _ hb
    rcases q.yield_current hs with h1 | h1
    · exact absurd (hcur'.symm.trans (h1.trans h.idle)) hri
    · rw [hcur', hb] at h1
      exact absurd h1 (by simp)
  | getchar hcur hpc =>
    have hnb := h.not_blocked hcur (by simp [hpc])
    exact ⟨h.idle, h.queue, fun hb => absurd hb hnb, fun he => by cases he⟩
  | @key s' ascii hs =>
    obtain ⟨hidle, hq⟩ := q.step hs hcount
    refine ⟨hidle.trans h.idle, hq, fun hb => ?_, fun he => absurd he (hok ascii rfl)⟩
    obtain ⟨hb₀, -⟩ := q.step_blocked hs (fun h => by cases h) (h.idle.symm ▸ hri) hb
    exact absurd hb (q.wakeup_not_blocked hs (h.blocked hb₀).1)
  | @sched op s' hother hs =>
    refine h.sched_step hri hs hother.2 (fun he => ?_) (fun _ hcur hpc _ => ?_) hcount
    · split_ifs at he
      exact he
    rw [if_neg]
    · exact hpc
    rintro rfl
    -- a thread that is created is not the current one
    have hsome := q.current_isSome
    rw [hcur] at hsome
    rcases hs.1 with h0 | h0
    · exact q.ne_zero hsome h0
    · rw [h0] at hsome
      exact absurd hsome (by simp)

end Awake

/-! ## Runs -/

/-- **No wakeup is lost** when no key comes between the test of the buffer and the store of
`THREAD_BLOCKED`. -/
theorem no_lost_wakeup {kernel idle reader : ℕ} (hk : kernel ≠ 0) (hi : idle ≠ 0)
    (hki : kernel ≠ idle) (hri : reader ≠ idle) {created : List ℕ} {C : Console}
    (h : ConsoleReach NoKeyAfterTest kernel idle reader created C) : ¬ C.Asleep reader := by
  suffices hA : Awake kernel idle reader created C by
    rintro ⟨-, hb, hin⟩
    exact absurd (hin.symm.trans (hA.blocked hb).2.1) (by simp)
  induction h with
  | init b => exact Awake.init hk hi hki b
  | step op _ hok hstep hcount ih => exact ih.step hri hok hstep hcount

theorem no_lost_wakeup_key : ∃ C, ConsoleReach NoKeyAfterTest 1 2 1 [] C ∧
    C.keyboard.hasInput = true ∧ ¬ C.Asleep 1 := by
  have h1 := ConsoleReach.step .test
    (@ConsoleReach.init NoKeyAfterTest 1 2 1 ⟨fun _ => 0, 0, 0⟩) (fun _ h => by cases h)
    (.test rfl (.inl rfl)) (by decide)
  have h2 := ConsoleReach.step .mark h1 (fun _ h => by cases h)
    (.mark rfl rfl ⟨Sched.not_exiting rfl ThreadState.noConfusion, Ends.of_eq fun _ => rfl⟩)
    (by decide)
  have h3 := ConsoleReach.step .yield h2 (fun _ h => by cases h)
    (.yield rfl rfl ⟨trivial, 5, fun k hk => by
      obtain ⟨k, rfl⟩ := Nat.exists_eq_add_of_le' hk
      rfl⟩) (by decide)
  have h4 := ConsoleReach.step (.key 97) h3 (fun _ _ => ReaderPc.noConfusion)
    (.key 97 ⟨trivial, 5, fun k hk => by
      obtain ⟨k, rfl⟩ := Nat.exists_eq_add_of_le' hk
      rfl⟩) (by decide)
  exact ⟨_, h4, rfl, no_lost_wakeup (by decide) (by decide) (by decide) (by decide) h4⟩

/-- A key between the test and the mark: the kernel thread blocks although the buffer holds the
character. -/
theorem key_between_test_and_block : ∃ C, ConsoleReach (fun _ _ => True) 1 2 1 [] C ∧ C.Asleep 1 := by
  have h1 := ConsoleReach.step .test
    (@ConsoleReach.init (fun _ _ => True) 1 2 1 ⟨fun _ => 0, 0, 0⟩) trivial
    (.test rfl (.inl rfl)) (by decide)
  have h2 := ConsoleReach.step (.key 97) h1 trivial (.key 97 ⟨trivial, 5, fun k hk => by
      obtain ⟨k, rfl⟩ := Nat.exists_eq_add_of_le' hk
      rfl⟩) (by decide)
  have h3 := ConsoleReach.step .mark h2 trivial
    (.mark rfl rfl ⟨Sched.not_exiting rfl ThreadState.noConfusion, Ends.of_eq fun _ => rfl⟩)
    (by decide)
  have h4 := ConsoleReach.step .yield h3 trivial (.yield rfl rfl ⟨trivial, 5, fun k hk => by
      obtain ⟨k, rfl⟩ := Nat.exists_eq_add_of_le' hk
      rfl⟩) (by decide)
  exact ⟨_, h4, show (2 : ℕ) ≠ 1 by decide, rfl, rfl⟩

end KeonOS
