import KeonOS.Lib.Chain
import KeonOS.Lib.Fuel

/-!
# Threads

The run queue of `thread.cpp`, with the walks over it that the timer and the keyboard make. A thread
is an object in memory, named by its address; the null pointer is address 0. The `next` field links
the threads that can run into a ring, and those that have ended into the zombie list.

* `Tcb`, `Sched`: the fields of a thread and the globals;
* `threadAdd`, `threadKill`, `threadExitUnlink`, `schedYield`, `timerHandler`, `threadWakeupBlocked`,
  `cleanupList`: the code, with no result where a pointer is not valid or a loop passes its bound;
* `SchedOp`, `SchedStep`: one of them with interrupts disabled.

`thread_exit` is two steps: the list update, whose unlock lets interrupts in, and the `yield`.
-/

namespace KeonOS

inductive ThreadState
  | running
  | ready
  | sleeping
  | blocked
  | zombie
deriving DecidableEq, Repr

/-- The fields of a `thread_t` that scheduling uses. -/
structure Tcb where
  id : ℕ
  state : ThreadState
  sleepTicks : ℕ
  exitCode : ℤ
  next : ℕ
deriving DecidableEq, Repr

/-- The globals, the threads in memory, and those that `cleanup_zombies` has given to `kfree`. -/
structure Sched where
  tcb : ℕ → Option Tcb
  currentThread : ℕ
  idleThread : ℕ
  nextThreadId : ℕ
  zombieListHead : ℕ
  released : List ℕ

namespace Sched

/-- Change the thread at `a`. -/
def modify (s : Sched) (a : ℕ) (f : Tcb → Tcb) : Sched :=
  { s with tcb := Function.update s.tcb a ((s.tcb a).map f) }

def next (s : Sched) (a : ℕ) : ℕ := ((s.tcb a).map Tcb.next).getD 0

/-- `a->next = n` -/
def setNext (s : Sched) (a n : ℕ) : Sched := s.modify a fun c => { c with next := n }

def setState (s : Sched) (a : ℕ) (st : ThreadState) : Sched := s.modify a fun c => { c with state := st }

end Sched

/-! ## Creating threads -/

/-- A thread as `thread_create` and `thread_create_user` leave it. -/
def newTcb : Tcb where
  id := 0
  state := .ready
  sleepTicks := 0
  exitCode := 0
  next := 0

/-- `thread_init()`, with the addresses of the kernel thread and of the idle thread. -/
def threadInit (kernel idle : ℕ) : Sched where
  tcb := Function.update (Function.update (fun _ => none) kernel (some { newTcb with next := idle }))
    idle (some { newTcb with next := kernel })
  currentThread := kernel
  idleThread := idle
  nextThreadId := 1
  zombieListHead := 0
  released := []

def threadAdd (t : ℕ) (s : Sched) : Option Sched :=
  if t = 0 then some s
  else
    let s₁ : Sched := { s with
      tcb := Function.update s.tcb t (some { newTcb with id := s.nextThreadId })
      nextThreadId := (s.nextThreadId + 1) % 2 ^ 32 }
    (s₁.tcb s₁.currentThread).map fun current =>
      (s₁.setNext t current.next).setNext s₁.currentThread t

/-! ## Ending threads -/

/-- Push the thread at `a`, which has left the run queue, on the zombie list. -/
def Sched.bury (s : Sched) (a : ℕ) (code : ℤ) : Sched :=
  { s.modify a fun c => { c with state := .zombie, exitCode := code, next := s.zombieListHead } with
    zombieListHead := a }

def killLoop (id : ℕ) : ℕ → ℕ → ℕ → Sched → Option (Bool × Sched)
  | 0, _, _, _ => none
  | fuel + 1, prev, curr, s =>
    match s.tcb curr with
    | none => none
    | some c =>
      if c.id = id then some (true, (s.setNext prev c.next).bury curr (-1))
      else if c.next = s.currentThread then some (false, s)
      else killLoop id fuel curr c.next s

def threadKill (fuel id : ℕ) (s : Sched) : Option (Bool × Sched) :=
  (s.tcb s.currentThread).bind fun current =>
    (s.tcb s.idleThread).bind fun idle =>
      if id = current.id ∨ id = idle.id ∨ id = 0 then some (false, s)
      else killLoop id fuel s.currentThread current.next s

/-- `while (prev->next != self) prev = prev->next` -/
def findPrev (self : ℕ) : ℕ → ℕ → Sched → Option ℕ
  | 0, _, _ => none
  | fuel + 1, prev, s =>
    match s.tcb prev with
    | none => none
    | some c => if c.next = self then some prev else findPrev self fuel c.next s

/-- `thread_exit(code)` up to the unlock; the two system threads panic. -/
def threadExitUnlink (fuel : ℕ) (code : ℤ) (s : Sched) : Option Sched :=
  (s.tcb s.currentThread).bind fun self =>
    if self.id = 0 ∨ s.currentThread = s.idleThread then none
    else
      (findPrev s.currentThread fuel s.currentThread s).map fun prev =>
        (s.setNext prev self.next).bury s.currentThread code

/-- The loop of `cleanup_zombies`: every thread from `curr` on is released. -/
def cleanupLoop : ℕ → ℕ → Sched → Option Sched
  | 0, _, _ => none
  | fuel + 1, curr, s =>
    if curr = 0 then some s
    else
      match s.tcb curr with
      | none => none
      | some c =>
        cleanupLoop fuel c.next
          { s with tcb := Function.update s.tcb curr none, released := curr :: s.released }

/-- `cleanup_zombies()` -/
def cleanupList (fuel : ℕ) (s : Sched) : Option Sched :=
  cleanupLoop fuel s.zombieListHead { s with zombieListHead := 0 }

/-! ## Walks -/

/-- `do { visit t; t = t->next; } while (t != stop)` -/
def walkLoop (visit : Tcb → Tcb) (stop : ℕ) : ℕ → ℕ → Sched → Option Sched
  | 0, _, _ => none
  | fuel + 1, t, s =>
    match s.tcb t with
    | none => none
    | some c =>
      if c.next = stop then some (s.modify t visit)
      else walkLoop visit stop fuel c.next (s.modify t visit)

/-- The body of the first loop of `yield`. -/
def wakeSleeper (c : Tcb) : Tcb :=
  if c.state = .sleeping ∧ c.sleepTicks = 0 then { c with state := .ready } else c

/-- The body of the loop of `timer_handler`. -/
def tickSleeper (c : Tcb) : Tcb :=
  if c.state = .sleeping then
    let c := if 0 < c.sleepTicks then { c with sleepTicks := c.sleepTicks - 1 } else c
    if c.sleepTicks = 0 then { c with state := .ready } else c
  else c

/-- The body of the loop of `thread_wakeup_blocked`. -/
def wakeBlocked (c : Tcb) : Tcb := if c.state = .blocked then { c with state := .ready } else c

/-- The second loop of `yield`: the first thread that can run, the idle thread apart. -/
def findReady (idle stop : ℕ) : ℕ → ℕ → Sched → Option (Option ℕ)
  | 0, _, _ => none
  | fuel + 1, scan, s =>
    match s.tcb scan with
    | none => none
    | some c =>
      if c.state = .ready ∧ scan ≠ idle then some (some scan)
      else if c.next = stop then some none
      else findReady idle stop fuel c.next s

/-- The thread to run when the scan has found `r`. -/
def nextToRun (s : Sched) (prev : Tcb) : Option ℕ → ℕ
  | some a => a
  | none => if prev.state = .ready then s.currentThread else s.idleThread

/-- `yield()` -/
def schedYield (fuel : ℕ) (s : Sched) : Option Sched :=
  if s.currentThread = 0 ∨ s.idleThread = 0 then some s
  else
    (s.tcb s.currentThread).bind fun prev =>
      (s.tcb (if prev.state = .zombie then s.idleThread else s.currentThread)).bind fun start =>
        (walkLoop wakeSleeper start.next fuel start.next s).bind fun s =>
          (findReady s.idleThread start.next fuel start.next s).bind fun r =>
            (s.tcb s.currentThread).map fun prev => { s with currentThread := nextToRun s prev r }

def timerHandler (fuel : ℕ) (s : Sched) : Option Sched :=
  if s.currentThread = 0 then schedYield fuel s
  else (walkLoop tickSleeper s.currentThread fuel s.currentThread s).bind (schedYield fuel)

def threadWakeupBlocked (fuel : ℕ) (s : Sched) : Option Sched :=
  if s.currentThread = 0 then some s
  else walkLoop wakeBlocked s.currentThread fuel s.currentThread s

/-- The ticks of `thread_sleep(ms)`. -/
def sleepTicksOf (ms : ℕ) : ℕ := if ms / 10 = 0 then 1 else ms / 10

/-! ## Steps -/

/-- The calls, and the two ways in which the current thread gives up the CPU on its own. -/
inductive SchedOp
  | add (t : ℕ)
  | kill (id : ℕ)
  | exitUnlink (code : ℤ)
  | yield
  | tick
  | wakeup
  | cleanup
  | block
  | sleep (ms : ℕ)
deriving DecidableEq

def SchedOp.run (fuel : ℕ) : SchedOp → Sched → Option Sched
  | .add t, s => threadAdd t s
  | .kill id, s => (threadKill fuel id s).map Prod.snd
  | .exitUnlink code, s => threadExitUnlink fuel code s
  | .yield, s => schedYield fuel s
  | .tick, s => timerHandler fuel s
  | .wakeup, s => threadWakeupBlocked fuel s
  | .cleanup, s => cleanupList fuel s
  | .block, s => some (s.setState s.currentThread .blocked)
  | .sleep ms, s =>
    some (s.modify s.currentThread fun c =>
      { c with sleepTicks := sleepTicksOf ms, state := .sleeping })

/-- The current thread has left the run queue in `thread_exit` and has not yet called `yield`. -/
def Sched.Exiting (s : Sched) : Prop := ∃ c, s.tcb s.currentThread = some c ∧ c.state = .zombie

/-- When a call can be made. A thread that is exiting neither cleans up nor blocks. -/
def SchedOp.Enabled : SchedOp → Sched → Prop
  | .add t, s => t = 0 ∨ s.tcb t = none
  | .cleanup, s => ¬ s.Exiting
  | .block, s => ¬ s.Exiting
  | .sleep _, s => ¬ s.Exiting
  | _, _ => True

def SchedStep (s : Sched) (op : SchedOp) (s' : Sched) : Prop :=
  op.Enabled s ∧ Ends (fun fuel => op.run fuel s) s'

def SchedOp.created : SchedOp → List ℕ
  | .add t => if t = 0 then [] else [t]
  | _ => []

/-- The states reached from `thread_init` with the threads `created`, fewer than `2 ^ 32`. -/
inductive SchedReach (kernel idle : ℕ) : List ℕ → Sched → Prop
  | init : SchedReach kernel idle [] (threadInit kernel idle)
  | step {created : List ℕ} {s s' : Sched} (op : SchedOp) : SchedReach kernel idle created s →
      SchedStep s op s' → (op.created ++ created).length < 2 ^ 32 →
        SchedReach kernel idle (op.created ++ created) s'

end KeonOS
