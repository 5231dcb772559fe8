import KeonOS.Lib.Locks

/-!
# The locks of the kernel

The five spinlocks, and for each function that takes them the instructions on locks and on the
interrupt flag that it executes. A function with branches has a parameter for the way it takes.

* **`no_spin_on_preempted_holder`**: what holds when no thread is preempted inside `pfa_lock` or
  `paging_lock`.

`pfa_lock` and `paging_lock` are taken by `spin_lock`, with interrupts as they are; the other three
by `spin_lock_irqsave`.
-/

namespace KeonOS

inductive KernelLock
  | pfa
  | paging
  | heap
  | threadList
  | zombie
deriving DecidableEq, Repr

/-- The locks that are taken with interrupts disabled. -/
def KernelLock.irq : KernelLock → Bool
  | .pfa => false
  | .paging => false
  | _ => true

abbrev LockCode := List (LockInstr KernelLock)

namespace Locking

/-! ## Frames and pages -/

def pfaAllocFrame : LockCode := spinLock .pfa ++ spinUnlock .pfa

def pfaFreeFrame : LockCode := spinLock .pfa ++ spinUnlock .pfa

def getPteCreate (tables : ℕ) : LockCode := (List.replicate tables pfaAllocFrame).flatten

def pagingMapPage (tables : ℕ) : LockCode :=
  spinLock .paging ++ getPteCreate tables ++ spinUnlock .paging

def pagingUnmapPage : LockCode := spinLock .paging ++ [] ++ spinUnlock .paging

def pagingGetPhysicalAddress : LockCode := spinLock .paging ++ [] ++ spinUnlock .paging

/-! ## The heap -/

/-- A frame and its mapping, for each page; the last frame may be refused. -/
def sbrk (pages : List ℕ) (refused : Bool) : LockCode :=
  (pages.map fun tables => pfaAllocFrame ++ pagingMapPage tables).flatten ++
    if refused then pfaAllocFrame else []

/-- The ways through `kmalloc`: no heap yet, a block that fits, or more pages. -/
inductive KmallocPath
  | noHeap
  | fits
  | grows (pages : List ℕ) (refused : Bool)

def kmalloc : KmallocPath → LockCode
  | .noHeap => []
  | .fits => spinLockIrqsave .heap ++ [] ++ spinUnlockIrqrestore .heap
  | .grows pages refused =>
    spinLockIrqsave .heap ++ sbrk pages refused ++ spinUnlockIrqrestore .heap

def kfree (null : Bool) : LockCode :=
  if null then [] else spinLockIrqsave .heap ++ [] ++ spinUnlockIrqrestore .heap

/-! ## Threads -/

def threadCreate (t stack : KmallocPath) : LockCode := kmalloc t ++ kmalloc stack

def threadCreateUser (t stack : KmallocPath) (pages : List ℕ) (refused : Bool)
    (nullStack nullThread : Bool) : LockCode :=
  kmalloc t ++ kmalloc stack ++
    (pages.map fun tables => pfaAllocFrame ++ pagingMapPage tables).flatten ++
    if refused then pfaAllocFrame ++ kfree nullStack ++ kfree nullThread else []

def threadAdd (create : LockCode) : LockCode :=
  spinLockIrqsave .threadList ++ create ++ spinUnlockIrqrestore .threadList

/-- A page that `cleanup_zombies` looks up, mapped or not. -/
def releasePage (mapped : Bool) : LockCode :=
  pagingGetPhysicalAddress ++ if mapped then pfaFreeFrame ++ pagingUnmapPage else []

def releaseThread (nullStack : Bool) (pages : List Bool) : LockCode :=
  kfree nullStack ++ (pages.map releasePage).flatten ++ kfree false

def cleanupZombies (threads : List (Bool × List Bool)) : LockCode :=
  spinLockIrqsave .zombie ++ [] ++ spinUnlockIrqrestore .zombie ++
    (threads.map fun z => releaseThread z.1 z.2).flatten

end Locking

open Locking

/-- The calls of a thread; two of them are made with interrupts disabled. -/
inductive KernelCall
  | pfaAllocFrame
  | pfaFreeFrame
  | pagingMapPage (tables : ℕ)
  | pagingUnmapPage
  | pagingGetPhysicalAddress
  | kmalloc (path : KmallocPath)
  | kfree (null : Bool)
  | threadAdd (t stack : KmallocPath)
  | threadAddUser (t stack : KmallocPath) (pages : List ℕ) (refused nullStack nullThread : Bool)
  | cleanupZombies (threads : List (Bool × List Bool))
  | idleLoop (threads : List (Bool × List Bool))
  | kexLoad (t stack : KmallocPath) (pages : List ℕ) (refused nullStack nullThread : Bool)

def KernelCall.code : KernelCall → LockCode
  | .pfaAllocFrame => Locking.pfaAllocFrame
  | .pfaFreeFrame => Locking.pfaFreeFrame
  | .pagingMapPage tables => Locking.pagingMapPage tables
  | .pagingUnmapPage => Locking.pagingUnmapPage
  | .pagingGetPhysicalAddress => Locking.pagingGetPhysicalAddress
  | .kmalloc path => Locking.kmalloc path
  | .kfree null => Locking.kfree null
  | .threadAdd t stack => Locking.threadAdd (threadCreate t stack)
  | .threadAddUser t stack pages refused nullStack nullThread =>
    Locking.threadAdd (threadCreateUser t stack pages refused nullStack nullThread)
  | .cleanupZombies threads => Locking.cleanupZombies threads
  | .idleLoop threads => [.cli] ++ Locking.cleanupZombies threads ++ [.sti]
  | .kexLoad t stack pages refused nullStack nullThread =>
    [.cli] ++ Locking.threadAdd (threadCreateUser t stack pages refused nullStack nullThread) ++ [.sti]

def threadCode (calls : List KernelCall) : LockCode := (calls.map KernelCall.code).flatten

/-! ## The functions give back what they take -/

namespace Locking

/-- The locks of frames and pages, and those with the heap. -/
def memoryLocks : Set KernelLock := {.paging, .pfa}

def heapLocks : Set KernelLock := insert .heap memoryLocks

theorem balanced_pfa : LockBalanced KernelLock.irq {.pfa} pfaAllocFrame := by
  have h : LockBalanced KernelLock.irq (insert .pfa ∅) (spinLock .pfa ++ [] ++ spinUnlock .pfa) :=
    LockBalanced.plain rfl (Set.notMem_empty _) LockBalanced.nil
  simpa [pfaAllocFrame] using h

theorem balanced_map (tables : ℕ) : LockBalanced KernelLock.irq memoryLocks (pagingMapPage tables) := by
  refine LockBalanced.plain rfl (by simp) (LockBalanced.flatten fun c hc => ?_)
  rw [List.eq_of_mem_replicate hc]
  exact balanced_pfa

theorem balanced_unmap : LockBalanced KernelLock.irq memoryLocks pagingUnmapPage :=
  (LockBalanced.plain rfl (Set.notMem_empty _) LockBalanced.nil).mono (by simp [memoryLocks])

theorem balanced_alloc : LockBalanced KernelLock.irq memoryLocks pfaAllocFrame :=
  balanced_pfa.mono (by simp [memoryLocks])

theorem balanced_pages (pages : List ℕ) : LockBalanced KernelLock.irq memoryLocks
    (pages.map fun tables => pfaAllocFrame ++ pagingMapPage tables).flatten := by
  refine LockBalanced.flatten fun c hc => ?_
  obtain ⟨tables, -, rfl⟩ := List.mem_map.mp hc
  exact balanced_alloc.append (balanced_map tables)

theorem balanced_kmalloc (path : KmallocPath) :
    LockBalanced KernelLock.irq heapLocks (kmalloc path) := by
  have hheap : KernelLock.heap ∉ memoryLocks := by simp [memoryLocks]
  cases path with
  | noHeap => exact LockBalanced.nil
  | fits => exact LockBalanced.irqsave hheap LockBalanced.nil
  | grows pages refused =>
    refine LockBalanced.irqsave hheap ((balanced_pages pages).append ?_)
    split_ifs
    · exact balanced_alloc
    · exact LockBalanced.nil

theorem balanced_kfree (null : Bool) : LockBalanced KernelLock.irq heapLocks (kfree null) := by
  unfold kfree
  split_ifs
  · exact LockBalanced.nil
  · exact LockBalanced.irqsave (by simp [memoryLocks]) LockBalanced.nil

theorem memoryLocks_subset : memoryLocks ⊆ heapLocks := Set.subset_insert _ _

theorem balanced_createUser (t stack : KmallocPath) (pages : List ℕ)
    (refused nullStack nullThread : Bool) : LockBalanced KernelLock.irq heapLocks
      (threadCreateUser t stack pages refused nullStack nullThread) := by
  have hpages := (balanced_pages pages).mono memoryLocks_subset
  refine (((balanced_kmalloc t).append (balanced_kmalloc stack)).append hpages).append ?_
  split_ifs
  · exact ((balanced_alloc.mono memoryLocks_subset).append (balanced_kfree _)).append (balanced_kfree _)
  · exact LockBalanced.nil

theorem balanced_threadAdd {create : LockCode} (h : LockBalanced KernelLock.irq heapLocks create) :
    LockBalanced KernelLock.irq Set.univ (threadAdd create) :=
  (LockBalanced.irqsave (by simp [heapLocks, memoryLocks]) h).mono (Set.subset_univ _)

theorem balanced_releaseThread (nullStack : Bool) (pages : List Bool) :
    LockBalanced KernelLock.irq heapLocks (releaseThread nullStack pages) := by
  refine ((balanced_kfree _).append (LockBalanced.flatten fun c hc => ?_)).append (balanced_kfree _)
  obtain ⟨mapped, -, rfl⟩ := List.mem_map.mp hc
  refine LockBalanced.mono (LockBalanced.append balanced_unmap ?_) memoryLocks_subset
  split_ifs
  · exact balanced_alloc.append balanced_unmap
  · exact LockBalanced.nil

theorem balanced_cleanupZombies (threads : List (Bool × List Bool)) :
    LockBalanced KernelLock.irq Set.univ (cleanupZombies threads) := by
  have htake : LockBalanced KernelLock.irq Set.univ
      (spinLockIrqsave .zombie ++ [] ++ spinUnlockIrqrestore .zombie) :=
    (LockBalanced.irqsave (Set.notMem_empty _) LockBalanced.nil).mono (Set.subset_univ _)
  refine htake.append (LockBalanced.flatten fun c hc => ?_)
  obtain ⟨z, -, rfl⟩ := List.mem_map.mp hc
  exact (balanced_releaseThread z.1 z.2).mono (Set.subset_univ _)

end Locking

theorem KernelCall.safe (call : KernelCall) (b : Bool) :
    LockSafe KernelLock.irq (fun σ' => ∃ b', σ' = LockCtx.rested b') call.code (LockCtx.rested b) := by
  cases call with
  | pfaAllocFrame => exact balanced_alloc.safe_rested b
  | pfaFreeFrame => exact balanced_alloc.safe_rested b
  | pagingMapPage tables => exact (balanced_map tables).safe_rested b
  | pagingUnmapPage => exact balanced_unmap.safe_rested b
  | pagingGetPhysicalAddress => exact balanced_unmap.safe_rested b
  | kmalloc path => exact (balanced_kmalloc path).safe_rested b
  | kfree null => exact (balanced_kfree null).safe_rested b
  | threadAdd t stack =>
    exact (balanced_threadAdd ((balanced_kmalloc t).append (balanced_kmalloc stack))).safe_rested b
  | threadAddUser t stack pages refused nullStack nullThread =>
    exact (balanced_threadAdd (balanced_createUser _ _ _ _ _ _)).safe_rested b
  | cleanupZombies threads => exact (balanced_cleanupZombies threads).safe_rested b
  | idleLoop threads => exact (balanced_cleanupZombies threads).masked b
  | kexLoad t stack pages refused nullStack nullThread =>
    exact (balanced_threadAdd (balanced_createUser _ _ _ _ _ _)).masked b

theorem threadCode_safe (calls : List KernelCall) (b : Bool) :
    LockSafe KernelLock.irq (fun _ => True) (threadCode calls) (LockCtx.rested b) := by
  induction calls generalizing b with
  | nil => exact ⟨LockCtx.rested_ok _ _, trivial⟩
  | cons call calls ih =>
    refine LockSafe.append ((call.safe b).mono ?_)
    rintro σ' - ⟨b', rfl⟩
    exact ih b'

/-! ## Runs -/

section Runs

variable {T : Type} [DecidableEq T]

/-- All threads are at the start of their code, with interrupts enabled and every lock free. -/
def lockStart (current : T) (saved : T → Bool) (flags : KernelLock → Bool)
    (calls : T → List KernelCall) : Cpu T KernelLock where
  current := current
  interrupts := true
  saved := saved
  holder := fun _ => none
  flags := flags
  code := fun t => threadCode (calls t)

inductive LockReach (ok : Cpu T KernelLock → CpuEvent T → Prop) : Cpu T KernelLock → Prop
  | start (current : T) (saved : T → Bool) (flags : KernelLock → Bool)
      (calls : T → List KernelCall) : LockReach ok (lockStart current saved flags calls)
  | step {c c' : Cpu T KernelLock} {e : CpuEvent T} : LockReach ok c → ok c e → c.Step e c' →
      LockReach ok c'

/-- No timer preemption while the running thread holds `pfa_lock` or `paging_lock`. -/
def NoPreemptInMemoryLocks (c : Cpu T KernelLock) (e : CpuEvent T) : Prop :=
  ∀ t, e = .preempt t → c.holder .pfa ≠ some c.current ∧ c.holder .paging ≠ some c.current

theorem lockStart_inv (current : T) (saved : T → Bool) (flags : KernelLock → Bool)
    (calls : T → List KernelCall) :
    (lockStart current saved flags calls).Inv KernelLock.irq := by
  have hfree : ∀ l, (lockStart current saved flags calls).holder l = none := fun _ => rfl
  refine ⟨fun l t h => absurd ((hfree l).symm.trans h) (by simp), ?_, fun t _ => threadCode_safe _ _⟩
  exact threadCode_safe _ _

/-- **The running thread never spins with interrupts disabled on a lock of a preempted one**, when no
thread is preempted while it holds `pfa_lock` or `paging_lock`. -/
theorem no_spin_on_preempted_holder {c : Cpu T KernelLock}
    (h : LockReach NoPreemptInMemoryLocks c) : ¬ c.Spins := by
  suffices hinv : c.Inv KernelLock.irq from hinv.not_spins
  induction h with
  | start current saved flags calls => exact lockStart_inv current saved flags calls
  | step _ hok hstep ih =>
    refine ih.step hstep fun t ht l hl => ?_
    cases l with
    | pfa => exact (hok t ht).1
    | paging => exact (hok t ht).2
    | _ => cases hl

end Runs

/-- One thread allocates a frame, and another one calls `kmalloc` when the heap is full. -/
def frameAndHeap (t : Bool) : List KernelCall :=
  if t then [.kmalloc (.grows [0] false)] else [.pfaAllocFrame]

theorem no_spin_after_release : ∃ c : Cpu Bool KernelLock, LockReach NoPreemptInMemoryLocks c ∧
    c.interrupts = false ∧ (c.code c.current).head? = some (.take .pfa) ∧ ¬ c.Spins := by
  have h0 := @LockReach.start Bool _ NoPreemptInMemoryLocks false (fun _ => true) (fun _ => true)
    frameAndHeap
  have h1 := (h0.step (fun _ h => by cases h) (.run rfl)).step (fun _ h => by cases h) (.run rfl)
  have h2 := h1.step (fun _ _ => ⟨by decide, by decide⟩) (.preempt true rfl)
  have h3 := (h2.step (fun _ h => by cases h) (.run rfl)).step (fun _ h => by cases h) (.run rfl)
  have h4 := h3.step (fun _ h => by cases h) (.run rfl)
  exact ⟨_, h4, rfl, rfl, no_spin_on_preempted_holder h4⟩

/-- The first thread is preempted inside `pfa_lock`; the second takes `heap_lock` and spins for ever. -/
theorem kmalloc_spins : ∃ c : Cpu Bool KernelLock, LockReach (fun _ _ => True) c ∧ c.Spins := by
  have h0 := @LockReach.start Bool _ (fun _ _ => True) false (fun _ => true) (fun _ => true) frameAndHeap
  have h1 := (h0.step trivial (.run rfl)).step trivial (.preempt true rfl)
  have h2 := ((h1.step trivial (.run rfl)).step trivial (.run rfl)).step trivial (.run rfl)
  exact ⟨_, h2, rfl, .pfa, _, false, rfl, rfl, by decide⟩

end KeonOS
