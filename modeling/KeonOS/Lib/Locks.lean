import Mathlib.Tactic

/-!
# Spinlocks on one CPU

Contexts that share one CPU take and release spinlocks, save and restore the interrupt flag, and are
preempted while interrupts are enabled. A lock that is only held with interrupts disabled is an *irq*
lock; the others may be held with interrupts enabled.

* `LockBalanced`, **`LockBalanced.plain`**, **`LockBalanced.irqsave`**: code that gives back what it takes;
* **`Cpu.Inv.not_spins`**, **`Cpu.Inv.step`**: contexts with safe code never spin, when none is
  preempted with a lock that is not an irq lock.
-/

/-- The instructions: the interrupt flag, the test-and-set loop, the flag saved in the lock, and the
release. -/
inductive LockInstr (L : Type)
  | cli
  | sti
  | save
  | take (l : L)
  | keep (l : L)
  | fetch (l : L)
  | release (l : L)
  | restore

/-! ## One context -/

/-- The interrupt flag, the context's copy of it, and the locks it holds with the flags in them. -/
structure LockCtx (L : Type) where
  interrupts : Bool
  saved : Bool
  held : L → Option Bool

namespace LockCtx

variable {L : Type}

/-- With interrupts enabled the context holds no irq lock. -/
def Ok (irq : L → Bool) (σ : LockCtx L) : Prop :=
  σ.interrupts = true → ∀ l, irq l = true → σ.held l = none

/-- Interrupts are enabled and the context holds nothing. -/
def rested (b : Bool) : LockCtx L := ⟨true, b, fun _ => none⟩

theorem rested_ok (irq : L → Bool) (b : Bool) : (rested b : LockCtx L).Ok irq := fun _ _ _ => rfl

variable [DecidableEq L]

def hold (σ : LockCtx L) (l : L) (b : Option Bool) : LockCtx L :=
  { σ with held := Function.update σ.held l b }

end LockCtx

section Safe

variable {L : Type} [DecidableEq L]

/-- The instruction is allowed in `σ`, and `Q` holds after it. -/
def LockInstr.wp (σ : LockCtx L) (Q : LockCtx L → Prop) : LockInstr L → Prop
  | .cli => Q { σ with interrupts := false }
  | .sti => Q { σ with interrupts := true }
  | .save => Q { σ with interrupts := false, saved := σ.interrupts }
  | .take l => σ.held l = none ∧ ∀ b, Q (σ.hold l (some b))
  | .keep l => σ.held l ≠ none ∧ Q (σ.hold l (some σ.saved))
  | .fetch l => ∃ b, σ.held l = some b ∧ Q { σ with saved := b }
  | .release l => σ.held l ≠ none ∧ Q (σ.hold l none)
  | .restore => Q { σ with interrupts := σ.saved }

/-- The code runs from `σ` with no irq lock held while interrupts are enabled, and ends with `Q`. -/
def LockSafe (irq : L → Bool) (Q : LockCtx L → Prop) : List (LockInstr L) → LockCtx L → Prop
  | [], σ => σ.Ok irq ∧ Q σ
  | i :: code, σ => σ.Ok irq ∧ i.wp σ (LockSafe irq Q code)

variable {irq : L → Bool} {σ : LockCtx L} {Q R : LockCtx L → Prop}

theorem LockInstr.wp_mono {i : LockInstr L} (h : i.wp σ Q) (hQR : ∀ σ', Q σ' → R σ') : i.wp σ R := by
  cases i with
  | take l => exact ⟨h.1, fun b => hQR _ (h.2 b)⟩
  | keep l => exact ⟨h.1, hQR _ h.2⟩
  | release l => exact ⟨h.1, hQR _ h.2⟩
  | fetch l =>
    obtain ⟨b, hb, hq⟩ := h
    exact ⟨b, hb, hQR _ hq⟩
  | _ => exact hQR _ h

namespace LockSafe

variable {code : List (LockInstr L)}

theorem ok (h : LockSafe irq Q code σ) : σ.Ok irq := by
  cases code with
  | nil => exact h.1
  | cons i code => exact h.1

theorem append {code' : List (LockInstr L)} (h : LockSafe irq (LockSafe irq Q code') code σ) :
    LockSafe irq Q (code ++ code') σ := by
  induction code generalizing σ with
  | nil => exact h.2
  | cons i code ih => exact ⟨h.1, LockInstr.wp_mono h.2 fun _ => ih⟩

theorem mono (h : LockSafe irq Q code σ) (hQR : ∀ σ', σ'.Ok irq → Q σ' → R σ') :
    LockSafe irq R code σ := by
  induction code generalizing σ with
  | nil => exact ⟨h.1, hQR σ h.1 h.2⟩
  | cons i code ih => exact ⟨h.1, LockInstr.wp_mono h.2 fun _ => ih⟩

end LockSafe

/-! ## LockBalanced code -/

/-- `spin_lock`, and its interrupt-saving form. -/
def spinLock (l : L) : List (LockInstr L) := [.take l]

def spinUnlock (l : L) : List (LockInstr L) := [.release l]

def spinLockIrqsave (l : L) : List (LockInstr L) := [.save, .take l, .keep l]

def spinUnlockIrqrestore (l : L) : List (LockInstr L) := [.fetch l, .release l, .restore]

/-- Started with the locks in `uses` not held, the code leaves the flag and the locks as they were. -/
def LockBalanced (irq : L → Bool) (uses : Set L) (code : List (LockInstr L)) : Prop :=
  ∀ σ : LockCtx L, σ.Ok irq → (∀ l ∈ uses, σ.held l = none) →
    LockSafe irq (fun σ' => σ'.interrupts = σ.interrupts ∧ σ'.held = σ.held) code σ

namespace LockBalanced

variable {uses uses' : Set L} {code code' : List (LockInstr L)} {l : L}

theorem nil : LockBalanced irq uses ([] : List (LockInstr L)) := fun _ hok _ => ⟨hok, rfl, rfl⟩

theorem mono (h : LockBalanced irq uses code) (hsub : uses ⊆ uses') : LockBalanced irq uses' code :=
  fun σ hok hfree => h σ hok fun l hl => hfree l (hsub hl)

theorem append (h : LockBalanced irq uses code) (h' : LockBalanced irq uses code') :
    LockBalanced irq uses (code ++ code') := by
  intro σ hok hfree
  refine LockSafe.append ((h σ hok hfree).mono fun σ' hok' hσ' => ?_)
  refine (h' σ' hok' fun l hl => ?_).mono fun σ'' _ hσ'' => ?_
  · rw [hσ'.2]
    exact hfree l hl
  · exact ⟨hσ''.1.trans hσ'.1, hσ''.2.trans hσ'.2⟩

theorem flatten {codes : List (List (LockInstr L))} (h : ∀ c ∈ codes, LockBalanced irq uses c) :
    LockBalanced irq uses codes.flatten := by
  induction codes with
  | nil => exact nil
  | cons c codes ih =>
    rw [List.forall_mem_cons] at h
    exact h.1.append (ih h.2)

theorem plain (hirq : irq l = false) (hl : l ∉ uses) (h : LockBalanced irq uses code) :
    LockBalanced irq (insert l uses) (spinLock l ++ code ++ spinUnlock l) := by
  intro σ hok hfree
  have hheld : σ.held l = none := hfree l (Set.mem_insert _ _)
  have hrest : Function.update σ.held l none = σ.held := by
    rw [← hheld, Function.update_eq_self]
  have hok' : ∀ b, (σ.hold l b).Ok irq := fun b hi m hm => by
    have hml : m ≠ l := by
      rintro rfl
      rw [hirq] at hm
      exact Bool.noConfusion hm
    simpa [LockCtx.hold, hml] using hok hi m hm
  refine LockSafe.append (LockSafe.append ⟨hok, hheld, fun b => ⟨hok' _, ?_⟩⟩)
  refine (h _ (hok' _) fun m hm => ?_).mono fun σ' hσ'ok hσ' => ⟨hσ'ok, ?_, ?_⟩
  · have hml : m ≠ l := fun h => hl (h ▸ hm)
    simpa [LockCtx.hold, hml] using hfree m (Set.mem_insert_of_mem _ hm)
  · rw [hσ'.2]
    simp [LockCtx.hold]
  · have hback : (σ'.hold l none).held = σ.held := by
      simp only [LockCtx.hold, hσ'.2, Function.update_idem, hrest]
    refine ⟨fun hi m hm => ?_, hσ'.1, hback⟩
    rw [hback]
    exact hok (hσ'.1.symm.trans hi) m hm

theorem irqsave (hl : l ∉ uses) (h : LockBalanced irq uses code) :
    LockBalanced irq (insert l uses) (spinLockIrqsave l ++ code ++ spinUnlockIrqrestore l) := by
  intro σ hok hfree
  have hheld : σ.held l = none := hfree l (Set.mem_insert _ _)
  have hrest : Function.update σ.held l none = σ.held := by
    rw [← hheld, Function.update_eq_self]
  -- interrupts are disabled up to the last instruction
  have hoff : ∀ {b : Bool} {held : L → Option Bool}, (⟨false, b, held⟩ : LockCtx L).Ok irq :=
    fun h => Bool.noConfusion h
  refine LockSafe.append (LockSafe.append ⟨hok, hoff, hheld, fun b => ⟨hoff, ?_, hoff, ?_⟩⟩)
  · simp [LockCtx.hold]
  refine (h _ hoff fun m hm => ?_).mono fun σ' hσ'ok hσ' => ?_
  · have hml : m ≠ l := fun h => hl (h ▸ hm)
    simpa [LockCtx.hold, hml] using hfree m (Set.mem_insert_of_mem _ hm)
  have hi : σ'.interrupts = false := hσ'.1
  have hl' : σ'.held l = some σ.interrupts := by
    rw [hσ'.2]
    simp [LockCtx.hold]
  have hback : Function.update σ'.held l none = σ.held := by
    rw [hσ'.2]
    simp only [LockCtx.hold, Function.update_idem, hrest]
  refine ⟨hσ'ok, σ.interrupts, hl', ?_, ?_, ?_, ?_, rfl, hback⟩
  · exact fun h => Bool.noConfusion (hi.symm.trans h)
  · simp [hl']
  · exact fun h => Bool.noConfusion (hi.symm.trans h)
  · intro hi' m hm
    change Function.update σ'.held l none m = none
    rw [hback]
    exact hok hi' m hm

theorem masked (h : LockBalanced irq uses code) (b : Bool) :
    LockSafe irq (fun σ' => ∃ b', σ' = LockCtx.rested b') ([.cli] ++ code ++ [.sti])
      (LockCtx.rested b) := by
  refine LockSafe.append (LockSafe.append ⟨LockCtx.rested_ok _ _, fun h => Bool.noConfusion h, ?_⟩)
  refine (h _ Bool.noConfusion fun _ _ => rfl).mono fun σ' hok' hσ' => ⟨hok', ?_⟩
  have heq : ({ σ' with interrupts := true } : LockCtx L) = LockCtx.rested σ'.saved := by
    rw [LockCtx.rested, LockCtx.mk.injEq]
    exact ⟨rfl, rfl, hσ'.2⟩
  exact ⟨heq ▸ LockCtx.rested_ok _ _, _, heq⟩

theorem safe_rested (h : LockBalanced irq uses code) (b : Bool) :
    LockSafe irq (fun σ' => ∃ b', σ' = LockCtx.rested b') code (LockCtx.rested b) := by
  refine (h _ (LockCtx.rested_ok _ _) fun _ _ => rfl).mono fun σ' _ hσ' => ⟨σ'.saved, ?_⟩
  rw [LockCtx.rested, LockCtx.mk.injEq]
  exact ⟨hσ'.1, rfl, hσ'.2⟩

end LockBalanced

end Safe

/-! ## The CPU -/

/-- The running context, the interrupt flag, each context's copy of it and code, and the locks. -/
structure Cpu (T L : Type) where
  current : T
  interrupts : Bool
  saved : T → Bool
  holder : L → Option T
  flags : L → Bool
  code : T → List (LockInstr L)

inductive CpuEvent (T : Type)
  | run
  | preempt (t : T)

namespace Cpu

variable {T L : Type} [DecidableEq T] [DecidableEq L]

/-- The running context goes on with `rest`. -/
def advance (c : Cpu T L) (rest : List (LockInstr L)) : Cpu T L :=
  { c with code := Function.update c.code c.current rest }

/-- The running context executes an instruction; at a lock that is taken it stays where it is. -/
def exec (c : Cpu T L) (rest : List (LockInstr L)) : LockInstr L → Cpu T L
  | .cli => { c.advance rest with interrupts := false }
  | .sti => { c.advance rest with interrupts := true }
  | .save => { c.advance rest with
      interrupts := false, saved := Function.update c.saved c.current c.interrupts }
  | .take l =>
    if c.holder l = none then
      { c.advance rest with holder := Function.update c.holder l (some c.current) }
    else c
  | .keep l => { c.advance rest with flags := Function.update c.flags l (c.saved c.current) }
  | .fetch l => { c.advance rest with saved := Function.update c.saved c.current (c.flags l) }
  | .release l => { c.advance rest with holder := Function.update c.holder l none }
  | .restore => { c.advance rest with interrupts := c.saved c.current }

/-- One step: the running context goes on, or a timer interrupt switches to any context. -/
inductive Step : Cpu T L → CpuEvent T → Cpu T L → Prop
  | run {c : Cpu T L} {i : LockInstr L} {rest : List (LockInstr L)} :
      c.code c.current = i :: rest → Step c .run (c.exec rest i)
  | preempt {c : Cpu T L} (t : T) : c.interrupts = true →
      Step c (.preempt t) { c with current := t }

/-- The running context spins with interrupts disabled on a lock that another context holds. -/
def Spins (c : Cpu T L) : Prop :=
  c.interrupts = false ∧ ∃ l rest t, c.code c.current = .take l :: rest ∧ c.holder l = some t ∧
    t ≠ c.current

/-- What the running context sees. -/
def view (c : Cpu T L) : LockCtx L := ⟨c.interrupts, c.saved c.current, fun l =>
    if c.holder l = some c.current then some (c.flags l) else none⟩

/-- Only the running context holds locks, and every context has safe code before it. -/
structure Inv (irq : L → Bool) (c : Cpu T L) : Prop where
  holder : ∀ l t, c.holder l = some t → t = c.current
  running : LockSafe irq (fun _ => True) (c.code c.current) c.view
  waiting : ∀ t, t ≠ c.current → LockSafe irq (fun _ => True) (c.code t) (LockCtx.rested (c.saved t))

namespace Inv

variable {irq : L → Bool} {c c' : Cpu T L}

theorem not_spins (h : c.Inv irq) : ¬ c.Spins := by
  rintro ⟨-, l, rest, t, -, hl, ht⟩
  exact ht (h.holder l t hl)

variable {rest : List (LockInstr L)}

theorem of_advance (h : c.Inv irq) (hcur : c'.current = c.current)
    (hcode : c'.code = Function.update c.code c.current rest)
    (hsaved : ∀ t, t ≠ c.current → c'.saved t = c.saved t)
    (hholder : ∀ l t, c'.holder l = some t → t = c.current)
    (hview : LockSafe irq (fun _ => True) rest c'.view) : c'.Inv irq := by
  refine ⟨fun l t hl => hcur.symm ▸ hholder l t hl, ?_, fun t ht => ?_⟩
  · rwa [hcode, hcur, Function.update_self]
  · rw [hcur] at ht
    rw [hcode, Function.update_of_ne ht, hsaved t ht]
    exact h.waiting t ht

theorem exec (h : c.Inv irq) {i : LockInstr L}
    (hcode : c.code c.current = i :: rest) : (c.exec rest i).Inv irq := by
  have hrun := h.running
  rw [hcode] at hrun
  have hwp := hrun.2
  have hsame : ∀ (b : Bool) t, t ≠ c.current → Function.update c.saved c.current b t = c.saved t :=
    fun b t ht => Function.update_of_ne ht _ _
  cases i with
  | cli => exact h.of_advance rfl rfl (fun _ _ => rfl) h.holder hwp
  | sti => exact h.of_advance rfl rfl (fun _ _ => rfl) h.holder hwp
  | restore => exact h.of_advance rfl rfl (fun _ _ => rfl) h.holder hwp
  | save =>
    refine h.of_advance rfl rfl (hsame _) h.holder ?_
    convert (show LockSafe _ _ _ _ from hwp) using 1
    rw [view, LockCtx.mk.injEq]
    exact ⟨rfl, Function.update_self _ _ _, rfl⟩
  | take l =>
    -- nobody holds the lock: not the context itself, and no other one
    have hfree : c.holder l = none := by
      cases hl : c.holder l with
      | none => rfl
      | some t =>
        have hnone := hwp.1
        rw [h.holder l t hl] at hl
        simp [view, hl] at hnone
    rw [Cpu.exec, if_pos hfree]
    refine h.of_advance rfl rfl (fun _ _ => rfl) (fun m t hm => ?_) ?_
    · by_cases hml : m = l
      · subst hml
        simpa using hm.symm
      · exact h.holder m t (by simpa [hml] using hm)
    convert hwp.2 (c.flags l) using 1
    rw [view, LockCtx.hold, LockCtx.mk.injEq]
    refine ⟨rfl, rfl, ?_⟩
    funext m
    by_cases hml : m = l
    · subst hml
      simp [advance]
    · simp [hml, view, advance]
  | keep l =>
    refine h.of_advance rfl rfl (fun _ _ => rfl) h.holder ?_
    convert hwp.2 using 1
    rw [view, LockCtx.hold, LockCtx.mk.injEq]
    refine ⟨rfl, rfl, ?_⟩
    funext m
    by_cases hml : m = l
    · subst hml
      have hheld : c.holder m = some c.current := by
        by_contra hne
        exact hwp.1 (by simp [view, hne])
      simp [Cpu.exec, advance, hheld, view]
    · simp [Cpu.exec, hml, view, advance]
  | fetch l =>
    refine h.of_advance rfl rfl (hsame _) h.holder ?_
    obtain ⟨b, hb, hq⟩ := hwp
    have hflags : c.flags l = b := by
      simp only [view] at hb
      split_ifs at hb
      exact Option.some.inj hb
    simpa [Cpu.exec, view, advance, hflags] using hq
  | release l =>
    refine h.of_advance rfl rfl (fun _ _ => rfl) (fun m t hm => ?_) ?_
    · by_cases hml : m = l
      · subst hml
        simp [Cpu.exec] at hm
      · exact h.holder m t (by simpa [Cpu.exec, hml] using hm)
    convert hwp.2 using 1
    rw [view, LockCtx.hold, LockCtx.mk.injEq]
    refine ⟨rfl, rfl, ?_⟩
    funext m
    by_cases hml : m = l
    · subst hml
      simp [Cpu.exec, advance]
    · simp [Cpu.exec, hml, view, advance]

theorem preempt (h : c.Inv irq) (hint : c.interrupts = true)
    (hpre : ∀ l, irq l = false → c.holder l ≠ some c.current) (t : T) :
    ({ c with current := t } : Cpu T L).Inv irq := by
  have hfree : ∀ l, c.holder l = none := by
    intro l
    cases hl : c.holder l with
    | none => rfl
    | some u =>
      rw [h.holder l u hl] at hl
      cases hi : irq l with
      | false => exact absurd hl (hpre l hi)
      | true =>
        have hok := h.running.ok hint l hi
        simp [view, hl] at hok
  have hview : ∀ u, ({ c with current := u } : Cpu T L).view = LockCtx.rested (c.saved u) := by
    simp [view, LockCtx.rested, hint, hfree]
  have hsafe : ∀ u, LockSafe irq (fun _ => True) (c.code u) (LockCtx.rested (c.saved u)) := by
    intro u
    by_cases hu : u = c.current
    · rw [hu, ← hview c.current]
      exact h.running
    · exact h.waiting u hu
  refine ⟨fun l u hl => ?_, hview t ▸ hsafe t, fun u _ => hsafe u⟩
  rw [show c.holder l = none from hfree l] at hl
  cases hl

theorem step (h : c.Inv irq) {e : CpuEvent T} (hs : Step c e c')
    (hpre : ∀ t, e = .preempt t → ∀ l, irq l = false → c.holder l ≠ some c.current) :
    c'.Inv irq := by
  cases hs with
  | run hcode => exact h.exec hcode
  | preempt t hint => exact h.preempt hint (hpre t rfl) t

end Inv

end Cpu
