import Mathlib.Tactic

/-!
# Programs over a disk of blocks

A program reads parts of blocks, writes blocks at once or through a log, commits the log and leaves
events behind. Run without a log, a logged block is written at once.

* `Store`, **`BlockM.exec`**: the run that writes through;
* `BlockStep`, **`BlockM.Visits`**: every step of a run meets a condition.
-/

/-- A program over blocks `β` at the addresses `ι`. A read passes on a part of the block; `stuck` is a
loop that does not end. -/
inductive BlockM (ι β ε α : Type) : Type
  | ret (a : α)
  | read (b : ι) (part : β → β) (k : β → BlockM ι β ε α)
  | write (b : ι) (v : β) (k : BlockM ι β ε α)
  | log (b : ι) (v : β) (k : BlockM ι β ε α)
  | emit (e : ε) (k : BlockM ι β ε α)
  | commit (k : BlockM ι β ε α)
  | stuck

inductive BlockStep (ι β : Type)
  | read (b : ι) (part : β → β)
  | write (b : ι) (v : β)
  | log (b : ι) (v : β)
  | commit

/-- A disk, and the events so far, the last one first. -/
@[ext]
structure Store (ι β ε : Type) where
  disk : ι → β
  events : List ε

namespace Store

def put {ι β ε : Type} [DecidableEq ι] (s : Store ι β ε) (b : ι) (v : β) : Store ι β ε :=
  { s with disk := Function.update s.disk b v }

def emit {ι β ε : Type} (s : Store ι β ε) (e : ε) : Store ι β ε := { s with events := e :: s.events }

variable {ι β ε : Type} {s : Store ι β ε} {b c : ι} {v : β} {e : ε}

@[simp]
theorem emit_disk : (s.emit e).disk = s.disk := rfl

variable [DecidableEq ι]

theorem put_disk : (s.put b v).disk c = if c = b then v else s.disk c :=
  Function.update_apply s.disk b v c

@[simp]
theorem put_disk_self : (s.put b v).disk b = v := by rw [put_disk, if_pos rfl]

theorem put_disk_of_ne (h : c ≠ b) : (s.put b v).disk c = s.disk c := by rw [put_disk, if_neg h]

end Store

namespace BlockM

variable {ι β ε α γ : Type}

def bind : BlockM ι β ε α → (α → BlockM ι β ε γ) → BlockM ι β ε γ
  | ret a, f => f a
  | read b part k, f => read b part fun v => (k v).bind f
  | write b v k, f => write b v (k.bind f)
  | log b v k, f => log b v (k.bind f)
  | emit e k, f => emit e (k.bind f)
  | commit k, f => commit (k.bind f)
  | stuck, _ => stuck

instance : Monad (BlockM ι β ε) where
  pure := ret
  bind := bind

/-! ## Single steps -/

def readPart (b : ι) (part : β → β) : BlockM ι β ε β := read b part ret

def writeNow (b : ι) (v : β) : BlockM ι β ε Unit := write b v (ret ())

def writeLogged (b : ι) (v : β) : BlockM ι β ε Unit := log b v (ret ())

def event (e : ε) : BlockM ι β ε Unit := emit e (ret ())

def commitLog : BlockM ι β ε Unit := commit (ret ())

/-! ## Writing through -/

/-- The run without a log. -/
def exec [DecidableEq ι] : BlockM ι β ε α → Store ι β ε → Option (α × Store ι β ε)
  | ret a, s => some (a, s)
  | read b part k, s => (k (part (s.disk b))).exec s
  | write b v k, s => k.exec (s.put b v)
  | log b v k, s => k.exec (s.put b v)
  | emit e k, s => k.exec (s.emit e)
  | commit k, s => k.exec s
  | stuck, _ => none

variable [DecidableEq ι]

@[simp]
theorem exec_pure (a : α) (s : Store ι β ε) : (pure a : BlockM ι β ε α).exec s = some (a, s) := rfl

@[simp]
theorem exec_bind (p : BlockM ι β ε α) (f : α → BlockM ι β ε γ) (s : Store ι β ε) :
    (p >>= f).exec s = (p.exec s).bind fun r => (f r.1).exec r.2 := by
  induction p generalizing s with
  | ret a => rfl
  | read b part k ih => exact ih _ s
  | write b v k ih => exact ih _
  | log b v k ih => exact ih _
  | emit e k ih => exact ih _
  | commit k ih => exact ih s
  | stuck => rfl

@[simp]
theorem exec_map (f : α → γ) (p : BlockM ι β ε α) (s : Store ι β ε) :
    (f <$> p).exec s = (p.exec s).map fun r => (f r.1, r.2) := by
  change (p >>= fun a => pure (f a)).exec s = _
  rw [exec_bind]
  cases p.exec s <;> rfl

variable {b : ι} {part : β → β} {v : β} {e : ε} {s : Store ι β ε}

/-! ## Steps -/

/-- Every step of the run that writes through meets `ok`. -/
def Visits (ok : BlockStep ι β → Prop) : BlockM ι β ε α → Store ι β ε → Prop
  | ret _, _ => True
  | read b part k, s => ok (.read b part) ∧ (k (part (s.disk b))).Visits ok s
  | write b v k, s => ok (.write b v) ∧ k.Visits ok (s.put b v)
  | log b v k, s => ok (.log b v) ∧ k.Visits ok (s.put b v)
  | emit e k, s => k.Visits ok (s.emit e)
  | commit k, s => ok .commit ∧ k.Visits ok s
  | stuck, _ => True

variable {ok : BlockStep ι β → Prop}

theorem visits_pure (a : α) : (pure a : BlockM ι β ε α).Visits ok s := trivial

theorem visits_bind (p : BlockM ι β ε α) (f : α → BlockM ι β ε γ) (s : Store ι β ε) :
    (p >>= f).Visits ok s ↔ p.Visits ok s ∧ ∀ r, p.exec s = some r → (f r.1).Visits ok r.2 := by
  change (p.bind f).Visits ok s ↔ _
  induction p generalizing s with
  | ret a => simp [bind, Visits, exec]
  | read b part k ih => simp only [bind, Visits, exec, ih, and_assoc]
  | write b v k ih => simp only [bind, Visits, exec, ih, and_assoc]
  | log b v k ih => simp only [bind, Visits, exec, ih, and_assoc]
  | emit e k ih => simp only [bind, Visits, exec, ih]
  | commit k ih => simp only [bind, Visits, exec, ih, and_assoc]
  | stuck => simp [bind, Visits, exec]

theorem Visits.bind {p : BlockM ι β ε α} {f : α → BlockM ι β ε γ} {r : α × Store ι β ε}
    (hp : p.Visits ok s) (hexec : p.exec s = some r) (hf : (f r.1).Visits ok r.2) :
    (p >>= f).Visits ok s := by
  refine (visits_bind p f s).mpr ⟨hp, fun r' hr' => ?_⟩
  obtain rfl := Option.some.inj (hexec.symm.trans hr')
  exact hf

theorem visits_map {f : α → γ} {p : BlockM ι β ε α} (hp : p.Visits ok s) : (f <$> p).Visits ok s :=
  (visits_bind p _ s).mpr ⟨hp, fun _ _ => trivial⟩

theorem visits_readPart (h : ok (.read b part)) : (readPart b part : BlockM ι β ε β).Visits ok s :=
  ⟨h, trivial⟩

theorem visits_writeNow (h : ok (.write b v)) : (writeNow b v : BlockM ι β ε Unit).Visits ok s :=
  ⟨h, trivial⟩

theorem visits_writeLogged (h : ok (.log b v)) : (writeLogged b v : BlockM ι β ε Unit).Visits ok s :=
  ⟨h, trivial⟩

theorem visits_commitLog (h : ok .commit) : (commitLog : BlockM ι β ε Unit).Visits ok s := ⟨h, trivial⟩

end BlockM
