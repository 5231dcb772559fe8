import KeonOS.Lib.WriteAhead

/-!
# The order of the writes

The writes of a run with a log, one by one, with the disk after each of them. A run that gets stuck, or
whose journal does, has the writes before that.

* `DiskWrite`, `Moment`, **`BlockM.moments`**: the writes of a run;
* **`OneTransaction.logged_eq_nil`**: with a checkpoint before the commit block, that is so for no block.
-/

/-- A write of a run with a log: a block in its place, or an entry of the journal. -/
inductive DiskWrite (ι β σ : Type)
  | block (b : ι) (v : β)
  | descriptor (j : σ)
  | data (j : σ) (b : ι) (v : β)
  | commit (j : σ)
deriving DecidableEq

/-- A write, and the disk after it. -/
structure Moment (ι β σ : Type) where
  write : DiskWrite ι β σ
  disk : ι → β

variable {ι β ε σ α γ : Type} [DecidableEq ι]

namespace Wal

variable (w : Wal ι β σ)

omit [DecidableEq ι] in
/-- An entry of the journal, and what follows. -/
def putMoments (e : LogEntry β) (x : DiskWrite ι β σ) (j : σ) (d : ι → β)
    (rest : σ × (ι → β) → List (Moment ι β σ)) : List (Moment ι β σ) :=
  match w.put e j d with
  | none => []
  | some r => ⟨x, r.2⟩ :: rest r

def checkpointMoments : List (ι × β) → σ → (ι → β) → List (Moment ι β σ)
  | [], _, _ => []
  | (b, v) :: t, j, d =>
    w.putMoments (.data v) (.data j b v) j d fun r =>
      ⟨.block b v, Function.update r.2 b v⟩ :: checkpointMoments t r.1 (Function.update r.2 b v)

def commitMoments (s : Journaled ι β ε σ) : List (Moment ι β σ) :=
  if s.trans.isEmpty then []
  else
    w.putMoments .descriptor (.descriptor s.journal) s.journal s.store.disk fun r =>
      w.checkpointMoments s.trans r.1 r.2 ++ (w.checkpoint s.trans r.1 r.2).elim [] fun r =>
          w.putMoments .commit (.commit r.1) r.1 r.2 fun _ => []

def appendMoments (s : Journaled ι β ε σ) : List (Moment ι β σ) :=
  if w.cap ≤ s.trans.length then w.commitMoments s else []

end Wal

namespace BlockM

variable (w : Wal ι β σ)

/-- **The writes of a run with a log.** -/
def moments : BlockM ι β ε α → Journaled ι β ε σ → List (Moment ι β σ)
  | ret _, _ => []
  | read b part k, s => (k (part (s.store.disk b))).moments s
  | write b v k, s =>
    ⟨.block b v, Function.update s.store.disk b v⟩ :: k.moments { s with store := s.store.put b v }
  | log b v k, s => w.appendMoments s ++ (w.append b v s).elim [] fun s => k.moments s
  | emit e k, s => k.moments { s with store := s.store.emit e }
  | commit k, s => w.commitMoments s ++ (w.restart s).elim [] fun s => k.moments s
  | stuck, _ => []

/-- The blocks that a run logs, in order. -/
def logged : BlockM ι β ε α → Journaled ι β ε σ → List (ι × β)
  | ret _, _ => []
  | read b part k, s => (k (part (s.store.disk b))).logged s
  | write b v k, s => k.logged { s with store := s.store.put b v }
  | log b v k, s => (b, v) :: (w.append b v s).elim [] fun s => k.logged s
  | emit e k, s => k.logged { s with store := s.store.emit e }
  | commit k, s => (w.restart s).elim [] fun s => k.logged s
  | stuck, _ => []

variable {w}

theorem execJ_bind (p : BlockM ι β ε α) (f : α → BlockM ι β ε γ) (s : Journaled ι β ε σ) :
    (p >>= f).execJ w s = (p.execJ w s).bind fun r => (f r.1).execJ w r.2 := by
  change (p.bind f).execJ w s = _
  induction p generalizing s with
  | ret a => rfl
  | stuck => rfl
  | read b part k ih => exact ih _ s
  | write b v k ih => exact ih _
  | emit e k ih => exact ih _
  | log b v k ih =>
    rw [bind, execJ, execJ, Option.bind_assoc]
    exact congrArg _ (funext fun s => ih s)
  | commit k ih =>
    rw [bind, execJ, execJ, Option.bind_assoc]
    exact congrArg _ (funext fun s => ih s)

theorem logged_bind (p : BlockM ι β ε α) (f : α → BlockM ι β ε γ) (s : Journaled ι β ε σ) :
    (p >>= f).logged w s = p.logged w s ++ (p.execJ w s).elim [] fun r => (f r.1).logged w r.2 := by
  change (p.bind f).logged w s = _
  induction p generalizing s with
  | ret a => rfl
  | stuck => rfl
  | read b part k ih => exact ih _ s
  | write b v k ih => exact ih _
  | emit e k ih => exact ih _
  | log b v k ih =>
    rw [bind, logged, logged, execJ, List.cons_append]
    cases w.append b v s with
    | none => rfl
    | some s' => exact congrArg _ (ih s')
  | commit k ih =>
    rw [bind, logged, logged, execJ]
    cases w.restart s with
    | none => rfl
    | some s' => exact ih s'

end BlockM

variable {p : BlockM ι β ε α} {j : σ} {seq : σ → ℕ}

namespace BlockM

/-! ## Programs that only read -/

def ReadOnly : BlockM ι β ε α → Prop
  | ret _ => True
  | read _ _ k => ∀ v, (k v).ReadOnly
  | stuck => True
  | _ => False

variable {w : Wal ι β σ}

omit [DecidableEq ι] in
theorem ReadOnly.bind {f : α → BlockM ι β ε γ} (hp : p.ReadOnly)
    (hf : ∀ a, (f a).ReadOnly) : (p >>= f).ReadOnly := by
  change (p.bind f).ReadOnly
  induction p with
  | ret a => exact hf a
  | stuck => trivial
  | read b part k ih => exact fun v => ih v (hp v)
  | _ => exact hp.elim

theorem ReadOnly.exec_eq (hp : p.ReadOnly) (s : Store ι β ε) :
    p.exec s = (p.exec ⟨s.disk, []⟩).map fun r => (r.1, s) := by
  induction p with
  | ret a => rfl
  | stuck => rfl
  | read b part k ih => exact ih _ (hp _)
  | _ => exact hp.elim

theorem ReadOnly.execJ_eq (hp : p.ReadOnly) (s : Journaled ι β ε σ) :
    p.execJ w s = (p.exec ⟨s.store.disk, []⟩).map fun r => (r.1, s) := by
  induction p with
  | ret a => rfl
  | stuck => rfl
  | read b part k ih => exact ih _ (hp _)
  | _ => exact hp.elim

theorem ReadOnly.logged_eq (hp : p.ReadOnly) (s : Journaled ι β ε σ) : p.logged w s = [] := by
  induction p with
  | ret a => rfl
  | stuck => rfl
  | read b part k ih => exact ih _ (hp _)
  | _ => exact hp.elim

theorem ReadOnly.logged_bind (hp : p.ReadOnly) (f : α → BlockM ι β ε γ) (s : Journaled ι β ε σ) :
    (p >>= f).logged w s =
      ((p.exec ⟨s.store.disk, []⟩).map Prod.fst).elim [] fun a => (f a).logged w s := by
  rw [BlockM.logged_bind, hp.logged_eq, List.nil_append, hp.execJ_eq]
  cases p.exec ⟨s.store.disk, []⟩ <;> rfl

theorem logged_writeLogged (b : ι) (v : β) (f : Unit → BlockM ι β ε α) (s : Journaled ι β ε σ) :
    (writeLogged b v >>= f).logged w s ≠ [] := List.cons_ne_nil _ _

end BlockM

/-! ## Transactions -/

/-- **In one transaction**: the blocks `bs` are between a descriptor and its commit block, and none is
written to its place before that. -/
def OneTransaction (seq : σ → ℕ) (bs : List (ι × β)) (ws : List (DiskWrite ι β σ)) : Prop :=
  bs ≠ [] → ∃ pre j mid j' post, ws = pre ++ .descriptor j :: (mid ++ .commit j' :: post) ∧
    seq j = seq j' ∧ (∀ i, .descriptor i ∉ mid ∧ .commit i ∉ mid) ∧
    (∀ e ∈ bs, ∃ i, .data i e.1 e.2 ∈ mid) ∧ ∀ e ∈ bs, ∀ v, .block e.1 v ∉ pre ∧ .block e.1 v ∉ mid

/-- Every block in the journal is written to its place next. -/
def DataPlaced : List (DiskWrite ι β σ) → Prop
  | [] => True
  | .data _ b v :: ws => (∃ ws', ws = .block b v :: ws') ∧ DataPlaced ws
  | .block _ _ :: ws => DataPlaced ws
  | .descriptor _ :: ws => DataPlaced ws
  | .commit _ :: ws => DataPlaced ws

section DataPlaced

omit [DecidableEq ι]

variable {ws ws' : List (DiskWrite ι β σ)}

theorem DataPlaced.append (h : DataPlaced ws) (h' : DataPlaced ws') : DataPlaced (ws ++ ws') := by
  induction ws with
  | nil => exact h'
  | cons x ws ih =>
    cases x with
    | data j b v =>
      obtain ⟨⟨rest, rfl⟩, hrest⟩ := h
      exact ⟨⟨rest ++ ws', rfl⟩, ih hrest⟩
    | block b v => exact ih h
    | descriptor j => exact ih h
    | commit j => exact ih h

theorem DataPlaced.next {b : ι} {v : β} (h : DataPlaced (ws ++ .data j b v :: ws')) :
    ∃ rest, ws' = .block b v :: rest := by
  induction ws with
  | nil => exact h.1
  | cons x ws ih =>
    cases x with
    | data j b v => exact ih h.2
    | block b v => exact ih h
    | descriptor j => exact ih h
    | commit j => exact ih h

theorem OneTransaction.logged_eq_nil {bs : List (ι × β)} (hd : DataPlaced ws)
    (h : OneTransaction seq bs ws) : bs = [] := by
  by_contra hne
  obtain ⟨pre, j, mid, j', post, rfl, -, -, hdata, hplace⟩ := h hne
  obtain ⟨e, he⟩ := List.exists_mem_of_ne_nil bs hne
  obtain ⟨i, hi⟩ := hdata e he
  obtain ⟨mid₁, mid₂, rfl⟩ := List.append_of_mem hi
  have hnext : ∃ rest, mid₂ ++ .commit j' :: post = .block e.1 e.2 :: rest := by
    have hd' : DataPlaced ((pre ++ .descriptor j :: mid₁) ++
        .data i e.1 e.2 :: (mid₂ ++ .commit j' :: post)) := by
      simpa only [List.append_assoc, List.cons_append] using hd
    exact hd'.next
  obtain ⟨rest, hrest⟩ := hnext
  cases mid₂ with
  | nil => cases hrest
  | cons x mid₂ =>
    obtain ⟨rfl, -⟩ := List.cons.inj hrest
    exact (hplace e he e.2).2 (by simp)

end DataPlaced

section Placed

variable {w : Wal ι β σ}

theorem dataPlaced_checkpoint {t : List (ι × β)} {d : ι → β} :
    DataPlaced ((w.checkpointMoments t j d).map Moment.write) := by
  induction t generalizing j d with
  | nil => trivial
  | cons e t ih =>
    rw [Wal.checkpointMoments, Wal.putMoments]
    cases w.put (.data e.2) j d with
    | none => trivial
    | some r => exact ⟨⟨_, rfl⟩, ih⟩

theorem dataPlaced_commit (s : Journaled ι β ε σ) :
    DataPlaced ((w.commitMoments s).map Moment.write) := by
  rw [Wal.commitMoments]
  split_ifs
  · trivial
  rw [Wal.putMoments]
  cases w.put .descriptor s.journal s.store.disk with
  | none => trivial
  | some r =>
    change DataPlaced (List.map Moment.write (w.checkpointMoments s.trans r.1 r.2 ++ _))
    rw [List.map_append]
    refine DataPlaced.append dataPlaced_checkpoint ?_
    cases w.checkpoint s.trans r.1 r.2 with
    | none => trivial
    | some r =>
      rw [Option.elim_some, Wal.putMoments]
      cases w.put .commit r.1 r.2 <;> trivial

theorem BlockM.dataPlaced_moments (p : BlockM ι β ε α) (s : Journaled ι β ε σ) :
    DataPlaced ((p.moments w s).map Moment.write) := by
  induction p generalizing s with
  | ret a => trivial
  | stuck => trivial
  | read b part k ih => exact ih _ s
  | write b v k ih => exact ih _
  | emit e k ih => exact ih _
  | log b v k ih =>
    rw [moments, List.map_append]
    refine DataPlaced.append ?_ ?_
    · rw [Wal.appendMoments]
      split_ifs
      · exact dataPlaced_commit s
      · trivial
    · cases w.append b v s with
      | none => trivial
      | some s' => exact ih s'
  | commit k ih =>
    rw [moments, List.map_append]
    refine (dataPlaced_commit s).append ?_
    cases w.restart s with
    | none => trivial
    | some s' => exact ih s'

theorem BlockM.oneTransaction_iff {s : Journaled ι β ε σ} :
    OneTransaction seq (p.logged w s) ((p.moments w s).map Moment.write) ↔ p.logged w s = [] :=
  ⟨OneTransaction.logged_eq_nil (p.dataPlaced_moments s), fun h hne => absurd h hne⟩

end Placed
