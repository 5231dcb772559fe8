import KeonOS.Lib.BlockM

/-!
# Write-ahead logging

The run of a block program with a log: a logged block is kept in memory, and a commit writes the pending
blocks to the journal and to their places. A read always goes to the disk.

* `Wal`, `Journaled`, **`BlockM.execJ`**: the run with a log;
* **`Wal.Within.sim`**: while no read misses a pending block and no block with a pending copy is written
  at once, the run with a log and the run without one agree.
-/

/-- What a journal records. -/
inductive LogEntry (β : Type)
  | descriptor
  | data (v : β)
  | commit

/-- A write-ahead log: how many blocks may be pending, and how entries are added to the journal. -/
structure Wal (ι β σ : Type) where
  cap : ℕ
  put : LogEntry β → σ → (ι → β) → Option (σ × (ι → β))
  start : σ → σ

/-- A store with the pending blocks, in the order of their logging, and the state of the journal. -/
structure Journaled (ι β ε σ : Type) where
  store : Store ι β ε
  trans : List (ι × β)
  journal : σ

variable {ι β ε σ α : Type} [DecidableEq ι]

/-- The disk after the writes `t`. -/
def applyAll (t : List (ι × β)) (d : ι → β) : ι → β := t.foldl (fun d e => Function.update d e.1 e.2) d

/-- The disk with the pending blocks in their places. -/
def Journaled.view (s : Journaled ι β ε σ) : ι → β := applyAll s.trans s.store.disk

namespace Wal

variable (w : Wal ι β σ)

/-- The pending blocks go to the journal and to their places. -/
def checkpoint : List (ι × β) → σ → (ι → β) → Option (σ × (ι → β))
  | [], j, d => some (j, d)
  | (b, v) :: t, j, d =>
    (w.put (.data v) j d).bind fun r => checkpoint t r.1 (Function.update r.2 b v)

def commit (s : Journaled ι β ε σ) : Option (Journaled ι β ε σ) :=
  if s.trans.isEmpty then some s
  else
    (w.put .descriptor s.journal s.store.disk).bind fun r =>
      (w.checkpoint s.trans r.1 r.2).bind fun r =>
        (w.put .commit r.1 r.2).map fun r =>
          { store := { s.store with disk := r.2 }, trans := [], journal := r.1 }

/-- Commit, and start a new transaction. -/
def restart (s : Journaled ι β ε σ) : Option (Journaled ι β ε σ) :=
  (w.commit s).map fun s => { s with trans := [], journal := w.start s.journal }

/-- Log a block; a full transaction is committed first. -/
def append (b : ι) (v : β) (s : Journaled ι β ε σ) : Option (Journaled ι β ε σ) :=
  (if w.cap ≤ s.trans.length then w.restart s else some s).map fun s =>
    { s with trans := s.trans ++ [(b, v)] }

end Wal

namespace BlockM

/-- The run with a log. -/
def execJ (w : Wal ι β σ) : BlockM ι β ε α → Journaled ι β ε σ → Option (α × Journaled ι β ε σ)
  | ret a, s => some (a, s)
  | read b part k, s => (k (part (s.store.disk b))).execJ w s
  | write b v k, s => k.execJ w { s with store := s.store.put b v }
  | log b v k, s => (w.append b v s).bind fun s => k.execJ w s
  | emit e k, s => k.execJ w { s with store := s.store.emit e }
  | commit k, s => (w.restart s).bind fun s => k.execJ w s
  | stuck, _ => none

/-- Every step of the run with a log meets `ok` in the state before it. -/
def Along (w : Wal ι β σ) (ok : BlockStep ι β → Journaled ι β ε σ → Prop) :
    BlockM ι β ε α → Journaled ι β ε σ → Prop
  | ret _, _ => True
  | read b part k, s => ok (.read b part) s ∧ (k (part (s.store.disk b))).Along w ok s
  | write b v k, s => ok (.write b v) s ∧ k.Along w ok { s with store := s.store.put b v }
  | log b v k, s => ok (.log b v) s ∧ ∀ s', w.append b v s = some s' → k.Along w ok s'
  | emit e k, s => k.Along w ok { s with store := s.store.emit e }
  | commit k, s => ok .commit s ∧ ∀ s', w.restart s = some s' → k.Along w ok s'
  | stuck, _ => True

end BlockM

/-! ## The condition -/

namespace BlockStep

/-- The step stays off the blocks `J` of the journal, and what it writes meets `P`. -/
def Apart (J : Set ι) (P : ι → β → Prop) : BlockStep ι β → Prop
  | read b _ => b ∉ J
  | write b v => b ∉ J ∧ P b v
  | log b v => b ∉ J ∧ P b v
  | commit => True

/-- What is read is not older than a pending copy, and a pending block is not written at once. -/
def Current : BlockStep ι β → Journaled ι β ε σ → Prop
  | read b part, s => part (s.store.disk b) = part (s.view b)
  | write b _, s => ∀ e ∈ s.trans, e.1 ≠ b
  | log _ _, _ => True
  | commit, _ => True

end BlockStep

namespace BlockStep

/-- The log holds no copy of the block that is read or written at once. -/
def Unlogged : BlockStep ι β → Journaled ι β ε σ → Prop
  | read b _, s => ∀ e ∈ s.trans, e.1 ≠ b
  | write b _, s => ∀ e ∈ s.trans, e.1 ≠ b
  | log _ _, _ => True
  | commit, _ => True

instance (step : BlockStep ι β) (s : Journaled ι β ε σ) : Decidable (step.Unlogged s) :=
  match step with
  | read b _ => inferInstanceAs (Decidable (∀ e ∈ s.trans, e.1 ≠ b))
  | write b _ => inferInstanceAs (Decidable (∀ e ∈ s.trans, e.1 ≠ b))
  | log _ _ => isTrue trivial
  | commit => isTrue trivial

end BlockStep

variable {p : BlockM ι β ε α} {s : Journaled ι β ε σ}

namespace BlockM

variable {w : Wal ι β σ} {ok ok' : BlockStep ι β → Journaled ι β ε σ → Prop}

theorem Along.mono (h : p.Along w ok s) (hok : ∀ step s, ok step s → ok' step s) : p.Along w ok' s := by
  induction p generalizing s with
  | ret a => trivial
  | stuck => trivial
  | read b part k ih => exact ⟨hok _ _ h.1, ih _ h.2⟩
  | write b v k ih => exact ⟨hok _ _ h.1, ih h.2⟩
  | log b v k ih => exact ⟨hok _ _ h.1, fun s' hs' => ih (h.2 s' hs')⟩
  | emit e k ih => exact ih h
  | commit k ih => exact ⟨hok _ _ h.1, fun s' hs' => ih (h.2 s' hs')⟩

/-- What holds of the result of a function that may have none. -/
def decidableForallSome {γ : Type} (o : Option γ) {p : γ → Prop} (hp : ∀ c, Decidable (p c)) :
    Decidable (∀ c, o = some c → p c) :=
  match o with
  | none => isTrue fun _ h => nomatch h
  | some c => decidable_of_iff (p c) ⟨fun h _ hc => Option.some.inj hc ▸ h, fun h => h c rfl⟩

instance decidableAlong [∀ step s, Decidable (ok step s)] :
    (p : BlockM ι β ε α) → (s : Journaled ι β ε σ) → Decidable (p.Along w ok s)
  | ret _, _ => isTrue trivial
  | read b part k, s =>
    have := decidableAlong (k (part (s.store.disk b))) s
    inferInstanceAs (Decidable (_ ∧ _))
  | write b v k, s =>
    have := decidableAlong k { s with store := s.store.put b v }
    inferInstanceAs (Decidable (_ ∧ _))
  | log b v k, s =>
    have := decidableForallSome (w.append b v s) fun s' => decidableAlong k s'
    inferInstanceAs (Decidable (_ ∧ _))
  | emit e k, s => decidableAlong k { s with store := s.store.emit e }
  | commit k, s =>
    have := decidableForallSome (w.restart s) fun s' => decidableAlong k s'
    inferInstanceAs (Decidable (_ ∧ _))
  | stuck, _ => isTrue trivial

end BlockM

/-- The journal of `w` lies in `J`, as long as the blocks meet `P`. -/
structure Wal.Within (w : Wal ι β σ) (J : Set ι) (P : ι → β → Prop) : Prop where
  put : ∀ e j d, (∀ b, P b (d b)) → ∃ r, w.put e j d = some r ∧ ∀ b, b ∉ J → r.2 b = d b
  journal : ∀ b ∈ J, ∀ v, P b v

/-! ## The simulation -/

/-- The run with a log is at `s` where the run without one is at `t`. -/
structure Sim (J : Set ι) (P : ι → β → Prop) (s : Journaled ι β ε σ) (t : Store ι β ε) : Prop where
  good : ∀ b, P b (s.store.disk b)
  pending : ∀ e ∈ s.trans, e.1 ∉ J ∧ P e.1 e.2
  view : ∀ b, b ∉ J → s.view b = t.disk b
  events : s.store.events = t.events

section Apply

variable {t : List (ι × β)} {d d' : ι → β} {b c : ι} {v : β}

theorem applyAll_cons : applyAll ((b, v) :: t) d = applyAll t (Function.update d b v) := rfl

theorem applyAll_append : applyAll (t ++ [(b, v)]) d = Function.update (applyAll t d) b v := by
  simp [applyAll]

theorem applyAll_of_notMem (h : ∀ e ∈ t, e.1 ≠ c) : applyAll t d c = d c := by
  induction t generalizing d with
  | nil => rfl
  | cons e t ih =>
    have ht := ih (d := Function.update d e.1 e.2) fun e' he' => h e' (List.mem_cons_of_mem _ he')
    exact ht.trans (Function.update_of_ne (Ne.symm (h e List.mem_cons_self)) _ _)

theorem applyAll_congr (h : d c = d' c) : applyAll t d c = applyAll t d' c := by
  induction t generalizing d d' with
  | nil => exact h
  | cons e t ih =>
    rw [applyAll_cons, applyAll_cons]
    refine ih ?_
    rw [Function.update_apply, Function.update_apply, h]

end Apply

theorem BlockStep.Unlogged.current {step : BlockStep ι β} (h : step.Unlogged s) : step.Current s := by
  cases step with
  | read b part => exact congrArg part (applyAll_of_notMem h).symm
  | write b v => exact h
  | log b v => trivial
  | commit => trivial

namespace Wal.Within

variable {w : Wal ι β σ} {J : Set ι} {P : ι → β → Prop}

variable {d : ι → β}

omit [DecidableEq ι] in
theorem put_good (hw : w.Within J P) (e : LogEntry β) (j : σ) (hd : ∀ b, P b (d b)) :
    ∃ r, w.put e j d = some r ∧ (∀ b, b ∉ J → r.2 b = d b) ∧ ∀ b, P b (r.2 b) := by
  obtain ⟨r, hr, hout⟩ := hw.put e j d hd
  refine ⟨r, hr, hout, fun b => ?_⟩
  by_cases hb : b ∈ J
  · exact hw.journal b hb _
  · rw [hout b hb]
    exact hd b

theorem checkpoint (hw : w.Within J P) {t : List (ι × β)} (ht : ∀ e ∈ t, e.1 ∉ J ∧ P e.1 e.2) (j : σ)
    (hd : ∀ b, P b (d b)) :
    ∃ r, w.checkpoint t j d = some r ∧ (∀ b, b ∉ J → r.2 b = applyAll t d b) ∧ ∀ b, P b (r.2 b) := by
  induction t generalizing j d with
  | nil => exact ⟨(j, d), rfl, fun _ _ => rfl, hd⟩
  | cons e t ih =>
    obtain ⟨b, v⟩ := e
    have hbv := ht _ List.mem_cons_self
    obtain ⟨r, hr, hout, hgood⟩ := hw.put_good (.data v) j hd
    have hgood' : ∀ c, P c (Function.update r.2 b v c) := by
      intro c
      rw [Function.update_apply]
      split_ifs with hcb
      · exact hcb ▸ hbv.2
      · exact hgood c
    obtain ⟨r', hr', hout', hgood''⟩ := ih (fun e he => ht e (List.mem_cons_of_mem _ he)) r.1 hgood'
    refine ⟨r', by rw [Wal.checkpoint, hr, Option.bind_some, hr'], fun c hc => ?_, hgood''⟩
    rw [hout' c hc, applyAll_cons]
    refine applyAll_congr ?_
    rw [Function.update_apply, Function.update_apply, hout c hc]

theorem commit (hw : w.Within J P) {t : Store ι β ε} (h : Sim J P s t) :
    ∃ s', w.commit s = some s' ∧ s'.trans = [] ∧ Sim J P s' t := by
  unfold Wal.commit
  split_ifs with hempty
  · exact ⟨s, rfl, List.isEmpty_iff.mp hempty, h⟩
  obtain ⟨r₁, hr₁, hout₁, hgood₁⟩ := hw.put_good .descriptor s.journal h.good
  obtain ⟨r₂, hr₂, hout₂, hgood₂⟩ := hw.checkpoint h.pending r₁.1 hgood₁
  obtain ⟨r₃, hr₃, hout₃, hgood₃⟩ := hw.put_good .commit r₂.1 hgood₂
  rw [hr₁, Option.bind_some, hr₂, Option.bind_some, hr₃]
  refine ⟨_, rfl, rfl, hgood₃, fun e he => absurd he List.not_mem_nil, fun b hb => ?_, h.events⟩
  calc r₃.2 b = r₂.2 b := hout₃ b hb
    _ = applyAll s.trans r₁.2 b := hout₂ b hb
    _ = applyAll s.trans s.store.disk b := applyAll_congr (hout₁ b hb)
    _ = t.disk b := h.view b hb

theorem restart (hw : w.Within J P) {t : Store ι β ε} (h : Sim J P s t) :
    ∃ s', w.restart s = some s' ∧ Sim J P s' t := by
  obtain ⟨s', hs', htrans, hsim⟩ := hw.commit h
  refine ⟨{ s' with trans := [], journal := w.start s'.journal }, by rw [Wal.restart, hs']; rfl,
    hsim.good, fun e he => absurd he List.not_mem_nil, fun b hb => ?_, hsim.events⟩
  rw [← hsim.view b hb, Journaled.view, Journaled.view, htrans]

theorem append (hw : w.Within J P) {t : Store ι β ε} (h : Sim J P s t) {b : ι}
    {v : β} (hb : b ∉ J) (hv : P b v) :
    ∃ s', w.append b v s = some s' ∧ Sim J P s' (t.put b v) := by
  obtain ⟨s₁, hs₁, hsim⟩ : ∃ s₁, (if w.cap ≤ s.trans.length then w.restart s else some s) = some s₁ ∧
      Sim J P s₁ t := by
    split_ifs
    · exact hw.restart h
    · exact ⟨s, rfl, h⟩
  refine ⟨{ s₁ with trans := s₁.trans ++ [(b, v)] }, by rw [Wal.append, hs₁]; rfl, hsim.good,
    fun e he => ?_, fun c hc => ?_, hsim.events⟩
  · rcases List.mem_append.mp he with he | he
    · exact hsim.pending e he
    · obtain rfl := List.mem_singleton.mp he
      exact ⟨hb, hv⟩
  · rw [Journaled.view, applyAll_append, Function.update_apply, Store.put_disk, ← hsim.view c hc]
    rfl

theorem write {s : Journaled ι β ε σ} {t : Store ι β ε} (h : Sim J P s t) {b : ι} {v : β}
    (hv : P b v) (hpend : ∀ e ∈ s.trans, e.1 ≠ b) :
    Sim J P { s with store := s.store.put b v } (t.put b v) := by
  refine ⟨fun c => ?_, h.pending, fun c hc => ?_, h.events⟩
  · rw [Store.put_disk]
    split_ifs with hcb
    · exact hcb ▸ hv
    · exact h.good c
  · rw [Store.put_disk, ← h.view c hc]
    split_ifs with hcb
    · subst hcb
      exact (applyAll_of_notMem hpend).trans Store.put_disk_self
    · exact applyAll_congr (Store.put_disk_of_ne hcb)

theorem sim (hw : w.Within J P) {t : Store ι β ε}
    (h : Sim J P s t) (hcur : p.Along w BlockStep.Current s)
    (hvis : p.Visits (fun step => step.Apart J P) t) :
    (p.execJ w s = none ∧ p.exec t = none) ∨
      ∃ a s' t', p.execJ w s = some (a, s') ∧ p.exec t = some (a, t') ∧ Sim J P s' t' := by
  induction p generalizing s t with
  | ret a => exact .inr ⟨a, s, t, rfl, rfl, h⟩
  | stuck => exact .inl ⟨rfl, rfl⟩
  | read b part k ih =>
    have hread : part (s.store.disk b) = part (t.disk b) := by
      rw [show part (s.store.disk b) = part (s.view b) from hcur.1, h.view b hvis.1]
    have hrun := ih _ h hcur.2 (hread ▸ hvis.2)
    rw [hread] at hrun
    rwa [BlockM.execJ, hread, BlockM.exec]
  | write b v k ih => exact ih (write h hvis.1.2 hcur.1) hcur.2 hvis.2
  | log b v k ih =>
    obtain ⟨s', hs', hsim⟩ := hw.append h hvis.1.1 hvis.1.2
    rw [BlockM.execJ, hs', Option.bind_some]
    exact ih hsim (hcur.2 s' hs') hvis.2
  | emit e k ih =>
    exact ih ⟨h.good, h.pending, h.view, congrArg (e :: ·) h.events⟩ hcur hvis
  | commit k ih =>
    obtain ⟨s', hs', hsim⟩ := hw.restart h
    rw [BlockM.execJ, hs', Option.bind_some]
    exact ih hsim (hcur.2 s' hs') hvis.2

end Wal.Within
