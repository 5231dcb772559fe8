import KeonOS.Lib.Ring
import KeonOS.Sched.Keyboard

/-!
# The keyboard as a queue

`keyboard_handler` turns scancodes into characters and stores them in a ring of 256 cells;
`keyboard_getchar` tests the ring and then takes a character from it. The handler does not look at
the read position: the ring holds 255 characters, and the next one makes it look empty.

* **`keyboard_fifo`**: when it does, after every step of a run.
-/

namespace KeonOS

open List

/-! ## Scancodes -/

def scancodeToAscii : List ℕ := [0, 27] ++ "1234567890-=".toList.map Char.toNat ++ [8, 9] ++
    "qwertyuiop[]\n".toList.map Char.toNat ++ [0] ++
    "asdfghjkl;'`".toList.map Char.toNat ++ [0] ++
    "\\zxcvbnm,./".toList.map Char.toNat ++ [0] ++ "*".toList.map Char.toNat ++ [0] ++
    " ".toList.map Char.toNat ++ [0] ++ List.replicate 10 0

/-- `get_shift_variant(c)`: the characters at the same place of the two rows. -/
def getShiftVariant (c : ℕ) : ℕ :=
  let plain := "1234567890-=[];'`\\,./".toList.map Char.toNat
  let shifted := "!@#$%^&*()_+\x7b\x7d:\"~|<>?".toList.map Char.toNat
  ((plain.zip shifted).lookup c).getD c

/-- `shift_pressed`, `caps_lock` -/
structure Modifiers where
  shiftPressed : Bool
  capsLock : Bool
deriving DecidableEq, Repr

namespace Modifiers

/-- The `default` branch of `keyboard_handler`. -/
def ascii (m : Modifiers) (scancode : ℕ) : ℕ :=
  match scancodeToAscii[scancode]? with
  | none => 0
  | some c =>
    if 97 ≤ c ∧ c ≤ 122 then if xor m.shiftPressed m.capsLock then c - 32 else c
    else if m.shiftPressed then getShiftVariant c
    else c

/-- `keyboard_handler()` up to the store: the modifiers and the character, `0` for none. -/
def decode (m : Modifiers) (scancode : UInt8) : Modifiers × ℕ :=
  if scancode &&& 0x80 ≠ 0 then
    let release := scancode &&& 0x7F
    if release = 0x2A ∨ release = 0x36 then ({ m with shiftPressed := false }, 0) else (m, 0)
  else if scancode = 0x2A ∨ scancode = 0x36 then ({ m with shiftPressed := true }, 0)
  else if scancode = 0x3A then ({ m with capsLock := !m.capsLock }, 0)
  else if scancode = 0x48 then (m, 0x11)
  else if scancode = 0x50 then (m, 0x12)
  else if scancode = 0x4B then (m, 0x13)
  else if scancode = 0x4D then (m, 0x14)
  else if scancode = 0x0E then (m, 8)
  else (m, m.ascii scancode.toNat)

end Modifiers

/-! ## The run -/

/-- An interrupt, the test of `keyboard_getchar`, and its end, which the test has let through. -/
inductive KeyEvent
  | key (scancode : UInt8)
  | test
  | getchar
deriving DecidableEq, Repr

/-- The keyboard and its reader, with what was typed and what was delivered so far. -/
structure KeyState where
  modifiers : Modifiers
  keyboard : Keyboard
  found : Bool
  typed : List ℕ
  delivered : List ℕ

namespace KeyState

def init (modifiers : Modifiers) (buffer : ℕ → ℕ) : KeyState :=
  ⟨modifiers, ⟨buffer, 0, 0⟩, false, [], []⟩

/-- `keyboard_handler()` -/
def handler (s : KeyState) (scancode : UInt8) : KeyState :=
  let (modifiers, ascii) := s.modifiers.decode scancode
  if ascii ≠ 0 then
    { s with
      modifiers := modifiers
      keyboard := s.keyboard.store ascii
      typed := s.typed ++ [ascii] }
  else { s with modifiers := modifiers }

/-- One event. `cli` keeps interrupts out of the end of `keyboard_getchar` only. -/
def step (s : KeyState) : KeyEvent → Option KeyState
  | .key scancode => some (s.handler scancode)
  | .test => if s.found then none else some { s with found := s.keyboard.hasInput }
  | .getchar =>
    if s.found then
      some { s with
        keyboard := s.keyboard.take.2
        found := false
        delivered := s.delivered ++ [s.keyboard.take.1] }
    else none

def run (s : KeyState) (events : List KeyEvent) : Option KeyState := events.foldlM step s

def unread (s : KeyState) : List ℕ :=
  ringContents keyboardBufferSize s.keyboard.buffer s.keyboard.readPos s.keyboard.writePos

def outstanding (s : KeyState) : List ℕ := s.typed.drop s.delivered.length

/-- What is delivered comes in typing order, and the ring holds the end of what is outstanding. -/
structure Fifo (s : KeyState) : Prop where
  order : s.delivered <+: s.typed
  suffix : s.unread <:+ s.outstanding
  length : s.unread.length = min s.outstanding.length 255
  input : s.outstanding ≠ [] → s.keyboard.hasInput = true

/-! ## Steps -/

variable {s s' : KeyState}

structure Bounded (s : KeyState) : Prop where
  read : s.keyboard.readPos < keyboardBufferSize
  write : s.keyboard.writePos < keyboardBufferSize

theorem Bounded.step (h : s.Bounded) {e : KeyEvent} (hs : s.step e = some s') : s'.Bounded := by
  have hmod (a : ℕ) : a % keyboardBufferSize < keyboardBufferSize := Nat.mod_lt _ (by decide)
  cases e with
  | key scancode =>
    cases hs
    unfold handler
    dsimp only
    split_ifs
    · exact ⟨h.read, hmod _⟩
    · exact ⟨h.read, h.write⟩
  | test =>
    simp only [KeyState.step, Option.ite_none_left_eq_some] at hs
    obtain rfl := Option.some.inj hs.2
    exact ⟨h.read, h.write⟩
  | getchar =>
    simp only [KeyState.step, Option.ite_none_right_eq_some] at hs
    obtain rfl := Option.some.inj hs.2
    exact ⟨hmod _, h.write⟩

/-- The invariant without overflow: the ring holds all that is outstanding. -/
structure Exact (s : KeyState) : Prop where
  order : s.delivered <+: s.typed
  unread : s.unread = s.outstanding
  length : s.outstanding.length ≤ 255
  found : s.found = true → s.outstanding ≠ []

theorem hasInput_iff (hb : s.Bounded) : s.keyboard.hasInput = true ↔ s.unread ≠ [] := by
  unfold Keyboard.hasInput unread
  rw [decide_eq_true_iff, ← ringLength_pos hb.read hb.write, ← length_pos_iff,
    ringContents_length]

theorem Exact.fifo (h : s.Exact) (hb : s.Bounded) : s.Fifo where
  order := h.order
  suffix := h.unread ▸ suffix_rfl
  length := by rw [h.unread, Nat.min_eq_left h.length]
  input hne := (hasInput_iff hb).mpr (h.unread ▸ hne)

theorem Exact.handler (h : s.Exact) (hb : s.Bounded) {scancode : UInt8}
    (hroom : (s.modifiers.decode scancode).2 ≠ 0 → s.outstanding.length < 255) :
    (s.handler scancode).Exact := by
  unfold KeyState.handler
  dsimp only
  split_ifs with hascii
  · have hroom := hroom hascii
    have hout : (s.typed ++ [(s.modifiers.decode scancode).2]).drop s.delivered.length =
        s.outstanding ++ [(s.modifiers.decode scancode).2] :=
      drop_append_of_le_length h.order.length_le
    have hlen : ringLength keyboardBufferSize s.keyboard.readPos s.keyboard.writePos + 1 <
        keyboardBufferSize := by
      rw [← ringContents_length s.keyboard.buffer]
      change s.unread.length + 1 < 256
      rw [h.unread]
      omega
    refine ⟨h.order.trans (prefix_append _ _), ?_, ?_, fun hf => ?_⟩
    · refine (ringContents_store hb.read hb.write hlen _ _).trans ?_
      refine Eq.trans ?_ hout.symm
      rw [← h.unread]
      rfl
    · refine (congrArg List.length hout).trans_le ?_
      rwa [length_append, length_singleton]
    · refine fun hnil => h.found hf ?_
      exact (append_eq_nil_iff.mp (hout.symm.trans hnil)).1
  · exact ⟨h.order, h.unread, h.length, h.found⟩

theorem Exact.take (h : s.Exact) (hb : s.Bounded) (hf : s.found = true) : ({ s with
        keyboard := s.keyboard.take.2
        found := false
        delivered := s.delivered ++ [s.keyboard.take.1] } : KeyState).Exact := by
  have hin : s.keyboard.readPos ≠ s.keyboard.writePos := by
    have hne := h.found hf
    rw [← h.unread] at hne
    rw [← ringLength_pos hb.read hb.write, ← ringContents_length s.keyboard.buffer]
    exact length_pos_iff.mpr hne
  have hcons := (ringContents_take hb.read hb.write hin s.keyboard.buffer).symm.trans h.unread
  obtain ⟨rest, hrest⟩ := h.order
  have hout : s.outstanding = rest := by rw [outstanding, ← hrest, drop_left]
  rw [hout] at hcons
  have htyped : s.typed = (s.delivered ++ [s.keyboard.buffer s.keyboard.readPos]) ++
      ringContents keyboardBufferSize s.keyboard.buffer
        ((s.keyboard.readPos + 1) % keyboardBufferSize) s.keyboard.writePos := by
    rw [append_assoc, singleton_append, hcons, hrest]
  have hdrop : s.typed.drop (s.delivered ++ [s.keyboard.buffer s.keyboard.readPos]).length =
      ringContents keyboardBufferSize s.keyboard.buffer
        ((s.keyboard.readPos + 1) % keyboardBufferSize) s.keyboard.writePos := by
    rw [htyped, drop_left]
  refine ⟨⟨_, htyped.symm⟩, hdrop.symm, ?_, fun h => by cases h⟩
  have hle := h.length
  rw [hout, ← hcons, length_cons] at hle
  refine (congrArg List.length hdrop).trans_le ?_
  omega

theorem Exact.step (h : s.Exact) (hb : s.Bounded) {e : KeyEvent}
    (hroom : ∀ scancode, e = .key scancode → (s.modifiers.decode scancode).2 ≠ 0 →
      s.outstanding.length < 255) (hs : s.step e = some s') : s'.Exact := by
  cases e with
  | key scancode =>
    cases hs
    exact h.handler hb (hroom scancode rfl)
  | test =>
    simp only [KeyState.step, Option.ite_none_left_eq_some] at hs
    obtain rfl := Option.some.inj hs.2
    refine ⟨h.order, h.unread, h.length, fun hf => ?_⟩
    exact h.unread ▸ (hasInput_iff hb).mp hf
  | getchar =>
    simp only [KeyState.step, Option.ite_none_right_eq_some] at hs
    obtain rfl := Option.some.inj hs.2
    exact h.take hb hs.1

theorem not_fifo_handler (h : s.Fifo) (hb : s.Bounded) {scancode : UInt8}
    (hascii : (s.modifiers.decode scancode).2 ≠ 0) (hfull : 255 ≤ s.outstanding.length) :
    ¬ (s.handler scancode).Fifo := by
  intro h'
  have hlen : ringLength keyboardBufferSize s.keyboard.readPos s.keyboard.writePos + 1 =
      keyboardBufferSize := by
    have := h.length
    rw [Nat.min_eq_right hfull, unread, ringContents_length] at this
    rw [this]
    rfl
  have hout : (s.handler scancode).outstanding ≠ [] := by
    unfold KeyState.handler outstanding
    simp only [hascii, ne_eq, not_false_eq_true, if_true]
    rw [drop_append_of_le_length h.order.length_le]
    simp
  have hpos := length_pos_iff.mpr hout
  have hunread := h'.length
  unfold KeyState.handler unread at hunread
  simp only [hascii, ne_eq, not_false_eq_true, if_true, ringContents_length] at hunread
  rw [show ringLength keyboardBufferSize (s.keyboard.store _).readPos (s.keyboard.store _).writePos
    = 0 from ringLength_full hb.read hb.write hlen] at hunread
  unfold KeyState.handler at hpos
  simp only [hascii, ne_eq, not_false_eq_true, if_true] at hpos
  omega

/-! ## Runs -/

theorem run_append (s : KeyState) (p q : List KeyEvent) :
    s.run (p ++ q) = (s.run p).bind fun s' => s'.run q :=
  foldlM_append

theorem run_concat {p : List KeyEvent} {e : KeyEvent} (h : s.run (p ++ [e]) = some s') :
    ∃ t, s.run p = some t ∧ t.step e = some s' := by
  rw [run_append, Option.bind_eq_some_iff] at h
  obtain ⟨t, ht, hs⟩ := h
  refine ⟨t, ht, ?_⟩
  simpa [run] using hs

theorem run_bounded (hb : s.Bounded) (p : List KeyEvent) : ∀ {s'}, s.run p = some s' → s'.Bounded := by
  induction p using List.reverseRecOn with
  | nil =>
    intro s' h
    cases h
    exact hb
  | append_singleton p e ih =>
    intro s' h
    obtain ⟨t, ht, hs⟩ := run_concat h
    exact (ih ht).step hs

theorem run_exact (h : s.Exact) (hb : s.Bounded) (p : List KeyEvent) : ∀ {s'},
    (∀ q scancode t, q ++ [.key scancode] <+: p → s.run q = some t →
      (t.modifiers.decode scancode).2 ≠ 0 → t.outstanding.length < 255) →
    s.run p = some s' → s'.Exact := by
  induction p using List.reverseRecOn with
  | nil =>
    intro s' _ hrun
    cases hrun
    exact h
  | append_singleton p e ih =>
    intro s' hroom hrun
    obtain ⟨t, ht, hs⟩ := run_concat hrun
    have hpre : p <+: p ++ [e] := prefix_append _ _
    have htx := ih (fun q scancode u hq => hroom q scancode u (hq.trans hpre)) ht
    refine htx.step (run_bounded hb p ht) (fun scancode he => ?_) hs
    subst he
    exact hroom p scancode t prefix_rfl ht

theorem run_replicate_key {m : Modifiers} {scancode : UInt8} {ascii : ℕ} (buffer : ℕ → ℕ)
    (hdec : m.decode scancode = (m, ascii)) (hascii : ascii ≠ 0) (n : ℕ) :
    ∃ s, (init m buffer).run (List.replicate n (.key scancode)) = some s ∧ s.modifiers = m ∧
      s.outstanding.length = n := by
  suffices h : ∃ s, (init m buffer).run (List.replicate n (.key scancode)) = some s ∧
      s.modifiers = m ∧ s.delivered = [] ∧ s.typed.length = n by
    obtain ⟨s, hs, hm, hd, ht⟩ := h
    exact ⟨s, hs, hm, by rw [outstanding, hd]; exact ht⟩
  induction n with
  | zero => exact ⟨_, rfl, rfl, rfl, rfl⟩
  | succ n ih =>
    obtain ⟨s, hs, hm, hd, ht⟩ := ih
    refine ⟨s.handler scancode, ?_, ?_⟩
    · rw [replicate_succ', run_append, hs]
      rfl
    · unfold handler
      simp [hm, hdec, hascii, hd, ht]

end KeyState

open KeyState

/-- **The keyboard is a queue** exactly when each character comes with less than 255 outstanding. -/
theorem keyboard_fifo (m : Modifiers) (buffer : ℕ → ℕ) (events : List KeyEvent) :
    (∀ p s, p <+: events → (init m buffer).run p = some s → s.Fifo) ↔
      ∀ p scancode s, p ++ [.key scancode] <+: events → (init m buffer).run p = some s →
        (s.modifiers.decode scancode).2 ≠ 0 → s.outstanding.length < 255 := by
  have hb : (init m buffer).Bounded := ⟨Nat.zero_lt_succ _, Nat.zero_lt_succ _⟩
  have hx : (init m buffer).Exact :=
    ⟨prefix_rfl, length_eq_zero_iff.mp ((ringContents_length _).trans (Nat.mod_self _)),
      Nat.zero_le _, fun h => by cases h⟩
  constructor
  · intro hfifo p scancode s hp hs hascii
    have hpre : p <+: p ++ [KeyEvent.key scancode] := prefix_append _ _
    by_contra hfull
    refine not_fifo_handler (hfifo p s (hpre.trans hp) hs) (run_bounded hb p hs) hascii
      (Nat.le_of_not_lt hfull) (hfifo _ _ hp ?_)
    rw [run_append, hs]
    rfl
  · intro hroom p s hp hs
    refine (run_exact hx hb p (fun q scancode t hq => ?_) hs).fifo (run_bounded hb p hs)
    exact hroom q scancode t (hq.trans hp)

/-- **After 256 keys with no read the ring looks empty**: `getchar` waits although 256 characters are
unread. -/
theorem keyboard_256_keys : ¬ ∀ p s, p <+: List.replicate 256 (KeyEvent.key 0x1E) →
      (init ⟨false, false⟩ fun _ => 0).run p = some s → s.Fifo := by
  intro h
  have hdec : Modifiers.decode ⟨false, false⟩ 0x1E = (⟨false, false⟩, 97) := by decide +kernel
  obtain ⟨s, hs, hm, hout⟩ := run_replicate_key (fun _ => 0) hdec (by decide) 255
  have hb : (init ⟨false, false⟩ fun _ => 0).Bounded := ⟨Nat.zero_lt_succ _, Nat.zero_lt_succ _⟩
  have hascii : (s.modifiers.decode 0x1E).2 ≠ 0 := by
    rw [hm, hdec]
    decide
  refine not_fifo_handler (h _ s ⟨[.key 0x1E], replicate_succ'.symm⟩ hs) (run_bounded hb _ hs)
    hascii hout.ge (h _ _ prefix_rfl ?_)
  rw [replicate_succ', run_append, hs]
  rfl

end KeonOS
