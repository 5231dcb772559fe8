import KeonOS.Lib.Word

/-!
# The page frame allocator

`pfa_mark_used`, `pfa_free_frame` and the search of `pfa_alloc_frame` on the bitmap of 32-bit words.
The frame handed out is named by its number; the zeroing of its memory is in `Mm.Paging`.

* **`Pfa.take_spec`**: an allocation takes the lowest free frame and changes no other bit;
* **`Pfa.take_eq_none`**: it fails only when every frame is used.
-/

namespace KeonOS

open Word

/-- The globals of the frame allocator, as `pfa_init_from_multiboot2` sets them up. -/
structure Pfa where
  totalFrames : ℕ
  usedFrames : ℕ
  frameBitmap : ℕ → BitVec 32
  frameBitmapSize : ℕ
  total_le : totalFrames ≤ 2 ^ 52
  size_eq : frameBitmapSize = totalFrames / 32 + 1

namespace Pfa

def isUsed (p : Pfa) (f : ℕ) : Bool := (p.frameBitmap (f / 32)).getLsbD (f % 32)

/-- `frame_bitmap[i] |= (1 << bit); used_frames++` -/
def setBit (p : Pfa) (i bit : ℕ) : Pfa :=
  { p with
    frameBitmap := Function.update p.frameBitmap i (p.frameBitmap i ||| 1#32 <<< bit)
    usedFrames := add64 p.usedFrames 1 }

/-- `frame_bitmap[i] &= ~(1 << bit); used_frames--` -/
def clearBit (p : Pfa) (i bit : ℕ) : Pfa :=
  { p with
    frameBitmap := Function.update p.frameBitmap i (p.frameBitmap i &&& ~~~ (1#32 <<< bit))
    usedFrames := sub64 p.usedFrames 1 }

/-- The body of the loop of `pfa_mark_used`. -/
def markFrame (p : Pfa) (frame : ℕ) : Pfa :=
  if frame < p.totalFrames then
    if p.isUsed frame = false then p.setBit (frame / 32) (frame % 32) else p
  else p

/-- The first `n` iterations from frame number `frame`. -/
def markFrames (p : Pfa) (frame : ℕ) : ℕ → Pfa
  | 0 => p
  | n + 1 => (markFrames p frame n).markFrame (add64 frame n)

/-- `__builtin_ctz` on a nonzero word. -/
def ctz (w : BitVec 32) : ℕ := ((List.range 32).find? fun b => w.getLsbD b).getD 32

/-- The loop of `pfa_alloc_frame` over the words from `i` on. -/
def find (p : Pfa) : ℕ → ℕ → Option (ℕ × ℕ)
  | 0, _ => none
  | n + 1, i =>
    if p.frameBitmap i ≠ 0xFFFFFFFF#32 then
      let bit := ctz (~~~ p.frameBitmap i)
      if i * 32 + bit < p.totalFrames then some (i, bit) else find p n (i + 1)
    else find p n (i + 1)

/-- `pfa_alloc_frame` up to the zeroing: the frame number and the new globals. -/
def take (p : Pfa) : Option (ℕ × Pfa) :=
  (p.find p.frameBitmapSize 0).map fun r => (r.1 * 32 + r.2, p.setBit r.1 r.2)

end Pfa

def pfaMarkUsed (p : Pfa) (frameStart frameCount : ℕ) : Pfa :=
  p.markFrames (frameStart / 4096) frameCount

def pfaFreeFrame (p : Pfa) (frame : ℕ) : Pfa :=
  let f := frame / 4096
  if f < p.totalFrames then
    if p.isUsed f = true then p.clearBit (f / 32) (f % 32) else p
  else p

namespace Pfa

variable {p p' : Pfa} {f g n i bit : ℕ}

/-! ## Single bits -/

theorem getLsbD_shift (hb : bit < 32) (k : ℕ) : (1#32 <<< bit).getLsbD k = decide (k = bit) := by
  rcases lt_trichotomy k bit with h | rfl | h
  · simp [h, h.ne]
  · simp [hb]
  · simp [h.ne', show ¬ k < bit by omega, show k - bit ≠ 0 by omega]

theorem isUsed_setBit (hb : bit < 32) (g : ℕ) :
    (p.setBit i bit).isUsed g = (decide (g = i * 32 + bit) || p.isUsed g) := by
  simp only [isUsed, setBit, Function.update_apply]
  split_ifs with h
  · subst h
    rw [BitVec.getLsbD_or, getLsbD_shift hb, Bool.or_comm]
    congr 1
    exact decide_eq_decide.mpr (by omega)
  · rw [decide_eq_false (by omega), Bool.false_or]

theorem isUsed_clearBit (hb : bit < 32) (g : ℕ) :
    (p.clearBit i bit).isUsed g = (decide (g ≠ i * 32 + bit) && p.isUsed g) := by
  simp only [isUsed, clearBit, Function.update_apply]
  split_ifs with h
  · subst h
    rw [BitVec.getLsbD_and, BitVec.getLsbD_not, getLsbD_shift hb, Bool.and_comm]
    congr 1
    rw [decide_eq_true (Nat.mod_lt _ (by norm_num)), Bool.true_and, ← decide_not]
    exact decide_eq_decide.mpr (by omega)
  · rw [decide_eq_true (by omega), Bool.true_and]

@[simp] theorem totalFrames_setBit : (p.setBit i bit).totalFrames = p.totalFrames := rfl

@[simp] theorem totalFrames_clearBit : (p.clearBit i bit).totalFrames = p.totalFrames := rfl

theorem isUsed_markFrame (g : ℕ) : (p.markFrame f).isUsed g =
    (decide (g = f ∧ f < p.totalFrames) || p.isUsed g) := by
  rw [markFrame]
  split_ifs with h1 h2
  · rw [isUsed_setBit (Nat.mod_lt _ (by norm_num)), Nat.div_add_mod']
    simp [h1]
  · by_cases hg : g = f
    · subst hg
      simp [h2]
    · simp [hg]
  · simp [h1]

@[simp] theorem totalFrames_markFrame : (p.markFrame f).totalFrames = p.totalFrames := by
  rw [markFrame]
  split_ifs <;> rfl

theorem totalFrames_markFrames : (p.markFrames f n).totalFrames = p.totalFrames := by
  induction n with
  | zero => rfl
  | succ n ih => rw [markFrames, totalFrames_markFrame, ih]

theorem isUsed_markFrames (g : ℕ) : (p.markFrames f n).isUsed g = true ↔
    (g < p.totalFrames ∧ ∃ i < n, add64 f i = g) ∨ p.isUsed g = true := by
  induction n with
  | zero => simp [markFrames]
  | succ n ih =>
    rw [markFrames, isUsed_markFrame, totalFrames_markFrames, Bool.or_eq_true, ih,
      decide_eq_true_iff]
    constructor
    · rintro (⟨rfl, h⟩ | ⟨h, i, hi, hg⟩ | h)
      · exact .inl ⟨h, n, n.lt_succ_self, rfl⟩
      · exact .inl ⟨h, i, by omega, hg⟩
      · exact .inr h
    · rintro (⟨h, i, hi, hg⟩ | h)
      · rcases Nat.lt_succ_iff_lt_or_eq.mp hi with hi | rfl
        · exact .inr (.inl ⟨h, i, hi, hg⟩)
        · exact .inl ⟨hg.symm, hg ▸ h⟩
      · exact .inr (.inr h)

theorem isUsed_free (g : ℕ) : (pfaFreeFrame p f).isUsed g =
    (!decide (g = f / 4096 ∧ g < p.totalFrames) && p.isUsed g) := by
  simp only [pfaFreeFrame]
  split_ifs with h1 h2
  · rw [isUsed_clearBit (Nat.mod_lt _ (by norm_num)), Nat.div_add_mod', ← decide_not]
    congr 1
    exact decide_eq_decide.mpr (by omega)
  · by_cases hg : g = f / 4096
    · rw [hg, Bool.eq_false_of_not_eq_true h2, Bool.and_false]
    · simp [hg]
  · rw [decide_eq_false (by omega), Bool.not_false, Bool.true_and]

@[simp] theorem totalFrames_free : (pfaFreeFrame p f).totalFrames = p.totalFrames := by
  rw [pfaFreeFrame]
  split_ifs
  · exact totalFrames_clearBit
  · rfl
  · rfl

/-! ## The search -/

theorem full_eq_allOnes : (0xFFFFFFFF#32) = BitVec.allOnes 32 := by decide

theorem getLsbD_of_full {w : BitVec 32} (h : w = 0xFFFFFFFF#32) {b : ℕ} (hb : b < 32) :
    w.getLsbD b = true := by
  rw [h, full_eq_allOnes, BitVec.getLsbD_allOnes, decide_eq_true hb]

theorem ctz_not_spec {w : BitVec 32} (h : w ≠ 0xFFFFFFFF#32) : ctz (~~~ w) < 32 ∧
    w.getLsbD (ctz (~~~ w)) = false ∧ ∀ b < ctz (~~~ w), w.getLsbD b = true := by
  have hnot : ∀ b < 32, (~~~ w).getLsbD b = !w.getLsbD b := by
    intro b hb
    rw [BitVec.getLsbD_not, decide_eq_true hb, Bool.true_and]
  have hex : ∃ b < 32, (~~~ w).getLsbD b = true := by
    by_contra hc
    push Not at hc
    refine h (BitVec.eq_of_getLsbD_eq fun b hb => ?_)
    have h1 := hc b hb
    rw [hnot b hb, ne_eq, Bool.not_eq_true, Bool.not_eq_false'] at h1
    rw [h1, getLsbD_of_full rfl hb]
  cases hf : (List.range 32).find? fun b => (~~~ w).getLsbD b with
  | none =>
    obtain ⟨b, hb, hw⟩ := hex
    exact absurd hw (List.find?_eq_none.mp hf b (List.mem_range.mpr hb))
  | some b =>
    have hc : ctz (~~~ w) = b := by rw [ctz, hf, Option.getD_some]
    rw [List.find?_range_eq_some] at hf
    obtain ⟨h1, h2, h3⟩ := hf
    have hb : b < 32 := List.mem_range.mp h2
    rw [hc]
    refine ⟨hb, by simpa [hnot b hb] using h1, fun k hk => ?_⟩
    have hk' := h3 k hk
    rwa [hnot k (by omega), Bool.not_not] at hk'

theorem find_spec : ∀ {n i : ℕ}, (∀ g < i * 32, g < p.totalFrames → p.isUsed g = true) →
    match p.find n i with
    | some (j, b) => b < 32 ∧ j * 32 + b < p.totalFrames ∧ p.isUsed (j * 32 + b) = false ∧
        ∀ g < j * 32 + b, p.isUsed g = true
    | none => ∀ g < (i + n) * 32, g < p.totalFrames → p.isUsed g = true
  | 0, i, hi => by simpa [find] using hi
  | n + 1, i, hi => by
    have key : ∀ b < 32, p.isUsed (i * 32 + b) = (p.frameBitmap i).getLsbD b := by
      intro b hb
      rw [isUsed, show (i * 32 + b) / 32 = i by omega, show (i * 32 + b) % 32 = b by omega]
    -- the frames of word `i` below the number of frames are used when the loop goes on
    have next : (∀ b < 32, i * 32 + b < p.totalFrames → p.isUsed (i * 32 + b) = true) →
        ∀ g < (i + 1) * 32, g < p.totalFrames → p.isUsed g = true := by
      intro h g hg ht
      by_cases hlow : g < i * 32
      · exact hi g hlow ht
      · have := h (g - i * 32) (by omega) (by omega)
        rwa [show i * 32 + (g - i * 32) = g by omega] at this
    have eqn : (i + (n + 1)) * 32 = (i + 1 + n) * 32 := by omega
    simp only [find]
    split_ifs with h1 h2
    · obtain ⟨hb, hf, hl⟩ := ctz_not_spec h1
      refine ⟨hb, h2, by rw [key _ hb, hf], fun g hg => ?_⟩
      by_cases hlow : g < i * 32
      · exact hi g hlow (by omega)
      · have := key (g - i * 32) (by omega)
        rw [show i * 32 + (g - i * 32) = g by omega] at this
        rw [this, hl _ (by omega)]
    · obtain ⟨hb, hf, hl⟩ := ctz_not_spec h1
      rw [eqn]
      refine find_spec (next fun b hb' ht => ?_)
      rw [key b hb', hl b (by omega)]
    · rw [eqn]
      refine find_spec (next fun b hb' ht => ?_)
      rw [key b hb', getLsbD_of_full (not_not.mp h1) hb']

structure Takes (p : Pfa) (f : ℕ) (p' : Pfa) : Prop where
  lt : f < p.totalFrames
  free : p.isUsed f = false
  lowest : ∀ g < f, p.isUsed g = true
  used : ∀ g, p'.isUsed g = (decide (g = f) || p.isUsed g)
  total : p'.totalFrames = p.totalFrames

theorem take_spec (h : p.take = some (f, p')) : p.Takes f p' := by
  have hs := find_spec (p := p) (n := p.frameBitmapSize) (i := 0) (by omega)
  rw [take] at h
  cases hf : p.find p.frameBitmapSize 0 with
  | none => simp [hf] at h
  | some r =>
    rw [hf] at hs h
    obtain ⟨rfl, rfl⟩ := h
    obtain ⟨hb, ht, hu, hl⟩ := hs
    exact ⟨ht, hu, hl, isUsed_setBit hb, rfl⟩

theorem take_eq_none : p.take = none ↔ ∀ g < p.totalFrames, p.isUsed g = true := by
  constructor
  · intro h g hg
    have hs := find_spec (p := p) (n := p.frameBitmapSize) (i := 0) (by omega)
    rw [take, Option.map_eq_none_iff] at h
    rw [h] at hs
    have hz := p.size_eq
    exact hs g (by omega) hg
  · intro h
    cases ht : p.take with
    | none => rfl
    | some r =>
      have hs : p.Takes r.1 r.2 := take_spec ht
      exact absurd (h r.1 hs.lt) (by simp [hs.free])

/-- `k` allocations in a row succeed, none of them with frame 0, the null pointer. -/
def CanTake : ℕ → Pfa → Prop
  | 0, _ => True
  | k + 1, p => ∃ f p', p.take = some (f, p') ∧ f ≠ 0 ∧ CanTake k p'

theorem canTake_succ_of_take {k : ℕ} (h : p.take = some (f, p')) :
    CanTake (k + 1) p ↔ f ≠ 0 ∧ CanTake k p' := by
  constructor
  · rintro ⟨g, q, h', h1, h2⟩
    rw [h] at h'
    cases h'
    exact ⟨h1, h2⟩
  · exact fun h' => ⟨f, p', h, h'⟩

instance decidableCanTake : ∀ (k : ℕ) (p : Pfa), Decidable (CanTake k p)
  | 0, _ => isTrue trivial
  | k + 1, p =>
    match h : p.take with
    | none => isFalse fun ⟨_, _, h', _⟩ => by rw [h] at h'; cases h'
    | some (f, p') =>
      have := decidableCanTake k p'
      decidable_of_iff _ (canTake_succ_of_take h).symm

end Pfa

end KeonOS
