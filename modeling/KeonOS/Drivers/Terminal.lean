import KeonOS.Lib.Word

/-!
# The text terminal

`drivers/vga.cpp`: a cursor on a screen of 25 rows of 80 cells, which lie one row behind the other in
`terminal_buffer`. The limits are tested by equality after an increment.

* **`terminal_bounds`**: it holds after every sequence of calls.
-/

namespace KeonOS

open Word

abbrev vgaWidth : ℕ := 80

abbrev vgaHeight : ℕ := 25

structure VgaColor where
  fg : UInt8
  bg : UInt8

/-- `vga_color_t::to_byte` -/
def VgaColor.toByte (c : VgaColor) : UInt8 := c.bg <<< 4 ||| c.fg &&& 0x0F

def vgaEntry (uc : UInt8) (color : VgaColor) : UInt16 := uc.toUInt16 ||| color.toByte.toUInt16 <<< 8

/-- The globals of `drivers/vga.cpp`, with the position of the hardware cursor and the indices of the
cells stored to so far. -/
structure Terminal where
  row : ℕ
  column : ℕ
  color : VgaColor
  buffer : ℕ → UInt16
  cursor : ℕ
  stored : List ℕ

/-- `terminal_buffer[index] = entry` -/
def Terminal.put (t : Terminal) (index : ℕ) (entry : UInt16) : Terminal :=
  { t with buffer := Function.update t.buffer index entry, stored := index :: t.stored }

/-- Store a space to `n` cells from `first` on. -/
def Terminal.blank (t : Terminal) (first n : ℕ) (color : VgaColor) : Terminal :=
  { t with
    buffer := fun i => if first ≤ i ∧ i < first + n then vgaEntry 0x20 color else t.buffer i
    stored := (List.range n).map (first + ·) ++ t.stored }

def updateCursor (x y : ℕ) (t : Terminal) : Terminal :=
  { t with cursor := (y * vgaWidth + x) % 2 ^ 16 }

def terminalInitialize (t : Terminal) : Terminal :=
  let color := ⟨15, 0⟩
  { t with row := 0, column := 0, color := color, stored := [] }.blank 0 (vgaHeight * vgaWidth) color

def terminalPutentryat (t : Terminal) (c : UInt8) (color : VgaColor) (x y : ℕ) : Terminal :=
  t.put (y * vgaWidth + x) (vgaEntry c color)

def terminalScroll (t : Terminal) : Terminal :=
  let kept := (vgaHeight - 1) * vgaWidth
  let t := { t with
    buffer := fun i => if i < kept then t.buffer (i + vgaWidth) else t.buffer i
    stored := List.range kept ++ t.stored }
  { t.blank kept vgaWidth t.color with row := vgaHeight - 1 }

/-- `terminal_column = 0; if (++terminal_row == VGA_HEIGHT) terminal_scroll();` -/
def nextLine (t : Terminal) : Terminal :=
  let t := { t with column := 0, row := t.row + 1 }
  if t.row = vgaHeight then terminalScroll t else t

def terminalPutchar (t : Terminal) (c : UInt8) : Terminal :=
  let t :=
    if c = 0x0A then nextLine t
    else if c = 0x09 then
      let t := { t with column := alignDown 8 (t.column + 8) }
      if vgaWidth ≤ t.column then nextLine t else t
    else if c = 0x08 then
      let t :=
        if 0 < t.column then { t with column := t.column - 1 }
        else if 0 < t.row then { t with row := t.row - 1, column := vgaWidth - 1 }
        else t
      t.put (t.row * vgaWidth + t.column) (vgaEntry 0x20 t.color)
    else
      let t := terminalPutentryat t c t.color t.column t.row
      let t := { t with column := t.column + 1 }
      if t.column = vgaWidth then nextLine t else t
  updateCursor t.column t.row t

def terminalClear (t : Terminal) (color : VgaColor) : Terminal :=
  updateCursor 0 0 <| { t with row := 0, column := 0 }.blank 0 (vgaHeight * vgaWidth) color

def terminalMoveCursor (t : Terminal) (dx : ℤ) : Terminal :=
  let currentPos : ℤ := t.row * vgaWidth + t.column + dx
  let currentPos : ℤ :=
    if currentPos < 0 then 0
    else if (vgaHeight * vgaWidth : ℤ) ≤ currentPos then vgaHeight * vgaWidth - 1
    else currentPos
  let t := { t with row := (currentPos / vgaWidth).toNat, column := (currentPos % vgaWidth).toNat }
  updateCursor t.column t.row t

inductive TerminalOp
  | setcolor (color : VgaColor)
  | putchar (c : UInt8)
  | moveCursor (dx : ℤ)
  | clear (color : VgaColor)
  | scroll

def TerminalOp.run (t : Terminal) : TerminalOp → Terminal
  | setcolor color => { t with color := color }
  | putchar c => terminalPutchar t c
  | moveCursor dx => terminalMoveCursor t dx
  | clear color => terminalClear t color
  | scroll => terminalScroll t

/-! ## One call -/

/-- The cursor is on the screen, and so are the cells stored to. -/
structure OnScreen (t : Terminal) : Prop where
  row : t.row < 25
  column : t.column < 80
  stored : ∀ i ∈ t.stored, i < 2000

namespace OnScreen

variable {t : Terminal}

theorem put (h : OnScreen t) {i : ℕ} (hi : i < 2000) (entry : UInt16) : OnScreen (t.put i entry) :=
  ⟨h.row, h.column, List.forall_mem_cons.mpr ⟨hi, h.stored⟩⟩

theorem blank (h : OnScreen t) (first n : ℕ) (color : VgaColor) (hn : first + n ≤ 2000) :
    OnScreen (t.blank first n color) := by
  refine ⟨h.row, h.column, fun i hi => ?_⟩
  rcases List.mem_append.mp hi with hi | hi
  · obtain ⟨k, hk, rfl⟩ := List.mem_map.mp hi
    have := List.mem_range.mp hk
    omega
  · exact h.stored i hi

theorem move (h : OnScreen t) {row column : ℕ} (hrow : row < 25) (hcolumn : column < 80) :
    OnScreen { t with row := row, column := column } :=
  ⟨hrow, hcolumn, h.stored⟩

theorem scroll (h : OnScreen t) : OnScreen (terminalScroll t) := by
  have hkept : OnScreen { t with
      buffer := fun i => if i < 1920 then t.buffer (i + 80) else t.buffer i
      stored := List.range 1920 ++ t.stored } := by
    refine ⟨h.row, h.column, fun i hi => ?_⟩
    rcases List.mem_append.mp hi with hi | hi
    · exact (List.mem_range.mp hi).trans (by norm_num)
    · exact h.stored i hi
  exact (hkept.blank 1920 80 t.color (by norm_num)).move (show 24 < 25 by norm_num) h.column

theorem nextLine (h : OnScreen t) (column : ℕ) : OnScreen (nextLine { t with column := column }) := by
  have hrow := h.row
  unfold KeonOS.nextLine
  dsimp only
  split_ifs with hend
  · -- `terminal_scroll` reads the color and the cells only, so the row may be taken from before.
    exact (h.move h.row (show 0 < 80 by norm_num)).scroll
  · exact h.move (by simp only [vgaHeight] at hend; omega) (by norm_num)

theorem put_here (h : OnScreen t) (entry : UInt16) :
    OnScreen (t.put (t.row * vgaWidth + t.column) entry) := by
  have hrow := h.row
  have hcolumn := h.column
  exact h.put (by simp only [vgaWidth]; omega) entry

theorem putchar (h : OnScreen t) (c : UInt8) : OnScreen (terminalPutchar t c) := by
  have hrow := h.row
  have hcolumn := h.column
  have hcursor : ∀ {u : Terminal} {x y : ℕ}, OnScreen u → OnScreen (updateCursor x y u) :=
    fun hu => ⟨hu.row, hu.column, hu.stored⟩
  refine hcursor ?_
  by_cases hn : c = 0x0A
  · rw [if_pos hn]
    exact h.nextLine t.column
  rw [if_neg hn]
  by_cases ht : c = 0x09
  · dsimp only
    split_ifs with hfull
    · exact h.nextLine _
    · exact h.move hrow (not_le.mp hfull)
  rw [if_neg ht]
  by_cases hb : c = 0x08
  · rw [if_pos hb]
    refine put_here ?_ _
    split_ifs
    · exact h.move hrow (by omega)
    · exact h.move (by omega) (by norm_num)
    · exact h
  dsimp only
  have hput := h.put_here (vgaEntry c t.color)
  split_ifs with hfull
  · exact hput.nextLine _
  · refine hput.move hrow ?_
    have : t.column + 1 ≠ 80 := hfull
    change t.column + 1 < 80
    omega

theorem run (h : OnScreen t) (op : TerminalOp) : OnScreen (op.run t) := by
  cases op with
  | setcolor color => exact ⟨h.row, h.column, h.stored⟩
  | putchar c => exact h.putchar c
  | moveCursor dx =>
    refine ⟨?_, ?_, h.stored⟩
    all_goals
      simp only [TerminalOp.run, terminalMoveCursor, updateCursor, vgaWidth, vgaHeight, Nat.cast_ofNat]
      split_ifs <;> omega
  | clear color =>
    obtain ⟨hrow, hcolumn, hstored⟩ := (h.move (show 0 < 25 by norm_num)
      (show 0 < 80 by norm_num)).blank 0 2000 color le_rfl
    exact ⟨hrow, hcolumn, hstored⟩
  | scroll => exact h.scroll

end OnScreen

/-- **The cursor stays on the screen**, and every cell stored to is on it, after every sequence of calls. -/
theorem terminal_bounds (t : Terminal) (ops : List TerminalOp) :
    OnScreen (ops.foldl TerminalOp.run (terminalInitialize t)) := by
  suffices h : ∀ u, OnScreen u → OnScreen (ops.foldl TerminalOp.run u) by
    refine h _ (OnScreen.blank ?_ _ _ _ le_rfl)
    exact ⟨by norm_num, by norm_num, by simp⟩
  induction ops with
  | nil => exact fun u h => h
  | cons op ops ih => exact fun u h => ih _ (h.run op)

end KeonOS
