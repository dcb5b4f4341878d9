import SengOS.Lib.Bytes
import SengOS.Lib.Ring

/-!
# The VGA terminal

`vga.c` keeps the last 200 lines in a ring, copies 25 of them to the screen and moves
the hardware cursor. Line numbers only grow; `text_buffer` is one stretch of cells, so
that an index outside a row means what it means in C, and `wild` records that one was
used. The stretch of lines is at most 2^31 long, so `int` is `Int`.
-/

namespace SengOS

abbrev Cell := BitVec 16

/-- `((uint16_t)attr << 8) | c`. -/
def cell (attr c : Byte) : Cell := attr.setWidth 16 <<< 8 ||| c.setWidth 16

/-- `VGA_ATTR`. -/
def vgaAttr (fg bg : Word) : Byte := (bg <<< 4 ||| fg).setWidth 8

structure Vga where
  /-- `text_buffer[slot][col]` at `slot * 80 + col`. -/
  textBuffer : Int → Cell
  cursorLine : Int
  cursorCol : Int
  firstLine : Int
  lineCount : Int
  viewTop : Int
  followTail : Bool
  curAttr : Byte
  /-- The 80×25 cells at `VGA_ADDR`. -/
  screen : Fin 25 → Fin 80 → Cell
  /-- The registers of the CRT controller that the driver has written. -/
  crtc : Byte → Option Byte
  /-- A store to `text_buffer` was outside its 200 rows of 80 cells. -/
  wild : Bool

namespace Vga

/-- The static variables as the program is loaded, and what the screen shows then. -/
def loaded (screen : Fin 25 → Fin 80 → Cell) : Vga :=
  { textBuffer := fun _ => 0#16
    cursorLine := 0
    cursorCol := 0
    firstLine := 0
    lineCount := 1
    viewTop := 0
    followTail := true
    curAttr := 0#8
    screen := screen
    crtc := fun _ => none
    wild := false }

def lastLine (t : Vga) : Int := t.firstLine + t.lineCount - 1

def lineSlot (line : Int) : Int :=
  let slot := line.tmod 200
  if slot < 0 then slot + 200 else slot

/-- `text_buffer[line_slot(line)][col]`. -/
def cellAt (t : Vga) (line col : Int) : Cell := t.textBuffer (lineSlot line * 80 + col)

def store (t : Vga) (line col : Int) (v : Cell) : Vga :=
  { t with
    textBuffer := Function.update t.textBuffer (lineSlot line * 80 + col) v
    wild := t.wild || !decide (0 ≤ lineSlot line ∧ lineSlot line < 200 ∧ 0 ≤ col ∧ col < 80) }

/-! ## The hardware cursor -/

/-- `outb(0x3D4, reg); outb(0x3D5, v)`. -/
def outCrtc (t : Vga) (reg v : Byte) : Vga := { t with crtc := Function.update t.crtc reg (some v) }

def enableHwCursor (t : Vga) : Vga := (t.outCrtc 0x0A#8 0x0E#8).outCrtc 0x0B#8 0x0F#8

def disableHwCursor (t : Vga) : Vga := t.outCrtc 0x0A#8 0x20#8

def updateHwCursor (t : Vga) : Vga :=
  if !t.followTail then t.disableHwCursor
  else
    let screenRow := t.cursorLine - t.viewTop
    if screenRow < 0 ∨ screenRow ≥ 25 then t.disableHwCursor
    else
      let pos := BitVec.ofInt 16 (screenRow * 80 + t.cursorCol)
      (t.enableHwCursor.outCrtc 0x0F#8 (pos.setWidth 8)).outCrtc 0x0E#8 ((pos >>> 8).setWidth 8)

/-! ## Lines and views -/

def fillLine (t : Vga) (line : Int) (attr : Byte) : Vga :=
  (List.range 80).foldl (fun t (c : Nat) => t.store line c (cell attr 0x20#8)) t

/-- What `render_view` copies to the screen. -/
def view (t : Vga) : Fin 25 → Fin 80 → Cell := fun r c =>
  let line := t.viewTop + r.val
  if line ≥ t.firstLine ∧ line ≤ t.lastLine then t.cellAt line c.val else cell t.curAttr 0x20#8

def renderView (t : Vga) : Vga := { t with screen := t.view }.updateHwCursor

def ensureTailView (t : Vga) : Vga :=
  let tailTop := t.cursorLine - 24
  { t with viewTop := if tailTop < t.firstLine then t.firstLine else tailTop }

def newLine (t : Vga) : Vga :=
  let t := { t with cursorLine := t.cursorLine + 1, cursorCol := 0 }
  let t :=
    if t.lineCount < 200 then { t with lineCount := t.lineCount + 1 }
    else { t with firstLine := t.firstLine + 1 }
  let t := t.fillLine t.cursorLine t.curAttr
  if t.followTail then t.ensureTailView else t

def vgaWriteCurrent (t : Vga) (c : Byte) : Vga := t.store t.cursorLine t.cursorCol (cell t.curAttr c)

/-! ## Calls -/

/-- The common body of `vga_init` and `vga_clear`. -/
def reset (t : Vga) (attr : Byte) : Vga :=
  let t :=
    { t with
      curAttr := attr
      cursorLine := 0
      cursorCol := 0
      firstLine := 0
      lineCount := 1
      viewTop := 0
      followTail := true }
  ((List.range 200).foldl (fun t (r : Nat) => t.fillLine r t.curAttr) t).renderView

def vgaInit (t : Vga) : Vga := t.reset (vgaAttr 7#32 0#32)

def vgaClear (t : Vga) (bg : Word) : Vga := t.reset (vgaAttr 7#32 bg)

def vgaSetColor (t : Vga) (fg bg : Word) : Vga := { t with curAttr := vgaAttr fg bg }

def vgaGetFg (t : Vga) : Word := (t.curAttr &&& 0x0F#8).setWidth 32

def vgaGetBg (t : Vga) : Word := (t.curAttr >>> 4 &&& 0x0F#8).setWidth 32

/-- A character goes to the tail of the text, whatever the view was. -/
def follow (t : Vga) : Vga :=
  if !t.followTail then { t with followTail := true }.ensureTailView else t

/-- `vga_putchar` between the change of the view and the rendering. -/
def emit (t : Vga) (c : Byte) : Vga :=
  if c = 0x0A#8 then t.newLine
  else if c = 0x0D#8 then { t with cursorCol := 0 }
  else if c = 0x09#8 then
    -- `(cursor_col + 8) & ~7`
    let next := (t.cursorCol + 8) / 8 * 8
    if next ≥ 80 then t.newLine else { t with cursorCol := next }
  else if c = 0x08#8 then
    if t.cursorCol > 0 then
      { t with cursorCol := t.cursorCol - 1 }.vgaWriteCurrent 0x20#8
    else t
  else
    let t := if t.cursorCol ≥ 80 then t.newLine else t
    let t := t.vgaWriteCurrent c
    let t := { t with cursorCol := t.cursorCol + 1 }
    if t.cursorCol ≥ 80 then t.newLine else t

def vgaPutchar (t : Vga) (c : Byte) : Vga :=
  let t := t.follow.emit c
  if t.followTail then t.ensureTailView.renderView else t.renderView

/-- The loop of `ensure_line_exists` that adds lines until there are 200. -/
def growTail (line : Int) : Nat → Vga → Vga
  | 0, t => t
  | n + 1, t =>
    if line > t.lastLine ∧ t.lineCount < 200 then
      let t := t.fillLine (t.firstLine + t.lineCount) t.curAttr
      growTail line n { t with lineCount := t.lineCount + 1 }
    else t

/-- The loop that drops the first line for each one it adds. -/
def slideTail (line : Int) : Nat → Vga → Vga
  | 0, t => t
  | n + 1, t =>
    if line > t.lastLine then
      let t := { t with firstLine := t.firstLine + 1 }
      slideTail line n (t.fillLine (t.firstLine + t.lineCount - 1) t.curAttr)
    else t

/-- Each turn of the two loops adds one line, so as many turns as lines are missing end them. -/
def ensureLineExists (t : Vga) (line : Int) : Vga :=
  if line < t.firstLine then t
  else
    let t := growTail line (line - t.lastLine).toNat t
    slideTail line (line - t.lastLine).toNat t

def vgaSetCursor (t : Vga) (row col : Int) : Vga :=
  let row := if row < 0 then 0 else row
  let row := if row ≥ 25 then 24 else row
  let col := if col < 0 then 0 else col
  let col := if col ≥ 80 then 79 else col
  let t := { t with cursorLine := t.viewTop + row }
  let t := if t.cursorLine < t.firstLine then { t with cursorLine := t.firstLine } else t
  let t := t.ensureLineExists t.cursorLine
  { t with cursorCol := col, followTail := true }.ensureTailView.renderView

/-- The view a page up or down, not beyond the window. -/
def scrolled (t : Vga) (direction : Int) : Vga :=
  let maxTop := t.lastLine - 24
  let maxTop := if maxTop < t.firstLine then t.firstLine else maxTop
  if direction < 0 then
    let viewTop := t.viewTop - 24
    let viewTop := if viewTop < t.firstLine then t.firstLine else viewTop
    { t with viewTop := viewTop, followTail := viewTop == maxTop }
  else if direction > 0 then
    let viewTop := t.viewTop + 24
    if viewTop ≥ maxTop then { t with viewTop := maxTop, followTail := true }
    else { t with viewTop := viewTop, followTail := false }
  else t

def vgaScrollPage (t : Vga) (direction : Int) : Vga := (t.scrolled direction).renderView

/-! ## Boxes -/

/-- The loop over the top and bottom borders, from column `c` of the box on. -/
def boxEdges (top bottom col width : Int) : Nat → Int → Vga → Vga
  | 0, _, t => t
  | n + 1, c, t =>
    if col + c ≥ 80 then t
    else
      let t :=
        if top ≥ t.firstLine ∧ top ≤ t.lastLine then
          t.store top (col + c) (cell t.curAttr
            (if c = 0 then 0xC9#8 else if c = width - 1 then 0xBB#8 else 0xCD#8))
        else t
      let t :=
        if bottom ≥ t.firstLine ∧ bottom ≤ t.lastLine then
          t.store bottom (col + c) (cell t.curAttr
            (if c = 0 then 0xC8#8 else if c = width - 1 then 0xBC#8 else 0xCD#8))
        else t
      boxEdges top bottom col width n (c + 1) t

/-- The loop over the left and right borders, from row `r` of the box on. -/
def boxSides (top col width : Int) : Nat → Int → Vga → Vga
  | 0, _, t => t
  | n + 1, r, t =>
    let line := top + r
    let t :=
      if line < t.firstLine ∨ line > t.lastLine then t
      else
        let t := if col ≥ 0 ∧ col < 80 then t.store line col (cell t.curAttr 0xBA#8) else t
        if col + width - 1 ≥ 0 ∧ col + width - 1 < 80 then
          t.store line (col + width - 1) (cell t.curAttr 0xBA#8)
        else t
    boxSides top col width n (r + 1) t

def vgaDrawBox (t : Vga) (row col height width : Int) (color : Word) : Vga :=
  let savedAttr := t.curAttr
  let top := t.viewTop + row
  let bottom := top + height - 1
  let t := t.ensureLineExists bottom
  let t := { t with curAttr := vgaAttr color 0#32 }
  let t := boxEdges top bottom col width width.toNat 0 t
  let t := boxSides top col width (height - 2).toNat 1 t
  { t with curAttr := savedAttr }.renderView

end Vga

/-! ## The ring of rows -/

/-- The cells of a line. -/
abbrev Row := Fin 80 → Cell

def blankRow (attr : Byte) : Row := fun _ => cell attr 0x20#8

namespace Vga

variable {t : Vga}

/-- The rows of `text_buffer` by slot. -/
def rows (t : Vga) : Int → Row := fun slot c => t.textBuffer (slot * 80 + c.val)

theorem lineSlot_eq (line : Int) : lineSlot line = line % 200 := by
  unfold lineSlot
  dsimp only
  rw [Int.tmod_eq_emod]
  split <;> split <;> omega

theorem cellAt_eq (t : Vga) (line : Int) (c : Fin 80) : t.cellAt line c.val = t.rows (line % 200) c := by
  rw [cellAt, lineSlot_eq]
  rfl

/-- A store inside a row. -/
theorem store_eq (t : Vga) (line : Int) {col : Int} (hlo : 0 ≤ col) (hhi : col < 80) (v : Cell) :
    t.store line col v =
      { t with textBuffer := Function.update t.textBuffer (line % 200 * 80 + col) v } := by
  rw [store, lineSlot_eq, decide_eq_true (by omega)]
  simp only [Bool.not_true, Bool.or_false]

theorem rows_update (t : Vga) (slot : Int) (c : Fin 80) (v : Cell) :
    { t with textBuffer := Function.update t.textBuffer (slot * 80 + c.val) v }.rows =
      Function.update t.rows slot (Function.update (t.rows slot) c v) := by
  have hc := c.isLt
  funext s d
  have hd := d.isLt
  dsimp only [rows]
  by_cases hs : s = slot
  · subst hs
    rw [Function.update_self]
    by_cases hdc : d = c
    · rw [hdc, Function.update_self, Function.update_self]
    · have hne : d.val ≠ c.val := fun h => hdc (Fin.ext h)
      rw [Function.update_of_ne (by omega), Function.update_of_ne hdc]
      rfl
  · rw [Function.update_of_ne (by omega), Function.update_of_ne hs]
    rfl

/-- A line is filled with blanks, and nothing else changes. -/
theorem fillLine_eq (t : Vga) (line : Int) (attr : Byte) :
    t.fillLine line attr =
      { t with
        textBuffer := fun i =>
          if line % 200 * 80 ≤ i ∧ i < line % 200 * 80 + 80 then cell attr 0x20#8 else t.textBuffer i } := by
  have hloop : ∀ n : Nat, n ≤ 80 →
      (List.range n).foldl (fun t (c : Nat) => t.store line c (cell attr 0x20#8)) t =
        { t with
          textBuffer := fun i =>
            if line % 200 * 80 ≤ i ∧ i < line % 200 * 80 + n then cell attr 0x20#8
            else t.textBuffer i } := by
    intro n
    induction n with
    | zero =>
      intro _
      have hnone : (fun i => if line % 200 * 80 ≤ i ∧ i < line % 200 * 80 + (0 : Nat) then
          cell attr 0x20#8 else t.textBuffer i) = t.textBuffer := by
        funext i
        exact if_neg (by omega)
      rw [hnone]
      rfl
    | succ n ih =>
      intro hn
      rw [List.range_succ, List.foldl_append, List.foldl_cons, List.foldl_nil, ih (by omega),
        store_eq _ _ (by omega) (by omega)]
      congr 1
      funext i
      rw [Function.update_apply]
      by_cases hi : i = line % 200 * 80 + n
      · rw [if_pos hi, if_pos (by omega)]
      · rw [if_neg hi]
        have hsame : (line % 200 * 80 ≤ i ∧ i < line % 200 * 80 + (n + 1 : Nat)) ↔
            (line % 200 * 80 ≤ i ∧ i < line % 200 * 80 + n) := by
          omega
        simp only [hsame]
  exact hloop 80 (Nat.le_refl 80)

theorem rows_fillLine (t : Vga) (line : Int) (attr : Byte) :
    (t.fillLine line attr).rows = Function.update t.rows (line % 200) (blankRow attr) := by
  rw [fillLine_eq]
  funext s d
  have hd := d.isLt
  dsimp only [rows]
  by_cases hs : s = line % 200
  · rw [hs, Function.update_self, if_pos (by omega)]
    rfl
  · rw [Function.update_of_ne hs, if_neg (by omega)]
    rfl

end Vga

end SengOS
