import SengOS.Vga.Bounds

/-!
# A terminal on paper

What the terminal is for: rows on an endless roll, each started blank in the colour of the
moment, written from left to right and continued on the next row behind column 80. The
ring of 200 slots shows the end of that roll, and the screen 25 rows of it.
-/

namespace SengOS

/-- The rows above the cursor's, the cursor's own, and where it stands in it. -/
structure Paper where
  above : List Row
  current : Row
  col : Fin 80
  attr : Byte

namespace Paper

def start (attr : Byte) : Paper := ⟨[], blankRow attr, 0, attr⟩

def rows (p : Paper) : List Row := p.above ++ [p.current]

def newLine (p : Paper) : Paper := ⟨p.rows, blankRow p.attr, 0, p.attr⟩

def write (p : Paper) (c : Byte) : Paper :=
  { p with current := Function.update p.current p.col (cell p.attr c) }

/-- Newline, carriage return, tab, backspace, and everything else. -/
def putchar (p : Paper) (c : Byte) : Paper :=
  if c = 0x0A#8 then p.newLine
  else if c = 0x0D#8 then { p with col := 0 }
  else if c = 0x09#8 then
    if h : (p.col.val / 8 + 1) * 8 < 80 then { p with col := ⟨(p.col.val / 8 + 1) * 8, h⟩ }
    else p.newLine
  else if c = 0x08#8 then
    if 0 < p.col.val then { p with col := ⟨p.col.val - 1, by omega⟩ }.write 0x20#8 else p
  else if h : p.col.val + 1 < 80 then { p.write c with col := ⟨p.col.val + 1, h⟩ }
  else (p.write c).newLine

end Paper

/-- What is printed: a character, or a colour for what follows. -/
inductive Stroke
  | char (c : Byte)
  | color (fg bg : Word)

def Paper.stroke (p : Paper) : Stroke → Paper
  | .char c => p.putchar c
  | .color fg bg => { p with attr := vgaAttr fg bg }

def Vga.stroke (t : Vga) : Stroke → Vga
  | .char c => t.vgaPutchar c
  | .color fg bg => t.vgaSetColor fg bg

/-- The ring holds the end of the roll. -/
structure Sim (t : Vga) (p : Paper) : Prop where
  attr : t.curAttr = p.attr
  col : t.cursorCol = p.col.val
  line : t.cursorLine = p.above.length
  last : t.lastLine = t.cursorLine
  count : t.lineCount = min 200 p.rows.length
  holds : Ring.Holds 200 t.rows t.firstLine t.lastLine fun L row => p.rows[L.toNat]? = some row

namespace Sim

variable {t : Vga} {p : Paper}

theorem length (p : Paper) : p.rows.length = p.above.length + 1 := by
  rw [Paper.rows, List.length_append]
  rfl

theorem placed (h : Sim t p) : Vga.Placed t := by
  have hlen := length p
  have hcount := h.count
  have hlast := h.last
  have hwindow := Vga.lastLine_eq t
  have hcol := h.col
  have hlt := p.col.isLt
  refine ⟨?_, ?_, ?_, ?_, ?_, ?_⟩ <;> omega

theorem firstLow (h : Sim t p) : 0 ≤ t.firstLine := by
  have hlen := length p
  have hcount := h.count
  have hlast := h.last
  have hline := h.line
  have hwindow := Vga.lastLine_eq t
  omega

theorem current (h : Sim t p) : t.rows (t.cursorLine % 200) = p.current := by
  have hplaced := h.placed
  have hline := h.line
  have hrow : p.rows[t.cursorLine.toNat]? = some (t.rows (t.cursorLine % 200)) :=
    h.holds t.cursorLine hplaced.cursorLow hplaced.cursorHigh
  have hend : p.rows[t.cursorLine.toNat]? = some p.current := by
    rw [hline, Int.toNat_natCast, Paper.rows, List.getElem?_append_right (Nat.le_refl _), Nat.sub_self]
    rfl
  rw [hend, Option.some.injEq] at hrow
  exact hrow.symm

theorem column (h : Sim t p) (col : Fin 80) :
    Sim { t with cursorCol := col.val } { p with col := col } :=
  ⟨h.attr, rfl, h.line, h.last, h.count, h.holds⟩

theorem write (h : Sim t p) (c : Byte) : Sim (t.vgaWriteCurrent c) (p.write c) := by
  have hplaced := h.placed
  have hrows := Vga.write_rows hplaced.colLow hplaced.colHigh c
  have hfirst := h.firstLow
  have hline := h.line
  have hlast := h.last
  have hwindow := Vga.lastLine_eq t
  have hfits := hplaced.fits
  obtain ⟨textBuffer, heq⟩ := Vga.write_eq hplaced.colLow hplaced.colHigh c
  have hcurrent : Function.update (t.rows (t.cursorLine % 200)) ⟨t.cursorCol.toNat, by
      have := hplaced.colLow; have := hplaced.colHigh; omega⟩ (cell t.curAttr c) = (p.write c).current := by
    rw [h.current, h.attr, Paper.write]
    congr 1
    apply Fin.ext
    show t.cursorCol.toNat = p.col.val
    rw [h.col, Int.toNat_natCast]
  rw [hcurrent] at hrows
  have hnew : Ring.Holds 200 (t.vgaWriteCurrent c).rows t.firstLine t.lastLine
      fun L row => (p.write c).rows[L.toNat]? = some row := by
    rw [hrows]
    refine h.holds.write (by omega) hplaced.cursorLow hplaced.cursorHigh ?_ fun M w hM hM' hne hw => ?_
    · rw [hline, Int.toNat_natCast, Paper.rows, Paper.write, List.getElem?_append_right (Nat.le_refl _),
        Nat.sub_self]
      rfl
    · have habove : M.toNat < p.above.length := by omega
      rw [Paper.rows, List.getElem?_append_left habove] at hw
      rw [Paper.rows, Paper.write, List.getElem?_append_left habove]
      exact hw
  have hcount : t.lineCount = min 200 (p.write c).rows.length := by
    rw [length, h.count, length]
    rfl
  rw [heq] at hnew ⊢
  exact ⟨h.attr, h.col, h.line, h.last, hcount, hnew⟩

theorem newLine (h : Sim t p) : Sim t.newLine p.newLine := by
  have hplaced := h.placed
  have hspec := Vga.newLine_spec t
  have hlen := length p
  have hfirst := h.firstLow
  have hline := h.line
  have hlast := h.last
  have hcount := h.count
  have hwindow := Vga.lastLine_eq t
  have hwindow' := Vga.lastLine_eq t.newLine
  rw [hspec.firstLine, hspec.lineCount] at hwindow'
  have hlen' : p.newLine.rows.length = p.rows.length + 1 := length p.newLine
  -- the roll goes on from the rows it had
  have hgrown : Ring.Holds 200 t.rows t.firstLine t.lastLine
      fun L row => p.newLine.rows[L.toNat]? = some row := by
    refine h.holds.mono fun L row hL hL' hrow => ?_
    have hrows : L.toNat < p.rows.length := by omega
    rw [Paper.newLine, Paper.rows, List.getElem?_append_left hrows]
    exact hrow
  have hblank : p.newLine.rows[(t.lastLine + 1).toNat]? = some (blankRow t.curAttr) := by
    rw [Paper.newLine, Paper.rows, show (t.lastLine + 1).toNat = p.rows.length by omega,
      List.getElem?_append_right (Nat.le_refl _), Nat.sub_self, h.attr]
    rfl
  have hlast' : t.newLine.lastLine = t.lastLine + 1 := by
    rw [hwindow']
    split <;> omega
  refine ⟨hspec.curAttr.trans h.attr, hspec.cursorCol, ?_, ?_, ?_, ?_⟩
  · rw [hspec.cursorLine, hline]
    show (p.above.length : Int) + 1 = (p.rows.length : Int)
    omega
  · rw [hlast', hspec.cursorLine, hlast]
  · rw [hspec.lineCount, hlen']
    split <;> omega
  · rw [hspec.rows, hlast', ← hlast]
    have hfirst : t.firstLine ≤ t.newLine.firstLine := by
      rw [hspec.firstLine]
      split <;> omega
    apply (hgrown.drop hfirst).push _ hblank
    rw [hspec.firstLine]
    split <;> omega

theorem emit (h : Sim t p) (c : Byte) : Sim (t.emit c) (p.putchar c) := by
  have hcol := h.col
  have hlt := p.col.isLt
  unfold Vga.emit Paper.putchar
  split
  · exact h.newLine
  · split
    · exact h.column 0
    · split
      · have htab : (t.cursorCol + 8) / 8 * 8 = ((p.col.val / 8 + 1) * 8 : Nat) := by omega
        dsimp only
        rw [htab]
        split
        · rw [dif_neg (by omega)]
          exact h.newLine
        · rw [dif_pos (by omega)]
          exact h.column ⟨_, by omega⟩
      · split
        · by_cases hpos : 0 < p.col.val
          · rw [if_pos (by omega), if_pos hpos]
            have hback := h.column ⟨p.col.val - 1, by omega⟩
            have hleft : t.cursorCol - 1 = ((p.col.val - 1 : Nat) : Int) := by omega
            rw [hleft]
            exact hback.write 0x20#8
          · rw [if_neg (by omega), if_neg hpos]
            exact h
        · have hwritten := h.write c
          have hnext : (t.vgaWriteCurrent c).cursorCol = p.col.val := hwritten.col
          rw [if_neg (show ¬ t.cursorCol ≥ 80 by omega)]
          dsimp only
          rw [hnext]
          by_cases hroom : p.col.val + 1 < 80
          · rw [if_neg (by omega), dif_pos hroom]
            exact hwritten.column ⟨p.col.val + 1, hroom⟩
          · rw [if_pos (by omega), dif_neg hroom]
            exact hwritten.newLine

/-- The view may be anywhere. -/
theorem viewed (h : Sim t p) (viewTop : Int) (followTail : Bool) :
    Sim { t with viewTop := viewTop, followTail := followTail } p :=
  ⟨h.attr, h.col, h.line, h.last, h.count, h.holds⟩

theorem follow (h : Sim t p) : Sim t.follow p := by
  unfold Vga.follow
  split
  · exact h.viewed _ _
  · exact h

end Sim

/-- Row `L` of the roll, if there is one, and blanks otherwise. -/
def Paper.shown (p : Paper) (attr : Byte) (L : Int) : Row :=
  (p.rows[L.toNat]?).getD (blankRow attr)

/-- What the terminal shows of the roll: the last 200 rows in the ring, 25 of them on the
screen, and blanks of one colour where the screen goes beyond the roll. -/
structure Shows (t : Vga) (p : Paper) : Prop where
  lineCount : t.lineCount = min 200 p.rows.length
  lastLine : t.lastLine = t.cursorLine
  numbered : t.lastLine + 1 = p.rows.length
  firstLine : 0 ≤ t.firstLine
  col : t.cursorCol = p.col.val
  attr : t.curAttr = p.attr
  cells : ∀ L, t.firstLine ≤ L → L ≤ t.lastLine →
    ∃ row, p.rows[L.toNat]? = some row ∧ ∀ c : Fin 80, t.cellAt L c.val = row c
  viewTop : t.firstLine ≤ t.viewTop ∧ t.viewTop ≤ t.lastLine
  screen : ∃ attr, ∀ r c, t.screen r c = p.shown attr (t.viewTop + r.val) c

/-- The roll in the ring, and the view as last rendered. -/
structure Rendered (t : Vga) (p : Paper) : Prop extends Sim t p where
  viewLow : t.firstLine ≤ t.viewTop
  viewHigh : t.viewTop ≤ t.lastLine
  screen : ∃ attr, ∀ r c, t.screen r c = p.shown attr (t.viewTop + r.val) c

namespace Rendered

variable {t : Vga} {p : Paper}

theorem shows (h : Rendered t p) : Shows t p := by
  have hlen := Sim.length p
  have hline := h.line
  have hlast := h.last
  refine ⟨h.count, h.last, by omega, h.firstLow, h.col, h.attr, fun L hL hL' => ?_,
    ⟨h.viewLow, h.viewHigh⟩, h.screen⟩
  refine ⟨t.rows (L % 200), h.holds L hL hL', fun c => ?_⟩
  rw [Vga.cellAt_eq]

/-- A rendering of a view in the window. -/
theorem render (h : Sim t p) (hlow : t.firstLine ≤ t.viewTop) (hhigh : t.viewTop ≤ t.lastLine) :
    Rendered t.renderView p := by
  have hfirst := h.firstLow
  have hlen := Sim.length p
  have hline := h.line
  have hlast := h.last
  obtain ⟨crtc, heq⟩ := Vga.renderView_eq t
  rw [heq]
  refine ⟨⟨h.attr, h.col, h.line, h.last, h.count, h.holds⟩, hlow, hhigh, t.curAttr, fun r c => ?_⟩
  show t.view r c = p.shown t.curAttr (t.viewTop + r.val) c
  rw [Vga.view_eq, Paper.shown]
  split
  · rename_i hin
    have hrow : p.rows[(t.viewTop + r.val).toNat]? = some (t.rows ((t.viewTop + r.val) % 200)) :=
      h.holds _ hin.1 hin.2
    rw [hrow]
    rfl
  · rename_i hout
    rw [List.getElem?_eq_none (by omega)]
    rfl

theorem tail (h : Sim t p) : Rendered t.ensureTailView.renderView p := by
  obtain ⟨_, hlow, hhigh⟩ := h.placed.tail
  exact render (h.viewed _ _) hlow hhigh

theorem char (h : Rendered t p) (c : Byte) : Rendered (t.vgaPutchar c) (p.putchar c) := by
  obtain ⟨hf, htail, _⟩ := h.placed.follow
  have hbeside := (hf.emit c).2
  rw [Vga.vgaPutchar, hbeside.followTail, htail, if_pos rfl]
  exact tail (h.follow.emit c)

theorem chars (h : Rendered t p) (cs : List Byte) :
    Rendered (cs.foldl Vga.vgaPutchar t) (cs.foldl Paper.putchar p) := by
  induction cs generalizing t p with
  | nil => exact h
  | cons c cs ih => exact ih (h.char c)

theorem scrollPage (h : Rendered t p) (direction : Int) : Rendered (t.vgaScrollPage direction) p := by
  obtain ⟨viewTop, followTail, hlow, hhigh, heq⟩ :=
    Vga.scrolled_eq h.placed h.viewLow h.viewHigh direction
  rw [Vga.vgaScrollPage, heq]
  exact render (h.toSim.viewed viewTop followTail) hlow hhigh

theorem color (h : Rendered t p) (fg bg : Word) :
    Rendered (t.vgaSetColor fg bg) (p.stroke (.color fg bg)) :=
  ⟨⟨rfl, h.col, h.line, h.last, h.count, h.holds⟩, h.viewLow, h.viewHigh, h.screen⟩

theorem stroke (h : Rendered t p) (s : Stroke) : Rendered (t.stroke s) (p.stroke s) := by
  cases s with
  | char c => exact h.char c
  | color fg bg => exact h.color fg bg

theorem strokes (h : Rendered t p) (ss : List Stroke) :
    Rendered (ss.foldl Vga.stroke t) (ss.foldl Paper.stroke p) := by
  induction ss generalizing t p with
  | nil => exact h
  | cons s ss ih => exact ih (h.stroke s)

theorem reset (t : Vga) (attr : Byte) : Rendered (t.reset attr) (.start attr) := by
  obtain ⟨u, heq, hu⟩ := Vga.reset_eq t attr
  have hlast := Vga.lastLine_eq u
  rw [hu.firstLine, hu.lineCount] at hlast
  rw [heq]
  apply render
  · refine ⟨hu.curAttr, hu.cursorCol, hu.cursorLine, ?_, hu.lineCount, fun L hL hL' => ?_⟩
    · rw [hlast, hu.cursorLine]
      rfl
    · have hzero : L = 0 := by
        rw [hu.firstLine] at hL
        omega
      rw [hu.rows, hzero]
      rfl
  · exact Int.le_of_eq (hu.firstLine.trans hu.viewTop.symm)
  · exact Int.le_of_eq (hu.viewTop.trans hlast.symm)

end Rendered

/-- The two calls that start the terminal afresh. -/
inductive Afresh
  | init
  | clear (bg : Word)

def Vga.afresh (t : Vga) : Afresh → Vga
  | .init => t.vgaInit
  | .clear bg => t.vgaClear bg

def Paper.afresh : Afresh → Paper
  | .init => .start (vgaAttr 7#32 0#32)
  | .clear bg => .start (vgaAttr 7#32 bg)

/-- Whatever is printed after `vga_init` or `vga_clear`, the terminal shows the roll. -/
theorem strokes_shown (t : Vga) (a : Afresh) (ss : List Stroke) :
    Shows (ss.foldl Vga.stroke (t.afresh a)) (ss.foldl Paper.stroke (Paper.afresh a)) := by
  apply Rendered.shows
  apply Rendered.strokes
  cases a with
  | init =>
    rw [Vga.afresh, Vga.vgaInit, Paper.afresh]
    exact Rendered.reset t _
  | clear bg =>
    rw [Vga.afresh, Vga.vgaClear, Paper.afresh]
    exact Rendered.reset t _

end SengOS
