import SengOS.Vga.Paper

/-!
# New lines

A line that comes into the window is blank until something is written to it, as long as
no character makes a new line while the ring is full and the cursor stands above the last
line. `new_line` clears the line below the cursor, which is then not the one that comes in:
that one has the slot, and the text, of the line that has just left.
-/

namespace SengOS

/-- The character of the cell is a space. -/
def isBlank (v : Cell) : Bool := v.setWidth 8 == 0x20#8

/-- Something that was written to a line. -/
structure Mark where
  line : Int
  col : Int
  v : Cell
  deriving DecidableEq

namespace Vga

variable {t : Vga} {log : List Mark}

/-- What `vga_putchar` writes, and where. -/
def marks (t : Vga) (c : Byte) : List Mark :=
  if c = 0x0A#8 ∨ c = 0x0D#8 ∨ c = 0x09#8 then []
  else if c = 0x08#8 then
    if t.cursorCol > 0 then [⟨t.cursorLine, t.cursorCol - 1, cell t.curAttr 0x20#8⟩] else []
  else [⟨t.cursorLine, t.cursorCol, cell t.curAttr c⟩]

/-- The record of what was written since the terminal was last cleared. -/
def note (t : Vga) : TermCall → List Mark → List Mark
  | .init, _ => []
  | .clear _, _ => []
  | .putchar c, log => log ++ t.marks c
  | _, log => log

/-- The character makes `vga_putchar` call `new_line`. -/
def Breaks (t : Vga) (c : Byte) : Prop :=
  c = 0x0A#8 ∨ (c = 0x09#8 ∧ (t.cursorCol + 8) / 8 * 8 ≥ 80) ∨
    (c ≠ 0x0D#8 ∧ c ≠ 0x09#8 ∧ c ≠ 0x08#8 ∧ t.cursorCol + 1 ≥ 80)

instance (t : Vga) (c : Byte) : Decidable (t.Breaks c) :=
  inferInstanceAs (Decidable (_ ∨ _))

/-- A new line comes with room in the ring or below the last line. The calls are those of
the terminal without strings and boxes. -/
def KeepsTail (t : Vga) : TermCall → Prop
  | .putchar c => t.Breaks c → t.lineCount < 200 ∨ t.cursorLine = t.lastLine
  | .puts .. | .drawBox .. => False
  | _ => True

/-- The calls that throw all lines away. -/
def Clears : TermCall → Prop
  | .init | .clear _ => True
  | _ => False

/-- The text in the window has been written where it stands. -/
structure LinesFresh (t : Vga) (log : List Mark) : Prop where
  blank : ∀ L, t.firstLine ≤ L → L ≤ t.lastLine → (∀ m ∈ log, m.line ≠ L) →
    ∀ c : Fin 80, isBlank (t.cellAt L c.val) = true
  own : ∀ L, t.firstLine ≤ L → L ≤ t.lastLine → ∀ c : Fin 80,
    isBlank (t.cellAt L c.val) = true ∨ ⟨L, c.val, t.cellAt L c.val⟩ ∈ log
  gone : ∀ c, KeepsTail t c → ¬ Clears c → t.firstLine ≤ (t.next c).firstLine

/-- Line `L` holds blanks and what was written to it. -/
def Own (log : List Mark) (L : Int) (row : Row) : Prop :=
  ∀ c : Fin 80, isBlank (row c) = true ∨ ⟨L, c.val, row c⟩ ∈ log

/-- The slots past the last line count as lines to come. -/
structure Inked (t : Vga) (log : List Mark) : Prop extends Placed t where
  own : Ring.Holds 200 t.rows t.firstLine (t.firstLine + 199) (Own log)

theorem setWidth_cell (attr c : Byte) : (cell attr c).setWidth 8 = c := by
  apply BitVec.eq_of_getLsbD_eq
  intro i hi
  simp [cell, hi]

theorem isBlank_space (attr : Byte) : isBlank (cell attr 0x20#8) = true := by
  rw [isBlank, setWidth_cell]
  rfl

theorem own_blank (log : List Mark) (L : Int) (attr : Byte) : Own log L (blankRow attr) :=
  fun _ => .inl (isBlank_space attr)

theorem Inked.newLine (h : Inked t log) (htail : t.lineCount < 200 ∨ t.cursorLine = t.lastLine) :
    Inked t.newLine log := by
  have hspec := newLine_spec t
  have hlow := h.cursorLow
  have hhigh := h.cursorHigh
  have hfits := h.fits
  have hwindow := lastLine_eq t
  refine ⟨h.toPlaced.newLine, ?_⟩
  rw [hspec.rows, hspec.firstLine]
  split
  · exact h.own.write (by omega) (by omega) (by omega) (own_blank log _ _) fun _ _ _ _ _ h => h
  · have hline : t.cursorLine + 1 = t.firstLine + 199 + 1 := by omega
    have hdropped := h.own.drop (show t.firstLine ≤ t.firstLine + 1 by omega)
    have hpushed := hdropped.push (v := blankRow t.curAttr) (by omega) (own_blank log _ _)
    rw [hline, show t.firstLine + 1 + 199 = t.firstLine + 199 + 1 by omega]
    exact hpushed

theorem Inked.column (h : Inked t log) {col : Int} (hlo : 0 ≤ col) (hhi : col < 80) :
    Inked { t with cursorCol := col } log :=
  ⟨⟨h.some, h.fits, h.cursorLow, h.cursorHigh, hlo, hhi⟩, h.own⟩

theorem Inked.write (h : Inked t log) (c : Byte) :
    Inked (t.vgaWriteCurrent c) (log ++ [⟨t.cursorLine, t.cursorCol, cell t.curAttr c⟩]) := by
  have hplaced : Placed (t.vgaWriteCurrent c) := h.toPlaced.act (m := .write c) trivial
  have hlow := h.cursorLow
  have hhigh := h.cursorHigh
  have hfits := h.fits
  have hwindow := lastLine_eq t
  refine ⟨hplaced, ?_⟩
  obtain ⟨textBuffer, heq⟩ := write_eq h.colLow h.colHigh c
  have hfirst : (t.vgaWriteCurrent c).firstLine = t.firstLine := by rw [heq]
  rw [write_rows h.colLow h.colHigh, hfirst]
  refine h.own.write (by omega) hlow (by omega) (fun d => ?_) fun M row _ _ _ hrow d => ?_
  · have hold := h.own t.cursorLine hlow (by omega) d
    rw [Function.update_apply]
    split
    · rename_i hd
      right
      have hcol : (d.val : Int) = t.cursorCol := by
        rw [hd]
        have := h.colLow
        dsimp only
        omega
      rw [hcol]
      exact List.mem_append_right _ List.mem_cons_self
    · exact hold.imp id (List.mem_append_left _)
  · exact (hrow d).imp id (List.mem_append_left _)

/-- The rendering and the view are beside the lines. -/
theorem Inked.viewed (h : Inked t log) (viewTop : Int) (followTail : Bool) :
    Inked { t with viewTop := viewTop, followTail := followTail } log :=
  ⟨⟨h.some, h.fits, h.cursorLow, h.cursorHigh, h.colLow, h.colHigh⟩, h.own⟩

theorem Inked.renderView (h : Inked t log) : Inked t.renderView log := by
  obtain ⟨crtc, heq⟩ := renderView_eq t
  rw [heq]
  exact ⟨⟨h.some, h.fits, h.cursorLow, h.cursorHigh, h.colLow, h.colHigh⟩, h.own⟩

theorem Inked.follow (h : Inked t log) : Inked t.follow log := by
  unfold Vga.follow
  split
  · exact h.viewed _ _
  · exact h

theorem Inked.emit (h : Inked t log) {c : Byte}
    (hc : t.Breaks c → t.lineCount < 200 ∨ t.cursorLine = t.lastLine) :
    Inked (t.emit c) (log ++ t.marks c) := by
  have hlo := h.colLow
  have hhi := h.colHigh
  unfold Vga.emit marks
  by_cases hnl : c = 0x0A#8
  · rw [if_pos hnl, if_pos (.inl hnl), List.append_nil]
    exact h.newLine (hc (.inl hnl))
  rw [if_neg hnl]
  by_cases hcr : c = 0x0D#8
  · rw [if_pos hcr, if_pos (.inr (.inl hcr)), List.append_nil]
    exact h.column (Int.le_refl 0) (by decide)
  rw [if_neg hcr]
  by_cases htab : c = 0x09#8
  · have hquiet : c = 0x0A#8 ∨ c = 0x0D#8 ∨ c = 0x09#8 := .inr (.inr htab)
    rw [if_pos htab, if_pos hquiet, List.append_nil]
    dsimp only
    split
    · rename_i hwrap
      exact h.newLine (hc (.inr (.inl ⟨htab, hwrap⟩)))
    · exact h.column (by omega) (by omega)
  rw [if_neg htab, if_neg (show ¬ (c = 0x0A#8 ∨ c = 0x0D#8 ∨ c = 0x09#8) from by
    rintro (he | he | he) <;> contradiction)]
  by_cases hbs : c = 0x08#8
  · rw [if_pos hbs, if_pos hbs]
    by_cases hpos : t.cursorCol > 0
    · rw [if_pos hpos, if_pos hpos]
      exact (h.column (show 0 ≤ t.cursorCol - 1 by omega) (by omega)).write 0x20#8
    · rw [if_neg hpos, if_neg hpos, List.append_nil]
      exact h
  rw [if_neg hbs, if_neg hbs, if_neg (show ¬ t.cursorCol ≥ 80 by omega)]
  have hwritten := h.write c
  obtain ⟨textBuffer, heq⟩ := write_eq hlo hhi c
  have hcol : (t.vgaWriteCurrent c).cursorCol = t.cursorCol := by rw [heq]
  have htail : t.Breaks c → (t.vgaWriteCurrent c).lineCount < 200 ∨
      (t.vgaWriteCurrent c).cursorLine = (t.vgaWriteCurrent c).lastLine := by
    rw [heq]
    exact hc
  dsimp only
  rw [hcol]
  split
  · rename_i hwrap
    exact hwritten.newLine (htail (.inr (.inr ⟨hcr, htab, hbs, hwrap⟩)))
  · exact hwritten.column (by omega) (by omega)

theorem Inked.vgaPutchar (h : Inked t log) {c : Byte}
    (hc : t.Breaks c → t.lineCount < 200 ∨ t.cursorLine = t.lastLine) :
    Inked (t.vgaPutchar c) (log ++ t.marks c) := by
  obtain ⟨hf, htail, hattr, _, _, hcol, hline, hfirst, hcount, _⟩ := h.toPlaced.follow
  have hlast : t.follow.lastLine = t.lastLine := by rw [lastLine_eq, lastLine_eq, hfirst, hcount]
  have hmarks : t.follow.marks c = t.marks c := by rw [marks, marks, hattr, hcol, hline]
  have hbreaks : t.follow.Breaks c → t.follow.lineCount < 200 ∨ t.follow.cursorLine = t.follow.lastLine := by
    rw [Breaks, hcol, hcount, hline, hlast]
    exact hc
  have hemit := h.follow.emit hbreaks
  rw [hmarks] at hemit
  have hbeside := (hf.emit c).2
  rw [Vga.vgaPutchar, hbeside.followTail, htail, if_pos rfl]
  exact (hemit.viewed _ _).renderView

theorem Inked.vgaSetCursor (h : Inked t log) (hb : Bounds t) (row col : Int) :
    Inked (t.vgaSetCursor row col) log := by
  have hplaced := (hb.vgaSetCursor row col).toPlaced
  obtain ⟨row', col', _, _, _, _, heq⟩ := vgaSetCursor_eq hb.viewLow row col
  have hgrown := ensureLineExists_spec (t := { t with cursorLine := t.viewTop + row' })
    (t.viewTop + row') h.some h.fits
  rw [heq] at hplaced ⊢
  generalize Vga.ensureLineExists { t with cursorLine := t.viewTop + row' } (t.viewTop + row') = u
    at hgrown hplaced ⊢
  have hown := hgrown.rows (Own log) (fun L => own_blank log L _) h.own
  obtain ⟨crtc, hrender⟩ :=
    renderView_eq ({ u with cursorCol := col', followTail := true } : Vga).ensureTailView
  refine ⟨hplaced, ?_⟩
  rw [hrender]
  exact hown

theorem Inked.vgaScrollPage (h : Inked t log) (hb : Bounds t) (direction : Int) :
    Inked (t.vgaScrollPage direction) log := by
  obtain ⟨viewTop, followTail, _, _, heq⟩ :=
    scrolled_eq hb.toPlaced hb.viewLow hb.viewHigh direction
  rw [Vga.vgaScrollPage, heq]
  exact (h.viewed viewTop followTail).renderView

theorem Inked.reset (hb : Bounds t) (attr : Byte) : Inked (t.reset attr) [] := by
  have hplaced := (hb.reset attr).toPlaced
  obtain ⟨u, heq, hu⟩ := reset_eq t attr
  obtain ⟨crtc, hrender⟩ := renderView_eq u
  refine ⟨hplaced, ?_⟩
  rw [heq, hrender]
  intro L _ _
  show Own [] L (u.rows (L % 200))
  rw [hu.rows]
  exact own_blank [] L attr

theorem Inked.next (h : Inked t log) (hb : Bounds t) {c : TermCall} (hc : KeepsTail t c) :
    Inked (t.next c) (note t c log) := by
  cases c with
  | init =>
    rw [Vga.next, vgaInit]
    exact .reset hb _
  | clear bg =>
    rw [Vga.next, vgaClear]
    exact .reset hb _
  | setColor fg bg => exact ⟨⟨h.some, h.fits, h.cursorLow, h.cursorHigh, h.colLow, h.colHigh⟩, h.own⟩
  | putchar c => exact h.vgaPutchar hc
  | puts => cases hc
  | setCursor row col => exact h.vgaSetCursor hb row col
  | scrollPage direction => exact h.vgaScrollPage hb direction
  | drawBox => cases hc

/-! ## Lines that have left -/

theorem moves_firstLine {ms : List Move} (h : Placed t) (hms : ∀ m ∈ ms, m.Inside) :
    t.firstLine ≤ (ms.foldl act t).firstLine := by
  induction ms generalizing t with
  | nil => exact Int.le_refl _
  | cons m ms ih =>
    have hm := hms m List.mem_cons_self
    have hrest := ih (h.act hm) fun m' hm' => hms m' (List.mem_cons_of_mem _ hm')
    refine Int.le_trans ?_ hrest
    cases m with
    | line =>
      show t.firstLine ≤ t.newLine.firstLine
      rw [(newLine_spec t).firstLine]
      split <;> omega
    | column col => exact Int.le_refl _
    | write c =>
      obtain ⟨textBuffer, heq⟩ := write_eq h.colLow h.colHigh c
      exact Int.le_of_eq (congrArg firstLine heq).symm

theorem renderView_firstLine (t : Vga) : t.renderView.firstLine = t.firstLine := by
  obtain ⟨crtc, heq⟩ := renderView_eq t
  rw [heq]

/-- The window moves up only, until the terminal is cleared. -/
theorem Bounds.firstLine_le (h : Bounds t) {c : TermCall} (hc : KeepsTail t c) (hclear : ¬ Clears c) :
    t.firstLine ≤ (t.next c).firstLine := by
  cases c with
  | init => exact absurd trivial hclear
  | clear bg => exact absurd trivial hclear
  | setColor fg bg => exact Int.le_refl _
  | putchar c =>
    obtain ⟨hf, _, _, _, _, _, _, hfirst, _, _⟩ := h.toPlaced.follow
    have hmoved := moves_firstLine hf (moves_inside h.colLow h.colHigh c)
    show t.firstLine ≤ (t.vgaPutchar c).firstLine
    rw [vgaPutchar_eq h.toPlaced, renderView_firstLine, ← hfirst]
    exact hmoved
  | puts => cases hc
  | setCursor row col =>
    obtain ⟨row', col', _, _, _, _, heq⟩ := vgaSetCursor_eq h.viewLow row col
    have hgrown := ensureLineExists_spec (t := { t with cursorLine := t.viewTop + row' })
      (t.viewTop + row') h.some h.fits
    show t.firstLine ≤ (t.vgaSetCursor row col).firstLine
    rw [heq, renderView_firstLine]
    generalize Vga.ensureLineExists { t with cursorLine := t.viewTop + row' } (t.viewTop + row') = u
      at hgrown ⊢
    show t.firstLine ≤ u.firstLine
    rw [hgrown.firstLine]
    exact Int.le_max_left _ _
  | scrollPage direction =>
    obtain ⟨viewTop, followTail, _, _, heq⟩ :=
      scrolled_eq h.toPlaced h.viewLow h.viewHigh direction
    have hfirst : (t.vgaScrollPage direction).firstLine = t.firstLine := by
      rw [Vga.vgaScrollPage, heq, renderView_firstLine]
    exact Int.le_of_eq hfirst.symm
  | drawBox => cases hc

theorem Inked.fresh (h : Inked t log) (hb : Bounds t) : LinesFresh t log := by
  have hwindow := lastLine_eq t
  have hfits := h.fits
  have hown : ∀ L, t.firstLine ≤ L → L ≤ t.lastLine → ∀ c : Fin 80,
      isBlank (t.cellAt L c.val) = true ∨ ⟨L, c.val, t.cellAt L c.val⟩ ∈ log := by
    intro L hlo hhi c
    rw [cellAt_eq]
    exact h.own L hlo (by omega) c
  refine ⟨fun L hlo hhi hnone c => ?_, hown, fun c hc hclear => hb.firstLine_le hc hclear⟩
  exact (hown L hlo hhi c).resolve_right fun hin => hnone _ hin rfl

/-- As long as every new line comes below the last one or into a ring with room, new lines
are blank and no text comes back. -/
theorem reachable_fresh {screen : Fin 25 → Fin 80 → Cell} {s : Vga × List Mark}
    (h : (machine.watched note).Reach (fun s c => KeepsTail s.1 c) ((loaded screen).vgaInit, []) s) :
    LinesFresh s.1 s.2 := by
  have hstart : Bounds (loaded screen).vgaInit ∧ Inked (loaded screen).vgaInit [] := by
    rw [vgaInit]
    exact ⟨(loaded_bounds screen).reset _, .reset (loaded_bounds screen) _⟩
  generalize (loaded screen).vgaInit = u at h hstart
  have hinv : Bounds s.1 ∧ Inked s.1 s.2 := by
    refine h.invariant (I := fun s => Bounds s.1 ∧ Inked s.1 s.2) hstart fun s c hi he hc => ?_
    refine ⟨hi.1.next he ?_, hi.2.next hi.1 hc⟩
    cases c with
    | drawBox => cases hc
    | _ => trivial
  exact hinv.2.fresh hinv.1

/-- A letter, a newline, and the cursor back on the first row. -/
def freshCalls : List TermCall := [.putchar 0x41#8, .putchar 0x0A#8, .setCursor 0 0]

theorem freshCalls_fresh :
    LinesFresh ((machine.watched note).after ((loaded fun _ _ => 0#16).vgaInit, []) freshCalls).1
      ((machine.watched note).after ((loaded fun _ _ => 0#16).vgaInit, []) freshCalls).2 := by
  have hreset := Rendered.reset (loaded fun _ _ => 0#16) (vgaAttr 7#32 0#32)
  rw [← vgaInit] at hreset
  have hroom : ((loaded fun _ _ => 0#16).vgaInit).lineCount < 200 := by
    rw [hreset.count]
    decide
  have hroom' : ((loaded fun _ _ => 0#16).vgaInit.vgaPutchar 0x41#8).lineCount < 200 := by
    rw [(hreset.char 0x41#8).count]
    decide
  have haccepts (t : Vga) (h : t.lineCount < 200) (h' : (t.vgaPutchar 0x41#8).lineCount < 200) :
      (machine.watched note).Accepts (fun s c => KeepsTail s.1 c) (t, []) freshCalls :=
    ⟨trivial, fun _ => .inl h, trivial, fun _ => .inl h', trivial, trivial, trivial⟩
  exact reachable_fresh (Machine.Reach.start.accepts (haccepts _ hroom hroom'))

/-! ## Text that comes back -/

/-- The calls of the terminal without strings and boxes. -/
def Plain : TermCall → Prop
  | .puts .. | .drawBox .. => False
  | _ => True

theorem accepts_plain {cs : List TermCall} (hcs : ∀ c ∈ cs, Plain c) (s : Vga × List Mark) :
    (machine.watched note).Accepts (fun _ c => Plain c) s cs := by
  induction cs generalizing s with
  | nil => trivial
  | cons c cs ih =>
    have hc := hcs c List.mem_cons_self
    refine ⟨?_, hc, ih (fun d hd => hcs d (List.mem_cons_of_mem c hd)) _⟩
    cases c with
    | puts => cases hc
    | _ => trivial

/-- The view ends with the cursor's line, or begins with the first. -/
def AtTail (t : Vga) : Prop :=
  t.viewTop = if t.cursorLine - 24 < t.firstLine then t.firstLine else t.cursorLine - 24

theorem vgaPutchar_atTail (h : Placed t) (c : Byte) : AtTail (t.vgaPutchar c) := by
  rw [vgaPutchar_eq h]
  generalize (moves t.cursorCol c).foldl act t.follow = u
  obtain ⟨crtc, heq⟩ := renderView_eq u.ensureTailView
  rw [heq]
  rfl

/-- After some newlines the roll is longer by as many rows, and nothing has been written. -/
theorem after_newlines (log : List Mark) {p : Paper} (h : Rendered t p) (htail : AtTail t) (n : Nat) :
    ∃ t' p', (machine.watched note).after (t, log) (List.replicate n (.putchar 0x0A#8)) = (t', log) ∧
      Rendered t' p' ∧ AtTail t' ∧ p.rows <+: p'.rows ∧ p'.rows.length = p.rows.length + n := by
  induction n generalizing t p with
  | zero => exact ⟨t, p, rfl, h, htail, List.prefix_refl _, rfl⟩
  | succ n ih =>
    have hnext : (machine.watched note).next (t, log) (.putchar 0x0A#8) = (t.vgaPutchar 0x0A#8, log) :=
      congrArg (Prod.mk _) (List.append_nil log)
    obtain ⟨t', p', hafter, hr, ht, hprefix, hlen⟩ := ih (h.char 0x0A#8) (vgaPutchar_atTail h.placed 0x0A#8)
    have hrows : (p.putchar 0x0A#8).rows = p.rows ++ [blankRow p.attr] := rfl
    rw [hrows] at hprefix hlen
    refine ⟨t', p', ?_, hr, ht, (List.prefix_append _ _).trans hprefix, ?_⟩
    · rw [List.replicate_succ, Machine.after_cons, hnext, hafter]
    · rw [hlen, List.length_append, List.length_singleton]
      omega

/-- A line that is there needs no more lines. -/
theorem ensureLineExists_same {line : Int} (hlast : line ≤ t.lastLine) : t.ensureLineExists line = t := by
  have hturns : (line - t.lastLine).toNat = 0 := by omega
  rw [ensureLineExists]
  split
  · rfl
  · rw [hturns]
    dsimp only [growTail]
    rw [hturns]
    rfl

/-- A full ring from line 0 on, with `row` in the first line and the cursor on line `L`. -/
structure FullRing (t : Vga) (L : Int) (row : Row) : Prop extends Placed t where
  cursorLine : t.cursorLine = L
  lineCount : t.lineCount = 200
  firstLine : t.firstLine = 0
  row : t.rows 0 = row

/-- A newline above the last line shows the first line's text on the one that comes in. -/
theorem FullRing.newline {L : Int} {row : Row} (h : FullRing t L row) (hfollow : t.followTail = true)
    (hhi : L < 199) :
    (t.vgaPutchar 0x0A#8).firstLine = 1 ∧ (t.vgaPutchar 0x0A#8).lastLine = 200 ∧
      (t.vgaPutchar 0x0A#8).rows 0 = row := by
  have hspec := newLine_spec t
  have hlo := h.cursorLow
  rw [h.firstLine, h.cursorLine] at hlo
  have hmoves : (moves t.cursorCol 0x0A#8).foldl act t.follow = t.newLine := by
    rw [follow, hfollow]
    rfl
  rw [vgaPutchar_eq h.toPlaced, hmoves]
  obtain ⟨crtc, heq⟩ := renderView_eq t.newLine.ensureTailView
  have hfirst := hspec.firstLine
  have hcount := hspec.lineCount
  have hrows := hspec.rows
  rw [h.lineCount, h.firstLine] at hfirst
  rw [h.lineCount] at hcount
  rw [h.cursorLine] at hrows
  generalize t.newLine = x at hfirst hcount hrows heq ⊢
  rw [heq]
  refine ⟨hfirst, ?_, ?_⟩
  · show x.firstLine + x.lineCount - 1 = 200
    rw [hfirst, hcount]
    decide
  · show x.rows 0 = row
    rw [hrows, Function.update_of_ne (by omega), h.row]

/-- The cursor on the first row of the screen. -/
theorem FullRing.home {L : Int} {row : Row} (h : FullRing t 199 row) (hview : t.viewTop = L)
    (hlo : 0 ≤ L) (hhi : L < 200) :
    FullRing (t.vgaSetCursor 0 0) L row ∧ (t.vgaSetCursor 0 0).followTail = true := by
  have hwindow := lastLine_eq t
  rw [h.firstLine, h.lineCount] at hwindow
  have hsame : Vga.ensureLineExists { t with cursorLine := t.viewTop } t.viewTop =
      { t with cursorLine := t.viewTop } :=
    ensureLineExists_same (show t.viewTop ≤ t.lastLine by omega)
  have hset : t.vgaSetCursor 0 0 =
      ({ t with cursorLine := t.viewTop, cursorCol := 0, followTail := true } :
        Vga).ensureTailView.renderView := by
    rw [Vga.vgaSetCursor]
    simp only [show ¬ (0 : Int) < 0 by decide, show ¬ (0 : Int) ≥ 25 by decide,
      show ¬ (0 : Int) ≥ 80 by decide, if_false, Int.add_zero]
    rw [if_neg (show ¬ t.viewTop < t.firstLine by rw [h.firstLine]; omega), hsame]
  obtain ⟨crtc, hrender⟩ := renderView_eq
    ({ t with cursorLine := t.viewTop, cursorCol := 0, followTail := true } : Vga).ensureTailView
  rw [hset, hrender]
  refine ⟨⟨⟨h.some, h.fits, ?_, ?_, Int.le_refl 0, show (0 : Int) < 80 by decide⟩, hview,
    h.lineCount, h.firstLine, h.row⟩, rfl⟩
  · show t.firstLine ≤ t.viewTop
    rw [h.firstLine, hview]
    exact hlo
  · show t.viewTop ≤ t.lastLine
    omega

/-- A letter and 199 newlines fill the ring. -/
theorem letter_fills {attr : Byte} (h : Rendered t (.start attr)) : ∃ u,
    (machine.watched note).after (t, [])
        (.putchar 0x41#8 :: List.replicate 199 (.putchar 0x0A#8)) =
      (u, [⟨0, 0, cell attr 0x41#8⟩]) ∧
    FullRing u 199 (Function.update (blankRow attr) 0 (cell attr 0x41#8)) ∧ u.viewTop = 175 := by
  have hmarks : t.marks 0x41#8 = [⟨0, 0, cell attr 0x41#8⟩] := by
    have hat : t.marks 0x41#8 = [⟨t.cursorLine, t.cursorCol, cell t.curAttr 0x41#8⟩] := rfl
    rw [hat, h.line, h.col, h.attr]
    rfl
  have hfirst : (machine.watched note).next (t, []) (.putchar 0x41#8) =
      (t.vgaPutchar 0x41#8, [⟨0, 0, cell attr 0x41#8⟩]) :=
    congrArg (Prod.mk _) hmarks
  have hrow : ((Paper.start attr).putchar 0x41#8).rows =
      [Function.update (blankRow attr) 0 (cell attr 0x41#8)] := rfl
  obtain ⟨u, p, hafter, hr, htail, hprefix, hlen⟩ := after_newlines
    [⟨0, 0, cell attr 0x41#8⟩] (h.char 0x41#8) (vgaPutchar_atTail h.placed 0x41#8) 199
  rw [hrow] at hprefix hlen
  have hcount : u.lineCount = 200 := by
    rw [hr.count, hlen]
    rfl
  have hline := hr.line
  have hlast := hr.last
  have hwindow := lastLine_eq u
  have habove := Sim.length p
  rw [hlen, List.length_singleton] at habove
  have hzero : u.rows 0 = Function.update (blankRow attr) 0 (cell attr 0x41#8) := by
    have hheld : p.rows[(0 : Int).toNat]? = some (u.rows (0 % 200)) := hr.holds 0 (by omega) (by omega)
    obtain ⟨rest, hrest⟩ := hprefix
    rw [← hrest] at hheld
    exact (Option.some.inj hheld).symm
  refine ⟨u, ?_, ⟨hr.placed, by omega, hcount, by omega, hzero⟩, ?_⟩
  · rw [Machine.after_cons, hfirst, hafter]
  · rw [htail]
    split <;> omega

/-- An `A` on the first line, a full ring, the cursor back on the screen's first row, and one
more newline. -/
def lostLine : List TermCall :=
  (.putchar 0x41#8 :: List.replicate 199 (.putchar 0x0A#8)) ++ [.setCursor 0 0, .putchar 0x0A#8]

/-- The `A` is back on line 200. -/
theorem text_reappears : ¬ ∀ screen (s : Vga × List Mark),
    (machine.watched note).Reach (fun _ c => Plain c) ((loaded screen).vgaInit, []) s →
      LinesFresh s.1 s.2 := by
  intro h
  have hplain : ∀ c ∈ lostLine, Plain c := by
    intro c hc
    simp only [lostLine, List.mem_cons, List.mem_append, List.mem_replicate, List.not_mem_nil,
      or_false] at hc
    rcases hc with (rfl | ⟨_, rfl⟩) | rfl | rfl <;> trivial
  have hfresh := h (fun _ _ => 0#16) _ (Machine.Reach.start.accepts (accepts_plain hplain _))
  have hreset := Rendered.reset (loaded fun _ _ => 0#16) (vgaAttr 7#32 0#32)
  rw [← vgaInit] at hreset
  generalize (loaded fun _ _ => 0#16).vgaInit = t at hfresh hreset
  generalize vgaAttr 7#32 0#32 = attr at hreset
  obtain ⟨u, hafter, hfull, hview⟩ := letter_fills hreset
  obtain ⟨hhome, hfollow⟩ := hfull.home hview (by decide) (by decide)
  obtain ⟨hfirst, hlast, hrow⟩ := hhome.newline hfollow (by decide)
  have hend : (machine.watched note).after (t, []) lostLine =
      ((u.vgaSetCursor 0 0).vgaPutchar 0x0A#8, [⟨0, 0, cell attr 0x41#8⟩]) := by
    rw [lostLine, Machine.after_append, hafter]
    exact congrArg (Prod.mk _) (List.append_nil _)
  rw [hend] at hfresh
  change LinesFresh ((u.vgaSetCursor 0 0).vgaPutchar 0x0A#8) [⟨0, 0, cell attr 0x41#8⟩] at hfresh
  generalize (u.vgaSetCursor 0 0).vgaPutchar 0x0A#8 = v at hfresh hfirst hlast hrow
  have hback : v.cellAt 200 ((0 : Fin 80).val : Int) = cell attr 0x41#8 := by
    rw [cellAt_eq, show (200 : Int) % 200 = 0 by decide, hrow, Function.update_self]
  rcases hfresh.own 200 (by omega) (by omega) 0 with hblank | hmark
  · rw [hback, isBlank, setWidth_cell] at hblank
    exact absurd hblank (by decide)
  · have hline : (200 : Int) = 0 := congrArg Mark.line (List.mem_singleton.mp hmark)
    exact absurd hline (by decide)

end Vga

end SengOS
