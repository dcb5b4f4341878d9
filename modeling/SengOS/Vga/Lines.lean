import SengOS.Vga.Terminal

/-!
# What the calls do to the lines

A character is at most two of three moves: a new line, a jump to a column, a cell
written. `ensure_line_exists` moves the upper end of the window up to a line, and the lower
end with it once there are 200 lines. The rest of each call changes the view only.
-/

namespace SengOS

namespace Vga

variable {t t' : Vga}

/-! ## Beside the ring -/

/-- The two states differ in the ring, its window, the cursor and the view only. -/
structure Beside (t t' : Vga) : Prop where
  followTail : t'.followTail = t.followTail
  curAttr : t'.curAttr = t.curAttr
  screen : t'.screen = t.screen
  crtc : t'.crtc = t.crtc
  wild : t'.wild = t.wild

theorem Beside.refl (t : Vga) : Beside t t := ⟨rfl, rfl, rfl, rfl, rfl⟩

theorem Beside.trans {t'' : Vga} (h : Beside t t') (h' : Beside t' t'') : Beside t t'' :=
  ⟨h'.followTail.trans h.followTail, h'.curAttr.trans h.curAttr, h'.screen.trans h.screen,
    h'.crtc.trans h.crtc, h'.wild.trans h.wild⟩

/-! ## Characters as moves -/

inductive Move
  | line
  | column (col : Int)
  | write (c : Byte)

def act (t : Vga) : Move → Vga
  | .line => t.newLine
  | .column col => { t with cursorCol := col }
  | .write c => t.vgaWriteCurrent c

/-- What a character does when the cursor is in column `col`. -/
def moves (col : Int) (c : Byte) : List Move :=
  if c = 0x0A#8 then [.line]
  else if c = 0x0D#8 then [.column 0]
  else if c = 0x09#8 then
    if (col + 8) / 8 * 8 ≥ 80 then [.line] else [.column ((col + 8) / 8 * 8)]
  else if c = 0x08#8 then
    if col > 0 then [.column (col - 1), .write 0x20#8] else []
  else [.write c, if col + 1 ≥ 80 then .line else .column (col + 1)]

theorem emit_eq (h : t.cursorCol < 80) (c : Byte) :
    t.emit c = (moves t.cursorCol c).foldl act t := by
  unfold emit moves
  split
  · rfl
  · split
    · rfl
    · split
      · dsimp only
        split <;> rfl
      · split
        · split <;> rfl
        · rw [if_neg (show ¬ t.cursorCol ≥ 80 by omega)]
          change (if t.cursorCol + 1 ≥ 80 then Vga.newLine _ else _) = _
          by_cases hwrap : t.cursorCol + 1 ≥ 80
          · rw [if_pos hwrap, if_pos hwrap]
            rfl
          · rw [if_neg hwrap, if_neg hwrap]
            rfl

def Move.Inside : Move → Prop
  | .column col => 0 ≤ col ∧ col < 80
  | _ => True

theorem moves_inside {col : Int} (hlo : 0 ≤ col) (hhi : col < 80) (c : Byte) :
    ∀ m ∈ moves col c, m.Inside := by
  unfold moves
  split
  · simp [Move.Inside]
  · split
    · simp [Move.Inside]
    · split
      · split
        · simp [Move.Inside]
        · simp only [List.mem_singleton, forall_eq, Move.Inside]
          omega
      · split
        · split
          · simp only [List.mem_cons, List.not_mem_nil, or_false, forall_eq_or_imp, forall_eq,
              Move.Inside, and_true]
            omega
          · simp
        · simp only [List.mem_cons, List.not_mem_nil, or_false, forall_eq_or_imp, forall_eq]
          refine ⟨trivial, ?_⟩
          split
          · trivial
          · simp only [Move.Inside]
            omega

/-! ## A new line -/

structure NewLine (t t' : Vga) : Prop extends Beside t t' where
  cursorLine : t'.cursorLine = t.cursorLine + 1
  cursorCol : t'.cursorCol = 0
  firstLine : t'.firstLine = if t.lineCount < 200 then t.firstLine else t.firstLine + 1
  lineCount : t'.lineCount = if t.lineCount < 200 then t.lineCount + 1 else t.lineCount
  rows : t'.rows = Function.update t.rows ((t.cursorLine + 1) % 200) (blankRow t.curAttr)

theorem fillLine_beside (t : Vga) (line : Int) (attr : Byte) : Beside t (t.fillLine line attr) := by
  rw [fillLine_eq]
  exact ⟨rfl, rfl, rfl, rfl, rfl⟩

theorem newLine_spec (t : Vga) : NewLine t t.newLine := by
  obtain ⟨u, hu, hline, hcol, hfirst, hcount, hbeside, hrows⟩ : ∃ u : Vga,
      t.newLine = (if (u.fillLine u.cursorLine u.curAttr).followTail then
        (u.fillLine u.cursorLine u.curAttr).ensureTailView
      else u.fillLine u.cursorLine u.curAttr) ∧
      u.cursorLine = t.cursorLine + 1 ∧ u.cursorCol = 0 ∧
      u.firstLine = (if t.lineCount < 200 then t.firstLine else t.firstLine + 1) ∧
      u.lineCount = (if t.lineCount < 200 then t.lineCount + 1 else t.lineCount) ∧
      Beside t u ∧ u.rows = t.rows := by
    refine ⟨_, rfl, ?_⟩
    dsimp only
    split
    · exact ⟨rfl, rfl, rfl, rfl, ⟨rfl, rfl, rfl, rfl, rfl⟩, rfl⟩
    · exact ⟨rfl, rfl, rfl, rfl, ⟨rfl, rfl, rfl, rfl, rfl⟩, rfl⟩
  have hfill := hbeside.trans (fillLine_beside u u.cursorLine u.curAttr)
  have hfilled := rows_fillLine u u.cursorLine u.curAttr
  rw [hrows, hline, hbeside.curAttr] at hfilled
  rw [hline, hbeside.curAttr] at hu hfill
  have hsame := fillLine_eq u (t.cursorLine + 1) t.curAttr
  generalize u.fillLine (t.cursorLine + 1) t.curAttr = v at hu hfill hfilled hsame
  have hv : v.cursorLine = t.cursorLine + 1 ∧ v.cursorCol = 0 ∧
      v.firstLine = (if t.lineCount < 200 then t.firstLine else t.firstLine + 1) ∧
      v.lineCount = (if t.lineCount < 200 then t.lineCount + 1 else t.lineCount) := by
    rw [hsame]
    exact ⟨hline, hcol, hfirst, hcount⟩
  obtain ⟨hline, hcol, hfirst, hcount⟩ := hv
  -- the view is the only thing that `ensure_tail_view` changes
  rw [hu]
  split
  · exact ⟨⟨hfill.followTail, hfill.curAttr, hfill.screen, hfill.crtc, hfill.wild⟩, hline, hcol, hfirst,
      hcount, hfilled⟩
  · exact ⟨hfill, hline, hcol, hfirst, hcount, hfilled⟩

/-! ## The tail of the window -/

/-- The window is now `first` to `last`, with blanks in the lines that came in. The
ring is seen with all its 200 slots, those past the last line included. -/
structure Shifted (t : Vga) (first last : Int) (t' : Vga) : Prop extends Beside t t' where
  cursorLine : t'.cursorLine = t.cursorLine
  cursorCol : t'.cursorCol = t.cursorCol
  viewTop : t'.viewTop = t.viewTop
  firstLine : t'.firstLine = first
  lastLine : t'.lastLine = last
  rows : ∀ P : Int → Row → Prop, (∀ L, P L (blankRow t.curAttr)) →
    Ring.Holds 200 t.rows t.firstLine (t.firstLine + 199) P →
    Ring.Holds 200 t'.rows t'.firstLine (t'.firstLine + 199) P

theorem Shifted.refl (t : Vga) : Shifted t t.firstLine t.lastLine t :=
  ⟨.refl t, rfl, rfl, rfl, rfl, rfl, fun _ _ h => h⟩

theorem Shifted.trans {t'' : Vga} {first last first' last' : Int} (h : Shifted t first last t')
    (h' : Shifted t' first' last' t'') : Shifted t first' last' t'' := by
  refine ⟨h.toBeside.trans h'.toBeside, h'.cursorLine.trans h.cursorLine,
    h'.cursorCol.trans h.cursorCol, h'.viewTop.trans h.viewTop, h'.firstLine, h'.lastLine, ?_⟩
  intro P hblank hholds
  apply h'.rows P _ (h.rows P hblank hholds)
  rwa [h.curAttr]

theorem lastLine_eq (t : Vga) : t.lastLine = t.firstLine + t.lineCount - 1 := rfl

/-- A turn of the first loop. -/
theorem shifted_add (hsome : 0 ≤ t.lineCount) (hroom : t.lineCount < 200) :
    Shifted t t.firstLine (t.lastLine + 1)
      { t.fillLine (t.firstLine + t.lineCount) t.curAttr with lineCount := t.lineCount + 1 } := by
  have hrows := rows_fillLine t (t.firstLine + t.lineCount) t.curAttr
  have hsame := fillLine_eq t (t.firstLine + t.lineCount) t.curAttr
  generalize t.fillLine (t.firstLine + t.lineCount) t.curAttr = v at hrows hsame ⊢
  have hfirst : v.firstLine = t.firstLine := by rw [hsame]
  refine ⟨⟨?_, ?_, ?_, ?_, ?_⟩, ?_, ?_, ?_, hfirst, ?_, ?_⟩
  case refine_9 =>
    show v.firstLine + (t.lineCount + 1) - 1 = t.lastLine + 1
    rw [hfirst, lastLine_eq]
    omega
  case refine_10 =>
    intro P hblank hholds
    show Ring.Holds 200 v.rows v.firstLine (v.firstLine + 199) P
    rw [hrows, hfirst]
    exact hholds.write (by omega) (by omega) (by omega) (hblank _) fun _ _ _ _ _ h => h
  all_goals rw [hsame]

/-- A turn of the second loop, with a full ring. -/
theorem shifted_slide (hfull : t.lineCount = 200) :
    Shifted t (t.firstLine + 1) (t.lastLine + 1)
      ({ t with firstLine := t.firstLine + 1 }.fillLine (t.firstLine + 1 + t.lineCount - 1) t.curAttr) := by
  have hrows := rows_fillLine { t with firstLine := t.firstLine + 1 }
    (t.firstLine + 1 + t.lineCount - 1) t.curAttr
  have hsame := fillLine_eq { t with firstLine := t.firstLine + 1 }
    (t.firstLine + 1 + t.lineCount - 1) t.curAttr
  generalize { t with firstLine := t.firstLine + 1 }.fillLine
    (t.firstLine + 1 + t.lineCount - 1) t.curAttr = v at hrows hsame ⊢
  have hfirst : v.firstLine = t.firstLine + 1 := by rw [hsame]
  have hcount : v.lineCount = t.lineCount := by rw [hsame]
  refine ⟨⟨?_, ?_, ?_, ?_, ?_⟩, ?_, ?_, ?_, hfirst, ?_, ?_⟩
  case refine_9 =>
    rw [lastLine_eq, lastLine_eq, hfirst, hcount]
    omega
  case refine_10 =>
    intro P hblank hholds
    have hline : t.firstLine + 1 + t.lineCount - 1 = t.firstLine + 199 + 1 := by omega
    have hpushed := (hholds.drop (show t.firstLine ≤ t.firstLine + 1 by omega)).push (v := blankRow t.curAttr)
      (by omega) (hblank _)
    rw [hrows, hline, hfirst, show t.firstLine + 1 + 199 = t.firstLine + 199 + 1 by omega]
    exact hpushed
  all_goals rw [hsame]

theorem growTail_spec {line : Int} {n : Nat} (hn : line - t.lastLine ≤ n) (hsome : 0 ≤ t.lineCount)
    (hfits : t.lineCount ≤ 200) :
    Shifted t t.firstLine (max t.lastLine (min line (t.firstLine + 199))) (growTail line n t) := by
  induction n generalizing t with
  | zero =>
    have hlast : max t.lastLine (min line (t.firstLine + 199)) = t.lastLine := by omega
    rw [hlast]
    exact .refl t
  | succ n ih =>
    have hwindow := lastLine_eq t
    rw [growTail]
    split
    · rename_i hgo
      have hturn := shifted_add hsome hgo.2
      have hrest := ih (t := { t.fillLine (t.firstLine + t.lineCount) t.curAttr with
        lineCount := t.lineCount + 1 }) (by rw [hturn.lastLine]; omega) (by dsimp only; omega)
        (by dsimp only; omega)
      rw [hturn.firstLine, hturn.lastLine] at hrest
      have hlast : max (t.lastLine + 1) (min line (t.firstLine + 199)) =
          max t.lastLine (min line (t.firstLine + 199)) := by
        omega
      rw [hlast] at hrest
      exact hturn.trans hrest
    · rename_i hstop
      have hlast : max t.lastLine (min line (t.firstLine + 199)) = t.lastLine := by omega
      rw [hlast]
      exact .refl t

theorem slideTail_spec {line : Int} {n : Nat} (hn : line - t.lastLine ≤ n)
    (hfull : line > t.lastLine → t.lineCount = 200) :
    Shifted t (t.firstLine + (max t.lastLine line - t.lastLine)) (max t.lastLine line)
      (slideTail line n t) := by
  induction n generalizing t with
  | zero =>
    have hlast : max t.lastLine line = t.lastLine := by omega
    rw [hlast, Int.sub_self, Int.add_zero]
    exact .refl t
  | succ n ih =>
    rw [slideTail]
    split
    · rename_i hgo
      have hturn := shifted_slide (hfull hgo)
      have hcount : ({ t with firstLine := t.firstLine + 1 }.fillLine
          (t.firstLine + 1 + t.lineCount - 1) t.curAttr).lineCount = t.lineCount := by
        rw [fillLine_eq]
      have hrest := ih (by rw [hturn.lastLine]; omega) (fun _ => hcount.trans (hfull hgo))
      rw [hturn.firstLine, hturn.lastLine] at hrest
      have hlast : max (t.lastLine + 1) line = max t.lastLine line := by omega
      have hfirst : t.firstLine + 1 + (max t.lastLine line - (t.lastLine + 1)) =
          t.firstLine + (max t.lastLine line - t.lastLine) := by
        omega
      rw [hlast, hfirst] at hrest
      exact hturn.trans hrest
    · rename_i hstop
      have hlast : max t.lastLine line = t.lastLine := by omega
      rw [hlast, Int.sub_self, Int.add_zero]
      exact .refl t

/-- The loops end with the line in the window, unless it is one that has left. -/
theorem ensureLineExists_spec (line : Int) (hsome : 1 ≤ t.lineCount) (hfits : t.lineCount ≤ 200) :
    Shifted t (max t.firstLine (line - 199)) (max t.lastLine line) (t.ensureLineExists line) := by
  have hwindow := lastLine_eq t
  rw [ensureLineExists]
  split
  · rename_i hlow
    have hlast : max t.lastLine line = t.lastLine := by omega
    have hfirst : max t.firstLine (line - 199) = t.firstLine := by omega
    rw [hlast, hfirst]
    exact .refl t
  · rename_i hlow
    have hturns : line - t.lastLine ≤ (line - t.lastLine).toNat := by omega
    have hgrown := growTail_spec hturns (by omega) hfits
    dsimp only
    generalize growTail line (line - t.lastLine).toNat t = u at hgrown ⊢
    have hwindow' := lastLine_eq u
    rw [hgrown.lastLine, hgrown.firstLine] at hwindow'
    have hturns : line - u.lastLine ≤ (line - u.lastLine).toNat := by omega
    generalize (line - u.lastLine).toNat = n at hturns ⊢
    have hslid := slideTail_spec hturns (by rw [hgrown.lastLine]; omega)
    rw [hgrown.lastLine, hgrown.firstLine] at hslid
    have hlast : max (max t.lastLine (min line (t.firstLine + 199))) line = max t.lastLine line := by
      omega
    have hfirst : t.firstLine + (max t.lastLine line - max t.lastLine (min line (t.firstLine + 199))) =
        max t.firstLine (line - 199) := by
      omega
    rw [hlast, hfirst] at hslid
    exact hgrown.trans hslid

/-! ## Rendering -/

theorem updateHwCursor_eq (t : Vga) : ∃ crtc, t.updateHwCursor = { t with crtc := crtc } := by
  rw [updateHwCursor]
  split
  · exact ⟨_, rfl⟩
  · dsimp only
    split
    · exact ⟨_, rfl⟩
    · exact ⟨_, rfl⟩

/-- The screen shows the view, and of the rest only the registers change. -/
theorem renderView_eq (t : Vga) : ∃ crtc, t.renderView = { t with screen := t.view, crtc := crtc } := by
  rw [renderView]
  obtain ⟨crtc, h⟩ := updateHwCursor_eq { t with screen := t.view }
  exact ⟨crtc, h⟩

theorem view_eq (t : Vga) (r : Fin 25) (c : Fin 80) : t.view r c =
    if t.firstLine ≤ t.viewTop + r.val ∧ t.viewTop + r.val ≤ t.lastLine then
      t.rows ((t.viewTop + r.val) % 200) c
    else cell t.curAttr 0x20#8 := by
  rw [view, cellAt_eq]

/-! ## Clearing -/

/-- The state of `vga_init` and `vga_clear` before the rendering. -/
structure Cleared (t : Vga) (attr : Byte) (t' : Vga) : Prop where
  cursorLine : t'.cursorLine = 0
  cursorCol : t'.cursorCol = 0
  firstLine : t'.firstLine = 0
  lineCount : t'.lineCount = 1
  viewTop : t'.viewTop = 0
  followTail : t'.followTail = true
  curAttr : t'.curAttr = attr
  crtc : t'.crtc = t.crtc
  wild : t'.wild = t.wild
  rows : ∀ L, t'.rows (L % 200) = blankRow attr

theorem reset_eq (t : Vga) (attr : Byte) : ∃ t', t.reset attr = t'.renderView ∧ Cleared t attr t' := by
  refine ⟨_, rfl, ?_⟩
  generalize hu : ({ t with
      curAttr := attr
      cursorLine := 0
      cursorCol := 0
      firstLine := 0
      lineCount := 1
      viewTop := 0
      followTail := true } : Vga) = u
  have hloop : ∀ n : Nat, ∃ textBuffer,
      (List.range n).foldl (fun t (r : Nat) => t.fillLine r t.curAttr) u =
        { u with textBuffer := textBuffer } ∧
      ∀ r : Nat, r < n → r < 200 →
        ((List.range n).foldl (fun t (r : Nat) => t.fillLine r t.curAttr) u).rows r = blankRow attr := by
    intro n
    induction n with
    | zero => exact ⟨u.textBuffer, rfl, fun _ h => absurd h (Nat.not_lt_zero _)⟩
    | succ n ih =>
      obtain ⟨textBuffer, heq, hrows⟩ := ih
      rw [List.range_succ, List.foldl_append, List.foldl_cons, List.foldl_nil]
      generalize (List.range n).foldl (fun t (r : Nat) => t.fillLine r t.curAttr) u = v at heq hrows ⊢
      have hattr : v.curAttr = attr := by rw [heq, ← hu]
      refine ⟨_, by rw [fillLine_eq, heq], fun r hr hlt => ?_⟩
      rw [rows_fillLine, hattr, Function.update_apply]
      split
      · rfl
      · rename_i hne
        exact hrows r (by omega) hlt
  obtain ⟨textBuffer, heq, hrows⟩ := hloop 200
  generalize (List.range 200).foldl (fun t (r : Nat) => t.fillLine r t.curAttr) u = v at heq hrows ⊢
  refine ⟨?_, ?_, ?_, ?_, ?_, ?_, ?_, ?_, ?_, fun L => ?_⟩
  case refine_10 =>
    have hslot : ((L % 200).toNat : Int) = L % 200 := by omega
    rw [← hslot]
    exact hrows _ (by omega) (by omega)
  all_goals rw [heq, ← hu]

end Vga

end SengOS
