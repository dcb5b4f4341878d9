import SengOS.Vga.Bounds

/-!
# Boxes

`vga_draw_box` first makes the line of the bottom border, and then clips: the sides at both
edges of the screen, the top and bottom borders at the right edge only. It looks neither at
the cursor nor at the view when the new line pushes lines out of the window.
-/

namespace SengOS

namespace Vga

variable {t t' : Vga}

/-- The line of the top border. -/
def boxTop (t : Vga) (row : Int) : Int := t.viewTop + row

/-- The line of the bottom border. -/
def boxBottom (t : Vga) (row height : Int) : Int := t.boxTop row + height - 1

/-- No border starts left of the screen in a line of the window. -/
def BoxClear (t : Vga) (row col height width : Int) : Prop :=
  0 ≤ col ∨ width ≤ 0 ∨
    t.boxBottom row height < t.firstLine ∧ (t.boxTop row < t.firstLine ∨ t.lastLine < t.boxTop row)

/-- The bottom border leaves the cursor and the view their place among 200 lines. -/
structure BoxFits (t : Vga) (row col height width : Int) : Prop where
  clear : t.BoxClear row col height width
  cursor : t.boxBottom row height ≤ t.cursorLine + 199
  view : t.boxBottom row height ≤ t.viewTop + 199

instance (t : Vga) (row col height width : Int) : Decidable (t.BoxClear row col height width) :=
  inferInstanceAs (Decidable (_ ∨ _ ∨ _))

instance (t : Vga) (row col height width : Int) : Decidable (BoxFits t row col height width) :=
  decidable_of_iff (_ ∧ _ ∧ _) ⟨fun h => ⟨h.1, h.2.1, h.2.2⟩, fun h => ⟨h.clear, h.cursor, h.view⟩⟩

/-- What a caller of `vga_draw_box` may rely on. -/
structure BoxSafe (t t' : Vga) : Prop where
  inside : t'.wild = false
  curAttr : t'.curAttr = t.curAttr
  cursorLow : t'.firstLine ≤ t'.cursorLine
  cursorHigh : t'.cursorLine ≤ t'.lastLine
  viewLow : t'.firstLine ≤ t'.viewTop

/-! ## Stores to the ring -/

/-- Only cells of `text_buffer` have been written, some of them perhaps outside it. -/
structure Painted (t t' : Vga) : Prop where
  rest : ∃ textBuffer wild, t' = { t with textBuffer := textBuffer, wild := wild }
  wild : t.wild = true → t'.wild = true

theorem Painted.refl (t : Vga) : Painted t t := ⟨⟨_, _, rfl⟩, id⟩

theorem Painted.trans {t'' : Vga} (h : Painted t t') (h' : Painted t' t'') : Painted t t'' := by
  obtain ⟨_, _, heq⟩ := h.rest
  obtain ⟨textBuffer, wild, heq'⟩ := h'.rest
  refine ⟨⟨textBuffer, wild, ?_⟩, fun hw => h'.wild (h.wild hw)⟩
  rw [heq', heq]

theorem painted_store (t : Vga) (line col : Int) (v : Cell) : Painted t (t.store line col v) := by
  refine ⟨⟨_, _, rfl⟩, fun h => ?_⟩
  rw [store, h, Bool.true_or]

theorem store_wild (t : Vga) (line : Int) {col : Int} (h : col < 0) (v : Cell) :
    (t.store line col v).wild = true := by
  rw [store, decide_eq_false (by omega), Bool.not_false, Bool.or_true]

/-! ## The top and bottom borders -/

def InWindow (t : Vga) (line : Int) : Prop := t.firstLine ≤ line ∧ line ≤ t.lastLine

theorem Painted.inWindow (h : Painted t t') (line : Int) : t'.InWindow line ↔ t.InWindow line := by
  obtain ⟨_, _, rfl⟩ := h.rest
  rfl

/-- A cell of a border, if its line is in the window. -/
def border (t : Vga) (line col : Int) (v : Cell) : Vga :=
  if line ≥ t.firstLine ∧ line ≤ t.lastLine then t.store line col v else t

theorem painted_border (t : Vga) (line col : Int) (v : Cell) : Painted t (t.border line col v) := by
  rw [border]
  split
  · exact painted_store t line col v
  · exact .refl t

theorem border_out {line : Int} (h : ¬ t.InWindow line) (col : Int) (v : Cell) : t.border line col v = t :=
  if_neg h

theorem border_inside (line : Int) {col : Int} (hlo : 0 ≤ col) (hhi : col < 80) (v : Cell) :
    (t.border line col v).wild = t.wild := by
  rw [border]
  split
  · rw [store_eq t line hlo hhi]
  · rfl

theorem border_wild {line col : Int} (h : t.InWindow line) (hcol : col < 0) (v : Cell) :
    (t.border line col v).wild = true := by
  have hstore : t.border line col v = t.store line col v := if_pos h
  rw [hstore]
  exact store_wild t line hcol v

variable {top bottom col width : Int}

theorem boxEdges_succ (t : Vga) (n : Nat) (c : Int) : ∃ v v', boxEdges top bottom col width (n + 1) c t =
    if col + c ≥ 80 then t
    else boxEdges top bottom col width n (c + 1)
      ((t.border top (col + c) v).border bottom (col + c) v') :=
  ⟨_, _, rfl⟩

theorem painted_boxEdges (top bottom col width : Int) (t : Vga) (n : Nat) (c : Int) :
    Painted t (boxEdges top bottom col width n c t) := by
  induction n generalizing c t with
  | zero => exact .refl t
  | succ n ih =>
    obtain ⟨v, v', heq⟩ := boxEdges_succ t n c
    rw [heq]
    split
    · exact .refl t
    · exact ((painted_border t top _ v).trans (painted_border _ bottom _ v')).trans (ih _ _)

theorem boxEdges_out (htop : ¬ t.InWindow top) (hbottom : ¬ t.InWindow bottom) (n : Nat) (c : Int) :
    boxEdges top bottom col width n c t = t := by
  induction n generalizing c with
  | zero => rfl
  | succ n ih =>
    obtain ⟨v, v', heq⟩ := boxEdges_succ t n c
    rw [heq, border_out htop, border_out hbottom, ih, ite_self]

theorem boxEdges_inside (t : Vga) (n : Nat) {c : Int} (hcol : 0 ≤ col + c) :
    (boxEdges top bottom col width n c t).wild = t.wild := by
  induction n generalizing c t with
  | zero => rfl
  | succ n ih =>
    obtain ⟨v, v', heq⟩ := boxEdges_succ t n c
    rw [heq]
    split
    · rfl
    · rename_i hedge
      have hhi : col + c < 80 := by omega
      rw [ih _ (by omega), border_inside bottom hcol hhi, border_inside top hcol hhi]

/-- The first column is left of the screen. -/
theorem boxEdges_wild {n : Nat} {c : Int} (hcol : col + c < 0)
    (hline : t.InWindow top ∨ t.InWindow bottom) :
    (boxEdges top bottom col width (n + 1) c t).wild = true := by
  obtain ⟨v, v', heq⟩ := boxEdges_succ t n c
  rw [heq, if_neg (by omega)]
  apply (painted_boxEdges top bottom col width _ n _).wild
  have htop := painted_border t top (col + c) v
  rcases hline with h | h
  · exact (painted_border _ bottom _ v').wild (border_wild h hcol v)
  · exact border_wild ((htop.inWindow bottom).mpr h) hcol v'

/-- The left edge is left unchecked. -/
theorem boxEdges_tame_iff (top bottom col width : Int) (htame : t.wild = false) :
    (boxEdges top bottom col width width.toNat 0 t).wild = false ↔
      0 ≤ col ∨ width ≤ 0 ∨ ¬ t.InWindow top ∧ ¬ t.InWindow bottom := by
  constructor
  · intro h
    by_contra hbad
    obtain ⟨n, hn⟩ : ∃ n, width.toNat = n + 1 := ⟨width.toNat - 1, by omega⟩
    have hwild : (boxEdges top bottom col width (n + 1) 0 t).wild = true :=
      boxEdges_wild (by omega) (by tauto)
    rw [hn, hwild] at h
    cases h
  · rintro (hcol | hwidth | ⟨htop, hbottom⟩)
    · rw [boxEdges_inside t _ (by omega), htame]
    · rw [Int.toNat_of_nonpos hwidth]
      exact htame
    · rw [boxEdges_out htop hbottom, htame]

/-! ## The sides -/

/-- A cell of a side, if its column is on the screen. -/
def side (t : Vga) (line col : Int) (v : Cell) : Vga :=
  if col ≥ 0 ∧ col < 80 then t.store line col v else t

theorem side_eq (t : Vga) (line col : Int) (v : Cell) :
    ∃ textBuffer, t.side line col v = { t with textBuffer := textBuffer } := by
  rw [side]
  split
  · rename_i h
    exact ⟨_, store_eq t line h.1 h.2 v⟩
  · exact ⟨_, rfl⟩

theorem boxSides_succ (top col width : Int) (t : Vga) (n : Nat) (r : Int) :
    ∃ v v', boxSides top col width (n + 1) r t = boxSides top col width n (r + 1)
      (if top + r < t.firstLine ∨ top + r > t.lastLine then t
      else (t.side (top + r) col v).side (top + r) (col + width - 1) v') :=
  ⟨_, _, rfl⟩

/-- The sides stay inside the rows. -/
theorem boxSides_eq (top col width : Int) (t : Vga) (n : Nat) (r : Int) : ∃ textBuffer,
    boxSides top col width n r t = { t with textBuffer := textBuffer } := by
  induction n generalizing r t with
  | zero => exact ⟨_, rfl⟩
  | succ n ih =>
    obtain ⟨v, v', heq⟩ := boxSides_succ top col width t n r
    rw [heq]
    split
    · exact ih t (r + 1)
    · obtain ⟨_, hleft⟩ := side_eq t (top + r) col v
      rw [hleft]
      obtain ⟨_, hright⟩ := side_eq { t with textBuffer := _ } (top + r) (col + width - 1) v'
      rw [hright]
      exact ih _ (r + 1)

/-! ## The whole box -/

/-- The state that `vga_draw_box` renders. -/
structure Boxed (t : Vga) (row col height width : Int) (t' : Vga) : Prop where
  firstLine : t'.firstLine = max t.firstLine (t.boxBottom row height - 199)
  lastLine : t'.lastLine = max t.lastLine (t.boxBottom row height)
  cursorLine : t'.cursorLine = t.cursorLine
  cursorCol : t'.cursorCol = t.cursorCol
  viewTop : t'.viewTop = t.viewTop
  curAttr : t'.curAttr = t.curAttr
  crtc : t'.crtc = t.crtc
  tame_iff : t'.wild = false ↔ t.BoxClear row col height width

theorem vgaDrawBox_eq (h : Bounds t) (row col height width : Int) (color : Word) :
    ∃ u, t.vgaDrawBox row col height width color = u.renderView ∧ Boxed t row col height width u := by
  have hgrown := ensureLineExists_spec (t.boxBottom row height) h.some h.fits
  refine ⟨_, rfl, ?_⟩
  show Boxed t row col height width { boxSides (t.boxTop row) col width (height - 2).toNat 1
    (boxEdges (t.boxTop row) (t.boxBottom row height) col width width.toNat 0
      { t.ensureLineExists (t.boxBottom row height) with curAttr := vgaAttr color 0#32 }) with
    curAttr := t.curAttr }
  generalize t.ensureLineExists (t.boxBottom row height) = u at hgrown ⊢
  generalize hv : ({ u with curAttr := vgaAttr color 0#32 } : Vga) = v
  have hwild : v.wild = false := by
    rw [← hv]
    exact hgrown.wild.trans h.tame
  have htame := boxEdges_tame_iff (t.boxTop row) (t.boxBottom row height) col width hwild
  obtain ⟨_, wild, hedges⟩ := (painted_boxEdges (t.boxTop row) (t.boxBottom row height) col width v
    width.toNat 0).rest
  obtain ⟨_, hsides⟩ := boxSides_eq (t.boxTop row) col width
    (boxEdges (t.boxTop row) (t.boxBottom row height) col width width.toNat 0 v) (height - 2).toNat 1
  rw [hsides, hedges]
  rw [hedges] at htame
  have hinside : ∀ line, v.InWindow line ↔
      max t.firstLine (t.boxBottom row height - 199) ≤ line ∧
        line ≤ max t.lastLine (t.boxBottom row height) := by
    intro line
    rw [← hgrown.firstLine, ← hgrown.lastLine, ← hv]
    rfl
  refine ⟨?_, ?_, ?_, ?_, ?_, rfl, ?_, ?_⟩
  case refine_7 =>
    have hwindow := lastLine_eq t
    have hfits := h.fits
    show wild = false ↔ t.BoxClear row col height width
    rw [htame, hinside, hinside, BoxClear]
    -- the bottom line is in the window now, unless it lies above
    omega
  all_goals rw [← hv]
  · exact hgrown.firstLine
  · exact hgrown.lastLine
  · exact hgrown.cursorLine
  · exact hgrown.cursorCol
  · exact hgrown.viewTop
  · exact hgrown.crtc

/-- A box that fits keeps the window, the cursor and the view in order. -/
theorem Bounds.vgaDrawBox (h : Bounds t) {row col height width : Int}
    (hfits : BoxFits t row col height width) (color : Word) :
    Bounds (t.vgaDrawBox row col height width color) := by
  obtain ⟨u, heq, hu⟩ := vgaDrawBox_eq h row col height width color
  have hwindow := lastLine_eq t
  have hwindow' := lastLine_eq u
  have hsome := h.some
  have hcount := h.fits
  have hlow := h.cursorLow
  have hhigh := h.cursorHigh
  have hviewLow := h.viewLow
  have hviewHigh := h.viewHigh
  have hcursor := hfits.cursor
  have hview := hfits.view
  rw [hu.firstLine, hu.lastLine] at hwindow'
  rw [heq]
  apply Placed.renderView
  · refine ⟨by omega, by omega, ?_, ?_, ?_, ?_⟩
    · rw [hu.firstLine, hu.cursorLine]
      omega
    · rw [hu.lastLine, hu.cursorLine]
      omega
    · rw [hu.cursorCol]
      exact h.colLow
    · rw [hu.cursorCol]
      exact h.colHigh
  · exact hu.tame_iff.mpr hfits.clear
  · rw [hu.firstLine, hu.viewTop]
    omega
  · rw [hu.lastLine, hu.viewTop]
    omega
  · rw [HwCursor, hu.crtc]
    exact h.hwCursor

theorem boxSafe_iff (h : Bounds t) (row col height width : Int) (color : Word) :
    BoxSafe t (t.vgaDrawBox row col height width color) ↔ BoxFits t row col height width := by
  constructor
  · intro hsafe
    obtain ⟨u, heq, hu⟩ := vgaDrawBox_eq h row col height width color
    obtain ⟨crtc, hrender⟩ := renderView_eq u
    rw [heq, hrender] at hsafe
    have hcursor : u.firstLine ≤ u.cursorLine := hsafe.cursorLow
    have hview : u.firstLine ≤ u.viewTop := hsafe.viewLow
    rw [hu.firstLine] at hcursor hview
    rw [hu.cursorLine] at hcursor
    rw [hu.viewTop] at hview
    exact ⟨hu.tame_iff.mp hsafe.inside, by omega, by omega⟩
  · intro hfits
    have hb := h.vgaDrawBox hfits color
    obtain ⟨u, heq, hu⟩ := vgaDrawBox_eq h row col height width color
    refine ⟨hb.tame, ?_, hb.cursorLow, hb.cursorHigh, hb.viewLow⟩
    obtain ⟨crtc, hrender⟩ := renderView_eq u
    rw [heq, hrender]
    exact hu.curAttr

/-! ## Runs with boxes -/

/-- A call of `vga_draw_box` is one for a box that fits. -/
def BoxesFit (t : Vga) : TermCall → Prop
  | .drawBox row col height width _ => BoxFits t row col height width
  | _ => True

theorem Bounds.boxed (h : Bounds t) {c : TermCall} (he : t.Returns c) (hc : BoxesFit t c) :
    Bounds (t.next c) := by
  cases c with
  | drawBox row col height width color => exact h.vgaDrawBox hc color
  | init => exact h.next he trivial
  | clear bg => exact h.next he trivial
  | setColor fg bg => exact h.next he trivial
  | putchar c => exact h.next he trivial
  | puts str turns => exact h.next he trivial
  | setCursor row col => exact h.next he trivial
  | scrollPage direction => exact h.next he trivial

/-- After any calls and boxes that fit, a box is safe when it fits, and only then. -/
theorem drawBox_safe_iff {screen : Fin 25 → Fin 80 → Cell} (h : machine.Reach BoxesFit (loaded screen) t)
    (row col height width : Int) (color : Word) :
    BoxSafe t (t.vgaDrawBox row col height width color) ↔ BoxFits t row col height width :=
  boxSafe_iff (h.invariant (loaded_bounds screen) fun _ _ hb he hc => hb.boxed he hc) row col height width
    color

/-- A box that hangs out at the bottom and on the right of the screen. -/
theorem lowBox_safe : BoxSafe ((loaded fun _ _ => 0#16).vgaSetColor 7#32 1#32)
    (((loaded fun _ _ => 0#16).vgaSetColor 7#32 1#32).vgaDrawBox 20 70 40 30 4#32) := by
  have hreach : machine.Reach BoxesFit (loaded fun _ _ => 0#16)
      ((loaded fun _ _ => 0#16).vgaSetColor 7#32 1#32) :=
    .step (TermCall.setColor 7#32 1#32) .start trivial trivial
  exact (drawBox_safe_iff hreach 20 70 40 30 4#32).mpr (by decide)

/-- A box that starts one column left of the screen. -/
theorem leftBox_unsafe : ¬ ∀ screen t, machine.Reach (fun _ _ => True) (loaded screen) t →
    ∀ row col height width color, BoxSafe t (t.vgaDrawBox row col height width color) := by
  intro h
  have hsafe := h (fun _ _ => 0#16) _ .start 0 (-1) 3 5 4#32
  have hfits := (boxSafe_iff (loaded_bounds _) 0 (-1) 3 5 4#32).mp hsafe
  exact absurd hfits (by decide)

end Vga

end SengOS
