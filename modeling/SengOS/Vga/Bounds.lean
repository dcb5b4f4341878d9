import SengOS.Vga.Ansi
import SengOS.Vga.Lines
import SengOS.Lib.Machine

/-!
# The bounds of the terminal

Five numbers place the window of lines, the cursor and the view. Every call keeps them in
order, so that no store leaves `text_buffer` and the hardware cursor stays on the screen.
-/

namespace SengOS

namespace Vga

variable {t t' : Vga}

/-- The window and the cursor. -/
structure Placed (t : Vga) : Prop where
  some : 1 ≤ t.lineCount
  fits : t.lineCount ≤ 200
  cursorLow : t.firstLine ≤ t.cursorLine
  cursorHigh : t.cursorLine ≤ t.lastLine
  colLow : 0 ≤ t.cursorCol
  colHigh : t.cursorCol < 80

/-- The position in the registers of the hardware cursor is on the screen. -/
def HwCursor (t : Vga) : Prop :=
  ∀ lo hi, t.crtc 0x0F#8 = Option.some lo → t.crtc 0x0E#8 = Option.some hi →
    hi.toNat * 256 + lo.toNat < 2000

structure Bounds (t : Vga) : Prop extends Placed t where
  tame : t.wild = false
  viewLow : t.firstLine ≤ t.viewTop
  viewHigh : t.viewTop ≤ t.lastLine
  hwCursor : t.HwCursor

/-! ## Moves -/

theorem write_rows (hlo : 0 ≤ t.cursorCol) (hhi : t.cursorCol < 80) (c : Byte) :
    (t.vgaWriteCurrent c).rows = Function.update t.rows (t.cursorLine % 200)
      (Function.update (t.rows (t.cursorLine % 200)) ⟨t.cursorCol.toNat, by omega⟩ (cell t.curAttr c)) := by
  have hcol : t.cursorCol = ((⟨t.cursorCol.toNat, by omega⟩ : Fin 80).val : Int) := by
    dsimp only
    omega
  rw [vgaWriteCurrent, store_eq _ _ hlo hhi, ← rows_update]
  congr 2
  rw [← hcol]

/-- What a write leaves alone. -/
theorem write_eq (hlo : 0 ≤ t.cursorCol) (hhi : t.cursorCol < 80) (c : Byte) :
    ∃ textBuffer, t.vgaWriteCurrent c = { t with textBuffer := textBuffer } := by
  rw [vgaWriteCurrent, store_eq _ _ hlo hhi]
  exact ⟨_, rfl⟩

theorem Placed.newLine (h : Placed t) : Placed t.newLine := by
  have hnew := newLine_spec t
  have hwindow := lastLine_eq t
  have hwindow' := lastLine_eq t.newLine
  have hsome := h.some
  have hfits := h.fits
  have hlow := h.cursorLow
  have hhigh := h.cursorHigh
  rw [hnew.firstLine, hnew.lineCount] at hwindow'
  have hcases : t.lineCount < 200 ∨ t.lineCount = 200 := by omega
  refine ⟨?_, ?_, ?_, ?_, ?_, ?_⟩
  case refine_1 => rw [hnew.lineCount]; split <;> omega
  case refine_2 => rw [hnew.lineCount]; split <;> omega
  case refine_3 => rw [hnew.firstLine, hnew.cursorLine]; split <;> omega
  case refine_4 =>
    rw [hnew.cursorLine, hwindow']
    split <;> omega
  case refine_5 => exact Int.le_of_eq hnew.cursorCol.symm
  case refine_6 => rw [hnew.cursorCol]; decide

theorem Placed.act (h : Placed t) {m : Move} (hm : m.Inside) : Placed (t.act m) := by
  cases m with
  | line => exact h.newLine
  | column col => exact ⟨h.some, h.fits, h.cursorLow, h.cursorHigh, hm.1, hm.2⟩
  | write c =>
    obtain ⟨textBuffer, heq⟩ := write_eq h.colLow h.colHigh c
    show Placed (t.vgaWriteCurrent c)
    rw [heq]
    exact ⟨h.some, h.fits, h.cursorLow, h.cursorHigh, h.colLow, h.colHigh⟩

/-- No move touches the registers or the view's mode. -/
theorem act_beside (h : Placed t) (m : Move) : Beside t (t.act m) := by
  cases m with
  | line => exact (newLine_spec t).toBeside
  | column col => exact ⟨rfl, rfl, rfl, rfl, rfl⟩
  | write c =>
    obtain ⟨textBuffer, heq⟩ := write_eq h.colLow h.colHigh c
    show Beside t (t.vgaWriteCurrent c)
    rw [heq]
    exact ⟨rfl, rfl, rfl, rfl, rfl⟩

theorem Placed.moves {ms : List Move} (h : Placed t) (hms : ∀ m ∈ ms, m.Inside) :
    Placed (ms.foldl Vga.act t) ∧ Beside t (ms.foldl Vga.act t) := by
  induction ms generalizing t with
  | nil => exact ⟨h, .refl t⟩
  | cons m ms ih =>
    have hrest := ih (h.act (hms m List.mem_cons_self)) fun m' hm' => hms m' (List.mem_cons_of_mem _ hm')
    exact ⟨hrest.1, (act_beside h m).trans hrest.2⟩

theorem Placed.emit (h : Placed t) (c : Byte) : Placed (t.emit c) ∧ Beside t (t.emit c) := by
  rw [emit_eq h.colHigh]
  exact h.moves (moves_inside h.colLow h.colHigh c)

/-! ## Rendering -/

/-- The position of the cursor, in two bytes. -/
theorem position_bytes {p : Int} (hlo : 0 ≤ p) (hhi : p < 2000) :
    ((BitVec.ofInt 16 p >>> 8).setWidth 8).toNat * 256 + ((BitVec.ofInt 16 p).setWidth 8).toNat < 2000 := by
  obtain ⟨n, rfl⟩ := Int.eq_ofNat_of_zero_le hlo
  have hn : (BitVec.ofInt 16 (n : Int)).toNat = n := by
    rw [BitVec.toNat_ofInt]
    omega
  simp only [BitVec.toNat_setWidth, BitVec.toNat_ushiftRight, hn, Nat.shiftRight_eq_div_pow]
  omega

theorem crtc_outCrtc (t : Vga) (reg v r : Byte) :
    (t.outCrtc reg v).crtc r = if r = reg then Option.some v else t.crtc r :=
  Function.update_apply t.crtc reg (Option.some v) r

theorem HwCursor.updateHwCursor (h : t.HwCursor) (hlo : 0 ≤ t.cursorCol) (hhi : t.cursorCol < 80) :
    t.updateHwCursor.HwCursor := by
  have hother : ∀ reg v, reg ≠ 0x0F#8 → reg ≠ 0x0E#8 → ∀ u : Vga, u.HwCursor →
      (u.outCrtc reg v).HwCursor := by
    intro reg v hf he u hu lo hi hlo hhi
    rw [crtc_outCrtc, if_neg hf.symm] at hlo
    rw [crtc_outCrtc, if_neg he.symm] at hhi
    exact hu lo hi hlo hhi
  have hoff : t.disableHwCursor.HwCursor := hother _ _ (by decide) (by decide) t h
  rw [Vga.updateHwCursor]
  split
  · exact hoff
  · dsimp only
    split
    · exact hoff
    · rename_i hrow
      intro lo hi hl hh
      rw [crtc_outCrtc, if_neg (show (0x0F#8 : Byte) ≠ 0x0E#8 by decide), crtc_outCrtc, if_pos rfl,
        Option.some.injEq] at hl
      rw [crtc_outCrtc, if_pos rfl, Option.some.injEq] at hh
      rw [← hl, ← hh]
      apply position_bytes <;> omega

theorem Placed.renderView (h : Placed t) (htame : t.wild = false) (hlow : t.firstLine ≤ t.viewTop)
    (hhigh : t.viewTop ≤ t.lastLine) (hhw : t.HwCursor) : Bounds t.renderView := by
  have hregs : t.renderView.HwCursor :=
    HwCursor.updateHwCursor (t := { t with screen := t.view }) hhw h.colLow h.colHigh
  obtain ⟨crtc, heq⟩ := renderView_eq t
  rw [heq] at hregs ⊢
  exact ⟨⟨h.some, h.fits, h.cursorLow, h.cursorHigh, h.colLow, h.colHigh⟩, htame, hlow, hhigh, hregs⟩

/-- The view of the tail is in the window. -/
theorem Placed.tail (h : Placed t) : Placed t.ensureTailView ∧
    t.ensureTailView.firstLine ≤ t.ensureTailView.viewTop ∧
    t.ensureTailView.viewTop ≤ t.ensureTailView.lastLine := by
  have hlow := h.cursorLow
  have hhigh := h.cursorHigh
  have hwindow := lastLine_eq t
  refine ⟨⟨h.some, h.fits, h.cursorLow, h.cursorHigh, h.colLow, h.colHigh⟩, ?_, ?_⟩
  · show t.firstLine ≤ if t.cursorLine - 24 < t.firstLine then t.firstLine else t.cursorLine - 24
    split <;> omega
  · show (if t.cursorLine - 24 < t.firstLine then t.firstLine else t.cursorLine - 24) ≤ t.lastLine
    split <;> omega

theorem Placed.tailView (h : Placed t) (htame : t.wild = false) (hhw : t.HwCursor) :
    Bounds t.ensureTailView.renderView := by
  obtain ⟨hplaced, hlow, hhigh⟩ := h.tail
  exact hplaced.renderView htame hlow hhigh hhw

/-! ## Calls -/

theorem Placed.follow (h : Placed t) : Placed t.follow ∧ t.follow.followTail = true ∧
    t.follow.curAttr = t.curAttr ∧ t.follow.rows = t.rows ∧ t.follow.crtc = t.crtc ∧
    t.follow.cursorCol = t.cursorCol ∧ t.follow.cursorLine = t.cursorLine ∧
    t.follow.firstLine = t.firstLine ∧ t.follow.lineCount = t.lineCount ∧ t.follow.wild = t.wild := by
  unfold Vga.follow
  split
  · exact ⟨⟨h.some, h.fits, h.cursorLow, h.cursorHigh, h.colLow, h.colHigh⟩, rfl, rfl, rfl, rfl,
      rfl, rfl, rfl, rfl, rfl⟩
  · rename_i hf
    exact ⟨h, by simpa using hf, rfl, rfl, rfl, rfl, rfl, rfl, rfl, rfl⟩

/-- A character is its moves at the tail, and a rendering of the tail. -/
theorem vgaPutchar_eq (h : Placed t) (c : Byte) : t.vgaPutchar c =
    ((moves t.cursorCol c).foldl Vga.act t.follow).ensureTailView.renderView := by
  obtain ⟨hf, htail, _, _, _, hcol, _⟩ := h.follow
  have hbeside := (hf.emit c).2
  rw [vgaPutchar, hbeside.followTail, htail, if_pos rfl, emit_eq hf.colHigh, hcol]

theorem Bounds.vgaPutchar (h : Bounds t) (c : Byte) : Bounds (t.vgaPutchar c) := by
  obtain ⟨hf, _, _, _, hcrtc, hcol, _, _, _, hwild⟩ := h.toPlaced.follow
  obtain ⟨hplaced, hbeside⟩ := hf.moves (moves_inside h.colLow h.colHigh c)
  rw [vgaPutchar_eq h.toPlaced]
  apply hplaced.tailView (by rw [hbeside.wild, hwild, h.tame])
  rw [HwCursor, hbeside.crtc, hcrtc]
  exact h.hwCursor

theorem Bounds.vgaSetColor (h : Bounds t) (fg bg : Word) : Bounds (t.vgaSetColor fg bg) :=
  ⟨⟨h.some, h.fits, h.cursorLow, h.cursorHigh, h.colLow, h.colHigh⟩, h.tame, h.viewLow, h.viewHigh,
    h.hwCursor⟩

theorem ansiApply_color {s : List Byte} {seq stop n : Nat} (h : t.ansiApply s seq stop n = .ok t') :
    ∃ fg bg, t' = t.vgaSetColor fg bg := by
  rw [ansiApply] at h
  cases hl : ansiLoop s stop n n seq t.vgaGetFg t.vgaGetBg false with
  | error e =>
    rw [hl] at h
    cases h
  | ok r =>
    rw [hl] at h
    have heq : (if r.2.2 then t.vgaSetColor r.1 r.2.1 else t.vgaSetColor 7#32 0#32) = t' :=
      Except.ok.inj h
    rw [← heq]
    split
    · exact ⟨_, _, rfl⟩
    · exact ⟨_, _, rfl⟩

/-- What characters and colours keep, strings keep. -/
theorem putsLoop_keeps {I : Vga → Prop} (hchar : ∀ t c, I t → I (t.vgaPutchar c))
    (hcolor : ∀ t fg bg, I t → I (t.vgaSetColor fg bg)) {s : List Byte} {n m pos : Nat} {r : Vga × Nat}
    (h : I t) (hr : putsLoop s n m pos t = .ok r) : I r.1 := by
  induction m generalizing pos t with
  | zero => cases hr
  | succ m ih =>
    rw [putsLoop] at hr
    cases hc : charAt s pos with
    | error e =>
      rw [hc] at hr
      cases hr
    | ok c =>
      rw [hc] at hr
      change (if c = 0#8 then _ else _) = _ at hr
      split at hr
      · rw [← Except.ok.inj hr]
        exact h
      · cases hesc : escape s n pos with
        | error e =>
          rw [hesc] at hr
          cases hr
        | ok found =>
          rw [hesc] at hr
          cases found with
          | none => exact ih (hchar t c h) hr
          | some i =>
            cases happly : t.ansiApply s (pos + 2) i n with
            | error e =>
              change (do let t ← t.ansiApply s (pos + 2) i n; putsLoop s n m (i + 1) t) = _ at hr
              rw [happly] at hr
              cases hr
            | ok t' =>
              change (do let t ← t.ansiApply s (pos + 2) i n; putsLoop s n m (i + 1) t) = _ at hr
              rw [happly] at hr
              obtain ⟨fg, bg, rfl⟩ := ansiApply_color happly
              exact ih (hcolor t fg bg h) hr

theorem Bounds.vgaPuts (h : Bounds t) {str : Option CStr} {n : Nat} {r : Vga × Nat}
    (hr : t.vgaPuts str n = .ok r) : Bounds r.1 := by
  cases str with
  | none =>
    rw [← Except.ok.inj hr]
    exact h
  | some s => exact putsLoop_keeps (fun _ c h => h.vgaPutchar c) (fun _ fg bg h => h.vgaSetColor fg bg) h hr

theorem Bounds.reset (h : Bounds t) (attr : Byte) : Bounds (t.reset attr) := by
  obtain ⟨u, heq, hu⟩ := reset_eq t attr
  have hwindow := lastLine_eq u
  rw [hu.firstLine, hu.lineCount] at hwindow
  rw [heq]
  apply Placed.renderView
  · refine ⟨?_, ?_, ?_, ?_, ?_, ?_⟩
    · exact Int.le_of_eq hu.lineCount.symm
    · rw [hu.lineCount]
      decide
    · exact Int.le_of_eq (hu.firstLine.trans hu.cursorLine.symm)
    · exact Int.le_of_eq (hu.cursorLine.trans hwindow.symm)
    · exact Int.le_of_eq hu.cursorCol.symm
    · rw [hu.cursorCol]
      decide
  · exact hu.wild.trans h.tame
  · exact Int.le_of_eq (hu.firstLine.trans hu.viewTop.symm)
  · exact Int.le_of_eq (hu.viewTop.trans hwindow.symm)
  · rw [HwCursor, hu.crtc]
    exact h.hwCursor

/-- The cursor goes to a row and a column of the screen. -/
theorem vgaSetCursor_eq (hview : t.firstLine ≤ t.viewTop) (row col : Int) :
    ∃ row' col', 0 ≤ row' ∧ row' < 25 ∧ 0 ≤ col' ∧ col' < 80 ∧ t.vgaSetCursor row col =
      { ({ t with cursorLine := t.viewTop + row' }.ensureLineExists (t.viewTop + row')) with
        cursorCol := col', followTail := true }.ensureTailView.renderView := by
  obtain ⟨row', hrow, hlo, hhi⟩ : ∃ row', (if (if row < 0 then 0 else row) ≥ 25 then 24
      else if row < 0 then 0 else row) = row' ∧ 0 ≤ row' ∧ row' < 25 :=
    ⟨_, rfl, by omega, by omega⟩
  obtain ⟨col', hcol, hlo', hhi'⟩ : ∃ col', (if (if col < 0 then 0 else col) ≥ 80 then 79
      else if col < 0 then 0 else col) = col' ∧ 0 ≤ col' ∧ col' < 80 :=
    ⟨_, rfl, by omega, by omega⟩
  refine ⟨row', col', hlo, hhi, hlo', hhi', ?_⟩
  rw [Vga.vgaSetCursor]
  dsimp only
  rw [hrow, hcol, if_neg (by omega)]

theorem Bounds.vgaSetCursor (h : Bounds t) (row col : Int) : Bounds (t.vgaSetCursor row col) := by
  obtain ⟨row', col', hlo, hhi, hlo', hhi', heq⟩ := vgaSetCursor_eq h.viewLow row col
  have hview := h.viewHigh
  have hviewLow := h.viewLow
  have hwindow := lastLine_eq t
  have hfits := h.fits
  have hgrown := ensureLineExists_spec (t := { t with cursorLine := t.viewTop + row' })
    (t.viewTop + row') h.some h.fits
  rw [heq]
  generalize Vga.ensureLineExists { t with cursorLine := t.viewTop + row' } (t.viewTop + row') = u at hgrown ⊢
  have hfirst := hgrown.firstLine
  have hlast := hgrown.lastLine
  have hline := hgrown.cursorLine
  have hlast₀ : Vga.lastLine { t with cursorLine := t.viewTop + row' } = t.lastLine := rfl
  have hwindow' := lastLine_eq u
  rw [hlast₀] at hlast
  dsimp only at hfirst hline
  apply Placed.tailView
  · refine ⟨?_, ?_, ?_, ?_, hlo', hhi'⟩
    · show 1 ≤ u.lineCount
      omega
    · show u.lineCount ≤ 200
      omega
    · show u.firstLine ≤ u.cursorLine
      omega
    · show u.cursorLine ≤ u.lastLine
      omega
  · exact hgrown.wild.trans h.tame
  · rw [HwCursor]
    show ∀ lo hi, u.crtc 0x0F#8 = some lo → u.crtc 0x0E#8 = some hi → _
    rw [hgrown.crtc]
    exact h.hwCursor

/-- The view goes to a line of the window. -/
theorem scrolled_eq (h : Placed t) (hlow : t.firstLine ≤ t.viewTop) (hhigh : t.viewTop ≤ t.lastLine)
    (direction : Int) : ∃ viewTop followTail,
      t.firstLine ≤ viewTop ∧ viewTop ≤ t.lastLine ∧ t.scrolled direction =
        { t with viewTop := viewTop, followTail := followTail } := by
  have hwindow := lastLine_eq t
  have hsome := h.some
  obtain ⟨maxTop, hmax, hlo, hhi⟩ : ∃ maxTop,
      (if t.lastLine - 24 < t.firstLine then t.firstLine else t.lastLine - 24) = maxTop ∧
        t.firstLine ≤ maxTop ∧ maxTop ≤ t.lastLine :=
    ⟨_, rfl, by omega, by omega⟩
  rw [scrolled]
  dsimp only
  rw [hmax]
  split
  · refine ⟨_, _, ?_, ?_, rfl⟩ <;> split <;> omega
  · split
    · split
      · exact ⟨_, _, hlo, hhi, rfl⟩
      · exact ⟨_, _, by omega, by omega, rfl⟩
    · exact ⟨t.viewTop, t.followTail, hlow, hhigh, rfl⟩

theorem Bounds.vgaScrollPage (h : Bounds t) (direction : Int) : Bounds (t.vgaScrollPage direction) := by
  obtain ⟨viewTop, followTail, hlow, hhigh, heq⟩ := scrolled_eq h.toPlaced h.viewLow h.viewHigh direction
  rw [Vga.vgaScrollPage, heq]
  exact Placed.renderView
    (t := { t with viewTop := viewTop, followTail := followTail })
    ⟨h.some, h.fits, h.cursorLow, h.cursorHigh, h.colLow, h.colHigh⟩ h.tame hlow hhigh h.hwCursor

end Vga

/-! ## Runs -/

inductive TermCall
  | init
  | clear (bg : Word)
  | setColor (fg bg : Word)
  | putchar (c : Byte)
  /-- A call of `vga_puts` whose loops are given `turns` turns each. -/
  | puts (str : Option CStr) (turns : Nat)
  | setCursor (row col : Int)
  | scrollPage (direction : Int)
  | drawBox (row col height width : Int) (color : Word)

namespace Vga

variable {t : Vga}

def next (t : Vga) : TermCall → Vga
  | .init => t.vgaInit
  | .clear bg => t.vgaClear bg
  | .setColor fg bg => t.vgaSetColor fg bg
  | .putchar c => t.vgaPutchar c
  | .puts str turns =>
    match t.vgaPuts str turns with
    | .ok (t, _) => t
    | .error _ => t
  | .setCursor row col => t.vgaSetCursor row col
  | .scrollPage direction => t.vgaScrollPage direction
  | .drawBox row col height width color => t.vgaDrawBox row col height width color

/-- A call of `vga_puts` is one that returns. -/
def Returns (t : Vga) : TermCall → Prop
  | .puts str turns => (t.vgaPuts str turns).isOk = true
  | _ => True

instance (t : Vga) (c : TermCall) : Decidable (t.Returns c) := by
  apply TermCall.casesOn (motive := fun c => Decidable (t.Returns c)) c <;> intros <;>
    unfold Returns <;> infer_instance

def machine : Machine Vga TermCall := ⟨Returns, next⟩

/-- All calls but `vga_draw_box`. -/
def NoBox (_ : Vga) : TermCall → Prop
  | .drawBox .. => False
  | _ => True

theorem Bounds.next (h : Bounds t) {c : TermCall} (he : t.Returns c) (hc : NoBox t c) :
    Bounds (t.next c) := by
  cases c with
  | init =>
    rw [Vga.next, vgaInit]
    exact h.reset _
  | clear bg =>
    rw [Vga.next, vgaClear]
    exact h.reset _
  | setColor fg bg => exact h.vgaSetColor fg bg
  | putchar c => exact h.vgaPutchar c
  | puts str turns =>
    rw [Vga.next]
    cases hr : t.vgaPuts str turns with
    | ok r => exact h.vgaPuts hr
    | error e =>
      rw [Returns, hr] at he
      cases he
  | setCursor row col => exact h.vgaSetCursor row col
  | scrollPage direction => exact h.vgaScrollPage direction
  | drawBox => cases hc

theorem loaded_bounds (screen : Fin 25 → Fin 80 → Cell) : Bounds (loaded screen) := by
  have hlast : (loaded screen).lastLine = 0 := rfl
  refine ⟨⟨Int.le_refl 1, ?_, Int.le_refl 0, Int.le_of_eq hlast.symm, Int.le_refl 0, ?_⟩, rfl,
    Int.le_refl 0, Int.le_of_eq hlast.symm, fun lo hi h => by cases h⟩
  · show (1 : Int) ≤ 200
    decide
  · show (0 : Int) < 80
    decide

/-- Every call leaves the window, the cursor and the view in order. -/
theorem reachable_bounds {screen : Fin 25 → Fin 80 → Cell} (h : machine.Reach NoBox (loaded screen) t) :
    Bounds t :=
  h.invariant (loaded_bounds screen) fun _ _ hb he hc => hb.next he hc

/-- `ESC [ 3 1 m h i`. -/
def redHi : CStr := ⟨[0x1B#8, 0x5B#8, 0x33#8, 0x31#8, 0x6D#8, 0x68#8, 0x69#8], by decide⟩

def firstCalls : List TermCall :=
  [.init, .putchar 0x41#8, .puts (some redHi) 8, .setCursor (-3) 100, .putchar 0x0A#8, .scrollPage (-1)]

theorem firstCalls_bounds : Bounds (machine.after (loaded fun _ _ => 0#16) firstCalls) := by
  have hputs : ((loaded fun _ _ => 0#16).vgaPuts (some redHi) 8).isOk = true := by decide +kernel
  have haccepts : machine.Accepts NoBox (loaded fun _ _ => 0#16) firstCalls :=
    ⟨trivial, trivial, trivial, trivial, vgaPuts_isOk _ (by decide) hputs, trivial, trivial, trivial,
      trivial, trivial, trivial, trivial, trivial⟩
  exact reachable_bounds (.accepts .start haccepts)

end Vga

end SengOS
