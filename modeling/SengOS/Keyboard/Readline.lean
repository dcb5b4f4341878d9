import SengOS.Keyboard.History
import SengOS.Vga.Typed

/-!
# Reading a line

`kb_readline` edits a buffer and shows on the terminal what it does. What stands on the
screen is the buffer as long as nothing is taken away over the left edge: a backspace that
finds the cursor in column 0 moves it nowhere, while the buffer loses a character.
-/

namespace SengOS

/-- The cell of the screen at a place of the text, counted in cells from line 0 on. -/
def Vga.shownAt (t : Vga) (place : Int) : Option Cell :=
  let row := place / 80 - t.viewTop
  if h : 0 ≤ row ∧ row < 25 then
    some (t.screen ⟨row.toNat, by omega⟩ ⟨(place % 80).toNat, by omega⟩)
  else none

/-- A row of the roll that is in the view. -/
theorem Rendered.shownAt {t : Vga} {p : Paper} (h : Rendered t p) {r n : Nat} {row : Row}
    (hrow : p.rows[r + n / 80]? = some row) (hlow : t.viewTop ≤ r + n / 80)
    (hhigh : r + n / 80 < t.viewTop + 25) : t.shownAt (r * 80 + n) = some (row (column n)) := by
  obtain ⟨attr, hscreen⟩ := h.screen
  have hplace : ((r : Int) * 80 + n) / 80 = r + n / 80 := by omega
  have hin : 0 ≤ ((r : Int) * 80 + n) / 80 - t.viewTop ∧ ((r : Int) * 80 + n) / 80 - t.viewTop < 25 := by
    omega
  rw [Vga.shownAt, dif_pos hin, hscreen, Paper.shown]
  dsimp only
  have hindex : (t.viewTop + ((((r : Int) * 80 + n) / 80 - t.viewTop).toNat : Nat)).toNat = r + n / 80 := by
    omega
  rw [hindex, hrow, Option.getD_some]
  congr 2
  apply Fin.ext
  show (((r : Int) * 80 + n) % 80).toNat = n % 80
  omega

namespace Keyboard

/-- The local variables of `kb_readline`, beside those of the keyboard and the terminal. -/
structure Reading where
  kb : Keyboard
  term : Vga
  buf : Buf 256
  i : Nat
  historyPos : Int

def eraseInput (count : Nat) (t : Vga) : Vga := (List.replicate count 0x08#8).foldl Vga.vgaPutchar t

/-- `copy_history_to_buffer`, with the number that it returns. -/
def copyHistoryToBuffer (k : Keyboard) (buf : Buf 256) (len position : Int) : Buf 256 × Nat :=
  match k.historyGet position with
  | none => (buf, 0)
  | some src =>
    let src := src.cstrAt 0 256
    let n := if src.length ≥ len then (len - 1).toNat else src.length
    (strcpy buf (src.take n), n)

/-- `vga_puts(buf)`. No string in the buffer needs more turns. -/
def putsBuffer (t : Vga) (buf : Buf 256) : Except Stop Vga := do
  let (t, _) ← t.vgaPuts (some ⟨buf.cstrAt 0 256, Buf.nul_not_mem_cstrAt buf 0 256⟩) 257
  .ok t

namespace Reading

variable (len : Int)

/-- Before the first turn, when `len` is positive. -/
def start (kb : Keyboard) (term : Vga) (buf : Buf 256) : Reading where
  kb := kb
  term := term
  buf := buf.set 0 0#8
  i := 0
  historyPos := kb.historyCount

/-- The input is erased, and another line printed that is in the buffer then. -/
def replaceInput (r : Reading) (historyPos : Int) (line : Buf 256 × Nat) : Except Stop Reading := do
  let term ← putsBuffer (eraseInput r.i r.term) line.1
  .ok { r with term := term, buf := line.1, i := line.2, historyPos := historyPos }

/-- One turn of the loop with the key that `kb_getchar` returned. The turn of a newline is the
last one. -/
def turn (r : Reading) (c : Byte) : Except Stop Reading :=
  if c = kbKeyUp then
    if r.kb.historyCount > 0 ∧ r.historyPos > 0 then
      let historyPos := r.historyPos - 1
      r.replaceInput historyPos (copyHistoryToBuffer r.kb r.buf len historyPos)
    else .ok r
  else if c = kbKeyDown then
    if r.historyPos < r.kb.historyCount then
      let historyPos := r.historyPos + 1
      r.replaceInput historyPos
        (if historyPos = r.kb.historyCount then (r.buf.set 0 0#8, 0)
        else copyHistoryToBuffer r.kb r.buf len historyPos)
    else .ok r
  else if c = kbKeyPgup then .ok { r with term := r.term.vgaScrollPage (-1) }
  else if c = kbKeyPgdn then .ok { r with term := r.term.vgaScrollPage 1 }
  else if c = kbKeyLeft ∨ c = kbKeyRight then .ok r
  else if c = 0x0A#8 ∨ c = 0x0D#8 then
    let buf := r.buf.set r.i 0#8
    .ok { r with
      buf := buf
      kb := r.kb.historyAdd (buf.cstrAt 0 256)
      term := r.term.vgaPutchar 0x0A#8 }
  else if c = 0x08#8 then
    if r.i > 0 then
      .ok { r with
        i := r.i - 1
        buf := r.buf.set (r.i - 1) 0#8
        term := r.term.vgaPutchar 0x08#8 }
    else .ok r
  else if c.toNat < 32 then .ok r
  else
    .ok { r with
      i := r.i + 1
      buf := (r.buf.set r.i c).set (r.i + 1) 0#8
      term := r.term.vgaPutchar c
      historyPos := r.kb.historyCount }

/-- What is in the buffer behind the loop, and the number returned. -/
def result (r : Reading) : Buf 256 × Nat := (r.buf.set r.i 0#8, r.i)

def Ends (c : Byte) : Prop := c = 0x0A#8 ∨ c = 0x0D#8

instance (c : Byte) : Decidable (Ends c) := inferInstanceAs (Decidable (_ ∨ _))

/-- The loop waits for a key, this one does not end it, and its turn returns. -/
def Takes (r : Reading) (c : Byte) : Prop :=
  r.i < len - 1 ∧ ¬ Ends c ∧ (r.turn len c).isOk = true

def next (r : Reading) (c : Byte) : Reading :=
  match r.turn len c with
  | .ok r => r
  | .error _ => r

/-- `kb_readline` from key to key. -/
def machine : Machine Reading Byte := ⟨Takes len, next len⟩

/-- The length of the longest input so far. -/
def longest (r : Reading) (c : Byte) (high : Nat) : Nat := max high (r.next len c).i

/-- What a key takes away stands in the cursor's row. -/
structure StaysInRow (r : Reading) (c : Byte) : Prop where
  back : c = 0x08#8 → 0 < r.i → 0 < r.term.cursorCol
  up : c = kbKeyUp → 0 < r.kb.historyCount → 0 < r.historyPos → r.i ≤ r.term.cursorCol
  down : c = kbKeyDown → r.historyPos < r.kb.historyCount → r.i ≤ r.term.cursorCol

/-- From the place where the input started the screen shows the bytes of the buffer that are the
command, up to the cursor, and blanks behind it where the input was longer before. -/
structure InputShown (start : Int) (r : Reading) (high : Nat) : Prop where
  cursor : r.term.cursorLine * 80 + r.term.cursorCol = start + r.i
  command : r.result.1.cstrAt 0 256 = (List.range r.result.2).map r.buf.get
  input : ∀ n < r.i, ∃ v, r.term.shownAt (start + n) = some v ∧ v.setWidth 8 = r.buf.get n
  rest : ∀ n, r.i ≤ n → n < high → ∃ v, r.term.shownAt (start + n) = some v ∧ isBlank v = true

end Reading

/-! ## Lines to recall -/

/-- The history holds lines of printable characters, as `kb_readline` adds them. -/
def Recorded (k : Keyboard) : Prop :=
  ∃ entered, Remembers k entered ∧ ∀ line ∈ entered, ∀ b ∈ line, Plain b

theorem not_plain {b : Byte} (hb : b.toNat < 0x20) {line : List Byte} (hline : ∀ b ∈ line, Plain b) :
    b ∉ line :=
  fun h => absurd (hline b h) (Nat.not_le.mpr hb)

theorem Recorded.init (k : Keyboard) : Recorded k.kbInit :=
  ⟨[], .init k, fun _ h => absurd h List.not_mem_nil⟩

theorem Recorded.add {k : Keyboard} (h : Recorded k) {line : List Byte} (hline : ∀ b ∈ line, Plain b)
    (hlen : line.length < 256) : Recorded (k.historyAdd line) := by
  obtain ⟨entered, hk, hplain⟩ := h
  refine ⟨keep entered line, hk.add (not_plain (by decide) hline) hlen, fun l hl => ?_⟩
  unfold keep at hl
  split at hl
  · exact hplain l hl
  · rcases List.mem_append.mp hl with hl | hl
    · exact hplain l hl
    · rw [List.mem_singleton.mp hl]
      exact hline

theorem Recorded.get {k : Keyboard} (h : Recorded k) {position : Int} (hlo : 0 ≤ position)
    (hhi : position < k.historyCount) : ∃ src, k.historyGet position = some src ∧
      (src.cstrAt 0 256).length < 256 ∧ ∀ b ∈ src.cstrAt 0 256, Plain b := by
  obtain ⟨entered, hk, hplain⟩ := h
  have hcount := hk.count
  have hget := hk.recalls.get position
  rw [if_pos ⟨hlo, hhi⟩, List.getElem?_drop, List.getElem?_eq_getElem (by omega)] at hget
  obtain ⟨src, hsrc, hline⟩ := Option.map_eq_some_iff.mp hget
  have hin : src.cstrAt 0 256 ∈ entered := by
    rw [hline]
    exact List.getElem_mem _
  exact ⟨src, hsrc, (hk.short _ hin).1, hplain _ hin⟩

/-- A line that is recalled fits into the buffer. -/
theorem Recorded.copy {k : Keyboard} (h : Recorded k) {len position : Int} (hlen : 1 ≤ len)
    (hlo : 0 ≤ position) (hhi : position < k.historyCount) (buf : Buf 256) :
    ∃ line, copyHistoryToBuffer k buf len position = (strcpy buf line, line.length) ∧
      line.length ≤ len - 1 ∧ line.length < 256 ∧ ∀ b ∈ line, Plain b := by
  obtain ⟨src, hsrc, hshort, hplain⟩ := h.get hlo hhi
  rw [copyHistoryToBuffer, hsrc]
  dsimp only
  split
  · rename_i hlong
    have htake : ((src.cstrAt 0 256).take (len - 1).toNat).length = (len - 1).toNat := by
      rw [List.length_take]
      omega
    refine ⟨_, by rw [htake], ?_, ?_, fun b hb => hplain b (List.mem_of_mem_take hb)⟩
    · omega
    · omega
  · rename_i hfits
    refine ⟨src.cstrAt 0 256, ?_, by omega, hshort, hplain⟩
    rw [List.take_length]

theorem putsBuffer_eq (t : Vga) (buf : Buf 256) (hshort : (buf.cstrAt 0 256).length < 256)
    (hplain : ∀ b ∈ buf.cstrAt 0 256, Plain b) :
    putsBuffer t buf = .ok ((buf.cstrAt 0 256).foldl Vga.vgaPutchar t) := by
  have hputs := Vga.vgaPuts_chars t (s := ⟨buf.cstrAt 0 256, Buf.nul_not_mem_cstrAt buf 0 256⟩) (n := 257)
    (not_plain (by decide) hplain) (Nat.lt_succ_of_lt hshort)
  rw [putsBuffer, hputs]
  rfl

/-! ## Keys -/

/-- The string in the buffer stands on the terminal's paper, from the place on where the input
started. -/
structure Echoed (p₀ : Paper) (r : Reading) (high : Nat) : Prop where
  recorded : Recorded r.kb
  positionLow : 0 ≤ r.historyPos
  positionHigh : r.historyPos ≤ r.kb.historyCount
  length : (r.buf.cstrAt 0 256).length = r.i
  fits : r.i < 256
  plain : ∀ b ∈ r.buf.cstrAt 0 256, Plain b
  paper : ∃ p, Rendered r.term p ∧ Typed p₀.above.length p₀.col.val (r.buf.cstrAt 0 256) high p

namespace Echoed

variable {p₀ : Paper} {r : Reading} {high : Nat} {c : Byte}

theorem of_text {text : List Byte} {p : Paper} (hkb : Recorded r.kb) (hlow : 0 ≤ r.historyPos)
    (hhigh : r.historyPos ≤ r.kb.historyCount) (htext : r.buf.cstrAt 0 256 = text)
    (hlen : text.length = r.i) (hfits : r.i < 256) (hplain : ∀ b ∈ text, Plain b)
    (hterm : Rendered r.term p) (htyped : Typed p₀.above.length p₀.col.val text high p) :
    Echoed p₀ r high := by
  subst htext
  exact ⟨hkb, hlow, hhigh, hlen, hfits, hplain, p, hterm, htyped⟩

theorem start {kb : Keyboard} {term : Vga} (hkb : Recorded kb) (hterm : Rendered term p₀)
    (buf : Buf 256) : Echoed p₀ (.start kb term buf) 0 := by
  have hcount : 0 ≤ kb.historyCount := by
    obtain ⟨entered, hk, _⟩ := hkb
    exact hk.bounds.1
  have hempty : (buf.set 0 0#8).cstrAt 0 256 = [] := Buf.cstrAt_nul rfl 256
  exact of_text hkb hcount (Int.le_refl _) hempty rfl (Nat.succ_pos 255)
    (fun b h => absurd h List.not_mem_nil) hterm (.start p₀)

/-- A turn that leaves everything as it is counts as one. -/
theorem same (h : Echoed p₀ r high) : Echoed p₀ r (max high r.i) := by
  obtain ⟨p, _, ht⟩ := h.paper
  have hgrown := ht.grown
  rw [h.length] at hgrown
  rw [Nat.max_eq_left hgrown]
  exact h

theorem scrollPage (h : Echoed p₀ r high) (direction : Int) :
    Echoed p₀ { r with term := r.term.vgaScrollPage direction } (max high r.i) := by
  obtain ⟨p, hr, ht⟩ := h.same.paper
  exact ⟨h.recorded, h.positionLow, h.positionHigh, h.length, h.fits, h.plain, p,
    hr.scrollPage direction, ht⟩

theorem char (h : Echoed p₀ r high) (hc : Plain c) (hroom : r.i + 1 < 256) :
    Echoed p₀ { r with
      i := r.i + 1
      buf := (r.buf.set r.i c).set (r.i + 1) 0#8
      term := r.term.vgaPutchar c
      historyPos := r.kb.historyCount } (max high (r.i + 1)) := by
  obtain ⟨p, hr, ht⟩ := h.paper
  have hlow := h.positionLow
  have hhigh := h.positionHigh
  have hlen := h.length
  have hne : c ≠ 0#8 := by
    rintro rfl
    exact absurd hc (by decide)
  have hpush : ((r.buf.set r.i c).set (r.i + 1) 0#8).cstrAt 0 256 = r.buf.cstrAt 0 256 ++ [c] := by
    rw [← hlen]
    exact Buf.cstrAt_push (by rw [hlen]; exact hroom) hne
  have htyped := ht.char hc
  rw [hlen] at htyped
  refine of_text h.recorded (Int.le_trans hlow hhigh) (Int.le_refl _) hpush ?_ hroom ?_ (hr.char c) htyped
  · rw [List.length_append, hlen]
    rfl
  · intro b hb
    rcases List.mem_append.mp hb with hb | hb
    · exact h.plain b hb
    · rw [List.mem_singleton.mp hb]
      exact hc

theorem backspace (h : Echoed p₀ r high) (hsome : 0 < r.i) (hcol : 0 < r.term.cursorCol) :
    Echoed p₀ { r with
      i := r.i - 1
      buf := r.buf.set (r.i - 1) 0#8
      term := r.term.vgaPutchar 0x08#8 } (max high (r.i - 1)) := by
  obtain ⟨p, hr, ht⟩ := h.paper
  have hlen := h.length
  have hfits := h.fits
  have hgrown := ht.grown
  have hpcol := hr.col
  have hpop : (r.buf.set (r.i - 1) 0#8).cstrAt 0 256 = (r.buf.cstrAt 0 256).dropLast := by
    rw [← hlen]
    exact Buf.cstrAt_pop (by rw [hlen]; exact hfits)
  have hnonempty : r.buf.cstrAt 0 256 ≠ [] := by
    intro hnil
    rw [hnil] at hlen
    exact absurd hsome (Nat.not_lt.mpr (Nat.le_of_eq hlen.symm))
  rw [Nat.max_eq_left (show r.i - 1 ≤ high by omega)]
  refine of_text h.recorded h.positionLow h.positionHigh hpop ?_ ?_ ?_ (hr.char 0x08#8)
    (ht.backspace hnonempty (by omega))
  · rw [List.length_dropLast, hlen]
  · show r.i - 1 < 256
    omega
  · exact fun b hb => h.plain b (List.dropLast_subset _ hb)

/-- Another line in the place of an input that stands in the cursor's row. -/
theorem replace (h : Echoed p₀ r high) (hrow : r.i ≤ r.term.cursorCol) {historyPos : Int}
    (hlow : 0 ≤ historyPos) (hhigh : historyPos ≤ r.kb.historyCount) {buf : Buf 256} {line : List Byte}
    (hbuf : buf.cstrAt 0 256 = line) (hshort : line.length < 256) (hline : ∀ b ∈ line, Plain b) :
    ∃ r', r.replaceInput historyPos (buf, line.length) = .ok r' ∧ Echoed p₀ r' (max high r'.i) := by
  obtain ⟨p, hr, ht⟩ := h.paper
  have hpcol := hr.col
  have hlen := h.length
  have herased := ht.erase (by omega)
  rw [hlen] at herased
  have hprinted := herased.chars hline
  rw [List.nil_append, List.length_nil, Nat.zero_add] at hprinted
  have hputs := putsBuffer_eq (eraseInput r.i r.term) buf (by rw [hbuf]; exact hshort)
    (by rw [hbuf]; exact hline)
  rw [hbuf] at hputs
  refine ⟨{ r with
    term := line.foldl Vga.vgaPutchar (eraseInput r.i r.term)
    buf := buf
    i := line.length
    historyPos := historyPos }, ?_, ?_⟩
  · rw [Reading.replaceInput]
    dsimp only
    rw [hputs]
    rfl
  · exact of_text h.recorded hlow hhigh hbuf rfl hshort hline
      ((hr.chars (List.replicate r.i 0x08#8)).chars line) hprinted

/-- A line of the history in the place of the input. -/
theorem recalled (h : Echoed p₀ r high) (hrow : r.i ≤ r.term.cursorCol) {len : Int} (hlen : 1 ≤ len)
    {position : Int} (hlow : 0 ≤ position) (hhigh : position < r.kb.historyCount) :
    ∃ r', r.replaceInput position (copyHistoryToBuffer r.kb r.buf len position) = .ok r' ∧
      Echoed p₀ r' (max high r'.i) := by
  obtain ⟨line, hcopy, _, hshort, hline⟩ := h.recorded.copy hlen hlow hhigh r.buf
  have hstored := cstrAt_strcpy r.buf (not_plain (by decide) hline) hshort
  rw [hcopy]
  exact h.replace hrow hlow (Int.le_of_lt hhigh) hstored hshort hline

theorem turn (h : Echoed p₀ r high) {len : Int} (hlen : len ≤ 256) (hloop : r.i < len - 1)
    (hends : ¬ Reading.Ends c) (hrow : r.StaysInRow c) :
    ∃ r', r.turn len c = .ok r' ∧ Echoed p₀ r' (max high r'.i) := by
  have hlow := h.positionLow
  have hhigh := h.positionHigh
  rw [Reading.turn]
  by_cases hup : c = kbKeyUp
  · rw [if_pos hup]
    by_cases hold : r.kb.historyCount > 0 ∧ r.historyPos > 0
    · rw [if_pos hold]
      exact h.recalled (hrow.up hup hold.1 hold.2) (by omega) (by omega) (by omega)
    · rw [if_neg hold]
      exact ⟨r, rfl, h.same⟩
  rw [if_neg hup]
  by_cases hdown : c = kbKeyDown
  · rw [if_pos hdown]
    by_cases hnew : r.historyPos < r.kb.historyCount
    · have hstays := hrow.down hdown hnew
      rw [if_pos hnew]
      dsimp only
      by_cases hlast : r.historyPos + 1 = r.kb.historyCount
      · -- behind the last line of the history the input is empty again
        have hempty : (r.buf.set 0 0#8).cstrAt 0 256 = [] := Buf.cstrAt_nul rfl 256
        rw [if_pos hlast]
        exact h.replace hstays (by omega) (by omega) hempty (Nat.succ_pos 255)
          fun b h => absurd h List.not_mem_nil
      · rw [if_neg hlast]
        exact h.recalled hstays (by omega) (by omega) (by omega)
    · rw [if_neg hnew]
      exact ⟨r, rfl, h.same⟩
  rw [if_neg hdown]
  by_cases hpgup : c = kbKeyPgup
  · rw [if_pos hpgup]
    exact ⟨_, rfl, h.scrollPage (-1)⟩
  rw [if_neg hpgup]
  by_cases hpgdn : c = kbKeyPgdn
  · rw [if_pos hpgdn]
    exact ⟨_, rfl, h.scrollPage 1⟩
  rw [if_neg hpgdn]
  by_cases hside : c = kbKeyLeft ∨ c = kbKeyRight
  · rw [if_pos hside]
    exact ⟨r, rfl, h.same⟩
  rw [if_neg hside, if_neg (show ¬ (c = 0x0A#8 ∨ c = 0x0D#8) from hends)]
  by_cases hback : c = 0x08#8
  · rw [if_pos hback]
    by_cases hsome : r.i > 0
    · rw [if_pos hsome]
      exact ⟨_, rfl, h.backspace hsome (hrow.back hback hsome)⟩
    · rw [if_neg hsome]
      exact ⟨r, rfl, h.same⟩
  rw [if_neg hback]
  by_cases hcontrol : c.toNat < 32
  · rw [if_pos hcontrol]
    exact ⟨r, rfl, h.same⟩
  · rw [if_neg hcontrol]
    exact ⟨_, rfl, h.char (Nat.not_lt.mp hcontrol) (by omega)⟩

/-- What stands on the paper is on the screen when the view is at the tail. -/
theorem shown (h : Echoed p₀ r high) (htail : r.term.AtTail) :
    r.InputShown (p₀.above.length * 80 + p₀.col.val) high := by
  obtain ⟨p, hr, ht⟩ := h.paper
  have hlen := h.length
  have hfits := h.fits
  have hline := hr.line
  have hcol := hr.col
  have hpline := ht.line
  have hpcol : p.col.val = (p₀.col.val + (r.buf.cstrAt 0 256).length) % 80 := congrArg Fin.val ht.col
  rw [hlen] at hpline hpcol
  have hstart := p₀.col.isLt
  -- the input fills a few rows, and the view ends with the last of them
  have hview : r.term.viewTop ≤ p₀.above.length ∧ p.above.length < r.term.viewTop + 25 := by
    have hlast := hr.last
    have hcount := hr.count
    have hrows := Sim.length p
    have hwindow := Vga.lastLine_eq r.term
    rw [Vga.AtTail] at htail
    split at htail <;> omega
  have hat : ∀ {n : Nat} {row : Row}, p.rows[p₀.above.length + (p₀.col.val + n) / 80]? = some row →
      r.term.shownAt ((p₀.above.length : Int) * 80 + p₀.col.val + n) =
        some (row (column (p₀.col.val + n))) := by
    intro n row hrow
    have hrows := Sim.length p
    have hin := (List.getElem?_eq_some_iff.mp hrow).1
    have hplace : (p₀.above.length : Int) * 80 + p₀.col.val + n =
        p₀.above.length * 80 + ((p₀.col.val + n : Nat) : Int) := by
      omega
    rw [hplace]
    exact hr.shownAt hrow (by omega) (by omega)
  refine ⟨?_, ?_, ?_, ?_⟩
  · rw [hline, hcol]
    omega
  · show (r.buf.set r.i 0#8).cstrAt 0 256 = (List.range r.i).map r.buf.get
    have hmap := Buf.cstrAt_eq_map r.buf 256
    have hsame := Buf.cstrAt_set_end (b := r.buf) (by omega)
    rw [hlen] at hmap hsame
    rw [hsame, hmap]
  · intro n hn
    have hbyte : (r.buf.cstrAt 0 256)[n]? = some (r.buf.get n) := by
      rw [Buf.cstrAt_eq_map, hlen, List.getElem?_map, List.getElem?_range hn]
      rfl
    obtain ⟨row, hrow, hv⟩ := ht.cells n _ hbyte
    exact ⟨_, hat hrow, hv⟩
  · intro n hlo hhi
    rw [← hlen] at hlo
    obtain ⟨hrow, hblank⟩ := ht.blank n hlo hhi
    refine ⟨_, hat ?_, hblank⟩
    rw [hrow, ← ht.line]
    exact Typed.current_getElem? p

/-- The next line is read from where this one leaves the history and the terminal. -/
theorem enter (h : Echoed p₀ r high) (len : Int) (hends : Reading.Ends c) :
    ∃ r', r.turn len c = .ok r' ∧ Recorded r'.kb ∧ ∃ p, Rendered r'.term p := by
  obtain ⟨p, hr, _⟩ := h.paper
  have hlen := h.length
  have hfits := h.fits
  have hsame := Buf.cstrAt_set_end (b := r.buf) (by omega)
  rw [hlen] at hsame
  have hadded : Recorded (r.kb.historyAdd ((r.buf.set r.i 0#8).cstrAt 0 256)) := by
    rw [hsame]
    exact h.recorded.add h.plain (by omega)
  rcases hends with rfl | rfl
  · exact ⟨_, rfl, hadded, _, hr.char 0x0A#8⟩
  · exact ⟨_, rfl, hadded, _, hr.char 0x0A#8⟩

end Echoed

/-- As long as nothing is taken away over the left edge, every key returns, and the input is on
the screen whenever the view is at the tail. -/
theorem input_on_screen {kb : Keyboard} {term : Vga} {p : Paper} {len : Int} (hkb : Recorded kb)
    (hterm : Rendered term p) (hlen : len ≤ 256) (buf : Buf 256) {s : Reading × Nat}
    (h : ((Reading.machine len).watched (Reading.longest len)).Reach (fun s c => s.1.StaysInRow c)
      (.start kb term buf, 0) s) :
    (∀ c, s.1.i < len - 1 → ¬ Reading.Ends c → s.1.StaysInRow c → (s.1.turn len c).isOk = true) ∧
      (s.1.term.AtTail → s.1.InputShown (term.cursorLine * 80 + term.cursorCol) s.2) := by
  have hinv : Echoed p s.1 s.2 := by
    refine h.invariant (I := fun s => Echoed p s.1 s.2) (.start hkb hterm buf) fun s c hi he hc => ?_
    obtain ⟨r', hturn, hr'⟩ := hi.turn hlen he.1 he.2.1 hc
    show Echoed p (s.1.next len c) (max s.2 (s.1.next len c).i)
    rw [Reading.next, hturn]
    exact hr'
  constructor
  · intro c hloop hends hrow
    obtain ⟨r', hturn, _⟩ := hinv.turn hlen hloop hends hrow
    rw [hturn]
    rfl
  · intro htail
    rw [hterm.line, hterm.col]
    exact hinv.shown htail

/-- A terminal as `vga_init` leaves it. -/
def freshTerminal : Vga := (Vga.loaded fun _ _ => 0#16).vgaInit

theorem freshTerminal_rendered : Rendered freshTerminal (.start (vgaAttr 7#32 0#32)) := by
  rw [freshTerminal, Vga.vgaInit]
  exact Rendered.reset _ _

/-- The letter `a`. -/
theorem letter_on_screen :
    (((Reading.machine 256).watched (Reading.longest 256)).after
      (.start loaded.kbInit freshTerminal Buf.zero, 0) [0x61#8]).1.InputShown
        (freshTerminal.cursorLine * 80 + freshTerminal.cursorCol) 1 := by
  have hterm := freshTerminal_rendered
  generalize freshTerminal = t at hterm ⊢
  have haccepts : ((Reading.machine 256).watched (Reading.longest 256)).Accepts
      (fun s c => s.1.StaysInRow c) (.start loaded.kbInit t Buf.zero, 0) [0x61#8] := by
    have hloop : ((0 : Nat) : Int) < 256 - 1 := by decide
    refine ⟨⟨hloop, by decide, rfl⟩, ⟨?_, ?_, ?_⟩, trivial⟩
    · exact fun h => absurd h (by decide)
    · exact fun h => absurd h (by decide)
    · exact fun h => absurd h (by decide)
  have hshown := input_on_screen (.init loaded) hterm (Int.le_refl 256) Buf.zero (.accepts .start haccepts)
  exact hshown.2 (Vga.vgaPutchar_atTail hterm.placed 0x61#8)

/-- A terminal as `vga_init` leaves it, with spaces up to the last column. -/
def lastColumn : Vga := (List.replicate 79 0x20#8).foldl Vga.vgaPutchar freshTerminal

/-- In the last column the letter goes to the next row, and the backspace does not come back. -/
theorem wrapped_letter_stays : ¬ ∀ (kb : Keyboard) (term : Vga) (p : Paper) (len : Int) (buf : Buf 256)
    (s : Reading × Nat), Recorded kb → Rendered term p → len ≤ 256 →
      ((Reading.machine len).watched (Reading.longest len)).Reach (fun _ _ => True)
        (.start kb term buf, 0) s →
      s.1.term.AtTail → s.1.InputShown (term.cursorLine * 80 + term.cursorCol) s.2 := by
  intro hall
  have hspaces : ∀ b ∈ List.replicate 79 0x20#8, Plain b := by
    intro b hb
    rw [List.eq_of_mem_replicate hb]
    decide
  obtain ⟨p, hterm, htyped⟩ : ∃ p, Rendered lastColumn p ∧ Typed 0 0 (List.replicate 79 0x20#8) 79 p :=
    ⟨_, freshTerminal_rendered.chars _, (Typed.start (.start (vgaAttr 7#32 0#32))).chars hspaces⟩
  have habove : p.above.length = 0 := htyped.line
  have hcol : p.col.val = 79 := congrArg Fin.val htyped.col
  generalize lastColumn = t at hterm
  have hletter := hterm.char 0x61#8
  have hback := hletter.char 0x08#8
  have habove' : (p.putchar 0x61#8).above.length = 1 := by
    rw [Typed.putchar_above (by decide), if_neg (by omega), habove]
  have hcol' : (p.putchar 0x61#8).col.val = 0 := by
    rw [Typed.putchar_col (by decide), if_neg (by omega)]
  have hstays : (p.putchar 0x61#8).putchar 0x08#8 = p.putchar 0x61#8 := by
    generalize p.putchar 0x61#8 = q at hcol'
    rw [Paper.putchar, if_neg (by decide), if_neg (by decide), if_neg (by decide), if_pos rfl,
      if_neg (by omega)]
  rw [hstays] at hback
  have haccepts : ((Reading.machine 256).watched (Reading.longest 256)).Accepts (fun _ _ => True)
      (.start loaded.kbInit t Buf.zero, 0) [0x61#8, 0x08#8] := by
    have hloop : ((0 : Nat) : Int) < 256 - 1 := by decide
    have hloop' : ((1 : Nat) : Int) < 256 - 1 := by decide
    exact ⟨⟨hloop, by decide, rfl⟩, trivial, ⟨hloop', by decide, rfl⟩, trivial, trivial⟩
  have hshown := hall loaded.kbInit t p 256 Buf.zero _ (.init loaded) hterm (Int.le_refl 256)
    (.accepts .start haccepts) (Vga.vgaPutchar_atTail hletter.placed 0x08#8)
  have hcursor : ((t.vgaPutchar 0x61#8).vgaPutchar 0x08#8).cursorLine * 80 +
      ((t.vgaPutchar 0x61#8).vgaPutchar 0x08#8).cursorCol = t.cursorLine * 80 + t.cursorCol + (0 : Nat) :=
    hshown.cursor
  rw [hback.line, hback.col, hterm.line, hterm.col] at hcursor
  omega

end Keyboard

end SengOS
