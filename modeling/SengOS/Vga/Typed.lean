import SengOS.Vga.Blank

/-!
# Text typed on paper

Text that is typed from some place on runs from there to the cursor, from each row on to the
next. A backspace takes the last character away as long as it stands in the cursor's row: the
cursor does not go back over the left edge.
-/

namespace SengOS

/-- The column of the `n`th place, counted from the start of some row. -/
def column (n : Nat) : Fin 80 := ⟨n % 80, Nat.mod_lt n (by decide)⟩

/-- The text stands on the paper from column `c` of row `r` to the cursor. Behind the cursor are
blanks where it was longer before, up to place `high`. -/
structure Typed (r c : Nat) (text : List Byte) (high : Nat) (p : Paper) : Prop where
  line : p.above.length = r + (c + text.length) / 80
  col : p.col = column (c + text.length)
  cells : ∀ n b, text[n]? = some b →
    ∃ row, p.rows[r + (c + n) / 80]? = some row ∧ (row (column (c + n))).setWidth 8 = b
  grown : text.length ≤ high
  blank : ∀ n, text.length ≤ n → n < high →
    (c + n) / 80 = (c + text.length) / 80 ∧ isBlank (p.current (column (c + n))) = true

/-- The bytes that `vga_putchar` shows as they are. -/
def Plain (b : Byte) : Prop := 0x20 ≤ b.toNat

instance (b : Byte) : Decidable (Plain b) := inferInstanceAs (Decidable (_ ≤ _))

namespace Typed

variable {r c high : Nat} {text : List Byte} {p : Paper} {b : Byte}

theorem start (p : Paper) : Typed p.above.length p.col.val [] 0 p where
  line := by
    have hcol := p.col.isLt
    rw [List.length_nil, Nat.add_zero, Nat.div_eq_of_lt hcol, Nat.add_zero]
  col := Fin.ext (Nat.mod_eq_of_lt p.col.isLt).symm
  cells _ _ h := by cases h
  grown := Nat.le_refl 0
  blank _ _ h := absurd h (Nat.not_lt_zero _)

theorem putchar_plain (hb : Plain b) (p : Paper) : p.putchar b =
    if h : p.col.val + 1 < 80 then { p.write b with col := ⟨p.col.val + 1, h⟩ }
    else (p.write b).newLine := by
  have hne (v : Byte) (hv : v.toNat < 0x20) : b ≠ v := by
    rintro rfl
    exact absurd hb (Nat.not_le.mpr hv)
  rw [Paper.putchar, if_neg (hne _ (by decide)), if_neg (hne _ (by decide)), if_neg (hne _ (by decide)),
    if_neg (hne _ (by decide))]

/-- The rows that a plain character leaves: those above, the one it is written to, and perhaps a
blank one. -/
theorem rows_putchar (hb : Plain b) (p : Paper) {L : Nat} (hL : L ≤ p.above.length) :
    (p.putchar b).rows[L]? = (p.above ++ [(p.write b).current])[L]? := by
  rw [putchar_plain hb]
  split
  · rfl
  · have hlen : (p.above ++ [(p.write b).current]).length = p.above.length + 1 := List.length_append
    show ((p.above ++ [(p.write b).current]) ++ _)[L]? = _
    exact List.getElem?_append_left (by omega)

theorem putchar_above (hb : Plain b) (p : Paper) : (p.putchar b).above.length =
    if p.col.val + 1 < 80 then p.above.length else p.above.length + 1 := by
  rw [putchar_plain hb]
  split
  · rfl
  · exact List.length_append

theorem putchar_col (hb : Plain b) (p : Paper) :
    (p.putchar b).col.val = if p.col.val + 1 < 80 then p.col.val + 1 else 0 := by
  rw [putchar_plain hb]
  split
  · rfl
  · rfl

theorem current_getElem? (p : Paper) : p.rows[p.above.length]? = some p.current := by
  rw [Paper.rows, List.getElem?_append_right (Nat.le_refl _), Nat.sub_self]
  rfl

/-- A place of the paper keeps its cell when another one is written in the cursor's row. -/
theorem rows_update_of_ne {L : Nat} {row : Row} {col d : Fin 80} (hrow : p.rows[L]? = some row)
    (hne : L = p.above.length → col ≠ d) (v : Cell) :
    ∃ row', (p.above ++ [Function.update p.current d v])[L]? = some row' ∧ row' col = row col := by
  by_cases hsame : L = p.above.length
  · subst hsame
    rw [current_getElem?, Option.some.injEq] at hrow
    refine ⟨Function.update p.current d v, ?_, ?_⟩
    · rw [List.getElem?_append_right (Nat.le_refl _), Nat.sub_self]
      rfl
    · rw [Function.update_of_ne (hne rfl), hrow]
  · have hlen := Sim.length p
    have hlt : L < p.rows.length := (List.getElem?_eq_some_iff.mp hrow).1
    have habove : L < p.above.length := by omega
    rw [Paper.rows, List.getElem?_append_left habove] at hrow
    exact ⟨row, (List.getElem?_append_left habove).trans hrow, rfl⟩

theorem column_ne {m n : Nat} (hrow : m / 80 = n / 80) (hne : m ≠ n) : column m ≠ column n := by
  intro heq
  have hval : m % 80 = n % 80 := congrArg Fin.val heq
  omega

/-- A character of the text keeps its cell when another place is written in the cursor's row. -/
theorem cell_kept (h : Typed r c text high p) {n m : Nat} (hn : text[n]? = some b)
    (hrow : (c + m) / 80 = (c + text.length) / 80) (hne : n ≠ m) (v : Cell) :
    ∃ row, (p.above ++ [Function.update p.current (column (c + m)) v])[r + (c + n) / 80]? = some row ∧
      (row (column (c + n))).setWidth 8 = b := by
  have hline := h.line
  obtain ⟨row, hat, hv⟩ := h.cells n b hn
  have hother : r + (c + n) / 80 = p.above.length → column (c + n) ≠ column (c + m) :=
    fun _ => column_ne (by omega) (by omega)
  obtain ⟨row', hrow', hsame⟩ := rows_update_of_ne hat hother v
  exact ⟨row', hrow', hsame ▸ hv⟩

/-- A character more. -/
theorem char (h : Typed r c text high p) (hb : Plain b) :
    Typed r c (text ++ [b]) (max high (text.length + 1)) (p.putchar b) := by
  have hline := h.line
  have hcol : p.col.val = (c + text.length) % 80 := congrArg Fin.val h.col
  have habove := putchar_above hb p
  have hcol' := putchar_col hb p
  have hlen : (text ++ [b]).length = text.length + 1 := List.length_append
  have hwritten : (p.write b).current =
      Function.update p.current (column (c + text.length)) (cell p.attr b) := by
    rw [← h.col]
    rfl
  refine ⟨?_, ?_, ?_, ?_, ?_⟩
  · rw [habove, hlen]
    split <;> omega
  · apply Fin.ext
    show (p.putchar b).col.val = (c + (text ++ [b]).length) % 80
    rw [hcol', hlen]
    split <;> omega
  · intro n v hn
    have hin : n < text.length + 1 := hlen ▸ (List.getElem?_eq_some_iff.mp hn).1
    rw [rows_putchar hb p (by omega), hwritten]
    by_cases hlast : n = text.length
    · -- the character itself
      subst hlast
      rw [List.getElem?_append_right (Nat.le_refl _), Nat.sub_self] at hn
      rw [← hline, List.getElem?_append_right (Nat.le_refl _), Nat.sub_self]
      refine ⟨_, rfl, ?_⟩
      rw [Function.update_self, Vga.setWidth_cell]
      exact Option.some.inj hn
    · rw [List.getElem?_append_left (by omega)] at hn
      exact h.cell_kept hn rfl hlast _
  · rw [hlen]
    exact Nat.le_max_right _ _
  · intro n hlo hhi
    rw [hlen] at hlo ⊢
    obtain ⟨hrow, hblank⟩ := h.blank n (by omega) (by omega)
    -- a place behind the cursor was filled before only in the row where the cursor stays
    have hroom : p.col.val + 1 < 80 := by omega
    have hcurrent : (p.putchar b).current = (p.write b).current := by
      rw [putchar_plain hb, dif_pos hroom]
    refine ⟨by omega, ?_⟩
    rw [hcurrent, hwritten, Function.update_of_ne (column_ne hrow (by omega))]
    exact hblank

/-- A backspace that finds the last character in the cursor's row. -/
theorem backspace (h : Typed r c text high p) (hsome : text ≠ []) (hcol : 0 < p.col.val) :
    Typed r c text.dropLast high (p.putchar 0x08#8) := by
  have hline := h.line
  have hgrown := h.grown
  have hval : p.col.val = (c + text.length) % 80 := congrArg Fin.val h.col
  have hpos : 0 < text.length := List.length_pos_iff.mpr hsome
  have hlen : text.dropLast.length = text.length - 1 := List.length_dropLast
  have hback : (⟨p.col.val - 1, by omega⟩ : Fin 80) = column (c + (text.length - 1)) := by
    apply Fin.ext
    show p.col.val - 1 = (c + (text.length - 1)) % 80
    omega
  have heq : p.putchar 0x08#8 = { p with col := column (c + (text.length - 1)) }.write 0x20#8 := by
    rw [Paper.putchar, if_neg (by decide), if_neg (by decide), if_neg (by decide), if_pos rfl, if_pos hcol,
      hback]
  have hcurrent : ({ p with col := column (c + (text.length - 1)) }.write 0x20#8 : Paper).current =
      Function.update p.current (column (c + (text.length - 1))) (cell p.attr 0x20#8) := rfl
  rw [heq]
  refine ⟨?_, ?_, ?_, ?_, ?_⟩
  · show p.above.length = r + (c + text.dropLast.length) / 80
    rw [hlen]
    omega
  · rw [hlen]
    rfl
  · intro n v hn
    have hlt : n < text.length - 1 := hlen ▸ (List.getElem?_eq_some_iff.mp hn).1
    rw [List.getElem?_dropLast, if_pos hlt] at hn
    exact h.cell_kept hn (by omega) (by omega) _
  · rw [hlen]
    omega
  · intro n hlo hhi
    rw [hlen] at hlo ⊢
    rw [hcurrent]
    by_cases hlast : n = text.length - 1
    · subst hlast
      rw [Function.update_self]
      exact ⟨rfl, Vga.isBlank_space p.attr⟩
    · obtain ⟨hrow, hblank⟩ := h.blank n (by omega) hhi
      refine ⟨by omega, ?_⟩
      rw [Function.update_of_ne (column_ne (by omega) (by omega))]
      exact hblank

/-- More characters. -/
theorem chars (h : Typed r c text high p) {more : List Byte} (hmore : ∀ b ∈ more, Plain b) :
    Typed r c (text ++ more) (max high (text.length + more.length)) (more.foldl Paper.putchar p) := by
  induction more generalizing text high p with
  | nil =>
    have hgrown := h.grown
    rw [List.append_nil, List.length_nil, Nat.add_zero, Nat.max_eq_left hgrown]
    exact h
  | cons b more ih =>
    have hrest := ih (h.char (hmore b List.mem_cons_self)) fun v hv => hmore v (List.mem_cons_of_mem b hv)
    have hlen : (text ++ [b]).length = text.length + 1 := List.length_append
    rw [hlen, List.append_assoc, Nat.max_assoc,
      Nat.max_eq_right (show text.length + 1 ≤ text.length + 1 + more.length by omega)] at hrest
    rw [List.length_cons, show text.length + (more.length + 1) = text.length + 1 + more.length by omega]
    exact hrest

/-- As many backspaces as the text is long, when it is in the cursor's row. -/
theorem erase (h : Typed r c text high p) (hrow : text.length ≤ p.col.val) :
    Typed r c [] high ((List.replicate text.length 0x08#8).foldl Paper.putchar p) := by
  generalize hn : text.length = n
  induction n generalizing text p with
  | zero =>
    rw [List.length_eq_zero_iff.mp hn] at h
    exact h
  | succ n ih =>
    have hsome : text ≠ [] := by
      rintro rfl
      cases hn
    have hback := h.backspace hsome (by omega)
    have hlen : text.dropLast.length = text.length - 1 := List.length_dropLast
    have hcol : (p.putchar 0x08#8).col.val = p.col.val - 1 := by
      have hval : p.col.val = (c + text.length) % 80 := congrArg Fin.val h.col
      have hval' : (p.putchar 0x08#8).col.val = (c + text.dropLast.length) % 80 :=
        congrArg Fin.val hback.col
      omega
    exact ih hback (by omega) (by omega)

end Typed

end SengOS
