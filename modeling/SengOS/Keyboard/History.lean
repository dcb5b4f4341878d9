import SengOS.Keyboard.Keyboard
import SengOS.Lib.Ring

/-!
# Command history

What the history is for: the commands that were entered, without empty ones and without
repetitions of the one before, of which the last twenty can be fetched. The ring of rows
holds the end of that list.
-/

namespace SengOS

/-- A command joins the list unless it is empty or the last one again. -/
def keep (entered : List (List Byte)) (line : List Byte) : List (List Byte) :=
  if line = [] ∨ entered.getLast? = some line then entered else entered ++ [line]

def kept (lines : List (List Byte)) : List (List Byte) := lines.foldl keep []

namespace Keyboard

variable {k : Keyboard} {entered : List (List Byte)}

/-- The rows hold the last commands of the list, command `L` in row `L % 20`. -/
structure Remembers (k : Keyboard) (entered : List (List Byte)) : Prop where
  count : k.historyCount = min 20 entered.length
  next : k.historyNext = (entered.length : Int) % 20
  rows : Ring.Holds 20 k.history (entered.length - k.historyCount) (entered.length - 1)
    fun L row => entered[L.toNat]? = some (row.cstrAt 0 256)
  short : ∀ line ∈ entered, line.length < 256 ∧ 0#8 ∉ line

/-- What `history_get` gives for each position. -/
structure Recalls (k : Keyboard) (entered : List (List Byte)) : Prop where
  count : k.historyCount = min 20 entered.length
  get : ∀ position, (k.historyGet position).map (·.cstrAt 0 256) =
    if 0 ≤ position ∧ position < k.historyCount then
      (entered.drop (entered.length - k.historyCount.toNat))[position.toNat]?
    else none

theorem Remembers.init (k : Keyboard) : Remembers k.kbInit [] where
  count := rfl
  next := rfl
  rows L hlo hhi := by
    have hnone : L ≤ 0 - 1 := hhi
    have hsome : 0 - 0 ≤ L := hlo
    omega
  short _ h := absurd h List.not_mem_nil

theorem Remembers.bounds (h : Remembers k entered) : 0 ≤ k.historyCount ∧ k.historyCount ≤ 20 ∧
    k.historyCount ≤ entered.length ∧ 0 ≤ k.historyNext ∧ k.historyNext < 20 := by
  have hcount := h.count
  have hnext := h.next
  omega

/-- The row behind the write index holds the last command. -/
theorem Remembers.last (h : Remembers k entered) (hsome : 0 < k.historyCount) :
    entered.getLast? = some ((k.history ((k.historyNext + 20 - 1).tmod 20)).cstrAt 0 256) := by
  obtain ⟨_, _, hle, hlo, hhi⟩ := h.bounds
  have hnext := h.next
  have hslot : (k.historyNext + 20 - 1).tmod 20 = ((entered.length : Int) - 1) % 20 := by
    rw [Int.tmod_eq_emod_of_nonneg (by omega)]
    omega
  have hrow := h.rows ((entered.length : Int) - 1) (by omega) (Int.le_refl _)
  rw [hslot, List.getLast?_eq_getElem?, ← hrow]
  congr 1
  omega

theorem Remembers.again (h : Remembers k entered) {line : List Byte} (hnul : 0#8 ∉ line)
    (hline : line.length < 256) :
    (k.historyCount > 0 ∧ (k.history ((k.historyNext + 20 - 1).tmod 20)).strEqAt 0 line = true) ↔
      entered.getLast? = some line := by
  rw [Buf.strEqAt_iff _ hnul hline]
  constructor
  · rintro ⟨hsome, heq⟩
    rw [h.last hsome, heq]
  · intro hlast
    have hsome : 0 < k.historyCount := by
      have hcount := h.count
      cases entered with
      | nil => cases hlast
      | cons first rest =>
        rw [List.length_cons] at hcount
        omega
    rw [h.last hsome, Option.some.injEq] at hlast
    exact ⟨hsome, hlast⟩

theorem cstrAt_strcpy (dst : Buf 256) {line : List Byte} (hnul : 0#8 ∉ line) (hline : line.length < 256) :
    (strcpy dst line).cstrAt 0 256 = line := by
  rw [strcpy, ← Buf.strCopyN_eq_setAll dst hline]
  exact Buf.cstrAt_strCopyN dst hnul hline (Nat.le_refl _)

theorem Remembers.add (h : Remembers k entered) {line : List Byte} (hnul : 0#8 ∉ line)
    (hline : line.length < 256) : Remembers (k.historyAdd line) (keep entered line) := by
  have hagain := h.again hnul hline
  by_cases hempty : line = []
  · rw [historyAdd, if_pos hempty, keep, if_pos (.inl hempty)]
    exact h
  · by_cases hsame : entered.getLast? = some line
    · rw [historyAdd, if_neg hempty, if_pos (hagain.mpr hsame), keep, if_pos (.inr hsame)]
      exact h
    · have hkeep : keep entered line = entered ++ [line] := if_neg (not_or.mpr ⟨hempty, hsame⟩)
      rw [hkeep, historyAdd, if_neg hempty, if_neg fun hc => hsame (hagain.mp hc)]
      obtain ⟨hzero, hfits, hle, hlo, hhi⟩ := h.bounds
      have hcount := h.count
      have hnext := h.next
      have hlen : ((entered ++ [line]).length : Int) = entered.length + 1 := by
        rw [List.length_append]
        rfl
      -- the new command takes the row of the one that is too old now
      have hnew : Ring.Holds 20 (Function.update k.history k.historyNext
          (strcpy (k.history k.historyNext) line)) (entered.length + 1 - min 20 (entered.length + 1))
          entered.length fun L row => (entered ++ [line])[L.toNat]? = some (row.cstrAt 0 256) := by
        have hold : Ring.Holds 20 k.history (entered.length + 1 - min 20 (entered.length + 1))
            (entered.length - 1) fun L row => (entered ++ [line])[L.toNat]? = some (row.cstrAt 0 256) := by
          have hdropped := h.rows.drop
            (show (entered.length : Int) - k.historyCount ≤
              entered.length + 1 - min 20 (entered.length + 1) by omega)
          refine hdropped.mono fun L row hL hL' hrow => ?_
          rw [List.getElem?_append_left (by omega)]
          exact hrow
        have hstored : (entered ++ [line])[((entered.length : Int) - 1 + 1).toNat]? =
            some ((strcpy (k.history k.historyNext) line).cstrAt 0 256) := by
          rw [cstrAt_strcpy _ hnul hline, show ((entered.length : Int) - 1 + 1).toNat = entered.length by omega,
            List.getElem?_append_right (Nat.le_refl _), Nat.sub_self]
          rfl
        have hpushed := hold.push (v := strcpy (k.history k.historyNext) line) (by omega) hstored
        rwa [Int.sub_add_cancel, ← hnext] at hpushed
      refine ⟨?_, ?_, ?_, ?_⟩
      · show (if k.historyCount < 20 then k.historyCount + 1 else k.historyCount) = _
        split <;> omega
      · show (k.historyNext + 1).tmod 20 = _
        rw [Int.tmod_eq_emod_of_nonneg (by omega), hlen]
        omega
      · show Ring.Holds 20 _ (((entered ++ [line]).length : Int) -
          if k.historyCount < 20 then k.historyCount + 1 else k.historyCount) _ _
        have hfirst : (entered.length : Int) + 1 -
            (if k.historyCount < 20 then k.historyCount + 1 else k.historyCount) =
            entered.length + 1 - min 20 (entered.length + 1) := by
          split <;> omega
        rw [hlen, hfirst, Int.add_sub_cancel]
        exact hnew
      · intro l hl
        rcases List.mem_append.mp hl with hl | hl
        · exact h.short l hl
        · rw [List.mem_singleton.mp hl]
          exact ⟨hline, hnul⟩

theorem Remembers.recalls (h : Remembers k entered) : Recalls k entered := by
  obtain ⟨hzero, hfits, hle, hlo, hhi⟩ := h.bounds
  have hnext := h.next
  refine ⟨h.count, fun position => ?_⟩
  rw [historyGet]
  by_cases hin : 0 ≤ position ∧ position < k.historyCount
  · have hslot : ((k.historyNext - k.historyCount + 20).tmod 20 + position).tmod 20 =
        (entered.length - k.historyCount + position) % 20 := by
      rw [Int.tmod_eq_emod_of_nonneg (a := k.historyNext - k.historyCount + 20) (by omega),
        Int.tmod_eq_emod_of_nonneg (by omega)]
      omega
    have hrow := h.rows (entered.length - k.historyCount + position) (by omega) (by omega)
    rw [if_neg (by omega), if_pos hin]
    dsimp only
    rw [hslot, Option.map_some, ← hrow, List.getElem?_drop]
    congr 1
    omega
  · rw [if_pos (by omega), if_neg hin]
    rfl

theorem Remembers.adds (h : Remembers k entered) {lines : List CStr}
    (hlong : ∀ line ∈ lines, line.bytes.length ≤ 255) :
    Remembers (lines.foldl (fun k line => k.historyAdd line.bytes) k)
      ((lines.map CStr.bytes).foldl keep entered) := by
  induction lines generalizing k entered with
  | nil => exact h
  | cons line lines ih =>
    have hline := hlong line List.mem_cons_self
    exact ih (h.add line.no_nul (Nat.lt_succ_of_le hline))
      fun l hl => hlong l (List.mem_cons_of_mem line hl)

/-- Every way to add lines after `kb_init` leaves the last twenty commands to be fetched. -/
theorem history_recalls (k : Keyboard) (lines : List CStr) (h : ∀ line ∈ lines, line.bytes.length ≤ 255) :
    Recalls (lines.foldl (fun k line => k.historyAdd line.bytes) k.kbInit) (kept (lines.map CStr.bytes)) := by
  apply Remembers.recalls
  exact (Remembers.init k).adds h

/-- `ls`, `ls` again, nothing, and `ps`. -/
def fourLines : List CStr :=
  [⟨[0x6C#8, 0x73#8], by decide⟩, ⟨[0x6C#8, 0x73#8], by decide⟩, ⟨[], by decide⟩,
    ⟨[0x70#8, 0x73#8], by decide⟩]

theorem fourLines_recalled : Recalls (fourLines.foldl (fun k line => k.historyAdd line.bytes) loaded.kbInit)
    [[0x6C#8, 0x73#8], [0x70#8, 0x73#8]] := by
  have hshort : ∀ line ∈ fourLines, line.bytes.length ≤ 255 := by
    simp [fourLines]
  exact history_recalls loaded fourLines hshort

end Keyboard

end SengOS
