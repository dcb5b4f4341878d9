import SengOS.Vga.Terminal
import SengOS.Lib.CString

/-!
# Printing strings

`vga_puts` looks for `ESC [ ... m` and hands what stands between to `ansi_apply`, which
skips semicolons and reads numbers. The scan for the final byte accepts any other byte
on the way; the loop of `ansi_apply` makes no turn past one that is neither a digit nor a
semicolon.
-/

namespace SengOS

/-- Why a call gives no result. -/
inductive Stop
  /-- It read behind the NUL of the string. -/
  | wildRead
  /-- A loop used up its turns. -/
  | outOfTurns
  deriving DecidableEq

/-- `s[i]`. The NUL is the last byte that may be read. -/
def charAt (s : List Byte) (i : Nat) : Except Stop Byte :=
  match s[i]? with
  | some c => .ok c
  | none => if i = s.length then .ok 0#8 else .error .wildRead

/-- `c >= '0' && c <= '9'`: bytes from 0x80 on are negative, and in no range. -/
def isDigit (c : Byte) : Bool := 0x30#8 ≤ c && c ≤ 0x39#8

/-- `c >= '@' && c <= '~'`. -/
def isFinal (c : Byte) : Bool := 0x40#8 ≤ c && c ≤ 0x7E#8

namespace Vga

/-- `ansi_value`, with the number and the place where it ends. -/
def ansiValue (s : List Byte) : Nat → Nat → Int → Bool → Except Stop (Int × Nat)
  | 0, _, _, _ => .error .outOfTurns
  | n + 1, i, value, haveDigit => do
    let c ← charAt s i
    if isDigit c then ansiValue s n (i + 1) (value * 10 + (c.toNat - 0x30)) true
    else .ok (if haveDigit then value else 0, i)

def ansiFg (code : Int) : Word :=
  if code ≥ 30 ∧ code ≤ 37 then BitVec.ofInt 32 (code - 30) else BitVec.ofInt 32 (code - 90 + 8)

def ansiBg (code : Int) : Word :=
  if code ≥ 40 ∧ code ≤ 47 then BitVec.ofInt 32 (code - 40) else BitVec.ofInt 32 (code - 100 + 8)

/-- What one parameter does to the two colours. -/
def ansiCode (code : Int) (fg bg : Word) : Word × Word :=
  if code = 0 then (7#32, 0#32)
  else if code ≥ 30 ∧ code ≤ 37 then (ansiFg code, bg)
  else if code ≥ 90 ∧ code ≤ 97 then (ansiFg code, bg)
  else if code ≥ 40 ∧ code ≤ 47 then (fg, ansiBg code)
  else if code ≥ 100 ∧ code ≤ 107 then (fg, ansiBg code)
  else (fg, bg)

/-- The loop of `ansi_apply` over the parameters before `stop`. Each call of `ansi_value`
may make `n` turns. -/
def ansiLoop (s : List Byte) (stop n : Nat) :
    Nat → Nat → Word → Word → Bool → Except Stop (Word × Word × Bool)
  | 0, _, _, _, _ => .error .outOfTurns
  | m + 1, i, fg, bg, hadParameter =>
    if i < stop then do
      let c ← charAt s i
      if c = 0x3B#8 then ansiLoop s stop n m (i + 1) fg bg hadParameter
      else do
        let (code, i) ← ansiValue s n i 0 false
        let (fg, bg) := ansiCode code fg bg
        if i < stop then do
          let c ← charAt s i
          ansiLoop s stop n m (if c = 0x3B#8 then i + 1 else i) fg bg true
        else ansiLoop s stop n m i fg bg true
    else .ok (fg, bg, hadParameter)

/-- `ansi_apply(str + 2, i - 2)`, with both arguments as places in the string. -/
def ansiApply (s : List Byte) (seq stop n : Nat) (t : Vga) : Except Stop Vga := do
  let (fg, bg, hadParameter) ← ansiLoop s stop n n seq t.vgaGetFg t.vgaGetBg false
  .ok (if hadParameter then t.vgaSetColor fg bg else t.vgaSetColor 7#32 0#32)

/-- The scan for the byte that ends the sequence, or for the NUL. -/
def scanFinal (s : List Byte) : Nat → Nat → Except Stop Nat
  | 0, _ => .error .outOfTurns
  | n + 1, i => do
    let c ← charAt s i
    if c ≠ 0#8 ∧ !isFinal c then scanFinal s n (i + 1) else .ok i

/-- The place of the `m` when a colour sequence begins at `pos`. -/
def escape (s : List Byte) (n pos : Nat) : Except Stop (Option Nat) := do
  let c ← charAt s pos
  if c = 0x1B#8 then do
    let c ← charAt s (pos + 1)
    if c = 0x5B#8 then do
      let i ← scanFinal s n (pos + 2)
      let c ← charAt s i
      .ok (if c = 0x6D#8 then some i else none)
    else .ok none
  else .ok none

/-- The loop of `vga_puts`, with the place where it ends. Each loop that it runs may make `n`
turns. -/
def putsLoop (s : List Byte) (n : Nat) : Nat → Nat → Vga → Except Stop (Vga × Nat)
  | 0, _, _ => .error .outOfTurns
  | m + 1, pos, t => do
    let c ← charAt s pos
    if c = 0#8 then .ok (t, pos)
    else
      match ← escape s n pos with
      | some i => do
        let t ← t.ansiApply s (pos + 2) i n
        putsLoop s n m (i + 1) t
      | none => putsLoop s n m (pos + 1) (t.vgaPutchar c)

/-- `vga_puts(NULL)` returns at once. -/
def vgaPuts (t : Vga) (str : Option CStr) (n : Nat) : Except Stop (Vga × Nat) :=
  match str with
  | none => .ok (t, 0)
  | some s => putsLoop s.bytes n n 0 t

end Vga

/-! ## Reading -/

section
variable {s : List Byte} {i j n : Nat} {c : Byte}

theorem charAt_some (h : s[i]? = some c) : charAt s i = .ok c := by
  rw [charAt, h]

theorem charAt_le (h : i ≤ s.length) :
    ∃ c, charAt s i = .ok c ∧ (s[i]? = some c ∨ i = s.length ∧ c = 0#8) := by
  by_cases hi : i < s.length
  · exact ⟨s[i], charAt_some (List.getElem?_eq_getElem hi), .inl (List.getElem?_eq_getElem hi)⟩
  · refine ⟨0#8, ?_, .inr ⟨by omega, rfl⟩⟩
    rw [charAt, List.getElem?_eq_none (by omega)]
    exact if_pos (by omega)

theorem lt_of_getElem? (h : s[i]? = some c) : i < s.length :=
  (List.getElem?_eq_some_iff.mp h).1

/-- All bytes from `i` up to `j` are bytes of the string with property `p`. -/
def Between (s : List Byte) (i j : Nat) (p : Byte → Bool) : Prop :=
  ∀ k, i ≤ k → k < j → ∃ c, s[k]? = some c ∧ p c = true

theorem Between.nil (s : List Byte) (i : Nat) (p : Byte → Bool) : Between s i i p :=
  fun k hlo hhi => absurd hhi (by omega)

theorem Between.cons {p : Byte → Bool} (hc : s[i]? = some c) (hp : p c = true)
    (h : Between s (i + 1) j p) : Between s i j p := by
  intro k hlo hhi
  by_cases hk : k = i
  · rw [hk]
    exact ⟨c, hc, hp⟩
  · exact h k (by omega) hhi

theorem Between.append {p q : Byte → Bool} {k : Nat} (h : Between s i j p)
    (h' : Between s j k q) (hpq : ∀ c, p c = true → q c = true) : Between s i k q := by
  intro l hlo hhi
  by_cases hl : l < j
  · obtain ⟨c, hc, hp⟩ := h l hlo hl
    exact ⟨c, hc, hpq c hp⟩
  · exact h' l (by omega) hhi

/-- What a scan for the final byte finds. -/
structure Scanned (s : List Byte) (i j : Nat) : Prop where
  le : i ≤ j
  length : j ≤ s.length
  between : Between s i j fun c => !isFinal c
  stops : ∀ c, s[j]? = some c → isFinal c = true

theorem Scanned.unique {j' : Nat} (h : Scanned s i j) (h' : Scanned s i j') : j = j' := by
  by_contra hne
  rcases Nat.lt_or_gt_of_ne hne with hlt | hlt
  · obtain ⟨c, hc, hno⟩ := h'.between j h.le hlt
    simp [h.stops c hc] at hno
  · obtain ⟨c, hc, hno⟩ := h.between j' h'.le hlt
    simp [h'.stops c hc] at hno

end

namespace Vga

variable {s : List Byte} {i j n : Nat}

theorem scanFinal_spec (hs : 0#8 ∉ s) (hi : i ≤ s.length) :
    (∃ j, scanFinal s n i = .ok j ∧ Scanned s i j) ∨
      (scanFinal s n i = .error .outOfTurns ∧ n ≤ s.length - i) := by
  induction n generalizing i with
  | zero => exact .inr ⟨rfl, Nat.zero_le _⟩
  | succ n ih =>
    obtain ⟨c, hc, hread⟩ := charAt_le hi
    have hturn : scanFinal s (n + 1) i =
        if c ≠ 0#8 ∧ !isFinal c then scanFinal s n (i + 1) else .ok i := by
      rw [scanFinal, hc]
      rfl
    rw [hturn]
    split
    · rename_i hgo
      have hin : s[i]? = some c := hread.resolve_right fun h => hgo.1 h.2
      have hlt := lt_of_getElem? hin
      rcases ih hlt with ⟨j, hj, hscan⟩ | ⟨hout, hn⟩
      · exact .inl ⟨j, hj, by have := hscan.le; omega, hscan.length, .cons hin hgo.2 hscan.between,
          hscan.stops⟩
      · exact .inr ⟨hout, by omega⟩
    · rename_i hstop
      refine .inl ⟨i, rfl, Nat.le_refl i, hi, .nil s i _, fun d hd => ?_⟩
      have hd0 : d ≠ 0#8 := by
        rintro rfl
        exact hs (List.mem_of_getElem? hd)
      rcases hread with hin | ⟨hend, _⟩
      · rw [hin, Option.some.injEq] at hd
        by_contra hno
        exact hstop ⟨hd ▸ hd0, by simpa [hd] using hno⟩
      · exact absurd (lt_of_getElem? hd) (by omega)

/-- `ansi_value` stops behind the digits. -/
theorem ansiValue_spec (value : Int) (haveDigit : Bool) (hi : i ≤ s.length) :
    (∃ v j, ansiValue s n i value haveDigit = .ok (v, j) ∧ i ≤ j ∧ j ≤ s.length ∧
        Between s i j isDigit ∧ ∀ c, s[j]? = some c → isDigit c = false) ∨
      (ansiValue s n i value haveDigit = .error .outOfTurns ∧ n ≤ s.length - i) := by
  induction n generalizing i value haveDigit with
  | zero => exact .inr ⟨rfl, Nat.zero_le _⟩
  | succ n ih =>
    obtain ⟨c, hc, hread⟩ := charAt_le hi
    have hturn : ansiValue s (n + 1) i value haveDigit =
        if isDigit c then ansiValue s n (i + 1) (value * 10 + (c.toNat - 0x30)) true
        else .ok (if haveDigit then value else 0, i) := by
      rw [ansiValue, hc]
      rfl
    rw [hturn]
    split
    · rename_i hdigit
      have hin : s[i]? = some c := by
        refine hread.resolve_right fun h => ?_
        rw [h.2] at hdigit
        cases hdigit
      have hlt := lt_of_getElem? hin
      rcases ih _ _ hlt with ⟨v, j, hj, hle, hlen, hbetween, hstop⟩ | ⟨hout, hn⟩
      · exact .inl ⟨v, j, hj, by omega, hlen, .cons hin hdigit hbetween, hstop⟩
      · exact .inr ⟨hout, by omega⟩
    · rename_i hstop
      refine .inl ⟨_, i, rfl, Nat.le_refl i, hi, .nil s i _, fun d hd => ?_⟩
      rcases hread with hin | ⟨hend, _⟩
      · rw [hin, Option.some.injEq] at hd
        rw [← hd]
        simpa using hstop
      · exact absurd (lt_of_getElem? hd) (by omega)

/-- A byte that `ansi_apply` gets past. -/
def isParam (c : Byte) : Bool := isDigit c || c == 0x3B#8

theorem not_digit_m : isDigit 0x6D#8 = false := by decide

theorem isParam_of_digit (c : Byte) (h : isDigit c = true) : isParam c = true := by
  rw [isParam, h]
  rfl

/-- A turn at a byte that is no semicolon gets past digits only. -/
theorem ansiLoop_turn {stop m : Nat} (fg bg : Word) (hadParameter : Bool) {c : Byte}
    (hstop : s[stop]? = some 0x6D#8) (hend : i < stop) (hc : s[i]? = some c) (hsemi : c ≠ 0x3B#8) :
    (∃ j fg' bg', i ≤ j ∧ j ≤ stop ∧ (isDigit c = true → i < j) ∧ Between s i j isParam ∧
        ansiLoop s stop n (m + 1) i fg bg hadParameter = ansiLoop s stop n m j fg' bg' true) ∨
      (ansiLoop s stop n (m + 1) i fg bg hadParameter = .error .outOfTurns ∧ n ≤ s.length) := by
  have hlen := lt_of_getElem? hstop
  have hturn : ansiLoop s stop n (m + 1) i fg bg hadParameter = (do
      let (code, i) ← ansiValue s n i 0 false
      let (fg, bg) := ansiCode code fg bg
      if i < stop then do
        let c ← charAt s i
        ansiLoop s stop n m (if c = 0x3B#8 then i + 1 else i) fg bg true
      else ansiLoop s stop n m i fg bg true) := by
    rw [ansiLoop, if_pos hend, charAt_some hc]
    exact if_neg hsemi
  rw [hturn]
  rcases ansiValue_spec (n := n) 0 false (show i ≤ s.length by omega) with
    ⟨v, j, hj, hle, _, hdigits, hno⟩ | ⟨hout, hn⟩
  · have hjs : j ≤ stop := by
      by_contra hlt
      obtain ⟨d, hd, hdigit⟩ := hdigits stop (by omega) (by omega)
      rw [hstop, Option.some.injEq] at hd
      rw [← hd, not_digit_m] at hdigit
      cases hdigit
    have hpast : isDigit c = true → i < j := by
      intro hdigit
      by_contra hlt
      have hij : j = i := by omega
      rw [hij] at hno
      rw [hno c hc] at hdigit
      cases hdigit
    have hplain : Between s i j isParam := hdigits.append (.nil s j _) isParam_of_digit
    left
    rw [hj]
    by_cases hlt : j < stop
    · obtain ⟨d, hd, hread⟩ := charAt_le (show j ≤ s.length by omega)
      have hin : s[j]? = some d := hread.resolve_right fun h => by omega
      by_cases hd' : d = 0x3B#8
      · refine ⟨j + 1, (ansiCode v fg bg).1, (ansiCode v fg bg).2, by omega, hlt, fun _ => by omega, ?_, ?_⟩
        · apply hplain.append (.cons hin _ (.nil s (j + 1) _)) fun _ h => h
          rw [hd']
          decide
        · show (if j < stop then _ else _) = _
          rw [if_pos hlt, hd]
          show ansiLoop s stop n m (if d = 0x3B#8 then j + 1 else j) _ _ true = _
          rw [if_pos hd']
          rfl
      · refine ⟨j, (ansiCode v fg bg).1, (ansiCode v fg bg).2, hle, hjs, hpast, hplain, ?_⟩
        show (if j < stop then _ else _) = _
        rw [if_pos hlt, hd]
        show ansiLoop s stop n m (if d = 0x3B#8 then j + 1 else j) _ _ true = _
        rw [if_neg hd']
        rfl
    · refine ⟨j, (ansiCode v fg bg).1, (ansiCode v fg bg).2, hle, hjs, hpast, hplain, ?_⟩
      show (if j < stop then _ else _) = _
      rw [if_neg hlt]
      rfl
  · right
    rw [hout]
    exact ⟨rfl, by omega⟩

/-- The loop of `ansi_apply` ends exactly when it gets past every byte. -/
theorem ansiLoop_spec {stop m : Nat} (fg bg : Word) (hadParameter : Bool)
    (hstop : s[stop]? = some 0x6D#8) (hi : i ≤ stop) :
    (Between s i stop isParam ∧ ∃ r, ansiLoop s stop n m i fg bg hadParameter = .ok r) ∨
      (ansiLoop s stop n m i fg bg hadParameter = .error .outOfTurns ∧
        (Between s i stop isParam → n ≤ s.length ∨ m ≤ stop - i)) := by
  have hlen := lt_of_getElem? hstop
  induction m generalizing i fg bg hadParameter with
  | zero => exact .inr ⟨rfl, fun _ => .inr (Nat.zero_le _)⟩
  | succ m ih =>
    by_cases hend : i < stop
    · obtain ⟨c, hc, hread⟩ := charAt_le (show i ≤ s.length by omega)
      have hin : s[i]? = some c := hread.resolve_right fun h => by omega
      by_cases hsemi : c = 0x3B#8
      · have hturn : ansiLoop s stop n (m + 1) i fg bg hadParameter =
            ansiLoop s stop n m (i + 1) fg bg hadParameter := by
          rw [ansiLoop, if_pos hend, hc]
          exact if_pos hsemi
        have hparam : isParam c = true := by rw [hsemi]; decide
        rw [hturn]
        rcases ih _ _ _ hend with ⟨hplain, hr⟩ | ⟨hout, hn⟩
        · exact .inl ⟨.cons hin hparam hplain, hr⟩
        · refine .inr ⟨hout, fun hplain => ?_⟩
          have hrest := hn fun k hlo hhi => hplain k (by omega) hhi
          omega
      · rcases ansiLoop_turn (n := n) (m := m) fg bg hadParameter hstop hend
          hin hsemi with ⟨j, fg', bg', hle, hjs, hpast, hplain, hturn⟩ | ⟨hout, hn⟩
        · rw [hturn]
          rcases ih _ _ _ hjs with ⟨hrest, hr⟩ | ⟨hout, hn⟩
          · exact .inl ⟨hplain.append hrest fun _ h => h, hr⟩
          · refine .inr ⟨hout, fun hall => ?_⟩
            have hdigit : isDigit c = true := by
              obtain ⟨d, hd, hparam⟩ := hall i (Nat.le_refl i) hend
              rw [hin, Option.some.injEq] at hd
              rw [← hd, isParam, Bool.or_eq_true, beq_iff_eq] at hparam
              exact hparam.resolve_right hsemi
            have hrest := hn fun k hlo hhi => hall k (by omega) hhi
            have := hpast hdigit
            omega
        · exact .inr ⟨hout, fun _ => .inl hn⟩
    · have hstopped : i = stop := by omega
      refine .inl ⟨?_, (fg, bg, hadParameter), ?_⟩
      · rw [hstopped]
        exact .nil s stop _
      · rw [ansiLoop, if_neg hend]

theorem ansiApply_spec {seq stop : Nat} (t : Vga) (hstop : s[stop]? = some 0x6D#8)
    (hseq : seq ≤ stop) :
    (Between s seq stop isParam ∧ ∃ t', t.ansiApply s seq stop n = .ok t') ∨
      (t.ansiApply s seq stop n = .error .outOfTurns ∧
        (Between s seq stop isParam → n ≤ s.length)) := by
  have hlen := lt_of_getElem? hstop
  rw [ansiApply]
  rcases ansiLoop_spec (n := n) (m := n) t.vgaGetFg t.vgaGetBg false hstop hseq with
    ⟨hplain, r, hr⟩ | ⟨hout, hn⟩
  · rw [hr]
    exact .inl ⟨hplain, _, rfl⟩
  · rw [hout]
    refine .inr ⟨rfl, fun hplain => ?_⟩
    have := hn hplain
    omega

/-! ## Colour sequences -/

/-- A colour sequence begins at `pos` and ends with the `m` at `i`. -/
structure Escape (s : List Byte) (pos i : Nat) : Prop where
  start : s[pos]? = some 0x1B#8
  bracket : s[pos + 1]? = some 0x5B#8
  scanned : Scanned s (pos + 2) i
  ends : s[i]? = some 0x6D#8

theorem escape_spec {pos : Nat} (hs : 0#8 ∉ s) (hpos : pos < s.length) :
    (∃ i, escape s n pos = .ok (some i) ∧ Escape s pos i) ∨
      (escape s n pos = .ok none ∧ ∀ i, ¬ Escape s pos i) ∨
      (escape s n pos = .error .outOfTurns ∧ n ≤ s.length) := by
  obtain ⟨c, hc, hread⟩ := charAt_le (Nat.le_of_lt hpos)
  have hin : s[pos]? = some c := hread.resolve_right fun h => by omega
  by_cases hesc : c = 0x1B#8
  · obtain ⟨d, hd, hread'⟩ := charAt_le (show pos + 1 ≤ s.length from hpos)
    by_cases hbracket : d = 0x5B#8
    · have hin' : s[pos + 1]? = some d := hread'.resolve_right fun h => by
        rw [hbracket] at h
        exact absurd h.2 (by decide)
      have hlt := lt_of_getElem? hin'
      have hturn : escape s n pos = (do
          let i ← scanFinal s n (pos + 2)
          let c ← charAt s i
          .ok (if c = 0x6D#8 then some i else none)) := by
        rw [escape, hc]
        show (if c = 0x1B#8 then _ else _) = _
        rw [if_pos hesc, hd]
        exact if_pos hbracket
      rcases scanFinal_spec (n := n) hs (show pos + 2 ≤ s.length from hlt) with ⟨i, hi, hscan⟩ | ⟨hout, hn⟩
      · obtain ⟨e, he, hread''⟩ := charAt_le hscan.length
        have hfound : escape s n pos = .ok (if e = 0x6D#8 then some i else none) := by
          rw [hturn, hi]
          show (do let c ← charAt s i; .ok (if c = 0x6D#8 then some i else none)) = _
          rw [he]
          rfl
        rw [hfound]
        by_cases hm : e = 0x6D#8
        · have hend : s[i]? = some 0x6D#8 := by
            rw [← hm]
            refine hread''.resolve_right fun h => ?_
            rw [hm] at h
            exact absurd h.2 (by decide)
          rw [if_pos hm]
          exact .inl ⟨i, rfl, by rw [hin, hesc], by rw [hin', hbracket], hscan, hend⟩
        · rw [if_neg hm]
          refine .inr (.inl ⟨rfl, fun i' h => hm ?_⟩)
          have hii : i' = i := h.scanned.unique hscan
          have hends := h.ends
          rw [hii] at hends
          rw [charAt_some hends, Except.ok.injEq] at he
          exact he.symm
      · rw [hturn, hout]
        exact .inr (.inr ⟨rfl, by omega⟩)
    · have hnone : escape s n pos = .ok none := by
        rw [escape, hc]
        show (if c = 0x1B#8 then _ else _) = _
        rw [if_pos hesc, hd]
        exact if_neg hbracket
      refine .inr (.inl ⟨hnone, fun i h => hbracket ?_⟩)
      rw [charAt_some h.bracket, Except.ok.injEq] at hd
      exact hd.symm
  · have hnone : escape s n pos = .ok none := by
      rw [escape, hc]
      exact if_neg hesc
    refine .inr (.inl ⟨hnone, fun i h => hesc ?_⟩)
    rw [charAt_some h.start, Except.ok.injEq] at hc
    exact hc.symm

/-- The next sequence begins behind the `m`. -/
theorem Escape.next {pos p : Nat} (h : Escape s pos i) (h' : Escape s p j) (hp : pos < p) : i < p := by
  have hm : isFinal 0x6D#8 = true := by decide
  have hbracket : isFinal 0x5B#8 = true := by decide
  by_contra hle
  have hstart := h'.start
  have hnext := h'.bracket
  by_cases hp1 : p = pos + 1
  · rw [hp1, h.bracket] at hstart
    cases hstart
  · by_cases hpi : p = i
    · rw [hpi, h.ends] at hstart
      cases hstart
    · by_cases hpi1 : p + 1 = i
      · rw [hpi1, h.ends] at hnext
        cases hnext
      · obtain ⟨c, hc, hno⟩ := h.scanned.between (p + 1) (by omega) (by omega)
        rw [hnext, Option.some.injEq] at hc
        simp [← hc, hbracket] at hno

/-- From `pos` on, all parameters are digits and semicolons. -/
def AnsiFrom (s : List Byte) (pos : Nat) : Prop :=
  ∀ p i, pos ≤ p → Escape s p i → Between s (p + 2) i isParam

/-- `vga_puts` ends exactly when every colour sequence is plain, and then at the NUL. -/
theorem putsLoop_spec {m pos : Nat} {t : Vga} (hs : 0#8 ∉ s) (hpos : pos ≤ s.length) :
    (AnsiFrom s pos ∧ ∃ t', putsLoop s n m pos t = .ok (t', s.length)) ∨
      (putsLoop s n m pos t = .error .outOfTurns ∧
        (AnsiFrom s pos → n ≤ s.length ∨ m ≤ s.length - pos)) := by
  induction m generalizing pos t with
  | zero => exact .inr ⟨rfl, fun _ => .inr (Nat.zero_le _)⟩
  | succ m ih =>
    by_cases hend : pos = s.length
    · have hnul : charAt s pos = .ok 0#8 := by
        rw [charAt, hend, List.getElem?_eq_none (Nat.le_refl _)]
        exact if_pos rfl
      refine .inl ⟨fun p i hp h => ?_, t, ?_⟩
      · exact absurd (lt_of_getElem? h.start) (by omega)
      · rw [putsLoop, hnul, ← hend]
        rfl
    · have hlt : pos < s.length := by omega
      obtain ⟨c, hc, hread⟩ := charAt_le hpos
      have hin : s[pos]? = some c := hread.resolve_right fun h => hend h.1
      have hne : c ≠ 0#8 := by
        rintro rfl
        exact hs (List.mem_of_getElem? hin)
      have hturn : putsLoop s n (m + 1) pos t = (do
          match ← escape s n pos with
          | some i => do
            let t ← t.ansiApply s (pos + 2) i n
            putsLoop s n m (i + 1) t
          | none => putsLoop s n m (pos + 1) (t.vgaPutchar c)) := by
        rw [putsLoop, hc]
        exact if_neg hne
      rcases escape_spec (n := n) hs hlt with ⟨i, hi, hesc⟩ | ⟨hnone, hno⟩ | ⟨hout, hn⟩
      · have hfound : putsLoop s n (m + 1) pos t = (do
            let t ← t.ansiApply s (pos + 2) i n
            putsLoop s n m (i + 1) t) := by
          rw [hturn, hi]
          rfl
        have hile := hesc.scanned.le
        rcases ansiApply_spec (n := n) t hesc.ends hile with ⟨hplain, t', ht'⟩ | ⟨hout, hn⟩
        · have hrest : putsLoop s n (m + 1) pos t = putsLoop s n m (i + 1) t' := by
            rw [hfound, ht']
            rfl
          rw [hrest]
          rcases ih (t := t') (lt_of_getElem? hesc.ends) with ⟨hfrom, hr⟩ | ⟨hout, hn⟩
          · refine .inl ⟨fun p j hp h => ?_, hr⟩
            by_cases hpp : p = pos
            · subst hpp
              rw [h.scanned.unique hesc.scanned]
              exact hplain
            · exact hfrom p j (hesc.next h (by omega)) h
          · refine .inr ⟨hout, fun hall => ?_⟩
            have := hn fun p j hp h => hall p j (by omega) h
            omega
        · refine .inr ⟨?_, fun hall => .inl (hn (hall pos i (Nat.le_refl pos) hesc))⟩
          rw [hfound, hout]
          rfl
      · have hrest : putsLoop s n (m + 1) pos t = putsLoop s n m (pos + 1) (t.vgaPutchar c) := by
          rw [hturn, hnone]
          rfl
        rw [hrest]
        rcases ih (t := t.vgaPutchar c) hlt with ⟨hfrom, hr⟩ | ⟨hout, hn⟩
        · refine .inl ⟨fun p j hp h => ?_, hr⟩
          by_cases hpp : p = pos
          · subst hpp
            exact absurd h (hno j)
          · exact hfrom p j (by omega) h
        · refine .inr ⟨hout, fun hall => ?_⟩
          have := hn fun p j hp h => hall p j (by omega) h
          omega
      · refine .inr ⟨?_, fun _ => .inl hn⟩
        rw [hturn, hout]
        rfl

/-! ## Strings that end -/

/-- Between `ESC [` and the next byte in `@`..`~`, if that is an `m`, there are only digits
and semicolons. -/
def AnsiOk (s : List Byte) : Prop :=
  ∀ pre params post, s = pre ++ 0x1B#8 :: 0x5B#8 :: (params ++ 0x6D#8 :: post) →
    (∀ c ∈ params, isFinal c = false) → ∀ c ∈ params, isParam c = true

theorem Escape.split {pos : Nat} (h : Escape s pos i) :
    ∃ params post, s = s.take pos ++ 0x1B#8 :: 0x5B#8 :: (params ++ 0x6D#8 :: post) ∧
      params = (s.drop (pos + 2)).take (i - (pos + 2)) := by
  have hle := h.scanned.le
  have hsplit (k : Nat) (c : Byte) (hk : s[k]? = some c) : s.drop k = c :: s.drop (k + 1) := by
    obtain ⟨hlt, hget⟩ := List.getElem?_eq_some_iff.mp hk
    rw [List.drop_eq_getElem_cons hlt, hget]
  refine ⟨_, s.drop (i + 1), ?_, rfl⟩
  have hrest : s.drop (pos + 2) = (s.drop (pos + 2)).take (i - (pos + 2)) ++ 0x6D#8 :: s.drop (i + 1) := by
    rw [← hsplit i _ h.ends]
    have hdrop : s.drop i = (s.drop (pos + 2)).drop (i - (pos + 2)) := by
      rw [List.drop_drop]
      congr 1
      omega
    rw [hdrop, List.take_append_drop]
  rw [← hrest, ← hsplit (pos + 1) _ h.bracket, ← hsplit pos _ h.start, List.take_append_drop]

/-- The bytes between two places, by place and as a list. -/
theorem between_iff {p : Byte → Bool} (hj : j ≤ s.length) :
    Between s i j p ↔ ∀ c ∈ (s.drop i).take (j - i), p c = true := by
  constructor
  · intro h c hc
    obtain ⟨k, hk⟩ := List.mem_iff_getElem?.mp hc
    rw [List.getElem?_take] at hk
    split at hk
    · rw [List.getElem?_drop] at hk
      obtain ⟨d, hd, hp⟩ := h (i + k) (by omega) (by omega)
      rw [hd, Option.some.injEq] at hk
      rwa [← hk]
    · cases hk
  · intro h k hlo hhi
    have hlt : k < s.length := by omega
    refine ⟨s[k], List.getElem?_eq_getElem hlt, h _ ?_⟩
    rw [List.mem_iff_getElem?]
    refine ⟨k - i, ?_⟩
    rw [List.getElem?_take, if_pos (by omega), List.getElem?_drop, Nat.add_sub_cancel' hlo,
      List.getElem?_eq_getElem hlt]

theorem ansiFrom_iff : AnsiFrom s 0 ↔ AnsiOk s := by
  constructor
  · intro h pre params post hs hno
    have hat (k : Nat) : s[pre.length + 2 + k]? = (params ++ 0x6D#8 :: post)[k]? := by
      rw [hs, List.getElem?_append_right (by omega),
        show pre.length + 2 + k - pre.length = k + 2 by omega]
      rfl
    have hdrop : s.drop (pre.length + 2) = params ++ 0x6D#8 :: post := by
      apply List.ext_getElem?
      intro k
      rw [List.getElem?_drop, hat]
    have htake : (s.drop (pre.length + 2)).take
        (pre.length + 2 + params.length - (pre.length + 2)) = params := by
      rw [hdrop, Nat.add_sub_cancel_left, List.take_left]
    have hend : s[pre.length + 2 + params.length]? = some 0x6D#8 := by
      rw [hat, List.getElem?_append_right (Nat.le_refl _), Nat.sub_self]
      rfl
    have hlen := Nat.le_of_lt (lt_of_getElem? hend)
    have hscan : Scanned s (pre.length + 2) (pre.length + 2 + params.length) := by
      refine ⟨Nat.le_add_right _ _, hlen, ?_, fun c hc => ?_⟩
      · rw [between_iff hlen, htake]
        intro c hc
        rw [hno c hc]
        rfl
      · rw [hend, Option.some.injEq] at hc
        rw [← hc]
        decide
    have hesc : Escape s pre.length (pre.length + 2 + params.length) := by
      refine ⟨?_, ?_, hscan, hend⟩
      · rw [hs, List.getElem?_append_right (Nat.le_refl _), Nat.sub_self]
        rfl
      · rw [hs, List.getElem?_append_right (by omega), show pre.length + 1 - pre.length = 1 by omega]
        rfl
    have hplain := h _ _ (Nat.zero_le _) hesc
    rwa [between_iff hlen, htake] at hplain
  · intro h p i _ hesc
    obtain ⟨params, post, hs, hparams⟩ := hesc.split
    have hplain := h _ params post hs
    rw [between_iff hesc.scanned.length, ← hparams]
    apply hplain
    intro c hc
    have hbetween := (between_iff hesc.scanned.length).mp hesc.scanned.between
    rw [← hparams] at hbetween
    simpa using hbetween c hc

/-- A call of `vga_puts` returns at the NUL, or uses up its turns on a string that is not plain
or longer than that. -/
theorem vgaPuts_cases (t : Vga) (s : CStr) (n : Nat) :
    (AnsiOk s.bytes ∧ ∃ t', t.vgaPuts (some s) n = .ok (t', s.bytes.length)) ∨
      (t.vgaPuts (some s) n = .error .outOfTurns ∧ (AnsiOk s.bytes → n ≤ s.bytes.length)) := by
  rw [← ansiFrom_iff]
  rcases putsLoop_spec (n := n) (m := n) (t := t) s.no_nul (Nat.zero_le s.bytes.length) with hr | ⟨hout, hn⟩
  · exact .inl hr
  · refine .inr ⟨hout, fun hall => ?_⟩
    have := hn hall
    omega

/-- `vga_puts` ends at the NUL, whatever its loops are given beyond some number of turns, and
never reads behind it. -/
structure Consumes (t : Vga) (s : CStr) : Prop where
  ends : ∃ N, ∀ n, N ≤ n → ∃ t', t.vgaPuts (some s) n = .ok (t', s.bytes.length)
  reads : ∀ n, t.vgaPuts (some s) n ≠ .error .wildRead

theorem vgaPuts_consumes_iff (t : Vga) (s : CStr) : Consumes t s ↔ AnsiOk s.bytes := by
  constructor
  · intro h
    obtain ⟨N, hN⟩ := h.ends
    obtain ⟨t', ht'⟩ := hN N (Nat.le_refl N)
    rcases vgaPuts_cases t s N with ⟨hok, _⟩ | ⟨hout, _⟩
    · exact hok
    · rw [hout] at ht'
      cases ht'
  · intro hok
    constructor
    · refine ⟨s.bytes.length + 1, fun n hn => ?_⟩
      rcases vgaPuts_cases t s n with ⟨_, hr⟩ | ⟨_, hturns⟩
      · exact hr
      · have := hturns hok
        omega
    · intro n hread
      rcases vgaPuts_cases t s n with ⟨_, t', hr⟩ | ⟨hout, _⟩
      · rw [hr] at hread
        cases hread
      · rw [hout] at hread
        cases hread

/-- The number of turns that a string needs does not depend on the terminal. -/
theorem vgaPuts_isOk {t : Vga} (t' : Vga) {s : CStr} {n : Nat} (hn : s.bytes.length < n)
    (h : (t.vgaPuts (some s) n).isOk = true) : (t'.vgaPuts (some s) n).isOk = true := by
  have hok : AnsiOk s.bytes := by
    rcases vgaPuts_cases t s n with ⟨hok, _⟩ | ⟨hout, _⟩
    · exact hok
    · rw [hout] at h
      cases h
  rcases vgaPuts_cases t' s n with ⟨_, r, hr⟩ | ⟨_, hturns⟩
  · rw [hr]
    rfl
  · have := hturns hok
    omega

/-- A string without the escape byte is printed as it is. -/
theorem vgaPuts_chars (t : Vga) {s : CStr} {n : Nat} (hesc : 0x1B#8 ∉ s.bytes) (hn : s.bytes.length < n) :
    t.vgaPuts (some s) n = .ok (s.bytes.foldl vgaPutchar t, s.bytes.length) := by
  have hloop : ∀ m pos t, pos ≤ s.bytes.length → s.bytes.length - pos < m →
      putsLoop s.bytes n m pos t = .ok ((s.bytes.drop pos).foldl vgaPutchar t, s.bytes.length) := by
    intro m
    induction m with
    | zero => exact fun _ _ _ h => absurd h (Nat.not_lt_zero _)
    | succ m ih =>
      intro pos t hpos hm
      by_cases hend : pos = s.bytes.length
      · have hnul : charAt s.bytes pos = .ok 0#8 := by
          rw [charAt, hend, List.getElem?_eq_none (Nat.le_refl _)]
          exact if_pos rfl
        rw [putsLoop, hnul, hend, List.drop_length]
        rfl
      · have hlt : pos < s.bytes.length := by omega
        have hin : s.bytes[pos]? = some s.bytes[pos] := List.getElem?_eq_getElem hlt
        have hne : s.bytes[pos] ≠ 0#8 := by
          intro h
          rw [h] at hin
          exact s.no_nul (List.mem_of_getElem? hin)
        have hplain : escape s.bytes n pos = .ok none := by
          rw [escape, charAt_some hin]
          apply if_neg
          intro h
          rw [h] at hin
          exact hesc (List.mem_of_getElem? hin)
        have hturn : putsLoop s.bytes n (m + 1) pos t =
            putsLoop s.bytes n m (pos + 1) (t.vgaPutchar s.bytes[pos]) := by
          rw [putsLoop, charAt_some hin]
          show (if s.bytes[pos] = 0#8 then _ else _) = _
          rw [if_neg hne, hplain]
          rfl
        rw [hturn, ih _ _ hlt (by omega), List.drop_eq_getElem_cons hlt, List.foldl_cons]
  exact hloop n 0 t (Nat.zero_le _) hn

/-- The private-mode sequence `ESC [ ? m`. -/
def privateMode : CStr := ⟨[0x1B#8, 0x5B#8, 0x3F#8, 0x6D#8], by decide⟩

/-- `ansi_apply` makes turns at the question mark for ever. -/
theorem privateMode_hangs : ¬ ∀ t s, Consumes t s := by
  intro h
  obtain ⟨N, hN⟩ := (h (loaded fun _ _ => 0#16) privateMode).ends
  obtain ⟨t', ht'⟩ := hN N (Nat.le_refl N)
  rcases vgaPuts_cases (loaded fun _ _ => 0#16) privateMode N with ⟨hok, _⟩ | ⟨hout, _⟩
  · have hparam := hok [] [0x3F#8] [] rfl (by decide) 0x3F#8 (by decide)
    exact absurd hparam (by decide)
  · rw [hout] at ht'
    cases ht'

end Vga

end SengOS
