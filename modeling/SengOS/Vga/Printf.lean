import SengOS.Vga.Ansi
import Mathlib.Data.Nat.Digits.Defs

/-!
# Formatted printing

`vga_printf` takes a `%` and the byte behind it together, also when that byte is the NUL of
the format. What a format says is a text with the arguments in their places: characters, and
strings for `vga_puts`.
-/

namespace SengOS

/-- An argument, as `va_arg` finds it. -/
inductive Arg
  | str (s : Option CStr)
  | word (w : Word)

/-- Why `vga_printf` gives no result. -/
inductive PrintStop
  /-- A call of `vga_puts` gives none. -/
  | puts (stop : Stop)
  /-- It read behind the NUL of the format. -/
  | wildRead
  /-- The next argument is of another type, or missing. -/
  | wrongArg

namespace Vga

/-- The digits of `n` in the order in which they are stored to `buf`, which has `room` left. -/
def storeDigits (base : Word) : Nat → Word → List Byte
  | 0, _ => []
  | room + 1, n =>
    if n = 0#32 then []
    else
      let r := n % base
      (if r < 10#32 then 0x30#8 + r.setWidth 8 else 0x61#8 + r.setWidth 8 - 10#8) ::
        storeDigits base room (n / base)

def printUint (t : Vga) (n base : Word) : Vga :=
  if n = 0#32 then t.vgaPutchar 0x30#8
  else (storeDigits base 32 n).reverse.foldl vgaPutchar t

def nextStr : List Arg → Except PrintStop (Option CStr × List Arg)
  | .str s :: args => .ok (s, args)
  | _ => .error .wrongArg

def nextWord : List Arg → Except PrintStop (Word × List Arg)
  | .word w :: args => .ok (w, args)
  | _ => .error .wrongArg

/-- `vga_puts` with `n` turns for its loops. -/
def putsStr (n : Nat) (t : Vga) (s : Option CStr) : Except PrintStop Vga :=
  match t.vgaPuts s n with
  | .ok (t, _) => .ok t
  | .error e => .error (.puts e)

/-- The `switch` over the byte behind a `%`. -/
def directive (n : Nat) (d : Byte) (args : List Arg) (t : Vga) : Except PrintStop (Vga × List Arg) :=
  if d = 0x73#8 then do
    let (s, args) ← nextStr args
    let t ← putsStr n t s
    .ok (t, args)
  else if d = 0x63#8 then do
    let (w, args) ← nextWord args
    .ok (t.vgaPutchar (w.setWidth 8), args)
  else if d = 0x64#8 then do
    let (w, args) ← nextWord args
    let (t, value) := if w.toInt < 0 then (t.vgaPutchar 0x2D#8, -w) else (t, w)
    .ok (t.printUint value 10#32, args)
  else if d = 0x75#8 then do
    let (w, args) ← nextWord args
    .ok (t.printUint w 10#32, args)
  else if d = 0x78#8 then do
    let (w, args) ← nextWord args
    .ok (t.printUint w 16#32, args)
  else if d = 0x25#8 then .ok (t.vgaPutchar 0x25#8, args)
  else .ok (t.vgaPutchar d, args)

/-- The loop of `vga_printf` over what is left of the format. -/
def printfLoop (n : Nat) : List Byte → List Arg → Vga → Except PrintStop Vga
  | [], _, t => .ok t
  | c :: fmt, args, t =>
    if c ≠ 0x25#8 then printfLoop n fmt args (t.vgaPutchar c)
    else
      match fmt with
      -- the NUL is printed, and the test of the loop reads the byte behind it
      | [] => .error .wildRead
      | d :: fmt => do
        let (t, args) ← directive n d args t
        printfLoop n fmt args t

def vgaPrintf (t : Vga) (fmt : CStr) (args : List Arg) (n : Nat) : Except PrintStop Vga :=
  printfLoop n fmt.bytes args t

end Vga

/-! ## What a format says -/

inductive FormatPiece
  | char (c : Byte)
  | str (s : Option CStr)

def digitChar (d : Nat) : Byte := BitVec.ofNat 8 (if d < 10 then 0x30 + d else 0x57 + d)

/-- A number in a base, without leading zeros. -/
def numeral (base n : Nat) : List Byte :=
  if n = 0 then [0x30#8] else (Nat.digits base n).reverse.map digitChar

def signedNumeral (v : Int) : List Byte :=
  if v < 0 then 0x2D#8 :: numeral 10 v.natAbs else numeral 10 v.natAbs

/-- The text of a directive, and the arguments behind its own. -/
def directiveText (d : Byte) (args : List Arg) : Option (List FormatPiece × List Arg) :=
  if d = 0x73#8 then
    match args with
    | .str s :: args => some ([.str s], args)
    | _ => none
  else if d = 0x63#8 ∨ d = 0x64#8 ∨ d = 0x75#8 ∨ d = 0x78#8 then
    match args with
    | .word w :: args =>
      let text :=
        if d = 0x63#8 then [w.setWidth 8]
        else if d = 0x64#8 then signedNumeral w.toInt
        else if d = 0x75#8 then numeral 10 w.toNat
        else numeral 16 w.toNat
      some (text.map .char, args)
    | _ => none
  else some ([.char d], args)

/-- The format with the arguments in place of its directives, if they match. -/
def formatText : List Byte → List Arg → Option (List FormatPiece)
  | [], args => if args.isEmpty then some [] else none
  | c :: fmt, args =>
    if c ≠ 0x25#8 then (formatText fmt args).map (.char c :: ·)
    else
      match fmt with
      | [] => if args.isEmpty then some [] else none
      | d :: fmt =>
        match directiveText d args with
        | some (text, args) => (formatText fmt args).map (text ++ ·)
        | none => none

/-- How many `%` the format ends with. -/
def finalPercents (fmt : List Byte) : Nat := (fmt.reverse.takeWhile (· == 0x25#8)).length

namespace Vga

def emitPiece (n : Nat) (t : Vga) : FormatPiece → Except PrintStop Vga
  | .char c => .ok (t.vgaPutchar c)
  | .str s => putsStr n t s

/-! ## Numbers -/

theorem digit_eq {base : Word} (hlo : 2 ≤ base.toNat) (hhi : base.toNat ≤ 16) (n : Word) :
    (if n % base < 10#32 then 0x30#8 + (n % base).setWidth 8 else 0x61#8 + (n % base).setWidth 8 - 10#8) =
      digitChar (n.toNat % base.toNat) := by
  have hr : (n % base).toNat = n.toNat % base.toNat := BitVec.toNat_umod
  have hlt : n.toNat % base.toNat < base.toNat := Nat.mod_lt _ (by omega)
  apply BitVec.eq_of_toNat_eq
  rw [digitChar, BitVec.toNat_ofNat]
  by_cases hten : n.toNat % base.toNat < 10
  · have hless : n % base < 10#32 := by
      rw [BitVec.lt_def, hr]
      exact hten
    rw [if_pos hless, if_pos hten, BitVec.toNat_add, BitVec.toNat_setWidth, hr]
    simp only [BitVec.toNat_ofNat]
    omega
  · have hmore : ¬ n % base < 10#32 := by
      rw [BitVec.lt_def, hr]
      exact hten
    rw [if_neg hmore, if_neg hten, BitVec.toNat_sub, BitVec.toNat_add, BitVec.toNat_setWidth, hr]
    simp only [BitVec.toNat_ofNat]
    omega

/-- The loop stores all digits as long as `buf` has room for them. -/
theorem storeDigits_eq {base : Word} (hlo : 2 ≤ base.toNat) (hhi : base.toNat ≤ 16) {room : Nat} {n : Word}
    (hroom : n.toNat < base.toNat ^ room) :
    storeDigits base room n = (Nat.digits base.toNat n.toNat).map digitChar := by
  induction room generalizing n with
  | zero =>
    rw [Nat.pow_zero, Nat.lt_one_iff] at hroom
    rw [hroom, Nat.digits_zero]
    rfl
  | succ room ih =>
    rw [storeDigits]
    by_cases hzero : n = 0#32
    · rw [if_pos hzero, hzero]
      simp
    · have hpos : n.toNat ≠ 0 := fun h => hzero (BitVec.eq_of_toNat_eq h)
      have hdiv : (n / base).toNat = n.toNat / base.toNat := BitVec.toNat_udiv
      have hrest : (n / base).toNat < base.toNat ^ room := by
        rw [hdiv]
        exact Nat.div_lt_of_lt_mul (by rwa [← Nat.pow_succ'])
      rw [if_neg hzero, Nat.digits_eq_cons_digits_div (by omega) hpos, List.map_cons, ← hdiv, ← ih hrest]
      dsimp only
      rw [digit_eq hlo hhi]

theorem printUint_eq (t : Vga) {base : Word} (hlo : 2 ≤ base.toNat) (hhi : base.toNat ≤ 16) (n : Word) :
    t.printUint n base = (numeral base.toNat n.toNat).foldl vgaPutchar t := by
  rw [printUint, numeral]
  by_cases hzero : n = 0#32
  · rw [if_pos hzero, if_pos (by rw [hzero]; rfl)]
    rfl
  · have hpos : n.toNat ≠ 0 := fun h => hzero (BitVec.eq_of_toNat_eq h)
    have hroom : n.toNat < base.toNat ^ 32 :=
      Nat.lt_of_lt_of_le n.isLt (Nat.pow_le_pow_left hlo 32)
    rw [if_neg hzero, if_neg hpos, storeDigits_eq hlo hhi hroom, List.map_reverse]

/-- The sign, and the magnitude as an unsigned number: also right for the most negative one. -/
theorem printSigned_eq (t : Vga) (w : Word) :
    (if w.toInt < 0 then (t.vgaPutchar 0x2D#8, -w) else (t, w)).1.printUint
        (if w.toInt < 0 then (t.vgaPutchar 0x2D#8, -w) else (t, w)).2 10#32 =
      (signedNumeral w.toInt).foldl vgaPutchar t := by
  have hw := w.isLt
  have hint := BitVec.toInt_eq_toNat_cond w
  rw [signedNumeral]
  by_cases hneg : w.toInt < 0
  · have hmag : (-w).toNat = w.toInt.natAbs := by
      rw [BitVec.toNat_neg]
      rw [hint] at hneg ⊢
      split at hneg
      · omega
      · rename_i hhigh
        rw [if_neg hhigh]
        omega
    rw [if_pos hneg, if_pos hneg, printUint_eq _ (by decide) (by decide), hmag]
    rfl
  · have hmag : w.toNat = w.toInt.natAbs := by
      rw [hint] at hneg ⊢
      split at hneg
      · rename_i hlow
        rw [if_pos hlow]
        omega
      · omega
    rw [if_neg hneg, if_neg hneg, printUint_eq _ (by decide) (by decide), hmag]
    rfl

/-! ## Formats -/

theorem emit_chars (n : Nat) (t : Vga) (text : List Byte) :
    (text.map FormatPiece.char).foldlM (emitPiece n) t = .ok (text.foldl vgaPutchar t) := by
  induction text generalizing t with
  | nil => rfl
  | cons c text ih => exact ih (t.vgaPutchar c)

/-- A directive prints its text. -/
theorem directive_eq {n : Nat} {d : Byte} {args rest : List Arg} {text : List FormatPiece} (t : Vga)
    (h : directiveText d args = some (text, rest)) :
    directive n d args t = (do
      let t ← text.foldlM (emitPiece n) t
      .ok (t, rest)) := by
  unfold directiveText at h
  by_cases hs : d = 0x73#8
  · rw [if_pos hs] at h
    cases args with
    | nil => cases h
    | cons a args =>
      cases a with
      | word w => cases h
      | str s =>
        cases h
        rw [directive, if_pos hs]
        show (do let t ← putsStr n t s; _) = (do let t ← (do let t ← putsStr n t s; _); _)
        cases putsStr n t s <;> rfl
  · rw [if_neg hs] at h
    by_cases hword : d = 0x63#8 ∨ d = 0x64#8 ∨ d = 0x75#8 ∨ d = 0x78#8
    · rw [if_pos hword] at h
      cases args with
      | nil => cases h
      | cons a args =>
        cases a with
        | str s => cases h
        | word w =>
          cases h
          rw [directive, if_neg hs, emit_chars]
          rcases hword with rfl | rfl | rfl | rfl
          · rfl
          · exact congrArg (fun t => Except.ok (t, rest)) (printSigned_eq t w)
          · exact congrArg (fun t => Except.ok (t, rest)) (printUint_eq t (by decide) (by decide) w)
          · exact congrArg (fun t => Except.ok (t, rest)) (printUint_eq t (by decide) (by decide) w)
    · rw [if_neg hword] at h
      simp only [not_or] at hword
      obtain ⟨hc, hd, hu, hx⟩ := hword
      cases h
      rw [directive, if_neg hs, if_neg hc, if_neg hd, if_neg hu, if_neg hx]
      split
      · rename_i hpercent
        rw [hpercent]
        rfl
      · rfl

/-- The last byte of the format is a `%` of its own. -/
def dangling : List Byte → Bool
  | [] => false
  | c :: fmt =>
    if c ≠ 0x25#8 then dangling fmt
    else
      match fmt with
      | [] => true
      | _ :: fmt => dangling fmt

theorem printfLoop_char {c : Byte} (hc : c ≠ 0x25#8) (n : Nat) (fmt : List Byte) (args : List Arg)
    (t : Vga) : printfLoop n (c :: fmt) args t = printfLoop n fmt args (t.vgaPutchar c) := by
  rw [printfLoop.eq_def]
  exact if_pos hc

theorem dangling_char {c : Byte} (hc : c ≠ 0x25#8) (fmt : List Byte) : dangling (c :: fmt) = dangling fmt := by
  rw [dangling.eq_def]
  exact if_pos hc

/-- The pieces are printed in order, and behind them a `%` with no byte of its own is a read behind
the NUL. -/
theorem printfLoop_eq {n : Nat} {fmt : List Byte} {args : List Arg} {pieces : List FormatPiece} (t : Vga)
    (h : formatText fmt args = some pieces) :
    printfLoop n fmt args t = (do
      let t ← pieces.foldlM (emitPiece n) t
      if dangling fmt then .error .wildRead else .ok t) := by
  induction fmt, args using formatText.induct generalizing pieces t with
  | case1 args hnone =>
    unfold formatText at h
    rw [if_pos hnone] at h
    cases h
    rfl
  | case2 args hsome =>
    unfold formatText at h
    rw [if_neg hsome] at h
    cases h
  | case3 c fmt args hc ih =>
    unfold formatText at h
    rw [if_pos hc] at h
    obtain ⟨rest, hrest, rfl⟩ := Option.map_eq_some_iff.mp h
    rw [printfLoop_char hc, dangling_char hc, ih _ hrest]
    rfl
  | case4 c args hc hnone =>
    unfold formatText at h
    dsimp only at h
    rw [if_neg hc, if_pos hnone] at h
    cases h
    obtain rfl : c = 0x25#8 := not_not.mp hc
    rfl
  | case5 c args hc hsome =>
    unfold formatText at h
    dsimp only at h
    rw [if_neg hc, if_neg hsome] at h
    cases h
  | case6 args c hc d fmt text rest htext ih =>
    unfold formatText at h
    rw [if_neg hc] at h
    dsimp only at h
    rw [htext] at h
    obtain ⟨more, hmore, rfl⟩ := Option.map_eq_some_iff.mp h
    rw [printfLoop, dangling, if_neg hc, if_neg hc]
    dsimp only
    rw [directive_eq t htext, List.foldlM_append]
    cases text.foldlM (emitPiece n) t with
    | error e => rfl
    | ok t => exact ih t hmore
  | case7 args c hc d fmt htext =>
    unfold formatText at h
    rw [if_neg hc] at h
    dsimp only at h
    rw [htext] at h
    cases h

/-! ## The condition -/

theorem finalPercents_le (fmt : List Byte) : finalPercents fmt ≤ fmt.length := by
  have hle := (List.takeWhile_sublist (l := fmt.reverse) (· == 0x25#8)).length_le
  rwa [List.length_reverse] at hle

theorem finalPercents_cons (c : Byte) (fmt : List Byte) : finalPercents (c :: fmt) =
    if c = 0x25#8 ∧ finalPercents fmt = fmt.length then fmt.length + 1 else finalPercents fmt := by
  rw [finalPercents, List.reverse_cons, List.takeWhile_append, List.length_reverse, ← finalPercents]
  by_cases hall : finalPercents fmt = fmt.length
  · rw [if_pos hall, List.length_append, List.length_reverse]
    by_cases hc : c = 0x25#8
    · rw [if_pos ⟨hc, hall⟩, hc]
      rfl
    · rw [if_neg fun h => hc h.1, List.takeWhile_cons_of_neg (by simpa using hc), hall]
      rfl
  · rw [if_neg hall, if_neg fun h => hall h.2]
    rfl

/-- From the front the bytes behind a `%` are taken in pairs, so the last `%` is left over exactly
when their number at the end is odd. -/
theorem dangling_iff (fmt : List Byte) : dangling fmt = true ↔ finalPercents fmt % 2 = 1 := by
  induction fmt using dangling.induct with
  | case1 => decide
  | case2 c fmt hc ih =>
    rw [dangling_char hc, ih, finalPercents_cons, if_neg fun h => hc h.1]
  | case3 c hc =>
    obtain rfl : c = 0x25#8 := not_not.mp hc
    decide
  | case4 c hc d fmt ih =>
    obtain rfl : c = 0x25#8 := not_not.mp hc
    have hle := finalPercents_le fmt
    rw [dangling, if_neg hc, ih, finalPercents_cons, finalPercents_cons, List.length_cons]
    by_cases hall : d = 0x25#8 ∧ finalPercents fmt = fmt.length
    · rw [if_pos hall, if_pos ⟨rfl, rfl⟩, hall.2]
      omega
    · rw [if_neg hall, if_neg (by omega)]

theorem dangling_false (fmt : List Byte) : dangling fmt = false ↔ finalPercents fmt % 2 = 0 := by
  rw [← Bool.not_eq_true, dangling_iff]
  omega

theorem putsStr_ok {n : Nat} {t t' : Vga} {s : CStr} (h : putsStr n t (some s) = .ok t') :
    AnsiOk s.bytes := by
  rcases vgaPuts_cases t s n with ⟨hok, _⟩ | ⟨hout, _⟩
  · exact hok
  · rw [putsStr, hout] at h
    cases h

/-- The pieces that are plain strings can be printed. -/
theorem emitPieces_ok {n : Nat} {pieces : List FormatPiece} (t : Vga)
    (h : ∀ s, FormatPiece.str (some s) ∈ pieces → AnsiOk s.bytes ∧ s.bytes.length < n) :
    ∃ t', pieces.foldlM (emitPiece n) t = .ok t' := by
  induction pieces generalizing t with
  | nil => exact ⟨t, rfl⟩
  | cons p pieces ih =>
    have hrest := fun t => ih t fun s hs => h s (List.mem_cons_of_mem p hs)
    cases p with
    | char c => exact hrest (t.vgaPutchar c)
    | str s =>
      cases s with
      | none => exact hrest t
      | some s =>
        obtain ⟨hok, hn⟩ := h s List.mem_cons_self
        rcases vgaPuts_cases t s n with ⟨_, t', hr⟩ | ⟨_, hturns⟩
        · have hputs : emitPiece n t (.str (some s)) = .ok t' := by
            rw [emitPiece, putsStr, hr]
          rw [List.foldlM_cons, hputs]
          exact hrest t'
        · have := hturns hok
          omega

theorem longest_piece (pieces : List FormatPiece) :
    ∃ N, ∀ s, FormatPiece.str (some s) ∈ pieces → s.bytes.length < N := by
  induction pieces with
  | nil => exact ⟨0, fun s hs => nomatch hs⟩
  | cons p pieces ih =>
    obtain ⟨N, hN⟩ := ih
    cases p with
    | char c =>
      refine ⟨N, fun s hs => hN s ?_⟩
      exact (List.mem_cons.mp hs).resolve_left nofun
    | str s =>
      refine ⟨max N ((s.map fun s => s.bytes.length).getD 0 + 1), fun s' hs => ?_⟩
      rcases List.mem_cons.mp hs with heq | hs
      · cases heq
        exact Nat.lt_of_lt_of_le (Nat.lt_succ_self _) (Nat.le_max_right _ _)
      · exact Nat.lt_of_lt_of_le (hN s' hs) (Nat.le_max_left _ _)

theorem emitPieces_strings {n : Nat} {pieces : List FormatPiece} {t t' : Vga}
    (h : pieces.foldlM (emitPiece n) t = .ok t') {s : CStr} (hs : FormatPiece.str (some s) ∈ pieces) :
    AnsiOk s.bytes := by
  induction pieces generalizing t with
  | nil => cases hs
  | cons p pieces ih =>
    rw [List.foldlM_cons] at h
    cases hp : emitPiece n t p with
    | error e =>
      rw [hp] at h
      cases h
    | ok u =>
      rw [hp] at h
      rcases List.mem_cons.mp hs with rfl | hs
      · exact putsStr_ok hp
      · exact ih h hs

/-- No piece reads behind the format. -/
theorem emitPieces_reads {n : Nat} {pieces : List FormatPiece} (t : Vga) :
    pieces.foldlM (emitPiece n) t ≠ .error .wildRead := by
  induction pieces generalizing t with
  | nil => exact nofun
  | cons p pieces ih =>
    rw [List.foldlM_cons]
    cases hp : emitPiece n t p with
    | ok u => exact ih u
    | error e =>
      intro heq
      obtain rfl : e = .wildRead := Except.error.inj heq
      cases p with
      | char c => cases hp
      | str s =>
        rw [emitPiece, putsStr] at hp
        split at hp <;> cases hp

/-- The format is printed with the arguments in their places, and nothing behind its NUL is read.
Each loop of `vga_puts` is given `n` turns. -/
structure Prints (t : Vga) (fmt : CStr) (args : List Arg) (pieces : List FormatPiece) : Prop where
  ends : ∃ N, ∀ n, N ≤ n → ∃ t', t.vgaPrintf fmt args n = .ok t' ∧
    pieces.foldlM (emitPiece n) t = .ok t'
  reads : ∀ n, t.vgaPrintf fmt args n ≠ .error .wildRead

/-- Formats with an even number of `%` at their end are printed, on strings that `vga_puts` can
print, and no others. -/
theorem vgaPrintf_prints_iff (t : Vga) {fmt : CStr} {args : List Arg} {pieces : List FormatPiece}
    (h : formatText fmt.bytes args = some pieces) : Prints t fmt args pieces ↔
      finalPercents fmt.bytes % 2 = 0 ∧ ∀ s, FormatPiece.str (some s) ∈ pieces → AnsiOk s.bytes := by
  have hloop (n : Nat) := printfLoop_eq (n := n) t h
  rw [← dangling_false]
  constructor
  · intro hp
    obtain ⟨N, hN⟩ := hp.ends
    obtain ⟨t', hok, hpieces⟩ := hN N (Nat.le_refl N)
    refine ⟨?_, fun s hs => emitPieces_strings hpieces hs⟩
    rw [vgaPrintf, hloop, hpieces] at hok
    cases hd : dangling fmt.bytes with
    | false => rfl
    | true =>
      rw [hd] at hok
      cases hok
  · rintro ⟨hd, hstrings⟩
    have hrun (n : Nat) : t.vgaPrintf fmt args n = pieces.foldlM (emitPiece n) t := by
      rw [vgaPrintf, hloop, hd]
      cases pieces.foldlM (emitPiece n) t <;> rfl
    constructor
    · obtain ⟨N, hN⟩ := longest_piece pieces
      refine ⟨N, fun n hn => ?_⟩
      obtain ⟨t', ht'⟩ := emitPieces_ok t fun s hs =>
        ⟨hstrings s hs, Nat.lt_of_lt_of_le (hN s hs) hn⟩
      exact ⟨t', (hrun n).trans ht', ht'⟩
    · intro n
      rw [hrun]
      exact emitPieces_reads t

/-- `%d%%`. -/
def percentage : CStr := ⟨[0x25#8, 0x64#8, 0x25#8, 0x25#8], by decide⟩

/-- The most negative number, and a percent sign. -/
theorem percentage_printed : Prints (loaded fun _ _ => 0#16) percentage [.word 0x80000000#32]
    ([0x2D#8, 0x32#8, 0x31#8, 0x34#8, 0x37#8, 0x34#8, 0x38#8, 0x33#8, 0x36#8, 0x34#8, 0x38#8].map .char ++
      [.char 0x25#8]) := by
  refine (vgaPrintf_prints_iff _ (by rfl)).mpr ⟨by decide, fun s hs => ?_⟩
  simp at hs

/-- `100%`. -/
def hundredPercent : CStr := ⟨[0x31#8, 0x30#8, 0x30#8, 0x25#8], by decide⟩

/-- The `%` takes the NUL, and the loop goes on behind it. -/
theorem hundredPercent_overruns : ¬ ∀ t fmt args pieces, formatText fmt.bytes args = some pieces →
    Prints t fmt args pieces := by
  intro h
  have hp := h (loaded fun _ _ => 0#16) hundredPercent [] [.char 0x31#8, .char 0x30#8, .char 0x30#8] rfl
  exact hp.reads 0 rfl

end Vga

end SengOS
