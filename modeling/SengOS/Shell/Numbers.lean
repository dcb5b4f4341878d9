import SengOS.Vga.Ansi

/-!
# Numbers in commands

`k_parse_uint` reads a run of digits in 32-bit arithmetic and never looks whether the number
still fits. `kill` and `colour` check the number that they get, which may be the one that was
typed modulo 2^32.
-/

namespace SengOS

/-! ## Parsing -/

/-- `k_ltrim`. -/
def kLtrim (s : List Byte) : List Byte := s.dropWhile (· == 0x20#8)

/-- The loop of `k_parse_uint`, with the place where it ends. -/
def parseDigits : List Byte → Word → Bool → Word × List Byte
  | [], value, haveDigit => (if haveDigit then value else -1#32, [])
  | c :: s, value, haveDigit =>
    if isDigit c then parseDigits s (value * 10#32 + (c.setWidth 32 - 0x30#32)) true
    else (if haveDigit then value else -1#32, c :: s)

/-- The result is an `int`. -/
def kParseUint (s : List Byte) : Word × List Byte := parseDigits s 0#32 false

/-- The process that `cmd_kill` kills, if it does not print how it is used. -/
def cmdKill (args : List Byte) : Option Word :=
  let (pid, p) := kParseUint (kLtrim args)
  let p := kLtrim p
  if pid.toInt ≤ 0 ∨ p ≠ [] then none else some pid

/-- The two colours that `cmd_colour` sets. -/
def cmdColour (args : List Byte) : Option (Word × Word) :=
  let (fg, p) := kParseUint (kLtrim args)
  let (bg, p) := kParseUint (kLtrim p)
  let p := kLtrim p
  if fg.toInt < 0 ∨ bg.toInt < 0 ∨ fg.toInt > 15 ∨ bg.toInt > 15 ∨ p ≠ [] then none else some (fg, bg)

/-! ## What was typed -/

/-- The digits at the start of a string. -/
def digitRun (s : List Byte) : List Byte := s.takeWhile isDigit

def afterRun (s : List Byte) : List Byte := s.dropWhile isDigit

/-- The number that a run of digits denotes. -/
def decimal (run : List Byte) : Nat := run.foldl (fun v c => v * 10 + (c.toNat - 0x30)) 0

/-- The numbers are read as they stand, and -1 stands for all others and for none. -/
structure ReadsNumber (s : List Byte) : Prop where
  minusOne : (kParseUint s).1.toInt = -1 ↔ digitRun s = [] ∨ 2 ^ 31 ≤ decimal (digitRun s)
  value : digitRun s ≠ [] → decimal (digitRun s) < 2 ^ 31 →
    (kParseUint s).1.toInt = decimal (digitRun s) ∧ (kParseUint s).2 = afterRun s

/-- `kill` kills no process but the one whose number was typed. -/
def KillsTyped (args : List Byte) : Prop :=
  ∀ pid, cmdKill args = some pid → pid.toNat = decimal (digitRun (kLtrim args))

/-- `colour` sets no colours but those whose numbers were typed. -/
def ColoursTyped (args : List Byte) : Prop :=
  ∀ fg bg, cmdColour args = some (fg, bg) → fg.toNat = decimal (digitRun (kLtrim args)) ∧
    bg.toNat = decimal (digitRun (kLtrim (afterRun (kLtrim args))))

/-! ## Where they differ -/

/-- No digits, a number that fits in an `int`, or one that wraps to -1. -/
def ReadsFit (s : List Byte) : Prop :=
  digitRun s = [] ∨ decimal (digitRun s) < 2 ^ 31 ∨ decimal (digitRun s) % 2 ^ 32 = 2 ^ 32 - 1

/-- A single number that does not fit and wraps to a positive one. -/
def KillWraps (args : List Byte) : Prop :=
  kLtrim (afterRun (kLtrim args)) = [] ∧ 2 ^ 31 ≤ decimal (digitRun (kLtrim args)) ∧
    0 < decimal (digitRun (kLtrim args)) % 2 ^ 32 ∧ decimal (digitRun (kLtrim args)) % 2 ^ 32 < 2 ^ 31

/-- Two numbers that wrap to colours, one of them too large. -/
def ColourWraps (args : List Byte) : Prop :=
  let p := kLtrim args
  let q := kLtrim (afterRun p)
  kLtrim (afterRun q) = [] ∧ digitRun p ≠ [] ∧ digitRun q ≠ [] ∧ decimal (digitRun p) % 2 ^ 32 ≤ 15 ∧
    decimal (digitRun q) % 2 ^ 32 ≤ 15 ∧ (2 ^ 32 ≤ decimal (digitRun p) ∨ 2 ^ 32 ≤ decimal (digitRun q))

theorem parseDigits_eq (s : List Byte) (v : Nat) (haveDigit : Bool) :
    parseDigits s (BitVec.ofNat 32 v) haveDigit =
      (if digitRun s = [] ∧ haveDigit = false then -1#32
        else BitVec.ofNat 32 ((digitRun s).foldl (fun v c => v * 10 + (c.toNat - 0x30)) v), afterRun s) := by
  induction s generalizing v haveDigit with
  | nil => cases haveDigit <;> rfl
  | cons c s ih =>
    rw [parseDigits]
    by_cases hdigit : isDigit c = true
    · have hstep : BitVec.ofNat 32 v * 10#32 + (c.setWidth 32 - 0x30#32) =
          BitVec.ofNat 32 (v * 10 + (c.toNat - 0x30)) := by
        have hrange : 0x30 ≤ c.toNat := by
          simp only [isDigit, Bool.and_eq_true, decide_eq_true_eq] at hdigit
          exact hdigit.1
        apply BitVec.eq_of_toNat_eq
        have hc := c.isLt
        simp only [BitVec.toNat_add, BitVec.toNat_mul, BitVec.toNat_sub, BitVec.toNat_ofNat,
          BitVec.toNat_setWidth]
        omega
      have hrun : digitRun (c :: s) = c :: digitRun s := List.takeWhile_cons_of_pos hdigit
      have hafter : afterRun (c :: s) = afterRun s := List.dropWhile_cons_of_pos hdigit
      rw [if_pos hdigit, hstep, ih, hrun, hafter, List.foldl_cons, if_neg nofun, if_neg nofun]
    · have hrun : digitRun (c :: s) = [] := List.takeWhile_cons_of_neg hdigit
      have hafter : afterRun (c :: s) = c :: s := List.dropWhile_cons_of_neg hdigit
      rw [if_neg hdigit, hrun, hafter]
      cases haveDigit <;> rfl

/-- The number is the one typed modulo 2^32. -/
theorem kParseUint_eq (s : List Byte) : kParseUint s =
    (if digitRun s = [] then -1#32 else BitVec.ofNat 32 (decimal (digitRun s)), afterRun s) := by
  rw [kParseUint, parseDigits_eq s 0 false]
  simp only [and_true, decimal]

theorem toInt_ofNat (v : Nat) : (BitVec.ofNat 32 v).toInt =
    if v % 2 ^ 32 < 2 ^ 31 then ((v % 2 ^ 32 : Nat) : Int) else ((v % 2 ^ 32 : Nat) : Int) - 2 ^ 32 := by
  rw [BitVec.toInt_eq_toNat_cond, BitVec.toNat_ofNat]
  split <;> split <;> omega

/-- What the caller of `k_parse_uint` sees of a number. -/
theorem kParseUint_toInt {s : List Byte} (h : digitRun s ≠ []) :
    (kParseUint s).1.toInt = if decimal (digitRun s) % 2 ^ 32 < 2 ^ 31 then
        ((decimal (digitRun s) % 2 ^ 32 : Nat) : Int)
      else ((decimal (digitRun s) % 2 ^ 32 : Nat) : Int) - 2 ^ 32 := by
  rw [kParseUint_eq, if_neg h]
  exact toInt_ofNat _

theorem kParseUint_toNat {s : List Byte} (h : digitRun s ≠ []) :
    (kParseUint s).1.toNat = decimal (digitRun s) % 2 ^ 32 := by
  rw [kParseUint_eq, if_neg h]
  exact BitVec.toNat_ofNat _ _

theorem kParseUint_none {s : List Byte} (h : digitRun s = []) : (kParseUint s).1.toInt = -1 := by
  rw [kParseUint_eq, if_pos h]
  show (-1#32).toInt = -1
  decide

theorem kParseUint_rest (s : List Byte) : (kParseUint s).2 = afterRun s := by
  rw [kParseUint_eq]

theorem readsNumber_iff (s : List Byte) : ReadsNumber s ↔ ReadsFit s := by
  by_cases hrun : digitRun s = []
  · have hminus := kParseUint_none hrun
    exact ⟨fun _ => .inl hrun, fun _ => ⟨⟨fun _ => .inl hrun, fun _ => hminus⟩, fun h => absurd hrun h⟩⟩
  · have hint := kParseUint_toInt hrun
    constructor
    · intro h
      by_contra hwrong
      rw [ReadsFit, not_or, not_or] at hwrong
      have hminus := h.minusOne.mpr (.inr (by omega))
      rw [hint] at hminus
      split at hminus <;> omega
    · intro h
      have hfit := h.resolve_left hrun
      refine ⟨⟨fun hminus => .inr ?_, fun hbig => ?_⟩, fun _ hlt => ⟨?_, kParseUint_rest s⟩⟩
      · rw [hint] at hminus
        split at hminus <;> omega
      · have hwide := hbig.resolve_left hrun
        rw [hint]
        split <;> omega
      · rw [hint]
        split <;> omega

/-! ## The two commands -/

theorem cmdKill_eq_some (args : List Byte) (pid : Word) : cmdKill args = some pid ↔
    (kParseUint (kLtrim args)).1 = pid ∧ 0 < pid.toInt ∧ kLtrim (afterRun (kLtrim args)) = [] := by
  rw [cmdKill, ← kParseUint_rest]
  dsimp only
  split
  · rename_i hbad
    constructor
    · exact nofun
    · rintro ⟨rfl, hpos, hend⟩
      exact absurd hbad (not_or.mpr ⟨by omega, not_not.mpr hend⟩)
  · rename_i hgood
    rw [not_or, not_not] at hgood
    rw [Option.some.injEq]
    constructor
    · rintro rfl
      exact ⟨rfl, by omega, hgood.2⟩
    · exact And.left

theorem killsTyped_iff (args : List Byte) : KillsTyped args ↔ ¬ KillWraps args := by
  constructor
  · rintro h ⟨hend, hbig, hpos, hlow⟩
    have hrun : digitRun (kLtrim args) ≠ [] := by
      intro hnone
      rw [hnone] at hbig
      exact absurd hbig (by decide)
    have hint := kParseUint_toInt hrun
    rw [if_pos hlow] at hint
    have hpid := h _ ((cmdKill_eq_some args _).mpr ⟨rfl, by omega, hend⟩)
    rw [kParseUint_toNat hrun] at hpid
    omega
  · intro h pid hkill
    obtain ⟨rfl, hpos, hend⟩ := (cmdKill_eq_some args pid).mp hkill
    have hrun : digitRun (kLtrim args) ≠ [] := by
      intro hnone
      rw [kParseUint_none hnone] at hpos
      exact absurd hpos (by decide)
    have hint := kParseUint_toInt hrun
    rw [kParseUint_toNat hrun]
    by_contra hne
    rw [hint] at hpos
    split at hpos
    · exact h ⟨hend, by omega, by omega, by assumption⟩
    · omega

theorem cmdColour_eq_some (args : List Byte) (fg bg : Word) : cmdColour args = some (fg, bg) ↔
    (kParseUint (kLtrim args)).1 = fg ∧ (kParseUint (kLtrim (afterRun (kLtrim args)))).1 = bg ∧
      (0 ≤ fg.toInt ∧ fg.toInt ≤ 15) ∧ (0 ≤ bg.toInt ∧ bg.toInt ≤ 15) ∧
      kLtrim (afterRun (kLtrim (afterRun (kLtrim args)))) = [] := by
  rw [cmdColour, ← kParseUint_rest, ← kParseUint_rest]
  dsimp only
  split
  · rename_i hbad
    constructor
    · exact nofun
    · rintro ⟨rfl, rfl, hfg, hbg, hend⟩
      simp only [hend, ne_eq, not_true, or_false] at hbad
      omega
  · rename_i hgood
    simp only [not_or, not_not] at hgood
    rw [Option.some.injEq, Prod.mk.injEq]
    constructor
    · rintro ⟨rfl, rfl⟩
      exact ⟨rfl, rfl, by omega, by omega, hgood.2.2.2.2⟩
    · exact fun h => ⟨h.1, h.2.1⟩

/-- A colour that passes the test is the number typed modulo 2^32. -/
theorem colour_of_range {s : List Byte} (hlo : 0 ≤ (kParseUint s).1.toInt)
    (hhi : (kParseUint s).1.toInt ≤ 15) :
    digitRun s ≠ [] ∧ (kParseUint s).1.toNat = decimal (digitRun s) % 2 ^ 32 ∧
      decimal (digitRun s) % 2 ^ 32 ≤ 15 := by
  have hrun : digitRun s ≠ [] := by
    intro hnone
    rw [kParseUint_none hnone] at hlo
    exact absurd hlo (by decide)
  have hint := kParseUint_toInt hrun
  refine ⟨hrun, kParseUint_toNat hrun, ?_⟩
  rw [hint] at hlo hhi
  split at hhi <;> omega

theorem coloursTyped_iff (args : List Byte) : ColoursTyped args ↔ ¬ ColourWraps args := by
  constructor
  · rintro h ⟨hend, hfg, hbg, hf, hb, hbig⟩
    have hfint := kParseUint_toInt hfg
    have hbint := kParseUint_toInt hbg
    rw [if_pos (by omega)] at hfint hbint
    obtain ⟨hftyped, hbtyped⟩ := h _ _ ((cmdColour_eq_some args _ _).mpr
      ⟨rfl, rfl, by omega, by omega, hend⟩)
    rw [kParseUint_toNat hfg] at hftyped
    rw [kParseUint_toNat hbg] at hbtyped
    omega
  · intro h fg bg hset
    obtain ⟨rfl, rfl, hf, hb, hend⟩ := (cmdColour_eq_some args fg bg).mp hset
    obtain ⟨hfrun, hfnat, hflow⟩ := colour_of_range hf.1 hf.2
    obtain ⟨hbrun, hbnat, hblow⟩ := colour_of_range hb.1 hb.2
    have hsmall : ¬ (2 ^ 32 ≤ decimal (digitRun (kLtrim args)) ∨
        2 ^ 32 ≤ decimal (digitRun (kLtrim (afterRun (kLtrim args))))) :=
      fun hbig => h ⟨hend, hfrun, hbrun, hflow, hblow, hbig⟩
    rw [hfnat, hbnat]
    omega

/-- Numbers are read and acted on as they were typed, but for those that wrap. -/
theorem numbers_iff (s : CStr) : (ReadsNumber s.bytes ↔ ReadsFit s.bytes) ∧
    (KillsTyped s.bytes ↔ ¬ KillWraps s.bytes) ∧ (ColoursTyped s.bytes ↔ ¬ ColourWraps s.bytes) :=
  ⟨readsNumber_iff s.bytes, killsTyped_iff s.bytes, coloursTyped_iff s.bytes⟩

/-- `4294967297`. -/
def oneAndBillions : List Byte :=
  [0x34#8, 0x32#8, 0x39#8, 0x34#8, 0x39#8, 0x36#8, 0x37#8, 0x32#8, 0x39#8, 0x37#8]

/-- It is read as 1, and kills process 1. -/
theorem oneAndBillions_misread : ¬ (∀ s : CStr, ReadsNumber s.bytes) ∧ cmdKill oneAndBillions = some 1#32 := by
  refine ⟨fun h => ?_, by decide⟩
  have hread := (h ⟨oneAndBillions, by decide⟩).minusOne.mpr (.inr (by decide))
  exact absurd hread (by decide)

end SengOS
