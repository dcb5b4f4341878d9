import SengOS.Keyboard.Keyboard
import Mathlib.Data.List.Induction

/-!
# Modifier keys

Which keys are down follows from the codes they have sent. The driver has one flag for the
two keys of each kind and clears it when either is released, and Alt and AltGr write to
each other's flag. The flags mirror the keys as long as the two keys of a kind do not
overlap in a way that one of these stores is wrong.
-/

namespace SengOS

/-- A key and the prefix that its codes have. No key has number 0x60: its break code would
be the prefix. -/
structure Key where
  ext : Bool
  number : BitVec 7
  real : number ≠ 0x60#7
  deriving DecidableEq

/-- A make code, or with `up` a break code. -/
structure Code where
  key : Key
  up : Bool
  deriving DecidableEq

namespace Key

@[simp] def leftShift : Key := ⟨false, 0x2A#7, by decide⟩
@[simp] def rightShift : Key := ⟨false, 0x36#7, by decide⟩
@[simp] def leftCtrl : Key := ⟨false, 0x1D#7, by decide⟩
@[simp] def rightCtrl : Key := ⟨true, 0x1D#7, by decide⟩
@[simp] def alt : Key := ⟨false, 0x38#7, by decide⟩
@[simp] def altgr : Key := ⟨true, 0x38#7, by decide⟩
@[simp] def capsLock : Key := ⟨false, 0x3A#7, by decide⟩

end Key

namespace Code

/-- The last byte of a code. -/
def byte (c : Code) : Byte := c.key.number.setWidth 8 ||| if c.up then 0x80#8 else 0#8

def bytes (c : Code) : List Byte := if c.key.ext then [0xE0#8, c.byte] else [c.byte]

end Code

/-! ## The keys -/

/-- The key is down after these codes. -/
def Down (key : Key) (codes : List Code) : Prop :=
  codes.foldl (fun down c => if c.key = key then !c.up else down) false = true

instance (key : Key) (codes : List Code) : Decidable (Down key codes) :=
  inferInstanceAs (Decidable (_ = _))

/-- How often the key was pressed. -/
def presses (key : Key) (codes : List Code) : Nat := codes.count ⟨key, false⟩

theorem down_append (key : Key) (codes : List Code) (c : Code) :
    Down key (codes ++ [c]) ↔ if c.key = key then c.up = false else Down key codes := by
  rw [Down, List.foldl_append, List.foldl_cons, List.foldl_nil]
  split
  · cases c.up <;> simp
  · rfl

namespace Keyboard

variable {k : Keyboard}

/-- The driver after the bytes, whatever characters it returned on the way. -/
def scans (k : Keyboard) (bytes : List Byte) : Keyboard := bytes.foldl (fun k sc => (k.scan sc).1) k

/-- A call of `kb_getchar` scans some of the bytes, and all of them unless it returns. -/
theorem kbGetchar_scans (k : Keyboard) (input : List Byte) : ∃ used,
    input = used ++ (k.kbGetchar input).2.1 ∧ (k.kbGetchar input).1 = k.scans used ∧
      ((k.kbGetchar input).2.2 = none → (k.kbGetchar input).2.1 = []) ∧
      ((k.kbGetchar input).2.2 ≠ none → used ≠ []) := by
  induction input generalizing k with
  | nil => exact ⟨[], rfl, rfl, fun _ => rfl, fun h => absurd rfl h⟩
  | cons sc input ih =>
    rw [kbGetchar]
    cases hscan : k.scan sc with
    | mk k' c =>
      have hk' : (k.scan sc).1 = k' := by rw [hscan]
      cases c with
      | some c =>
        refine ⟨[sc], rfl, ?_, nofun, fun _ => nofun⟩
        exact hk'.symm
      | none =>
        obtain ⟨used, hsplit, hscans, hnone, _⟩ := ih k'
        refine ⟨sc :: used, congrArg (sc :: ·) hsplit, ?_, hnone, fun _ => nofun⟩
        rw [scans, List.foldl_cons, hk']
        exact hscans

/-- Calls of `kb_getchar` until the bytes run out, at most `n` of them. -/
def getchars : Nat → Keyboard → List Byte → Keyboard
  | 0, k, _ => k
  | n + 1, k, input =>
    match k.kbGetchar input with
    | (k, rest, some _) => getchars n k rest
    | (k, _, none) => k

theorem getchars_eq_scans {n : Nat} {input : List Byte} (hn : input.length < n) :
    getchars n k input = k.scans input := by
  induction n generalizing k input with
  | zero => cases hn
  | succ n ih =>
    obtain ⟨used, hsplit, hscans, hnone, hsome⟩ := kbGetchar_scans k input
    rw [getchars]
    cases hcall : k.kbGetchar input with
    | mk k' result =>
      obtain ⟨rest, c⟩ := result
      rw [hcall] at hsplit hscans hnone hsome
      dsimp only at hsplit hscans hnone hsome ⊢
      subst hsplit hscans
      cases c with
      | none =>
        dsimp only
        rw [hnone rfl, List.append_nil]
      | some c =>
        have hpos : 0 < used.length := List.length_pos_iff.mpr (hsome nofun)
        rw [List.length_append] at hn
        dsimp only
        rw [ih (by omega), scans, scans, scans, List.foldl_append]

/-! ## One code -/

/-- What a code does to the flags. -/
structure Follows (k : Keyboard) (c : Code) (k' : Keyboard) : Prop where
  shift : k'.shiftHeld = if c.key = .leftShift ∨ c.key = .rightShift then !c.up else k.shiftHeld
  ctrl : k'.ctrlHeld = if c.key = .leftCtrl ∨ c.key = .rightCtrl then !c.up else k.ctrlHeld
  altgr : k'.altgrHeld =
    if c.key = .altgr then !c.up else if c.key = .alt ∧ c.up = false then false else k.altgrHeld
  alt : k'.altHeld = if c.key = .alt ∨ c.key = .altgr then !c.up else k.altHeld
  caps : k'.capsLock = if c = ⟨.capsLock, false⟩ then !k.capsLock else k.capsLock
  extendedCode : k'.extendedCode = false

/-- The byte gives the number of the key and the kind of code back. -/
theorem byte_parts (number : BitVec 7) (real : number ≠ 0x60#7) :
    number.setWidth 8 ≠ 0xE0#8 ∧ number.setWidth 8 &&& 0x80#8 = 0#8 ∧
      number.setWidth 8 ||| 0x80#8 ≠ 0xE0#8 ∧ (number.setWidth 8 ||| 0x80#8) &&& 0x80#8 ≠ 0#8 ∧
      (number.setWidth 8 ||| 0x80#8) &&& 0x7F#8 = number.setWidth 8 := by
  decide +revert

theorem number_eq (number m : BitVec 7) : number.setWidth 8 = m.setWidth 8 ↔ number = m := by
  constructor
  · intro heq
    apply BitVec.eq_of_toNat_eq
    have hnat := congrArg BitVec.toNat heq
    simp only [BitVec.toNat_setWidth] at hnat
    omega
  · exact congrArg _

section
variable {number : BitVec 7}

/-- The bytes that the driver looks for, as numbers of keys. -/
theorem byte_eq_iff (number : BitVec 7) : (number.setWidth 8 = 0x2A#8 ↔ number = 0x2A#7) ∧
    (number.setWidth 8 = 0x36#8 ↔ number = 0x36#7) ∧ (number.setWidth 8 = 0x1D#8 ↔ number = 0x1D#7) ∧
    (number.setWidth 8 = 0x38#8 ↔ number = 0x38#7) ∧ (number.setWidth 8 = 0x3A#8 ↔ number = 0x3A#7) :=
  ⟨number_eq number 0x2A#7, number_eq number 0x36#7, number_eq number 0x1D#7, number_eq number 0x38#7,
    number_eq number 0x3A#7⟩

theorem scan_press (hext : k.extendedCode = false) (real : number ≠ 0x60#7) :
    (k.scan (number.setWidth 8)).1 =
      if number = 0x2A#7 ∨ number = 0x36#7 then { k with shiftHeld := true }
      else if number = 0x1D#7 then { k with ctrlHeld := true }
      else if number = 0x38#7 then { k with altHeld := true, altgrHeld := false }
      else if number = 0x3A#7 then { k with capsLock := !k.capsLock }
      else k := by
  obtain ⟨hnot, hlow, _⟩ := byte_parts number real
  obtain ⟨h2A, h36, h1D, h38, h3A⟩ := byte_eq_iff number
  have hplain : ¬ k.extendedCode = true := by
    rw [hext]
    decide
  rw [scan, if_neg hnot, if_neg hplain, if_neg (not_not.mpr hlow)]
  simp only [h2A, h36, h1D, h38, h3A]
  split_ifs <;> rfl

theorem scan_release (hext : k.extendedCode = false) (real : number ≠ 0x60#7) :
    (k.scan (number.setWidth 8 ||| 0x80#8)).1 =
      if number = 0x2A#7 ∨ number = 0x36#7 then { k with shiftHeld := false }
      else if number = 0x1D#7 then { k with ctrlHeld := false }
      else if number = 0x38#7 then { k with altHeld := false }
      else k := by
  obtain ⟨_, _, hnot, hhigh, hlow⟩ := byte_parts number real
  obtain ⟨h2A, h36, h1D, h38, _⟩ := byte_eq_iff number
  have hplain : ¬ k.extendedCode = true := by
    rw [hext]
    decide
  rw [scan, if_neg hnot, if_neg hplain, if_pos hhigh, hlow]
  simp only [handleRelease, h2A, h36, h1D, h38]

theorem scan_extended_press (real : number ≠ 0x60#7) :
    (k.scans [0xE0#8, number.setWidth 8]) =
      if number = 0x1D#7 then { k with extendedCode := false, ctrlHeld := true }
      else if number = 0x38#7 then { k with extendedCode := false, altgrHeld := true, altHeld := true }
      else { k with extendedCode := false } := by
  obtain ⟨hnot, hlow, _⟩ := byte_parts number real
  obtain ⟨_, _, h1D, h38, _⟩ := byte_eq_iff number
  show (({ k with extendedCode := true } : Keyboard).scan (number.setWidth 8)).1 = _
  rw [scan, if_neg hnot, if_pos rfl, if_neg (not_not.mpr hlow)]
  simp only [handleExtendedPress, h1D, h38]
  split_ifs <;> rfl

theorem scan_extended_release (real : number ≠ 0x60#7) :
    (k.scans [0xE0#8, number.setWidth 8 ||| 0x80#8]) =
      if number = 0x1D#7 then { k with extendedCode := false, ctrlHeld := false }
      else if number = 0x38#7 then { k with extendedCode := false, altgrHeld := false, altHeld := false }
      else { k with extendedCode := false } := by
  obtain ⟨_, _, hnot, hhigh, hlow⟩ := byte_parts number real
  obtain ⟨_, _, h1D, h38, _⟩ := byte_eq_iff number
  show (({ k with extendedCode := true } : Keyboard).scan (number.setWidth 8 ||| 0x80#8)).1 = _
  rw [scan, if_neg hnot, if_pos rfl, if_pos hhigh, hlow]
  simp only [handleExtendedRelease, h1D, h38]
  by_cases hctrl : number = 0x1D#7
  · have halt : number ≠ 0x38#7 := by
      rw [hctrl]
      decide
    rw [if_neg halt, if_pos hctrl, if_pos hctrl]
  · rw [if_neg hctrl, if_neg hctrl]

end

theorem number_cases (number : BitVec 7) : number = 0x2A#7 ∨ number = 0x36#7 ∨ number = 0x1D#7 ∨
    number = 0x38#7 ∨ number = 0x3A#7 ∨
      number ≠ 0x2A#7 ∧ number ≠ 0x36#7 ∧ number ≠ 0x1D#7 ∧ number ≠ 0x38#7 ∧ number ≠ 0x3A#7 := by
  tauto

theorem Follows.code (hext : k.extendedCode = false) (c : Code) : Follows k c (k.scans c.bytes) := by
  obtain ⟨⟨ext, number, real⟩, up⟩ := c
  have hnumber := number_cases number
  cases ext <;> cases up
  case false.false =>
    show Follows k _ (k.scan (number.setWidth 8 ||| 0#8)).1
    rw [BitVec.or_zero, scan_press hext real]
    rcases hnumber with rfl | rfl | rfl | rfl | rfl | hother <;> constructor <;> simp [*]
  case false.true =>
    show Follows k _ (k.scan (number.setWidth 8 ||| 0x80#8)).1
    rw [scan_release hext real]
    rcases hnumber with rfl | rfl | rfl | rfl | rfl | hother <;> constructor <;> simp [*]
  case true.false =>
    show Follows k _ (k.scans [0xE0#8, number.setWidth 8 ||| 0#8])
    rw [BitVec.or_zero, scan_extended_press real]
    rcases hnumber with rfl | rfl | rfl | rfl | rfl | hother <;> constructor <;> simp [*]
  case true.true =>
    show Follows k _ (k.scans [0xE0#8, number.setWidth 8 ||| 0x80#8])
    rw [scan_extended_release real]
    rcases hnumber with rfl | rfl | rfl | rfl | rfl | hother <;> constructor <;> simp [*]

/-! ## Histories of codes -/

/-- The flags say which keys are down. -/
structure Mirrors (k : Keyboard) (codes : List Code) : Prop where
  shift : k.shiftHeld = true ↔ Down .leftShift codes ∨ Down .rightShift codes
  ctrl : k.ctrlHeld = true ↔ Down .leftCtrl codes ∨ Down .rightCtrl codes
  altgr : k.altgrHeld = true ↔ Down .altgr codes
  alt : k.altHeld = true ↔ Down .alt codes ∨ Down .altgr codes
  caps : k.capsLock = true ↔ presses .capsLock codes % 2 = 1

/-- The next code does not clear a flag that another key keeps up: no Shift or Ctrl is released
while the other one is down, AltGr is up when Alt is pressed or released, and Alt is up when
AltGr is released. -/
structure Separate (codes : List Code) (c : Code) : Prop where
  leftShift : c = ⟨.leftShift, true⟩ → ¬ Down .rightShift codes
  rightShift : c = ⟨.rightShift, true⟩ → ¬ Down .leftShift codes
  leftCtrl : c = ⟨.leftCtrl, true⟩ → ¬ Down .rightCtrl codes
  rightCtrl : c = ⟨.rightCtrl, true⟩ → ¬ Down .leftCtrl codes
  alt : c.key = .alt → ¬ Down .altgr codes
  altgr : c = ⟨.altgr, true⟩ → ¬ Down .alt codes

theorem presses_append (key : Key) (codes : List Code) (c : Code) :
    presses key (codes ++ [c]) = presses key codes + if c = ⟨key, false⟩ then 1 else 0 := by
  rw [presses, presses, List.count_append, List.count_singleton]
  simp only [beq_iff_eq]

section
variable {codes : List Code} {c : Code} {held held' : Bool}

/-- A flag that two keys share is right after a code exactly when the code is not the release of
one of them while the other is down. -/
theorem shared_iff {a b : Key} (hab : a ≠ b) (h : held = true ↔ Down a codes ∨ Down b codes)
    (hc : held' = if c.key = a ∨ c.key = b then !c.up else held) :
    (held' = true ↔ Down a (codes ++ [c]) ∨ Down b (codes ++ [c])) ↔
      (c = ⟨a, true⟩ → ¬ Down b codes) ∧ (c = ⟨b, true⟩ → ¬ Down a codes) := by
  obtain ⟨key, up⟩ := c
  rw [hc, down_append, down_append]
  by_cases ha : key = a
  · subst ha
    cases up <;> simp [hab]
  · by_cases hb : key = b
    · subst hb
      cases up <;> simp [hab.symm]
    · simp [ha, hb, h]

theorem altgr_iff (h : held = true ↔ Down .altgr codes)
    (hc : held' = if c.key = .altgr then !c.up else if c.key = .alt ∧ c.up = false then false else held) :
    (held' = true ↔ Down .altgr (codes ++ [c])) ↔ (c = ⟨.alt, false⟩ → ¬ Down .altgr codes) := by
  obtain ⟨key, up⟩ := c
  rw [hc, down_append]
  by_cases haltgr : key = .altgr
  · subst haltgr
    cases up <;> simp
  · rw [if_neg haltgr, if_neg haltgr]
    by_cases halt : key = .alt ∧ up = false
    · obtain ⟨rfl, rfl⟩ := halt
      simp
    · rw [if_neg halt]
      have hne : (⟨key, up⟩ : Code) ≠ ⟨.alt, false⟩ := fun heq => halt (Code.mk.inj heq)
      exact ⟨fun _ heq => absurd heq hne, fun _ => h⟩

theorem caps_iff (h : held = true ↔ presses .capsLock codes % 2 = 1)
    (hc : held' = if c = ⟨.capsLock, false⟩ then !held else held) :
    held' = true ↔ presses .capsLock (codes ++ [c]) % 2 = 1 := by
  rw [hc, presses_append]
  split
  · cases held
    · have heven : ¬ presses .capsLock codes % 2 = 1 := fun hodd => Bool.false_ne_true (h.mpr hodd)
      simp only [Bool.not_false, true_iff]
      omega
    · have hodd := h.mp rfl
      simp only [Bool.not_true, Bool.false_eq_true, false_iff]
      omega
  · exact h

end

/-- From flags that mirror the keys, a code leads to such flags exactly when it is separate. -/
theorem Mirrors.step {codes : List Code} (h : Mirrors k codes) {c : Code} {k' : Keyboard}
    (hc : Follows k c k') : Mirrors k' (codes ++ [c]) ↔ Separate codes c := by
  have hshift := shared_iff (by decide) h.shift hc.shift
  have hctrl := shared_iff (by decide) h.ctrl hc.ctrl
  have halt := shared_iff (by decide) h.alt hc.alt
  have haltgr := altgr_iff h.altgr hc.altgr
  constructor
  · intro h'
    obtain ⟨hls, hrs⟩ := hshift.mp h'.shift
    obtain ⟨hlc, hrc⟩ := hctrl.mp h'.ctrl
    obtain ⟨hup, hg⟩ := halt.mp h'.alt
    have hdown := haltgr.mp h'.altgr
    refine ⟨hls, hrs, hlc, hrc, ?_, hg⟩
    obtain ⟨key, up⟩ := c
    rintro rfl
    cases up with
    | false => exact hdown rfl
    | true => exact hup rfl
  · intro hsep
    refine ⟨hshift.mpr ⟨hsep.leftShift, hsep.rightShift⟩, hctrl.mpr ⟨hsep.leftCtrl, hsep.rightCtrl⟩,
      haltgr.mpr ?_, halt.mpr ⟨?_, hsep.altgr⟩, caps_iff h.caps hc.caps⟩
    · rintro rfl
      exact hsep.alt rfl
    · rintro rfl
      exact hsep.alt rfl

/-- The driver after `kb_init` and as many calls of `kb_getchar` as take in these codes. -/
def typed (k : Keyboard) (codes : List Code) : Keyboard :=
  getchars ((codes.flatMap Code.bytes).length + 1) k.kbInit (codes.flatMap Code.bytes)

theorem typed_append (k : Keyboard) (codes : List Code) (c : Code) :
    k.typed (codes ++ [c]) = (k.typed codes).scans c.bytes := by
  rw [typed, typed, getchars_eq_scans (Nat.lt_succ_self _), getchars_eq_scans (Nat.lt_succ_self _),
    List.flatMap_append, List.flatMap_singleton, scans, List.foldl_append]
  rfl

theorem typed_extendedCode (k : Keyboard) (codes : List Code) : (k.typed codes).extendedCode = false := by
  induction codes using List.reverseRecOn with
  | nil => rfl
  | append_singleton codes c ih =>
    rw [typed_append]
    exact (Follows.code ih c).extendedCode

theorem Mirrors.init (k : Keyboard) : Mirrors (k.typed []) [] := by
  constructor <;> simp [typed, getchars, kbGetchar, kbInit, Down, presses]

/-- The flags mirror the keys all along a history of codes exactly when each code is separate. -/
theorem flags_mirror_iff (k : Keyboard) (codes : List Code) :
    (∀ past, past <+: codes → Mirrors (k.typed past) past) ↔
      ∀ past c, past ++ [c] <+: codes → Separate past c := by
  constructor
  · intro h past c hpast
    have hnow := h past ((List.prefix_append past [c]).trans hpast)
    have hnext := h _ hpast
    rw [typed_append] at hnext
    exact (hnow.step (.code (typed_extendedCode k past) c)).mp hnext
  · intro h past
    induction past using List.reverseRecOn with
    | nil => exact fun _ => .init k
    | append_singleton past c ih =>
      intro hpast
      have hnow := ih ((List.prefix_append past [c]).trans hpast)
      rw [typed_append]
      exact (hnow.step (.code (typed_extendedCode k past) c)).mpr (h past c hpast)

/-- Both Shift keys pressed, and the left one released. -/
def oneShiftLeft : List Code := [⟨.leftShift, false⟩, ⟨.rightShift, false⟩, ⟨.leftShift, true⟩]

theorem oneShiftLeft_forgotten : ¬ ∀ codes past, past <+: codes → Mirrors (loaded.typed past) past := by
  intro h
  have hshift := (h oneShiftLeft oneShiftLeft (List.prefix_refl _)).shift
  exact absurd hshift (by decide)

end Keyboard

end SengOS
