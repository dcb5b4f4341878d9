import SengOS.Lib.CString

/-!
# The keyboard driver

`keyboard.c` reads Scancode Set 1 from the controller one byte at a time. A call of
`kb_getchar` ends at the first key that stands for a character; in between it keeps the
flags of the modifier keys and whether the last byte was the prefix 0xE0. Twenty lines of
history are kept in a ring of buffers.
-/

namespace SengOS

/-- The static variables of the driver. -/
structure Keyboard where
  shiftHeld : Bool
  capsLock : Bool
  ctrlHeld : Bool
  altHeld : Bool
  altgrHeld : Bool
  extendedCode : Bool
  /-- The rows of `history` by slot. -/
  history : Int → Buf 256
  historyCount : Int
  historyNext : Int

/-- The static variables as the program is loaded. -/
def Keyboard.loaded : Keyboard where
  shiftHeld := false
  capsLock := false
  ctrlHeld := false
  altHeld := false
  altgrHeld := false
  extendedCode := false
  history := fun _ => Buf.zero
  historyCount := 0
  historyNext := 0

/-! ## Key tables -/

/-- `sc_ascii`. The rest of the 128 entries are zero. -/
def scAscii : List Nat :=
  [0x00, 0x1B, 0x31, 0x32, 0x33, 0x34, 0x35, 0x36, 0x37, 0x38, 0x39, 0x30, 0x2D, 0x3D, 0x08, 0x09,
    0x71, 0x77, 0x65, 0x72, 0x74, 0x79, 0x75, 0x69, 0x6F, 0x70, 0x5B, 0x5D, 0x0A, 0x00,
    0x61, 0x73, 0x64, 0x66, 0x67, 0x68, 0x6A, 0x6B, 0x6C, 0x3B, 0x27, 0x60, 0x00, 0x5C,
    0x7A, 0x78, 0x63, 0x76, 0x62, 0x6E, 0x6D, 0x2C, 0x2E, 0x2F, 0x00, 0x2A, 0x00, 0x20, 0x00,
    0x00, 0x00, 0x00, 0x00, 0x00, 0x00, 0x00, 0x00, 0x00, 0x00, 0x00, 0x00, 0x37, 0x38, 0x39, 0x2D,
    0x34, 0x35, 0x36, 0x2B, 0x31, 0x32, 0x33, 0x30, 0x2E]

/-- `sc_ascii_shift`. -/
def scAsciiShift : List Nat :=
  [0x00, 0x1B, 0x21, 0x40, 0x23, 0x24, 0x25, 0x5E, 0x26, 0x2A, 0x28, 0x29, 0x5F, 0x2B, 0x08, 0x09,
    0x51, 0x57, 0x45, 0x52, 0x54, 0x59, 0x55, 0x49, 0x4F, 0x50, 0x7B, 0x7D, 0x0A, 0x00,
    0x41, 0x53, 0x44, 0x46, 0x47, 0x48, 0x4A, 0x4B, 0x4C, 0x3A, 0x22, 0x7E, 0x00, 0x7C,
    0x5A, 0x58, 0x43, 0x56, 0x42, 0x4E, 0x4D, 0x3C, 0x3E, 0x3F, 0x00, 0x2A, 0x00, 0x20]

/-- An entry of one of the two tables. -/
def keyEntry (table : List Nat) (sc : Byte) : Byte := BitVec.ofNat 8 (table.getD sc.toNat 0)

/-- `c >= 'a' && c <= 'z'`. -/
def isLower (c : Byte) : Bool := 0x61#8 ≤ c && c ≤ 0x7A#8

def kbKeyUp : Byte := 0xF1#8
def kbKeyDown : Byte := 0xF2#8
def kbKeyLeft : Byte := 0xF3#8
def kbKeyRight : Byte := 0xF4#8
def kbKeyPgup : Byte := 0xF5#8
def kbKeyPgdn : Byte := 0xF6#8

def altgrTranslate (sc : Byte) : Byte :=
  if sc = 0x03#8 then 0x40#8
  else if sc = 0x04#8 then 0x23#8
  else if sc = 0x1A#8 then 0x7B#8
  else if sc = 0x1B#8 then 0x7D#8
  else if sc = 0x27#8 then 0x7E#8
  else if sc = 0x2B#8 then 0x7C#8
  else 0#8

namespace Keyboard

def applyCapsShift (k : Keyboard) (normal shifted : Byte) : Byte :=
  if !isLower normal then (if k.shiftHeld then shifted else normal)
  else if k.capsLock == k.shiftHeld then normal
  else shifted

/-! ## Scancodes -/

/-- The key that was pressed after a prefix, or 0. -/
def handleExtendedPress (k : Keyboard) (sc : Byte) : Keyboard × Byte :=
  if sc = 0x1D#8 then ({ k with ctrlHeld := true }, 0#8)
  else if sc = 0x38#8 then ({ k with altgrHeld := true, altHeld := true }, 0#8)
  else
    (k,
      if sc = 0x48#8 then kbKeyUp
      else if sc = 0x50#8 then kbKeyDown
      else if sc = 0x4B#8 then kbKeyLeft
      else if sc = 0x4D#8 then kbKeyRight
      else if sc = 0x49#8 then kbKeyPgup
      else if sc = 0x51#8 then kbKeyPgdn
      else 0#8)

def handleExtendedRelease (k : Keyboard) (sc : Byte) : Keyboard :=
  let k := if sc = 0x1D#8 then { k with ctrlHeld := false } else k
  if sc = 0x38#8 then { k with altgrHeld := false, altHeld := false } else k

def handleRelease (k : Keyboard) (release : Byte) : Keyboard :=
  if release = 0x2A#8 ∨ release = 0x36#8 then { k with shiftHeld := false }
  else if release = 0x1D#8 then { k with ctrlHeld := false }
  else if release = 0x38#8 then { k with altHeld := false }
  else k

/-- What an ordinary key stands for under the flags, if it stands for a character. -/
def translate (k : Keyboard) (sc : Byte) : Option Byte :=
  let normal := keyEntry scAscii sc
  let shifted := keyEntry scAsciiShift sc
  if normal = 0#8 ∧ shifted = 0#8 then none
  else if k.ctrlHeld ∧ isLower normal then some (normal - 0x61#8 + 1#8)
  else if k.altgrHeld ∧ altgrTranslate sc ≠ 0#8 then some (altgrTranslate sc)
  else some (k.applyCapsShift normal shifted)

/-- One turn of the loop in `kb_getchar`, with the character that it returns. -/
def scan (k : Keyboard) (sc : Byte) : Keyboard × Option Byte :=
  if sc = 0xE0#8 then ({ k with extendedCode := true }, none)
  else if k.extendedCode then
    let k := { k with extendedCode := false }
    if sc &&& 0x80#8 ≠ 0#8 then (k.handleExtendedRelease (sc &&& 0x7F#8), none)
    else
      let (k, key) := k.handleExtendedPress sc
      (k, if key ≠ 0#8 then some key else none)
  else if sc &&& 0x80#8 ≠ 0#8 then (k.handleRelease (sc &&& 0x7F#8), none)
  else if sc = 0x2A#8 ∨ sc = 0x36#8 then ({ k with shiftHeld := true }, none)
  else if sc = 0x1D#8 then ({ k with ctrlHeld := true }, none)
  else if sc = 0x38#8 then ({ k with altHeld := true, altgrHeld := false }, none)
  else if sc = 0x3A#8 then ({ k with capsLock := !k.capsLock }, none)
  else (k, k.translate sc)

/-- `kb_getchar` on the bytes that are still to come, with what it leaves of them. There is
no character when they run out before it returns. -/
def kbGetchar (k : Keyboard) : List Byte → Keyboard × List Byte × Option Byte
  | [] => (k, [], none)
  | sc :: input =>
    match k.scan sc with
    | (k, some c) => (k, input, some c)
    | (k, none) => k.kbGetchar input

/-! ## History -/

/-- `k_strcpy` to the start of a row. -/
def strcpy {n : Nat} (dst : Buf n) (src : List Byte) : Buf n := dst.setAll (Buf.copyStores 0 src)

def historyAdd (k : Keyboard) (line : List Byte) : Keyboard :=
  if line = [] then k
  else if k.historyCount > 0 ∧ (k.history ((k.historyNext + 20 - 1).tmod 20)).strEqAt 0 line = true then k
  else
    { k with
      history := Function.update k.history k.historyNext (strcpy (k.history k.historyNext) line)
      historyNext := (k.historyNext + 1).tmod 20
      historyCount := if k.historyCount < 20 then k.historyCount + 1 else k.historyCount }

def historyGet (k : Keyboard) (position : Int) : Option (Buf 256) :=
  if position < 0 ∨ position ≥ k.historyCount then none
  else
    let oldest := (k.historyNext - k.historyCount + 20).tmod 20
    some (k.history ((oldest + position).tmod 20))

/-- `kb_init`, once the controller has nothing more to read. The rows of the history stay. -/
def kbInit (k : Keyboard) : Keyboard :=
  { k with
    shiftHeld := false
    capsLock := false
    ctrlHeld := false
    altHeld := false
    altgrHeld := false
    extendedCode := false
    historyCount := 0
    historyNext := 0 }

end Keyboard

end SengOS
