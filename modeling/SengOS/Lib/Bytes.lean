import Mathlib.Tactic.Common
import Mathlib.Logic.Function.Basic
import Mathlib.Algebra.Group.Int.Defs
import Mathlib.Algebra.GroupWithZero.Nat

/-!
# Byte buffers

Fixed-size buffers of bytes with the three ways C code looks at them: single
bytes, little-endian 32-bit words and the bits of a bitmap. Each store comes
with what a later load sees, at the same place and at every other one.
-/

namespace SengOS

abbrev Byte := BitVec 8

abbrev Word := BitVec 32

instance : LawfulBEq Word := inferInstance

/-- A buffer of exactly `n` bytes. -/
def Buf (n : Nat) := Fin n → Byte

namespace Buf

variable {n : Nat}

/-- Loads past the end give 0; no caller relies on them. -/
def get (b : Buf n) (i : Nat) : Byte := if h : i < n then b ⟨i, h⟩ else 0#8

def set (b : Buf n) (i : Nat) (v : Byte) : Buf n := fun j => if j.val = i then v else b j

def zero : Buf n := fun _ => 0#8

def ofFn (f : Nat → Byte) : Buf n := fun i => f i.val

@[simp] theorem get_zero (i : Nat) : (zero : Buf n).get i = 0#8 := by
  simp [get, zero]

theorem get_ofFn {f : Nat → Byte} {i : Nat} (h : i < n) : (ofFn f : Buf n).get i = f i := by
  simp [get, ofFn, h]

theorem get_of_le {b : Buf n} {i : Nat} (h : n ≤ i) : b.get i = 0#8 := by
  simp [get, Nat.not_lt.mpr h]

theorem get_set (b : Buf n) (i j : Nat) (v : Byte) :
    (b.set i v).get j = if j = i ∧ j < n then v else b.get j := by
  unfold get set
  by_cases hj : j < n <;> simp [hj]

theorem get_set_self {b : Buf n} {i : Nat} (h : i < n) (v : Byte) : (b.set i v).get i = v := by
  simp [get_set, h]

theorem get_set_ne {b : Buf n} {i j : Nat} (h : j ≠ i) (v : Byte) :
    (b.set i v).get j = b.get j := by
  simp [get_set, h]

theorem set_of_le {b : Buf n} {i : Nat} (h : n ≤ i) (v : Byte) : b.set i v = b := by
  funext j
  exact if_neg (by omega)

/-! ## Copy loops -/

/-- `old` after the first `k` iterations of a loop that copies `new` over it. -/
def overlay (k : Nat) (new old : Buf n) : Buf n := fun i => if i.val < k then new i else old i

theorem overlay_none (new old : Buf n) : overlay 0 new old = old := by
  funext i; simp [overlay]

theorem overlay_all {k : Nat} (h : n ≤ k) (new old : Buf n) : overlay k new old = new := by
  funext i
  have := i.isLt
  simp [overlay, show i.val < k by omega]

theorem overlay_succ (k : Nat) (new old : Buf n) :
    (overlay k new old).set k (new.get k) = overlay (k + 1) new old := by
  funext i
  simp only [overlay, set, get]
  have := i.isLt
  by_cases he : i.val = k
  · subst he; simp
  · by_cases hl : i.val < k
    · simp [he, hl, show i.val < k + 1 by omega]
    · simp [he, hl, show ¬ i.val < k + 1 by omega]

theorem get_overlay {k i : Nat} (hk : i < k) (hi : i < n) (new old : Buf n) :
    (overlay k new old).get i = new.get i := by
  simp [get, overlay, hk, hi]

/-! ## Little-endian words -/

def word (b : Buf n) (o : Nat) : Word :=
  b.get (o + 3) ++ b.get (o + 2) ++ b.get (o + 1) ++ b.get o

/-- One 32-bit store. -/
def setWord (b : Buf n) (o : Nat) (w : Word) : Buf n := fun j =>
  if j.val = o then w.extractLsb' 0 8
  else if j.val = o + 1 then w.extractLsb' 8 8
  else if j.val = o + 2 then w.extractLsb' 16 8
  else if j.val = o + 3 then w.extractLsb' 24 8
  else b j

theorem get_setWord (b : Buf n) (o j : Nat) (w : Word) (h : j < n) :
    (b.setWord o w).get j =
      if j = o then w.extractLsb' 0 8
      else if j = o + 1 then w.extractLsb' 8 8
      else if j = o + 2 then w.extractLsb' 16 8
      else if j = o + 3 then w.extractLsb' 24 8
      else b.get j := by
  simp [get, setWord, h]

theorem get_setWord_ne {b : Buf n} {o j : Nat} (h : j < o ∨ o + 4 ≤ j) (w : Word) :
    (b.setWord o w).get j = b.get j := by
  by_cases hj : j < n
  · rw [get_setWord b o j w hj]
    have h0 : j ≠ o := by omega
    have h1 : j ≠ o + 1 := by omega
    have h2 : j ≠ o + 2 := by omega
    have h3 : j ≠ o + 3 := by omega
    simp [h0, h1, h2, h3]
  · rw [get_of_le (by omega), get_of_le (by omega)]

theorem word_split (w : Word) :
    w.extractLsb' 24 8 ++ w.extractLsb' 16 8 ++ w.extractLsb' 8 8 ++ w.extractLsb' 0 8 = w := by
  ext i hi
  simp only [BitVec.getElem_append, BitVec.getElem_extractLsb']
  split
  · simp [BitVec.getLsbD_eq_getElem, hi]
  · split
    · rw [BitVec.getLsbD_eq_getElem (by omega)]; congr 1; omega
    · split
      · rw [BitVec.getLsbD_eq_getElem (by omega)]; congr 1; omega
      · rw [BitVec.getLsbD_eq_getElem (by omega)]; congr 1; omega

/-- The first byte of a word is its low byte. -/
theorem word_low (b : Buf n) (o : Nat) : (b.word o).setWidth 8 = b.get o := by
  unfold word
  exact BitVec.setWidth_append_eq_right

theorem word_setWord_self {b : Buf n} {o : Nat} (h : o + 4 ≤ n) (w : Word) :
    (b.setWord o w).word o = w := by
  have e0 : (b.setWord o w).get o = w.extractLsb' 0 8 := by
    rw [get_setWord b o o w (by omega)]; simp
  have e1 : (b.setWord o w).get (o + 1) = w.extractLsb' 8 8 := by
    rw [get_setWord b o (o + 1) w (by omega)]; simp
  have e2 : (b.setWord o w).get (o + 2) = w.extractLsb' 16 8 := by
    rw [get_setWord b o (o + 2) w (by omega)]; simp
  have e3 : (b.setWord o w).get (o + 3) = w.extractLsb' 24 8 := by
    rw [get_setWord b o (o + 3) w (by omega)]; simp
  unfold word
  rw [e0, e1, e2, e3]
  exact word_split w

theorem word_congr {a b : Buf n} {o : Nat} (h : ∀ i, o ≤ i → i < o + 4 → a.get i = b.get i) :
    a.word o = b.word o := by
  unfold word
  rw [h o (by omega) (by omega), h (o + 1) (by omega) (by omega), h (o + 2) (by omega) (by omega),
    h (o + 3) (by omega) (by omega)]

theorem word_setWord_ne {b : Buf n} {o p : Nat} (h : p + 4 ≤ o ∨ o + 4 ≤ p) (w : Word) :
    (b.setWord o w).word p = b.word p := by
  apply word_congr
  intro i hi hi'
  exact get_setWord_ne (by omega) w

theorem word_set_ne {b : Buf n} {o i : Nat} (h : i < o ∨ o + 4 ≤ i) (v : Byte) :
    (b.set i v).word o = b.word o := by
  apply word_congr
  intro j hj hj'
  exact get_set_ne (by omega) v

@[simp] theorem word_zero (o : Nat) : (zero : Buf n).word o = 0#32 := by
  simp [word]

/-! ## Bitmaps -/

/-- Bit `k` as `(p[k >> 3] >> (k & 7)) & 1` reads it. -/
def bit (b : Buf n) (k : Nat) : Bool := (b.get (k >>> 3) >>> (k &&& 7)) &&& 1#8 != 0#8

/-- `p[k >> 3] |= 1 << (k & 7)` or `p[k >> 3] &= ~(1 << (k & 7))`. -/
def setBit (b : Buf n) (k : Nat) (v : Bool) : Buf n :=
  if v then b.set (k >>> 3) (b.get (k >>> 3) ||| (1#8 <<< (k &&& 7)))
  else b.set (k >>> 3) (b.get (k >>> 3) &&& ~~~(1#8 <<< (k &&& 7)))

theorem shift_eq (k : Nat) : k >>> 3 = k / 8 ∧ k &&& 7 = k % 8 :=
  ⟨by simp [Nat.shiftRight_eq_div_pow], Nat.and_two_pow_sub_one_eq_mod k 3⟩

theorem and_one_ne_zero (x : Byte) : (x &&& 1#8 != 0#8) = x.getLsbD 0 := by
  rw [BitVec.and_one_eq_setWidth_ofBool_getLsbD]
  cases x.getLsbD 0 <;> rfl

theorem bit_eq (b : Buf n) (k : Nat) : b.bit k = (b.get (k / 8)).getLsbD (k % 8) := by
  rw [bit, (shift_eq k).1, (shift_eq k).2, and_one_ne_zero, BitVec.getLsbD_ushiftRight, Nat.add_zero]

theorem getLsbD_one_shiftLeft {i j : Nat} (hj : j < 8) :
    (1#8 <<< i).getLsbD j = decide (j = i) := by
  rw [BitVec.getLsbD_shiftLeft, BitVec.getLsbD_one]
  by_cases h : j = i <;> simp [h] <;> omega

/-- A bit store changes that bit and no other one, also within its byte. -/
theorem bit_setBit (b : Buf n) (k l : Nat) (v : Bool) (h : k / 8 < n) :
    (b.setBit k v).bit l = if l = k then v else b.bit l := by
  have hl : l % 8 < 8 := Nat.mod_lt _ (by decide)
  have stored (x : Byte) : (b.set (k / 8) x).bit l =
      if l / 8 = k / 8 then x.getLsbD (l % 8) else b.bit l := by
    rw [bit_eq, get_set, bit_eq]
    by_cases hb : l / 8 = k / 8 <;> simp [hb, h]
  have same : l / 8 = k / 8 → (l % 8 = k % 8 ↔ l = k) := by omega
  unfold setBit
  rw [(shift_eq k).1, (shift_eq k).2]
  cases v with
  | true =>
    simp only [↓reduceIte, stored, BitVec.getLsbD_or, getLsbD_one_shiftLeft hl]
    by_cases hb : l / 8 = k / 8
    · simp only [hb, ↓reduceIte, same hb, bit_eq b l]
      by_cases he : l = k <;> simp [he]
    · have : l ≠ k := fun e => hb (by rw [e])
      simp [hb, this]
  | false =>
    simp only [Bool.false_eq_true, ↓reduceIte, stored, BitVec.getLsbD_and, BitVec.getLsbD_not,
      getLsbD_one_shiftLeft hl]
    by_cases hb : l / 8 = k / 8
    · simp only [hb, ↓reduceIte, same hb, bit_eq b l]
      by_cases he : l = k <;> simp [he, hl]
    · have : l ≠ k := fun e => hb (by rw [e])
      simp [hb, this]

/-- A buffer is determined by its bits. -/
theorem ext_bits {a b : Buf n} (h : ∀ k, k < 8 * n → a.bit k = b.bit k) : a = b := by
  have hbyte (i : Fin n) : a.get i.val = b.get i.val := by
    apply BitVec.eq_of_getLsbD_eq
    intro j hj
    have := h (8 * i.val + j) (by omega)
    rwa [bit_eq, bit_eq, show (8 * i.val + j) / 8 = i.val by omega,
      show (8 * i.val + j) % 8 = j by omega] at this
  funext i
  simpa [get] using hbyte i

@[simp] theorem bit_zero (k : Nat) : (zero : Buf n).bit k = false := by
  simp [bit_eq]

/-- How many of the first `m` bits are clear. -/
def clearBits (b : Buf n) (m : Nat) : Nat := (List.range m).countP fun k => !b.bit k

theorem clearBits_succ (b : Buf n) (m : Nat) :
    b.clearBits (m + 1) = b.clearBits m + if b.bit m then 0 else 1 := by
  cases hb : b.bit m <;> simp [clearBits, List.range_succ, hb]

theorem clearBits_bound (b : Buf n) (m : Nat) : b.clearBits m ≤ m := by
  have := List.countP_le_length (l := List.range m) (p := fun k => !b.bit k)
  rwa [List.length_range] at this

theorem clearBits_congr {a b : Buf n} {m : Nat} (h : ∀ k, k < m → a.bit k = b.bit k) :
    a.clearBits m = b.clearBits m := by
  induction m with
  | zero => rfl
  | succ m ih =>
    rw [clearBits_succ, clearBits_succ, ih fun k hk => h k (by omega), h m (Nat.lt_succ_self m)]

/-- Bits past the last clear one do not count. -/
theorem clearBits_le {b : Buf n} {k m : Nat} (hkm : k ≤ m) (h : ∀ i, i < m → b.bit i = false → i < k) :
    b.clearBits m = b.clearBits k := by
  induction hkm with
  | refl => rfl
  | @step m hkm ih =>
    have hset : b.bit m = true := by
      cases hb : b.bit m with
      | true => rfl
      | false => exact absurd (h m (Nat.lt_succ_self m) hb) (Nat.not_lt.mpr hkm)
    rw [clearBits_succ, hset, ih fun i hi hb => h i (by omega) hb]
    rfl

/-- Bitmaps that differ in one bit, which is set in the second one. -/
theorem clearBits_step {a b : Buf n} {m i : Nat} (hi : i < m) (ha : a.bit i = false)
    (hb : b.bit i = true) (h : ∀ k, k ≠ i → a.bit k = b.bit k) :
    a.clearBits m = b.clearBits m + 1 := by
  induction m with
  | zero => exact absurd hi (Nat.not_lt_zero i)
  | succ m ih =>
    rw [clearBits_succ, clearBits_succ]
    by_cases him : i = m
    · subst him
      rw [ha, hb, clearBits_congr fun k hk => h k (by omega)]
      rfl
    · rw [ih (by omega), h m (Ne.symm him)]
      omega

end Buf

end SengOS
