import SengOS.Disk.Ramdisk
import SengOS.Lib.Digest

/-!
# What the checksum tells apart

A step of `checksum32` can be undone: the multiplier is odd, and 899433627 is its inverse
modulo 2^32. So the checksum sees every change of a single byte, and recovery discards a
before-image with one.
-/

namespace SengOS

/-- The buffers differ in exactly one byte. -/
def OneByteApart {n : Nat} (a b : Buf n) : Prop := ∃ i, a i ≠ b i ∧ ∀ j, j ≠ i → a j = b j

theorem oneByteApart_set {n : Nat} (b : Buf n) (i : Fin n) {v : Byte} (h : b i ≠ v) :
    OneByteApart b (b.set i.val v) := by
  refine ⟨i, ?_, fun j hj => (if_neg fun heq => hj (Fin.ext heq)).symm⟩
  rw [Buf.set, if_pos rfl]
  exact h

/-- One turn of the loop in `checksum32`. -/
def absorb (h : Word) (b : Byte) : Word := (h ^^^ b.setWidth 32) * 16777619#32

theorem mul_prime_injective : Function.Injective fun h : Word => h * 16777619#32 := by
  intro h h' heq
  have hone : 16777619#32 * 899433627#32 = 1#32 := by decide
  have hback := congrArg (· * 899433627#32) heq
  dsimp only at hback
  rwa [BitVec.mul_assoc, BitVec.mul_assoc, hone, BitVec.mul_one, BitVec.mul_one] at hback

theorem setWidth_injective : Function.Injective fun b : Byte => b.setWidth 32 := by
  intro b b' heq
  apply BitVec.eq_of_toNat_eq
  have hnat := congrArg BitVec.toNat heq
  simp only [BitVec.toNat_setWidth] at hnat
  omega

theorem absorb_sharp : Digest.Sharp absorb where
  states _ _ _ heq := (BitVec.xor_left_inj _).mp (mul_prime_injective heq)
  symbols h _ _ heq := setWidth_injective ((BitVec.xor_right_inj h).mp (mul_prime_injective heq))

theorem checksum32_ne {n : Nat} {a b : Buf n} (h : OneByteApart a b) : checksum32 a n ≠ checksum32 b n := by
  obtain ⟨i, hdiff, hsame⟩ := h
  have hget (c : Buf n) (j : Fin n) : c.get j.val = c j := dif_pos j.isLt
  apply absorb_sharp.foldl_ne List.nodup_range (List.mem_range.mpr i.isLt)
  · rw [hget, hget]
    exact hdiff
  · intro j hj hji
    have hother := hsame ⟨j, List.mem_range.mp hj⟩ fun heq => hji (congrArg Fin.val heq)
    exact ((hget a _).trans hother).trans (hget b _).symm

/-- The checksum is over another image than the one in the journal block. -/
theorem journalRecover_rejects {d : Disk} (h : checksum32 (d 255) 4096 ≠ d.checksum) {block : Nat}
    (hblock : block ≠ 254) : journalRecover d block = d block := by
  have hclear : journalClear d block = d block := by
    simp only [journalClear, Disk.setHeader, Disk.put_ne hblock]
  rw [journalRecover, if_pos h]
  split
  · rfl
  · exact hclear

/-- A change of one byte changes the checksum, so that recovery writes no such image back. -/
theorem one_byte_detected :
    (∀ n (a b : Buf n), OneByteApart a b → checksum32 a n ≠ checksum32 b n) ∧
    ∀ (d : Disk) (image : Block), d.checksum = checksum32 image 4096 → OneByteApart image (d 255) →
      ∀ block, block ≠ 254 → journalRecover d block = d block := by
  refine ⟨fun n a b h => checksum32_ne h, fun d image hsum h block hblock => ?_⟩
  apply journalRecover_rejects _ hblock
  rw [hsum]
  exact (checksum32_ne h).symm

/-- A disk whose before-image was zeroes when the checksum was taken, and has one bit set now. -/
def flippedDisk : Disk :=
  (Disk.blank.setHeader 8 (checksum32 (Buf.zero : Block) 4096)).put 255 (Buf.zero.set 7 0x80#8)

theorem flippedDisk_detected :
    checksum32 (Buf.zero : Buf 3) 3 ≠ checksum32 (Buf.zero.set 1 0x80#8 : Buf 3) 3 ∧
      journalRecover flippedDisk 0 = flippedDisk 0 := by
  have hsum : flippedDisk.checksum = checksum32 (Buf.zero : Block) 4096 := by
    rw [Disk.checksum, flippedDisk, Disk.put_ne (by decide), Disk.setHeader, Disk.put_self,
      Buf.word_setWord_self (by decide)]
  have hapart : OneByteApart (Buf.zero : Block) (flippedDisk 255) := by
    rw [flippedDisk, Disk.put_self]
    exact oneByteApart_set Buf.zero 7 (by decide)
  refine ⟨one_byte_detected.1 3 _ _ (oneByteApart_set Buf.zero 1 (by decide)), ?_⟩
  exact one_byte_detected.2 flippedDisk Buf.zero hsum hapart 0 (by decide)

end SengOS
