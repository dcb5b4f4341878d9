import SengOS.Fs.Ops
import SengOS.Disk.Crash

/-!
# What a disk means

`view` reads a disk as two bitmaps, an inode table and data blocks. Each of
the four kinds of block write changes exactly one point of one of them; above
this module nothing looks at bytes of the metadata blocks again.
-/

namespace SengOS

/-! ## Block writes -/

theorem Dev.write_rc {b : Nat} (h : Accepted b) (v : Dev) (blk : Block) : (v.write b blk).1 = 0 := by
  simp [Dev.write, ramdiskWriteBlock, h]

theorem Dev.write_rejected {b : Nat} (h : ¬ Accepted b) (v : Dev) (blk : Block) :
    (v.write b blk).2 = v := by
  simp [Dev.write, ramdiskWriteBlock, h]

theorem Dev.write_disk (v : Dev) (b : Nat) (blk : Block) :
    (v.write b blk).2.disk = (ramdiskWriteBlock v.disk b blk).2 := by
  by_cases h : Accepted b
  · simp [Dev.write, ramdiskWriteBlock, h]
  · simp [Dev.write, ramdiskWriteBlock, h]

theorem Dev.write_disk_self {b : Nat} (h : Accepted b) (v : Dev) (blk : Block) :
    (v.write b blk).2.disk b = blk := by
  rw [Dev.write_disk, write_self h]

theorem Dev.write_disk_ne {b c : Nat} (h : c ≠ b) (hc : c < 254) (v : Dev) (blk : Block) :
    (v.write b blk).2.disk c = v.disk c := by
  rw [Dev.write_disk, write_ne h (by omega) (by omega)]

theorem Dev.write_hist {b : Nat} (h : Accepted b) (v : Dev) (blk : Block) :
    (v.write b blk).2.hist = v.hist ++ [(v.write b blk).2.disk] := by
  rw [Dev.write_disk]
  simp [Dev.write, ramdiskWriteBlock, h]

/-- A sequence of block writes that spare the superblock. -/
inductive Dev.Writes (v : Dev) : Dev → Prop
  | refl : Dev.Writes v v
  | write {w : Dev} (b : Nat) (blk : Block) (hb : b ≠ 0) : Dev.Writes v w →
      Dev.Writes v (w.write b blk).2

theorem Dev.Writes.trans {u v w : Dev} (h : u.Writes v) (h' : v.Writes w) : u.Writes w := by
  induction h' with
  | refl => exact h
  | write b blk hb _ ih => exact .write b blk hb ih

theorem Dev.Writes.single (v : Dev) {b : Nat} (blk : Block) (hb : b ≠ 0) :
    v.Writes (v.write b blk).2 := .write b blk hb .refl

/-- `fs_init` will mount this disk: the superblock is valid and names the
root, and the journal is idle. -/
structure Mounted (d : Disk) : Prop where
  super : d 0 = Buf.zero.setWords 0 superblockWords
  idle : Idle d

theorem Mounted.write {v : Dev} (h : Mounted v.disk) {b : Nat} (hb : b ≠ 0) (blk : Block) :
    Mounted (v.write b blk).2.disk := by
  by_cases ha : Accepted b
  · constructor
    · rw [Dev.write_disk_ne hb.symm (by decide), h.super]
    · rw [Dev.write_disk]
      exact write_idle ha _ _
  · rw [Dev.write_rejected ha]
    exact h

theorem Mounted.writes {v w : Dev} (h : Mounted v.disk) (hw : v.Writes w) : Mounted w.disk := by
  induction hw with
  | refl => exact h
  | write b blk hb _ ih => exact ih.write hb blk

/-! ## The view -/

/-- Blocks that hold directories, file contents and pointers. -/
def IsData (b : Nat) : Prop := b = 1 ∨ (6 ≤ b ∧ b < 254)

instance (b : Nat) : Decidable (IsData b) := inferInstanceAs (Decidable (_ ∨ _ ∧ _))

@[ext]
structure View where
  bbit : Nat → Bool
  ibit : Nat → Bool
  inode : Nat → Inode
  data : Nat → Block

namespace View

def setBbit (v : View) (b : Nat) (x : Bool) : View := { v with bbit := Function.update v.bbit b x }

def setIbit (v : View) (i : Nat) (x : Bool) : View := { v with ibit := Function.update v.ibit i x }

def setInode (v : View) (i : Nat) (n : Inode) : View := { v with inode := Function.update v.inode i n }

def setData (v : View) (b : Nat) (blk : Block) : View := { v with data := Function.update v.data b blk }

@[simp] theorem setBbit_bbit (v : View) (b : Nat) (x : Bool) :
    (v.setBbit b x).bbit = Function.update v.bbit b x := rfl

@[simp] theorem setBbit_ibit (v : View) (b : Nat) (x : Bool) :
    (v.setBbit b x).ibit = v.ibit := rfl

@[simp] theorem setBbit_inode (v : View) (b : Nat) (x : Bool) :
    (v.setBbit b x).inode = v.inode := rfl

@[simp] theorem setBbit_data (v : View) (b : Nat) (x : Bool) :
    (v.setBbit b x).data = v.data := rfl

@[simp] theorem setIbit_bbit (v : View) (i : Nat) (x : Bool) :
    (v.setIbit i x).bbit = v.bbit := rfl

@[simp] theorem setIbit_ibit (v : View) (i : Nat) (x : Bool) :
    (v.setIbit i x).ibit = Function.update v.ibit i x := rfl

@[simp] theorem setIbit_inode (v : View) (i : Nat) (x : Bool) :
    (v.setIbit i x).inode = v.inode := rfl

@[simp] theorem setIbit_data (v : View) (i : Nat) (x : Bool) :
    (v.setIbit i x).data = v.data := rfl

@[simp] theorem setInode_bbit (v : View) (i : Nat) (n : Inode) :
    (v.setInode i n).bbit = v.bbit := rfl

@[simp] theorem setInode_ibit (v : View) (i : Nat) (n : Inode) :
    (v.setInode i n).ibit = v.ibit := rfl

@[simp] theorem setInode_inode (v : View) (i : Nat) (n : Inode) :
    (v.setInode i n).inode = Function.update v.inode i n := rfl

@[simp] theorem setInode_data (v : View) (i : Nat) (n : Inode) :
    (v.setInode i n).data = v.data := rfl

@[simp] theorem setData_bbit (v : View) (b : Nat) (blk : Block) :
    (v.setData b blk).bbit = v.bbit := rfl

@[simp] theorem setData_ibit (v : View) (b : Nat) (blk : Block) :
    (v.setData b blk).ibit = v.ibit := rfl

@[simp] theorem setData_inode (v : View) (b : Nat) (blk : Block) :
    (v.setData b blk).inode = v.inode := rfl

@[simp] theorem setData_data (v : View) (b : Nat) (blk : Block) :
    (v.setData b blk).data = Function.update v.data b blk := rfl

end View

def view (d : Disk) : View where
  bbit b := (d 2).bit b
  ibit i := (d 3).bit i
  inode i := if i < 64 then inodeRead d i else Inode.zero
  data b := if IsData b then d b else Buf.zero

theorem readBlock_lt {d : Disk} {b : Nat} (h : b < 256) : readBlock d b = d b := by
  simp [readBlock, ramdiskReadBlock, h]

theorem IsData.lt {b : Nat} (h : IsData b) : b < 254 := by
  unfold IsData at h; omega

theorem IsData.accepted {b : Nat} (h : IsData b) : Accepted b := by
  unfold IsData at h; unfold Accepted; omega

theorem view_bbit (d : Disk) (b : Nat) : bitmapGet d 2 b = (view d).bbit b := by
  rw [bitmapGet, readBlock_lt (by decide)]; rfl

theorem view_ibit (d : Disk) (i : Nat) : bitmapGet d 3 i = (view d).ibit i := by
  rw [bitmapGet, readBlock_lt (by decide)]; rfl

theorem view_inode {i : Nat} (h : i < 64) (d : Disk) : inodeRead d i = (view d).inode i := by
  simp [view, h]

theorem view_data {b : Nat} (h : IsData b) (d : Disk) : d b = (view d).data b := by
  simp [view, h]

theorem readBlock_data {b : Nat} (h : IsData b) (d : Disk) : readBlock d b = (view d).data b := by
  rw [readBlock_lt (by have := h.lt; omega), ← view_data h d]

/-! ## Inode table -/

/-- The 64 inodes fill the first 2816 bytes of block 4. -/
theorem inode_place {i : Nat} (h : i < 64) : inodeBlock i = 4 ∧ inodeOffset i = i * 44 := by
  have hm : i * 44 % 2 ^ 32 = i * 44 := Nat.mod_eq_of_lt (by omega)
  rw [inodeBlock, inodeOffset, hm]
  omega

theorem Inode.words_length (n : Inode) : n.words.length = 11 := by
  simp [Inode.words]

theorem inodeRead_eq {i : Nat} (h : i < 64) (d : Disk) : inodeRead d i =
    ⟨(d 4).word (i * 44), (d 4).word (i * 44 + 4), fun k => (d 4).word (i * 44 + (8 + 4 * k.val)),
      (d 4).word (i * 44 + 40)⟩ := by
  obtain ⟨hb, ho⟩ := inode_place h
  rw [inodeRead, hb, ho, readBlock_lt (by decide)]

theorem inodeRead_congr {i : Nat} (h : i < 64) {d e : Disk} (hd : d 4 = e 4) :
    inodeRead d i = inodeRead e i := by
  rw [inodeRead_eq h, inodeRead_eq h, hd]

/-- Loading what was stored gives the inode back. -/
theorem words_load (b : Block) {o : Nat} (ho : o + 44 ≤ 4096) (n : Inode) :
    (⟨(b.setWords o n.words).word o, (b.setWords o n.words).word (o + 4),
      fun k => (b.setWords o n.words).word (o + (8 + 4 * k.val)),
      (b.setWords o n.words).word (o + 40)⟩ : Inode) = n := by
  have len : o + 4 * n.words.length ≤ 4096 := by rw [n.words_length]; omega
  have at_ (i : Nat) (w : Word) (hw : n.words[i]? = some w) :
      (b.setWords o n.words).word (o + 4 * i) = w := Buf.word_setWords b hw len
  have hs : (b.setWords o n.words).word o = n.size := at_ 0 _ rfl
  have hm : (b.setWords o n.words).word (o + 4) = n.mode := at_ 1 _ rfl
  have hi : (b.setWords o n.words).word (o + 40) = n.indirect := at_ 10 _ rfl
  have hd (k : Fin 8) : (b.setWords o n.words).word (o + (8 + 4 * k.val)) = n.direct k := by
    rw [show o + (8 + 4 * k.val) = o + 4 * (2 + k.val) by omega]
    apply at_
    rw [Inode.words, Nat.add_comm 2, List.getElem?_cons_succ, List.getElem?_cons_succ,
      List.getElem?_append_left (by simp), List.getElem?_ofFn, dif_pos k.isLt]
  rw [hs, hm, hi, funext hd]

theorem inodeWrite_disk {i : Nat} (h : i < 64) (v : Dev) (n : Inode) :
    (inodeWrite v i n).disk 4 = (v.disk 4).setWords (i * 44) n.words := by
  obtain ⟨hb, ho⟩ := inode_place h
  rw [inodeWrite, hb, ho, readBlock_lt (by decide), Dev.write_disk_self (by decide)]

theorem inodeWrite_writes {i : Nat} (v : Dev) (n : Inode) : v.Writes (inodeWrite v i n) :=
  .single v _ (by unfold inodeBlock; omega)

theorem inodeWrite_disk_ne {i c : Nat} (h : i < 64) (hc : c < 254) (h4 : c ≠ 4) (v : Dev) (n : Inode) :
    (inodeWrite v i n).disk c = v.disk c := by
  rw [inodeWrite, (inode_place h).1, Dev.write_disk_ne h4 hc]

theorem inodeRead_inodeWrite {i j : Nat} (hi : i < 64) (hj : j < 64) (v : Dev) (n : Inode) :
    inodeRead (inodeWrite v i n).disk j = if j = i then n else inodeRead v.disk j := by
  rw [inodeRead_eq hj, inodeWrite_disk hi]
  by_cases hji : j = i
  · rw [hji, words_load _ (by omega), if_pos rfl]
  · have off (o : Nat) (ho : o ≤ 40) :
        ((v.disk 4).setWords (i * 44) n.words).word (j * 44 + o) = (v.disk 4).word (j * 44 + o) := by
      apply Buf.word_setWords_ne
      rw [n.words_length]
      omega
    have hd : (fun k : Fin 8 => ((v.disk 4).setWords (i * 44) n.words).word (j * 44 + (8 + 4 * k.val))) =
        fun k => (v.disk 4).word (j * 44 + (8 + 4 * k.val)) :=
      funext fun k => off _ (by omega)
    have h0 := off 0 (by omega)
    rw [Nat.add_zero] at h0
    rw [if_neg hji, inodeRead_eq hj, h0, off 4 (by omega), off 40 (by omega), hd]

theorem data_congr {d e : Disk} (h : ∀ b, IsData b → d b = e b) : (view d).data = (view e).data := by
  funext b
  by_cases hb : IsData b
  · rw [← view_data hb, ← view_data hb, h b hb]
  · simp [view, hb]

theorem view_inodeWrite {i : Nat} (h : i < 64) (v : Dev) (n : Inode) :
    view (inodeWrite v i n).disk = (view v.disk).setInode i n := by
  have other (c : Nat) (hc : c < 254) (h4 : c ≠ 4) := inodeWrite_disk_ne h hc h4 v n
  apply View.ext
  · simp only [view, View.setInode, other 2 (by decide) (by decide)]
  · simp only [view, View.setInode, other 3 (by decide) (by decide)]
  · funext j
    by_cases hj : j < 64
    · rw [← view_inode hj, inodeRead_inodeWrite h hj, View.setInode_inode, Function.update_apply,
        view_inode hj]
    · have hji : j ≠ i := by omega
      rw [View.setInode_inode, Function.update_of_ne hji]
      simp [view, hj]
  · exact data_congr fun b hb => other b hb.lt (by unfold IsData at hb; omega)

/-! ## Bitmaps and data blocks -/

theorem inode_congr {d e : Disk} (h : d 4 = e 4) : (view d).inode = (view e).inode := by
  funext i
  by_cases hi : i < 64
  · rw [← view_inode hi, ← view_inode hi, inodeRead_congr hi h]
  · simp [view, hi]

theorem view_write {b : Nat} (h : IsData b) (v : Dev) (blk : Block) :
    view (v.write b blk).2.disk = (view v.disk).setData b blk := by
  have other (c : Nat) (hc : c < 254) (hne : c ≠ b) := Dev.write_disk_ne hne hc v blk
  have hb : b ≠ 2 ∧ b ≠ 3 ∧ b ≠ 4 := by unfold IsData at h; omega
  apply View.ext
  · simp only [view, View.setData, other 2 (by decide) hb.1.symm]
  · simp only [view, View.setData, other 3 (by decide) hb.2.1.symm]
  · exact inode_congr (other 4 (by decide) hb.2.2.symm)
  · funext c
    rw [View.setData_data]
    by_cases hc : c = b
    · rw [hc, Function.update_self, ← view_data h, Dev.write_disk_self h.accepted]
    · rw [Function.update_of_ne hc]
      by_cases hd : IsData c
      · rw [← view_data hd, ← view_data hd, other c hd.lt hc]
      · simp [view, hd]

theorem bitmapSet_writes {block : Nat} (h : block ≠ 0) (v : Dev) (bit : Nat) (x : Bool) :
    v.Writes (bitmapSet v block bit x) := .single v _ h

theorem view_bitmapSet_block {b : Nat} (h : b < 256) (v : Dev) (x : Bool) :
    view (bitmapSet v 2 b x).disk = (view v.disk).setBbit b x := by
  have other (c : Nat) (hc : c < 254) (hne : c ≠ 2) : (bitmapSet v 2 b x).disk c = v.disk c :=
    Dev.write_disk_ne hne hc v _
  apply View.ext
  · funext c
    simp only [view, View.setBbit]
    rw [bitmapSet, Dev.write_disk_self (by decide), Buf.bit_setBit _ _ _ _ (by omega),
      readBlock_lt (by decide), Function.update_apply]
  · simp only [view, View.setBbit, other 3 (by decide) (by decide)]
  · exact inode_congr (other 4 (by decide) (by decide))
  · exact data_congr fun c hc => other c hc.lt (by unfold IsData at hc; omega)

theorem view_bitmapSet_inode {i : Nat} (h : i < 64) (v : Dev) (x : Bool) :
    view (bitmapSet v 3 i x).disk = (view v.disk).setIbit i x := by
  have other (c : Nat) (hc : c < 254) (hne : c ≠ 3) : (bitmapSet v 3 i x).disk c = v.disk c :=
    Dev.write_disk_ne hne hc v _
  apply View.ext
  · simp only [view, View.setIbit, other 2 (by decide) (by decide)]
  · funext c
    simp only [view, View.setIbit]
    rw [bitmapSet, Dev.write_disk_self (by decide), Buf.bit_setBit _ _ _ _ (by omega),
      readBlock_lt (by decide), Function.update_apply]
  · exact inode_congr (other 4 (by decide) (by decide))
  · exact data_congr fun c hc => other c hc.lt (by unfold IsData at hc; omega)

end SengOS
