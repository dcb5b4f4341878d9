import SengOS.Fs.Alloc

/-!
# File contents

The byte of a file at a position, as the read path finds it, and the frame of
an operation on one file: what every other file and directory keeps.
-/

namespace SengOS

/-- Byte `p` of inode `ino`, through `block_for_inode(.., 0)`. A position
without a block counts as 0. -/
def fileByte (d : Disk) (ino p : Nat) : Byte :=
  let b := (blockForInode ⟨d, []⟩ (inodeRead d ino) (p / 4096) false).1
  if b ≤ 0 then 0#8 else (readBlock d b.toNat).get (p % 4096)

/-- The slot for logical block `l`. -/
def Slot.ofLogical (l : Nat) : Option Slot :=
  if h : l < 8 then some (.direct ⟨l, h⟩)
  else if h : l - 8 < 1024 then some (.entry ⟨l - 8, h⟩)
  else none

theorem Slot.ofLogical_inj {l m : Nat} {s : Slot} (hl : Slot.ofLogical l = some s)
    (hm : Slot.ofLogical m = some s) : l = m := by
  unfold Slot.ofLogical at hl hm
  split at hl
  · split at hm
    · simp only [Option.some.injEq] at hl hm
      subst hl
      simpa using hm.symm
    · split at hm
      · simp only [Option.some.injEq] at hl hm
        subst hl
        cases hm
      · cases hm
  · split at hl
    · split at hm
      · simp only [Option.some.injEq] at hl hm
        subst hl
        cases hm
      · split at hm
        · simp only [Option.some.injEq] at hl hm
          subst hl
          simp only [Slot.entry.injEq, Fin.mk.injEq] at hm
          omega
        · cases hm
    · cases hl

theorem Slot.ofLogical_ne_indirect {l : Nat} : Slot.ofLogical l ≠ some .indirect := by
  unfold Slot.ofLogical
  split
  · simp
  · split <;> simp

namespace View

variable (v : View)

def byteAt (i p : Nat) : Byte :=
  match Slot.ofLogical (p / 4096) with
  | none => 0#8
  | some s => if v.ptr i s = 0 then 0#8 else (v.data (v.ptr i s)).get (p % 4096)

end View

/-! ## Reading a pointer -/

theorem toInt_of_lt {w : Word} (h : w.toNat < 256) : w.toInt = w.toNat :=
  BitVec.toInt_eq_toNat_of_lt (by omega)

/-- The slot's pointer is below 256 for every slot: no pointer of the inode is wild. -/
def Inode.Tame (n : Inode) (data : Nat → Block) : Prop := ∀ s, n.ptr data s ≠ 0 → IsData (n.ptr data s)

theorem BlockInv.tame {v : View} (h : BlockInv v) {i : Nat} (hl : v.live i) : (v.inode i).Tame v.data :=
  fun _ hs => h.ptr_data hl hs

theorem BlockInv.tame_read {d : Disk} (h : BlockInv (view d)) {i : Nat} (hl : (view d).live i) :
    (inodeRead d i).Tame (view d).data := by
  rw [view_inode hl.1]
  exact h.tame hl

theorem mode_of_isFile {d : Disk} {i : Nat} (h : (view d).isFile i) :
    (inodeRead d i).mode = inodeFile := by
  rw [view_inode h.1.1]
  exact h.2

theorem Inode.Tame.lt {n : Inode} {data : Nat → Block} (h : n.Tame data) (s : Slot) :
    n.ptr data s < 256 := by
  by_cases hz : n.ptr data s = 0
  · omega
  · have := (h s hz).lt
    omega

theorem Inode.Tame.indirect {n : Inode} {data : Nat → Block} (h : n.Tame data)
    (hz : n.indirect ≠ 0#32) : IsData n.indirect.toNat := by
  refine h .indirect ?_
  intro e
  exact hz (BitVec.eq_of_toNat_eq (by simpa [Inode.ptr] using e))

/-- Without `allocate` the call changes nothing and returns the pointer. -/
theorem blockForInode_read {v : Dev} {n : Inode} (h : n.Tame (view v.disk).data) (l : Nat) :
    blockForInode v n l false =
      ((match Slot.ofLogical l with
        | none => -1
        | some s => (n.ptr (view v.disk).data s : Int)), n, v) := by
  unfold blockForInode Slot.ofLogical
  by_cases h8 : l < 8
  · simp only [h8, ↓reduceDIte, Bool.false_eq_true, and_false, ↓reduceIte]
    rw [toInt_of_lt (h.lt (.direct ⟨l, h8⟩))]
    rfl
  · by_cases h1024 : l - 8 < 1024
    · have hle : ¬ 1024 ≤ l - 8 := by omega
      simp only [h8, ↓reduceDIte, hle, ↓reduceIte, h1024, Bool.false_eq_true]
      by_cases hz : n.indirect = 0#32
      · simp [hz, Inode.ptr]
      · have hptr : n.ptr (view v.disk).data (.entry ⟨l - 8, h1024⟩) =
            ((view v.disk).data n.indirect.toNat |>.word (4 * (l - 8))).toNat := by
          simp [Inode.ptr, hz]
        have hlt := h.lt (.entry ⟨l - 8, h1024⟩)
        rw [hptr] at hlt
        simp only [hz, ↓reduceIte, indirectEntry, Bool.false_eq_true, and_false]
        rw [readBlock_data (h.indirect hz), toInt_of_lt hlt, hptr]
    · have hle : 1024 ≤ l - 8 := by omega
      simp [h8, hle, h1024]

theorem fileByte_eq {d : Disk} (h : BlockInv (view d)) {i : Nat} (hl : (view d).live i) (p : Nat) :
    fileByte d i p = (view d).byteAt i p := by
  have ht := h.tame_read hl
  unfold fileByte View.byteAt
  rw [blockForInode_read (v := ⟨d, []⟩) ht, view_inode hl.1]
  cases hs : Slot.ofLogical (p / 4096) with
  | none => rfl
  | some s =>
    change (if ((view d).ptr i s : Int) ≤ 0 then _ else _) = _
    by_cases hz : (view d).ptr i s = 0
    · simp [hz]
    · have hpos : ¬ ((view d).ptr i s : Int) ≤ 0 := by omega
      simp only [hpos, hz, ↓reduceIte]
      rw [← readBlock_data (h.ptr_data hl hz)]
      rfl

/-! ## One inode in two views -/

/-- Inode `i` and the blocks it holds are the same. -/
structure View.Agrees (u v : View) (i : Nat) : Prop where
  inode : v.inode i = u.inode i
  data : ∀ s, u.ptr i s ≠ 0 → v.data (u.ptr i s) = u.data (u.ptr i s)

namespace View.Agrees

variable {u v : View} {i : Nat}

theorem ptr (h : u.Agrees v i) (s : Slot) : v.ptr i s = u.ptr i s := by
  unfold View.ptr
  rw [h.inode]
  cases s with
  | direct k => rfl
  | indirect => rfl
  | entry k =>
    simp only [Inode.ptr]
    by_cases hz : (u.inode i).indirect = 0#32
    · simp [hz]
    · have hne : u.ptr i .indirect ≠ 0 := fun e => hz (BitVec.eq_of_toNat_eq e)
      have hd : v.data (u.inode i).indirect.toNat = u.data (u.inode i).indirect.toNat :=
        h.data .indirect hne
      simp only [hd]

theorem byteAt (h : u.Agrees v i) (p : Nat) : v.byteAt i p = u.byteAt i p := by
  unfold View.byteAt
  cases Slot.ofLogical (p / 4096) with
  | none => rfl
  | some s =>
    simp only [h.ptr s]
    split
    · rfl
    · rename_i hz
      rw [h.data s hz]

theorem entry (h : u.Agrees v i) (hb : u.dirBlock i ≠ 0) (s : Nat) : v.entry i s = u.entry i s := by
  have hp : v.dirBlock i = u.dirBlock i := h.ptr (.direct 0)
  unfold View.entry
  rw [hp]
  exact congrArg (dirent · s) (h.data (.direct 0) hb)

end View.Agrees

/-! ## Frames -/

/-- Everything but file `ino` is as before. -/
structure View.Frame (ino : Nat) (v v' : View) : Prop where
  ibit : v'.ibit = v.ibit
  inode : ∀ j, j ≠ ino → v'.inode j = v.inode j
  mode : (v'.inode ino).mode = (v.inode ino).mode
  data : ∀ j s, v.live j → j ≠ ino → v.ptr j s ≠ 0 → v'.data (v.ptr j s) = v.data (v.ptr j s)

namespace View.Frame

variable {ino : Nat} {u v w : View}

theorem refl (ino : Nat) (v : View) : v.Frame ino v := ⟨rfl, fun _ _ => rfl, rfl, fun _ _ _ _ _ => rfl⟩

theorem live (h : u.Frame ino v) (i : Nat) : v.live i ↔ u.live i := by
  rw [View.live, View.live, h.ibit]

theorem agrees (h : u.Frame ino v) {j : Nat} (hl : u.live j) (hj : j ≠ ino) : u.Agrees v j :=
  ⟨h.inode j hj, fun s hs => h.data j s hl hj hs⟩

theorem ptr (h : u.Frame ino v) {j : Nat} (hl : u.live j) (hj : j ≠ ino) (s : Slot) :
    v.ptr j s = u.ptr j s := (h.agrees hl hj).ptr s

theorem trans (h : u.Frame ino v) (h' : v.Frame ino w) : u.Frame ino w := by
  refine ⟨h'.ibit.trans h.ibit, fun j hj => (h'.inode j hj).trans (h.inode j hj),
    h'.mode.trans h.mode, fun j s hl hj hs => ?_⟩
  have hp := h.ptr hl hj s
  have := h'.data j s ((h.live j).mpr hl) hj (by rw [hp]; exact hs)
  rw [hp] at this
  rw [this, h.data j s hl hj hs]

theorem byteAt (h : u.Frame ino v) {j : Nat} (hl : u.live j) (hj : j ≠ ino) (p : Nat) :
    v.byteAt j p = u.byteAt j p := (h.agrees hl hj).byteAt p

theorem isDir (h : u.Frame ino v) (i : Nat) : v.isDir i ↔ u.isDir i := by
  unfold View.isDir
  rw [h.live i]
  by_cases hi : i = ino
  · rw [hi, h.mode]
  · rw [h.inode i hi]

theorem isFile (h : u.Frame ino v) (i : Nat) : v.isFile i ↔ u.isFile i := by
  unfold View.isFile
  rw [h.live i]
  by_cases hi : i = ino
  · rw [hi, h.mode]
  · rw [h.inode i hi]

theorem entry (h : u.Frame ino v) (hu : BlockInv u) {j : Nat} (hd : u.isDir j) (hj : j ≠ ino) (s : Nat) :
    v.entry j s = u.entry j s := (h.agrees hd.1 hj).entry (hu.shape j hd).1 s

end View.Frame

end SengOS
