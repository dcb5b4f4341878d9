import SengOS.Lib.Ownership
import SengOS.Lib.DirTree
import SengOS.Fs.Dirents

/-!
# The ownership invariant

Pointers, directory entries and the two bitmaps of a view, and the invariant
`FsInv` that ties them together: the pool of blocks is owned exactly and the
directories form a tree of the live inodes.
-/

namespace SengOS

/-- A place of an inode that can hold a block pointer. -/
inductive Slot where
  | direct (k : Fin 8)
  | indirect
  | entry (j : Fin 1024)
  deriving DecidableEq

def Inode.ptr (n : Inode) (data : Nat → Block) : Slot → Nat
  | .direct k => (n.direct k).toNat
  | .indirect => n.indirect.toNat
  | .entry j => if n.indirect = 0#32 then 0 else ((data n.indirect.toNat).word (4 * j.val)).toNat

namespace View

variable (v : View)

/-- An inode whose bit is set. -/
def live (i : Nat) : Prop := i < 64 ∧ v.ibit i = true

def ptr (i : Nat) : Slot → Nat := (v.inode i).ptr v.data

def isDir (i : Nat) : Prop := v.live i ∧ (v.inode i).mode = inodeDir

def isFile (i : Nat) : Prop := v.live i ∧ (v.inode i).mode = inodeFile

def dirBlock (i : Nat) : Nat := ((v.inode i).direct 0).toNat

/-- Entry `s` of directory `i`. -/
def entry (i s : Nat) : Option (List Byte × Nat) := dirent (v.data (v.dirBlock i)) s

/-- The pool is `[6, 254)`; the root directory lives in block 1 outside it. -/
abbrev Owned : Prop :=
  Ownership v.live v.ptr (v.bbit · = true) 6 254 fun i s b => i = 0 ∧ s = .direct 0 ∧ b = 1

abbrev Tree : Prop := DirTree 0 128 v.isDir v.entry dotName dotdotName v.live

end View

/-- Every block of the pool is held by exactly one pointer of a live inode or is
free, and a live inode is a file or a directory of one block. -/
structure BlockInv (v : View) : Prop where
  own : v.Owned
  mode : ∀ i, v.live i → v.isFile i ∨ v.isDir i
  shape : ∀ i, v.isDir i → v.dirBlock i ≠ 0 ∧ ∀ s, s ≠ .direct 0 → v.ptr i s = 0
  root_dir : v.isDir 0
  root : v.dirBlock 0 = 1

/-- The directories form a tree of the live inodes on top of that. -/
structure FsInv (v : View) : Prop extends BlockInv v where
  root_bit : v.bbit 1 = true
  tree : v.Tree
  name : ∀ i s x j, v.isDir i → s < 128 → v.entry i s = some (x, j) → GoodName x

namespace BlockInv

variable {v : View}

/-- Pointers lead to data blocks. -/
theorem ptr_data (h : BlockInv v) {i : Nat} (hl : v.live i) {s : Slot} (hs : v.ptr i s ≠ 0) :
    IsData (v.ptr i s) := by
  rcases h.own.range i s hl hs with hr | ⟨-, -, hr⟩
  · exact Or.inr hr
  · exact Or.inl hr

theorem dirBlock_data (h : BlockInv v) {i : Nat} (hd : v.isDir i) : IsData (v.dirBlock i) :=
  h.ptr_data hd.1 (s := .direct 0) (h.shape i hd).1

/-- Two directories never share a block. -/
theorem dirBlock_inj (h : BlockInv v) {i j : Nat} (hi : v.isDir i) (hj : v.isDir j)
    (e : v.dirBlock i = v.dirBlock j) : i = j :=
  (h.own.inj i (.direct 0) j (.direct 0) hi.1 hj.1 (h.shape i hi).1 e).1

/-- Only the root leaves the pool. -/
theorem ptr_range (h : BlockInv v) {i : Nat} (hl : v.live i) {s : Slot} (hs : v.ptr i s ≠ 0)
    (hne : i ≠ 0 ∨ s ≠ .direct 0) : 6 ≤ v.ptr i s ∧ v.ptr i s < 254 := by
  rcases h.own.range i s hl hs with hr | ⟨h0, h1, -⟩
  · exact hr
  · exact absurd h1 (hne.resolve_left (fun h => h h0))

theorem file_not_dir (_h : BlockInv v) {i : Nat} (hf : v.isFile i) : ¬ v.isDir i := by
  rintro ⟨-, hd⟩
  have := hf.2.symm.trans hd
  exact absurd this (by decide)

theorem file_ne_root (h : BlockInv v) {i : Nat} (hf : v.isFile i) : i ≠ 0 := by
  rintro rfl
  exact h.file_not_dir hf h.root_dir

theorem file_ptr_range (h : BlockInv v) {i : Nat} (hf : v.isFile i) {s : Slot} (hs : v.ptr i s ≠ 0) :
    6 ≤ v.ptr i s ∧ v.ptr i s < 254 :=
  h.ptr_range hf.1 hs (Or.inl (h.file_ne_root hf))

end BlockInv

/-- Entries of a directory name live inodes. -/
theorem FsInv.entry_live {v : View} (h : FsInv v) {i s j : Nat} {x : List Byte} (hd : v.isDir i)
    (hs : s < 128) (he : v.entry i s = some (x, j)) : v.live j := h.tree.entry_live hd hs he

/-! ## Views that differ only in what nobody owns -/

/-- Blocks whose bytes carry structure: directories and pointer blocks of live inodes. -/
def View.structural (v : View) (b : Nat) : Prop :=
  (∃ i, v.isDir i ∧ v.dirBlock i = b) ∨
    (∃ i, v.live i ∧ (v.inode i).indirect ≠ 0#32 ∧ (v.inode i).indirect.toNat = b)

/-- The same live inodes with the same structure. -/
structure View.Same (v v' : View) : Prop where
  bbit : ∀ b, v'.bbit b = v.bbit b
  live : ∀ i, v'.live i ↔ v.live i
  mode : ∀ i, v.live i → (v'.inode i).mode = (v.inode i).mode
  direct : ∀ i, v.live i → (v'.inode i).direct = (v.inode i).direct
  indirect : ∀ i, v.live i → (v'.inode i).indirect = (v.inode i).indirect
  data : ∀ b, v.structural b → v'.data b = v.data b

namespace View.Same

variable {v v' : View}

theorem refl (v : View) : v.Same v :=
  ⟨fun _ => rfl, fun _ => .rfl, fun _ _ => rfl, fun _ _ => rfl, fun _ _ => rfl, fun _ _ => rfl⟩

theorem ptr (h : v.Same v') {i : Nat} (hl : v.live i) (s : Slot) : v'.ptr i s = v.ptr i s := by
  unfold View.ptr
  cases s with
  | direct k => simp only [Inode.ptr, h.direct i hl]
  | indirect => simp only [Inode.ptr, h.indirect i hl]
  | entry j =>
    simp only [Inode.ptr, h.indirect i hl]
    by_cases hz : (v.inode i).indirect = 0#32
    · simp [hz]
    · rw [h.data _ (Or.inr ⟨i, hl, hz, rfl⟩)]

theorem isDir (h : v.Same v') (i : Nat) : v'.isDir i ↔ v.isDir i := by
  unfold View.isDir
  constructor
  · rintro ⟨hl, hm⟩
    have hl' := (h.live i).mp hl
    exact ⟨hl', (h.mode i hl') ▸ hm⟩
  · rintro ⟨hl, hm⟩
    exact ⟨(h.live i).mpr hl, (h.mode i hl).trans hm⟩

theorem isFile (h : v.Same v') (i : Nat) : v'.isFile i ↔ v.isFile i := by
  unfold View.isFile
  constructor
  · rintro ⟨hl, hm⟩
    have hl' := (h.live i).mp hl
    exact ⟨hl', (h.mode i hl') ▸ hm⟩
  · rintro ⟨hl, hm⟩
    exact ⟨(h.live i).mpr hl, (h.mode i hl).trans hm⟩

theorem dirBlock (h : v.Same v') {i : Nat} (hl : v.live i) : v'.dirBlock i = v.dirBlock i := by
  rw [View.dirBlock, View.dirBlock, h.direct i hl]

theorem entry (h : v.Same v') {i : Nat} (hd : v.isDir i) (s : Nat) : v'.entry i s = v.entry i s := by
  rw [View.entry, View.entry, h.dirBlock hd.1, h.data _ (Or.inl ⟨i, hd, rfl⟩)]

theorem blocks (h : v.Same v') (hv : BlockInv v) : BlockInv v' := by
  constructor
  · refine hv.own.congr ?_ ?_ (by decide) ?_
    · intro i s hl _
      have hl' := (h.live i).mp hl
      exact ⟨hl', h.ptr hl' s⟩
    · intro i s hl _
      exact ⟨(h.live i).mpr hl, h.ptr hl s⟩
    · intro b _ _
      rw [h.bbit b]
  · intro i hl
    exact (hv.mode i ((h.live i).mp hl)).imp (h.isFile i).mpr (h.isDir i).mpr
  · intro i hd
    have hd' := (h.isDir i).mp hd
    obtain ⟨h1, h2⟩ := hv.shape i hd'
    refine ⟨by rw [h.dirBlock hd'.1]; exact h1, fun s hs => ?_⟩
    rw [h.ptr hd'.1, h2 s hs]
  · exact (h.isDir 0).mpr hv.root_dir
  · rw [h.dirBlock hv.root_dir.1]
    exact hv.root

theorem inv (h : v.Same v') (hv : FsInv v) : FsInv v' := by
  refine ⟨h.blocks hv.toBlockInv, (h.bbit 1).trans hv.root_bit, ?_, ?_⟩
  · exact hv.tree.congr (by decide) h.live h.isDir fun d s hd _ => h.entry hd s
  · intro i s x j hd hs he
    have hd' := (h.isDir i).mp hd
    rw [h.entry hd'] at he
    exact hv.name i s x j hd' hs he

end View.Same

/-! ## Lookups on a disk -/

/-- What `dir_find` sees of a directory, in any state of the rest of the disk. -/
theorem dirFind_block {d : Disk} {i : Nat} (hi : i < 64) (hm : ((view d).inode i).mode = inodeDir)
    (hb : IsData ((view d).dirBlock i)) (x : List Byte) :
    dirFind d i x = direntFind ((view d).data ((view d).dirBlock i)) x := by
  have hne : ((view d).inode i).direct 0 ≠ 0#32 := by
    intro e
    rw [View.dirBlock, e] at hb
    exact absurd hb (by decide)
  have hlt : ((view d).dirBlock i) < 256 := by have := hb.lt; omega
  rw [dirFind, view_inode hi]
  simp only [hm, hne, ne_eq, not_true_eq_false, or_self, ↓reduceIte]
  change direntFind (ramdiskReadBlock d ((view d).dirBlock i) _) x = _
  rw [ramdiskReadBlock, if_pos hlt, view_data hb d]

theorem dirFind_dir {d : Disk} (h : BlockInv (view d)) {i : Nat} (hd : (view d).isDir i)
    (x : List Byte) : dirFind d i x = direntFind ((view d).data ((view d).dirBlock i)) x :=
  dirFind_block hd.1.1 hd.2 (h.dirBlock_data hd) x

theorem dirFind_not_dir {d : Disk} {i : Nat} (hl : (view d).live i) (hd : ¬ (view d).isDir i)
    (x : List Byte) : dirFind d i x = none := by
  rw [dirFind, view_inode hl.1, if_pos]
  exact Or.inl fun hm => hd ⟨hl, hm⟩

theorem dirFind_some {d : Disk} (h : FsInv (view d)) {i : Nat} (hl : (view d).live i) {x : List Byte}
    (hx : GoodName x) {s : Nat} {w : Word} (hf : dirFind d i x = some (s, w)) :
    (view d).isDir i ∧ s < 128 ∧ (view d).entry i s = some (x, w.toNat) := by
  by_cases hd : (view d).isDir i
  · rw [dirFind_dir h.toBlockInv hd] at hf
    obtain ⟨hs, he, -⟩ := direntFind_some hx hf
    exact ⟨hd, hs, he⟩
  · rw [dirFind_not_dir hl hd] at hf
    cases hf

theorem dirFind_none {d : Disk} (h : FsInv (view d)) {i : Nat} (hd : (view d).isDir i) {x : List Byte}
    (hx : GoodName x) : dirFind d i x = none ↔ ∀ s j, s < 128 → (view d).entry i s ≠ some (x, j) := by
  rw [dirFind_dir h.toBlockInv hd, direntFind_none hx]
  rfl

/-- A lookup in a live inode finds exactly the entries of a directory. -/
theorem lookup_iff {d : Disk} (h : FsInv (view d)) {i : Nat} (hl : (view d).live i) {x : List Byte}
    (hx : GoodName x) {j : Nat} :
    lookup d i x = some j ↔ (view d).isDir i ∧ ∃ s, s < 128 ∧ (view d).entry i s = some (x, j) := by
  unfold lookup
  constructor
  · intro hj
    rw [Option.map_eq_some_iff] at hj
    obtain ⟨⟨s, w⟩, hf, rfl⟩ := hj
    obtain ⟨hd, hs, he⟩ := dirFind_some h hl hx hf
    exact ⟨hd, s, hs, he⟩
  · rintro ⟨hd, s, hs, he⟩
    cases hf : dirFind d i x with
    | none => exact absurd he ((dirFind_none h hd hx).mp hf s j hs)
    | some r =>
      obtain ⟨t, w⟩ := r
      obtain ⟨-, ht, he'⟩ := dirFind_some h hl hx hf
      have hst := h.tree.names i s t x j w.toNat hd hs ht he he'
      subst hst
      rw [he] at he'
      cases he'
      rfl

theorem lookup_live {d : Disk} (h : FsInv (view d)) {i : Nat} (hl : (view d).live i) {x : List Byte}
    (hx : GoodName x) {j : Nat} (hj : lookup d i x = some j) : (view d).live j := by
  obtain ⟨hd, s, hs, he⟩ := (lookup_iff h hl hx).mp hj
  exact h.entry_live hd hs he

end SengOS
