import SengOS.Fs.Safety

/-!
# Creating an inode

`create_inode` takes an inode and a block, fills both, and names the inode in
its parent last. Until that last write nothing the root reaches has changed,
and a failed call leaves only marks that it takes back.
-/

namespace SengOS

/-! ## `dir_add` -/

section
variable {v : Dev} {p : Nat} {x : List Byte} (w : Word)

/-- The entry goes into a free slot, or the name or the lack of a slot forbids it. -/
theorem dirAdd_dir (hp : p < 64) (hm : ((view v.disk).inode p).mode = inodeDir)
    (hb : IsData ((view v.disk).dirBlock p)) (hx : GoodName x) :
    (dirAdd v p x w = (-1, v) ∧ ((∃ s j, s < 128 ∧ (view v.disk).entry p s = some (x, j)) ∨
      ∀ s, s < 128 → (view v.disk).entry p s ≠ none)) ∨
    ∃ slot, slot < 128 ∧ (view v.disk).entry p slot = none ∧
      (∀ s j, s < 128 → (view v.disk).entry p s ≠ some (x, j)) ∧
      dirAdd v p x w = (0, (v.write ((view v.disk).dirBlock p)
        (direntStore ((view v.disk).data ((view v.disk).dirBlock p)) slot x w)).2) := by
  have hne : ((view v.disk).inode p).direct 0 ≠ 0#32 := by
    intro e
    rw [View.dirBlock, e] at hb
    exact absurd hb (by decide)
  have hname : ¬ (x = [] ∨ x.length > 27) := by
    have := hx.length
    exact not_or.mpr ⟨hx.ne_nil, by omega⟩
  have hfind := dirFind_block hp hm hb x
  have hread : readBlock v.disk (((view v.disk).inode p).direct 0).toNat =
      (view v.disk).data ((view v.disk).dirBlock p) := readBlock_data hb _
  unfold dirAdd
  rw [if_neg hname, view_inode hp, hfind]
  simp only [hm, hne, ne_eq, not_true_eq_false, or_self, ↓reduceIte, hread]
  cases hf : direntFind ((view v.disk).data ((view v.disk).dirBlock p)) x with
  | some r =>
    obtain ⟨s, j⟩ := r
    obtain ⟨hs, he, -⟩ := direntFind_some hx hf
    exact Or.inl ⟨by simp, Or.inl ⟨s, _, hs, he⟩⟩
  | none =>
    have absent := (direntFind_none hx).mp hf
    simp only [Option.isSome_none, Bool.false_eq_true, ↓reduceIte]
    cases hs : (List.range 128).find? (fun i =>
        direntInode ((view v.disk).data ((view v.disk).dirBlock p)) i = invalidInode) with
    | none => exact Or.inl ⟨rfl, Or.inr (freeSlot_none.mp hs)⟩
    | some slot =>
      obtain ⟨hlt, free⟩ := freeSlot_some hs
      refine Or.inr ⟨slot, hlt, free, absent, ?_⟩
      exact Prod.ext (Dev.write_rc hb.accepted v _) rfl

theorem dirAdd_not_dir (hp : p < 64) (hm : ((view v.disk).inode p).mode ≠ inodeDir) :
    dirAdd v p x w = (-1, v) := by
  unfold dirAdd
  split
  · rfl
  · rw [view_inode hp]
    simp [hm]

/-- A failed `dir_add` writes nothing. -/
theorem dirAdd_failed (h : (dirAdd v p x w).1 < 0) : (dirAdd v p x w).2 = v := by
  have stored (b : Nat) (blk : Block) (hw : (v.write b blk).1 < 0) : (v.write b blk).2 = v := by
    apply Dev.write_rejected
    intro ha
    rw [Dev.write_rc ha] at hw
    exact absurd hw (by decide)
  revert h
  unfold dirAdd
  dsimp only
  split
  · exact fun _ => rfl
  · split
    · exact fun _ => rfl
    · split
      · exact fun _ => rfl
      · split
        · exact stored _ _
        · exact fun _ => rfl

end

/-! ## The new object -/

def newInode (mode : Word) (b : Nat) : Inode :=
  { Inode.zero with mode := mode, direct := Function.update (fun _ => 0#32) 0 (BitVec.ofNat 32 b) }

def newBlock (mode : Word) (ino parent : Nat) : Block :=
  if mode = inodeDir then dotDirents (BitVec.ofNat 32 ino) (BitVec.ofNat 32 parent) else freeDirents

/-- `v` is `u` with a new object in block `b`, named in slot `slot` of `parent`. -/
structure View.Created (u v : View) (parent slot ino b : Nat) (name : List Byte) (mode : Word) :
    Prop where
  good : GoodName name
  ino_lt : ino < 64
  ino_free : u.ibit ino = false
  ge : 6 ≤ b
  lt : b < 254
  free : u.bbit b = false
  parent_dir : u.isDir parent
  slot_lt : slot < 128
  slot_free : u.entry parent slot = none
  absent : ∀ s j, s < 128 → u.entry parent s ≠ some (name, j)
  ibit : v.ibit = Function.update u.ibit ino true
  bbit : v.bbit = Function.update u.bbit b true
  inode : v.inode = Function.update u.inode ino (newInode mode b)
  data : v.data = Function.update (Function.update u.data b (newBlock mode ino parent))
    (u.dirBlock parent) (direntStore (u.data (u.dirBlock parent)) slot name (BitVec.ofNat 32 ino))

theorem toNat_ofNat_word {i : Nat} (h : i < 64) : (BitVec.ofNat 32 i).toNat = i := by
  rw [BitVec.toNat_ofNat]
  omega

theorem ofNat_ne_invalid {i : Nat} (h : i < 64) : BitVec.ofNat 32 i ≠ invalidInode := by
  intro e
  have := congrArg BitVec.toNat e
  rw [toNat_ofNat_word h] at this
  simp [invalidInode] at this
  omega

namespace View.Created

variable {u v : View} {parent slot ino b : Nat} {name : List Byte} {mode : Word}

theorem not_live (c : u.Created v parent slot ino b name mode) : ¬ u.live ino := by
  rintro ⟨-, h⟩
  rw [c.ino_free] at h
  cases h

theorem live (c : u.Created v parent slot ino b name mode) (i : Nat) :
    v.live i ↔ u.live i ∨ i = ino := by
  unfold View.live
  rw [c.ibit, Function.update_apply]
  by_cases hi : i = ino
  · simp [hi, c.ino_lt]
  · simp [hi]

theorem ne_ino (c : u.Created v parent slot ino b name mode) {i : Nat} (hl : u.live i) : i ≠ ino := by
  rintro rfl
  exact c.not_live hl

theorem inode_old (c : u.Created v parent slot ino b name mode) {i : Nat} (hl : u.live i) :
    v.inode i = u.inode i := by
  rw [c.inode, Function.update_of_ne (c.ne_ino hl)]

theorem inode_new (c : u.Created v parent slot ino b name mode) : v.inode ino = newInode mode b := by
  rw [c.inode, Function.update_self]

theorem isDir (c : u.Created v parent slot ino b name mode) (i : Nat) :
    v.isDir i ↔ u.isDir i ∨ (i = ino ∧ mode = inodeDir) := by
  unfold View.isDir
  rw [c.live i]
  by_cases hi : i = ino
  · subst hi
    simp [c.not_live, c.inode_new, newInode]
  · rw [c.inode, Function.update_of_ne hi]
    simp [hi]

theorem isFile (c : u.Created v parent slot ino b name mode) (i : Nat) :
    v.isFile i ↔ u.isFile i ∨ (i = ino ∧ mode = inodeFile) := by
  unfold View.isFile
  rw [c.live i]
  by_cases hi : i = ino
  · subst hi
    simp [c.not_live, c.inode_new, newInode]
  · rw [c.inode, Function.update_of_ne hi]
    simp [hi]

/-- The fresh block is nobody's. -/
theorem ptr_ne (c : u.Created v parent slot ino b name mode) (h : BlockInv u) {i : Nat} (hl : u.live i)
    (s : Slot) : u.ptr i s ≠ b :=
  h.own.free_not_held c.ge c.lt (by simp [c.free]) hl s

theorem dirBlock_ne (c : u.Created v parent slot ino b name mode) (h : BlockInv u) {d : Nat}
    (hd : u.isDir d) : u.dirBlock d ≠ b := c.ptr_ne h hd.1 (.direct 0)

theorem data_other (c : u.Created v parent slot ino b name mode) {d : Nat} (hb : d ≠ b)
    (hp : d ≠ u.dirBlock parent) : v.data d = u.data d := by
  rw [c.data, Function.update_of_ne hp, Function.update_of_ne hb]

theorem ptr_old (c : u.Created v parent slot ino b name mode) (h : BlockInv u) {i : Nat} (hl : u.live i)
    (s : Slot) : v.ptr i s = u.ptr i s := by
  unfold View.ptr
  rw [c.inode_old hl]
  cases s with
  | direct k => rfl
  | indirect => rfl
  | entry j =>
    simp only [Inode.ptr]
    by_cases hz : (u.inode i).indirect = 0#32
    · simp [hz]
    · have hne : u.ptr i .indirect ≠ 0 := fun e => hz (BitVec.eq_of_toNat_eq e)
      have hd : v.data (u.inode i).indirect.toNat = u.data (u.inode i).indirect.toNat := by
        refine c.data_other (c.ptr_ne h hl .indirect) fun e => ?_
        have := (h.own.inj i .indirect parent (.direct 0) hl c.parent_dir.1 hne e).2
        cases this
      rw [hd]

theorem ptr_new (c : u.Created v parent slot ino b name mode) (s : Slot) :
    v.ptr ino s = if s = .direct 0 then b else 0 := by
  unfold View.ptr
  rw [c.inode_new]
  cases s with
  | direct k =>
    simp only [Inode.ptr, newInode, Function.update_apply, Slot.direct.injEq]
    by_cases hk : k = 0
    · have := c.lt
      simp only [hk, ↓reduceIte, BitVec.toNat_ofNat]
      omega
    · simp [hk]
  | indirect => simp [Inode.ptr, newInode, Inode.zero]
  | entry j => simp [Inode.ptr, newInode, Inode.zero]

theorem dirBlock_old (c : u.Created v parent slot ino b name mode) (h : BlockInv u) {d : Nat}
    (hd : u.isDir d) : v.dirBlock d = u.dirBlock d := c.ptr_old h hd.1 (.direct 0)

theorem dirBlock_new (c : u.Created v parent slot ino b name mode) : v.dirBlock ino = b :=
  (c.ptr_new (.direct 0)).trans (if_pos rfl)

/-- The entries of a directory that was there before. -/
theorem entry_old (c : u.Created v parent slot ino b name mode) (h : BlockInv u) {d : Nat}
    (hd : u.isDir d) (s : Nat) :
    v.entry d s = if d = parent ∧ s = slot then some (name, ino) else u.entry d s := by
  unfold View.entry
  rw [c.dirBlock_old h hd]
  by_cases hp : d = parent
  · subst hp
    rw [c.data, Function.update_self, dirent_store c.slot_lt c.good (ofNat_ne_invalid c.ino_lt),
      toNat_ofNat_word c.ino_lt]
    simp
  · rw [if_neg (fun e => hp e.1)]
    rw [c.data_other (c.dirBlock_ne h hd) (fun e => hp (h.dirBlock_inj hd c.parent_dir e))]

theorem entry_new (c : u.Created v parent slot ino b name mode) (h : BlockInv u)
    (hm : mode = inodeDir) :
    v.entry ino 0 = some (dotName, ino) ∧ v.entry ino 1 = some (dotdotName, parent) ∧
      ∀ s, 2 ≤ s → s < 128 → v.entry ino s = none := by
  have hblk : v.data (v.dirBlock ino) = dotDirents (BitVec.ofNat 32 ino) (BitVec.ofNat 32 parent) := by
    rw [c.dirBlock_new, c.data, Function.update_of_ne (c.dirBlock_ne h c.parent_dir).symm,
      Function.update_self, newBlock, if_pos hm]
  have dots := dirent_dots (ofNat_ne_invalid c.ino_lt) (ofNat_ne_invalid c.parent_dir.1.1)
  rw [toNat_ofNat_word c.ino_lt, toNat_ofNat_word c.parent_dir.1.1] at dots
  unfold View.entry
  rw [hblk]
  exact dots

theorem owned (c : u.Created v parent slot ino b name mode) (h : BlockInv u) : v.Owned := by
  refine h.own.grow ino (.direct 0) c.ge c.lt (by decide) (by simp [c.free]) ?_ ?_ ?_ ?_
  · intro i s hl hs
    rcases (c.live i).mp hl with hl | rfl
    · exact Or.inr ⟨hl, c.ptr_old h hl s⟩
    · rw [c.ptr_new] at hs
      by_cases he : s = .direct 0
      · exact Or.inl ⟨rfl, he⟩
      · simp [he] at hs
  · intro i s hl _
    exact ⟨(c.live i).mpr (Or.inl hl), c.ptr_old h hl s⟩
  · exact ⟨(c.live ino).mpr (Or.inr rfl), (c.ptr_new _).trans (if_pos rfl)⟩
  · intro d _ _
    rw [c.bbit, Function.update_apply]
    by_cases hd : d = b <;> simp [hd]

theorem blocks (c : u.Created v parent slot ino b name mode) (h : BlockInv u)
    (hm : mode = inodeFile ∨ mode = inodeDir) : BlockInv v := by
  refine ⟨c.owned h, ?_, ?_, (c.isDir 0).mpr (Or.inl h.root_dir), ?_⟩
  · intro i hl
    rcases (c.live i).mp hl with hl | rfl
    · exact (h.mode i hl).imp (fun hf => (c.isFile i).mpr (Or.inl hf)) (fun hd => (c.isDir i).mpr (Or.inl hd))
    · exact hm.imp (fun e => (c.isFile i).mpr (Or.inr ⟨rfl, e⟩)) (fun e => (c.isDir i).mpr (Or.inr ⟨rfl, e⟩))
  · intro i hd
    rcases (c.isDir i).mp hd with hd | ⟨rfl, -⟩
    · obtain ⟨h1, h2⟩ := h.shape i hd
      exact ⟨by rw [c.dirBlock_old h hd]; exact h1, fun s hs => by rw [c.ptr_old h hd.1, h2 s hs]⟩
    · have := c.ge
      exact ⟨by rw [c.dirBlock_new]; omega, fun s hs => by rw [c.ptr_new, if_neg hs]⟩
  · rw [c.dirBlock_old h h.root_dir]
    exact h.root

/-- Slots 0 and 1 of a directory are taken, so the new entry is an ordinary one. -/
theorem slot_ge (c : u.Created v parent slot ino b name mode) (h : FsInv u) : 2 ≤ slot := by
  by_contra hlt
  have free := c.slot_free
  obtain rfl | rfl : slot = 0 ∨ slot = 1 := by omega
  · rw [h.tree.self parent c.parent_dir] at free
    cases free
  · obtain ⟨q, hq, -⟩ := h.tree.parent parent c.parent_dir
    rw [hq] at free
    cases free

theorem inv (c : u.Created v parent slot ino b name mode) (h : FsInv u)
    (hm : mode = inodeFile ∨ mode = inodeDir) (hdot : name ≠ dotName) (hdotdot : name ≠ dotdotName) :
    FsInv v := by
  have hb := h.toBlockInv
  have leaf (hd : v.isDir ino) := c.entry_new hb
    (((c.isDir ino).mp hd).elim (fun hd => absurd hd.1 c.not_live) And.right)
  refine ⟨c.blocks hb hm, ?_, ?_, ?_⟩
  · have := c.ge
    rw [c.bbit, Function.update_of_ne (by omega)]
    exact h.root_bit
  · refine h.tree.addLeaf c.not_live c.parent_dir (c.slot_ge h) c.slot_lt c.slot_free hdot hdotdot
      (by decide) c.absent c.live (fun i hd => (c.isDir i).mpr (Or.inl hd))
      (fun i hd => ((c.isDir i).mp hd).imp id And.left) ?_ ?_ leaf
    · rw [c.entry_old hb c.parent_dir, if_pos ⟨rfl, rfl⟩]
    · intro d s hd _ hne
      rw [c.entry_old hb hd, if_neg (fun e => hne e.1 e.2)]
  · intro i s x j hd hs he
    rcases (c.isDir i).mp hd with hd' | ⟨rfl, -⟩
    · rw [c.entry_old hb hd'] at he
      split at he
      · cases he
        exact c.good
      · exact h.name i s x j hd' hs he
    · rcases Nat.lt_or_ge s 2 with h2 | h2
      · obtain rfl | rfl : s = 0 ∨ s = 1 := by omega
        · rw [(leaf hd).1] at he
          cases he
          exact goodName_dot
        · rw [(leaf hd).2.1] at he
          cases he
          exact goodName_dotdot
      · rw [(leaf hd).2.2 s h2 hs] at he
        cases he

end View.Created

/-! ## What a failed call leaves behind -/

/-- Nothing has changed but what nobody holds. -/
structure View.Untouched (u v : View) : Prop where
  bbit : v.bbit = u.bbit
  ibit : v.ibit = u.ibit
  agrees : ∀ i, u.live i → u.Agrees v i

theorem View.Untouched.refl (u : View) : u.Untouched u := ⟨rfl, rfl, fun _ _ => ⟨rfl, fun _ _ => rfl⟩⟩

theorem View.Untouched.same {u v : View} (h : u.Untouched v) (hu : BlockInv u) : u.Same v := by
  have live (i : Nat) : v.live i ↔ u.live i := by rw [View.live, h.ibit, View.live]
  refine ⟨fun b => by rw [h.bbit], live, ?_, ?_, ?_, ?_⟩
  · intro i hl
    rw [(h.agrees i hl).inode]
  · intro i hl
    rw [(h.agrees i hl).inode]
  · intro i hl
    rw [(h.agrees i hl).inode]
  · rintro b (⟨i, hd, rfl⟩ | ⟨i, hl, hz, rfl⟩)
    · exact (h.agrees i hd.1).data (.direct 0) (hu.shape i hd).1
    · exact (h.agrees i hl).data .indirect fun e => hz (BitVec.eq_of_toNat_eq e)

theorem View.setIbit_undone {u : View} {ino : Nat} (h : u.ibit ino = false) :
    (u.setIbit ino true).setIbit ino false = u := by
  simp [View.setIbit, ← h]

/-! ## `create_inode` -/

/-- There is an inode, a block and an entry for a new object called `name`. -/
structure View.Creatable (u : View) (parent : Nat) (name : List Byte) : Prop where
  dir : u.isDir parent
  absent : ∀ s j, s < 128 → u.entry parent s ≠ some (name, j)
  slot : ∃ s, s < 128 ∧ u.entry parent s = none
  inode : ∃ i, i < 64 ∧ u.ibit i = false
  block : ∃ b, 6 ≤ b ∧ b < 254 ∧ u.bbit b = false

theorem View.Created.creatable {u v : View} {parent slot ino b : Nat} {name : List Byte} {mode : Word}
    (c : u.Created v parent slot ino b name mode) : u.Creatable parent name :=
  ⟨c.parent_dir, c.absent, ⟨slot, c.slot_lt, c.slot_free⟩, ⟨ino, c.ino_lt, c.ino_free⟩,
    ⟨b, c.ge, c.lt, c.free⟩⟩

section
variable {v : Dev} {parent : Nat} {name : List Byte} {mode : Word}

/-- The device before the parent directory is touched. -/
def prepared (v : Dev) (ino b parent : Nat) (mode : Word) : Dev :=
  ((inodeWrite (takeBlock (bitmapSet v 3 ino true) b) ino (newInode mode b)).write b
    (newBlock mode ino parent)).2

theorem view_prepared {ino b : Nat} (hi : ino < 64) (h6 : 6 ≤ b) (h254 : b < 254) :
    view (prepared v ino b parent mode).disk =
      (((((view v.disk).setIbit ino true).setBbit b true).setData b Buf.zero).setInode ino
        (newInode mode b)).setData b (newBlock mode ino parent) := by
  rw [prepared, view_write (Or.inr ⟨h6, h254⟩), view_inodeWrite hi, view_takeBlock h6 h254,
    view_bitmapSet_inode hi]

/-- The five writes of a creation before the entry, in order. -/
theorem prepared_through (parent : Nat) (mode : Word) {ino b : Nat} (h : BlockInv (view v.disk)) (hi : ino < 64)
    (hfree : (view v.disk).ibit ino = false) (h6 : 6 ≤ b) (h254 : b < 254)
    (free : (view v.disk).bbit b = false) :
    v.Writes (prepared v ino b parent mode) ∧
      v.Through (fun d => (view v.disk).Keeps (view d)) (prepared v ino b parent mode) ∧
      (view v.disk).Keeps (view (prepared v ino b parent mode).disk) := by
  have hl : ¬ (view v.disk).live ino := by
    rintro ⟨-, e⟩
    rw [hfree] at e
    cases e
  have hs := h.free_not_structural h6 h254 free
  have hd : IsData b := Or.inr ⟨h6, h254⟩
  have v1 := view_bitmapSet_inode hi v true
  have k1 : (view v.disk).Keeps (view (bitmapSet v 3 ino true).disk) := by
    rw [v1]
    exact (View.Keeps.refl _).markInode ino
  have v2 := view_takeBlock (v := bitmapSet v 3 ino true) h6 h254
  have k2 : (view v.disk).Keeps (view (takeBlock (bitmapSet v 3 ino true) b).disk) := by
    rw [v2]
    exact (k1.mark b).setData hs _
  have k3 : (view v.disk).Keeps
      (view (inodeWrite (takeBlock (bitmapSet v 3 ino true) b) ino (newInode mode b)).disk) := by
    rw [view_inodeWrite hi]
    exact k2.setInode hl _
  have k4 : (view v.disk).Keeps (view (prepared v ino b parent mode).disk) := by
    rw [prepared, view_write hd]
    exact k3.setData hs _
  refine ⟨?_, ?_, k4⟩
  · exact (((bitmapSet_writes (by decide) v ino true).trans (takeBlock_writes _ h6)).trans
      (inodeWrite_writes _ _)).trans (.single _ _ (by omega))
  · have t1 : v.Through (fun d => (view v.disk).Keeps (view d)) (bitmapSet v 3 ino true) :=
      .bitmapSet v (by decide) k1
    have t2 : (bitmapSet v 3 ino true).Through (fun d => (view v.disk).Keeps (view d))
        (takeBlock (bitmapSet v 3 ino true) b) := by
      refine .takeBlock _ h6 h254 (fun d e => ?_) (fun d e => ?_)
      · rw [e]
        exact k1.mark b
      · rw [e]
        exact (k1.mark b).setData hs _
    exact ((t1.trans t2).trans (.inodeWrite _ hi k3)).trans (.write _ hd.accepted k4)

theorem view_undone_inode {ino : Nat} (hi : ino < 64) (hfree : (view v.disk).ibit ino = false) :
    view (freeInode (bitmapSet v 3 ino true) ino).disk = view v.disk := by
  rw [view_freeInode hi, view_bitmapSet_inode hi, View.setIbit_undone hfree]

theorem undone_prepared_untouched {ino b : Nat} (h : BlockInv (view v.disk)) (hi : ino < 64)
    (hfree : (view v.disk).ibit ino = false) (h6 : 6 ≤ b) (h254 : b < 254)
    (free : (view v.disk).bbit b = false) :
    (view v.disk).Untouched (view (freeInode (freeBlock (prepared v ino b parent mode) b) ino).disk) := by
  rw [view_freeInode hi, view_freeBlock h6 h254, view_prepared hi h6 h254]
  constructor
  · simp [← free]
  · simp [← hfree]
  · intro i hl
    have hne : i ≠ ino := by
      rintro rfl
      have := hl.2
      rw [hfree] at this
      cases this
    refine ⟨by simp [Function.update_of_ne hne], fun s _ => ?_⟩
    have hb : (view v.disk).ptr i s ≠ b := h.own.free_not_held h6 h254 (by simp [free]) hl s
    simp [Function.update_of_ne hb]

/-- A call that fails takes its marks back. -/
structure Undone (v v' : Dev) : Prop where
  same : (view v.disk).Same (view v'.disk)
  writes : v.Writes v'
  through : v.Through (fun d => (view v.disk).Keeps (view d)) v'

theorem Undone.refl (v : Dev) : Undone v v :=
  ⟨.refl _, .refl, .refl _ _⟩

theorem undone_inode {ino : Nat} (hi : ino < 64) (hfree : (view v.disk).ibit ino = false) :
    Undone v (freeInode (bitmapSet v 3 ino true) ino) := by
  have hv := view_undone_inode hi hfree
  have k1 : (view v.disk).Keeps (view (bitmapSet v 3 ino true).disk) := by
    rw [view_bitmapSet_inode hi]
    exact (View.Keeps.refl _).markInode ino
  have k2 : (view v.disk).Keeps (view (freeInode (bitmapSet v 3 ino true) ino).disk) := by
    rw [hv]
    exact .refl _
  refine ⟨by rw [hv]; exact .refl _, ?_, ?_⟩
  · exact (bitmapSet_writes (by decide) v ino true).trans (freeInode_writes _ _)
  · refine (Dev.Through.bitmapSet v (by decide) k1).trans ?_
    rw [freeInode, if_pos hi] at k2 ⊢
    exact .bitmapSet _ (by decide) k2

theorem undone_prepared {ino b : Nat} (h : BlockInv (view v.disk)) (hi : ino < 64)
    (hfree : (view v.disk).ibit ino = false) (h6 : 6 ≤ b) (h254 : b < 254)
    (free : (view v.disk).bbit b = false) :
    Undone v (freeInode (freeBlock (prepared v ino b parent mode) b) ino) := by
  have hl : ¬ (view v.disk).live ino := by
    rintro ⟨-, e⟩
    rw [hfree] at e
    cases e
  obtain ⟨writes, through, k4⟩ := prepared_through parent mode h hi hfree h6 h254 free
  have k5 : (view v.disk).Keeps (view (freeBlock (prepared v ino b parent mode) b).disk) := by
    rw [view_freeBlock h6 h254]
    exact k4.unmark free
  have k6 : (view v.disk).Keeps
      (view (freeInode (freeBlock (prepared v ino b parent mode) b) ino).disk) := by
    rw [view_freeInode hi]
    exact k5.unmarkInode hl
  refine ⟨(undone_prepared_untouched h hi hfree h6 h254 free).same h, ?_, ?_⟩
  · exact (writes.trans (freeBlock_writes _ _)).trans (freeInode_writes _ _)
  · refine (through.trans ?_).trans ?_ (v := freeBlock (prepared v ino b parent mode) b)
    · rw [freeBlock, if_pos ⟨h6, h254⟩] at k5 ⊢
      exact .bitmapSet _ (by decide) k5
    · rw [freeInode, if_pos hi] at k6 ⊢
      exact .bitmapSet _ (by decide) k6

/-- The device after the new object has been named. -/
theorem created_prepared {ino b slot : Nat} (h : FsInv (view v.disk)) (hx : GoodName name)
    (hp : (view v.disk).isDir parent) (hi : ino < 64) (hfree : (view v.disk).ibit ino = false)
    (h6 : 6 ≤ b) (h254 : b < 254) (free : (view v.disk).bbit b = false) (hs : slot < 128)
    (hsf : (view v.disk).entry parent slot = none)
    (absent : ∀ s j, s < 128 → (view v.disk).entry parent s ≠ some (name, j)) :
    (view v.disk).Created (view ((prepared v ino b parent mode).write ((view v.disk).dirBlock parent)
      (direntStore ((view v.disk).data ((view v.disk).dirBlock parent)) slot name
        (BitVec.ofNat 32 ino))).2.disk) parent slot ino b name mode := by
  have hv := view_write (h.dirBlock_data hp) (prepared v ino b parent mode)
    (direntStore ((view v.disk).data ((view v.disk).dirBlock parent)) slot name (BitVec.ofNat 32 ino))
  rw [view_prepared hi h6 h254] at hv
  refine ⟨hx, hi, hfree, h6, h254, free, hp, hs, hsf, absent, ?_, ?_, ?_, ?_⟩
  · rw [hv]
    rfl
  · rw [hv]
    rfl
  · rw [hv]
    rfl
  · rw [hv]
    simp only [View.setData_data, View.setInode_data, View.setBbit_data, View.setIbit_data,
      Function.update_idem]

end

/-- What `create_inode` can do. -/
inductive CreateResult (v : Dev) (parent : Nat) (name : List Byte) (mode : Word) :
    Except Int Nat × Dev → Prop
  | failed {rc : Int} {v' : Dev} : rc < 0 → Undone v v' → ¬ (view v.disk).Creatable parent name →
      CreateResult v parent name mode (.error rc, v')
  | created {ino b slot : Nat} {v' : Dev} :
      (view v.disk).Created (view v'.disk) parent slot ino b name mode → v.Writes v' →
      v.Through (fun d => (view v.disk).Keeps (view d) ∨ view d = view v'.disk) v' →
      CreateResult v parent name mode (.ok ino, v')

/-- The last stage of `create_inode`, after the block of the new object is written. -/
def nameNew (v : Dev) (ino b parent : Nat) (name : List Byte) : Except Int Nat × Dev :=
  match dirAdd v parent name (BitVec.ofNat 32 ino) with
  | (rc, v) => if rc < 0 then (.error (-5), freeInode (freeBlock v b) ino) else (.ok ino, v)

section
variable {v : Dev} {parent ino b : Nat} {name : List Byte} {mode : Word}

theorem createInode_eq (hf : dirFind v.disk parent name = none)
    (ha : allocInode v = (some ino, bitmapSet v 3 ino true))
    (hb : allocBlock (bitmapSet v 3 ino true) = (some b, takeBlock (bitmapSet v 3 ino true) b))
    (hd : IsData b) :
    createInode v parent name mode = nameNew (prepared v ino b parent mode) ino b parent name := by
  have hrc := Dev.write_rc hd.accepted
    (inodeWrite (takeBlock (bitmapSet v 3 ino true) b) ino (newInode mode b)) (newBlock mode ino parent)
  rw [newInode, newBlock] at hrc
  simp only [createInode, hf, ha, hb, hrc, Option.isSome_none, Bool.false_eq_true, Int.lt_irrefl,
    ↓reduceIte]
  rfl

/-- Preparing a new object does not disturb a directory. -/
theorem prepared_dir (mode : Word) (h : BlockInv (view v.disk)) (hp : (view v.disk).isDir parent)
    (hi : ino < 64) (hfree : (view v.disk).ibit ino = false) (h6 : 6 ≤ b) (h254 : b < 254)
    (free : (view v.disk).bbit b = false) {u : View}
    (hu : view (prepared v ino b parent mode).disk = u) :
    u.inode parent = (view v.disk).inode parent ∧ u.dirBlock parent = (view v.disk).dirBlock parent ∧
      u.data ((view v.disk).dirBlock parent) = (view v.disk).data ((view v.disk).dirBlock parent) ∧
      ∀ s, u.entry parent s = (view v.disk).entry parent s := by
  have k := (prepared_through parent mode h hi hfree h6 h254 free).2.2
  rw [hu] at k
  have hn := k.inode parent hp.1
  refine ⟨hn, by rw [View.dirBlock, hn, View.dirBlock], k.data _ (Or.inl ⟨parent, hp, rfl⟩), ?_⟩
  intro s
  rw [View.entry, View.dirBlock, hn]
  exact congrArg (dirent · s) (k.data _ (Or.inl ⟨parent, hp, rfl⟩))

theorem nameNew_dir (h : FsInv (view v.disk)) (hp : (view v.disk).isDir parent) (hx : GoodName name)
    (hi : ino < 64) (hfree : (view v.disk).ibit ino = false) (h6 : 6 ≤ b) (h254 : b < 254)
    (free : (view v.disk).bbit b = false) :
    CreateResult v parent name mode (nameNew (prepared v ino b parent mode) ino b parent name) := by
  have hbd := h.dirBlock_data hp
  obtain ⟨hn, hblk, hdata, hent⟩ :=
    prepared_dir mode h.toBlockInv hp hi hfree h6 h254 free rfl
  have add := dirAdd_dir (v := prepared v ino b parent mode) (x := name) (BitVec.ofNat 32 ino) hp.1.1
    (by rw [hn]; exact hp.2) (by rw [hblk]; exact hbd) hx
  rw [hblk, hdata] at add
  simp only [hent] at add
  rcases add with ⟨ha, why⟩ | ⟨slot, hs, hsf, absent, ha⟩
  · simp only [nameNew, ha, show (-1 : Int) < 0 by decide, ↓reduceIte]
    refine .failed (by decide) (undone_prepared h.toBlockInv hi hfree h6 h254 free) fun c => ?_
    rcases why with ⟨s, j, hs, he⟩ | why
    · exact c.absent s j hs he
    · obtain ⟨s, hs, he⟩ := c.slot
      exact why s hs he
  · simp only [nameNew, ha, Int.lt_irrefl, ↓reduceIte]
    obtain ⟨writes, through, -⟩ :=
      prepared_through parent mode h.toBlockInv hi hfree h6 h254 free
    exact .created (created_prepared h hx hp hi hfree h6 h254 free hs hsf absent)
      (writes.trans (.single _ _ (h.shape parent hp).1))
      ((through.imp fun _ => Or.inl).trans (.write _ hbd.accepted (Or.inr rfl)))

end

theorem createInode_result {v : Dev} {parent : Nat} {name : List Byte} (h : FsInv (view v.disk))
    (hp : (view v.disk).live parent) (hx : GoodName name) (mode : Word) :
    CreateResult v parent name mode (createInode v parent name mode) := by
  cases hf : dirFind v.disk parent name with
  | some r =>
    obtain ⟨hd, hs, he⟩ := dirFind_some h hp hx hf
    simp only [createInode, hf, Option.isSome_some, ↓reduceIte]
    exact .failed (by decide) (.refl v) fun c => c.absent _ _ hs he
  | none =>
    rcases allocInode_cases v with ⟨ha, full⟩ | ⟨ino, ha, hi, hfree⟩
    · simp only [createInode, hf, ha, Option.isSome_none, Bool.false_eq_true, ↓reduceIte]
      refine .failed (by decide) (.refl v) fun c => ?_
      obtain ⟨i, hi, e⟩ := c.inode
      rw [full i hi] at e
      cases e
    have hb1 : (view (bitmapSet v 3 ino true).disk).bbit = (view v.disk).bbit := by
      rw [view_bitmapSet_inode hi]
      rfl
    rcases allocBlock_cases (bitmapSet v 3 ino true) with ⟨hb, full⟩ | ⟨b, hb, h6, h254, free⟩
    · simp only [createInode, hf, ha, hb, Option.isSome_none, Bool.false_eq_true, ↓reduceIte]
      refine .failed (by decide) (undone_inode hi hfree) fun c => ?_
      obtain ⟨b, h6, h254, e⟩ := c.block
      have := full b h6 h254
      rw [hb1, e] at this
      cases this
    rw [hb1] at free
    rw [createInode_eq hf ha hb (Or.inr ⟨h6, h254⟩)]
    by_cases hm : ((view v.disk).inode parent).mode = inodeDir
    · exact nameNew_dir h ⟨hp, hm⟩ hx hi hfree h6 h254 free
    · have hn := (prepared_through parent mode h.toBlockInv hi hfree h6 h254
        free).2.2.inode parent hp
      simp only [nameNew, dirAdd_not_dir _ hp.1 (by rw [hn]; exact hm : (_ : Word) ≠ inodeDir),
        show (-1 : Int) < 0 by decide, ↓reduceIte]
      exact .failed (by decide) (undone_prepared h.toBlockInv hi hfree h6 h254 free) fun c => hm c.dir.2

section
variable {v : Dev} {parent : Nat} {name : List Byte} {mode : Word}

/-- A failed `create_inode` has written to an inode and a block that nobody holds, if at all. -/
theorem createInode_untouched (h : BlockInv (view v.disk)) {rc : Int} {v' : Dev}
    (hr : createInode v parent name mode = (.error rc, v')) :
    (view v.disk).Untouched (view v'.disk) := by
  have same {e : Int} {u : Dev} (hu : view u.disk = view v.disk)
      (he : createInode v parent name mode = (.error e, u)) :
      (view v.disk).Untouched (view v'.disk) := by
    rw [he] at hr
    cases hr
    rw [hu]
    exact .refl _
  cases hf : dirFind v.disk parent name with
  | some r => exact same (e := -2) rfl (by simp [createInode, hf])
  | none =>
    rcases allocInode_cases v with ⟨ha, -⟩ | ⟨ino, ha, hi, hfree⟩
    · exact same (e := -3) rfl (by simp [createInode, hf, ha])
    rcases allocBlock_cases (bitmapSet v 3 ino true) with ⟨hb, -⟩ | ⟨b, hb, h6, h254, free⟩
    · exact same (e := -4) (view_undone_inode hi hfree) (by simp [createInode, hf, ha, hb])
    rw [view_bitmapSet_inode hi] at free
    rw [createInode_eq hf ha hb (Or.inr ⟨h6, h254⟩)] at hr
    simp only [nameNew] at hr
    split at hr
    · rename_i hneg
      cases hr
      rw [dirAdd_failed _ hneg]
      exact undone_prepared_untouched h hi hfree h6 h254 free
    · cases hr

end

end SengOS
