import SengOS.Fs.Grow

/-!
# Giving blocks back

Truncation and `fs_unlink` both hand the pointers of an inode to
`release_inode_blocks`. Unlinking first removes the name, so that no disk on
the way shows a reachable inode whose blocks are free; truncation frees the
blocks while the inode on disk still points to them.
-/

namespace SengOS

/-! ## Disks on the way -/

theorem freePointer_through (v : Dev) (w : Word) :
    v.Through (fun d => view d = (view v.disk).freed [w]) (freePointer v w) := by
  have hv := view_freePointer v w
  unfold freePointer freeBlock at hv ⊢
  split
  · split
    · exact .bitmapSet v (by decide) (by simp_all)
    · exact .refl _ _
  · exact .refl _ _

/-- The pointers are freed in order, one disk each. -/
theorem freePointers_through (ws : List Word) (v : Dev) :
    v.Through (fun d => ∃ k, view d = (view v.disk).freed (ws.take k)) (ws.foldl freePointer v) := by
  induction ws generalizing v with
  | nil => exact .refl _ _
  | cons w ws ih =>
    refine ((freePointer_through v w).imp fun d hd => ⟨1, hd⟩).trans ((ih _).imp ?_)
    rintro d ⟨k, hd⟩
    refine ⟨k + 1, ?_⟩
    rw [hd, view_freePointer, View.freed_freed]
    rfl

/-- The disk reached is one of the disks on the way, unless nothing was written. -/
theorem Dev.Writes.disk_mem {v w : Dev} (h : v.Writes w) {new : List Disk}
    (hw : w.hist = v.hist ++ new) : w.disk = v.disk ∨ w.disk ∈ new := by
  induction h generalizing new with
  | refl => exact Or.inl rfl
  | @write w b blk hb hv ih =>
    by_cases ha : Accepted b
    · right
      rw [Dev.write_hist ha] at hw
      have hmem : (w.write b blk).2.disk ∈ v.hist ++ new := hw ▸ by simp
      obtain ⟨xs, hx, -⟩ : v.Through (fun _ => True) w := by
        clear ih hw hmem
        induction hv with
        | refl => exact .refl _ _
        | @write w c blk' _ _ ih =>
          by_cases hc : Accepted c
          · exact ih.trans (.write _ hc trivial)
          · rw [Dev.write_rejected hc]
            exact ih
      rw [hx, List.append_assoc] at hw
      rw [← List.append_cancel_left hw]
      simp
    · rw [Dev.write_rejected ha] at hw ⊢
      exact ih hw

/-! ## Truncation -/

/-- An inode without blocks and bytes. -/
def Inode.emptied (n : Inode) : Inode := ⟨0#32, n.mode, fun _ => 0#32, 0#32⟩

theorem Inode.emptied_ptr (n : Inode) (data : Nat → Block) (s : Slot) : n.emptied.ptr data s = 0 := by
  cases s <;> simp [Inode.ptr, Inode.emptied]

/-- The view after `ino` has lost its blocks. -/
def View.emptied (u : View) (ino : Nat) : View :=
  (u.freed ((u.inode ino).pointers u.data)).setInode ino (u.inode ino).emptied

section
variable {u : View} {ino : Nat}

/-- Releasing an inode clears the marks of the blocks it holds. -/
theorem View.released_iff (u : View) (ino c : Nat) :
    (u.freed ((u.inode ino).pointers u.data)).bbit c = true ↔
    u.bbit c = true ∧ (6 ≤ c → c < 254 → ∀ s, u.ptr ino s ≠ c) := by
  rw [View.freed_iff]
  refine and_congr_right fun _ => forall_congr' fun h6 => forall_congr' fun _ => ?_
  have := Inode.mem_pointers (u.inode ino) u.data (show c ≠ 0 by omega)
  constructor
  · intro h s e
    obtain ⟨w, hw, ew⟩ := this.mpr ⟨s, e⟩
    exact h w hw ew
  · intro h w hw ew
    obtain ⟨s, e⟩ := this.mp ⟨w, hw, ew⟩
    exact h s e

theorem View.emptied_frame (u : View) (ino : Nat) : u.Frame ino (u.emptied ino) := by
  refine ⟨rfl, fun j hj => ?_, ?_, fun _ _ _ _ _ => rfl⟩
  · simp [View.emptied, View.freed, Function.update_of_ne hj]
  · simp [View.emptied, Inode.emptied]

theorem View.emptied_ptr (s : Slot) : (u.emptied ino).ptr ino s = 0 := by
  rw [View.ptr, View.emptied, View.setInode_inode, Function.update_self]
  exact Inode.emptied_ptr _ _ s

theorem View.emptied_blocks (h : BlockInv u) (hf : u.isFile ino) : BlockInv (u.emptied ino) := by
  have fr := View.emptied_frame u ino
  refine h.of_frame hf fr (h.own.release hf.1 (by decide) ?_ ?_ ?_)
  · intro i s hl hs
    have hi : i ≠ ino := by
      rintro rfl
      exact hs (View.emptied_ptr s)
    have hl' := (fr.live i).mp hl
    exact ⟨hi, hl', fr.ptr hl' hi s⟩
  · intro i s hl hi _
    exact ⟨(fr.live i).mpr hl, fr.ptr hl hi s⟩
  · intro c h1 h2
    rw [View.emptied, View.setInode_bbit, View.released_iff]
    exact and_congr_right fun _ => ⟨fun h => h h1 h2, fun h _ _ => h⟩

theorem View.emptied_inv (h : FsInv u) (hf : u.isFile ino) : FsInv (u.emptied ino) := by
  refine h.of_frame hf (View.emptied_frame u ino) ?_ (View.emptied_blocks h.toBlockInv hf)
  rw [View.emptied, View.setInode_bbit, View.released_iff]
  exact ⟨h.root_bit, fun h6 => absurd h6 (by decide)⟩

end

/-- The truncating part of `fs_open`. -/
def truncate (v : Dev) (ino : Nat) : Dev :=
  let r := releaseInodeBlocks v (inodeRead v.disk ino)
  inodeWrite r.2 ino { r.1 with size := 0#32 }

section
variable {v : Dev} {ino : Nat}

theorem truncate_eq (h : BlockInv (view v.disk)) (hf : (view v.disk).isFile ino) :
    truncate v ino = inodeWrite
      ((((view v.disk).inode ino).pointers (view v.disk).data).foldl freePointer v) ino
      ((view v.disk).inode ino).emptied := by
  rw [truncate, view_inode hf.1.1, releaseInodeBlocks_eq (h.tame hf.1).indirect]
  rfl

theorem view_truncate (h : BlockInv (view v.disk)) (hf : (view v.disk).isFile ino) :
    view (truncate v ino).disk = (view v.disk).emptied ino := by
  rw [truncate_eq h hf, view_inodeWrite hf.1.1, view_freePointers]
  rfl

theorem truncate_writes (h : BlockInv (view v.disk)) (hf : (view v.disk).isFile ino) :
    v.Writes (truncate v ino) := by
  rw [truncate_eq h hf]
  exact (freePointers_writes _ v).trans (inodeWrite_writes _ _)

end

/-! ## Unlinking -/

theorem dirRemove_dir {v : Dev} (h : BlockInv (view v.disk)) {p : Nat} (hp : (view v.disk).isDir p)
    {x : List Byte} {pos : Nat} {w : Word} (hf : dirFind v.disk p x = some (pos, w)) :
    dirRemove v p x = (0, (v.write ((view v.disk).dirBlock p)
      (direntClear ((view v.disk).data ((view v.disk).dirBlock p)) pos)).2) := by
  have hb := h.dirBlock_data hp
  have hne : ((view v.disk).inode p).direct 0 ≠ 0#32 := by
    intro e
    rw [View.dirBlock, e] at hb
    exact absurd hb (by decide)
  have hread : readBlock v.disk (((view v.disk).inode p).direct 0).toNat =
      (view v.disk).data ((view v.disk).dirBlock p) := readBlock_data hb _
  unfold dirRemove
  rw [view_inode hp.1.1, hf]
  simp only [hp.2, hne, ne_eq, not_true_eq_false, or_self, ↓reduceIte, hread]
  exact Prod.ext (Dev.write_rc hb.accepted v _) rfl

/-- `v` is `u` without the object `ino`, which slot `slot` of `parent` named. -/
structure View.Removed (u v : View) (parent slot ino : Nat) (name : List Byte) : Prop where
  parent_dir : u.isDir parent
  slot_ge : 2 ≤ slot
  slot_lt : slot < 128
  named : u.entry parent slot = some (name, ino)
  not_root : ino ≠ 0
  empty : u.isDir ino → ∀ s, 2 ≤ s → s < 128 → u.entry ino s = none
  ibit : v.ibit = Function.update u.ibit ino false
  bbit : v.bbit = (u.freed ((u.inode ino).pointers u.data)).bbit
  inode : v.inode = Function.update u.inode ino Inode.zero
  data : v.data = Function.update u.data (u.dirBlock parent)
    (direntClear (u.data (u.dirBlock parent)) slot)

namespace View.Removed

variable {u v : View} {parent slot ino : Nat} {name : List Byte}

theorem ino_live (r : u.Removed v parent slot ino name) (h : FsInv u) : u.live ino :=
  h.entry_live r.parent_dir r.slot_lt r.named

theorem live (r : u.Removed v parent slot ino name) (i : Nat) : v.live i ↔ u.live i ∧ i ≠ ino := by
  unfold View.live
  rw [r.ibit, Function.update_apply]
  by_cases hi : i = ino <;> simp [hi]

theorem inode_old (r : u.Removed v parent slot ino name) {i : Nat} (hi : i ≠ ino) :
    v.inode i = u.inode i := by
  rw [r.inode, Function.update_of_ne hi]

theorem isDir (r : u.Removed v parent slot ino name) (i : Nat) : v.isDir i ↔ u.isDir i ∧ i ≠ ino := by
  unfold View.isDir
  rw [r.live i]
  by_cases hi : i = ino
  · simp [hi]
  · rw [r.inode_old hi]
    simp [hi]

theorem isFile (r : u.Removed v parent slot ino name) (i : Nat) : v.isFile i ↔ u.isFile i ∧ i ≠ ino := by
  unfold View.isFile
  rw [r.live i]
  by_cases hi : i = ino
  · simp [hi]
  · rw [r.inode_old hi]
    simp [hi]

theorem ptr_old (r : u.Removed v parent slot ino name) (h : BlockInv u) {i : Nat} (hl : u.live i)
    (hi : i ≠ ino) (s : Slot) : v.ptr i s = u.ptr i s := by
  unfold View.ptr
  rw [r.inode_old hi]
  cases s with
  | direct k => rfl
  | indirect => rfl
  | entry j =>
    simp only [Inode.ptr]
    by_cases hz : (u.inode i).indirect = 0#32
    · simp [hz]
    · have hne : u.ptr i .indirect ≠ 0 := fun e => hz (BitVec.eq_of_toNat_eq e)
      have hp : (u.inode i).indirect.toNat ≠ u.dirBlock parent := by
        intro e
        have := (h.own.inj i .indirect parent (.direct 0) hl r.parent_dir.1 hne e).2
        cases this
      rw [r.data, Function.update_of_ne hp]

theorem dirBlock_old (r : u.Removed v parent slot ino name) {d : Nat} (hi : d ≠ ino) :
    v.dirBlock d = u.dirBlock d := by
  rw [View.dirBlock, r.inode_old hi, View.dirBlock]

theorem entry_old (r : u.Removed v parent slot ino name) (h : BlockInv u) {d : Nat} (hd : u.isDir d)
    (hi : d ≠ ino) (s : Nat) :
    v.entry d s = if d = parent ∧ s = slot then none else u.entry d s := by
  unfold View.entry
  rw [r.dirBlock_old hi]
  by_cases hp : d = parent
  · subst hp
    rw [r.data, Function.update_self, dirent_clear r.slot_lt]
    simp
  · rw [if_neg (fun e => hp e.1), r.data,
      Function.update_of_ne (fun e => hp (h.dirBlock_inj hd r.parent_dir e))]

theorem blocks (r : u.Removed v parent slot ino name) (h : FsInv u) : BlockInv v := by
  have hb := h.toBlockInv
  have root_ne : (0 : Nat) ≠ ino := r.not_root.symm
  refine ⟨hb.own.release (r.ino_live h) (by decide) ?_ ?_ ?_, ?_, ?_, ?_, ?_⟩
  · intro i s hl _
    obtain ⟨hl', hi⟩ := (r.live i).mp hl
    exact ⟨hi, hl', r.ptr_old hb hl' hi s⟩
  · intro i s hl hi _
    exact ⟨(r.live i).mpr ⟨hl, hi⟩, r.ptr_old hb hl hi s⟩
  · intro c h1 h2
    rw [r.bbit, View.released_iff]
    exact and_congr_right fun _ => ⟨fun h => h h1 h2, fun h _ _ => h⟩
  · intro i hl
    obtain ⟨hl', hi⟩ := (r.live i).mp hl
    exact (h.mode i hl').imp (fun hf => (r.isFile i).mpr ⟨hf, hi⟩) (fun hd => (r.isDir i).mpr ⟨hd, hi⟩)
  · intro i hd
    obtain ⟨hd', hi⟩ := (r.isDir i).mp hd
    obtain ⟨h1, h2⟩ := h.shape i hd'
    exact ⟨by rw [r.dirBlock_old hi]; exact h1, fun s hs => by rw [r.ptr_old hb hd'.1 hi, h2 s hs]⟩
  · exact (r.isDir 0).mpr ⟨h.root_dir, root_ne⟩
  · rw [r.dirBlock_old root_ne]
    exact h.root

theorem inv (r : u.Removed v parent slot ino name) (h : FsInv u) : FsInv v := by
  have hb := h.toBlockInv
  have hpi : parent ≠ ino := by
    rintro rfl
    have := r.empty r.parent_dir slot r.slot_ge r.slot_lt
    rw [r.named] at this
    cases this
  refine ⟨r.blocks h, ?_, ?_, ?_⟩
  · rw [r.bbit, View.released_iff]
    exact ⟨h.root_bit, fun h6 => absurd h6 (by decide)⟩
  · refine h.tree.removeLeaf r.not_root r.parent_dir r.slot_ge r.slot_lt r.named r.empty r.live r.isDir ?_ ?_
    · rw [r.entry_old hb r.parent_dir hpi, if_pos ⟨rfl, rfl⟩]
    · intro d s hd hi _ hne
      rw [r.entry_old hb hd hi, if_neg (fun e => hne e.1 e.2)]
  · intro i s x j hd hs he
    obtain ⟨hd', hi⟩ := (r.isDir i).mp hd
    rw [r.entry_old hb hd' hi] at he
    split at he
    · cases he
    · exact h.name i s x j hd' hs he

/-- A disk on which the name is gone and the rest may still be there. -/
theorem keeps (r : u.Removed v parent slot ino name) {w : View}
    (hb : ∀ b, v.bbit b = true → w.bbit b = true) (hi : ∀ i, i ≠ ino → w.ibit i = u.ibit i)
    (hn : ∀ i, i ≠ ino → w.inode i = u.inode i) (hd : w.data = v.data) : v.Keeps w := by
  refine ⟨hb, fun i hl => ?_, fun i hl => ?_, fun b _ => by rw [hd]⟩
  · obtain ⟨hl', hne⟩ := (r.live i).mp hl
    rw [hi i hne]
    exact hl'.2
  · have hne := ((r.live i).mp hl).2
    rw [hn i hne, r.inode_old hne]

end View.Removed

/-- The device after `dir_remove`. -/
def unnamed (v : Dev) (parent slot : Nat) : Dev :=
  (v.write ((view v.disk).dirBlock parent)
    (direntClear ((view v.disk).data ((view v.disk).dirBlock parent)) slot)).2

/-- The writing part of `fs_unlink`: name, blocks, inode, inode mark. -/
def removeObject (v : Dev) (parent slot ino : Nat) : Dev :=
  freeInode (inodeWrite (releaseInodeBlocks (unnamed v parent slot) ((view v.disk).inode ino)).2 ino
    Inode.zero) ino

section
variable {v : Dev} {parent slot ino : Nat} {name : List Byte}

theorem view_unnamed (h : FsInv (view v.disk)) (hp : (view v.disk).isDir parent) :
    view (unnamed v parent slot).disk = (view v.disk).setData ((view v.disk).dirBlock parent)
      (direntClear ((view v.disk).data ((view v.disk).dirBlock parent)) slot) :=
  view_write (h.dirBlock_data hp) v _

/-- The pointers of the object are not in the directory block that has changed. -/
theorem unnamed_pointers (h : FsInv (view v.disk)) (hp : (view v.disk).isDir parent)
    (hl : (view v.disk).live ino) :
    ((view v.disk).inode ino).pointers (view (unnamed v parent slot).disk).data =
      ((view v.disk).inode ino).pointers (view v.disk).data := by
  unfold Inode.pointers
  by_cases hz : ((view v.disk).inode ino).indirect = 0#32
  · simp only [hz, ↓reduceIte]
  · have hne : (view v.disk).ptr ino .indirect ≠ 0 := fun e => hz (BitVec.eq_of_toNat_eq e)
    have hblk : ((view v.disk).inode ino).indirect.toNat ≠ (view v.disk).dirBlock parent := by
      intro e
      have := (h.own.inj ino .indirect parent (.direct 0) hl hp.1 hne e).2
      cases this
    simp only [hz, ↓reduceIte, view_unnamed h hp, View.setData_data, Function.update_of_ne hblk]

theorem removeObject_eq (h : FsInv (view v.disk)) (hp : (view v.disk).isDir parent)
    (hl : (view v.disk).live ino) :
    removeObject v parent slot ino = freeInode (inodeWrite
      ((((view v.disk).inode ino).pointers (view v.disk).data).foldl freePointer
        (unnamed v parent slot)) ino Inode.zero) ino := by
  rw [removeObject, releaseInodeBlocks_eq (h.tame hl).indirect, unnamed_pointers h hp hl]

theorem view_removeObject (h : FsInv (view v.disk)) (hp : (view v.disk).isDir parent)
    (hl : (view v.disk).live ino) :
    view (removeObject v parent slot ino).disk =
      ((((view v.disk).setData ((view v.disk).dirBlock parent)
        (direntClear ((view v.disk).data ((view v.disk).dirBlock parent)) slot)).freed
          (((view v.disk).inode ino).pointers (view v.disk).data)).setInode ino Inode.zero).setIbit
            ino false := by
  rw [removeObject_eq h hp hl, view_freeInode hl.1, view_inodeWrite hl.1, view_freePointers,
    view_unnamed h hp]

theorem removeObject_removed (h : FsInv (view v.disk)) (hp : (view v.disk).isDir parent) (h2 : 2 ≤ slot)
    (hs : slot < 128) (named : (view v.disk).entry parent slot = some (name, ino)) (h0 : ino ≠ 0)
    (empty : (view v.disk).isDir ino → ∀ s, 2 ≤ s → s < 128 → (view v.disk).entry ino s = none) :
    (view v.disk).Removed (view (removeObject v parent slot ino).disk) parent slot ino name := by
  rw [view_removeObject h hp (h.entry_live hp hs named)]
  exact ⟨hp, h2, hs, named, h0, empty, rfl, rfl, rfl, rfl⟩

theorem removeObject_writes (h : FsInv (view v.disk)) (hp : (view v.disk).isDir parent)
    (hl : (view v.disk).live ino) : v.Writes (removeObject v parent slot ino) := by
  rw [removeObject_eq h hp hl]
  have w₁ : v.Writes (unnamed v parent slot) := .single v _ (h.shape parent hp).1
  exact ((w₁.trans (freePointers_writes _ _)).trans (inodeWrite_writes _ _)).trans (freeInode_writes _ _)

/-- Once the name is gone, every disk on the way keeps what is left in the end. -/
theorem removeObject_through (h : FsInv (view v.disk)) (hp : (view v.disk).isDir parent)
    (hl : (view v.disk).live ino)
    (r : (view v.disk).Removed (view (removeObject v parent slot ino).disk) parent slot ino name) :
    v.Through (fun d => (view (removeObject v parent slot ino).disk).Keeps (view d))
      (removeObject v parent slot ino) := by
  have hd : (view (removeObject v parent slot ino).disk).data = (view (unnamed v parent slot).disk).data := by
    rw [view_removeObject h hp hl, view_unnamed h hp]
    rfl
  have hbits (k : Nat) (b : Nat) : (view (removeObject v parent slot ino).disk).bbit b = true →
      ((view (unnamed v parent slot).disk).freed
        ((((view v.disk).inode ino).pointers (view v.disk).data).take k)).bbit b = true := by
    rw [r.bbit, View.freed_iff, View.freed_iff, view_unnamed h hp]
    exact fun e => ⟨e.1, fun h6 h254 w hw => e.2 h6 h254 w (List.mem_of_mem_take hw)⟩
  have freed (k : Nat) : (view (removeObject v parent slot ino).disk).Keeps
      ((view (unnamed v parent slot).disk).freed
        ((((view v.disk).inode ino).pointers (view v.disk).data).take k)) := by
    refine r.keeps (hbits k) (fun i _ => ?_) (fun i _ => ?_) hd.symm
    · rw [view_unnamed h hp]
      rfl
    · rw [view_unnamed h hp]
      rfl
  have t₁ : v.Through (fun d => (view (removeObject v parent slot ino).disk).Keeps (view d))
      (unnamed v parent slot) := by
    refine .write v (h.dirBlock_data hp).accepted ?_
    have := freed 0
    rwa [List.take_zero, View.freed_nil] at this
  have t₂ := (freePointers_through (((view v.disk).inode ino).pointers (view v.disk).data)
    (unnamed v parent slot)).imp (Q := fun d => (view (removeObject v parent slot ino).disk).Keeps (view d))
      (by rintro d ⟨k, e⟩; rw [e]; exact freed k)
  have hlen := freed ((((view v.disk).inode ino).pointers (view v.disk).data).length)
  rw [List.take_length] at hlen
  have t₃ := Dev.Through.inodeWrite
    (P := fun d => (view (removeObject v parent slot ino).disk).Keeps (view d))
    ((((view v.disk).inode ino).pointers (view v.disk).data).foldl freePointer (unnamed v parent slot))
    hl.1 (n := Inode.zero) (by
      rw [view_inodeWrite hl.1, view_freePointers]
      exact hlen.setInode (fun e => ((r.live ino).mp e).2 rfl) _)
  have t₄ (P : Disk → Prop) (hP : P (removeObject v parent slot ino).disk) :
      (inodeWrite ((((view v.disk).inode ino).pointers (view v.disk).data).foldl freePointer
        (unnamed v parent slot)) ino Inode.zero).Through P (removeObject v parent slot ino) := by
    rw [removeObject_eq h hp hl, freeInode, if_pos hl.1] at hP ⊢
    exact .bitmapSet _ (by decide) hP
  exact ((t₁.trans t₂).trans t₃).trans (t₄ _ (.refl _))

end

end SengOS
