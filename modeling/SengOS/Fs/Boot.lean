import SengOS.Fs.Calls

/-!
# Formatting and mounting

`fs_format` builds a file system of one empty directory on a blank disk, and
`fs_init` mounts a disk it has formatted before without touching it.
-/

namespace SengOS

/-! ## The formatted disk -/

theorem view_write_super (v : Dev) (blk : Block) : view (v.write 0 blk).2.disk = view v.disk := by
  have other (c : Nat) (hc : c < 254) (h0 : c ≠ 0) := Dev.write_disk_ne h0 hc v blk
  apply View.ext
  · simp only [view, other 2 (by decide) (by decide)]
  · simp only [view, other 3 (by decide) (by decide)]
  · exact inode_congr (other 4 (by decide) (by decide))
  · exact data_congr fun b hb => other b hb.lt (by unfold IsData at hb; omega)

theorem view_blank :
    view Disk.blank = ⟨fun _ => false, fun _ => false, fun _ => Inode.zero, fun _ => Buf.zero⟩ := by
  apply View.ext
  · funext b
    exact Buf.bit_zero b
  · funext i
    exact Buf.bit_zero i
  · funext i
    by_cases hi : i < 64
    · rw [← view_inode hi, inodeRead_eq hi]
      simp [Disk.blank, Inode.zero]
    · simp [view, hi]
  · funext b
    simp only [view]
    split <;> rfl

/-- The loops that mark reserved blocks. -/
theorem markBlocks_writes (bs : List Nat) (v : Dev) :
    v.Writes (bs.foldl (fun v i => bitmapSet v 2 i true) v) := by
  induction bs generalizing v with
  | nil => exact .refl
  | cons b bs ih => exact (bitmapSet_writes (by decide) v b true).trans (ih _)

theorem view_markBlocks (bs : List Nat) (h : ∀ b ∈ bs, b < 256) (v : Dev) :
    view (bs.foldl (fun v i => bitmapSet v 2 i true) v).disk =
      { view v.disk with bbit := fun c => (view v.disk).bbit c || decide (c ∈ bs) } := by
  induction bs generalizing v with
  | nil => simp
  | cons b bs ih =>
    rw [List.foldl_cons, ih (fun c hc => h c (List.mem_cons_of_mem _ hc)),
      view_bitmapSet_block (h b List.mem_cons_self)]
    apply View.ext
    · funext c
      simp only [View.setBbit_bbit, Function.update_apply, List.mem_cons]
      by_cases hc : c = b <;> simp [hc]
    all_goals rfl

/-- What the root directory alone looks like. -/
def emptyView : View where
  bbit c := decide (c ∈ List.range 6) || decide (c ∈ List.range' 254 2)
  ibit := Function.update (fun _ => false) 0 true
  inode := Function.update (fun _ => Inode.zero) 0 rootInode
  data := Function.update (fun _ => Buf.zero) 1 (dotDirents 0#32 0#32)

theorem fsFormat_view (s : FsState) : view (fsFormat s).dev.disk = emptyView := by
  simp only [fsFormat]
  rw [view_write (Or.inl rfl), view_inodeWrite (by decide), view_bitmapSet_inode (by decide),
    view_markBlocks _ (by decide), view_markBlocks _ (by decide), view_write_super, view_blank]
  apply View.ext
  · funext c
    simp only [View.setData_bbit, View.setInode_bbit, View.setIbit_bbit, emptyView, Bool.false_or]
  all_goals rfl

/-- The superblock alone makes a disk that can be mounted. -/
theorem mounted_super (v : Dev) : Mounted (v.write 0 (Buf.zero.setWords 0 superblockWords)).2.disk := by
  refine ⟨Dev.write_disk_self (by decide) v _, ?_⟩
  rw [Dev.write_disk]
  exact write_idle (by decide) _ _

theorem fsFormat_mounted (s : FsState) : Mounted (fsFormat s).dev.disk := by
  have rest (w : Dev) := (((markBlocks_writes (List.range 6) w).trans
    (markBlocks_writes (List.range' 254 2) _)).trans
    (bitmapSet_writes (by decide : (3 : Nat) ≠ 0) _ 0 true)).trans (inodeWrite_writes (i := 0) _ rootInode)
  exact ((mounted_super ⟨Disk.blank, s.dev.hist⟩).writes (rest _)).write (by decide) _

theorem emptyView_live (i : Nat) : emptyView.live i ↔ i = 0 := by
  unfold View.live emptyView
  by_cases hi : i = 0 <;> simp [hi]

theorem emptyView_isDir (i : Nat) : emptyView.isDir i ↔ i = 0 := by
  unfold View.isDir
  rw [emptyView_live]
  constructor
  · exact And.left
  · rintro rfl
    exact ⟨rfl, rfl⟩

theorem emptyView_ptr (s : Slot) : emptyView.ptr 0 s = if s = .direct 0 then 1 else 0 := by
  cases s with
  | direct k =>
    by_cases hk : k = 0
    · subst hk
      rfl
    · simp [View.ptr, emptyView, Inode.ptr, rootInode, hk]
  | indirect => rfl
  | entry j => rfl

theorem emptyView_entry :
    emptyView.entry 0 0 = some (dotName, 0) ∧ emptyView.entry 0 1 = some (dotdotName, 0) ∧
      ∀ s, 2 ≤ s → s < 128 → emptyView.entry 0 s = none :=
  dirent_dots (by decide) (by decide)

theorem emptyView_entries {s : Nat} {x : List Byte} {i : Nat} (hs : s < 128)
    (he : emptyView.entry 0 s = some (x, i)) :
    i = 0 ∧ ((s = 0 ∧ x = dotName) ∨ (s = 1 ∧ x = dotdotName)) := by
  obtain ⟨e0, e1, free⟩ := emptyView_entry
  rcases Nat.lt_or_ge s 2 with h2 | h2
  · obtain rfl | rfl : s = 0 ∨ s = 1 := by omega
    · rw [e0] at he
      cases he
      exact ⟨rfl, Or.inl ⟨rfl, rfl⟩⟩
    · rw [e1] at he
      cases he
      exact ⟨rfl, Or.inr ⟨rfl, rfl⟩⟩
  · rw [free s h2 hs] at he
    cases he

theorem emptyView_tree : emptyView.Tree := by
  have none_ordinary {s : Nat} {x : List Byte} {i : Nat} (h2 : 2 ≤ s) (hs : s < 128)
      (he : emptyView.entry 0 s = some (x, i)) : False := by
    rw [emptyView_entry.2.2 s h2 hs] at he
    cases he
  constructor
  · exact fun d hd => hd.1
  · exact (emptyView_isDir 0).mpr rfl
  · intro d hd
    rw [(emptyView_isDir d).mp hd]
    exact emptyView_entry.1
  · intro d hd
    rw [(emptyView_isDir d).mp hd]
    exact ⟨0, emptyView_entry.2.1, (emptyView_isDir 0).mpr rfl, Or.inl ⟨rfl, rfl⟩⟩
  · intro d s x i hd h2 hs he
    rw [(emptyView_isDir d).mp hd] at he
    exact (none_ordinary h2 hs he).elim
  · intro d s t x i j hd hs ht hx hy
    rw [(emptyView_isDir d).mp hd] at hx hy
    rcases (emptyView_entries hs hx).2 with ⟨rfl, rfl⟩ | ⟨rfl, rfl⟩
    · rcases (emptyView_entries ht hy).2 with ⟨rfl, -⟩ | ⟨-, e⟩
      · rfl
      · exact absurd e (by decide)
    · rcases (emptyView_entries ht hy).2 with ⟨-, e⟩ | ⟨rfl, -⟩
      · exact absurd e (by decide)
      · rfl
  · intro d e s t x y i hd he h2 hs ht2 ht hx hy
    rw [(emptyView_isDir d).mp hd] at hx
    exact (none_ordinary h2 hs hx).elim
  · intro i hl
    rw [(emptyView_live i).mp hl]
    exact .root

theorem emptyView_inv : FsInv emptyView := by
  have root : emptyView.isDir 0 := (emptyView_isDir 0).mpr rfl
  refine ⟨⟨⟨?_, ?_, ?_⟩, ?_, ?_, root, rfl⟩, rfl, emptyView_tree, ?_⟩
  · intro i s hl hs
    rw [(emptyView_live i).mp hl] at hs ⊢
    rw [emptyView_ptr] at hs ⊢
    by_cases he : s = .direct 0
    · exact Or.inr ⟨rfl, he, if_pos he⟩
    · exact absurd (if_neg he) hs
  · intro i s j t hi hj hs heq
    rw [(emptyView_live i).mp hi, (emptyView_live j).mp hj] at *
    rw [emptyView_ptr] at hs heq
    rw [emptyView_ptr] at heq
    refine ⟨rfl, ?_⟩
    by_cases he : s = .direct 0
    · by_cases ht : t = .direct 0
      · rw [he, ht]
      · rw [if_pos he, if_neg ht] at heq
        cases heq
    · exact absurd (if_neg he) hs
  · intro b h6 h254
    constructor
    · intro hb
      simp only [emptyView, Bool.or_eq_true, decide_eq_true_eq, List.mem_range, List.mem_range'_1] at hb
      omega
    · rintro ⟨i, s, hl, rfl⟩
      rw [(emptyView_live i).mp hl, emptyView_ptr] at h6
      split at h6 <;> omega
  · intro i hl
    rw [(emptyView_live i).mp hl]
    exact Or.inr root
  · intro i hd
    rw [(emptyView_isDir i).mp hd]
    exact ⟨by decide, fun s hs => by rw [emptyView_ptr, if_neg hs]⟩
  · intro i s x j hd hs he
    rw [(emptyView_isDir i).mp hd] at he
    rcases (emptyView_entries hs he).2 with ⟨-, rfl⟩ | ⟨-, rfl⟩
    · exact goodName_dot
    · exact goodName_dotdot

/-! ## `fs_init` -/

theorem fsInit_blank :
    fsInit FsState.boot = { fsFormat FsState.boot with fds := fun _ => FileDesc.zero } := by
  have hr : ramdiskInit Disk.blank = Disk.blank := ramdiskInit_idle (idle_of_magic (by decide))
  have hw : (readBlock Disk.blank 0).word 0 ≠ fsMagic := by decide
  simp only [fsInit, FsState.boot, hr, hw, ne_eq, not_false_eq_true, true_or, ↓reduceIte]

theorem fsInit_blank_view : view (fsInit FsState.boot).dev.disk = emptyView := by
  rw [fsInit_blank]
  exact fsFormat_view _

theorem fsInit_blank_inv : (fsInit FsState.boot).Inv := by
  have mounted : Mounted (fsInit FsState.boot).dev.disk := by
    rw [fsInit_blank]
    exact fsFormat_mounted _
  refine ⟨by rw [fsInit_blank]; rfl, mounted, ?_, ?_, ?_⟩
  · rw [fsInit_blank_view]
    exact emptyView_inv
  · rw [fsInit_blank_view, fsInit_blank]
    exact (emptyView_isDir _).mpr rfl
  · intro i _ hu
    cases hu

/-- A formatted disk is mounted as it is. -/
theorem fsInit_mounted {s : FsState} (h : Mounted s.dev.disk) :
    fsInit s = { s with cwdInode := 0#32, fsReady := true, fds := fun _ => FileDesc.zero } := by
  have hr : ramdiskInit s.dev.disk = s.dev.disk := ramdiskInit_idle h.idle
  have hb : readBlock s.dev.disk 0 = Buf.zero.setWords 0 superblockWords := by
    rw [readBlock_lt (by decide), h.super]
  have field (i : Nat) (w : Word) (hw : superblockWords[i]? = some w) :
      (Buf.zero.setWords 0 superblockWords : Block).word (4 * i) = w := by
    have := Buf.word_setWords (o := 0) (Buf.zero : Block) hw (by decide)
    rwa [Nat.zero_add] at this
  have f0 : (Buf.zero.setWords 0 superblockWords : Block).word 0 = fsMagic := field 0 _ rfl
  have f4 : (Buf.zero.setWords 0 superblockWords : Block).word 4 = 1#32 := field 1 _ rfl
  have f8 : (Buf.zero.setWords 0 superblockWords : Block).word 8 = 256#32 := field 2 _ rfl
  have f12 : (Buf.zero.setWords 0 superblockWords : Block).word 12 = 64#32 := field 3 _ rfl
  have f28 : (Buf.zero.setWords 0 superblockWords : Block).word 28 = 0#32 := field 7 _ rfl
  simp only [fsInit, hr, hb, f0, f4, f8, f12, f28, ne_eq, not_true_eq_false, or_self, ↓reduceIte]

end SengOS
