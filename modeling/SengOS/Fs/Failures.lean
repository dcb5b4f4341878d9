import SengOS.Fs.Runs

/-!
# Calls that fail

`fs_mkdir` and `fs_unlink` leave nothing behind when they fail. `fs_open` looks
for a free descriptor last, after it has created or truncated the file: with
all sixteen in use the call fails and its work stays.
-/

namespace SengOS

/-- `fs_free_blocks`. -/
def fsFreeBlocks (d : Disk) : Nat := (List.range' 6 248).countP fun b => !bitmapGet d 2 b

/-- `fs_free_inodes`. -/
def fsFreeInodes (d : Disk) : Nat := (List.range 64).countP fun i => !bitmapGet d 3 i

/-! ## The same files -/

namespace FsState

/-- The directory tree, the size and bytes of every file, the working directory
and the descriptors are the same. -/
structure SameFiles (s t : FsState) : Prop where
  live : ∀ i, inUse t.dev.disk i ↔ inUse s.dev.disk i
  mode : ∀ i, inUse s.dev.disk i → (inodeRead t.dev.disk i).mode = (inodeRead s.dev.disk i).mode
  size : ∀ i, inUse s.dev.disk i → (inodeRead t.dev.disk i).size = (inodeRead s.dev.disk i).size
  byte : ∀ i p, inUse s.dev.disk i → fileByte t.dev.disk i p = fileByte s.dev.disk i p
  entry : ∀ i k, usedDir s.dev.disk i → k < 128 → entryAt t.dev.disk i k = entryAt s.dev.disk i k
  cwd : t.cwdInode = s.cwdInode
  fds : t.fds = s.fds

/-- Both bitmaps are the same, bit by bit. -/
structure SameBitmaps (s t : FsState) : Prop where
  blocks : ∀ b, bitmapGet t.dev.disk 2 b = bitmapGet s.dev.disk 2 b
  inodes : ∀ i, bitmapGet t.dev.disk 3 i = bitmapGet s.dev.disk 3 i

section
variable {s t : FsState}

theorem SameBitmaps.free (h : s.SameBitmaps t) :
    fsFreeBlocks t.dev.disk = fsFreeBlocks s.dev.disk ∧
      fsFreeInodes t.dev.disk = fsFreeInodes s.dev.disk := by
  unfold fsFreeBlocks fsFreeInodes
  simp only [h.blocks, h.inodes, and_self]

theorem sameBitmaps_of_untouched (hu : (view s.dev.disk).Untouched (view t.dev.disk)) :
    s.SameBitmaps t := by
  constructor
  · intro b
    rw [view_bbit, view_bbit, hu.bbit]
  · intro i
    rw [view_ibit, view_ibit, hu.ibit]

theorem sameFiles_of_untouched (h : BlockInv (view s.dev.disk))
    (hu : (view s.dev.disk).Untouched (view t.dev.disk)) (hc : t.cwdInode = s.cwdInode)
    (hf : t.fds = s.fds) : s.SameFiles t := by
  have same := hu.same h
  have inode {i : Nat} (hl : (view s.dev.disk).live i) :
      inodeRead t.dev.disk i = inodeRead s.dev.disk i := by
    rw [view_inode hl.1, view_inode hl.1, (hu.agrees i hl).inode]
  refine ⟨?_, ?_, ?_, ?_, ?_, hc, hf⟩
  · intro i
    rw [inUse_iff, inUse_iff, same.live]
  · intro i hi
    rw [inode ((inUse_iff i).mp hi)]
  · intro i hi
    rw [inode ((inUse_iff i).mp hi)]
  · intro i p hi
    have hl := (inUse_iff i).mp hi
    rw [fileByte_eq (same.blocks h) ((same.live i).mpr hl), fileByte_eq h hl, (hu.agrees i hl).byteAt]
  · intro i k hi _
    have hd := (usedDir_iff i).mp hi
    rw [entryAt_eq (same.blocks h) ((same.isDir i).mpr hd), entryAt_eq h hd, same.entry hd]

theorem unchanged_of_untouched (h : BlockInv (view s.dev.disk))
    (hu : (view s.dev.disk).Untouched (view t.dev.disk)) (hc : t.cwdInode = s.cwdInode)
    (hf : t.fds = s.fds) : s.SameFiles t ∧ s.SameBitmaps t :=
  ⟨sameFiles_of_untouched h hu hc hf, sameBitmaps_of_untouched hu⟩

theorem unchanged_refl (h : BlockInv (view s.dev.disk)) : s.SameFiles s ∧ s.SameBitmaps s :=
  unchanged_of_untouched h (.refl _) rfl rfl

end

/-! ## `fs_mkdir` and `fs_unlink` -/

theorem fsMkdir_failed {s : FsState} (h : s.Inv) {path : Option CStr} (hneg : (s.fsMkdir path).1 < 0) :
    s.SameFiles (s.fsMkdir path).2 ∧ s.SameBitmaps (s.fsMkdir path).2 := by
  have hb := h.fs.toBlockInv
  rcases h.fsMkdir_cases path with ⟨rc, -, hm⟩ | ⟨p, q, x, -, -, -, c, hm, hok⟩
  · rw [hm]
    exact unchanged_refl hb
  · rw [hm]
    rcases hr : createInode s.dev q x inodeDir with ⟨rc | ino, v⟩
    · exact unchanged_of_untouched hb (createInode_untouched hb hr) rfl rfl
    · have h0 := hok.mpr ⟨ino, by rw [hr]⟩
      omega

theorem fsUnlink_failed {s : FsState} (h : s.Inv) {path : Option CStr} (hneg : (s.fsUnlink path).1 < 0) :
    s.SameFiles (s.fsUnlink path).2 ∧ s.SameBitmaps (s.fsUnlink path).2 := by
  rcases h.fsUnlink_cases path with ⟨rc, -, hu⟩ | ⟨p, q, slot, ino, x, -, -, hu⟩
  · rw [hu]
    exact unchanged_refl h.fs.toBlockInv
  · rw [hu] at hneg
    exact absurd hneg (Int.lt_irrefl 0)

/-- A failed `fs_mkdir` or `fs_unlink` has changed nothing. -/
theorem failed_unchanged {s : FsState} (h : s.Inv) (path : Option CStr) :
    ((s.fsMkdir path).1 < 0 → s.SameFiles (s.fsMkdir path).2 ∧ s.SameBitmaps (s.fsMkdir path).2) ∧
    ((s.fsUnlink path).1 < 0 → s.SameFiles (s.fsUnlink path).2 ∧ s.SameBitmaps (s.fsUnlink path).2) :=
  ⟨fsMkdir_failed h, fsUnlink_failed h⟩

/-- "d/e" -/
def pathDE : CStr := ⟨[0x64#8, slash, 0x65#8], by decide⟩

/-- `mkdir` under a regular file: an inode and a block are taken and given back. -/
theorem mkdir_under_file : (openedD.fsMkdir (some pathDE)).1 = -5 ∧
    openedD.SameFiles (openedD.fsMkdir (some pathDE)).2 ∧
    openedD.SameBitmaps (openedD.fsMkdir (some pathDE)).2 := by
  have inv : openedD.Inv := fsOpen_inv fsInit_blank_inv _ _
  have rc : (openedD.fsMkdir (some pathDE)).1 = -5 := by decide +kernel
  refine ⟨rc, (failed_unchanged inv (some pathDE)).1 ?_⟩
  rw [rc]
  decide

/-! ## `fs_open` -/

/-- A call that returns no descriptor leaves the files and the free counts alone. -/
def AllOrNothing (s : FsState) (path : Option CStr) (flags : Word) : Prop :=
  (s.fsOpen path flags).1 < 0 → s.SameFiles (s.fsOpen path flags).2 ∧
    fsFreeBlocks (s.fsOpen path flags).2.dev.disk = fsFreeBlocks s.dev.disk ∧
    fsFreeInodes (s.fsOpen path flags).2.dev.disk = fsFreeInodes s.dev.disk

/-- No descriptor is free, and the call has a file to truncate or to create. -/
def OpensInVain (s : FsState) (path : Option CStr) (flags : Word) : Prop :=
  (∀ i, i < 16 → (s.fds i).used = true) ∧ ∃ p, path = some p ∧
    ((∃ ino, s.resolve p.bytes = some ino ∧ (inodeRead s.dev.disk ino).mode = inodeFile ∧
        flags &&& oTrunc ≠ 0#32 ∧
        ((inodeRead s.dev.disk ino).size ≠ 0#32 ∨ ∃ t, blockRef s.dev.disk ino t ≠ 0)) ∨
      (s.resolve p.bytes = none ∧ flags &&& oCreate ≠ 0#32 ∧
        ∃ q x, s.split p.bytes = some (q, x) ∧ (view s.dev.disk).Creatable q x))

/-- Truncating a file without bytes and blocks is no change. -/
theorem emptied_of_empty {v : View} {ino : Nat} (hs : (v.inode ino).size = 0#32)
    (hp : ∀ t, v.ptr ino t = 0) : v.emptied ino = v := by
  have direct (k : Fin 8) : (v.inode ino).direct k = 0#32 := BitVec.eq_of_toNat_eq (hp (.direct k))
  have indirect : (v.inode ino).indirect = 0#32 := BitVec.eq_of_toNat_eq (hp .indirect)
  have same : (v.inode ino).emptied = v.inode ino := by
    have hn : v.inode ino = ⟨(v.inode ino).size, (v.inode ino).mode, (v.inode ino).direct,
        (v.inode ino).indirect⟩ := rfl
    rw [hn, hs, funext direct, indirect]
    rfl
  apply View.ext
  · funext c
    apply Bool.eq_iff_iff.mpr
    rw [View.emptied, View.setInode_bbit, View.released_iff]
    refine ⟨And.left, fun hc => ⟨hc, fun h6 _ t e => ?_⟩⟩
    rw [hp t] at e
    omega
  · rfl
  · rw [View.emptied, View.setInode_inode, same]
    exact Function.update_eq_self ino _
  · rfl

section
variable {s : FsState}

/-- The part of `fs_open` after the inode is known, where it fails. -/
theorem openInode_failed (h : s.Inv) {ino : Nat} (hl : (view s.dev.disk).live ino) {flags : Word}
    (hneg : (s.openInode ino flags).1 < 0)
    (hn : ¬ ((∀ i, i < 16 → (s.fds i).used = true) ∧ (inodeRead s.dev.disk ino).mode = inodeFile ∧
      flags &&& oTrunc ≠ 0#32 ∧
      ((inodeRead s.dev.disk ino).size ≠ 0#32 ∨ ∃ t, blockRef s.dev.disk ino t ≠ 0))) :
    (view s.dev.disk).Untouched (view (s.openInode ino flags).2.dev.disk) ∧
      (s.openInode ino flags).2.cwdInode = s.cwdInode ∧ (s.openInode ino flags).2.fds = s.fds := by
  have hb := h.fs.toBlockInv
  rcases s.openInode_cases ino flags with ⟨-, ho⟩ | ⟨hm, ⟨ho, full⟩ | ⟨i, offset, -, -, ho⟩⟩
  · rw [ho]
    exact ⟨.refl _, rfl, rfl⟩
  · rw [ho, truncated]
    by_cases ht : flags &&& oTrunc = 0#32
    · rw [if_neg (not_not.mpr ht)]
      exact ⟨.refl _, rfl, rfl⟩
    · have hsize : (inodeRead s.dev.disk ino).size = 0#32 := by
        by_contra hne
        exact hn ⟨full, hm, ht, Or.inl hne⟩
      have hptr (t : Slot) : (view s.dev.disk).ptr ino t = 0 := by
        by_contra hne
        exact hn ⟨full, hm, ht, Or.inr ⟨t, by rwa [blockRef_eq hb hl]⟩⟩
      rw [view_inode hl.1] at hm hsize
      rw [if_pos ht]
      refine ⟨?_, rfl, rfl⟩
      rw [view_truncate hb ⟨hl, hm⟩, emptied_of_empty hsize hptr]
      exact .refl _
  · rw [ho] at hneg
    exact absurd hneg (by dsimp only; omega)

theorem allOrNothing_of_not_inVain (h : s.Inv) {path : Option CStr} {flags : Word}
    (hn : ¬ s.OpensInVain path flags) : s.AllOrNothing path flags := by
  have hb := h.fs.toBlockInv
  have done {t : FsState} (hu : (view s.dev.disk).Untouched (view t.dev.disk) ∧
      t.cwdInode = s.cwdInode ∧ t.fds = s.fds) :
      s.SameFiles t ∧ fsFreeBlocks t.dev.disk = fsFreeBlocks s.dev.disk ∧
        fsFreeInodes t.dev.disk = fsFreeInodes s.dev.disk :=
    ⟨sameFiles_of_untouched hb hu.1 hu.2.1 hu.2.2, (sameBitmaps_of_untouched hu.1).free⟩
  intro hneg
  rcases h.fsOpen_cases path flags with ⟨rc, -, ho⟩ | ⟨p, ino, hp, hr, hl, ho⟩ |
    ⟨p, q, x, hp, hr, hc, hs, hord, c, ho⟩
  · rw [ho]
    exact done ⟨.refl _, rfl, rfl⟩
  · rw [ho] at hneg ⊢
    apply done
    apply openInode_failed h hl hneg
    rintro ⟨full, hm, ht, hsome⟩
    exact hn ⟨full, p, hp, Or.inl ⟨ino, hr, hm, ht, hsome⟩⟩
  · rw [ho] at hneg ⊢
    rcases hmade : createInode s.dev q x inodeFile with ⟨rc | ino, v⟩
    · exact done ⟨createInode_untouched hb hmade, rfl, rfl⟩
    · rw [hmade] at hneg c
      cases c with
      | created c hw _ =>
        exfalso
        rcases openInode_cases { s with dev := v } ino flags with
          ⟨hm, -⟩ | ⟨-, ⟨-, full⟩ | ⟨i, offset, -, -, ho⟩⟩
        · exact hm (mode_of_isFile ((c.isFile ino).mpr (Or.inr ⟨rfl, rfl⟩)))
        · exact hn ⟨full, p, hp, Or.inr ⟨hr, hc, q, x, hs, c.creatable⟩⟩
        · dsimp only at hneg
          rw [ho] at hneg
          exact absurd hneg (by dsimp only; omega)

end

/-! ## What a call without a descriptor leaves behind -/

/-- Blocks that come free show in the count. -/
theorem fsFreeBlocks_lt {d e : Disk}
    (keep : ∀ b, bitmapGet d 2 b = false → bitmapGet e 2 b = false) {c : Nat} (h6 : 6 ≤ c)
    (h254 : c < 254) (before : bitmapGet d 2 c = true) (after : bitmapGet e 2 c = false) :
    fsFreeBlocks d < fsFreeBlocks e := by
  have sub : (List.range' 6 248).filter (fun b => !bitmapGet d 2 b) =
      ((List.range' 6 248).filter (fun b => !bitmapGet e 2 b)).filter (fun b => !bitmapGet d 2 b) := by
    rw [List.filter_filter]
    apply List.filter_congr
    intro b _
    cases hb : bitmapGet d 2 b with
    | true => rfl
    | false => simp [keep b hb]
  unfold fsFreeBlocks
  rw [List.countP_eq_length_filter, List.countP_eq_length_filter, sub]
  apply List.length_filter_lt_length_iff_exists.mpr
  refine ⟨c, ?_, by simp [before]⟩
  simp only [List.mem_filter, List.mem_range'_1, after, Bool.not_false, and_true]
  omega

section
variable {s : FsState}

/-- With no descriptor left the call ends in -6, after the truncation. -/
theorem openInode_full (full : ∀ i, i < 16 → (s.fds i).used = true) {ino : Nat}
    (hm : (inodeRead s.dev.disk ino).mode = inodeFile) (flags : Word) :
    s.openInode ino flags = (-6, s.truncated ino flags) := by
  rcases s.openInode_cases ino flags with ⟨hne, -⟩ | ⟨-, ⟨ho, -⟩ | ⟨i, offset, hi, hu, -⟩⟩
  · exact absurd hm hne
  · exact ho
  · rw [full i hi] at hu
    cases hu

theorem truncate_shows (h : s.Inv) {ino : Nat} (hf : (view s.dev.disk).isFile ino)
    (hsome : (inodeRead s.dev.disk ino).size ≠ 0#32 ∨ ∃ t, blockRef s.dev.disk ino t ≠ 0) :
    (inodeRead (truncate s.dev ino).disk ino).size ≠ (inodeRead s.dev.disk ino).size ∨
      fsFreeBlocks s.dev.disk < fsFreeBlocks (truncate s.dev ino).disk := by
  have hb := h.fs.toBlockInv
  have hv := view_truncate hb hf
  rcases hsome with hs | ⟨t, ht⟩
  · left
    rw [view_inode hf.1.1, hv, View.emptied, View.setInode_inode, Function.update_self]
    exact hs.symm
  · right
    rw [blockRef_eq hb hf.1] at ht
    have bit (c : Nat) : bitmapGet (truncate s.dev ino).disk 2 c = true ↔
        (view s.dev.disk).bbit c = true ∧ (6 ≤ c → c < 254 → ∀ s', (view s.dev.disk).ptr ino s' ≠ c) := by
      rw [view_bbit, hv, View.emptied, View.setInode_bbit, View.released_iff]
    obtain ⟨h6, h254⟩ := hb.file_ptr_range hf ht
    refine fsFreeBlocks_lt (fun c hc => ?_) h6 h254 ?_ ?_
    · rw [view_bbit] at hc
      rw [← Bool.not_eq_true, bit, hc]
      exact fun hbad => absurd hbad.1 (by decide)
    · rw [view_bbit]
      exact hb.own.held_used hf.1 h6 h254
    · rw [← Bool.not_eq_true, bit]
      exact fun hbad => hbad.2 h6 h254 t rfl

/-- A created file stays when the call fails after it. -/
theorem created_shows (h : s.Inv) {q slot ino b : Nat} {x : List Byte} {v : Dev} (hx : Ordinary x)
    (c : (view s.dev.disk).Created (view v.disk) q slot ino b x inodeFile) (hw : s.dev.Writes v)
    (flags : Word) :
    ¬ inUse s.dev.disk ino ∧ inUse (truncated { s with dev := v } ino flags).dev.disk ino := by
  rw [inUse_iff, inUse_iff]
  refine ⟨c.not_live, ?_⟩
  have hf : (view v.disk).isFile ino := (c.isFile ino).mpr (Or.inr ⟨rfl, rfl⟩)
  exact (truncated_inv (h.created c hx hw) hf flags).2.1.1

theorem not_allOrNothing_of_inVain (h : s.Inv) {path : Option CStr} {flags : Word}
    (hv : s.OpensInVain path flags) : ¬ s.AllOrNothing path flags := by
  obtain ⟨full, p, rfl, hv⟩ := hv
  rcases hv with ⟨ino, hr, hm, ht, hsome⟩ | ⟨hr, hc, q, x, hs, able⟩
  · have hl := h.resolve_live hr
    have ho : s.fsOpen (some p) flags = (-6, { s with dev := truncate s.dev ino }) := by
      have hopen : s.fsOpen (some p) flags = s.openInode ino flags := by
        simp [fsOpen, h.ready, hr]
      rw [hopen, openInode_full full hm, truncated, if_pos ht]
    intro all
    rw [AllOrNothing, ho] at all
    obtain ⟨same, blocks, -⟩ := all (show (-6 : Int) < 0 by decide)
    rcases truncate_shows h ⟨hl, by rw [← view_inode hl.1]; exact hm⟩ hsome with hne | hlt
    · exact hne (same.size ino ((inUse_iff ino).mpr hl))
    · exact absurd blocks (Nat.ne_of_gt hlt)
  · obtain ⟨hq, hgood, hord⟩ := h.split_good hs
    have made := createInode_result h.fs hq hgood inodeFile
    rcases hmade : createInode s.dev q x inodeFile with ⟨rc | ino, v⟩
    · rw [hmade] at made
      cases made with
      | failed _ _ hno => exact absurd able hno
    · rw [hmade] at made
      cases made with
      | created c hw _ =>
        have hmode := mode_of_isFile ((c.isFile ino).mpr (Or.inr ⟨rfl, rfl⟩))
        have ho : s.fsOpen (some p) flags = (-6, truncated { s with dev := v } ino flags) := by
          have hopen : s.fsOpen (some p) flags = openInode { s with dev := v } ino flags := by
            simp [fsOpen, h.ready, hr, hc, hs, hmade]
          rw [hopen]
          exact openInode_full (s := { s with dev := v }) full hmode flags
        intro all
        rw [AllOrNothing, ho] at all
        obtain ⟨same, -, -⟩ := all (show (-6 : Int) < 0 by decide)
        obtain ⟨new, stays⟩ := created_shows h hord c hw flags
        exact new ((same.live ino).mp stays)

end

/-- `fs_open` is all-or-nothing exactly when it does not work in vain. -/
theorem fsOpen_allOrNothing_iff {s : FsState} (h : Reachable s) (path : Option CStr) (flags : Word) :
    s.AllOrNothing path flags ↔ ¬ s.OpensInVain path flags :=
  ⟨fun all hv => not_allOrNothing_of_inVain h.inv hv all, allOrNothing_of_not_inVain h.inv⟩

theorem openedD_reachable : Reachable openedD := .step (.open (some nameD) 0x102#32) .init trivial

/-- A file cannot be created under a file; the failed call leaves nothing behind. -/
theorem open_under_file : (openedD.fsOpen (some pathDE) 0x102#32).1 = -4 ∧
    openedD.AllOrNothing (some pathDE) 0x102#32 := by
  have run : (openedD.fsOpen (some pathDE) 0x102#32).1 = -4 ∧ (openedD.fds 1).used = false := by
    decide +kernel
  obtain ⟨rc, free⟩ := run
  refine ⟨rc, (fsOpen_allOrNothing_iff openedD_reachable _ _).mpr fun hv => ?_⟩
  rw [hv.1 1 (by decide)] at free
  cases free

/-- "d" holds three bytes and all sixteen descriptors are open on it. -/
def crowdedD : FsState :=
  (List.range 15).foldl (fun s _ => s.step (.open (some nameD) 0#32))
    (openedD.step (.write 0 (some fun _ => 0x58#8) 3#32))

theorem crowdedD_reachable : Reachable crowdedD := by
  have opens (n : Nat) {s : FsState} (h : Reachable s) :
      Reachable ((List.range n).foldl (fun s _ => s.step (.open (some nameD) 0#32)) s) := by
    induction n with
    | zero => exact h
    | succ n ih =>
      rw [List.range_succ, List.foldl_append]
      exact .step (.open (some nameD) 0#32) ih trivial
  exact opens 15 (.step (.write 0 _ _) openedD_reachable trivial)

/-- Opening "d" once more with `FS_O_TRUNC` fails and empties it. -/
theorem open_trunc_fails : Reachable crowdedD ∧
    (crowdedD.fsOpen (some nameD) 0x202#32).1 = -6 ∧ ¬ crowdedD.AllOrNothing (some nameD) 0x202#32 := by
  have run : (crowdedD.fsOpen (some nameD) 0x202#32).1 = -6 ∧ bitmapGet crowdedD.dev.disk 3 1 = true ∧
      (inodeRead crowdedD.dev.disk 1).size = 3#32 ∧
      (inodeRead (crowdedD.fsOpen (some nameD) 0x202#32).2.dev.disk 1).size = 0#32 := by
    decide +kernel
  obtain ⟨rc, used, before, after⟩ := run
  refine ⟨crowdedD_reachable, rc, fun all => ?_⟩
  have same := (all (by rw [rc]; decide)).1.size 1 ⟨by decide, used⟩
  rw [before, after] at same
  exact absurd same (by decide)

end FsState

end SengOS
