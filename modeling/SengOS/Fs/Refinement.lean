import SengOS.Fs.Sound

/-!
# The calls refine the file tree

Each call of `fs.c` in a sound state is one step of `Files.Step` between the files of the two
states, with the answer that the caller gets. Runs of calls and reboots are runs of the tree.
-/

namespace SengOS

namespace FsState

def answer (s : FsState) : FsOp → Answer
  | .open path flags => ((s.fsOpen path flags).1, [])
  | .read fd buf count => ((s.fsRead fd buf count).1, (s.fsRead fd buf count).2.1)
  | .write fd buf count => ((s.fsWrite fd buf count).1, [])
  | .close fd => ((s.fsClose fd).1, [])
  | .unlink path => ((s.fsUnlink path).1, [])
  | .mkdir path => ((s.fsMkdir path).1, [])
  | .chdir path => ((s.fsChdir path).1, [])

section
variable {s : FsState}

/-! ## Creation -/

/-- What `create_inode` makes. -/
def newNode (mode : Word) (parent self : Nat) : FileNode Nat (List Byte) Byte :=
  if mode = inodeDir then newDir parent self else .file []

theorem nameNew_failed {v v' : Dev} {ino b q : Nat} {x : List Byte} {rc : Int}
    (h : nameNew v ino b q x = (.error rc, v')) : rc = -5 := by
  unfold nameNew at h
  dsimp only at h
  split at h
  · cases h
    rfl
  · cases h

theorem nameNew_made {v v' : Dev} {ino b q i : Nat} {x : List Byte}
    (h : nameNew v ino b q x = (.ok i, v')) : i = ino := by
  unfold nameNew at h
  dsimp only at h
  split at h
  · cases h
  · cases h
    rfl

/-- `create_inode` reports the first thing that is missing. -/
theorem createInode_creates (h : s.Sound) {q : Nat} {x : List Byte} {mode : Word}
    (hq : (view s.dev.disk).live q) (hx : GoodName x) (hord : Ordinary x)
    (hm : mode = inodeFile ∨ mode = inodeDir) :
    s.files.Creates s.shortage q x (newNode mode q) (createInode s.dev q x mode).1
      (FsState.files { s with dev := (createInode s.dev q x mode).2 }) := by
  have hb := h.fs.toBlockInv
  have hfind : s.files.tree.find q x = lookup s.dev.disk q x := h.find_files hq hx
  have hfresh := s.fresh_files
  have c := createInode_result h.fs hq hx mode
  have undone {rc : Int} {v : Dev} (hr : createInode s.dev q x mode = (.error rc, v)) :
      FsState.files { s with dev := v } = s.files := by
    have := treeOf_untouched h.fs (createInode_untouched hb hr)
    simp only [files, this]
    rfl
  cases hf : dirFind s.dev.disk q x with
  | some r =>
    have hr : createInode s.dev q x mode = (.error (-2), s.dev) := by simp [createInode, hf]
    rw [hr]
    refine .taken ?_
    rw [hfind, lookup, hf]
    simp
  | none =>
    have absent : s.files.tree.find q x = none := by
      rw [hfind, lookup, hf]
      rfl
    cases hi : (List.range 64).find? (fun i => !bitmapGet s.dev.disk 3 i) with
    | none =>
      rw [hi] at hfresh
      have hr : createInode s.dev q x mode = (.error (-3), s.dev) := by
        simp [createInode, hf, allocInode, hi]
      rw [hr]
      exact .noInode absent hfresh
    | some ino =>
      rw [hi] at hfresh
      have hino : ino < 64 := List.mem_range.mp (List.mem_of_find?_eq_some hi)
      have hfree : (view s.dev.disk).ibit ino = false := by
        have := List.find?_some hi
        rw [view_ibit] at this
        simpa using this
      have ha : allocInode s.dev = (some ino, bitmapSet s.dev 3 ino true) := by
        simp [allocInode, hi]
      rcases allocBlock_cases (bitmapSet s.dev 3 ino true) with ⟨hn, full⟩ | ⟨b, hn, h6, h254, free⟩
      · have hr : createInode s.dev q x mode =
            (.error (-4), freeInode (bitmapSet s.dev 3 ino true) ino) := by
          simp [createInode, hf, ha, hn]
        rw [hr, undone hr]
        refine .noBlock absent hfresh fun b h6 h254 => ?_
        have := full b h6 h254
        rw [view_bitmapSet_inode hino] at this
        rw [view_bbit]
        exact this
      · rw [view_bitmapSet_inode hino] at free
        have space : ¬ s.shortage.blocks := by
          intro full
          have := full b h6 h254
          rw [view_bbit] at this
          exact absurd this (by simpa using free)
        have heq : createInode s.dev q x mode = nameNew (prepared s.dev ino b q mode) ino b q x :=
          createInode_eq hf ha hn (.inr ⟨h6, h254⟩)
        rcases hr : createInode s.dev q x mode with ⟨rc | i, v⟩
        · rw [undone hr]
          obtain rfl := nameNew_failed (heq.symm.trans hr)
          rw [hr] at c
          cases c with
          | failed _ _ hno =>
            refine .noEntry absent hfresh space ?_
            by_cases hd : (view s.dev.disk).isDir q
            · right
              intro k hk he
              rw [entryAt_eq hb hd] at he
              refine hno ⟨hd, fun k j hk he => ?_, ⟨k, hk, he⟩, ⟨ino, hino, hfree⟩, ⟨b, h6, h254, free⟩⟩
              rw [dirFind_none h.fs hd hx] at hf
              exact hf k j hk he
            · exact .inl fun hn => hd ((treeOf_isDir hb).mp hn)
        · obtain rfl := nameNew_made (heq.symm.trans hr)
          rw [hr] at c
          cases c with
          | created c _ _ =>
            have tree := treeOf_created h.fs (c.inv h.fs hm hord.1 hord.2) c hm
            have made : s.files.Creates s.shortage q x (newNode mode q) (.ok _) _ :=
              .made absent hfresh space ((treeOf_isDir hb).mpr c.parent_dir)
              (fun none => none _ c.slot_lt (by rw [entryAt_eq hb c.parent_dir, c.slot_free]))
            simp only [files, tree]
            exact made

/-! ## `fs_open` -/

theorem openFile_isNone {k : Nat} (hk : k < 16) : (s.openFile k).isNone = !(s.fds k).used := by
  unfold openFile
  cases (s.fds k).used <;> simp [hk]

theorem truncated_files (h : s.Inv) {ino : Nat} (hf : (view s.dev.disk).isFile ino) (flags : Word) :
    (s.truncated ino flags).files = ⟨s.files.tree.put ino
      (if flags &&& oTrunc ≠ 0#32 then [] else contentOf s.dev.disk ino), s.files.fds,
      s.files.cwd⟩ := by
  unfold truncated
  split
  · have hv := view_truncate h.fs.toBlockInv hf
    have frame := View.emptied_frame (view s.dev.disk) ino
    have inv := View.emptied_inv h.fs hf
    rw [← hv] at frame inv
    have hsize : (inodeRead (truncate s.dev ino).disk ino).size = 0#32 := by
      rw [truncate, inodeRead_inodeWrite hf.1.1 hf.1.1, if_pos rfl]
    have empty : contentOf (truncate s.dev ino).disk ino = [] := by
      rw [contentOf, hsize]
      rfl
    have tree := treeOf_frame h.fs inv frame hf
    rw [empty] at tree
    simp only [files, tree]
    rfl
  · have same : s.files.tree.put ino (contentOf s.dev.disk ino) = s.files.tree :=
      FileTree.put_self (treeOf_file hf)
    rw [same]

theorem openInode_files (h : s.Inv) {ino : Nat} (hl : (view s.dev.disk).live ino) (flags : Word) :
    s.files.opened ino flags = ((s.openInode ino flags).1, (s.openInode ino flags).2.files) := by
  rcases h.fs.mode ino hl with hf | hd
  · have hm := mode_of_isFile hf
    obtain ⟨ht, hf', hfds⟩ := truncated_inv h hf flags
    have tfiles := truncated_files h hf flags
    have htree : (s.truncated ino flags).files.tree ino =
        some (.file (contentOf (s.truncated ino flags).dev.disk ino)) := treeOf_file hf'
    have hlen : (if flags &&& oTrunc ≠ 0#32 then [] else contentOf s.dev.disk ino) =
        contentOf (s.truncated ino flags).dev.disk ino := by
      rw [tfiles] at htree
      exact FileNode.file.inj (Option.some.inj ((FileTree.put_apply_self ..).symm.trans htree))
    have hfind : (List.range 16).find? (fun k => (s.files.fds k).isNone) =
        (List.range 16).find? fun k => !(s.fds k).used :=
      List.find?_congr fun k hk => openFile_isNone (List.mem_range.mp hk)
    rw [Files.opened, show s.files.tree ino = _ from treeOf_file hf, openInode_eq hl.1 hm flags]
    dsimp only
    rw [hfind, hlen, contentOf_length, ← hlen, ← tfiles]
    cases hk : (List.range 16).find? fun k => !(s.fds k).used with
    | none => rfl
    | some k =>
      have hlt := List.mem_range.mp (List.mem_of_find?_eq_some hk)
      have hopen : (s.truncated ino flags).openFile = s.openFile := by
        funext j
        rw [openFile, hfds, openFile]
      have hfd := openFile_update (s := s.truncated ino flags) hlt ⟨BitVec.ofNat 32 ino,
        if flags &&& oAppend ≠ 0#32 then (inodeRead (s.truncated ino flags).dev.disk ino).size
          else 0#32, flags, true⟩
      rw [hfds] at hfd
      refine Prod.ext rfl ?_
      simp only [files, Files.setFd, hfd, toNat_ofNat_word hl.1, ↓reduceIte]
      congr 3
      split <;> rfl
  · have hm : (inodeRead s.dev.disk ino).mode ≠ inodeFile := by
      rw [view_inode hl.1, hd.2]
      decide
    have : s.openInode ino flags = (-5, s) := by simp [openInode, hm]
    rw [Files.opened, show s.files.tree ino = _ from treeOf_dir hd, this]

theorem fsOpen_refines (h : s.Sound) (path : Option CStr) (flags : Word) :
    s.files.Step s.shortage (s.fsOpen path flags).2.shortage (.open path flags)
      ((s.fsOpen path flags).1, []) (s.fsOpen path flags).2.files := by
  cases path with
  | none => exact .openNull flags
  | some p =>
    have hres := h.resolve_files p
    have hsplit := h.split_files p
    cases hr : s.resolve p.bytes with
    | some ino =>
      have ho : s.fsOpen (some p) flags = s.openInode ino flags := by simp [fsOpen, h.ready, hr]
      have step : s.files.Step s.shortage (s.openInode ino flags).2.shortage (.open (some p) flags) _ _ :=
        .opens (hres.trans hr)
      rw [openInode_files h.toInv (h.resolve_live hr)] at step
      rw [ho]
      exact step
    | none =>
      rw [hr] at hres
      by_cases hc : flags &&& oCreate = 0#32
      · have ho : s.fsOpen (some p) flags = (-2, s) := by simp [fsOpen, h.ready, hr, hc]
        rw [ho]
        exact .openMissing hres hc
      cases hs : s.split p.bytes with
      | none =>
        have ho : s.fsOpen (some p) flags = (-3, s) := by simp [fsOpen, h.ready, hr, hc, hs]
        rw [ho]
        exact .openNowhere hres hc (hsplit.trans hs)
      | some r =>
        obtain ⟨q, x⟩ := r
        obtain ⟨hq, hx, hord⟩ := h.split_good hs
        have made := createInode_creates h hq hx hord (.inl rfl)
        have sound := created_sound h rfl (createInode_result h.fs hq hx inodeFile) hord (.inl rfl)
        have c := createInode_result h.fs hq hx inodeFile
        have hnode : newNode inodeFile q = fun _ => .file [] := funext fun _ => if_neg (by decide)
        rw [hnode] at made
        rcases hr' : createInode s.dev q x inodeFile with ⟨rc | ino, v⟩
        · have ho : s.fsOpen (some p) flags = (-4, { s with dev := v }) := by
            simp [fsOpen, h.ready, hr, hc, hs, hr']
          rw [hr'] at made
          rw [ho]
          exact .openFailed hres hc (hsplit.trans hs) made
        · have ho : s.fsOpen (some p) flags = openInode { s with dev := v } ino flags := by
            simp [fsOpen, h.ready, hr, hc, hs, hr']
          rw [hr'] at made sound c
          have hl : (view v.disk).live ino := by
            cases c with
            | created c _ _ => exact (c.live ino).mpr (.inr rfl)
          have step : s.files.Step s.shortage (openInode { s with dev := v } ino flags).2.shortage
              (.open (some p) flags) _ _ := .openCreated hres hc (hsplit.trans hs) made
          rw [openInode_files sound.toInv hl] at step
          rw [ho]
          exact step

/-! ## `fs_read` and `fs_write` -/

theorem fileBytes_slice (d : Disk) (ino size o count : Nat) :
    ((fileBytes d ino 0 size).drop o).take count = fileBytes d ino o (min count (size - o)) := by
  apply List.ext_getElem?
  intro k
  unfold fileBytes
  by_cases hk : k < min count (size - o)
  · rw [List.getElem?_take_of_lt (by omega), List.getElem?_drop, List.getElem?_map,
      List.getElem?_map, List.getElem?_range (by omega), List.getElem?_range hk, Option.map_some,
      Option.map_some, Nat.zero_add]
  · rw [List.getElem?_eq_none (by simp; omega), List.getElem?_eq_none (by simp; omega)]

/-- Only the offset of a descriptor changes. -/
theorem seek_files {i : Nat} (hi : i < 16) (hu : (s.fds i).used = true) {o : Word} {n : Nat}
    (ho : o.toNat = (s.fds i).offset.toNat + n) (dev : Dev) :
    FsState.files { s with dev := dev, fds := Function.update s.fds i { s.fds i with offset := o } } =
      Files.setFd ⟨treeOf dev.disk, s.files.fds, s.files.cwd⟩ i (some ⟨(s.fds i).inode.toNat,
        (s.fds i).offset.toNat + n, (s.fds i).flags &&& 3#32 ≠ 0#32⟩) := by
  have hfd := openFile_update (s := { s with dev := dev }) hi { s.fds i with offset := o }
  dsimp only at hfd
  rw [if_pos hu, ho] at hfd
  simp only [files, Files.setFd, hfd]
  rfl

theorem fsRead_refines (h : s.Sound) (fd : Int) (buf : Bool) (count : Word) :
    s.files.Step s.shortage (s.fsRead fd buf count).2.2.shortage (.read fd buf count)
      ((s.fsRead fd buf count).1, (s.fsRead fd buf count).2.1) (s.fsRead fd buf count).2.2.files := by
  cases hi : s.fdIndex fd with
  | none =>
    have hr : s.fsRead fd buf count = (-1, [], s) := by simp [fsRead, hi]
    rw [hr]
    exact .readRefused (.inl (handle_none hi))
  | some i =>
    obtain ⟨hlt, hu⟩ := fdIndex_some hi
    cases buf with
    | false =>
      have hr : s.fsRead fd false count = (-1, [], s) := by simp [fsRead, hi]
      rw [hr]
      exact .readRefused (.inr rfl)
    | true =>
      have hfd : s.fsRead fd true count = s.fsRead i true count := by
        simp only [fsRead, hi, fdIndex_used hlt hu]
      have hf := h.fds i hlt hu
      have slice := fileBytes_slice s.dev.disk (s.fds i).inode.toNat
        (inodeRead s.dev.disk (s.fds i).inode.toNat).size.toNat (s.fds i).offset.toNat count.toNat
      have reads (after : Shortage) : s.files.Step s.shortage after (.read fd true count) _ _ :=
        .reads (handle_some hi) (treeOf_file hf) slice.symm
      rw [hfd]
      rcases Nat.lt_or_ge (s.fds i).offset.toNat
        (inodeRead s.dev.disk (s.fds i).inode.toNat).size.toNat with ho | ho
      · obtain ⟨o, hr, hoff⟩ := fsRead_solid h.toInv h.solid hlt hu count rfl ho rfl
        rw [hr, seek_files hlt hu hoff]
        have hlen (o n : Nat) : (fileBytes s.dev.disk (s.fds i).inode.toNat o n).length = n := by
          simp [fileBytes]
        rw [hlen] at reads
        exact reads _
      · rw [fsRead_end h.toInv hlt hu count ho]
        rw [Nat.sub_eq_zero_of_le ho, Nat.min_zero] at reads
        have same : s.files.setFd i (some ⟨(s.fds i).inode.toNat, (s.fds i).offset.toNat + 0,
            (s.fds i).flags &&& 3#32 ≠ 0#32⟩) = s.files := by
          have hold := openFile_used hlt hu
          rw [Files.setFd, Nat.add_zero, ← hold]
          exact congrArg (fun fds => Files.mk _ fds _) (Function.update_eq_self i s.openFile)
        have none (o : Nat) : fileBytes s.dev.disk (s.fds i).inode.toNat o 0 = [] := rfl
        have last := reads s.shortage
        rw [none, List.length_nil] at last
        dsimp only at last
        rw [same] at last
        exact last

theorem fsWrite_refines (h : s.Sound) (fd : Int) (buf : Option (Nat → Byte)) (count : Word) :
    s.files.Step s.shortage (s.fsWrite fd buf count).2.shortage (.write fd buf count)
      ((s.fsWrite fd buf count).1, []) (s.fsWrite fd buf count).2.files := by
  cases hi : s.fdIndex fd with
  | none =>
    have hw : s.fsWrite fd buf count = (-1, s) := by simp [fsWrite, hi]
    rw [hw]
    exact .writeRefused (.inl (handle_none hi))
  | some i =>
    obtain ⟨hlt, hu⟩ := fdIndex_some hi
    have handle := handle_some hi
    cases buf with
    | none =>
      have hw : s.fsWrite fd none count = (-1, s) := by simp [fsWrite, hi]
      rw [hw]
      exact .writeRefused (.inr (.inl rfl))
    | some d =>
      by_cases hm : (s.fds i).flags &&& 3#32 = 0#32
      · have hw : s.fsWrite fd (some d) count = (-1, s) := by simp [fsWrite, hi, hm]
        rw [hw]
        refine .writeRefused (.inr (.inr ⟨i, _, handle, ?_⟩))
        simp [hm]
      · have hb := h.fs.toBlockInv
        have hf := h.fds i hlt hu
        obtain ⟨w, done, hw⟩ := fsWrite_file hi hm hb hf d count
        have hv := done.view_stored hf.1.1
        obtain ⟨fs, frame, -, -⟩ := done.stored h.fs hf
        have hf' := (frame.isFile _).mpr hf
        have hsize : ((w.view (s.fds i).inode.toNat).inode (s.fds i).inode.toNat).size.toNat = _ :=
          (congrArg (fun n => n.size.toNat) (virtualView_inode _ _ _)).trans done.size
        have content : contentOf (inodeWrite w.dev (s.fds i).inode.toNat w.inode).disk
            (s.fds i).inode.toNat = overwrite 0#8 (contentOf s.dev.disk (s.fds i).inode.toNat)
              (s.fds i).offset.toNat ((List.range w.done).map d) := by
          rw [contentOf_eq hb hf.1, contentOf_eq fs.toBlockInv hf'.1, overwrite_range, hv, hsize]
          · exact List.map_congr_left fun p _ => done.byte p
          · intro p hp hpo
            rcases h.tail _ hf with zero | within
            · exact zero p hp
            · have := within i hlt hu rfl
              omega
        have tree := treeOf_frame h.fs fs frame hf
        rw [content] at tree
        rw [hw]
        dsimp only
        rw [seek_files hlt hu done.offset, tree]
        refine .writes handle (by simpa using hm) (treeOf_file hf) done.le fun hlt => ?_
        refine (done.stop hlt).imp_right fun full b h6 h254 => ?_
        rw [view_bbit]
        dsimp only
        rw [hv]
        exact full b h6 h254

/-! ## The other calls -/

theorem fsClose_refines (s : FsState) (fd : Int) :
    s.files.Step s.shortage (s.fsClose fd).2.shortage (.close fd) ((s.fsClose fd).1, [])
      (s.fsClose fd).2.files := by
  unfold fsClose
  cases hi : s.fdIndex fd with
  | none => exact .closeRefused (handle_none hi)
  | some i =>
    have hfd := openFile_update (s := s) (fdIndex_some hi).1 { s.fds i with used := false }
    rw [if_neg Bool.false_ne_true] at hfd
    dsimp only
    simp only [files, hfd]
    exact .closes (handle_some hi)

/-- A directory that `fs_unlink` takes for non-empty. -/
theorem occupied_iff (h : s.Inv) {ino : Nat} (hl : (view s.dev.disk).live ino) :
    s.files.Occupied ino ↔ (inodeRead s.dev.disk ino).mode = inodeDir ∧
      dirNonEmpty (readBlock s.dev.disk ((inodeRead s.dev.disk ino).direct 0).toNat) = true := by
  rw [view_inode hl.1]
  constructor
  · rintro ⟨x, hord, hx⟩
    have hd : (view s.dev.disk).isDir ino := by
      refine (treeOf_isDir h.fs.toBlockInv).mp ?_
      by_contra hno
      exact hx (FileTree.find_of_not_dir hno x)
    refine ⟨hd.2, ?_⟩
    obtain ⟨j, hj⟩ := Option.ne_none_iff_exists'.mp hx
    change (treeOf s.dev.disk).find ino x = some j at hj
    rw [FileTree.find_dir (treeOf_dir hd), namesOf] at hj
    split at hj
    · rename_i good
      obtain ⟨-, k, hk, he⟩ := (lookup_iff h.fs hl good).mp hj
      have hread := readBlock_data (h.fs.dirBlock_data hd) s.dev.disk
      rw [View.dirBlock] at hread
      rw [hread]
      refine dirNonEmpty_iff.mpr ⟨k, ordinary_slot h.fs hd hord he, hk, ?_⟩
      exact Option.ne_none_iff_exists'.mpr ⟨_, he⟩
    · cases hj
  · rintro ⟨hm, hne⟩
    have hd : (view s.dev.disk).isDir ino := ⟨hl, hm⟩
    have hread := readBlock_data (h.fs.dirBlock_data hd) s.dev.disk
    rw [View.dirBlock] at hread
    rw [hread] at hne
    obtain ⟨k, h2, hk, he⟩ := dirNonEmpty_iff.mp hne
    obtain ⟨⟨x, j⟩, he⟩ := Option.ne_none_iff_exists'.mp he
    have good := h.fs.name ino k x j hd hk he
    refine ⟨x, (ordinary_entry h.fs hd hk he).mp h2, ?_⟩
    rw [h.find_files hl good, (lookup_iff h.fs hl good).mpr ⟨hd, k, hk, he⟩]
    simp

theorem fsUnlink_refines (h : s.Inv) (path : Option CStr) :
    s.files.Step s.shortage (s.fsUnlink path).2.shortage (.unlink path) ((s.fsUnlink path).1, [])
      (s.fsUnlink path).2.files := by
  cases path with
  | none => exact .unlinkNull
  | some p =>
    have hsplit := h.split_files p
    cases hs : s.split p.bytes with
    | none =>
      have hu : s.fsUnlink (some p) = (-2, s) := by simp [fsUnlink, h.ready, hs]
      rw [hu]
      exact .unlinkNowhere (hsplit.trans hs)
    | some r =>
      obtain ⟨q, x⟩ := r
      rw [hs] at hsplit
      obtain ⟨hq, hx, hord⟩ := h.split_good hs
      have hfind := h.find_files hq hx
      cases hf : dirFind s.dev.disk q x with
      | none =>
        have hu : s.fsUnlink (some p) = (-3, s) := by simp [fsUnlink, h.ready, hs, hf]
        rw [lookup, hf] at hfind
        rw [hu]
        exact .unlinkMissing hsplit hfind
      | some r =>
        obtain ⟨slot, w⟩ := r
        rw [lookup, hf, Option.map_some] at hfind
        obtain ⟨hd, hslot, he⟩ := dirFind_some h.fs hq hx hf
        have hl := h.fs.entry_live hd hslot he
        have occupied := occupied_iff h hl
        by_cases h0 : w.toNat = 0
        · have hu : s.fsUnlink (some p) = (-4, s) := by simp [fsUnlink, h.ready, hs, hf, h0]
          rw [hu]
          exact .unlinkRoot hsplit (h0 ▸ hfind)
        by_cases hne : (inodeRead s.dev.disk w.toNat).mode = inodeDir ∧
            dirNonEmpty (readBlock s.dev.disk ((inodeRead s.dev.disk w.toNat).direct 0).toNat) = true
        · have hu : s.fsUnlink (some p) = (-5, s) := by
            simp only [fsUnlink, h.ready, hs, hf, h0, Bool.not_true, Bool.false_eq_true, ↓reduceIte]
            rw [if_pos hne]
          rw [hu]
          exact .unlinkOccupied hsplit hfind h0 (occupied.mpr hne)
        rcases h.fsUnlink_cases (some p) with ⟨rc, hrc, hu⟩ | ⟨p', q', slot', ino, x', hp, un, hu⟩
        · -- the checks that refuse have all been passed
          exfalso
          have hpos : (s.fsUnlink (some p)).1 = rc := by rw [hu]
          simp only [fsUnlink, h.ready, hs, hf, h0, Bool.not_true, Bool.false_eq_true, ↓reduceIte] at hpos
          rw [if_neg hne, dirRemove_dir h.fs.toBlockInv hd hf] at hpos
          simp only [Int.lt_irrefl, ↓reduceIte] at hpos
          omega
        · cases hp
          have same := un.split
          rw [hs] at same
          cases same
          have hino := un.found
          rw [lookup, hf, Option.map_some] at hino
          cases hino
          have tree := treeOf_removed h.fs (un.removed h)
          rw [hu]
          have cwd : (if s.cwdInode.toNat = w.toNat then (0#32 : Word) else s.cwdInode).toNat =
              if s.files.cwd = w.toNat then 0 else s.files.cwd := by
            change _ = if s.cwdInode.toNat = w.toNat then 0 else s.cwdInode.toNat
            split <;> rfl
          have step : s.files.Step s.shortage (FsState.shortage
              { s with
                dev := removeObject s.dev q slot' w.toNat
                cwdInode := if s.cwdInode.toNat = w.toNat then 0#32 else s.cwdInode }) _ _ _ :=
            .unlinks hsplit hfind h0 fun ho => hne (occupied.mp ho)
          simp only [files, tree, cwd]
          exact step

theorem fsMkdir_refines (h : s.Sound) (path : Option CStr) :
    s.files.Step s.shortage (s.fsMkdir path).2.shortage (.mkdir path) ((s.fsMkdir path).1, [])
      (s.fsMkdir path).2.files := by
  cases path with
  | none => exact .mkdirNull
  | some p =>
    have hsplit := h.split_files p
    cases hs : s.split p.bytes with
    | none =>
      have hm : s.fsMkdir (some p) = (-1, s) := by simp [fsMkdir, h.ready, hs]
      rw [hm]
      exact .mkdirNowhere (hsplit.trans hs)
    | some r =>
      obtain ⟨q, x⟩ := r
      rw [hs] at hsplit
      obtain ⟨hq, hx, hord⟩ := h.split_good hs
      have made := createInode_creates h hq hx hord (.inr rfl)
      have hnode : newNode inodeDir q = newDir q := funext fun _ => if_pos rfl
      rw [hnode] at made
      rcases hr : createInode s.dev q x inodeDir with ⟨rc | ino, v⟩
      · have hm : s.fsMkdir (some p) = (rc, { s with dev := v }) := by
          simp [fsMkdir, h.ready, hs, hord.1, hord.2, hr]
        rw [hr] at made
        rw [hm]
        exact .mkdirFailed hsplit made
      · have hm : s.fsMkdir (some p) = (0, { s with dev := v }) := by
          simp [fsMkdir, h.ready, hs, hord.1, hord.2, hr]
        rw [hr] at made
        rw [hm]
        exact .mkdirs hsplit made

theorem fsChdir_refines (h : s.Inv) (path : Option CStr) :
    s.files.Step s.shortage (s.fsChdir path).2.shortage (.chdir path) ((s.fsChdir path).1, [])
      (s.fsChdir path).2.files := by
  cases path with
  | none => exact .chdirNull
  | some p =>
    have hres := h.resolve_files p
    cases hr : s.resolve p.bytes with
    | none =>
      have hc : s.fsChdir (some p) = (-1, s) := by simp [fsChdir, h.ready, hr]
      rw [hc]
      exact .chdirNowhere (hres.trans hr)
    | some ino =>
      have hl := h.resolve_live hr
      have isDir := treeOf_isDir h.fs.toBlockInv (i := ino)
      by_cases hm : (inodeRead s.dev.disk ino).mode = inodeDir
      · have hc : s.fsChdir (some p) = (0, { s with cwdInode := BitVec.ofNat 32 ino }) := by
          simp [fsChdir, h.ready, hr, hm]
        rw [view_inode hl.1] at hm
        have step : s.files.Step s.shortage
            (FsState.shortage { s with cwdInode := BitVec.ofNat 32 ino }) _ _ _ :=
          .chdirs (hres.trans hr) (isDir.mpr ⟨hl, hm⟩)
        rw [hc]
        simp only [files, toNat_ofNat_word hl.1]
        exact step
      · have hc : s.fsChdir (some p) = (-2, s) := by simp [fsChdir, h.ready, hr, hm]
        rw [view_inode hl.1] at hm
        rw [hc]
        exact .chdirFile (hres.trans hr) fun hn => hm (isDir.mp hn).2

/-- Each call is one step of the tree. -/
theorem step_refines (h : s.Sound) (op : FsOp) :
    s.files.Step s.shortage (s.step op).shortage op (s.answer op) (s.step op).files := by
  cases op with
  | «open» path flags => exact fsOpen_refines h path flags
  | read fd buf count => exact fsRead_refines h fd buf count
  | write fd buf count => exact fsWrite_refines h fd buf count
  | close fd => exact s.fsClose_refines fd
  | unlink path => exact fsUnlink_refines h.toInv path
  | mkdir path => exact fsMkdir_refines h path
  | chdir path => exact fsChdir_refines h.toInv path

end

end FsState

end SengOS
