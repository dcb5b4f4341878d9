import SengOS.Fs.Runs

/-!
# Stopping between two block writes

A call stops after any number of its block writes and `fs_init` mounts what it
left behind. The order of the writes keeps every reachable block marked in all
calls but one: `fs_open` with `FS_O_TRUNC` frees the blocks of a file before the
inode that points to them is rewritten.
-/

namespace SengOS

/-- The disks a stop of the call can leave behind, the old one included. -/
def crashDisks (s : FsState) (op : FsOp) : List Disk :=
  s.dev.disk :: (FsState.step { s with dev := ⟨s.dev.disk, []⟩ } op).dev.hist

/-- The state `fs_init` builds from a disk after a restart. -/
def remount (d : Disk) : FsState := fsInit { FsState.boot with dev := ⟨d, []⟩ }

/-- Whatever the root reaches is marked and held once, so no allocation takes a
block of it. -/
structure CrossLinkFree (s : FsState) : Prop where
  safe : (view s.dev.disk).Safe
  fresh : ∀ b v, allocBlock s.dev = (some b, v) → ∀ i t, (view s.dev.disk).Reach i →
    (view s.dev.disk).ptr i t ≠ b

def CrashSafe (s : FsState) (op : FsOp) : Prop := ∀ d ∈ crashDisks s op, CrossLinkFree (remount d)

/-- `release_inode_blocks` of `fs_open` would free a block of a file with a name. -/
def TruncatesBlocks (s : FsState) : FsOp → Prop
  | .open (some path) flags => flags &&& oTrunc ≠ 0#32 ∧
      ((∃ ino t, s.resolve path.bytes = some ino ∧ (view s.dev.disk).isFile ino ∧
        (view s.dev.disk).ptr ino t ≠ 0) ∨
      (s.resolve path.bytes = none ∧ flags &&& oCreate ≠ 0#32 ∧
        ∃ q x, s.split path.bytes = some (q, x) ∧ (view s.dev.disk).Creatable q x))
  | _ => False

theorem View.Safe.crossLinkFree {s : FsState} (h : (view s.dev.disk).Safe) : CrossLinkFree s := by
  refine ⟨h, fun b v ha i t hr e => ?_⟩
  rcases allocBlock_cases s.dev with ⟨hn, -⟩ | ⟨c, hc, h6, -, free⟩
  · rw [hn] at ha
    cases ha
  · rw [hc] at ha
    cases ha
    have := h.marked i t hr (by omega)
    rw [e, free] at this
    cases this

theorem remount_disk {d : Disk} (h : Mounted d) : (remount d).dev.disk = d := by
  rw [remount, fsInit_mounted h]

/-- The same state with an empty history. -/
theorem FsState.Inv.forget {s : FsState} (h : s.Inv) : FsState.Inv { s with dev := ⟨s.dev.disk, []⟩ } :=
  ⟨h.ready, h.mounted, h.fs, h.cwd, h.fds⟩

/-! ## Everything but truncation -/

namespace FsState

variable {s : FsState}

theorem openInode_through (h : s.Inv) {ino : Nat} (hl : (view s.dev.disk).live ino) {flags : Word}
    (hn : flags &&& oTrunc = 0#32 ∨ ∀ t, (view s.dev.disk).ptr ino t = 0) :
    s.dev.Through (fun d => (view d).Safe) (s.openInode ino flags).2.dev := by
  have trunc : (inodeRead s.dev.disk ino).mode = inodeFile →
      s.dev.Through (fun d => (view d).Safe) (s.truncated ino flags).dev := by
    intro hm
    rw [view_inode hl.1] at hm
    unfold truncated
    split
    · rename_i ht
      have none_held := hn.resolve_left ht
      have hf : (view s.dev.disk).isFile ino := ⟨hl, hm⟩
      have hnil : ∀ w ∈ ((view s.dev.disk).inode ino).pointers (view s.dev.disk).data, w = 0#32 := by
        intro w hw
        by_contra hne
        have hw0 : w.toNat ≠ 0 := fun e => hne (BitVec.eq_of_toNat_eq e)
        obtain ⟨t, ht⟩ := (Inode.mem_pointers _ _ hw0).mp ⟨w, hw, rfl⟩
        exact hw0 (ht.symm.trans (none_held t))
      have hfold (ws : List Word) (v : Dev) (hws : ∀ w ∈ ws, w = 0#32) : ws.foldl freePointer v = v := by
        induction ws with
        | nil => rfl
        | cons w ws ih =>
          rw [List.foldl_cons, hws w List.mem_cons_self, freePointer, if_neg (by simp)]
          exact ih fun u hu => hws u (List.mem_cons_of_mem _ hu)
      have hsafe : (view (truncate s.dev ino).disk).Safe := by
        rw [view_truncate h.fs.toBlockInv hf]
        exact (View.Covers.refl _).safe (View.emptied_inv h.fs hf)
      rw [truncate_eq h.fs.toBlockInv hf, hfold _ _ hnil] at hsafe ⊢
      exact .inodeWrite _ hl.1 hsafe
    · exact .refl _ _
  rcases s.openInode_cases ino flags with ⟨-, ho⟩ | ⟨hm, ⟨ho, -⟩ | ⟨i, offset, -, -, ho⟩⟩
  · rw [ho]
    exact .refl _ _
  · rw [ho]
    exact trunc hm
  · rw [ho]
    exact trunc hm

theorem fsOpen_through (h : s.Inv) (path : Option CStr) (flags : Word)
    (hn : ¬ TruncatesBlocks s (.open path flags)) :
    s.dev.Through (fun d => (view d).Safe) (s.fsOpen path flags).2.dev := by
  rcases h.fsOpen_cases path flags with ⟨rc, -, ho⟩ | ⟨p, ino, rfl, hr, hl, ho⟩ |
    ⟨p, q, x, rfl, hr, hc, hs, hord, c, ho⟩
  · rw [ho]
    exact .refl _ _
  · rw [ho]
    rcases h.fs.mode ino hl with hf | hd
    · refine openInode_through h hl ?_
      by_contra hcon
      rw [not_or, not_forall] at hcon
      obtain ⟨ht, t, hp⟩ := hcon
      exact hn ⟨ht, Or.inl ⟨ino, t, hr, hf, hp⟩⟩
    · have hm : (inodeRead s.dev.disk ino).mode ≠ inodeFile := by
        rw [view_inode hl.1, hd.2]
        decide
      rcases s.openInode_cases ino flags with ⟨-, ho⟩ | ⟨hm', -⟩
      · rw [ho]
        exact .refl _ _
      · exact absurd hm' hm
  · have k := createResult_keeps c h.fs hord (Or.inl rfl)
    rw [ho]
    generalize hcr : createInode s.dev q x inodeFile = r at c k
    cases c with
    | failed _ undone _ => exact k.through
    | @created ino b slot v c hw ht =>
      refine k.through.trans (openInode_through (h.created c hord hw) ((c.live ino).mpr (Or.inr rfl))
        (Or.inl ?_))
      by_contra htr
      exact hn ⟨htr, Or.inr ⟨hr, hc, q, x, hs, c.creatable⟩⟩

theorem step_through (h : s.Inv) (op : FsOp) (hn : ¬ TruncatesBlocks s op) :
    s.dev.Through (fun d => (view d).Safe) (s.step op).dev := by
  cases op with
  | «open» path flags => exact fsOpen_through h path flags hn
  | read fd buf count =>
    rw [step, fsRead_dev]
    exact .refl _ _
  | write fd buf count => exact fsWrite_through h fd buf count
  | close fd =>
    rw [step, fsClose_dev]
    exact .refl _ _
  | unlink path => exact fsUnlink_through h path
  | mkdir path => exact fsMkdir_through h path
  | chdir path =>
    rw [step, fsChdir_dev]
    exact .refl _ _

/-! ## No call touches the superblock -/

theorem openInode_writes (h : s.Inv) {ino : Nat} (hl : (view s.dev.disk).live ino) (flags : Word) :
    s.dev.Writes (s.openInode ino flags).2.dev := by
  have trunc : (inodeRead s.dev.disk ino).mode = inodeFile → s.dev.Writes (s.truncated ino flags).dev := by
    intro hm
    rw [view_inode hl.1] at hm
    unfold truncated
    split
    · exact truncate_writes h.fs.toBlockInv ⟨hl, hm⟩
    · exact .refl
  rcases s.openInode_cases ino flags with ⟨-, ho⟩ | ⟨hm, ⟨ho, -⟩ | ⟨i, offset, -, -, ho⟩⟩
  · rw [ho]
    exact .refl
  · rw [ho]
    exact trunc hm
  · rw [ho]
    exact trunc hm

theorem fsOpen_writes (h : s.Inv) (path : Option CStr) (flags : Word) :
    s.dev.Writes (s.fsOpen path flags).2.dev := by
  rcases h.fsOpen_cases path flags with ⟨rc, -, ho⟩ | ⟨p, ino, -, -, hl, ho⟩ |
    ⟨p, q, x, -, -, -, -, hord, c, ho⟩
  · rw [ho]
    exact .refl
  · rw [ho]
    exact openInode_writes h hl flags
  · rw [ho]
    generalize createInode s.dev q x inodeFile = r at c
    cases c with
    | failed _ undone _ => exact undone.writes
    | @created ino b slot v c hw _ =>
      exact hw.trans (openInode_writes (h.created c hord hw) ((c.live ino).mpr (Or.inr rfl)) flags)

theorem step_writes (h : s.Inv) (op : FsOp) : s.dev.Writes (s.step op).dev := by
  cases op with
  | «open» path flags => exact fsOpen_writes h path flags
  | read fd buf count =>
    rw [step, fsRead_dev]
    exact .refl
  | write fd buf count =>
    rcases h.fsWrite_cases fd buf count with hw | ⟨i, d, w, hi, done, hw⟩
    · rw [step, hw]
      exact .refl
    · obtain ⟨hlt, hu⟩ := fdIndex_some hi
      rw [step, hw]
      exact (done.stored h.fs (h.fds i hlt hu)).2.2.1
  | close fd =>
    rw [step, fsClose_dev]
    exact .refl
  | unlink path =>
    rcases h.fsUnlink_cases path with ⟨rc, -, hu⟩ | ⟨p, q, slot, ino, x, -, un, hu⟩
    · rw [step, hu]
      exact .refl
    · rw [step, hu]
      exact removeObject_writes h.fs un.dir (un.live h)
  | mkdir path =>
    rcases h.fsMkdir_cases path with ⟨rc, -, hm⟩ | ⟨p, q, x, -, hs, hord, c, hm, -⟩
    · rw [step, hm]
      exact .refl
    · rw [step, hm]
      exact (createResult_keeps c h.fs hord (Or.inr rfl)).writes
  | chdir path =>
    rw [step, fsChdir_dev]
    exact .refl

end FsState

/-! ## Truncation -/

/-- Every live inode is reachable. -/
theorem FsInv.reach {v : View} (h : FsInv v) {i : Nat} (hl : v.live i) : v.Reach i := by
  have : ∀ j, DirReach 0 128 v.isDir v.entry j → v.Reach j := by
    intro j hj
    induction hj with
    | root => exact .root
    | entry _ hd _ hs he ih => exact .entry ih hd.2 hs he
  exact this i (h.tree.reach i hl)

/-- The marks do not matter for what the root reaches. -/
theorem View.Reach.freed {v : View} {i : Nat} (h : v.Reach i) (ws : List Word) : (v.freed ws).Reach i := by
  induction h with
  | root => exact .root
  | entry _ hm hs he ih => exact .entry ih hm hs he

/-- A file that keeps its name and its pointers while its marks are cleared. -/
theorem released_not_safe {v : View} (h : FsInv v) {ino : Nat} (hf : v.isFile ino) {t : Slot}
    (ht : v.ptr ino t ≠ 0) : ¬ (v.freed ((v.inode ino).pointers v.data)).Safe := by
  intro safe
  obtain ⟨h6, h254⟩ := h.file_ptr_range hf ht
  have hm := safe.marked ino t ((h.reach hf.1).freed _) ht
  have := (View.released_iff v ino (v.ptr ino t)).mp hm
  exact this.2 h6 h254 t rfl

/-- The disk after the last `free_block` of a truncation is one of the disks on the way. -/
theorem truncate_passes {v : Dev} (h : FsInv (view v.disk)) (hv : Mounted v.disk) {ino : Nat}
    (hf : (view v.disk).isFile ino) {t : Slot} (ht : (view v.disk).ptr ino t ≠ 0) :
    ∃ d ∈ (truncate v ino).hist, Mounted d ∧ ¬ (view d).Safe := by
  have hw := freePointers_writes (((view v.disk).inode ino).pointers (view v.disk).data) v
  obtain ⟨new, hnew, -⟩ := Dev.Through.of_writes hw hv
  have notSafe := released_not_safe h hf ht
  rw [← view_freePointers] at notSafe
  refine ⟨_, ?_, hv.writes hw, notSafe⟩
  have hmem : ((((view v.disk).inode ino).pointers (view v.disk).data).foldl freePointer v).disk ∈ new := by
    refine (hw.disk_mem hnew).resolve_left fun e => notSafe ?_
    rw [e]
    exact (View.Covers.refl _).safe h
  have hacc : Accepted (inodeBlock ino) := by
    rw [(inode_place hf.1.1).1]
    decide
  rw [truncate_eq h.toBlockInv hf, inodeWrite, Dev.write_hist hacc, hnew]
  exact List.mem_append_left _ (List.mem_append_right _ hmem)

namespace FsState

variable {s : FsState}

theorem openInode_trunc_dev {ino : Nat} (hl : (view s.dev.disk).isFile ino) {flags : Word}
    (ht : flags &&& oTrunc ≠ 0#32) : (s.openInode ino flags).2.dev = truncate s.dev ino := by
  have hm := mode_of_isFile hl
  have hd : (s.truncated ino flags).dev = truncate s.dev ino := by
    rw [truncated, if_pos ht]
  rcases s.openInode_cases ino flags with ⟨hm', -⟩ | ⟨-, ⟨ho, -⟩ | ⟨i, offset, -, -, ho⟩⟩
  · exact absurd hm hm'
  · rw [ho, hd]
  · rw [ho]
    exact hd

theorem truncatesBlocks_passes (h : s.Inv) {op : FsOp} (ht : TruncatesBlocks s op) :
    ∃ d ∈ (s.step op).dev.hist, Mounted d ∧ ¬ (view d).Safe := by
  cases op with
  | «open» path flags =>
    cases path with
    | none => exact ht.elim
    | some p =>
      obtain ⟨htr, ⟨ino, t, hr, hf, hp⟩ | ⟨hr, hc, q, x, hs, hcr⟩⟩ := ht
      · have hstep : (s.step (.open (some p) flags)).dev = truncate s.dev ino := by
          rw [← openInode_trunc_dev hf htr, step]
          simp only [fsOpen, h.ready, hr, Bool.not_true, Bool.false_eq_true, ↓reduceIte]
        rw [hstep]
        exact truncate_passes h.fs h.mounted hf hp
      · obtain ⟨hq, hx, hord⟩ := h.split_good hs
        have c := createInode_result h.fs hq hx inodeFile
        rw [step]
        simp only [fsOpen, h.ready, hr, hc, hs, Bool.not_true, Bool.false_eq_true, ↓reduceIte]
        generalize createInode s.dev q x inodeFile = r at c
        cases c with
        | failed _ _ hn => exact absurd hcr hn
        | @created ino b slot v c hw _ =>
          have h' := h.created c hord hw
          have hf : (view v.disk).isFile ino := (c.isFile ino).mpr (Or.inr ⟨rfl, rfl⟩)
          dsimp only
          rw [openInode_trunc_dev (s := ⟨v, s.fds, s.cwdInode, true⟩) hf htr]
          refine truncate_passes h'.fs h'.mounted hf (t := .direct 0) ?_
          have := c.ge
          rw [c.ptr_new, if_pos rfl]
          omega
  | read _ _ _ => exact ht.elim
  | write _ _ _ => exact ht.elim
  | close _ => exact ht.elim
  | unlink _ => exact ht.elim
  | mkdir _ => exact ht.elim
  | chdir _ => exact ht.elim

end FsState

/-- A stop between two block writes is harmless in every call, unless the call
truncates a file that holds blocks. -/
theorem crashSafe_iff {s : FsState} (h : s.Inv) (op : FsOp) : CrashSafe s op ↔ ¬ TruncatesBlocks s op := by
  have h₀ := h.forget
  constructor
  · intro safe ht
    have ht₀ : TruncatesBlocks { s with dev := ⟨s.dev.disk, []⟩ } op := by
      cases op with
      | «open» path flags => cases path <;> exact ht
      | _ => exact ht
    obtain ⟨d, hd, hm, hn⟩ := FsState.truncatesBlocks_passes h₀ ht₀
    have := (safe d (List.mem_cons_of_mem _ hd)).safe
    rw [remount_disk hm] at this
    exact hn this
  · intro hn d hd
    have hn₀ : ¬ TruncatesBlocks { s with dev := ⟨s.dev.disk, []⟩ } op := by
      cases op with
      | «open» path flags => cases path <;> exact hn
      | _ => exact hn
    have through := (FsState.step_through h₀ op hn₀).and (.of_writes (FsState.step_writes h₀ op) h₀.mounted)
    obtain ⟨new, hnew, hall⟩ := through
    have key : (view d).Safe ∧ Mounted d := by
      rcases List.mem_cons.mp hd with rfl | hd
      · exact ⟨(View.Covers.refl _).safe h.fs, h.mounted⟩
      · rw [hnew] at hd
        exact hall d hd
    refine View.Safe.crossLinkFree ?_
    rw [remount_disk key.2]
    exact key.1

/-- Opening an existing file is safe without truncation. -/
theorem crashSafe_open : CrashSafe FsState.openedD (.open (some FsState.nameD) 0#32) := by
  have h : FsState.openedD.Inv := FsState.fsOpen_inv fsInit_blank_inv _ _
  exact (crashSafe_iff h _).mpr fun ht => ht.1 rfl

/-- A new file holds one block, and truncating it passes through a disk on
which that block is free and reachable. -/
theorem open_trunc_not_crashSafe :
    FsState.openedD.Inv ∧ ¬ CrashSafe FsState.openedD (.open (some FsState.nameD) oTrunc) := by
  have h : FsState.openedD.Inv := FsState.fsOpen_inv fsInit_blank_inv _ _
  have hr : FsState.openedD.resolve FsState.nameD.bytes = some (FsState.openedD.fds 0).inode.toNat := by
    decide +kernel
  have hb : ((inodeRead FsState.openedD.dev.disk (FsState.openedD.fds 0).inode.toNat).direct 0).toNat ≠ 0 := by
    decide +kernel
  have hf := h.fds 0 (by decide) FsState.openedD_used.1
  refine ⟨h, fun safe => ?_⟩
  have ht : TruncatesBlocks { FsState.openedD with dev := ⟨FsState.openedD.dev.disk, []⟩ }
      (.open (some FsState.nameD) oTrunc) := by
    refine ⟨by decide, Or.inl ⟨_, .direct 0, hr, hf, ?_⟩⟩
    rw [view_inode hf.1.1] at hb
    exact hb
  obtain ⟨d, hd, hm, hn⟩ := FsState.truncatesBlocks_passes h.forget ht
  have := (safe d (List.mem_cons_of_mem _ hd)).safe
  rw [remount_disk hm] at this
  exact hn this

end SengOS
