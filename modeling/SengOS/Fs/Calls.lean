import SengOS.Fs.Walk
import SengOS.Fs.Write
import SengOS.Fs.Create
import SengOS.Fs.Remove

/-!
# The calls keep the invariant

`FsState.Inv` is the invariant of a mounted file system with its descriptor
table and working directory. Each call keeps it; only `fs_unlink` needs to know
that it does not remove a file somebody has open.
-/

namespace SengOS

namespace FsState

structure Inv (s : FsState) : Prop where
  ready : s.fsReady = true
  mounted : Mounted s.dev.disk
  fs : FsInv (view s.dev.disk)
  cwd : (view s.dev.disk).isDir s.cwdInode.toNat
  fds : ∀ i, i < 16 → (s.fds i).used = true → (view s.dev.disk).isFile (s.fds i).inode.toNat

/-- The disk changes; directories stay directories and files stay files. -/
theorem Inv.setDev {s : FsState} (h : s.Inv) {v : Dev} (hw : s.dev.Writes v) (fs : FsInv (view v.disk))
    (hd : ∀ i, (view s.dev.disk).isDir i → (view v.disk).isDir i)
    (hf : ∀ i, (view s.dev.disk).isFile i → (view v.disk).isFile i) : Inv { s with dev := v } :=
  ⟨h.ready, h.mounted.writes hw, fs, hd _ h.cwd, fun i hi hu => hf _ (h.fds i hi hu)⟩

/-- A descriptor is set up or changed; if it is in use it is on a file. -/
theorem Inv.setFd {s : FsState} (h : s.Inv) (i : Nat) {f : FileDesc}
    (hf : f.used = true → (view s.dev.disk).isFile f.inode.toNat) :
    Inv { s with fds := Function.update s.fds i f } := by
  refine ⟨h.ready, h.mounted, h.fs, h.cwd, fun j hj hu => ?_⟩
  dsimp only at hu ⊢
  by_cases e : j = i
  · subst e
    rw [Function.update_self] at hu ⊢
    exact hf hu
  · rw [Function.update_of_ne e] at hu ⊢
    exact h.fds j hj hu

/-! ## Paths -/

/-- Where the walk along a path starts. -/
def start (s : FsState) (path : List Byte) : Nat :=
  if path.head? = some slash then 0 else s.cwdInode.toNat

theorem resolve_eq (s : FsState) {path : List Byte} (hp : path ≠ []) :
    s.resolve path = walk (lookup s.dev.disk) (s.start path) (components path) := by
  exact resolvePath_eq hp _

theorem split_eq (s : FsState) {path : List Byte} (hp : path ≠ []) (hl : path.length ≤ 255) :
    s.split path = splitWalk (lookup s.dev.disk) (s.start path) (components path) := by
  rw [split, splitParent, if_neg hp, if_neg (by omega)]
  exact splitLoop_eq _ _ _ (Nat.lt_succ_self _)

theorem split_stops {s : FsState} {path : List Byte} {q : Nat} {x : List Byte}
    (h : s.split path = some (q, x)) : path ≠ [] ∧ path.length ≤ 255 ∧
      ∃ pre post, Stops (lookup s.dev.disk) (s.start path) (components path) q x pre post := by
  have hp : path ≠ [] := by
    rintro rfl
    cases h
  have hl : path.length ≤ 255 := by
    by_contra hlt
    rw [split, splitParent, if_neg hp, if_pos (by omega)] at h
    cases h
  rw [split_eq s hp hl] at h
  exact ⟨hp, hl, splitWalk_stops _ _ h⟩

theorem Inv.start_live {s : FsState} (h : s.Inv) (path : List Byte) :
    (view s.dev.disk).live (s.start path) := by
  unfold start
  split
  · exact h.fs.root_dir.1
  · exact h.cwd.1

theorem Inv.find_live {s : FsState} (h : s.Inv) (i : Nat) (x : List Byte) (j : Nat)
    (hl : (view s.dev.disk).live i) (hx : GoodName x) (hj : lookup s.dev.disk i x = some j) :
    (view s.dev.disk).live j := lookup_live h.fs hl hx hj

theorem Inv.resolve_live {s : FsState} (h : s.Inv) {path : CStr} {j : Nat}
    (hr : s.resolve path.bytes = some j) : (view s.dev.disk).live j := by
  have hp : path.bytes ≠ [] := by
    intro e
    rw [e] at hr
    cases hr
  rw [s.resolve_eq hp] at hr
  exact walk_live h.find_live (fun c hc => goodName_component path.no_nul hc) (h.start_live _) hr

theorem Inv.split_good {s : FsState} (h : s.Inv) {path : CStr} {q : Nat} {x : List Byte}
    (hs : s.split path.bytes = some (q, x)) :
    (view s.dev.disk).live q ∧ GoodName x ∧ Ordinary x := by
  obtain ⟨-, -, pre, post, st⟩ := split_stops hs
  have mem (c : List Byte) (hc : c ∈ pre ++ x :: post) : c ∈ components path.bytes := st.comps ▸ hc
  refine ⟨?_, goodName_component path.no_nul (mem x (by simp)) st.name_short, st.ordinary⟩
  exact walk_live h.find_live
    (fun c hc => goodName_component path.no_nul (mem c (List.mem_append_left _ hc))) (h.start_live _)
    st.reach

/-! ## Calls that leave the disk alone -/

theorem fsClose_dev (s : FsState) (fd : Int) : (s.fsClose fd).2.dev = s.dev := by
  unfold fsClose
  split <;> rfl

theorem fsRead_dev (s : FsState) (fd : Int) (buf : Bool) (count : Word) :
    (s.fsRead fd buf count).2.2.dev = s.dev := by
  unfold fsRead
  split
  · rfl
  · split
    · rfl
    · dsimp only
      split
      · rfl
      · split <;> rfl

theorem fsChdir_dev (s : FsState) (path : Option CStr) : (s.fsChdir path).2.dev = s.dev := by
  unfold fsChdir
  split
  · rfl
  · split
    · rfl
    · split
      · rfl
      · split <;> rfl

theorem fsClose_inv {s : FsState} (h : s.Inv) (fd : Int) : (s.fsClose fd).2.Inv := by
  unfold fsClose
  split
  · exact h
  · exact h.setFd _ (fun hu => absurd hu (by simp))

theorem fsRead_inv {s : FsState} (h : s.Inv) (fd : Int) (buf : Bool) (count : Word) :
    (s.fsRead fd buf count).2.2.Inv := by
  unfold fsRead
  split
  · exact h
  · rename_i i hi
    obtain ⟨hlt, hu⟩ := fdIndex_some hi
    split
    · exact h
    · dsimp only
      split
      · exact h
      · split
        · exact h
        · exact h.setFd _ (fun _ => h.fds i hlt hu)

theorem fsChdir_inv {s : FsState} (h : s.Inv) (path : Option CStr) : (s.fsChdir path).2.Inv := by
  unfold fsChdir
  split
  · exact h
  · rename_i path
    split
    · exact h
    · split
      · exact h
      · rename_i ino hr
        have hl := h.resolve_live hr
        split
        · exact h
        · rename_i hm
          rw [view_inode hl.1, not_not] at hm
          refine ⟨h.ready, h.mounted, h.fs, ?_, h.fds⟩
          dsimp only
          rw [toNat_ofNat_word hl.1]
          exact ⟨hl, hm⟩

/-! ## `fs_write` -/

/-- The call is refused, or it passes the checks on the descriptor. -/
theorem Inv.fsWrite_guards {s : FsState} (h : s.Inv) (fd : Int) (buf : Option (Nat → Byte)) (count : Word) :
    s.fsWrite fd buf count = (-1, s) ∨ ∃ i d, s.fdIndex fd = some i ∧ buf = some d ∧
      (s.fds i).flags &&& 3#32 ≠ 0#32 ∧ (view s.dev.disk).isFile (s.fds i).inode.toNat := by
  cases hi : s.fdIndex fd with
  | none => exact Or.inl (by simp [fsWrite, hi])
  | some i =>
    cases buf with
    | none => exact Or.inl (by simp [fsWrite, hi])
    | some d =>
      by_cases hm : (s.fds i).flags &&& 3#32 = 0#32
      · exact Or.inl (by simp [fsWrite, hi, hm])
      · obtain ⟨hlt, hu⟩ := fdIndex_some hi
        exact Or.inr ⟨i, d, rfl, rfl, hm, h.fds i hlt hu⟩

/-- The call is refused, or the loop ran on an open file. -/
theorem Inv.fsWrite_cases {s : FsState} (h : s.Inv) (fd : Int) (buf : Option (Nat → Byte)) (count : Word) :
    s.fsWrite fd buf count = (-1, s) ∨ ∃ i d w, s.fdIndex fd = some i ∧
      LoopDone (view s.dev.disk) s.dev (s.fds i).inode.toNat (s.fds i).offset.toNat d count.toNat w ∧
      s.fsWrite fd buf count = ((w.done : Int), { s with
        dev := inodeWrite w.dev (s.fds i).inode.toNat w.inode
        fds := Function.update s.fds i { s.fds i with offset := w.offset } }) := by
  rcases h.fsWrite_guards fd buf count with hw | ⟨i, d, hi, rfl, hm, hf⟩
  · exact Or.inl hw
  · obtain ⟨w, done, hw⟩ := fsWrite_file hi hm h.fs.toBlockInv hf d count
    exact Or.inr ⟨i, d, w, hi, done, hw⟩

/-- The disk that the loop and the store of the inode leave behind. -/
theorem LoopDone.stored {u : View} {v₀ : Dev} {ino o count : Nat} {buf : Nat → Byte} {w : WriteState}
    (done : LoopDone u v₀ ino o buf count w) (hu : FsInv u) (hf : u.isFile ino) :
    FsInv (SengOS.view (inodeWrite w.dev ino w.inode).disk) ∧
      u.Frame ino (SengOS.view (inodeWrite w.dev ino w.inode).disk) ∧
      v₀.Writes (inodeWrite w.dev ino w.inode) ∧
      v₀.Through (fun d => (SengOS.view d).Safe) (inodeWrite w.dev ino w.inode) := by
  have hv := done.view_stored hf.1.1
  have fs : FsInv (w.view ino) := hu.of_frame hf done.frame (done.bbit 1 hu.root_bit) done.inv
  rw [hv]
  refine ⟨fs, done.frame, done.writes.trans (inodeWrite_writes _ _), ?_⟩
  refine (done.through.imp fun d hd => hd.safe hu hf).trans (.inodeWrite _ hf.1.1 ?_)
  rw [hv]
  exact (View.Covers.refl _).safe fs

theorem fsWrite_inv {s : FsState} (h : s.Inv) (fd : Int) (buf : Option (Nat → Byte)) (count : Word) :
    (s.fsWrite fd buf count).2.Inv := by
  rcases h.fsWrite_cases fd buf count with hw | ⟨i, d, w, hi, done, hw⟩
  · rw [hw]
    exact h
  · obtain ⟨hlt, hu⟩ := fdIndex_some hi
    have file := h.fds i hlt hu
    obtain ⟨fs, frame, writes, -⟩ := done.stored h.fs file
    rw [hw]
    have h' := h.setDev writes fs (fun j => (frame.isDir j).mpr) (fun j => (frame.isFile j).mpr)
    exact h'.setFd i (fun _ => (frame.isFile _).mpr file)

theorem fsWrite_through {s : FsState} (h : s.Inv) (fd : Int) (buf : Option (Nat → Byte)) (count : Word) :
    s.dev.Through (fun d => (view d).Safe) (s.fsWrite fd buf count).2.dev := by
  rcases h.fsWrite_cases fd buf count with hw | ⟨i, d, w, hi, done, hw⟩
  · rw [hw]
    exact .refl _ _
  · obtain ⟨hlt, hu⟩ := fdIndex_some hi
    rw [hw]
    exact (done.stored h.fs (h.fds i hlt hu)).2.2.2

/-! ## `create_inode` and `fs_mkdir` -/

/-- What a creation leaves behind, whether it succeeds or not. -/
structure CreateKeeps (v v' : Dev) : Prop where
  fs : FsInv (view v'.disk)
  isDir : ∀ i, (view v.disk).isDir i → (view v'.disk).isDir i
  isFile : ∀ i, (view v.disk).isFile i → (view v'.disk).isFile i
  writes : v.Writes v'
  through : v.Through (fun d => (view d).Safe) v'

theorem createResult_keeps {v : Dev} {parent : Nat} {name : List Byte} {mode : Word}
    {r : Except Int Nat × Dev} (c : CreateResult v parent name mode r) (h : FsInv (view v.disk))
    (hx : Ordinary name) (hm : mode = inodeFile ∨ mode = inodeDir) : CreateKeeps v r.2 := by
  cases c with
  | failed _ undone _ =>
    refine ⟨undone.same.inv h, fun i => (undone.same.isDir i).mpr, fun i => (undone.same.isFile i).mpr,
      undone.writes, undone.through.imp fun d hd => hd.covers.safe h⟩
  | created c writes through =>
    have fs := c.inv h hm hx.1 hx.2
    refine ⟨fs, fun i hd => (c.isDir i).mpr (Or.inl hd), fun i hf => (c.isFile i).mpr (Or.inl hf),
      writes, through.imp ?_⟩
    rintro d (hd | hd)
    · exact hd.covers.safe h
    · rw [hd]
      exact (View.Covers.refl _).safe fs

/-- The call is refused, or it is one creation. -/
theorem Inv.fsMkdir_cases {s : FsState} (h : s.Inv) (path : Option CStr) :
    (∃ rc : Int, rc < 0 ∧ s.fsMkdir path = (rc, s)) ∨
    ∃ p q x, path = some p ∧ s.split p.bytes = some (q, x) ∧ Ordinary x ∧
      CreateResult s.dev q x inodeDir (createInode s.dev q x inodeDir) ∧
      (s.fsMkdir path).2 = { s with dev := (createInode s.dev q x inodeDir).2 } ∧
      ((s.fsMkdir path).1 = 0 ↔ ∃ ino, (createInode s.dev q x inodeDir).1 = .ok ino) := by
  cases path with
  | none => exact Or.inl ⟨-1, by decide, rfl⟩
  | some p =>
    cases hs : s.split p.bytes with
    | none => exact Or.inl ⟨-1, by decide, by simp [fsMkdir, h.ready, hs]⟩
    | some r =>
      obtain ⟨q, x⟩ := r
      obtain ⟨hq, hx, hord⟩ := h.split_good hs
      have c := createInode_result h.fs hq hx inodeDir
      refine Or.inr ⟨p, q, x, rfl, hs, hord, c, ?_⟩
      simp only [fsMkdir, h.ready, hs, hord.1, hord.2, Bool.not_true, Bool.false_eq_true, or_self, ↓reduceIte]
      generalize createInode s.dev q x inodeDir = r at c
      cases c with
      | @failed rc v' hrc _ _ =>
        refine ⟨rfl, ?_⟩
        constructor
        · intro e
          dsimp only at e
          omega
        · rintro ⟨ino, e⟩
          cases e
      | created _ _ _ => exact ⟨rfl, fun _ => ⟨_, rfl⟩, fun _ => rfl⟩

theorem fsMkdir_inv {s : FsState} (h : s.Inv) (path : Option CStr) : (s.fsMkdir path).2.Inv := by
  rcases h.fsMkdir_cases path with ⟨rc, -, hm⟩ | ⟨p, q, x, -, hs, hord, c, hm, -⟩
  · rw [hm]
    exact h
  · have k := createResult_keeps c h.fs hord (Or.inr rfl)
    rw [hm]
    exact h.setDev k.writes k.fs k.isDir k.isFile

theorem fsMkdir_through {s : FsState} (h : s.Inv) (path : Option CStr) :
    s.dev.Through (fun d => (view d).Safe) (s.fsMkdir path).2.dev := by
  rcases h.fsMkdir_cases path with ⟨rc, -, hm⟩ | ⟨p, q, x, -, hs, hord, c, hm, -⟩
  · rw [hm]
    exact .refl _ _
  · rw [hm]
    exact (createResult_keeps c h.fs hord (Or.inr rfl)).through

/-! ## `fs_unlink` -/

/-- A name other than "." and ".." is in one of the ordinary slots. -/
theorem ordinary_slot {v : View} (h : FsInv v) {d s j : Nat} {x : List Byte} (hd : v.isDir d)
    (hx : Ordinary x) (he : v.entry d s = some (x, j)) : 2 ≤ s := by
  by_contra hlt
  obtain rfl | rfl : s = 0 ∨ s = 1 := by omega
  · rw [h.tree.self d hd] at he
    cases he
    exact hx.1 rfl
  · obtain ⟨q, hq, -⟩ := h.tree.parent d hd
    rw [hq] at he
    cases he
    exact hx.2 rfl

/-- What `fs_unlink(path)` removes: object `ino`, named `x` in directory `q`. -/
structure Unlinks (s : FsState) (path : CStr) (q slot ino : Nat) (x : List Byte) : Prop where
  split : s.split path.bytes = some (q, x)
  found : lookup s.dev.disk q x = some ino
  dir : (view s.dev.disk).isDir q
  slot_ge : 2 ≤ slot
  slot_lt : slot < 128
  named : (view s.dev.disk).entry q slot = some (x, ino)
  not_root : ino ≠ 0
  empty : (view s.dev.disk).isDir ino → ∀ t, 2 ≤ t → t < 128 → (view s.dev.disk).entry ino t = none

/-- An object that can be removed is removed. -/
theorem Unlinks.fsUnlink_eq {s : FsState} {path : CStr} {q slot ino : Nat} {x : List Byte}
    (un : s.Unlinks path q slot ino x) (h : s.Inv) :
    s.fsUnlink (some path) = (0, { s with
      dev := removeObject s.dev q slot ino
      cwdInode := if s.cwdInode.toNat = ino then 0#32 else s.cwdInode }) := by
  obtain ⟨hq, hx, -⟩ := h.split_good un.split
  have hl := h.fs.entry_live un.dir un.slot_lt un.named
  obtain ⟨w, hf, hw⟩ : ∃ w, dirFind s.dev.disk q x = some (slot, w) ∧ w.toNat = ino := by
    have found := un.found
    rw [lookup, Option.map_eq_some_iff] at found
    obtain ⟨⟨t, w⟩, hf, hw⟩ := found
    obtain ⟨-, ht, he⟩ := dirFind_some h.fs hq hx hf
    have hslot := h.fs.tree.names q t slot x _ _ un.dir ht un.slot_lt he un.named
    exact ⟨w, hslot ▸ hf, hw⟩
  have full : ¬ ((inodeRead s.dev.disk ino).mode = inodeDir ∧
      dirNonEmpty (readBlock s.dev.disk ((inodeRead s.dev.disk ino).direct 0).toNat) = true) := by
    rw [view_inode hl.1]
    rintro ⟨hm, hne⟩
    have hdir : (view s.dev.disk).isDir ino := ⟨hl, hm⟩
    have hread := readBlock_data (h.fs.dirBlock_data hdir) s.dev.disk
    rw [View.dirBlock] at hread
    rw [hread] at hne
    obtain ⟨t, ht, ht', hsome⟩ := dirNonEmpty_iff.mp hne
    exact hsome (un.empty hdir t ht ht')
  subst hw
  simp only [fsUnlink, h.ready, un.split, hf, un.not_root, Bool.not_true, Bool.false_eq_true, ↓reduceIte]
  rw [if_neg full, dirRemove_dir h.fs.toBlockInv un.dir hf]
  simp only [Int.lt_irrefl, ↓reduceIte, removeObject, unnamed, view_inode hl.1]

/-- The call is refused, or it removes one object. -/
theorem Inv.fsUnlink_cases {s : FsState} (h : s.Inv) (path : Option CStr) :
    (∃ rc : Int, rc < 0 ∧ s.fsUnlink path = (rc, s)) ∨
    ∃ p q slot ino x, path = some p ∧ s.Unlinks p q slot ino x ∧
      s.fsUnlink path = (0, { s with
        dev := removeObject s.dev q slot ino
        cwdInode := if s.cwdInode.toNat = ino then 0#32 else s.cwdInode }) := by
  cases path with
  | none => exact Or.inl ⟨-1, by decide, rfl⟩
  | some p =>
    cases hs : s.split p.bytes with
    | none => exact Or.inl ⟨-2, by decide, by simp [fsUnlink, h.ready, hs]⟩
    | some r =>
      obtain ⟨q, x⟩ := r
      obtain ⟨hq, hx, hord⟩ := h.split_good hs
      cases hf : dirFind s.dev.disk q x with
      | none => exact Or.inl ⟨-3, by decide, by simp [fsUnlink, h.ready, hs, hf]⟩
      | some r =>
        obtain ⟨slot, w⟩ := r
        obtain ⟨hd, hslot, he⟩ := dirFind_some h.fs hq hx hf
        have hl := h.fs.entry_live hd hslot he
        have h2 := ordinary_slot h.fs hd hord he
        by_cases h0 : w.toNat = 0
        · exact Or.inl ⟨-4, by decide, by simp [fsUnlink, h.ready, hs, hf, h0]⟩
        by_cases hne : (inodeRead s.dev.disk w.toNat).mode = inodeDir ∧
            dirNonEmpty (readBlock s.dev.disk ((inodeRead s.dev.disk w.toNat).direct 0).toNat) = true
        · refine Or.inl ⟨-5, by decide, ?_⟩
          simp only [fsUnlink, h.ready, hs, hf, h0, Bool.not_true, Bool.false_eq_true, ↓reduceIte]
          rw [if_pos hne]
        have un : s.Unlinks p q slot w.toNat x := by
          refine ⟨hs, by simp [lookup, hf], hd, h2, hslot, he, h0, ?_⟩
          intro hdir t ht ht'
          by_contra hsome
          refine hne ⟨by rw [view_inode hl.1]; exact hdir.2, ?_⟩
          have hread := readBlock_data (h.fs.dirBlock_data hdir) s.dev.disk
          rw [View.dirBlock] at hread
          rw [view_inode hl.1, hread]
          exact dirNonEmpty_iff.mpr ⟨t, ht, ht', hsome⟩
        exact Or.inr ⟨p, q, slot, w.toNat, x, rfl, un, un.fsUnlink_eq h⟩

theorem Unlinks.removed {s : FsState} {path : CStr} {q slot ino : Nat} {x : List Byte}
    (r : s.Unlinks path q slot ino x) (h : s.Inv) :
    (view s.dev.disk).Removed (view (removeObject s.dev q slot ino).disk) q slot ino x :=
  removeObject_removed h.fs r.dir r.slot_ge r.slot_lt r.named r.not_root r.empty

theorem Unlinks.live {s : FsState} {path : CStr} {q slot ino : Nat} {x : List Byte}
    (r : s.Unlinks path q slot ino x) (h : s.Inv) : (view s.dev.disk).live ino :=
  h.fs.entry_live r.dir r.slot_lt r.named

/-- The call would remove a file that a descriptor is open on. -/
def unlinksOpen (s : FsState) (path : CStr) : Prop :=
  ∃ q x ino i, s.split path.bytes = some (q, x) ∧ lookup s.dev.disk q x = some ino ∧ i < 16 ∧
    (s.fds i).used = true ∧ (s.fds i).inode.toNat = ino

theorem fsUnlink_inv {s : FsState} (h : s.Inv) (path : Option CStr)
    (hopen : ∀ p, path = some p → ¬ s.unlinksOpen p) : (s.fsUnlink path).2.Inv := by
  rcases h.fsUnlink_cases path with ⟨rc, -, hu⟩ | ⟨p, q, slot, ino, x, hp, un, hu⟩
  · rw [hu]
    exact h
  · have r := un.removed h
    rw [hu]
    refine ⟨h.ready, h.mounted.writes (removeObject_writes h.fs un.dir (un.live h)), r.inv h.fs, ?_, ?_⟩
    · dsimp only
      split
      · exact (r.isDir 0).mpr ⟨h.fs.root_dir, un.not_root.symm⟩
      · rename_i hne
        exact (r.isDir _).mpr ⟨h.cwd, hne⟩
    · intro i hi hused
      refine (r.isFile _).mpr ⟨h.fds i hi hused, fun e => ?_⟩
      exact hopen p hp ⟨q, x, ino, i, un.split, un.found, hi, hused, e⟩

theorem fsUnlink_through {s : FsState} (h : s.Inv) (path : Option CStr) :
    s.dev.Through (fun d => (view d).Safe) (s.fsUnlink path).2.dev := by
  rcases h.fsUnlink_cases path with ⟨rc, -, hu⟩ | ⟨p, q, slot, ino, x, -, un, hu⟩
  · rw [hu]
    exact .refl _ _
  · have r := un.removed h
    rw [hu]
    exact (removeObject_through h.fs un.dir (un.live h) r).imp fun d hd => hd.covers.safe (r.inv h.fs)

/-! ## `fs_open` -/

/-- The state after the truncating part of `fs_open`. -/
def truncated (s : FsState) (ino : Nat) (flags : Word) : FsState :=
  if flags &&& oTrunc ≠ 0#32 then { s with dev := truncate s.dev ino } else s

/-- A file is truncated if asked for, and a free descriptor is put on it. -/
theorem openInode_cases (s : FsState) (ino : Nat) (flags : Word) :
    ((inodeRead s.dev.disk ino).mode ≠ inodeFile ∧ s.openInode ino flags = (-5, s)) ∨
    ((inodeRead s.dev.disk ino).mode = inodeFile ∧
      ((s.openInode ino flags = (-6, s.truncated ino flags) ∧ ∀ i, i < 16 → (s.fds i).used = true) ∨
      ∃ (i : Nat) (offset : Word), i < 16 ∧ (s.fds i).used = false ∧
        s.openInode ino flags = ((i : Int), { s.truncated ino flags with
          fds := Function.update s.fds i ⟨BitVec.ofNat 32 ino, offset, flags, true⟩ }))) := by
  have full (h : (List.range 16).find? (fun i => !(s.fds i).used) = none) (i : Nat) (hi : i < 16) :
      (s.fds i).used = true := by
    have := List.find?_eq_none.mp h i (List.mem_range.mpr hi)
    simpa using this
  by_cases hm : (inodeRead s.dev.disk ino).mode = inodeFile
  · right
    refine ⟨hm, ?_⟩
    unfold openInode truncated
    simp only [hm, ne_eq, not_true_eq_false, ↓reduceIte]
    by_cases ht : flags &&& oTrunc = 0#32
    · simp only [ht, not_true_eq_false, ↓reduceIte]
      cases hi : (List.range 16).find? (fun i => !(s.fds i).used) with
      | none => exact Or.inl ⟨rfl, full hi⟩
      | some i =>
        have hlt := List.mem_range.mp (List.mem_of_find?_eq_some hi)
        have hfree := List.find?_some hi
        exact Or.inr ⟨i, _, hlt, by simpa using hfree, rfl⟩
    · simp only [ht, not_false_eq_true, ↓reduceIte]
      cases hi : (List.range 16).find? (fun i => !(s.fds i).used) with
      | none => exact Or.inl ⟨rfl, full hi⟩
      | some i =>
        have hlt := List.mem_range.mp (List.mem_of_find?_eq_some hi)
        have hfree := List.find?_some hi
        exact Or.inr ⟨i, _, hlt, by simpa using hfree, rfl⟩
  · left
    exact ⟨hm, by simp [openInode, hm]⟩

theorem truncated_inv {s : FsState} (h : s.Inv) {ino : Nat} (hf : (view s.dev.disk).isFile ino)
    (flags : Word) : (s.truncated ino flags).Inv ∧
      (view (s.truncated ino flags).dev.disk).isFile ino ∧ (s.truncated ino flags).fds = s.fds := by
  unfold truncated
  split
  · have hv := view_truncate h.fs.toBlockInv hf
    have frame : (view s.dev.disk).Frame ino (view (truncate s.dev ino).disk) := by
      rw [hv]
      exact View.emptied_frame _ _
    have fs : FsInv (view (truncate s.dev ino).disk) := by
      rw [hv]
      exact View.emptied_inv h.fs hf
    exact ⟨h.setDev (truncate_writes h.fs.toBlockInv hf) fs (fun i => (frame.isDir i).mpr)
      (fun i => (frame.isFile i).mpr), (frame.isFile ino).mpr hf, rfl⟩
  · exact ⟨h, hf, rfl⟩

theorem openInode_inv {s : FsState} (h : s.Inv) {ino : Nat} (hl : (view s.dev.disk).live ino)
    (flags : Word) : (s.openInode ino flags).2.Inv := by
  rcases s.openInode_cases ino flags with ⟨-, ho⟩ | ⟨hm, ho⟩
  · rw [ho]
    exact h
  · rw [view_inode hl.1] at hm
    obtain ⟨ht, hf, hfds⟩ := truncated_inv h ⟨hl, hm⟩ flags
    rcases ho with ⟨ho, -⟩ | ⟨i, offset, -, -, ho⟩
    · rw [ho]
      exact ht
    · rw [ho, ← hfds]
      refine ht.setFd i (fun _ => ?_)
      dsimp only
      rw [toNat_ofNat_word hl.1]
      exact hf

/-- The call is refused, opens what the path resolves to, or creates a file first. -/
theorem Inv.fsOpen_cases {s : FsState} (h : s.Inv) (path : Option CStr) (flags : Word) :
    (∃ rc : Int, rc < 0 ∧ s.fsOpen path flags = (rc, s)) ∨
    (∃ p ino, path = some p ∧ s.resolve p.bytes = some ino ∧ (view s.dev.disk).live ino ∧
      s.fsOpen path flags = s.openInode ino flags) ∨
    ∃ p q x, path = some p ∧ s.resolve p.bytes = none ∧ flags &&& oCreate ≠ 0#32 ∧
      s.split p.bytes = some (q, x) ∧ Ordinary x ∧
      CreateResult s.dev q x inodeFile (createInode s.dev q x inodeFile) ∧
      s.fsOpen path flags = match createInode s.dev q x inodeFile with
        | (.error _, v) => (-4, { s with dev := v })
        | (.ok ino, v) => openInode { s with dev := v } ino flags := by
  cases path with
  | none => exact Or.inl ⟨-1, by decide, rfl⟩
  | some p =>
    cases hr : s.resolve p.bytes with
    | some ino => exact Or.inr (Or.inl ⟨p, ino, rfl, hr, h.resolve_live hr, by simp [fsOpen, h.ready, hr]⟩)
    | none =>
      by_cases hc : flags &&& oCreate = 0#32
      · exact Or.inl ⟨-2, by decide, by simp [fsOpen, h.ready, hr, hc]⟩
      · cases hs : s.split p.bytes with
        | none => exact Or.inl ⟨-3, by decide, by simp [fsOpen, h.ready, hr, hc, hs]⟩
        | some r =>
          obtain ⟨q, x⟩ := r
          obtain ⟨hq, hx, hord⟩ := h.split_good hs
          refine Or.inr (Or.inr ⟨p, q, x, rfl, hr, hc, hs, hord, createInode_result h.fs hq hx inodeFile, ?_⟩)
          rcases hmade : createInode s.dev q x inodeFile with ⟨_ | ino, v⟩
          · simp [fsOpen, h.ready, hr, hc, hs, hmade]
          · simp [fsOpen, h.ready, hr, hc, hs, hmade]

/-- The file system after a file has been created, before it is opened. -/
theorem Inv.created {s : FsState} (h : s.Inv) {q slot ino b : Nat} {x : List Byte} {v : Dev}
    (c : (view s.dev.disk).Created (view v.disk) q slot ino b x inodeFile) (hx : Ordinary x)
    (hw : s.dev.Writes v) : Inv { s with dev := v } :=
  h.setDev hw (c.inv h.fs (Or.inl rfl) hx.1 hx.2) (fun i hd => (c.isDir i).mpr (Or.inl hd))
    (fun i hf => (c.isFile i).mpr (Or.inl hf))

theorem fsOpen_inv {s : FsState} (h : s.Inv) (path : Option CStr) (flags : Word) :
    (s.fsOpen path flags).2.Inv := by
  rcases h.fsOpen_cases path flags with ⟨rc, -, ho⟩ | ⟨p, ino, -, -, hl, ho⟩ |
    ⟨p, q, x, -, -, -, -, hord, c, ho⟩
  · rw [ho]
    exact h
  · rw [ho]
    exact openInode_inv h hl flags
  · rw [ho]
    generalize createInode s.dev q x inodeFile = r at c
    cases c with
    | failed _ undone _ =>
      exact h.setDev undone.writes (undone.same.inv h.fs) (fun i => (undone.same.isDir i).mpr)
        (fun i => (undone.same.isFile i).mpr)
    | @created ino b slot v c hw _ =>
      exact openInode_inv (h.created c hord hw) ((c.live ino).mpr (Or.inr rfl)) flags

end FsState

end SengOS
