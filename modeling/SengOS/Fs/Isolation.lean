import SengOS.Fs.Runs

/-!
# Descriptors and the files they were opened on

A descriptor holds a bare inode number, and `fs_unlink` lets that number be
used again. `Tracked` adds to a run what the code does not keep: a stamp for
each object when it is created, and for each descriptor the stamp of the file
it was opened on.
-/

namespace SengOS

/-! ## Reading -/

namespace FsState

/-- The loop of `fs_read` delivers consecutive bytes of the file. -/
theorem readLoop_bytes {v : Dev} (h : BlockInv (view v.disk)) {ino : Nat} (hl : (view v.disk).live ino)
    (fuel left : Nat) (offset : Word) (hlt : offset.toNat + left < 2 ^ 32) (k : Nat)
    (hk : k < (readLoop v (inodeRead v.disk ino) fuel left offset).1.length) :
    (readLoop v (inodeRead v.disk ino) fuel left offset).1[k]? =
      some (fileByte v.disk ino (offset.toNat + k)) := by
  induction fuel generalizing left offset k with
  | zero => simp [readLoop] at hk
  | succ fuel ih =>
    have tame := h.tame_read hl
    have hb : (blockForInode ⟨v.disk, []⟩ (inodeRead v.disk ino) (offset.toNat / 4096) false).1 =
        (blockForInode v (inodeRead v.disk ino) (offset.toNat / 4096) false).1 := by
      rw [blockForInode_read (v := v) tame, blockForInode_read (v := ⟨v.disk, []⟩) tame]
    rw [readLoop] at hk ⊢
    by_cases h0 : left = 0
    · simp [h0] at hk
    rw [if_neg h0] at hk ⊢
    rcases hr : blockForInode v (inodeRead v.disk ino) (offset.toNat / 4096) false with ⟨b, n', v'⟩
    rw [hr] at hk hb
    dsimp only at hk hb ⊢
    by_cases hpos : b ≤ 0
    · rw [if_pos hpos] at hk
      simp at hk
    rw [if_neg hpos] at hk ⊢
    dsimp only at hk ⊢
    have hoff : (offset + BitVec.ofNat 32 (min (4096 - offset.toNat % 4096) left)).toNat =
        offset.toNat + min (4096 - offset.toNat % 4096) left := by
      rw [BitVec.toNat_add, BitVec.toNat_ofNat]
      omega
    by_cases hin : k < min (4096 - offset.toNat % 4096) left
    · have hdiv : (offset.toNat + k) / 4096 = offset.toNat / 4096 := by omega
      have hmod : (offset.toNat + k) % 4096 = offset.toNat % 4096 + k := by omega
      rw [List.getElem?_append_left (by simpa using hin), List.getElem?_map, List.getElem?_range hin,
        Option.map_some, fileByte, hdiv, hmod, hb, if_neg hpos]
    · have hlen : k - min (4096 - offset.toNat % 4096) left <
          (readLoop v (inodeRead v.disk ino) fuel (left - min (4096 - offset.toNat % 4096) left)
            (offset + BitVec.ofNat 32 (min (4096 - offset.toNat % 4096) left))).1.length := by
        rw [List.length_append, List.length_map, List.length_range] at hk
        omega
      rw [List.getElem?_append_right (by rw [List.length_map, List.length_range]; omega),
        List.length_map, List.length_range,
        ih _ _ (by rw [hoff]; omega) _ hlen, hoff]
      congr 2
      omega

/-- What `fs_read` delivers through a descriptor on a file. -/
theorem fsRead_bytes {s : FsState} (h : BlockInv (view s.dev.disk)) {i : Nat} (hi : i < 16)
    (hu : (s.fds i).used = true) (hf : (view s.dev.disk).isFile (s.fds i).inode.toNat) (buf : Bool)
    (count : Word) (k : Nat) (hk : k < (s.fsRead i buf count).2.1.length) :
    (s.fsRead i buf count).2.1[k]? =
      some (fileByte s.dev.disk (s.fds i).inode.toNat ((s.fds i).offset.toNat + k)) := by
  revert hk
  simp only [fsRead, fdIndex_used hi hu]
  split
  · simp
  · split
    · simp
    · split
      · simp
      · rename_i hsize
        intro hk
        refine readLoop_bytes h hf.1 _ _ _ ?_ k hk
        have := (inodeRead s.dev.disk (s.fds i).inode.toNat).size.isLt
        omega

/-! ## Descriptors across a call -/

/-- A descriptor in use in `g` was in use in `f`, on the same inode. -/
def KeepsFd (f g : Nat → FileDesc) (i : Nat) : Prop :=
  (g i).used = true → (f i).used = true ∧ (g i).inode = (f i).inode

theorem KeepsFd.refl (f : Nat → FileDesc) (i : Nat) : KeepsFd f f i := fun hu => ⟨hu, rfl⟩

/-- The offset or the mark of one descriptor is changed. -/
theorem KeepsFd.update (f : Nat → FileDesc) {j : Nat} {x : FileDesc}
    (hj : x.used = true → (f j).used = true) (hn : x.inode = (f j).inode) (i : Nat) :
    KeepsFd f (Function.update f j x) i := by
  intro hu
  by_cases hij : i = j
  · subst hij
    rw [Function.update_self] at hu ⊢
    exact ⟨hj hu, hn⟩
  · rw [Function.update_of_ne hij] at hu ⊢
    exact ⟨hu, rfl⟩

theorem KeepsFd.offset (f : Nat → FileDesc) (j : Nat) (o : Word) (i : Nat) :
    KeepsFd f (Function.update f j ⟨(f j).inode, o, (f j).flags, (f j).used⟩) i := by
  apply KeepsFd.update
  · exact fun hu => hu
  · rfl

section
variable {s : FsState} (i : Nat)

theorem fsRead_fds (fd : Int) (buf : Bool) (count : Word) :
    KeepsFd s.fds (s.fsRead fd buf count).2.2.fds i := by
  unfold fsRead
  split
  · exact .refl _ _
  · rename_i j _
    split
    · exact .refl _ _
    · dsimp only
      split
      · exact .refl _ _
      · split
        · exact .refl _ _
        · exact KeepsFd.offset s.fds j _ i

theorem fsClose_fds (fd : Int) : KeepsFd s.fds (s.fsClose fd).2.fds i := by
  unfold fsClose
  split
  · exact .refl _ _
  · rename_i j _
    exact KeepsFd.update s.fds (x := { s.fds j with used := false }) (fun e => by cases e) rfl i

theorem fsChdir_fds (path : Option CStr) : (s.fsChdir path).2.fds = s.fds := by
  unfold fsChdir
  split
  · rfl
  · split
    · rfl
    · split
      · rfl
      · split <;> rfl

theorem openInode_fds (ino : Nat) (flags : Word) :
    KeepsFd s.fds (s.openInode ino flags).2.fds i ∨ (s.openInode ino flags).1 = i := by
  have htr : (s.truncated ino flags).fds = s.fds := by
    unfold truncated
    split <;> rfl
  rcases s.openInode_cases ino flags with ⟨-, ho⟩ | ⟨-, ⟨ho, -⟩ | ⟨j, offset, -, -, ho⟩⟩
  · rw [ho]
    exact Or.inl (.refl _ _)
  · rw [ho, htr]
    exact Or.inl (.refl _ _)
  · rw [ho]
    by_cases hij : i = j
    · exact Or.inr (by rw [hij])
    · left
      intro hu
      dsimp only at hu ⊢
      rw [Function.update_of_ne hij] at hu ⊢
      exact ⟨hu, rfl⟩

theorem fsOpen_fds (h : s.Inv) (path : Option CStr) (flags : Word) :
    KeepsFd s.fds (s.fsOpen path flags).2.fds i ∨ (s.fsOpen path flags).1 = i := by
  rcases h.fsOpen_cases path flags with ⟨rc, -, ho⟩ | ⟨p, ino, -, -, -, ho⟩ |
    ⟨p, q, x, -, -, -, -, -, -, ho⟩
  · rw [ho]
    exact Or.inl (.refl _ _)
  · rw [ho]
    exact openInode_fds i ino flags
  · rw [ho]
    rcases createInode s.dev q x inodeFile with ⟨rc | ino, v⟩
    · exact Or.inl (.refl _ _)
    · exact openInode_fds (s := { s with dev := v }) i ino flags

/-- A descriptor in use after a call was in use before it, on the same inode,
or is the one the call returned. -/
theorem step_fds (h : s.Inv) (op : FsOp) :
    KeepsFd s.fds (s.step op).fds i ∨
      ∃ path flags, op = .open path flags ∧ (s.fsOpen path flags).1 = i := by
  cases op with
  | «open» path flags => exact (fsOpen_fds i h path flags).imp_right fun e => ⟨path, flags, rfl, e⟩
  | read fd buf count => exact Or.inl (fsRead_fds i fd buf count)
  | write fd buf count =>
    left
    rcases h.fsWrite_cases fd buf count with hw | ⟨j, d, w, -, -, hw⟩
    · rw [step, hw]
      exact .refl _ _
    · rw [step, hw]
      exact KeepsFd.offset s.fds j _ i
  | close fd => exact Or.inl (fsClose_fds i fd)
  | unlink path =>
    left
    rcases h.fsUnlink_cases path with ⟨rc, -, hu⟩ | ⟨p, q, slot, ino, x, -, -, hu⟩
    · rw [step, hu]
      exact .refl _ _
    · rw [step, hu]
      exact .refl _ _
  | mkdir path =>
    rw [step, fsMkdir_fds h path]
    exact Or.inl (.refl _ _)
  | chdir path =>
    rw [step, fsChdir_fds path]
    exact Or.inl (.refl _ _)

end

end FsState

/-! ## Stamps -/

/-- A run with the stamp of the object in each inode and of the file each
descriptor was opened on. -/
structure Tracked where
  st : FsState
  births : Nat
  born : Nat → Nat
  opened : Nat → Nat

namespace Tracked

def init : Tracked := ⟨fsInit FsState.boot, 0, fun _ => 0, fun _ => 0⟩

/-- An inode that the call put into use holds a new object. -/
def bornAfter (t : Tracked) (op : FsOp) (i : Nat) : Nat :=
  if bitmapGet t.st.dev.disk 3 i = false ∧ bitmapGet (t.st.step op).dev.disk 3 i = true then t.births + 1
  else t.born i

/-- The descriptor that `fs_open` returned is on the object its inode holds now. -/
def openedAfter (t : Tracked) : FsOp → Nat → Nat
  | .open path flags, i =>
    if (t.st.fsOpen path flags).1 = i then
      t.bornAfter (.open path flags) ((t.st.fsOpen path flags).2.fds i).inode.toNat
    else t.opened i
  | _, i => t.opened i

def next (t : Tracked) (op : FsOp) : Tracked :=
  ⟨t.st.step op, t.births + 1, t.bornAfter op, t.openedAfter op⟩

/-- Reads and writes through a descriptor touch the very file it was opened on:
a read delivers bytes of that file, and a write leaves every other object and
every inode that is not in use as it was. -/
structure Isolated (t : Tracked) (fd : Nat) : Prop where
  read : ∀ count, (t.st.fsRead fd true count).2.1 ≠ [] → ∃ j, inUse t.st.dev.disk j ∧
    t.born j = t.opened fd ∧ ∀ k, k < (t.st.fsRead fd true count).2.1.length →
      (t.st.fsRead fd true count).2.1[k]? =
        some (fileByte t.st.dev.disk j ((t.st.fds fd).offset.toNat + k))
  write : ∀ buf count j, inUse t.st.dev.disk j → t.born j ≠ t.opened fd →
    inodeRead (t.st.fsWrite fd buf count).2.dev.disk j = inodeRead t.st.dev.disk j ∧
    (∀ slot, blockRef (t.st.fsWrite fd buf count).2.dev.disk j slot = blockRef t.st.dev.disk j slot) ∧
    ∀ p, fileByte (t.st.fsWrite fd buf count).2.dev.disk j p = fileByte t.st.dev.disk j p
  unused : ∀ buf count j, j < 64 → ¬ inUse t.st.dev.disk j →
    inodeRead (t.st.fsWrite fd buf count).2.dev.disk j = inodeRead t.st.dev.disk j

/-- Runs in which no file is unlinked while a descriptor is open on it. -/
inductive Reachable : Tracked → Prop
  | init : Reachable init
  | step {t : Tracked} (op : FsOp) : Reachable t → t.st.Allowed op → Reachable (t.next op)

/-- Descriptors in use are on files with the stamp recorded when they were opened. -/
structure Inv (t : Tracked) : Prop where
  st : t.st.Inv
  same : ∀ i, i < 16 → (t.st.fds i).used = true → t.born (t.st.fds i).inode.toNat = t.opened i

theorem next_inv {t : Tracked} (h : t.Inv) (op : FsOp) (ha : t.st.Allowed op) : (t.next op).Inv := by
  refine ⟨FsState.step_inv h.st op ha, fun i hi hu => ?_⟩
  have old (hk : FsState.KeepsFd t.st.fds (t.st.step op).fds i) :
      t.bornAfter op ((t.st.step op).fds i).inode.toNat = t.opened i := by
    obtain ⟨hu', hn⟩ := hk hu
    have hl := (h.st.fds i hi hu').1
    rw [hn, bornAfter, if_neg, h.same i hi hu']
    rintro ⟨e, -⟩
    rw [view_ibit, hl.2] at e
    cases e
  change t.bornAfter op ((t.st.step op).fds i).inode.toNat = t.openedAfter op i
  cases op with
  | «open» path flags =>
    by_cases hr : (t.st.fsOpen path flags).1 = i
    · rw [openedAfter, if_pos hr]
      rfl
    · rw [openedAfter, if_neg hr]
      refine old ((FsState.step_fds i h.st (.open path flags)).resolve_right ?_)
      rintro ⟨p, f, e, hr'⟩
      cases e
      exact hr hr'
  | _ =>
    refine old ((FsState.step_fds i h.st _).resolve_right ?_)
    rintro ⟨p, f, e, -⟩
    cases e

theorem Reachable.inv {t : Tracked} (h : Reachable t) : t.Inv := by
  induction h with
  | init =>
    refine ⟨fsInit_blank_inv, fun i _ hu => ?_⟩
    cases hu
  | step op _ ha ih => exact next_inv ih op ha

theorem Inv.isolated {t : Tracked} (h : t.Inv) {fd : Nat} (hfd : fd < 16)
    (hu : (t.st.fds fd).used = true) : t.Isolated fd := by
  have hf := h.st.fds fd hfd hu
  have hs := h.same fd hfd hu
  constructor
  · intro count _
    refine ⟨_, (inUse_iff _).mpr hf.1, hs, fun k hk => ?_⟩
    exact FsState.fsRead_bytes h.st.fs.toBlockInv hfd hu hf true count k hk
  · intro buf count j hj hne
    have hl := (inUse_iff j).mp hj
    have hji : j ≠ (t.st.fds fd).inode.toNat := by
      rintro rfl
      exact hne hs
    rcases h.st.fsWrite_cases fd buf count with hw | ⟨i, d, w, hi, done, hw⟩
    · rw [hw]
      exact ⟨rfl, fun _ => rfl, fun _ => rfl⟩
    · rw [FsState.fdIndex_used hfd hu] at hi
      cases hi
      obtain ⟨fs, frame, -, -⟩ := done.stored h.st.fs hf
      have hl' := (frame.live j).mpr hl
      rw [hw]
      refine ⟨?_, fun slot => ?_, fun p => ?_⟩
      · rw [view_inode hl.1, view_inode hl.1]
        exact frame.inode j hji
      · rw [blockRef_eq fs.toBlockInv hl', blockRef_eq h.st.fs.toBlockInv hl]
        exact frame.ptr hl hji slot
      · rw [fileByte_eq fs.toBlockInv hl', fileByte_eq h.st.fs.toBlockInv hl]
        exact frame.byteAt hl hji p
  · intro buf count j hj hn
    have hji : j ≠ (t.st.fds fd).inode.toNat := by
      rintro rfl
      exact hn ((inUse_iff _).mpr hf.1)
    rcases h.st.fsWrite_cases fd buf count with hw | ⟨i, d, w, hi, done, hw⟩
    · rw [hw]
    · rw [FsState.fdIndex_used hfd hu] at hi
      cases hi
      rw [hw, view_inode hj, view_inode hj]
      exact (done.stored h.st.fs hf).2.1.inode j hji

/-- In every run that unlinks no open file, every descriptor is isolated. -/
theorem reachable_isolated {t : Tracked} (h : Reachable t) {fd : Nat} (hfd : fd < 16)
    (hu : (t.st.fds fd).used = true) : t.Isolated fd := h.inv.isolated hfd hu

/-- "e" -/
def nameE : CStr := ⟨[0x65#8], by decide⟩

theorem opened_isolated : (init.next (.open (some FsState.nameD) 0x102#32)).Isolated 0 :=
  reachable_isolated (.step (.open (some FsState.nameD) 0x102#32) .init trivial) (by decide)
    FsState.openedD_used.1

/-- "d" is opened and unlinked, then "e" is created and gets the same inode. -/
def staleRun : Tracked :=
  ((init.next (.open (some FsState.nameD) 0x102#32)).next (.unlink (some FsState.nameD))).next
    (.open (some nameE) 0x102#32)

theorem staleRun_facts : (staleRun.st.fds 0).used = true ∧ staleRun.born 1 ≠ staleRun.opened 0 ∧
    bitmapGet staleRun.st.dev.disk 3 1 = true ∧
    (inodeRead (staleRun.st.fsWrite ((0 : Nat) : Int) (some fun _ => 0x58#8) 1#32).2.dev.disk 1).size ≠
      (inodeRead staleRun.st.dev.disk 1).size := by
  decide +kernel

/-- A write through the old descriptor changes the size of the new file. -/
theorem stale_not_isolated : (staleRun.st.fds 0).used = true ∧ ¬ staleRun.Isolated 0 := by
  obtain ⟨used, stamps, live, grown⟩ := staleRun_facts
  refine ⟨used, fun iso => grown ?_⟩
  exact congrArg Inode.size (iso.write (some fun _ => 0x58#8) 1#32 1 ⟨by decide, live⟩ stamps).1

end Tracked

end SengOS
