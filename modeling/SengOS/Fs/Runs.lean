import SengOS.Fs.Boot

/-!
# Runs of calls

Every state the calls can reach from `fs_init` on a blank disk is consistent,
as long as no file is unlinked while a descriptor is open on it. `Consistent`
spells the invariant out on the bytes of the disk.
-/

namespace SengOS

namespace FsState

/-- The call does not unlink a file that a descriptor is open on. -/
def Allowed (s : FsState) : FsOp → Prop
  | .unlink (some path) => ¬ s.unlinksOpen path
  | _ => True

inductive Reachable : FsState → Prop
  | init : Reachable (fsInit boot)
  | step {s : FsState} (op : FsOp) : Reachable s → s.Allowed op → Reachable (s.step op)

theorem step_inv {s : FsState} (h : s.Inv) (op : FsOp) (ha : s.Allowed op) : (s.step op).Inv := by
  cases op with
  | «open» path flags => exact fsOpen_inv h path flags
  | read fd buf count => exact fsRead_inv h fd buf count
  | write fd buf count => exact fsWrite_inv h fd buf count
  | close fd => exact fsClose_inv h fd
  | unlink path =>
    refine fsUnlink_inv h path ?_
    rintro p rfl
    exact ha
  | mkdir path => exact fsMkdir_inv h path
  | chdir path => exact fsChdir_inv h path

theorem Reachable.inv {s : FsState} (h : Reachable s) : s.Inv := by
  induction h with
  | init => exact fsInit_blank_inv
  | step op _ ha ih => exact step_inv ih op ha

end FsState

/-! ## The invariant on the bytes of a disk -/

section
variable (d : Disk)

def inUse (i : Nat) : Prop := i < 64 ∧ bitmapGet d 3 i = true

def usedDir (i : Nat) : Prop := inUse d i ∧ (inodeRead d i).mode = inodeDir

/-- The block number in a slot of an inode; an entry slot is read from the indirect block. -/
def blockRef (i : Nat) (s : Slot) : Nat := (inodeRead d i).ptr (readBlock d) s

/-- Entry `s` of directory `i`. -/
def entryAt (i s : Nat) : Option (List Byte × Nat) :=
  dirent (readBlock d ((inodeRead d i).direct 0).toNat) s

end

/-- The ownership invariant of the file system. -/
structure FsState.Consistent (s : FsState) : Prop where
  marked : ∀ b, 6 ≤ b → b < 254 → (bitmapGet s.dev.disk 2 b = true ↔
    ∃! r : Nat × Slot, inUse s.dev.disk r.1 ∧ blockRef s.dev.disk r.1 r.2 = b)
  unmarked : ∀ b, 6 ≤ b → b < 254 → (bitmapGet s.dev.disk 2 b = false ↔
    ∀ i t, inUse s.dev.disk i → blockRef s.dev.disk i t ≠ b)
  range : ∀ i t, inUse s.dev.disk i → blockRef s.dev.disk i t ≠ 0 →
    (6 ≤ blockRef s.dev.disk i t ∧ blockRef s.dev.disk i t < 254) ∨ (i = 0 ∧ t = .direct 0)
  root : usedDir s.dev.disk 0 ∧ blockRef s.dev.disk 0 (.direct 0) = 1
  kind : ∀ i, inUse s.dev.disk i → (inodeRead s.dev.disk i).mode = inodeFile ∨
    (usedDir s.dev.disk i ∧ ∀ t, blockRef s.dev.disk i t ≠ 0 ↔ t = .direct 0)
  named : ∀ i, i ≠ 0 → inUse s.dev.disk i → ∃! e : Nat × Nat, usedDir s.dev.disk e.1 ∧ e.2 < 128 ∧
    ∃ x, entryAt s.dev.disk e.1 e.2 = some (x, i) ∧ x ≠ dotName ∧ x ≠ dotdotName
  entry : ∀ i t x j, usedDir s.dev.disk i → t < 128 → entryAt s.dev.disk i t = some (x, j) →
    inUse s.dev.disk j ∧ GoodName x
  distinct : ∀ i t t' x j j', usedDir s.dev.disk i → t < 128 → t' < 128 →
    entryAt s.dev.disk i t = some (x, j) → entryAt s.dev.disk i t' = some (x, j') → t = t'
  dots : ∀ i, usedDir s.dev.disk i → entryAt s.dev.disk i 0 = some (dotName, i) ∧
    ∃ p, entryAt s.dev.disk i 1 = some (dotdotName, p) ∧ usedDir s.dev.disk p ∧
      (i ≠ 0 → ∃ t x, 2 ≤ t ∧ t < 128 ∧ entryAt s.dev.disk p t = some (x, i))
  cwd : usedDir s.dev.disk s.cwdInode.toNat
  fds : ∀ i, i < 16 → (s.fds i).used = true → inUse s.dev.disk (s.fds i).inode.toNat ∧
    (inodeRead s.dev.disk (s.fds i).inode.toNat).mode = inodeFile

section
variable {d : Disk}

theorem inUse_iff (i : Nat) : inUse d i ↔ (view d).live i := by
  rw [inUse, view_ibit, View.live]

theorem usedDir_iff (i : Nat) : usedDir d i ↔ (view d).isDir i := by
  unfold usedDir View.isDir
  rw [inUse_iff]
  exact and_congr_right fun hl => by rw [view_inode hl.1]

theorem blockRef_eq (h : BlockInv (view d)) {i : Nat} (hl : (view d).live i) (s : Slot) :
    blockRef d i s = (view d).ptr i s := by
  unfold blockRef View.ptr
  rw [view_inode hl.1]
  cases s with
  | direct k => rfl
  | indirect => rfl
  | entry j =>
    simp only [Inode.ptr]
    by_cases hz : ((view d).inode i).indirect = 0#32
    · simp [hz]
    · rw [readBlock_data ((h.tame hl).indirect hz)]

theorem entryAt_eq (h : BlockInv (view d)) {i : Nat} (hd : (view d).isDir i) (s : Nat) :
    entryAt d i s = (view d).entry i s := by
  unfold entryAt View.entry
  rw [view_inode hd.1.1]
  exact congrArg (dirent · s) (readBlock_data (h.dirBlock_data hd) d)

end

/-- An entry other than "." and ".." is the only one of its inode. -/
theorem ordinary_entry {v : View} (h : FsInv v) {i t j : Nat} {x : List Byte} (hd : v.isDir i) (ht : t < 128)
    (he : v.entry i t = some (x, j)) : (2 ≤ t ↔ x ≠ dotName ∧ x ≠ dotdotName) := by
  constructor
  · intro h2
    exact (h.tree.child i t x j hd h2 ht he).2.2
  · intro hx
    exact FsState.ordinary_slot h hd hx he

theorem FsState.Inv.consistent {s : FsState} (h : s.Inv) : s.Consistent := by
  have hb := h.fs.toBlockInv
  have own := hb.own
  have ref {i : Nat} (hl : (view s.dev.disk).live i) (t : Slot) := blockRef_eq hb hl t
  have ent {i : Nat} (hd : (view s.dev.disk).isDir i) (t : Nat) := entryAt_eq hb hd t
  constructor
  · intro b h6 h254
    rw [view_bbit, own.used_iff b h6 h254]
    constructor
    · rintro ⟨i, t, hl, e⟩
      refine ⟨(i, t), ⟨(inUse_iff i).mpr hl, (ref hl t).trans e⟩, ?_⟩
      rintro ⟨j, t'⟩ ⟨hl', e'⟩
      have hl' := (inUse_iff j).mp hl'
      rw [ref hl'] at e'
      dsimp only at e'
      obtain ⟨rfl, rfl⟩ := own.inj j t' i t hl' hl (by omega) (e'.trans e.symm)
      rfl
    · rintro ⟨⟨i, t⟩, ⟨hl, e⟩, -⟩
      have hl := (inUse_iff i).mp hl
      exact ⟨i, t, hl, (ref hl t).symm.trans e⟩
  · intro b h6 h254
    rw [view_bbit, ← Bool.not_eq_true, own.used_iff b h6 h254]
    constructor
    · intro hn i t hl e
      have hl := (inUse_iff i).mp hl
      exact hn ⟨i, t, hl, (ref hl t).symm.trans e⟩
    · rintro hn ⟨i, t, hl, e⟩
      exact hn i t ((inUse_iff i).mpr hl) ((ref hl t).trans e)
  · intro i t hl hne
    have hl := (inUse_iff i).mp hl
    rw [ref hl] at hne ⊢
    exact (own.range i t hl hne).imp_right fun e => ⟨e.1, e.2.1⟩
  · exact ⟨(usedDir_iff 0).mpr hb.root_dir, (ref hb.root_dir.1 _).trans hb.root⟩
  · intro i hl
    have hl := (inUse_iff i).mp hl
    refine (hb.mode i hl).imp (fun hf => by rw [view_inode hl.1]; exact hf.2) fun hd => ?_
    refine ⟨(usedDir_iff i).mpr hd, fun t => ?_⟩
    rw [ref hl]
    constructor
    · intro hne
      by_contra ht
      exact hne ((hb.shape i hd).2 t ht)
    · rintro rfl
      exact (hb.shape i hd).1
  · intro i h0 hl
    obtain ⟨p, t, x, hp, h2, ht, he⟩ := h.fs.tree.named ((inUse_iff i).mp hl) h0
    refine ⟨(p, t), ⟨(usedDir_iff p).mpr hp, ht, x, (ent hp t).trans he,
      (ordinary_entry h.fs hp ht he).mp h2⟩, ?_⟩
    rintro ⟨p', t'⟩ ⟨hp', ht', y, he', hy⟩
    have hp' := (usedDir_iff p').mp hp'
    rw [ent hp'] at he'
    have h2' := (ordinary_entry h.fs hp' ht' he').mpr hy
    obtain ⟨rfl, rfl⟩ := h.fs.tree.once p' p t' t y x i hp' hp h2' ht' h2 ht he' he
    rfl
  · intro i t x j hd ht he
    have hd := (usedDir_iff i).mp hd
    rw [ent hd] at he
    exact ⟨(inUse_iff j).mpr (h.fs.entry_live hd ht he), h.fs.name i t x j hd ht he⟩
  · intro i t t' x j j' hd ht ht' he he'
    have hd := (usedDir_iff i).mp hd
    rw [ent hd] at he he'
    exact h.fs.tree.names i t t' x j j' hd ht ht' he he'
  · intro i hd
    have hd := (usedDir_iff i).mp hd
    obtain ⟨p, hp, hpd, hor⟩ := h.fs.tree.parent i hd
    refine ⟨(ent hd 0).trans (h.fs.tree.self i hd), p, (ent hd 1).trans hp, (usedDir_iff p).mpr hpd, ?_⟩
    intro h0
    rcases hor with ⟨e, -⟩ | ⟨t, x, h2, ht, he⟩
    · exact absurd e h0
    · exact ⟨t, x, h2, ht, (ent hpd t).trans he⟩
  · exact (usedDir_iff _).mpr h.cwd
  · intro i hi hu
    have hf := h.fds i hi hu
    exact ⟨(inUse_iff _).mpr hf.1, by rw [view_inode hf.1.1]; exact hf.2⟩

namespace FsState

/-- Every reachable state is consistent. -/
theorem reachable_consistent {s : FsState} (h : Reachable s) : s.Consistent := h.inv.consistent

/-- "d" -/
def nameD : CStr := ⟨[0x64#8], by decide⟩

theorem fsMkdir_fds {s : FsState} (h : s.Inv) (path : Option CStr) : (s.fsMkdir path).2.fds = s.fds := by
  rcases h.fsMkdir_cases path with ⟨rc, -, hm⟩ | ⟨p, q, x, -, -, -, -, hm, -⟩
  · rw [hm]
  · rw [hm]

/-- A directory is created and removed again. -/
theorem mkdir_unlink_consistent :
    (((fsInit boot).step (.mkdir (some nameD))).step (.unlink (some nameD))).Consistent := by
  refine reachable_consistent (.step _ (.step (.mkdir (some nameD)) .init trivial) ?_)
  rintro ⟨q, x, ino, i, -, -, -, hu, -⟩
  have : ((fsInit boot).step (.mkdir (some nameD))).fds = (fsInit boot).fds := fsMkdir_fds fsInit_blank_inv _
  rw [this] at hu
  cases hu

/-! ## `fs_write` as an operation on byte arrays -/

/-- The meaning of `fs_write` on a file: `k` bytes of the buffer replace what
the file held from the offset on, and nothing else changes. -/
theorem fsWrite_bytes {s : FsState} (h : BlockInv (view s.dev.disk)) {fd : Nat} (hfd : fd < 16)
    (used : (s.fds fd).used = true) (mode : (s.fds fd).flags &&& 3#32 ≠ 0#32)
    (file : (view s.dev.disk).isFile (s.fds fd).inode.toNat) (d : Nat → Byte) (n : Word) :
    let ino := (s.fds fd).inode.toNat
    let o := (s.fds fd).offset.toNat
    let size := fun (s : FsState) (i : Nat) => (inodeRead s.dev.disk i).size.toNat
    let s' := (s.fsWrite fd (some d) n).2
    ∃ k : Nat, (s.fsWrite fd (some d) n).1 = k ∧ k ≤ n.toNat ∧
      (∀ p, o ≤ p → p < o + k → fileByte s'.dev.disk ino p = d (p - o)) ∧
      (∀ p, ¬ (o ≤ p ∧ p < o + k) → fileByte s'.dev.disk ino p = fileByte s.dev.disk ino p) ∧
      size s' ino = (if 0 < k then max (size s ino) (o + k) else size s ino) ∧
      (s'.fds fd).offset.toNat = o + k ∧
      s'.fds = Function.update s.fds fd { s.fds fd with offset := (s'.fds fd).offset } ∧
      (∀ i, (view s.dev.disk).live i → i ≠ ino →
        inodeRead s'.dev.disk i = inodeRead s.dev.disk i ∧
        ∀ p, fileByte s'.dev.disk i p = fileByte s.dev.disk i p) ∧
      (k < n.toNat → 248 * 4096 ≤ o + k ∨ ∀ b, 6 ≤ b → b < 254 → bitmapGet s'.dev.disk 2 b = true) := by
  obtain ⟨w, done, hw⟩ := fsWrite_file (fdIndex_used hfd used) mode h file d n
  have hv := done.view_stored file.1.1
  rw [hw]
  dsimp only
  have inv' : BlockInv (view (inodeWrite w.dev (s.fds fd).inode.toNat w.inode).disk) := hv ▸ done.inv
  have frame' : (view s.dev.disk).Frame (s.fds fd).inode.toNat
      (view (inodeWrite w.dev (s.fds fd).inode.toNat w.inode).disk) := hv ▸ done.frame
  have hbyte (p : Nat) := fileByte_eq inv' ((frame'.live _).mpr file.1) p
  have hold (p : Nat) := fileByte_eq h file.1 p
  have hwrote (p : Nat) := done.byte p
  refine ⟨w.done, rfl, done.le, ?_, ?_, ?_, ?_, ?_, ?_, ?_⟩
  · intro p h1 h2
    rw [hbyte, hv, hwrote, if_pos ⟨h1, h2⟩]
  · intro p hp
    rw [hbyte, hv, hwrote, if_neg hp, hold]
  · rw [inodeRead_inodeWrite file.1.1 file.1.1, if_pos rfl, done.size, view_inode file.1.1]
    by_cases hk : w.done = 0
    · simp [hk]
    · simp [hk, Nat.pos_of_ne_zero hk]
  · simpa using done.offset
  · simp
  · intro i hl hi
    refine ⟨?_, fun p => ?_⟩
    · rw [inodeRead_inodeWrite file.1.1 hl.1, if_neg hi]
      have := frame'.inode i hi
      rw [← view_inode hl.1, ← view_inode hl.1, inodeRead_inodeWrite file.1.1 hl.1, if_neg hi] at this
      exact this
    · rw [fileByte_eq inv' ((frame'.live i).mpr hl), fileByte_eq h hl, frame'.byteAt hl hi]
  · intro hk
    refine (done.stop hk).imp_right fun full b h6 h254 => ?_
    rw [view_bbit, hv]
    exact full b h6 h254

/-- A state with descriptor 0 open for reading and writing on a new file "d". -/
def openedD : FsState := ((fsInit boot).fsOpen (some nameD) 0x102#32).2

theorem openedD_used : (openedD.fds 0).used = true ∧ (openedD.fds 0).flags &&& 3#32 ≠ 0#32 ∧
    (openedD.fds 0).offset = 0#32 := by
  decide +kernel

/-- Three bytes written to a new file. -/
theorem fsWrite_openedD : ∃ k : Nat, (openedD.fsWrite 0 (some fun _ => 0x58#8) 3#32).1 = k ∧ k ≤ 3 ∧
    (∀ p, p < k → fileByte (openedD.fsWrite 0 (some fun _ => 0x58#8) 3#32).2.dev.disk
      (openedD.fds 0).inode.toNat p = 0x58#8) ∧
    (k < 3 → 248 * 4096 ≤ k ∨ ∀ b, 6 ≤ b → b < 254 →
      bitmapGet (openedD.fsWrite 0 (some fun _ => 0x58#8) 3#32).2.dev.disk 2 b = true) := by
  obtain ⟨used, flags, offset⟩ := openedD_used
  have inv : openedD.Inv := fsOpen_inv fsInit_blank_inv _ _
  obtain ⟨k, hk, hle, hb, -, -, -, -, -, hs⟩ := fsWrite_bytes inv.fs.toBlockInv (by decide) used flags
    (inv.fds 0 (by decide) used) (fun _ => 0x58#8) 3#32
  rw [offset] at hb hs
  refine ⟨k, hk, hle, fun p hp => hb p (Nat.zero_le _) (by simpa using hp), fun hlt => ?_⟩
  simpa using hs hlt

end FsState

end SengOS
