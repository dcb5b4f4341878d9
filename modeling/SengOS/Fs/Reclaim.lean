import SengOS.Fs.Agreement
import SengOS.Fs.Failures

/-!
# Everything a file took comes back

A file is created, written through its descriptor, closed and unlinked. The
argument does not follow the blocks along the routes they were taken on: who
holds what determines the marks, and in the end everybody who was there before
holds what he held before.
-/

namespace SengOS

/-- The entries of directory `i`, as pairs of name and inode. -/
def dirEntries (d : Disk) (i : Nat) : Set (List Byte × Nat) :=
  {e | ∃ k, k < 128 ∧ entryAt d i k = some e}

/-! ## The views before and after -/

/-- A file is created in `v`, changed in `w` and removed in `z`. -/
structure Lifetime (u v w z : View) (q slot ino b : Nat) (x : List Byte) : Prop where
  start : FsInv u
  used : FsInv w
  created : u.Created v q slot ino b x inodeFile
  frame : v.Frame ino w
  removed : w.Removed z q slot ino x
  pool : ∀ c, ¬ (6 ≤ c ∧ c < 254) → w.bbit c = v.bbit c

namespace Lifetime

variable {u v w z : View} {q slot ino b : Nat} {x : List Byte}

theorem live (t : Lifetime u v w z q slot ino b x) (i : Nat) : z.live i ↔ u.live i := by
  rw [t.removed.live, t.frame.live, t.created.live]
  constructor
  · rintro ⟨hl | rfl, hne⟩
    · exact hl
    · exact absurd rfl hne
  · exact fun hl => ⟨Or.inl hl, t.created.ne_ino hl⟩

theorem isDir (t : Lifetime u v w z q slot ino b x) (i : Nat) : z.isDir i ↔ u.isDir i := by
  rw [t.removed.isDir, t.frame.isDir, t.created.isDir]
  constructor
  · rintro ⟨hd | ⟨rfl, -⟩, hne⟩
    · exact hd
    · exact absurd rfl hne
  · exact fun hd => ⟨Or.inl hd, t.created.ne_ino hd.1⟩

/-- Everybody holds what he held before. -/
theorem ptr (t : Lifetime u v w z q slot ino b x) {i : Nat} (hl : u.live i) (s : Slot) :
    z.ptr i s = u.ptr i s := by
  have hne := t.created.ne_ino hl
  have hv : v.live i := (t.created.live i).mpr (Or.inl hl)
  calc z.ptr i s = w.ptr i s := t.removed.ptr_old t.used.toBlockInv ((t.frame.live i).mpr hv) hne s
    _ = v.ptr i s := t.frame.ptr hv hne s
    _ = u.ptr i s := t.created.ptr_old t.start.toBlockInv hl s

theorem entry (t : Lifetime u v w z q slot ino b x) (hv : BlockInv v) {i : Nat} (hd : u.isDir i) (k : Nat) :
    z.entry i k = u.entry i k := by
  have hne := t.created.ne_ino hd.1
  have hvd : v.isDir i := (t.created.isDir i).mpr (Or.inl hd)
  rw [t.removed.entry_old t.used.toBlockInv ((t.frame.isDir i).mpr hvd) hne, t.frame.entry hv hvd hne,
    t.created.entry_old t.start.toBlockInv hd]
  by_cases hk : i = q ∧ k = slot
  · obtain ⟨rfl, rfl⟩ := hk
    rw [if_pos ⟨rfl, rfl⟩, t.created.slot_free]
  · rw [if_neg hk, if_neg hk]

theorem ibit (t : Lifetime u v w z q slot ino b x) : z.ibit = u.ibit := by
  rw [t.removed.ibit, t.frame.ibit, t.created.ibit, Function.update_idem, ← t.created.ino_free]
  exact Function.update_eq_self ino u.ibit

theorem bbit (t : Lifetime u v w z q slot ino b x) : z.bbit = u.bbit := by
  have own := (t.removed.inv t.used).own
  funext c
  by_cases hc : 6 ≤ c ∧ c < 254
  · apply Bool.eq_iff_iff.mpr
    exact t.start.own.used_unique own t.live (fun i s hl => t.ptr hl s) hc.1 hc.2
  · have hb : c ≠ b := by
      rintro rfl
      exact hc ⟨t.created.ge, t.created.lt⟩
    have kept : z.bbit c = w.bbit c := by
      apply Bool.eq_iff_iff.mpr
      rw [t.removed.bbit, View.released_iff]
      exact ⟨And.left, fun h => ⟨h, fun h6 h254 => absurd ⟨h6, h254⟩ hc⟩⟩
    rw [kept, t.pool c hc, t.created.bbit, Function.update_of_ne hb]

end Lifetime

namespace FsState

/-! ## Writing through one descriptor -/

theorem fsWrite_pool {s : FsState} (h : s.Inv) (fd : Int) (buf : Option (Nat → Byte)) (count : Word) :
    PoolOnly s.dev (s.fsWrite fd buf count).2.dev := by
  rcases h.fsWrite_guards fd buf count with hw | ⟨i, d, hi, rfl, hm, hf⟩
  · rw [hw]
    exact .refl _
  · have keeps : TurnKeeps (view s.dev.disk) s.dev (s.fds i).inode.toNat (s.fds i).offset.toNat d
        fun w => PoolOnly s.dev w.dev := by
      constructor
      · intro w t hw hp _ _
        have file := (hw.frame.isFile _).mpr hf
        exact hp.trans (blockForInode_pool (virtual_tame hw.inv file).indirect _ _)
      · intro w t b take hw hp _ hb hb0 _ _
        have file := (hw.frame.isFile _).mpr hf
        have data : IsData b := by
          rw [← hb] at hb0 ⊢
          exact hw.inv.ptr_data file.1 hb0
        exact hp.trans (.write data _)
    obtain ⟨w, -, hp, hw⟩ := fsWrite_loop hi hm h.fs.toBlockInv hf d count keeps (.refl _)
    rw [hw]
    intro c hc
    rw [view_inodeWrite hf.1.1, View.setInode_bbit]
    exact hp c hc

/-- Only file `ino` has changed from `s` to `t`. -/
structure Wrote (ino : Nat) (s t : FsState) : Prop where
  inv : t.Inv
  frame : (view s.dev.disk).Frame ino (view t.dev.disk)
  pool : PoolOnly s.dev t.dev
  cwd : t.cwdInode = s.cwdInode

theorem fsWrite_wrote {s : FsState} (h : s.Inv) {i ino : Nat} (hi : i < 16) (hu : (s.fds i).used = true)
    (hino : (s.fds i).inode.toNat = ino) (buf : Option (Nat → Byte)) (count : Word) :
    Wrote ino s (s.fsWrite i buf count).2 ∧ ((s.fsWrite i buf count).2.fds i).used = true ∧
      ((s.fsWrite i buf count).2.fds i).inode.toNat = ino := by
  have inv := fsWrite_inv h i buf count
  have pool := fsWrite_pool h i buf count
  rcases h.fsWrite_cases i buf count with hw | ⟨j, d, w, hj, done, hw⟩
  · rw [hw] at inv pool ⊢
    exact ⟨⟨inv, .refl _ _, pool, rfl⟩, hu, hino⟩
  · rw [fdIndex_used hi hu] at hj
    cases hj
    have frame := (done.stored h.fs (h.fds i hi hu)).2.1
    rw [hw] at inv pool ⊢
    refine ⟨⟨inv, hino ▸ frame, pool, rfl⟩, ?_, ?_⟩
    · dsimp only
      rw [Function.update_self]
      exact hu
    · dsimp only
      rw [Function.update_self]
      exact hino

/-- A sequence of `fs_write` calls through one descriptor. -/
def writeAll (fd : Int) (ws : List (Option (Nat → Byte) × Word)) (s : FsState) : FsState :=
  ws.foldl (fun s w => (s.fsWrite fd w.1 w.2).2) s

theorem writeAll_wrote {s : FsState} (h : s.Inv) {i ino : Nat} (hi : i < 16) (hu : (s.fds i).used = true)
    (hino : (s.fds i).inode.toNat = ino) (ws : List (Option (Nat → Byte) × Word)) :
    Wrote ino s (writeAll i ws s) ∧ ((writeAll i ws s).fds i).used = true := by
  induction ws generalizing s with
  | nil => exact ⟨⟨h, .refl _ _, .refl _, rfl⟩, hu⟩
  | cons w ws ih =>
    obtain ⟨first, hu', hino'⟩ := fsWrite_wrote h hi hu hino w.1 w.2
    obtain ⟨rest, hu''⟩ := ih first.inv hu' hino'
    exact ⟨⟨rest.inv, first.frame.trans rest.frame, first.pool.trans rest.pool,
      rest.cwd.trans first.cwd⟩, hu''⟩

/-! ## From creation to removal -/

/-- `fs_open(path, FS_O_RDWR | FS_O_CREATE)` made file `ino` and put descriptor `i` on it. -/
structure OpenedNew (s s₁ : FsState) (path : CStr) (q slot ino b i : Nat) (x : List Byte) : Prop where
  split : s.split path.bytes = some (q, x)
  ordinary : Ordinary x
  created : (view s.dev.disk).Created (view s₁.dev.disk) q slot ino b x inodeFile
  cwd : s₁.cwdInode = s.cwdInode
  lt : i < 16
  used : (s₁.fds i).used = true
  inode : (s₁.fds i).inode.toNat = ino

theorem fsOpen_new {s s₁ : FsState} (h : s.Inv) {path : CStr} (hr : s.resolve path.bytes = none) {fd : Int}
    (ho : s.fsOpen (some path) 0x102#32 = (fd, s₁)) (hfd : 0 ≤ fd) :
    ∃ q slot ino b x, ∃ i : Nat, fd = i ∧ OpenedNew s s₁ path q slot ino b i x := by
  rcases h.fsOpen_cases (some path) 0x102#32 with ⟨rc, hrc, ho'⟩ | ⟨p, ino, hp, hr', -, -⟩ |
    ⟨p, q, x, hp, -, -, hs, hord, c, ho'⟩
  · rw [ho] at ho'
    cases ho'
    omega
  · cases hp
    rw [hr] at hr'
    cases hr'
  · cases hp
    rw [ho] at ho'
    rcases hmade : createInode s.dev q x inodeFile with ⟨rc | ino, v⟩
    · rw [hmade] at ho'
      cases ho'
      exact absurd hfd (by decide)
    · rw [hmade] at ho' c
      dsimp only at ho'
      cases c with
      | @created _ b slot _ c hw _ =>
        rcases openInode_cases { s with dev := v } ino 0x102#32 with ⟨-, hopen⟩ |
          ⟨-, ⟨hopen, -⟩ | ⟨i, offset, hi, -, hopen⟩⟩
        · rw [hopen] at ho'
          cases ho'
          exact absurd hfd (by decide)
        · rw [hopen] at ho'
          cases ho'
          exact absurd hfd (by decide)
        · have kept : truncated { s with dev := v } ino 0x102#32 = { s with dev := v } :=
            if_neg (by decide)
          rw [hopen, kept] at ho'
          cases ho'
          refine ⟨q, slot, ino, b, x, i, rfl, hs, hord, c, rfl, hi, ?_, ?_⟩
          · dsimp only
            rw [Function.update_self]
          · dsimp only
            rw [Function.update_self]
            exact toNat_ofNat_word c.ino_lt

section
variable {s s₁ t : FsState} {path : CStr} {q slot ino b i : Nat} {x : List Byte}

/-- After any writes the file can still be removed under its path. -/
theorem OpenedNew.unlinks (n : OpenedNew s s₁ path q slot ino b i x) (h : s.Inv) (h₁ : s₁.Inv)
    (w : Wrote ino s₁ t) : t.Unlinks path q slot ino x := by
  have c := n.created
  have file : (view s₁.dev.disk).isFile ino := (c.isFile ino).mpr (Or.inr ⟨rfl, rfl⟩)
  have dir₁ : (view s₁.dev.disk).isDir q := (c.isDir q).mpr (Or.inl c.parent_dir)
  have dir : (view t.dev.disk).isDir q := (w.frame.isDir q).mpr dir₁
  have qne : q ≠ ino := c.ne_ino c.parent_dir.1
  have named : (view t.dev.disk).entry q slot = some (x, ino) := by
    rw [w.frame.entry h₁.fs.toBlockInv dir₁ qne, c.entry_old h.fs.toBlockInv c.parent_dir, if_pos ⟨rfl, rfl⟩]
  refine ⟨?_, ?_, dir, ordinary_slot w.inv.fs dir n.ordinary named, c.slot_lt, named, ?_, ?_⟩
  · refine h.split_kept (w.cwd.trans n.cwd) (fun j y k hl hy hj => ?_) n.split
    exact lookup_frame h₁.fs w.inv.fs w.frame file ((c.live j).mpr (Or.inl hl)) hy
      (lookup_created h.fs h₁.fs c hl hy hj)
  · exact (lookup_iff w.inv.fs dir.1 c.good).mpr ⟨dir, slot, c.slot_lt, named⟩
  · rintro rfl
    exact c.not_live h.fs.root_dir.1
  · intro hd
    exact absurd ((w.frame.isDir ino).mp hd) (h₁.fs.file_not_dir file)

theorem OpenedNew.lifetime (n : OpenedNew s s₁ path q slot ino b i x) (h : s.Inv) (h₁ : s₁.Inv)
    (w : Wrote ino s₁ t) :
    Lifetime (view s.dev.disk) (view s₁.dev.disk) (view t.dev.disk)
      (view (removeObject t.dev q slot ino).disk) q slot ino b x :=
  ⟨h.fs, w.inv.fs, n.created, w.frame, (n.unlinks h h₁ w).removed w.inv, w.pool⟩

end

/-- Everything that can be taken or named is as in `s` again. -/
structure GivenBack (s t : FsState) : Prop where
  bitmaps : s.SameBitmaps t
  freeBlocks : fsFreeBlocks t.dev.disk = fsFreeBlocks s.dev.disk
  freeInodes : fsFreeInodes t.dev.disk = fsFreeInodes s.dev.disk
  dirs : ∀ i, usedDir t.dev.disk i ↔ usedDir s.dev.disk i
  entries : ∀ i, usedDir s.dev.disk i → dirEntries t.dev.disk i = dirEntries s.dev.disk i

theorem givenBack_of_lifetime {s t : FsState} {v w : View} {q slot ino b : Nat} {x : List Byte}
    (l : Lifetime (view s.dev.disk) v w (view t.dev.disk) q slot ino b x) (hv : BlockInv v) :
    s.GivenBack t := by
  have inv := (l.removed.inv l.used).toBlockInv
  have bitmaps : s.SameBitmaps t := by
    constructor
    · intro c
      rw [view_bbit, view_bbit, l.bbit]
    · intro i
      rw [view_ibit, view_ibit, l.ibit]
  refine ⟨bitmaps, bitmaps.free.1, bitmaps.free.2, fun i => ?_, fun i hi => ?_⟩
  · rw [usedDir_iff, usedDir_iff, l.isDir]
  · have hd := (usedDir_iff i).mp hi
    have entry (k : Nat) : entryAt t.dev.disk i k = entryAt s.dev.disk i k := by
      rw [entryAt_eq inv ((l.isDir i).mpr hd), entryAt_eq l.start.toBlockInv hd, l.entry hv hd]
    simp only [dirEntries, entry]

/-- A file that is created, written, closed and unlinked gives everything back. -/
theorem create_write_unlink {s s₁ : FsState} (h : s.Inv) {path : CStr} (hr : s.resolve path.bytes = none)
    {fd : Int} (ho : s.fsOpen (some path) 0x102#32 = (fd, s₁)) (hfd : 0 ≤ fd)
    (ws : List (Option (Nat → Byte) × Word)) :
    let closed := (writeAll fd ws s₁).fsClose fd
    let unlinked := closed.2.fsUnlink (some path)
    closed.1 = 0 ∧ unlinked.1 = 0 ∧ s.GivenBack unlinked.2 := by
  obtain ⟨q, slot, ino, b, x, i, rfl, n⟩ := fsOpen_new h hr ho hfd
  have h₁ : s₁.Inv := by
    have := fsOpen_inv h (some path) 0x102#32
    rwa [ho] at this
  obtain ⟨w, hu⟩ := writeAll_wrote h₁ n.lt n.used n.inode ws
  have hclose := fsClose_inv w.inv i
  dsimp only
  have closed : (writeAll i ws s₁).fsClose i = (0, { writeAll i ws s₁ with
      fds := Function.update (writeAll i ws s₁).fds i { (writeAll i ws s₁).fds i with used := false } }) := by
    simp only [fsClose, fdIndex_used n.lt hu]
  rw [closed] at hclose ⊢
  have w' : Wrote ino s₁ { writeAll i ws s₁ with
      fds := Function.update (writeAll i ws s₁).fds i { (writeAll i ws s₁).fds i with used := false } } :=
    ⟨hclose, w.frame, w.pool, w.cwd⟩
  rw [(n.unlinks h h₁ w').fsUnlink_eq hclose]
  exact ⟨rfl, rfl, givenBack_of_lifetime (n.lifetime h h₁ w') h₁.fs.toBlockInv⟩

/-- "d" is created on a fresh disk, gets 40000 bytes in two writes and is removed again. -/
theorem create_write_unlink_nameD :
    let ws := [(some fun _ => 0x58#8, 8000#32), (some fun _ => 0x59#8, 32000#32)]
    let closed := (writeAll 0 ws openedD).fsClose 0
    closed.1 = 0 ∧ (closed.2.fsUnlink (some nameD)).1 = 0 ∧
      (fsInit boot).GivenBack (closed.2.fsUnlink (some nameD)).2 := by
  have free : (fsInit boot).resolve nameD.bytes = none ∧
      ((fsInit boot).fsOpen (some nameD) 0x102#32).1 = 0 := by
    decide +kernel
  have opened : (fsInit boot).fsOpen (some nameD) 0x102#32 = (0, openedD) := Prod.ext free.2 rfl
  exact create_write_unlink fsInit_blank_inv free.1 opened (by decide) _

end FsState

end SengOS
