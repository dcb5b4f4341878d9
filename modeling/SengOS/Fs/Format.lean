import SengOS.Fs.CrashCalls

/-!
# Stopping while the disk is formatted

`fs_format` clears the disk byte by byte and then makes twelve block writes, of
which the superblock is the first and the root directory the last. `fs_init`
takes a valid superblock for a formatted disk, so an attempt that stops between
the two is never repaired.
-/

namespace SengOS

/-- A disk of exactly 256 blocks. -/
def Disk.ofBlocks (c : Fin 256 → Block) : Disk := fun b => if h : b < 256 then c ⟨b, h⟩ else Buf.zero

/-! ## `fs_format` store by store -/

/-- `mem_zero(ramdisk_data(), FS_DISK_SIZE)`. -/
def zeroSteps : List (Disk → Disk) :=
  (List.range 1048576).map fun i d => d.setByte (i / 4096) (i % 4096) 0#8

/-- A block write as one step. -/
def onDisk (f : Dev → Dev) (d : Disk) : Disk := (f ⟨d, []⟩).disk

def writeSuper (v : Dev) : Dev := (v.write 0 (Buf.zero.setWords 0 superblockWords)).2

def writeRootDir (v : Dev) : Dev := (v.write 1 (dotDirents 0#32 0#32)).2

/-- The reserved blocks, the root inode's bit and the root inode. -/
def metadataWrites : List (Dev → Dev) :=
  (List.range 6).map (fun i v => bitmapSet v 2 i true) ++
    ((List.range' 254 2).map (fun i v => bitmapSet v 2 i true) ++
      [fun v => bitmapSet v 3 0 true, fun v => inodeWrite v 0 rootInode])

/-- The twelve block writes of `fs_format`. -/
def formatWrites : List (Dev → Dev) := writeSuper :: (metadataWrites ++ [writeRootDir])

def formatSteps : List (Disk → Disk) := zeroSteps ++ formatWrites.map onDisk

/-- The test of `fs_init`: the superblock is not that of a formatted disk. -/
def Unformatted (d : Disk) : Prop :=
  (readBlock d 0).word 0 ≠ fsMagic ∨ (readBlock d 0).word 4 ≠ 1#32 ∨
    (readBlock d 0).word 8 ≠ 256#32 ∨ (readBlock d 0).word 12 ≠ 64#32

instance (d : Disk) : Decidable (Unformatted d) := inferInstanceAs (Decidable (_ ∨ _ ∨ _ ∨ _))

/-- `fs_init`, stopped after `k` stores of `fs_format` if it decides to format. -/
def initStopped (k : Nat) (d : Disk) : Disk :=
  if Unformatted (ramdiskInit d) then stopAfter k formatSteps (ramdiskInit d) else ramdiskInit d

/-- Attempts that stop after `ks` stores each. -/
def initAttempts (ks : List Nat) (d : Disk) : Disk := ks.foldl (fun d k => initStopped k d) d

/-- A mounted file system that holds the root directory and nothing else. -/
structure Formatted (s : FsState) : Prop where
  ready : s.fsReady = true
  blocks : ∀ b, b < 256 → (bitmapGet s.dev.disk 2 b = true ↔ b < 6 ∨ 254 ≤ b)
  inodes : ∀ i, i < 64 → (bitmapGet s.dev.disk 3 i = true ↔ i = 0)
  dir : (inodeRead s.dev.disk 0).mode = inodeDir
  entries : ∀ x j, (∃ k, k < 128 ∧ entryAt s.dev.disk 0 k = some (x, j)) ↔
    (x = dotName ∨ x = dotdotName) ∧ j = 0

/-! ## Clearing the disk -/

/-- The disk after the first `k` stores of `mem_zero`. -/
def Disk.zeroed (d : Disk) (k : Nat) : Disk := fun b => Buf.overlay (k - 4096 * b) Buf.zero (d b)

theorem zeroed_zero (d : Disk) : d.zeroed 0 = d := by
  funext b
  simp only [Disk.zeroed, Nat.zero_sub, Buf.overlay_none]

theorem zeroed_succ (d : Disk) (k : Nat) :
    (d.zeroed k).setByte (k / 4096) (k % 4096) 0#8 = d.zeroed (k + 1) := by
  funext b
  by_cases hb : b = k / 4096
  · subst hb
    have hk : k - 4096 * (k / 4096) = k % 4096 := by omega
    have hk' : k + 1 - 4096 * (k / 4096) = k % 4096 + 1 := by omega
    have step := Buf.overlay_succ (k % 4096) (Buf.zero : Block) (d (k / 4096))
    rw [Buf.get_zero] at step
    rw [Disk.setByte, Disk.put_self]
    simp only [Disk.zeroed, hk, hk']
    exact step
  · rw [Disk.setByte, Disk.put_ne hb]
    funext i
    have hi := i.isLt
    simp only [Disk.zeroed, Buf.overlay]
    by_cases hlt : k < 4096 * b
    · rw [if_neg (by omega), if_neg (by omega)]
    · rw [if_pos (by omega), if_pos (by omega)]

theorem stopAfter_zeroSteps (k : Nat) (d : Disk) :
    stopAfter k zeroSteps d = d.zeroed (min k 1048576) := by
  rw [zeroSteps, stopAfter_loop]
  refine runSteps_loop (P := fun i e => e = d.zeroed i) _ _ ?_ (zeroed_zero d).symm
  rintro i e - rfl
  exact zeroed_succ d i

/-- All of it cleared. -/
theorem zeroed_all {d : Disk} (h : ∀ b, 256 ≤ b → d b = Buf.zero) : d.zeroed 1048576 = Disk.blank := by
  funext b
  simp only [Disk.zeroed, Disk.blank]
  by_cases hb : b < 256
  · exact Buf.overlay_all (by omega) _ _
  · rw [h b (by omega)]
    funext i
    simp only [Buf.overlay, ite_self]

/-- Once a block is being cleared its first word has lost its low byte. -/
theorem zeroed_word {d : Disk} {k b : Nat} (h : 4096 * b < k) :
    ((d.zeroed k b).word 0).setWidth 8 = 0#8 := by
  rw [Buf.word_low, Disk.zeroed, Buf.get_overlay (by omega) (by decide), Buf.get_zero]

/-! ## Attempts that stop before the superblock -/

/-- `fs_init` formats this disk, and finds nothing in the journal. -/
structure Raw (d : Disk) : Prop where
  idle : Idle d
  super : Unformatted d
  tail : ∀ b, 256 ≤ b → d b = Buf.zero

theorem ofBlocks_raw {c : Fin 256 → Block} (h : Unformatted (ramdiskInit (Disk.ofBlocks c))) :
    Raw (ramdiskInit (Disk.ofBlocks c)) := by
  refine ⟨journalRecover_idle _, h, fun b hb => ?_⟩
  have out : ¬ Restores (Disk.ofBlocks c) b := by
    intro hr
    have := hr.range.1
    omega
  rw [ramdiskInit, recover_kept (by omega) out, Disk.ofBlocks, dif_neg (by omega)]

theorem Raw.zeroed {d : Disk} (h : Raw d) (k : Nat) : Raw (d.zeroed k) := by
  have low {b : Nat} {w : Word} (hk : 4096 * b < k) (hw : w.setWidth 8 ≠ 0#8) :
      (d.zeroed k b).word 0 ≠ w := by
    rintro rfl
    exact hw (zeroed_word hk)
  have keep {b : Nat} (hk : k ≤ 4096 * b) : d.zeroed k b = d b := by
    rw [Disk.zeroed, Nat.sub_eq_zero_of_le hk, Buf.overlay_none]
  constructor
  · by_cases hk : k ≤ 4096 * 254
    · rw [Idle, headerUsable_congr (keep hk)]
      exact h.idle
    · exact idle_of_magic (low (by omega) (by decide))
  · by_cases hk : k ≤ 4096 * 0
    · have hs := h.super
      unfold Unformatted at hs ⊢
      rwa [readBlock_lt (by decide), keep hk, ← readBlock_lt (d := d) (by decide)]
    · left
      rw [readBlock_lt (by decide)]
      exact low (by omega) (by decide)
  · intro b hb
    funext i
    simp only [Disk.zeroed, h.tail b hb, Buf.overlay, ite_self]

section
variable {d : Disk}

theorem Raw.initStopped_eq (h : Raw d) (k : Nat) : initStopped k d = stopAfter k formatSteps d := by
  rw [initStopped, ramdiskInit_idle h.idle, if_pos h.super]

/-- A stop inside `mem_zero` leaves the disk as it was for the next attempt. -/
theorem Raw.initStopped (h : Raw d) {k : Nat} (hk : k ≤ 1048576) : Raw (initStopped k d) := by
  have len : zeroSteps.length = 1048576 := by rw [zeroSteps, List.length_map, List.length_range]
  rw [h.initStopped_eq, formatSteps, stopAfter_append, len, if_pos hk, stopAfter_zeroSteps]
  exact h.zeroed _

/-- A later stop is one inside the block writes, on a blank disk. -/
theorem Raw.initStopped_writes (h : Raw d) {k : Nat} (hk : 1048576 < k) :
    SengOS.initStopped k d = stopAfter (k - 1048576) (formatWrites.map onDisk) Disk.blank := by
  have len : zeroSteps.length = 1048576 := by rw [zeroSteps, List.length_map, List.length_range]
  have all : runSteps zeroSteps d = Disk.blank := by
    rw [← stopAfter_length (k := 1048576) (by rw [len]), stopAfter_zeroSteps]
    exact zeroed_all h.tail
  rw [h.initStopped_eq, formatSteps, stopAfter_append, len, if_neg (by omega), all]

end

/-! ## Attempts that stop among the block writes -/

/-- None of the writes looks at the history of the device. -/
theorem formatWrites_disk : ∀ f ∈ formatWrites, ∀ v : Dev, (f v).disk = onDisk f v.disk := by
  have bit (block i : Nat) (v : Dev) :
      (bitmapSet v block i true).disk = onDisk (bitmapSet · block i true) v.disk := by
    rw [onDisk, bitmapSet, bitmapSet, Dev.write_disk, Dev.write_disk]
  intro f hf v
  simp only [formatWrites, metadataWrites, List.mem_cons, List.mem_append, List.mem_map,
    List.not_mem_nil, or_false] at hf
  rcases hf with rfl | ((⟨i, -, rfl⟩ | ⟨i, -, rfl⟩ | rfl | rfl) | rfl)
  · rw [onDisk, writeSuper, writeSuper, Dev.write_disk, Dev.write_disk]
  · exact bit 2 i v
  · exact bit 2 i v
  · exact bit 3 0 v
  · simp only [onDisk, inodeWrite, Dev.write_disk]
  · rw [onDisk, writeRootDir, writeRootDir, Dev.write_disk, Dev.write_disk]

theorem runSteps_onDisk {fs : List (Dev → Dev)} (h : ∀ f ∈ fs, ∀ v : Dev, (f v).disk = onDisk f v.disk)
    (v : Dev) : (runSteps fs v).disk = runSteps (fs.map onDisk) v.disk := by
  induction fs generalizing v with
  | nil => rfl
  | cons f fs ih =>
    rw [runSteps_cons, List.map_cons, runSteps_cons, ← h f List.mem_cons_self]
    exact ih (fun g hg => h g (List.mem_cons_of_mem _ hg)) (f v)

/-- All the steps together are `fs_format`. -/
theorem fsFormat_steps (s : FsState) :
    runSteps (formatWrites.map onDisk) Disk.blank = (fsFormat s).dev.disk := by
  have dev : (fsFormat s).dev = runSteps formatWrites ⟨Disk.blank, s.dev.hist⟩ := rfl
  rw [dev, runSteps_onDisk formatWrites_disk]

/-- The superblock is there and the root directory is not. -/
structure HalfFormatted (d : Disk) : Prop where
  mounted : Mounted d
  data : (view d).data 1 = Buf.zero
  inode : (view d).inode 0 = Inode.zero ∨ (view d).inode 0 = rootInode

theorem halfFormatted_super : HalfFormatted (onDisk writeSuper Disk.blank) := by
  have hv : view (onDisk writeSuper Disk.blank) = view Disk.blank := view_write_super _ _
  refine ⟨mounted_super _, ?_, Or.inl ?_⟩
  · rw [hv, view_blank]
  · rw [hv, view_blank]

theorem HalfFormatted.step {d : Disk} (h : HalfFormatted d) {f : Dev → Dev} (hf : f ∈ metadataWrites) :
    HalfFormatted (onDisk f d) := by
  have block (i : Nat) (hi : i < 256) : HalfFormatted (onDisk (bitmapSet · 2 i true) d) := by
    have hv := view_bitmapSet_block hi ⟨d, []⟩ true
    refine ⟨h.mounted.write (v := ⟨d, []⟩) (by decide) _, ?_, ?_⟩
    · rw [onDisk, hv]
      exact h.data
    · rw [onDisk, hv]
      exact h.inode
  simp only [metadataWrites, List.mem_append, List.mem_map, List.mem_cons, List.not_mem_nil,
    or_false] at hf
  rcases hf with ⟨i, hi, rfl⟩ | ⟨i, hi, rfl⟩ | rfl | rfl
  · exact block i (by have := List.mem_range.mp hi; omega)
  · exact block i (by have := List.mem_range'_1.mp hi; omega)
  · have hv := view_bitmapSet_inode (i := 0) (by decide) ⟨d, []⟩ true
    refine ⟨h.mounted.write (v := ⟨d, []⟩) (by decide) _, ?_, ?_⟩
    · rw [onDisk, hv]
      exact h.data
    · rw [onDisk, hv]
      exact h.inode
  · have hv := view_inodeWrite (i := 0) (by decide) ⟨d, []⟩ rootInode
    refine ⟨h.mounted.writes (v := ⟨d, []⟩) (inodeWrite_writes _ _), ?_, Or.inr ?_⟩
    · rw [onDisk, hv]
      exact h.data
    · rw [onDisk, hv, View.setInode_inode, Function.update_self]

theorem halfFormatted_stop {j : Nat} (h1 : 0 < j) (h12 : j < 12) :
    HalfFormatted (stopAfter j (formatWrites.map onDisk) Disk.blank) := by
  obtain ⟨j, rfl⟩ : ∃ i, j = i + 1 := ⟨j - 1, by omega⟩
  have len : (metadataWrites.map onDisk).length = 10 := rfl
  rw [formatWrites, List.map_cons, stopAfter_succ_cons, List.map_append, stopAfter_append, len,
    if_pos (by omega)]
  refine stopAfter_keeps (P := HalfFormatted) ?_ j halfFormatted_super
  intro f hf d hd
  obtain ⟨g, hg, rfl⟩ := List.mem_map.mp hf
  exact hd.step hg

theorem format_complete {j : Nat} (h : 12 ≤ j) :
    stopAfter j (formatWrites.map onDisk) Disk.blank = (fsFormat FsState.boot).dev.disk := by
  have len : (formatWrites.map onDisk).length = 12 := rfl
  rw [stopAfter_length (by rw [len]; exact h), fsFormat_steps FsState.boot]

/-! ## What is mounted in the end -/

theorem formatted_of_view {s : FsState} (hr : s.fsReady = true) (hv : view s.dev.disk = emptyView) :
    Formatted s := by
  have inv : BlockInv (view s.dev.disk) := by
    rw [hv]
    exact emptyView_inv.toBlockInv
  have root : (view s.dev.disk).isDir 0 := by
    rw [hv]
    exact (emptyView_isDir 0).mpr rfl
  have entry (k : Nat) : entryAt s.dev.disk 0 k = emptyView.entry 0 k := by
    rw [entryAt_eq inv root, hv]
  obtain ⟨e0, e1, -⟩ := emptyView_entry
  refine ⟨hr, fun b hb => ?_, fun i hi => ?_, ?_, fun x j => ⟨?_, ?_⟩⟩
  · rw [view_bbit, hv]
    simp only [emptyView, Bool.or_eq_true, decide_eq_true_eq, List.mem_range, List.mem_range'_1]
    omega
  · rw [view_ibit, hv]
    by_cases h0 : i = 0 <;> simp [emptyView, h0]
  · rw [view_inode (by decide), hv]
    rfl
  · rintro ⟨k, hk, he⟩
    rw [entry] at he
    obtain ⟨hj, hx⟩ := emptyView_entries hk he
    exact ⟨hx.imp And.right And.right, hj⟩
  · rintro ⟨rfl | rfl, rfl⟩
    · exact ⟨0, by decide, (entry 0).trans e0⟩
    · exact ⟨1, by decide, (entry 1).trans e1⟩

theorem remount_mounted {d : Disk} (h : Mounted d) :
    (remount d).fsReady = true ∧ (remount d).dev.disk = d := by
  rw [remount, fsInit_mounted h]
  exact ⟨rfl, rfl⟩

theorem HalfFormatted.not_formatted {d : Disk} (h : HalfFormatted d) : ¬ Formatted (remount d) := by
  intro hf
  have hd := (remount_mounted h.mounted).2
  rcases h.inode with hz | hr
  · have := hf.dir
    rw [hd, view_inode (by decide), hz] at this
    exact absurd this (by decide)
  · obtain ⟨k, hk, he⟩ := (hf.entries dotName 0).mpr ⟨Or.inl rfl, rfl⟩
    have hblk : ((inodeRead d 0).direct 0).toNat = 1 := by
      rw [view_inode (by decide), hr]
      rfl
    rw [hd, entryAt, hblk, readBlock_data (Or.inl rfl), h.data] at he
    have name : (Buf.zero : Block).cstrAt (32 * k) 28 = [] := by simp [Buf.cstrAt]
    unfold dirent at he
    split at he
    · cases he
    · rw [name] at he
      cases he

/-- Once the superblock is valid no attempt touches the disk again. -/
theorem initStopped_mounted {d : Disk} (h : Mounted d) (k : Nat) : initStopped k d = d := by
  have valid : ¬ Unformatted d := by
    rw [Unformatted, readBlock_lt (by decide), h.super]
    decide
  rw [initStopped, ramdiskInit_idle h.idle, if_neg valid]

theorem initAttempts_mounted {d : Disk} (h : Mounted d) (ks : List Nat) : initAttempts ks d = d := by
  induction ks with
  | nil => rfl
  | cons k ks ih =>
    rw [initAttempts, List.foldl_cons, initStopped_mounted h]
    exact ih

theorem Raw.remount {d : Disk} (h : Raw d) : Formatted (remount d) := by
  have init : SengOS.remount d = { fsFormat { FsState.boot with dev := ⟨d, []⟩ } with
      fds := fun _ => FileDesc.zero } := by
    have hs := h.super
    unfold Unformatted at hs
    simp only [SengOS.remount, fsInit, FsState.boot, ramdiskInit_idle h.idle]
    rw [if_pos hs]
  rw [init]
  exact formatted_of_view rfl (fsFormat_view _)

/-- The first attempt to reach the superblock also reaches the root directory. -/
def CompletesFirst (ks : List Nat) : Prop :=
  ∀ k, ks.find? (fun k => decide (1048576 < k)) = some k → 1048588 ≤ k

theorem completesFirst_cons_le {k : Nat} (hk : k ≤ 1048576) (ks : List Nat) :
    CompletesFirst (k :: ks) ↔ CompletesFirst ks := by
  unfold CompletesFirst
  rw [List.find?_cons_of_neg (by simpa using hk)]

theorem completesFirst_cons_gt {k : Nat} (hk : 1048576 < k) (ks : List Nat) :
    CompletesFirst (k :: ks) ↔ 1048588 ≤ k := by
  unfold CompletesFirst
  rw [List.find?_cons_of_pos (by simpa using hk)]
  exact ⟨fun h => h k rfl, by rintro h _ ⟨⟩; exact h⟩

theorem Raw.attempts {d : Disk} (h : Raw d) (ks : List Nat) :
    Formatted (SengOS.remount (initAttempts ks d)) ↔ CompletesFirst ks := by
  induction ks generalizing d with
  | nil =>
    constructor
    · rintro - k ⟨⟩
    · exact fun _ => h.remount
  | cons k ks ih =>
    have next : initAttempts (k :: ks) d = initAttempts ks (SengOS.initStopped k d) := rfl
    rw [next]
    by_cases hk : k ≤ 1048576
    · rw [completesFirst_cons_le hk]
      exact ih (h.initStopped hk)
    rw [completesFirst_cons_gt (by omega), h.initStopped_writes (by omega)]
    by_cases hc : 1048588 ≤ k
    · rw [format_complete (by omega)]
      have mounted := fsFormat_mounted FsState.boot
      obtain ⟨ready, disk⟩ := remount_mounted mounted
      rw [initAttempts_mounted mounted]
      refine ⟨fun _ => hc, fun _ => formatted_of_view ready ?_⟩
      rw [disk, fsFormat_view]
    · have half := halfFormatted_stop (j := k - 1048576) (by omega) (by omega)
      rw [initAttempts_mounted half.mounted]
      exact ⟨fun hf => absurd hf half.not_formatted, fun h => absurd h hc⟩

/-- `fs_init` after the journal has been recovered. -/
def initRecovered (s : FsState) : FsState :=
  let b := readBlock s.dev.disk 0
  let s :=
    if b.word 0 ≠ fsMagic ∨ b.word 4 ≠ 1#32 ∨ b.word 8 ≠ 256#32 ∨ b.word 12 ≠ 64#32 then fsFormat s
    else { s with cwdInode := b.word 28, fsReady := true }
  { s with fds := fun _ => FileDesc.zero }

theorem remount_eq (d : Disk) :
    remount d = initRecovered { FsState.boot with dev := ⟨ramdiskInit d, []⟩ } := rfl

/-- Recovery at the start of an attempt can be done beforehand. -/
theorem remount_attempts (ks : List Nat) (d : Disk) :
    remount (initAttempts ks d) = remount (initAttempts ks (ramdiskInit d)) := by
  have again : ramdiskInit (ramdiskInit d) = ramdiskInit d := ramdiskInit_idle (journalRecover_idle d)
  cases ks with
  | nil => rw [initAttempts, initAttempts, List.foldl_nil, List.foldl_nil, remount_eq, remount_eq, again]
  | cons k ks =>
    have first : initStopped k d = initStopped k (ramdiskInit d) := by
      rw [initStopped, initStopped, again]
    rw [initAttempts, initAttempts, List.foldl_cons, List.foldl_cons, first]

/-- Formatting survives its interruptions exactly when the first attempt that
writes the superblock is not stopped before the root directory is written. -/
theorem format_restartable_iff (c : Fin 256 → Block)
    (hc : Unformatted (ramdiskInit (Disk.ofBlocks c))) (ks : List Nat) :
    Formatted (remount (initAttempts ks (Disk.ofBlocks c))) ↔ CompletesFirst ks := by
  rw [remount_attempts]
  exact (ofBlocks_raw hc).attempts ks

theorem blank_unformatted : Unformatted (ramdiskInit (Disk.ofBlocks fun _ => Buf.zero)) := by
  have idle : Idle (Disk.ofBlocks fun _ => Buf.zero) := idle_of_magic (by decide)
  rw [ramdiskInit_idle idle]
  decide

/-- On a blank disk: one attempt stops in `mem_zero`, the next one completes. -/
theorem format_blank_twice :
    Formatted (remount (initAttempts [5000, 1048588] (Disk.ofBlocks fun _ => Buf.zero))) := by
  refine (format_restartable_iff _ blank_unformatted _).mpr ?_
  rintro k ⟨⟩
  decide

/-- On a blank disk: the attempt stops after the superblock. -/
theorem format_blank_stopped :
    Unformatted (ramdiskInit (Disk.ofBlocks fun _ => Buf.zero)) ∧
    ¬ Formatted (remount (initAttempts [1048577] (Disk.ofBlocks fun _ => Buf.zero))) := by
  refine ⟨blank_unformatted, ?_⟩
  rw [remount_attempts, (ofBlocks_raw blank_unformatted).attempts]
  intro h
  exact absurd (h 1048577 rfl) (by decide)

end SengOS
