import SengOS.Fs.Refinement

/-!
# Service over calls and reboots

Whole runs of `fs.c`, with reboots in between, are runs of the file tree: programs never see
more of the disk than that.
-/

namespace SengOS

inductive FsEvent where
  | call (op : FsOp)
  | reboot

/-- One event with its answer, and what the disk is short of before and after it. -/
structure FsRecord where
  event : FsEvent
  answer : Answer
  before : Shortage
  after : Shortage

/-- Runs of the tree. The answers are those of the records. -/
inductive Files.Run : Files → List FsRecord → Files → Prop
  | nil (m : Files) : Run m [] m
  | call {m m' m'' : Files} {op : FsOp} {a : Answer} {before after : Shortage}
      {rs : List FsRecord} : m.Step before after op a m' → Run m' rs m'' →
      Run m (⟨.call op, a, before, after⟩ :: rs) m''
  | reboot {m m'' : Files} {before after : Shortage} {rs : List FsRecord} : Run m.rebooted rs m'' →
      Run m (⟨.reboot, (0, []), before, after⟩ :: rs) m''

namespace FsState

def next (s : FsState) : FsEvent → FsState
  | .call op => s.step op
  | .reboot => s.reboot

def record (s : FsState) (e : FsEvent) : FsRecord where
  event := e
  answer := match e with
    | .call op => s.answer op
    | .reboot => (0, [])
  before := s.shortage
  after := (s.next e).shortage

def records : FsState → List FsEvent → List FsRecord
  | _, [] => []
  | s, e :: es => s.record e :: (s.next e).records es

/-- No open file is unlinked. -/
def Grants (s : FsState) : FsEvent → Prop
  | .call op => s.Allowed op
  | .reboot => True

/-- No write skips a block. -/
def Gapless (s : FsState) : FsEvent → Prop
  | .call op => ¬ s.SkipsBlock op
  | .reboot => True

def service : Machine FsState FsEvent := ⟨Grants, next⟩

theorem Sound.next {s : FsState} (h : s.Sound) {e : FsEvent} (ha : s.Grants e) (hg : s.Gapless e) :
    (s.next e).Sound := by
  cases e with
  | call op => exact h.step ha hg
  | reboot => exact h.reboot

/-- The tree is on the disk. -/
theorem reboot_files {s : FsState} (h : s.Inv) : s.reboot.files = s.files.rebooted := by
  rw [h.reboot_eq]
  have closed : FsState.openFile ⟨s.dev, fun _ => FileDesc.zero, 0#32, true⟩ = fun _ => none :=
    funext fun i => if_neg fun hu => Bool.false_ne_true hu.2
  simp only [files, closed]
  rfl

/-- A new disk has one directory. -/
theorem fsInit_files : (fsInit boot).files = Files.empty := by
  have inv := fsInit_blank_inv.fs
  have hv := fsInit_blank_view
  have hfds : (fsInit boot).openFile = fun _ => none := by
    funext i
    rw [fsInit_blank]
    exact if_neg fun hu => Bool.false_ne_true hu.2
  have hcwd : (fsInit boot).cwdInode = 0#32 := by
    rw [fsInit_blank]
    rfl
  have tree : treeOf (fsInit boot).dev.disk = Files.empty.tree := by
    funext i
    by_cases hi : i = 0
    · subst hi
      have hd : (view (fsInit boot).dev.disk).isDir 0 := inv.root_dir
      obtain ⟨dot, dotdot, rest⟩ := emptyView_entry
      rw [← hv] at dot dotdot rest
      rw [treeOf_dir hd, namesOf_dots inv hd dot dotdot rest]
      rfl
    · have hl : ¬ (view (fsInit boot).dev.disk).live i := by
        rw [hv, emptyView_live]
        exact hi
      exact (treeOf_none hl).trans (if_neg hi).symm
  simp only [files, tree, hfds, hcwd]
  rfl

theorem Sound.run {s : FsState} (h : s.Sound) {es : List FsEvent} (hr : service.Accepts Gapless s es) :
    s.files.Run (s.records es) (service.after s es).files := by
  induction es generalizing s with
  | nil => exact .nil _
  | cons e es ih =>
    obtain ⟨ha, hg, hr⟩ := hr
    have rest := ih (h.next ha hg) hr
    rw [Machine.after_cons, records]
    cases e with
    | call op => exact .call (step_refines h op) rest
    | reboot =>
      refine .reboot ?_
      rw [← reboot_files h.toInv]
      exact rest

/-- From `fs_init` on a blank disk, every run of calls and reboots that unlinks no open file and
skips no block is a run of the file tree. -/
theorem service_refines {es : List FsEvent} (hr : service.Accepts Gapless (fsInit boot) es) :
    Files.Run Files.empty ((fsInit boot).records es) (service.after (fsInit boot) es).files := by
  have run := fsInit_sound.run hr
  rw [fsInit_files] at run
  exact run

/-- "d" gets three bytes, and is read again after a reboot. -/
def writeAndReboot : List FsEvent :=
  [.call (.open (some nameD) 0x102#32), .call (.write 0 (some fun _ => 0x58#8) 3#32), .reboot,
    .call (.open (some nameD) 0#32), .call (.read 0 true 8#32)]

theorem openedD_gapless (buf : Option (Nat → Byte)) (count : Word) :
    openedD.Gapless (.call (.write 0 buf count)) := by
  cases buf with
  | none => exact id
  | some d =>
    rintro ⟨i, hi, -, -, -, l, hl, -⟩
    obtain ⟨used, -, zero⟩ := openedD_used
    have first : openedD.fdIndex 0 = some 0 := fdIndex_used (i := 0) (by decide) used
    rw [first] at hi
    cases hi
    rw [zero] at hl
    exact absurd hl (Nat.not_lt_zero l)

theorem writeAndReboot_run :
    Files.Run Files.empty ((fsInit boot).records writeAndReboot)
      (service.after (fsInit boot) writeAndReboot).files ∧
    ((service.after (fsInit boot) (writeAndReboot.take 4)).answer (.read 0 true 8#32)) =
      (3, [0x58#8, 0x58#8, 0x58#8]) :=
  ⟨service_refines ⟨trivial, id, trivial, openedD_gapless _ _, trivial, trivial, trivial, id, trivial,
    id, trivial⟩, by decide +kernel⟩

end FsState

end SengOS
