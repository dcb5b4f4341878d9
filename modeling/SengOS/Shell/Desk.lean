import SengOS.Fs.Service
import SengOS.Shell.Commands

/-!
# The shell on the files

What commands for files can see: the files, what the disk is short of, and what has been
printed. `fs.c` answers their calls as `Files.Step` says.
-/

namespace SengOS

/-- The file system and what has been printed. -/
structure ShellState where
  fs : FsState
  out : List Print

structure Desk where
  files : Files
  short : Shortage
  out : List Print

/-- Calls that leave the disk alone. -/
def FsOp.Quiet : FsOp → Prop
  | .read .. | .close _ | .chdir _ => True
  | _ => False

namespace ShellState

def exec (s : ShellState) : (c : ShellCall) → c.Reply × ShellState
  | .file op => (s.fs.answer op, { s with fs := s.fs.step op })
  | .stat path => ((s.fs.fsStat path).1, s)
  | .print p => ((), { s with out := s.out ++ [p] })

def desk (s : ShellState) : Desk := ⟨s.fs.files, s.fs.shortage, s.out⟩

end ShellState

namespace Desk

/-- Nothing is unlinked while a file is open, and nothing written behind the end of a file. -/
def Permits (m : Desk) : ShellCall → Prop
  | .file (.unlink _) => ∀ k, m.files.fds k = none
  | .file (.write fd _ _) => ∀ k f, m.files.handle fd = some (k, f) →
      ∃ content, m.files.tree f.file = some (.file content) ∧ f.offset ≤ content.length
  | _ => True

def Answers (m : Desk) : (c : ShellCall) → c.Reply → Desk → Prop
  | .file op, r, m' => m.files.Step m.short m'.short op r m'.files ∧
      (op.Quiet → m'.short = m.short) ∧ m'.out = m.out
  | .stat path, r, m' => m' = m ∧ r = if (m.files.resolve path.bytes).isSome then 0 else -1
  | .print p, _, m' => m' = { m with out := m.out ++ [p] }

def interface : Interface ShellCall ShellCall.Reply Desk := ⟨Permits, Answers⟩

end Desk

namespace ShellState

variable {s : ShellState}

theorem allowed_of_permits {op : FsOp} (hp : s.desk.Permits (.file op)) : s.fs.Allowed op := by
  cases op with
  | unlink path =>
    cases path with
    | none => trivial
    | some path =>
      rintro ⟨-, -, -, i, -, -, hi, hu, -⟩
      have := hp i
      rw [show s.desk.files.fds i = _ from FsState.openFile_used hi hu] at this
      cases this
  | _ => trivial

theorem gapless_of_permits (h : s.fs.Sound) {op : FsOp} (hp : s.desk.Permits (.file op)) :
    ¬ s.fs.SkipsBlock op := by
  cases op with
  | write fd buf count =>
    cases buf with
    | none => exact id
    | some buf =>
      rintro ⟨i, hi, -, -, -, l, hl, hno⟩
      obtain ⟨content, hc, hoff⟩ := hp i _ (FsState.handle_some hi)
      obtain ⟨hlt, hu⟩ := FsState.fdIndex_some hi
      have hf := h.fds i hlt hu
      have hcontent : s.desk.files.tree (s.fs.fds i).inode.toNat =
          some (.file (contentOf s.fs.dev.disk (s.fs.fds i).inode.toNat)) := treeOf_file hf
      rw [hcontent] at hc
      cases hc
      rw [contentOf_length, view_inode hf.1.1] at hoff
      refine hno ((hasBlock_iff h.fs.toBlockInv hf.1 l).mpr (h.solid _ hf l ?_))
      dsimp only at hoff
      omega
  | _ => exact id

theorem quiet_dev (s : FsState) {op : FsOp} (hq : op.Quiet) : (s.step op).dev = s.dev := by
  cases op with
  | read fd buf count =>
    show (s.fsRead fd buf count).2.2.dev = s.dev
    unfold FsState.fsRead
    split
    · rfl
    split
    · rfl
    dsimp only
    split
    · rfl
    split <;> rfl
  | close fd =>
    show (s.fsClose fd).2.dev = s.dev
    unfold FsState.fsClose
    split <;> rfl
  | chdir path =>
    show (s.fsChdir path).2.dev = s.dev
    unfold FsState.fsChdir
    repeat' split
    all_goals rfl
  | _ => cases hq

theorem fsStat_resolve (h : s.fs.Inv) (path : CStr) : (s.fs.fsStat path).1 =
    if (s.desk.files.resolve path.bytes).isSome then 0 else -1 := by
  rw [show s.desk.files.resolve path.bytes = _ from h.resolve_files path, FsState.fsStat]
  cases s.fs.resolve path.bytes <;> rfl

/-- `fs.c` and the list of what is printed implement the interface. -/
theorem implements : Implements Desk.interface exec (fun s => s.fs.Sound) desk where
  keeps s c h hp := by
    cases c with
    | file op => exact h.step (allowed_of_permits hp) (gapless_of_permits h hp)
    | stat path => exact h
    | print p => exact h
  answers s c h hp := by
    cases c with
    | file op =>
      refine ⟨FsState.step_refines h op, fun hq => ?_, rfl⟩
      show (s.fs.step op).shortage = s.fs.shortage
      rw [FsState.shortage, FsState.shortage, quiet_dev s.fs hq]
    | stat path => exact ⟨rfl, fsStat_resolve h.toInv path⟩
    | print p => rfl

end ShellState

end SengOS
