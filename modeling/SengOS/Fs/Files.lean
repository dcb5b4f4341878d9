import SengOS.Lib.FileTree
import SengOS.Fs.Walk

/-!
# What the calls mean

The file system as programs see it: a tree of named objects, open files with their offsets
and a working directory. `Files.Step` says what each call answers and what it does, without
inodes, blocks and bitmaps; only where space runs out it asks what the disk is short of.
-/

namespace SengOS

structure OpenFile where
  file : Nat
  offset : Nat
  writable : Bool

/-- What the disk has none left of: blocks, and entries in a directory. -/
structure Shortage where
  blocks : Prop
  entries : Nat → Prop

structure Files where
  tree : FileTree Nat (List Byte) Byte
  fds : Nat → Option OpenFile
  cwd : Nat

/-- What a call returns, and the bytes that it stores in the caller's buffer. -/
abbrev Answer := Int × List Byte

/-- "." and "..". -/
def newDir (parent self : Nat) : FileNode Nat (List Byte) Byte :=
  .dir fun x => if x = dotName then some self else if x = dotdotName then some parent else none

namespace Files

def empty : Files := ⟨fun i => if i = 0 then some (newDir 0 0) else none, fun _ => none, 0⟩

section
variable (m : Files)

def start (path : List Byte) : Nat := if path.head? = some slash then 0 else m.cwd

/-- The object that a path leads to. -/
def resolve (path : List Byte) : Option Nat :=
  if path = [] then none else walk m.tree.find (m.start path) (components path)

/-- The directory and the name of an object that may not exist yet. -/
def split (path : List Byte) : Option (Nat × List Byte) :=
  if path = [] ∨ 255 < path.length then none
  else splitWalk m.tree.find (m.start path) (components path)

/-- The number that the next object gets. -/
def fresh : Option Nat := (List.range 64).find? fun i => (m.tree i).isNone

/-- The open file behind a descriptor. -/
def handle (fd : Int) : Option (Nat × OpenFile) :=
  if fd < 0 ∨ 16 ≤ fd then none else (m.fds fd.toNat).map fun f => (fd.toNat, f)

/-- Something other than "." and ".." is in the directory. -/
def Occupied (d : Nat) : Prop := ∃ x, Ordinary x ∧ m.tree.find d x ≠ none

def setFd (k : Nat) (f : Option OpenFile) : Files := { m with fds := Function.update m.fds k f }

/-- The lowest free descriptor is put on a file, which is emptied first if asked for. -/
def opened (i : Nat) (flags : Word) : Int × Files :=
  match m.tree i with
  | some (.file old) =>
    let content := if flags &&& oTrunc ≠ 0#32 then [] else old
    let m := { m with tree := m.tree.put i content }
    match (List.range 16).find? fun k => (m.fds k).isNone with
    | some k =>
      (k, m.setFd k (some
        ⟨i, if flags &&& oAppend ≠ 0#32 then content.length else 0, flags &&& 3#32 ≠ 0#32⟩))
    | none => (-6, m)
  | _ => (-5, m)

/-- Everything is on the disk but the descriptors and the working directory. -/
def rebooted : Files := { m with fds := fun _ => none, cwd := 0 }

end

/-- A new object is named `x` in directory `q`, or the first thing that is missing is reported. -/
inductive Creates (short : Shortage) (m : Files) (q : Nat) (x : List Byte)
    (n : Nat → FileNode Nat (List Byte) Byte) : Except Int Nat → Files → Prop
  | taken : m.tree.find q x ≠ none → Creates short m q x n (.error (-2)) m
  | noInode : m.tree.find q x = none → m.fresh = none → Creates short m q x n (.error (-3)) m
  | noBlock {i : Nat} : m.tree.find q x = none → m.fresh = some i → short.blocks →
      Creates short m q x n (.error (-4)) m
  | noEntry {i : Nat} : m.tree.find q x = none → m.fresh = some i → ¬ short.blocks →
      (¬ m.tree.IsDir q ∨ short.entries q) → Creates short m q x n (.error (-5)) m
  | made {i : Nat} : m.tree.find q x = none → m.fresh = some i → ¬ short.blocks → m.tree.IsDir q →
      ¬ short.entries q → Creates short m q x n (.ok i) { m with tree := m.tree.link q x i (n i) }

/-- One call: its answer and what it leaves behind. The disk is short of `before` when the call
starts and of `after` when it returns. -/
inductive Step (before after : Shortage) (m : Files) : FsOp → Answer → Files → Prop
  | openNull (flags : Word) : Step before after m (.open none flags) (-1, []) m
  | opens {path : CStr} {flags : Word} {i : Nat} : m.resolve path.bytes = some i →
      Step before after m (.open (some path) flags) ((m.opened i flags).1, []) (m.opened i flags).2
  | openMissing {path : CStr} {flags : Word} : m.resolve path.bytes = none →
      flags &&& oCreate = 0#32 → Step before after m (.open (some path) flags) (-2, []) m
  | openNowhere {path : CStr} {flags : Word} : m.resolve path.bytes = none →
      flags &&& oCreate ≠ 0#32 → m.split path.bytes = none →
      Step before after m (.open (some path) flags) (-3, []) m
  | openFailed {path : CStr} {flags : Word} {q : Nat} {x : List Byte} {rc : Int} {m' : Files} :
      m.resolve path.bytes = none → flags &&& oCreate ≠ 0#32 → m.split path.bytes = some (q, x) →
      Creates before m q x (fun _ => .file []) (.error rc) m' →
      Step before after m (.open (some path) flags) (-4, []) m'
  | openCreated {path : CStr} {flags : Word} {q i : Nat} {x : List Byte} {m' : Files} :
      m.resolve path.bytes = none → flags &&& oCreate ≠ 0#32 → m.split path.bytes = some (q, x) →
      Creates before m q x (fun _ => .file []) (.ok i) m' →
      Step before after m (.open (some path) flags) ((m'.opened i flags).1, []) (m'.opened i flags).2
  | readRefused {fd : Int} {buf : Bool} {count : Word} : m.handle fd = none ∨ buf = false →
      Step before after m (.read fd buf count) (-1, []) m
  | reads {fd : Int} {count : Word} {k : Nat} {f : OpenFile} {content bytes : List Byte} :
      m.handle fd = some (k, f) → m.tree f.file = some (.file content) →
      bytes = (content.drop f.offset).take count.toNat →
      Step before after m (.read fd true count) (bytes.length, bytes)
        (m.setFd k (some { f with offset := f.offset + bytes.length }))
  | writeRefused {fd : Int} {buf : Option (Nat → Byte)} {count : Word} :
      m.handle fd = none ∨ buf = none ∨ (∃ k f, m.handle fd = some (k, f) ∧ f.writable = false) →
      Step before after m (.write fd buf count) (-1, []) m
  | writes {fd : Int} {buf : Nat → Byte} {count : Word} {k n : Nat} {f : OpenFile}
      {content : List Byte} : m.handle fd = some (k, f) → f.writable = true →
      m.tree f.file = some (.file content) → n ≤ count.toNat →
      (n < count.toNat → 248 * 4096 ≤ f.offset + n ∨ after.blocks) →
      Step before after m (.write fd (some buf) count) (n, [])
        (Files.setFd { m with
            tree := m.tree.put f.file (overwrite 0#8 content f.offset ((List.range n).map buf)) }
          k (some { f with offset := f.offset + n }))
  | closeRefused {fd : Int} : m.handle fd = none → Step before after m (.close fd) (-1, []) m
  | closes {fd : Int} {k : Nat} {f : OpenFile} : m.handle fd = some (k, f) →
      Step before after m (.close fd) (0, []) (m.setFd k none)
  | unlinkNull : Step before after m (.unlink none) (-1, []) m
  | unlinkNowhere {path : CStr} : m.split path.bytes = none →
      Step before after m (.unlink (some path)) (-2, []) m
  | unlinkMissing {path : CStr} {q : Nat} {x : List Byte} : m.split path.bytes = some (q, x) →
      m.tree.find q x = none → Step before after m (.unlink (some path)) (-3, []) m
  | unlinkRoot {path : CStr} {q : Nat} {x : List Byte} : m.split path.bytes = some (q, x) →
      m.tree.find q x = some 0 → Step before after m (.unlink (some path)) (-4, []) m
  | unlinkOccupied {path : CStr} {q i : Nat} {x : List Byte} : m.split path.bytes = some (q, x) →
      m.tree.find q x = some i → i ≠ 0 → m.Occupied i →
      Step before after m (.unlink (some path)) (-5, []) m
  | unlinks {path : CStr} {q i : Nat} {x : List Byte} : m.split path.bytes = some (q, x) →
      m.tree.find q x = some i → i ≠ 0 → ¬ m.Occupied i →
      Step before after m (.unlink (some path)) (0, [])
        { m with tree := m.tree.unlink q x i, cwd := if m.cwd = i then 0 else m.cwd }
  | mkdirNull : Step before after m (.mkdir none) (-1, []) m
  | mkdirNowhere {path : CStr} : m.split path.bytes = none →
      Step before after m (.mkdir (some path)) (-1, []) m
  | mkdirFailed {path : CStr} {q : Nat} {x : List Byte} {rc : Int} {m' : Files} :
      m.split path.bytes = some (q, x) → Creates before m q x (newDir q) (.error rc) m' →
      Step before after m (.mkdir (some path)) (rc, []) m'
  | mkdirs {path : CStr} {q i : Nat} {x : List Byte} {m' : Files} :
      m.split path.bytes = some (q, x) → Creates before m q x (newDir q) (.ok i) m' →
      Step before after m (.mkdir (some path)) (0, []) m'
  | chdirNull : Step before after m (.chdir none) (-1, []) m
  | chdirNowhere {path : CStr} : m.resolve path.bytes = none →
      Step before after m (.chdir (some path)) (-1, []) m
  | chdirFile {path : CStr} {i : Nat} : m.resolve path.bytes = some i → ¬ m.tree.IsDir i →
      Step before after m (.chdir (some path)) (-2, []) m
  | chdirs {path : CStr} {i : Nat} : m.resolve path.bytes = some i → m.tree.IsDir i →
      Step before after m (.chdir (some path)) (0, []) { m with cwd := i }

end Files

end SengOS
