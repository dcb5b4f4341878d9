import Mathlib.Data.Fin.VecNotation
import SengOS.Fs.Path

/-!
# File operations

`fs.c` from `block_for_inode` on: allocation on demand, release, formatting
and mounting, and the seven calls of the VFS table that change state.
-/

namespace SengOS

/-! ## Blocks of a file -/

/-- The second half of `block_for_inode`: the entry of an existing indirect block. -/
def indirectEntry (v : Dev) (n : Inode) (l : Nat) (allocate : Bool) : Int × Inode × Dev :=
  let ptrs := readBlock v.disk n.indirect.toNat
  if ptrs.word (4 * l) = 0#32 ∧ allocate = true then
    match allocBlock v with
    | (none, v) => (-1, n, v)
    | (some b, v) =>
      let ptrs := ptrs.setWord (4 * l) (BitVec.ofNat 32 b)
      match v.write n.indirect.toNat ptrs with
      | (rc, v) => if rc < 0 then (-1, n, v) else ((ptrs.word (4 * l)).toInt, n, v)
  else ((ptrs.word (4 * l)).toInt, n, v)

/-- The block of a file that holds `logical`: -1, 0 or a block number. With
`allocate` a missing block, and before it a missing indirect block, is taken
from the bitmap. -/
def blockForInode (v : Dev) (n : Inode) (logical : Nat) (allocate : Bool) : Int × Inode × Dev :=
  if h : logical < 8 then
    if n.direct ⟨logical, h⟩ = 0#32 ∧ allocate = true then
      match allocBlock v with
      | (none, v) => (-1, n, v)
      | (some b, v) =>
        ((BitVec.ofNat 32 b).toInt,
          { n with direct := Function.update n.direct ⟨logical, h⟩ (BitVec.ofNat 32 b) }, v)
    else ((n.direct ⟨logical, h⟩).toInt, n, v)
  else if 1024 ≤ logical - 8 then (-1, n, v)
  else if n.indirect = 0#32 then
    if allocate = true then
      match allocBlock v with
      | (none, v) => (-1, n, v)
      | (some b, v) =>
        let n := { n with indirect := BitVec.ofNat 32 b }
        match v.write b Buf.zero with
        | (rc, v) => if rc < 0 then (-1, n, v) else indirectEntry v n (logical - 8) allocate
    else (0, n, v)
  else indirectEntry v n (logical - 8) allocate

/-- `free_block` for a pointer that is not null. -/
def freePointer (v : Dev) (w : Word) : Dev := if w ≠ 0#32 then freeBlock v w.toNat else v

def releaseInodeBlocks (v : Dev) (n : Inode) : Inode × Dev :=
  let v := (List.finRange 8).foldl (fun v k => freePointer v (n.direct k)) v
  let v :=
    if n.indirect ≠ 0#32 then
      let ptrs := readBlock v.disk n.indirect.toNat
      freeBlock ((List.range 1024).foldl (fun v i => freePointer v (ptrs.word (4 * i))) v)
        n.indirect.toNat
    else v
  ({ n with direct := fun _ => 0#32, indirect := 0#32 }, v)

/-! ## State -/

structure FileDesc where
  inode : Word
  offset : Word
  flags : Word
  used : Bool

def FileDesc.zero : FileDesc := ⟨0#32, 0#32, 0#32, false⟩

structure FsState where
  dev : Dev
  fds : Nat → FileDesc
  cwdInode : Word
  fsReady : Bool

/-- The disk lookup the path walkers use. -/
def lookup (d : Disk) (dir : Nat) (name : List Byte) : Option Nat :=
  (dirFind d dir name).map (·.2.toNat)

/-! ## Formatting and mounting -/

def fsMagic : Word := 0x53465334#32

/-- The ten fields of `superblock_t`. -/
def superblockWords : List Word :=
  [fsMagic, 1#32, 256#32, 64#32, 2#32, 3#32, 4#32, 0#32, 6#32, 254#32]

def rootInode : Inode := { Inode.zero with mode := inodeDir, direct := Function.update (fun _ => 0#32) 0 1#32 }

/-- `fs_format`, which clears the disk directly and then goes through the journal. -/
def fsFormat (s : FsState) : FsState :=
  let v : Dev := ⟨Disk.blank, s.dev.hist⟩
  let v := (v.write 0 (Buf.zero.setWords 0 superblockWords)).2
  let v := (List.range 6).foldl (fun v i => bitmapSet v 2 i true) v
  let v := (List.range' 254 2).foldl (fun v i => bitmapSet v 2 i true) v
  let v := bitmapSet v 3 0 true
  let v := inodeWrite v 0 rootInode
  let v := (v.write 1 (dotDirents 0#32 0#32)).2
  { s with dev := v, cwdInode := 0#32, fsReady := true }

def fsInit (s : FsState) : FsState :=
  let s := { s with dev := { s.dev with disk := ramdiskInit s.dev.disk } }
  let b := readBlock s.dev.disk 0
  let s :=
    if b.word 0 ≠ fsMagic ∨ b.word 4 ≠ 1#32 ∨ b.word 8 ≠ 256#32 ∨ b.word 12 ≠ 64#32 then fsFormat s
    else { s with cwdInode := b.word 28, fsReady := true }
  { s with fds := fun _ => FileDesc.zero }

/-- The kernel image before `fs_init`: every static object is zero. -/
def FsState.boot : FsState := ⟨⟨Disk.blank, []⟩, fun _ => FileDesc.zero, 0#32, false⟩

/-! ## Creation -/

/-- The inode number, or the negative return code. -/
def createInode (v : Dev) (parent : Nat) (name : List Byte) (mode : Word) : Except Int Nat × Dev :=
  if (dirFind v.disk parent name).isSome then (.error (-2), v)
  else
    match allocInode v with
    | (none, v) => (.error (-3), v)
    | (some ino, v) =>
      match allocBlock v with
      | (none, v) => (.error (-4), freeInode v ino)
      | (some b, v) =>
        let v := inodeWrite v ino
          { Inode.zero with mode := mode, direct := Function.update (fun _ => 0#32) 0 (BitVec.ofNat 32 b) }
        let blk :=
          if mode = inodeDir then dotDirents (BitVec.ofNat 32 ino) (BitVec.ofNat 32 parent)
          else freeDirents
        match v.write b blk with
        | (rc, v) =>
          if rc < 0 then (.error (-5), freeInode (freeBlock v b) ino)
          else
            match dirAdd v parent name (BitVec.ofNat 32 ino) with
            | (rc, v) =>
              if rc < 0 then (.error (-5), freeInode (freeBlock v b) ino) else (.ok ino, v)

def oCreate : Word := 0x100#32

def oTrunc : Word := 0x200#32

def oAppend : Word := 0x400#32

namespace FsState

variable (s : FsState)

def resolve (path : List Byte) : Option Nat :=
  resolvePath (lookup s.dev.disk) path s.cwdInode.toNat

def split (path : List Byte) : Option (Nat × List Byte) :=
  splitParent (lookup s.dev.disk) path s.cwdInode.toNat

/-! ## The calls -/

/-- The last part of `fs_open`: truncation and the descriptor. -/
def openInode (ino : Nat) (flags : Word) : Int × FsState :=
  let n := inodeRead s.dev.disk ino
  if n.mode ≠ inodeFile then (-5, s)
  else
    let (n, s) :=
      if flags &&& oTrunc ≠ 0#32 then
        let (n, v) := releaseInodeBlocks s.dev n
        let n := { n with size := 0#32 }
        (n, { s with dev := inodeWrite v ino n })
      else (n, s)
    match (List.range 16).find? (fun i => !(s.fds i).used) with
    | some i =>
      let f : FileDesc :=
        ⟨BitVec.ofNat 32 ino, if flags &&& oAppend ≠ 0#32 then n.size else 0#32, flags, true⟩
      (i, { s with fds := Function.update s.fds i f })
    | none => (-6, s)

/-- `fs_open`; `none` is a null path. -/
def fsOpen (path : Option CStr) (flags : Word) : Int × FsState :=
  match path with
  | none => (-1, s)
  | some path =>
    if !s.fsReady then (-1, s)
    else
      match s.resolve path.bytes with
      | some ino => s.openInode ino flags
      | none =>
        if flags &&& oCreate = 0#32 then (-2, s)
        else
          match s.split path.bytes with
          | none => (-3, s)
          | some (parent, name) =>
            match createInode s.dev parent name inodeFile with
            | (.error _, v) => (-4, { s with dev := v })
            | (.ok ino, v) => openInode { s with dev := v } ino flags

/-- A descriptor number that passes the checks of the calls. -/
def fdIndex (fd : Int) : Option Nat :=
  if fd < 0 ∨ 16 ≤ fd then none
  else if (s.fds fd.toNat).used then some fd.toNat else none

/-- The loop of `fs_read`: bytes delivered and the new offset. -/
def readLoop (v : Dev) (n : Inode) : Nat → Nat → Word → List Byte × Word
  | 0, _, offset => ([], offset)
  | fuel + 1, left, offset =>
    if left = 0 then ([], offset)
    else
      match blockForInode v n (offset.toNat / 4096) false with
      | (b, _, _) =>
        if b ≤ 0 then ([], offset)
        else
          let off := offset.toNat % 4096
          let take := min (4096 - off) left
          let blk := readBlock v.disk b.toNat
          let r := readLoop v n fuel (left - take) (offset + BitVec.ofNat 32 take)
          ((List.range take).map (fun i => blk.get (off + i)) ++ r.1, r.2)

/-- `fs_read`: the return value, the bytes stored in the buffer, the state. -/
def fsRead (fd : Int) (buf : Bool) (count : Word) : Int × List Byte × FsState :=
  match s.fdIndex fd with
  | none => (-1, [], s)
  | some i =>
    if !buf then (-1, [], s)
    else
      let f := s.fds i
      let n := inodeRead s.dev.disk f.inode.toNat
      if n.mode ≠ inodeFile then (-1, [], s)
      else if n.size.toNat ≤ f.offset.toNat then (0, [], s)
      else
        let count := min count.toNat (n.size.toNat - f.offset.toNat)
        let r := readLoop s.dev n count count f.offset
        (r.1.length, r.1, { s with fds := Function.update s.fds i { f with offset := r.2 } })

/-- Bytes `done ..` of the caller's buffer over block bytes `off ..`. -/
def patch (blk : Block) (off take : Nat) (src : Nat → Byte) : Block :=
  fun j => if off ≤ j.val ∧ j.val < off + take then src (j.val - off) else blk j

/-- What the loop of `fs_write` carries: device, inode copy, `done`, offset. -/
structure WriteState where
  dev : Dev
  inode : Inode
  done : Nat
  offset : Word

/-- The loop of `fs_write`. Each turn that does not leave the loop writes at
least one byte, so `count` turns suffice. -/
def writeLoop (buf : Nat → Byte) (count : Nat) : Nat → WriteState → WriteState
  | 0, w => w
  | fuel + 1, w =>
    if count ≤ w.done then w
    else if 248 ≤ w.offset.toNat / 4096 then w
    else
      match blockForInode w.dev w.inode (w.offset.toNat / 4096) true with
      | (b, n, v) =>
        if b ≤ 0 then { w with dev := v, inode := n }
        else
          let off := w.offset.toNat % 4096
          let take := min (4096 - off) (count - w.done)
          let blk := patch (readBlock v.disk b.toNat) off take (fun i => buf (w.done + i))
          match v.write b.toNat blk with
          | (rc, v) =>
            if rc < 0 then { w with dev := v, inode := n }
            else
              let offset := w.offset + BitVec.ofNat 32 take
              let n := if n.size.toNat < offset.toNat then { n with size := offset } else n
              writeLoop buf count fuel ⟨v, n, w.done + take, offset⟩

/-- `fs_write`; `none` is a null buffer. -/
def fsWrite (fd : Int) (buf : Option (Nat → Byte)) (count : Word) : Int × FsState :=
  match s.fdIndex fd, buf with
  | none, _ => (-1, s)
  | _, none => (-1, s)
  | some i, some buf =>
    let f := s.fds i
    if f.flags &&& 3#32 = 0#32 then (-1, s)
    else
      let n := inodeRead s.dev.disk f.inode.toNat
      if n.mode ≠ inodeFile then (-1, s)
      else
        let w := writeLoop buf count.toNat count.toNat ⟨s.dev, n, 0, f.offset⟩
        (w.done, { s with
          dev := inodeWrite w.dev f.inode.toNat w.inode
          fds := Function.update s.fds i { f with offset := w.offset } })

def fsClose (fd : Int) : Int × FsState :=
  match s.fdIndex fd with
  | none => (-1, s)
  | some i => (0, { s with fds := Function.update s.fds i { s.fds i with used := false } })

/-- The loop of `fs_unlink` over the entries after "." and "..". -/
def dirNonEmpty (b : Block) : Bool := (List.range' 2 126).any fun i => direntInode b i ≠ invalidInode

def fsUnlink (path : Option CStr) : Int × FsState :=
  match path with
  | none => (-1, s)
  | some path =>
    if !s.fsReady then (-1, s)
    else
      match s.split path.bytes with
      | none => (-2, s)
      | some (parent, name) =>
        match dirFind s.dev.disk parent name with
        | none => (-3, s)
        | some (_, w) =>
          let ino := w.toNat
          if ino = 0 then (-4, s)
          else
            let n := inodeRead s.dev.disk ino
            if n.mode = inodeDir ∧ dirNonEmpty (readBlock s.dev.disk (n.direct 0).toNat) then (-5, s)
            else
              match dirRemove s.dev parent name with
              | (rc, v) =>
                if rc < 0 then (-6, { s with dev := v })
                else
                  let v := (releaseInodeBlocks v n).2
                  let v := freeInode (inodeWrite v ino Inode.zero) ino
                  (0, { s with
                    dev := v
                    cwdInode := if s.cwdInode.toNat = ino then 0#32 else s.cwdInode })

def fsMkdir (path : Option CStr) : Int × FsState :=
  match path with
  | none => (-1, s)
  | some path =>
    if !s.fsReady then (-1, s)
    else
      match s.split path.bytes with
      | none => (-1, s)
      | some (parent, name) =>
        if name = dotName ∨ name = dotdotName then (-2, s)
        else
          match createInode s.dev parent name inodeDir with
          | (.error rc, v) => (rc, { s with dev := v })
          | (.ok _, v) => (0, { s with dev := v })

def fsChdir (path : Option CStr) : Int × FsState :=
  match path with
  | none => (-1, s)
  | some path =>
    if !s.fsReady then (-1, s)
    else
      match s.resolve path.bytes with
      | none => (-1, s)
      | some ino =>
        if (inodeRead s.dev.disk ino).mode ≠ inodeDir then (-2, s)
        else (0, { s with cwdInode := BitVec.ofNat 32 ino })

end FsState

/-- A call with its arguments. -/
inductive FsOp where
  | open (path : Option CStr) (flags : Word)
  | read (fd : Int) (buf : Bool) (count : Word)
  | write (fd : Int) (buf : Option (Nat → Byte)) (count : Word)
  | close (fd : Int)
  | unlink (path : Option CStr)
  | mkdir (path : Option CStr)
  | chdir (path : Option CStr)

/-- The state after a call. -/
def FsState.step (s : FsState) : FsOp → FsState
  | .open path flags => (s.fsOpen path flags).2
  | .read fd buf count => (s.fsRead fd buf count).2.2
  | .write fd buf count => (s.fsWrite fd buf count).2
  | .close fd => (s.fsClose fd).2
  | .unlink path => (s.fsUnlink path).2
  | .mkdir path => (s.fsMkdir path).2
  | .chdir path => (s.fsChdir path).2

end SengOS
