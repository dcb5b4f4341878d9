import SengOS.Lib.CString
import SengOS.Disk.Ramdisk

/-!
# On-disk structures

Bitmaps, inode table and directory blocks of `fs.c`, over a block device that
remembers the disk after each completed block write: these are the points at
which execution can stop between two block writes.
-/

namespace SengOS

/-- `dev.hist` lists the disks the block writes so far have produced. -/
structure Dev where
  disk : Disk
  hist : List Disk

namespace Dev

/-- `ramdisk_write_block`. -/
def write (v : Dev) (block : Nat) (buf : Block) : Int × Dev :=
  let r := ramdiskWriteBlock v.disk block buf
  (r.1, if r.1 = 0 then ⟨r.2, v.hist ++ [r.2]⟩ else v)

/-- `ramdisk_zero_block`. -/
def zeroBlock (v : Dev) (block : Nat) : Dev := (v.write block Buf.zero).2

end Dev

/-- `ramdisk_read_block` into a zeroed buffer. The C buffers are static; what
they hold before the call matters only for block numbers that no pointer of a
reachable disk has. -/
def readBlock (d : Disk) (block : Nat) : Block := ramdiskReadBlock d block Buf.zero

/-! ## Bitmaps -/

def bitmapGet (d : Disk) (block bit : Nat) : Bool := (readBlock d block).bit bit

def bitmapSet (v : Dev) (block bit : Nat) (value : Bool) : Dev :=
  (v.write block ((readBlock v.disk block).setBit bit value)).2

def allocBlock (v : Dev) : Option Nat × Dev :=
  match (List.range' 6 248).find? (fun b => !bitmapGet v.disk 2 b) with
  | some b => (some b, (bitmapSet v 2 b true).zeroBlock b)
  | none => (none, v)

def freeBlock (v : Dev) (b : Nat) : Dev :=
  if 6 ≤ b ∧ b < 254 then bitmapSet v 2 b false else v

def allocInode (v : Dev) : Option Nat × Dev :=
  match (List.range 64).find? (fun i => !bitmapGet v.disk 3 i) with
  | some i => (some i, bitmapSet v 3 i true)
  | none => (none, v)

def freeInode (v : Dev) (ino : Nat) : Dev :=
  if ino < 64 then bitmapSet v 3 ino false else v

/-! ## Inodes -/

def inodeFile : Word := 1#32

def inodeDir : Word := 2#32

instance directNeZero : NeZero 8 := inferInstance

structure Inode where
  size : Word
  mode : Word
  direct : Fin 8 → Word
  indirect : Word

/-- A zeroed inode. -/
def Inode.zero : Inode := ⟨0#32, 0#32, fun _ => 0#32, 0#32⟩

/-- The eleven fields in memory order. -/
def Inode.words (n : Inode) : List Word :=
  n.size :: n.mode :: (List.ofFn n.direct ++ [n.indirect])

/-- Block and offset of an inode, in 32-bit arithmetic. -/
def inodeBlock (ino : Nat) : Nat := 4 + ino * 44 % 2 ^ 32 / 4096

def inodeOffset (ino : Nat) : Nat := ino * 44 % 2 ^ 32 % 4096

def inodeRead (d : Disk) (ino : Nat) : Inode :=
  let b := readBlock d (inodeBlock ino)
  let o := inodeOffset ino
  ⟨b.word o, b.word (o + 4), fun k => b.word (o + (8 + 4 * k.val)), b.word (o + 40)⟩

def inodeWrite (v : Dev) (ino : Nat) (n : Inode) : Dev :=
  (v.write (inodeBlock ino)
    ((readBlock v.disk (inodeBlock ino)).setWords (inodeOffset ino) n.words)).2

/-! ## Directories -/

def invalidInode : Word := 0xFFFFFFFF#32

/-- "." -/
def dotName : List Byte := [0x2E#8]

/-- ".." -/
def dotdotName : List Byte := [0x2E#8, 0x2E#8]

/-- The inode field of entry `i` of a directory block. -/
def direntInode (b : Block) (i : Nat) : Word := b.word (32 * i + 28)

/-- The loop of `dir_find` over the 128 entries of a block. -/
def direntFind (b : Block) (name : List Byte) : Option (Nat × Word) :=
  (List.range 128).findSome? fun i =>
    if direntInode b i ≠ invalidInode ∧ b.strEqAt (32 * i) name then some (i, direntInode b i)
    else none

/-- Position and inode of `name`, or `none` where the code returns -1. -/
def dirFind (d : Disk) (dirIno : Nat) (name : List Byte) : Option (Nat × Word) :=
  let dir := inodeRead d dirIno
  if dir.mode ≠ inodeDir ∨ dir.direct 0 = 0#32 then none
  -- `block_buf` holds the inode table block here
  else direntFind (ramdiskReadBlock d (dir.direct 0).toNat (readBlock d (inodeBlock dirIno))) name

/-- `mem_zero(e, 32)`, `str_copy_n(e->name, ...)`, `e->inode = ...`. -/
def direntStore (b : Block) (i : Nat) (name : List Byte) (ino : Word) : Block :=
  ((b.memZero (32 * i) 32).strCopyN (32 * i) name 28).setWord (32 * i + 28) ino

/-- A directory entry is written into the first free slot. -/
def dirAdd (v : Dev) (dirIno : Nat) (name : List Byte) (child : Word) : Int × Dev :=
  if name = [] ∨ name.length > 27 then (-1, v)
  else
    let dir := inodeRead v.disk dirIno
    if dir.mode ≠ inodeDir ∨ dir.direct 0 = 0#32 then (-1, v)
    else if (dirFind v.disk dirIno name).isSome then (-1, v)
    else
      let b := readBlock v.disk (dir.direct 0).toNat
      match (List.range 128).find? (fun i => direntInode b i = invalidInode) with
      | some i => v.write (dir.direct 0).toNat (direntStore b i name child)
      | none => (-1, v)

/-- `e->inode = FS_INVALID_INODE; e->name[0] = '\0'`. -/
def direntClear (b : Block) (i : Nat) : Block :=
  (b.setWord (32 * i + 28) invalidInode).set (32 * i) 0#8

def dirRemove (v : Dev) (dirIno : Nat) (name : List Byte) : Int × Dev :=
  let dir := inodeRead v.disk dirIno
  if dir.mode ≠ inodeDir ∨ dir.direct 0 = 0#32 then (-1, v)
  else
    match dirFind v.disk dirIno name with
    | none => (-1, v)
    | some (pos, _) =>
      v.write (dir.direct 0).toNat (direntClear (readBlock v.disk (dir.direct 0).toNat) pos)

/-- A zeroed block with `FS_INVALID_INODE` in the inode field of all 128 entries. -/
def freeDirents : Block := Buf.ofFn fun j => if 28 ≤ j % 32 then 0xFF#8 else 0#8

/-- The block of a new directory: "." and "..", the rest free. -/
def dotDirents (self parent : Word) : Block :=
  let b := freeDirents
  let b := (b.strCopyN 0 dotName 28).setWord 28 self
  (b.strCopyN 32 dotdotName 28).setWord 60 parent

end SengOS
