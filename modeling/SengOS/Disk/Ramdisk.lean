import SengOS.Lib.Bytes
import SengOS.Lib.Steps

/-!
# The RAM disk and its one-block journal

`ramdisk.c`: 256 blocks of 4096 bytes. The last two are the journal: block
254 holds the header, block 255 the before-image of the block being written.
Every function is given once as a whole, with its copy loops as block
assignments, and the journalled ones once more as the list of their stores,
for stops in the middle.
-/

namespace SengOS

def journalMagic : Word := 0x4A4E4C31#32

abbrev Block := Buf 4096

/-- Block contents by block number; only numbers below 256 are ever used. -/
abbrev Disk := Nat → Block

namespace Disk

/-- The zeroed BSS object the kernel boots with. -/
def blank : Disk := fun _ => Buf.zero

def put (d : Disk) (b : Nat) (blk : Block) : Disk := fun c => if c = b then blk else d c

@[simp] theorem put_self (d : Disk) (b : Nat) (blk : Block) : d.put b blk b = blk := by
  simp [put]

theorem put_ne {d : Disk} {b c : Nat} (h : c ≠ b) (blk : Block) : d.put b blk c = d c := by
  simp [put, h]

@[simp] theorem put_put (d : Disk) (b : Nat) (x y : Block) : (d.put b x).put b y = d.put b y := by
  funext c
  by_cases h : c = b <;> simp [put, h]

theorem put_get (d : Disk) (b : Nat) : d.put b (d b) = d := by
  funext c
  by_cases h : c = b <;> simp [put, h]

/-- One byte store. -/
def setByte (d : Disk) (b i : Nat) (v : Byte) : Disk := d.put b ((d b).set i v)

/-- One 32-bit store to a field of the journal header. -/
def setHeader (d : Disk) (o : Nat) (w : Word) : Disk := d.put 254 ((d 254).setWord o w)

end Disk

/-! ## The journal header -/

def Disk.magic (d : Disk) : Word := (d 254).word 0

def Disk.targetBlock (d : Disk) : Word := (d 254).word 4

def Disk.checksum (d : Disk) : Word := (d 254).word 8

def Disk.committed (d : Disk) : Word := (d 254).word 12

/-- `checksum32`: FNV-1a over the first `n` bytes. -/
def checksum32 {m : Nat} (p : Buf m) (n : Nat) : Word :=
  (List.range n).foldl (fun h i => (h ^^^ (p.get i).setWidth 32) * 16777619#32) 2166136261#32

def journalClear (d : Disk) : Disk :=
  (((d.setHeader 0 0).setHeader 4 0).setHeader 8 0).setHeader 12 0

/-- The header names a block that recovery may touch. -/
def Disk.headerUsable (d : Disk) : Bool :=
  d.magic == journalMagic && decide (d.targetBlock.toNat < 256) &&
    d.targetBlock.toNat != 254 && d.targetBlock.toNat != 255

def journalRecover (d : Disk) : Disk :=
  if !d.headerUsable then d
  else if checksum32 (d 255) 4096 ≠ d.checksum then journalClear d
  else if d.committed = 0#32 then journalClear (d.put d.targetBlock.toNat (d 255))
  else journalClear d

def ramdiskInit (d : Disk) : Disk := journalRecover d

/-- `ramdisk_read_block`: a number out of range leaves the caller's buffer as it was. -/
def ramdiskReadBlock (d : Disk) (block : Nat) (buf : Block) : Block :=
  if block < 256 then d block else buf

/-- The block numbers `ramdisk_write_block` accepts. -/
def Accepted (block : Nat) : Prop :=
  block < 256 ∧ block ≠ 254 ∧ block ≠ 255

instance (block : Nat) : Decidable (Accepted block) :=
  inferInstanceAs (Decidable (_ ∧ _ ∧ _))

def ramdiskWriteBlock (d : Disk) (block : Nat) (buf : Block) : Int × Disk :=
  if Accepted block then
    let d := d.put 255 (d block)
    let d := (d.setHeader 0 journalMagic).setHeader 4 (BitVec.ofNat 32 block)
    let d := (d.setHeader 8 (checksum32 (d 255) 4096)).setHeader 12 0
    let d := d.put block buf
    let d := d.setHeader 12 1
    (0, journalClear d)
  else (-1, d)

/-! ## The same functions store by store -/

/-- `copy_bytes` between two blocks of the disk. -/
def copyBytes (dst src : Nat) : List (Disk → Disk) :=
  (List.range 4096).map fun i d => d.setByte dst i ((d src).get i)

/-- The loop that stores a caller's buffer in the target block. -/
def storeBytes (dst : Nat) (buf : Block) : List (Disk → Disk) :=
  (List.range 4096).map fun i d => d.setByte dst i (buf.get i)

def clearSteps : List (Disk → Disk) :=
  [(·.setHeader 0 0), (·.setHeader 4 0), (·.setHeader 8 0), (·.setHeader 12 0)]

def headerSteps (block : Nat) : List (Disk → Disk) :=
  [(·.setHeader 0 journalMagic), (·.setHeader 4 (BitVec.ofNat 32 block)),
    fun d => d.setHeader 8 (checksum32 (d 255) 4096), (·.setHeader 12 0)]

def writeBlockSteps (block : Nat) (buf : Block) : List (Disk → Disk) :=
  copyBytes 255 block ++ (headerSteps block ++
    (storeBytes block buf ++ ((·.setHeader 12 1) :: clearSteps)))

/-- The stores of `journal_recover`. All its tests come before its first store. -/
def recoverSteps (d : Disk) : List (Disk → Disk) :=
  if !d.headerUsable then []
  else if checksum32 (d 255) 4096 ≠ d.checksum then clearSteps
  else if d.committed = 0#32 then copyBytes d.targetBlock.toNat 255 ++ clearSteps
  else clearSteps

/-! ## Loops of byte stores -/

theorem copyBytes_stopped {dst src : Nat} (h : src ≠ dst) (k : Nat) (d : Disk) :
    stopAfter k (copyBytes dst src) d = d.put dst (Buf.overlay (min k 4096) (d src) (d dst)) := by
  rw [copyBytes, stopAfter_loop]
  refine runSteps_loop (P := fun i e => e = d.put dst (Buf.overlay i (d src) (d dst))) _ _ ?_ ?_
  · rintro i e - rfl
    simp only [Disk.setByte, Disk.put_self, Disk.put_put, Disk.put_ne h, Buf.overlay_succ]
  · rw [Buf.overlay_none, Disk.put_get]

theorem copyBytes_all {dst src : Nat} (h : src ≠ dst) (d : Disk) :
    runSteps (copyBytes dst src) d = d.put dst (d src) := by
  rw [← stopAfter_length (k := 4096) (by simp [copyBytes]), copyBytes_stopped h]
  simp [Buf.overlay_all]

theorem storeBytes_prefix (dst : Nat) (buf : Block) (k : Nat) (d : Disk) :
    stopAfter k (storeBytes dst buf) d = d.put dst (Buf.overlay (min k 4096) buf (d dst)) := by
  rw [storeBytes, stopAfter_loop]
  refine runSteps_loop (P := fun i e => e = d.put dst (Buf.overlay i buf (d dst))) _ _ ?_ ?_
  · rintro i e - rfl
    simp only [Disk.setByte, Disk.put_self, Disk.put_put, Buf.overlay_succ]
  · rw [Buf.overlay_none, Disk.put_get]

theorem storeBytes_all (dst : Nat) (buf : Block) (d : Disk) :
    runSteps (storeBytes dst buf) d = d.put dst buf := by
  rw [← stopAfter_length (k := 4096) (by simp [storeBytes]), storeBytes_prefix]
  simp [Buf.overlay_all]

/-- Running all stores is the block write. -/
theorem runSteps_writeBlockSteps {block : Nat} (h : Accepted block) (buf : Block) (d : Disk) :
    runSteps (writeBlockSteps block buf) d = (ramdiskWriteBlock d block buf).2 := by
  simp only [writeBlockSteps, runSteps_append, copyBytes_all h.2.2, storeBytes_all, headerSteps,
    clearSteps, runSteps_cons, runSteps_nil, ramdiskWriteBlock, h, ↓reduceIte, journalClear]

/-- Running all stores is recovery. -/
theorem runSteps_recoverSteps (d : Disk) : runSteps (recoverSteps d) d = journalRecover d := by
  unfold recoverSteps journalRecover
  split
  · rfl
  · rename_i hu
    split
    · rfl
    · split
      · have ht : 255 ≠ d.targetBlock.toNat := by
          simp only [Disk.headerUsable, Bool.not_eq_true', Bool.not_eq_false, Bool.and_eq_true,
            bne_iff_ne] at hu
          exact fun e => hu.2 e.symm
        rw [runSteps_append, copyBytes_all ht]
        rfl
      · rfl

/-! ## Effect on the blocks -/

theorem setHeader_ne {c : Nat} (h : c ≠ 254) (d : Disk) (o : Nat) (w : Word) :
    d.setHeader o w c = d c := Disk.put_ne h _

theorem journalClear_ne {c : Nat} (h : c ≠ 254) (d : Disk) : journalClear d c = d c := by
  simp only [journalClear, setHeader_ne h]

/-- A completed write stores the new content in its block. -/
theorem write_self {block : Nat} (h : Accepted block) (d : Disk) (buf : Block) :
    (ramdiskWriteBlock d block buf).2 block = buf := by
  simp only [ramdiskWriteBlock, h, ↓reduceIte, journalClear_ne h.2.1, setHeader_ne h.2.1,
    Disk.put_self]

/-- A completed write changes no block but its own and the two of the journal. -/
theorem write_ne {block c : Nat} (hc : c ≠ block) (hj : c ≠ 254)
    (hd : c ≠ 255) (d : Disk) (buf : Block) :
    (ramdiskWriteBlock d block buf).2 c = d c := by
  unfold ramdiskWriteBlock
  split
  · simp only [journalClear_ne hj, setHeader_ne hj, Disk.put_ne hc, Disk.put_ne hd]
  · rfl

end SengOS
