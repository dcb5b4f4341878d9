import SengOS.Lib.CString
import SengOS.Kernel.Pmm

/-!
# The state of the kernel

The process table of `process.c`, the static variables of the scheduler and
the objects of the three lock modules. A pointer to a PCB is its index in the
table, a pointer to a lock is the lock's number; an array with its count is
the list of the entries in use.
-/

namespace SengOS

/-- `proc_state_t`. -/
inductive ProcState
  | ready
  | running
  | blocked
  | terminated
  deriving DecidableEq, Repr

/-- A `pcb_t *` into the table of `MAX_PROCESSES` entries. -/
abbrev PcbRef := Fin 16

instance slotsNeZero : NeZero 16 := inferInstance

instance : LawfulBEq PcbRef := inferInstance

structure Pcb where
  pid : Word
  state : ProcState
  esp : Word
  eip : Word
  stackBase : Word
  stackTop : Word
  wakeTick : Word
  priority : Byte
  basePriority : Byte
  quantumTicks : Byte
  ticksUsed : Byte
  hasStack : Bool
  isThread : Bool
  tid : Word
  parent : Option PcbRef
  threadEntry : Word
  threadArg : Word
  ownedMutexList : List Nat
  waitingMutex : Option Nat
  rwReadLocks : Byte
  entry : Word
  name : Buf 16

/-- `mutex_t`. -/
structure Mutex where
  locked : Bool
  initialized : Bool
  owner : Option PcbRef
  waiters : List PcbRef

/-- `semaphore_t`. -/
structure Semaphore where
  count : BitVec 32
  initialized : Bool
  waiters : List PcbRef

/-- `rwlock_t`. -/
structure Rwlock where
  readers : Word
  writer : Option PcbRef
  readerWaiters : List PcbRef
  writerWaiters : List PcbRef
  initialized : Bool

/-- Byte-addressed memory, where the stacks of the processes live. -/
abbrev Memory := Word → Byte

namespace Memory

def loadWord (m : Memory) (a : Word) : Word := m (a + 3#32) ++ m (a + 2#32) ++ m (a + 1#32) ++ m a

def storeWord (m : Memory) (a w : Word) : Memory := fun x =>
  if x = a then w.extractLsb' 0 8
  else if x = a + 1#32 then w.extractLsb' 8 8
  else if x = a + 2#32 then w.extractLsb' 16 8
  else if x = a + 3#32 then w.extractLsb' 24 8
  else m x

/-- The byte loop of `scheduler_fork` over a stack. -/
def copyBytes (m : Memory) (src dst : Word) (n : Nat) : Memory :=
  (List.range n).foldl
    (fun m i => Function.update m (dst + BitVec.ofNat 32 i) (m (src + BitVec.ofNat 32 i))) m

end Memory

structure Kernel where
  pcbs : PcbRef → Pcb
  current : PcbRef
  nextPid : Word
  nextTid : Word
  processTotal : Nat
  tickCount : Word
  rrCursor : PcbRef
  timerStarted : Bool
  sleepQueue : List PcbRef
  pmm : Pmm
  mem : Memory
  /-- The address of `process_bootstrap`. -/
  bootstrap : Word
  /-- The byte that the linker puts behind the process table. -/
  pastTable : Byte
  mutexes : Nat → Mutex
  mutexRegistry : List Nat
  sems : Nat → Semaphore
  rwlocks : Nat → Rwlock

namespace Kernel

def modify (k : Kernel) (p : PcbRef) (f : Pcb → Pcb) : Kernel :=
  { k with pcbs := Function.update k.pcbs p (f (k.pcbs p)) }

def setMutex (k : Kernel) (m : Nat) (v : Mutex) : Kernel :=
  { k with mutexes := Function.update k.mutexes m v }

def setSem (k : Kernel) (s : Nat) (v : Semaphore) : Kernel :=
  { k with sems := Function.update k.sems s v }

def setRwlock (k : Kernel) (r : Nat) (v : Rwlock) : Kernel :=
  { k with rwlocks := Function.update k.rwlocks r v }

/-- The PCB of the process that runs on the CPU. -/
def cur (k : Kernel) : Pcb := k.pcbs k.current

/-- `context_esp[i]`. -/
def frameWord (k : Kernel) (contextEsp : Word) (i : Nat) : Word :=
  k.mem.loadWord (contextEsp + BitVec.ofNat 32 (4 * i))

/-- `context_esp[7] = v`: the result of a system call, in the saved EAX. -/
def setEax (k : Kernel) (contextEsp v : Word) : Kernel :=
  { k with mem := k.mem.storeWord (contextEsp + 28#32) v }

/-- The lock objects, as opposed to the process table. -/
def locks (k : Kernel) : (Nat → Mutex) × (Nat → Semaphore) × (Nat → Rwlock) :=
  (k.mutexes, k.sems, k.rwlocks)

variable (k : Kernel) (p : PcbRef) (f : Pcb → Pcb) (m : Nat)

theorem modify_pcbs (q : PcbRef) :
    (k.modify p f).pcbs q = if q = p then f (k.pcbs p) else k.pcbs q := by
  simp [modify, Function.update_apply]

@[simp] theorem modify_pcbs_self : (k.modify p f).pcbs p = f (k.pcbs p) := by
  simp [modify]

theorem modify_pcbs_ne {q : PcbRef} (h : q ≠ p) : (k.modify p f).pcbs q = k.pcbs q := by
  simp [modify, h]

theorem modify_modify (g : Pcb → Pcb) : (k.modify p f).modify p g = k.modify p (g ∘ f) := by
  simp [modify]

@[simp] theorem modify_current : (k.modify p f).current = k.current := rfl
@[simp] theorem modify_sleepQueue : (k.modify p f).sleepQueue = k.sleepQueue := rfl
@[simp] theorem modify_pmm : (k.modify p f).pmm = k.pmm := rfl
@[simp] theorem modify_mutexes : (k.modify p f).mutexes = k.mutexes := rfl
@[simp] theorem modify_sems : (k.modify p f).sems = k.sems := rfl
@[simp] theorem modify_rwlocks : (k.modify p f).rwlocks = k.rwlocks := rfl
@[simp] theorem modify_locks : (k.modify p f).locks = k.locks := rfl
@[simp] theorem modify_processTotal : (k.modify p f).processTotal = k.processTotal := rfl

end Kernel

end SengOS
