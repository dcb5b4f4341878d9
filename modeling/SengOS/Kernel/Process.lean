import SengOS.Kernel.State
import Mathlib.Data.List.FinRange

/-!
# Processes

`process.c`: the table starts with the shell in slot 0, creation takes the
first slot whose process has ended, and `processExit` gives a stack back
without leaving the process's own code.
-/

namespace SengOS

namespace Kernel

/-- The name used for a NULL one. -/
def defaultProcessName : List Byte := [0x70#8, 0x72#8, 0x6F#8, 0x63#8, 0x65#8, 0x73#8, 0x73#8]

def defaultThreadName : List Byte := [0x74#8, 0x68#8, 0x72#8, 0x65#8, 0x61#8, 0x64#8]

def shellName : List Byte := [0x73#8, 0x68#8, 0x65#8, 0x6C#8, 0x6C#8]

/-- `k_name`: up to 15 bytes and a NUL. -/
def kName (dst : Buf 16) (src : Option CStr) (default : List Byte) : Buf 16 :=
  dst.strCopyN 0 ((src.map CStr.bytes).getD default) 16

/-- A slot as `process_init` leaves it. -/
def emptyPcb : Pcb where
  pid := 0#32
  state := .terminated
  esp := 0#32
  eip := 0#32
  stackBase := 0#32
  stackTop := 0#32
  wakeTick := 0#32
  priority := 0#8
  basePriority := 0#8
  quantumTicks := 0#8
  ticksUsed := 0#8
  hasStack := false
  isThread := false
  tid := 0#32
  parent := none
  threadEntry := 0#32
  threadArg := 0#32
  ownedMutexList := []
  waitingMutex := none
  rwReadLocks := 0#8
  entry := 0#32
  name := Buf.zero

/-- Slot 0, the shell that is already running. -/
def shellPcb : Pcb :=
  { emptyPcb with
    state := .running
    quantumTicks := 4#8
    name := kName emptyPcb.name none shellName }

/-- The first slot from 1 on that holds no process: the loop of the three creating calls. -/
def freeSlot (k : Kernel) : Option PcbRef :=
  (List.finRange 16).find? fun i =>
    i ≠ 0 && ((k.pcbs i).state == .terminated && !(k.pcbs i).hasStack)

/-- `*(--sp) = v`. -/
def push (acc : Memory × Word) (v : Word) : Memory × Word :=
  (acc.1.storeWord (acc.2 - 4#32) v, acc.2 - 4#32)

/-- The interrupt frame of a process that has not run yet, the PUSHAD image last. -/
def initialFrame (bootstrap : Word) : List Word :=
  [0x202#32, 0x8#32, bootstrap, 0#32, 0#32, 0#32, 0#32, 0#32, 0#32, 0#32, 0#32]

/-- `build_initial_context`. -/
def buildInitialContext (k : Kernel) (p : PcbRef) : Kernel :=
  let pushed := (initialFrame k.bootstrap).foldl push (k.mem, (k.pcbs p).stackTop)
  { k.modify p (fun q => { q with esp := pushed.2, eip := k.bootstrap }) with mem := pushed.1 }

/-- The end of the two creating calls: a frame for the stack, and the first context on it. -/
def giveStack (k : Kernel) (p : PcbRef) (name : Option CStr) (default : List Byte) :
    Option PcbRef × Kernel :=
  let (frame, pmm) := k.pmm.pmmAllocFrame
  let k := { k.modify p (fun q => { q with stackBase := frame }) with pmm := pmm }
  if frame = 0#32 then (none, k)
  else
    let k := k.modify p fun q =>
      { q with
        stackTop := frame + 4096#32
        hasStack := true
        name := kName q.name name default }
    let k := k.buildInitialContext p
    (some p, { k with processTotal := k.processTotal + 1 })

/-- What `process_create_named` writes to the slot before it asks for a frame. -/
def newProcess (k : Kernel) (entry : Word) (q : Pcb) : Pcb :=
  { q with
    pid := k.nextPid
    state := .ready
    priority := 0#8
    basePriority := 0#8
    quantumTicks := 4#8
    ticksUsed := 0#8
    wakeTick := 0#32
    entry := entry
    isThread := false
    tid := 0#32
    parent := none
    threadEntry := 0#32
    threadArg := 0#32
    ownedMutexList := []
    waitingMutex := none
    rwReadLocks := 0#8 }

def processCreateNamed (k : Kernel) (entry : Word) (name : Option CStr) : Option PcbRef × Kernel :=
  if entry = 0#32 then (none, k)
  else match k.freeSlot with
    | none => (none, k)
    | some p =>
      giveStack { k.modify p (k.newProcess entry) with nextPid := k.nextPid + 1#32 } p name
        defaultProcessName

/-- What `thread_create_named` writes to the slot before it asks for a frame. -/
def newThread (k : Kernel) (entry arg : Word) (q : Pcb) : Pcb :=
  { q with
    pid := k.nextPid
    tid := k.nextTid
    state := .ready
    priority := k.cur.priority
    basePriority := k.cur.basePriority
    quantumTicks := 4#8
    ticksUsed := 0#8
    wakeTick := 0#32
    entry := 0#32
    isThread := true
    parent := some k.current
    threadEntry := entry
    threadArg := arg
    ownedMutexList := []
    waitingMutex := none
    rwReadLocks := 0#8 }

def threadCreateNamed (k : Kernel) (entry arg : Word) (name : Option CStr) :
    Option PcbRef × Kernel :=
  if entry = 0#32 then (none, k)
  else match k.freeSlot with
    | none => (none, k)
    | some p =>
      giveStack
        { k.modify p (k.newThread entry arg) with
          nextPid := k.nextPid + 1#32
          nextTid := k.nextTid + 1#32 }
        p name defaultThreadName

def processIncrementCount (k : Kernel) : Kernel :=
  if k.processTotal < 16 then { k with processTotal := k.processTotal + 1 } else k

def processDecrementCount (k : Kernel) : Kernel := { k with processTotal := k.processTotal - 1 }

/-- `process_exit`: the shell never exits. -/
def processExit (k : Kernel) : Kernel :=
  if k.cur.pid = 0#32 then k
  else
    let pmm := if k.cur.hasStack then k.pmm.pmmFreeFrame k.cur.stackBase else k.pmm
    let k := k.modify k.current fun q =>
      { q with
        state := .terminated
        entry := 0#32
        threadEntry := 0#32
        threadArg := 0#32
        waitingMutex := none
        stackBase := 0#32
        stackTop := 0#32
        esp := 0#32
        eip := 0#32
        hasStack := false }
    processDecrementCount { k with pmm := pmm }

/-- `process_get`. -/
def processGet (k : Kernel) (pid : Word) : Option PcbRef :=
  (List.finRange 16).find? fun i => (k.pcbs i).pid == pid && (k.pcbs i).state != .terminated

theorem freeSlot_some {k : Kernel} {p : PcbRef} (h : k.freeSlot = some p) :
    p ≠ 0 ∧ (k.pcbs p).state = .terminated ∧ (k.pcbs p).hasStack = false := by
  simpa using List.find?_some h

theorem processGet_some {k : Kernel} {pid : Word} {p : PcbRef} (h : k.processGet pid = some p) :
    (k.pcbs p).pid = pid ∧ (k.pcbs p).state ≠ .terminated := by
  simpa using List.find?_some h

end Kernel

end SengOS
