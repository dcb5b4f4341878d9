import SengOS.Kernel.Process

/-!
# The scheduler

`scheduler.c`: the sorted sleep queue, the choice of the next process by level
and round robin, the switch itself, and the two system calls that need the
interrupted context, `fork` and `kill`.
-/

namespace SengOS

namespace Kernel

/-- `quantum[level]` for the three levels of the feedback queue. -/
def quantum : Nat → Byte
  | 0 => 4#8
  | 1 => 8#8
  | _ => 16#8

/-! ## Sleeping and waking -/

/-- The insertion loop of `sleep_queue_insert`, which runs from the end of the queue. -/
def insertByWake (pcbs : PcbRef → Pcb) (index : PcbRef) : List PcbRef → List PcbRef
  | [] => [index]
  | prev :: front =>
    if (pcbs prev).wakeTick ≤ (pcbs index).wakeTick then index :: prev :: front
    else prev :: insertByWake pcbs index front

def sleepQueueInsert (k : Kernel) (index : PcbRef) : Kernel :=
  if 16 ≤ k.sleepQueue.length then k
  else { k with sleepQueue := (insertByWake k.pcbs index k.sleepQueue.reverse).reverse }

def sleepQueueRemove (k : Kernel) (index : PcbRef) : Kernel :=
  { k with sleepQueue := k.sleepQueue.erase index }

/-- `scheduler_block_current`: what `sleep` does before it yields. -/
def schedulerBlockCurrent (k : Kernel) (wakeTick : Word) : Kernel :=
  if k.cur.pid = 0#32 then k
  else
    sleepQueueInsert
      (k.modify k.current fun q => { q with wakeTick := wakeTick, state := .blocked }) k.current

/-- `scheduler_block_forever`: the wait of a lock, ended by `schedulerWake`. -/
def schedulerBlockForever (k : Kernel) : Kernel :=
  if k.cur.pid = 0#32 then k
  else k.modify k.current fun q => { q with wakeTick := 0#32, state := .blocked }

def schedulerWake (k : Kernel) (p : PcbRef) : Kernel :=
  if (k.pcbs p).state ≠ .blocked then k
  else k.modify p fun q =>
    { q with
      state := .ready
      wakeTick := 0#32
      ticksUsed := 0#8
      quantumTicks := if q.quantumTicks = 0#8 then 4#8 else q.quantumTicks }

/-- `sleep` up to its `int $0x30`. -/
def sleep (k : Kernel) (ms : Word) : Kernel :=
  let ticks := (ms + 9#32) / 10#32
  if k.cur.pid = 0#32 ∨ ticks = 0#32 then k
  else
    let k := k.modify k.current fun q => { q with wakeTick := k.tickCount + ticks }
    k.schedulerBlockCurrent k.cur.wakeTick

/-- The end of a sleep, with the boost to the top level. -/
def wakeUp (q : Pcb) : Pcb :=
  if q.state = .blocked then
    { q with
      state := .ready
      wakeTick := 0#32
      priority := 0#8
      ticksUsed := 0#8
      quantumTicks := quantum 0 }
  else q

/-- The loop of `wake_sleepers`; `sleep_queue_remove` of the head drops it. -/
def wakeSleepersLoop (k : Kernel) : List PcbRef → Kernel
  | [] => { k with sleepQueue := [] }
  | index :: rest =>
    if (k.pcbs index).wakeTick = 0#32 ∨ k.tickCount < (k.pcbs index).wakeTick then
      { k with sleepQueue := index :: rest }
    else wakeSleepersLoop (k.modify index wakeUp) rest

def wakeSleepers (k : Kernel) : Kernel := wakeSleepersLoop k k.sleepQueue

/-! ## The switch -/

def runnableAt (k : Kernel) (i : PcbRef) : Bool :=
  (k.pcbs i).state == .ready || (k.pcbs i).state == .running

/-- The lowest level that has a runnable process, 3 if there is none. -/
def bestLevel (k : Kernel) : Nat :=
  (List.finRange 16).foldl
    (fun best i => if k.runnableAt i && (k.pcbs i).priority.toNat < best then
      (k.pcbs i).priority.toNat else best) 3

/-- `pick_next`: round robin from `start` inside the lowest level. -/
def pickNext (k : Kernel) (start : PcbRef) : Option PcbRef :=
  if k.bestLevel = 3 then none
  else ((List.finRange 16).map (start + ·)).find? fun i =>
    k.runnableAt i && (k.pcbs i).priority.toNat == k.bestLevel

/-- The demotion of a process whose quantum is used up; the shell stays on top. -/
def charge (countTick : Bool) (q : Pcb) : Pcb :=
  if q.pid = 0#32 then { q with priority := 0#8, quantumTicks := quantum 0, ticksUsed := 0#8 }
  else
    let q := { q with ticksUsed := q.ticksUsed + 1#8 }
    if countTick && decide (q.quantumTicks ≤ q.ticksUsed) then
      let q := if q.priority.toNat + 1 < 3 then { q with priority := q.priority + 1#8 } else q
      { q with ticksUsed := 0#8, quantumTicks := quantum q.priority.toNat }
    else q

/-- The interrupted process as `dispatch` leaves it before the choice. -/
def suspend (contextEsp eip : Word) (countTick : Bool) (q : Pcb) : Pcb :=
  let q := if q.state ≠ .terminated then { q with esp := contextEsp, eip := eip } else q
  if q.state = .running then charge countTick q else q

/-- `runnable_at(cur, cur_index)` reads the PCB as far behind `cur` as `cur` is
in the table; behind the table's end there is none. -/
def fallback (k : Kernel) : Option PcbRef :=
  if h : k.current.val + k.current.val < 16 then
    if k.runnableAt ⟨k.current.val + k.current.val, h⟩ then some k.current else none
  else none

/-- The end of `dispatch`: `next` gets the CPU. -/
def switchTo (k : Kernel) (next : PcbRef) : Kernel :=
  let k := if k.current ≠ next ∧ k.cur.state = .running then
    k.modify k.current fun q => { q with state := .ready } else k
  { k.modify next (fun q => { q with state := .running }) with
    current := next
    rrCursor := next + 1 }

def countedTick (k : Kernel) : Kernel := wakeSleepers { k with tickCount := k.tickCount + 1#32 }

/-- `dispatch` saves the interrupted context even if the process just changed
itself to BLOCKED. -/
def suspendCurrent (k : Kernel) (contextEsp : Word) (countTick : Bool) : Kernel :=
  if contextEsp ≠ 0#32 then
    k.modify k.current (suspend contextEsp (k.frameWord contextEsp 8) countTick)
  else k

/-- The scheduling decision. -/
def choose (k : Kernel) (contextEsp : Word) : Word × Kernel :=
  let k := { k with rrCursor := k.current + 1 }
  match (k.pickNext k.rrCursor).or k.fallback with
  | none => (contextEsp, k)
  | some next => ((k.pcbs next).esp, k.switchTo next)

def dispatch (k : Kernel) (contextEsp : Word) (countTick : Bool) : Word × Kernel :=
  ((if countTick then k.countedTick else k).suspendCurrent contextEsp countTick).choose contextEsp

def schedulerTick (k : Kernel) (contextEsp : Word) : Word × Kernel :=
  if !k.timerStarted then (contextEsp, k) else k.dispatch contextEsp true

def schedulerYield (k : Kernel) (contextEsp : Word) : Word × Kernel := k.dispatch contextEsp false

/-! ## fork -/

/-- The child's name: the parent's with `-c` behind it. The stores may run past
the field; `Buf.set` keeps only those inside it. -/
def forkName (parent child : Buf 16) : Buf 16 :=
  let base := parent.cstrAt 0 15
  let copied := child.strCopyN 0 base 16
  if base.length < 15 then
    ((copied.set base.length 0x2D#8).set (base.length + 1) 0x63#8).set (base.length + 2) 0#8
  else copied

/-- The last NUL of a name of 14 bytes lands on the first byte behind the field,
the low byte of the next PCB's `pid`. -/
def nameSpill (k : Kernel) (parent : Buf 16) (child : PcbRef) : Kernel :=
  if (parent.cstrAt 0 15).length = 14 then
    if h : child.val + 1 < 16 then
      k.modify ⟨child.val + 1, h⟩ fun q => { q with pid := q.pid &&& 0xFFFFFF00#32 }
    else { k with pastTable := 0#8 }
  else k

/-- One turn of the loop over the PUSHAD slots of the child's frame. -/
def relocateSlot (parent : Pcb) (delta childCtx : Word) (m : Memory) (i : Nat) : Memory :=
  let v := m.loadWord (childCtx + BitVec.ofNat 32 (4 * i))
  if parent.stackBase ≤ v ∧ v < parent.stackTop then
    m.storeWord (childCtx + BitVec.ofNat 32 (4 * i)) (v + delta)
  else m

/-- The part of `scheduler_fork` behind the allocation of the child's stack. -/
def forkInto (k : Kernel) (contextEsp : Word) (child : PcbRef) (frame : Word) : Kernel :=
  let parent := k.cur
  let delta := frame - parent.stackBase
  let childCtx := contextEsp + delta
  let mem := k.mem.copyBytes parent.stackBase frame 4096
  let mem := (List.range 8).foldl (relocateSlot parent delta childCtx) mem
  let mem := mem.storeWord (childCtx + 28#32) 0#32
  let pid := k.nextPid
  let k := k.modify child fun q =>
    { q with
      stackTop := frame + 4096#32
      hasStack := true
      state := .ready
      entry := parent.entry
      priority := parent.priority
      quantumTicks := parent.quantumTicks
      ticksUsed := 0#8
      wakeTick := 0#32
      pid := pid
      name := forkName parent.name q.name
      esp := childCtx
      eip := mem.loadWord (childCtx + 32#32) }
  let k := k.nameSpill parent.name child
  setEax (processIncrementCount { k with nextPid := pid + 1#32, mem := mem }) contextEsp pid

def schedulerFork (k : Kernel) (contextEsp : Word) : Word × Kernel :=
  if !k.cur.hasStack then
    (contextEsp, if contextEsp ≠ 0#32 then k.setEax contextEsp (-1#32) else k)
  else match k.freeSlot with
    | none => (contextEsp, k.setEax contextEsp (-1#32))
    | some child =>
      let (frame, pmm) := k.pmm.pmmAllocFrame
      let k := { k.modify child (fun q => { q with pid := 0#32, stackBase := frame }) with pmm := pmm }
      if frame = 0#32 then (contextEsp, k.setEax contextEsp (-1#32))
      else (contextEsp, k.forkInto contextEsp child frame)

/-! ## kill -/

/-- What `scheduler_kill` leaves in the target's slot. -/
def killed (q : Pcb) : Pcb :=
  { q with
    stackBase := 0#32
    stackTop := 0#32
    state := .terminated
    esp := 0#32
    eip := 0#32
    wakeTick := 0#32
    entry := 0#32
    hasStack := false }

def killTarget (k : Kernel) (target : PcbRef) : Kernel :=
  let pmm := if (k.pcbs target).hasStack then k.pmm.pmmFreeFrame (k.pcbs target).stackBase else k.pmm
  processDecrementCount { (k.sleepQueueRemove target).modify target killed with pmm := pmm }

def schedulerKill (k : Kernel) (contextEsp pid : Word) : Word × Kernel :=
  match k.processGet pid with
  | none => (contextEsp, k.setEax contextEsp (-1#32))
  | some target =>
    if pid = 0#32 then (contextEsp, k.setEax contextEsp (-1#32))
    else
      let k := (k.killTarget target).setEax contextEsp 0#32
      if target ≠ k.current then (contextEsp, k) else k.dispatch contextEsp false

/-! ## Start -/

/-- The static variables after `pmm_init` and `scheduler_init`. The locks are
zero-initialised statics of their users. -/
def schedulerInit (pmm : Pmm) (mem : Memory) (bootstrap : Word) (pastTable : Byte) : Kernel where
  pcbs := Function.update (fun _ => emptyPcb) 0 shellPcb
  current := 0
  nextPid := 1#32
  nextTid := 1#32
  processTotal := 1
  tickCount := 0#32
  rrCursor := 0
  timerStarted := false
  sleepQueue := []
  pmm := pmm
  mem := mem
  bootstrap := bootstrap
  pastTable := pastTable
  mutexes := fun _ => ⟨false, false, none, []⟩
  mutexRegistry := []
  sems := fun _ => ⟨0#32, false, []⟩
  rwlocks := fun _ => ⟨0#32, none, [], [], false⟩

def schedulerStart (k : Kernel) : Kernel := { k with timerStarted := true }

end Kernel

end SengOS
