import SengOS.Kernel.Locks
import SengOS.Lib.Machine

/-!
# The running system

The kernel together with where each process stands in its lock call. Every
action is what the code does without being interrupted: a system call, a
timer interrupt, or one section of a lock call. Processes act while they are
RUNNING; a process that blocked itself or ended does nothing more until a tick
or a yield, and the yield that follows its blocking is the only code it still
runs.

The fields from `serial` on are not in memory. They record which process a
slot holds, which context was last recorded for each process, who put an entry
into a lock, and in which order the calls of `mutex_lock` were queued and
served.
-/

namespace SengOS

/-- Where a process stands. -/
inductive Point
  /-- Outside the lock calls. -/
  | run
  /-- The lock was not initialised when the call looked. -/
  | init (l : Lock)
  /-- Before the section of an acquiring call. -/
  | attempt (l : Lock)
  /-- The queue was full: about to yield and to try again. -/
  | full (l : Lock)
  /-- Queued and blocked, about to yield. -/
  | wait (l : Lock)
  /-- Behind the yield of a waiter. -/
  | check (l : Lock)
  | signalInit (s : Nat)
  /-- Before the section of a releasing call. -/
  | release (l : Lock)
  deriving DecidableEq, Repr

/-- A place in a lock that holds PCB pointers. -/
inductive Place
  | mutexOwner (m : Nat)
  | mutexWaiter (m : Nat)
  | semWaiter (s : Nat)
  | rwWriter (r : Nat)
  | readWaiter (r : Nat)
  | writeWaiter (r : Nat)
  deriving DecidableEq, Repr

/-- The queue from which an unlocking process fills the place. -/
def Place.queue : Place → Place
  | .mutexOwner m => .mutexWaiter m
  | .rwWriter r => .writeWaiter r
  | place => place

def Kernel.entries (k : Kernel) : Place → List PcbRef
  | .mutexOwner m => (k.mutexes m).owner.toList
  | .mutexWaiter m => (k.mutexes m).waiters
  | .semWaiter s => (k.sems s).waiters
  | .rwWriter r => (k.rwlocks r).writer.toList
  | .readWaiter r => (k.rwlocks r).readerWaiters
  | .writeWaiter r => (k.rwlocks r).writerWaiters

/-- A process, as opposed to the slot that holds it. -/
structure Proc where
  serial : Nat
  pid : Word
  deriving DecidableEq

structure OsState where
  kernel : Kernel
  point : PcbRef → Point
  /-- The stack pointer that the last system call or interrupt returned to its stub. -/
  esp : Word
  serial : PcbRef → Nat
  nextSerial : Nat
  /-- The context last recorded for a process, by its serial number. -/
  saved : Nat → Option Word
  /-- The process whose call put an entry into a lock. -/
  claimed : Place → PcbRef → Proc
  /-- The number of the process's last acquiring call. -/
  call : PcbRef → Nat
  nextCall : Nat
  /-- The calls queued at a mutex, and those of them that were handed it, in order. -/
  queued : Nat → List Nat
  granted : Nat → List Nat

inductive Action
  | start
  | create (entry : Word) (name : Option CStr)
  | threadCreate (entry arg : Word) (name : Option CStr)
  | fork (contextEsp : Word)
  | tick (contextEsp : Word)
  | yield (contextEsp : Word)
  | sleep (ms : Word)
  | blockForever
  | wake (p : Option PcbRef)
  | kill (contextEsp pid : Word)
  | exit
  | mutexInit (m : Nat)
  | semInit (s : Nat) (initialCount : Word)
  | rwlockInit (r : Nat)
  /-- `mutex_lock`, `sem_wait`, `rwlock_read_lock` or `rwlock_write_lock`, up to its loop. -/
  | acquire (l : Lock)
  /-- `mutex_unlock`, `sem_signal`, `rwlock_read_unlock` or `rwlock_write_unlock`, up to its section. -/
  | unlock (l : Lock)
  /-- The next section of the call the running process is in. -/
  | proceed

namespace Kernel

/-- The slot that a creating call fills. -/
def createTarget (k : Kernel) (entry : Word) : Option PcbRef :=
  if entry = 0#32 then none else k.freeSlot

/-- The slot of the child, when `scheduler_fork` succeeds. -/
def forkTarget (k : Kernel) : Option PcbRef :=
  if !k.cur.hasStack || k.pmm.pmmAllocFrame.1 == 0#32 then none else k.freeSlot

/-- The code of an acquiring call before its loop. -/
def enter (k : Kernel) (l : Lock) : Point :=
  if k.cur.pid = 0#32 then .run
  else if !k.initialized l then .init l
  else match l with
    | .mutex m => if (k.mutexes m).owner = some k.current then .run else .attempt l
    | l => .attempt l

/-- The code of a releasing call before its section. -/
def enterRelease (k : Kernel) (l : Lock) : Point :=
  match l with
  | .sem s => if !k.initialized l then .signalInit s else .release l
  | l => if k.mayRelease l then .release l else .run

/-- The next section of the call that the running process is in. -/
def advance (k : Kernel) : Point → Point × Kernel
  | .init l => (.attempt l, k.lazyInit l)
  | .attempt l =>
    match k.attempt l with
    | (.got, k) => (.run, k)
    | (.waits, k) => (.wait l, k)
    | (.full, k) => (.full l, k)
  | .check l => if k.granted l then (.run, k.settle l) else (.attempt l, k)
  | .signalInit s => (.release (.sem s), k.semaphoreInit s 0#32)
  | .release l => (.run, k.release l)
  | point => (point, k)

end Kernel

def Point.afterYield : Point → Point
  | .full l => .attempt l
  | .wait l => .check l
  | point => point

theorem afterYield_run {point : Point} : point.afterYield = .run ↔ point = .run := by
  cases point <;> simp [Point.afterYield]

theorem afterYield_init {point : Point} {l : Lock} :
    point.afterYield = .init l ↔ point = .init l := by
  cases point <;> simp [Point.afterYield]

theorem afterYield_release {point : Point} {l : Lock} :
    point.afterYield = .release l ↔ point = .release l := by
  cases point <;> simp [Point.afterYield]

namespace OsState

/-- The process in a slot. -/
def proc (s : OsState) (p : PcbRef) : Proc := ⟨s.serial p, (s.kernel.pcbs p).pid⟩

/-- The point of the process on the CPU. -/
def here (s : OsState) : Point := s.point s.kernel.current

/-- A new process in slot `p`, with its initial context if one was built. -/
def birth (s : OsState) (p : PcbRef) (context : Option Word) : OsState :=
  { s with
    point := Function.update s.point p .run
    serial := Function.update s.serial p s.nextSerial
    nextSerial := s.nextSerial + 1
    saved := Function.update s.saved s.nextSerial context }

/-- The creating calls: `created` is what the call returned. -/
def creating (s : OsState) (entry : Word) (created : Option PcbRef × Kernel) : OsState :=
  match s.kernel.createTarget entry with
  | none => { s with kernel := created.2 }
  | some p =>
    { s.birth p (created.1.map fun q => (created.2.pcbs q).esp) with kernel := created.2 }

/-- A dispatch records the context of the process that it takes off the CPU. -/
def record (s : OsState) (contextEsp : Word) : OsState :=
  { s with saved := Function.update s.saved (s.serial s.kernel.current) (some contextEsp) }

/-- A new entry belongs to the process that runs the section; one that the
section moves out of a queue stays with the process that queued. -/
def claims (s : OsState) (k : Kernel) : Place → PcbRef → Proc := fun place p =>
  if p ∈ k.entries place ∧ p ∉ s.kernel.entries place then
    if p = s.kernel.current then s.proc p else s.claimed place.queue p
  else s.claimed place p

/-- The call joins the log of a mutex when its section queues it. -/
def queuedBy (s : OsState) : Nat → List Nat := fun m =>
  if s.here = .attempt (.mutex m) ∧ (s.kernel.mutexAttempt m).1 = .waits ∧
      s.kernel.current ∉ (s.kernel.mutexes m).waiters then
    s.queued m ++ [s.call s.kernel.current]
  else s.queued m

/-- The unlocking section serves the first waiter. -/
def grantedBy (s : OsState) : Nat → List Nat := fun m =>
  if s.here = .release (.mutex m) then
    s.granted m ++ ((s.kernel.mutexes m).waiters.head?.map s.call).toList
  else s.granted m

def setPoint (s : OsState) (point : Point) : OsState :=
  { s with point := Function.update s.point s.kernel.current point }

def next (s : OsState) : Action → OsState
  | .start => { s with kernel := s.kernel.schedulerStart }
  | .create entry name => s.creating entry (s.kernel.processCreateNamed entry name)
  | .threadCreate entry arg name => s.creating entry (s.kernel.threadCreateNamed entry arg name)
  | .fork contextEsp =>
    let (esp, k) := s.kernel.schedulerFork contextEsp
    match s.kernel.forkTarget with
    | none => { s with kernel := k, esp := esp }
    | some p => { s.birth p (some (k.pcbs p).esp) with kernel := k, esp := esp }
  | .tick contextEsp =>
    let (esp, k) := s.kernel.schedulerTick contextEsp
    { if s.kernel.timerStarted then s.record contextEsp else s with kernel := k, esp := esp }
  | .yield contextEsp =>
    let (esp, k) := s.kernel.schedulerYield contextEsp
    { (s.record contextEsp).setPoint s.here.afterYield with kernel := k, esp := esp }
  | .sleep ms => { s with kernel := s.kernel.sleep ms }
  | .blockForever => { s with kernel := s.kernel.schedulerBlockForever }
  | .wake none => s
  | .wake (some p) => { s with kernel := s.kernel.schedulerWake p }
  | .kill contextEsp pid =>
    let (esp, k) := s.kernel.schedulerKill contextEsp pid
    { s with kernel := k, esp := esp }
  | .exit => { s with kernel := s.kernel.processExit }
  | .mutexInit m => { s with kernel := s.kernel.mutexInit m }
  | .semInit i initialCount => { s with kernel := s.kernel.semaphoreInit i initialCount }
  | .rwlockInit r => { s with kernel := s.kernel.rwlockInit r }
  | .acquire l =>
    { s.setPoint (s.kernel.enter l) with
      call := Function.update s.call s.kernel.current s.nextCall
      nextCall := s.nextCall + 1 }
  | .unlock l => s.setPoint (s.kernel.enterRelease l)
  | .proceed =>
    let (point, k) := s.kernel.advance s.here
    { s.setPoint point with
      kernel := k
      claimed := s.claims k
      queued := s.queuedBy
      granted := s.grantedBy }

/-- The process on the CPU is RUNNING and outside the lock calls. -/
def Idle (s : OsState) : Prop := s.kernel.cur.state = .running ∧ s.here = .run

instance (s : OsState) : Decidable s.Idle := inferInstanceAs (Decidable (_ ∧ _))

/-- Its code goes on with `int $0x30`. -/
def yields : Point → Bool
  | .run | .full _ | .wait _ => true
  | _ => false

/-- The interrupt stubs pass their stack pointer, never NULL. -/
def Enabled (s : OsState) : Action → Prop
  | .tick contextEsp => contextEsp ≠ 0#32
  | .yield contextEsp => contextEsp ≠ 0#32 ∧ yields s.here
  | .fork contextEsp => contextEsp ≠ 0#32 ∧ s.Idle
  | .kill contextEsp _ => contextEsp ≠ 0#32 ∧ s.Idle
  | .proceed => s.kernel.cur.state = .running ∧ ¬ yields s.here
  | _ => s.Idle

instance (s : OsState) (a : Action) : Decidable (s.Enabled a) := by
  apply Action.casesOn (motive := fun a => Decidable (s.Enabled a)) a <;> intros <;>
    unfold Enabled <;> infer_instance

/-- What the machine starts from: the memory map, where the linker put the
kernel, and the contents of memory. -/
structure Boot where
  e820 : List E820Entry
  kernelEnd : Word
  mem : Memory
  bootstrap : Word
  pastTable : Byte

/-- `pmm_init` and `scheduler_init`. -/
def boot (b : Boot) : OsState where
  kernel := Kernel.schedulerInit (Pmm.pmmInit b.e820 b.kernelEnd) b.mem b.bootstrap b.pastTable
  point := fun _ => .run
  esp := 0#32
  serial := fun p => p.val
  nextSerial := 16
  saved := fun _ => none
  claimed := fun _ _ => ⟨0, 0#32⟩
  call := fun p => p.val
  nextCall := 16
  queued := fun _ => []
  granted := fun _ => []

/-- Thirty-two KiB of memory behind the first MiB. -/
def smallBoot : Boot :=
  ⟨[⟨0x100000#64, 0x8000#64, 1#32⟩], 0x20000#32, fun _ => 0#8, 0x10000#32, 0#8⟩

def machine : Machine OsState Action := ⟨Enabled, next⟩

instance (s : OsState) (a : Action) : Decidable (machine.enabled s a) :=
  inferInstanceAs (Decidable (s.Enabled a))

/-- The condition of runs that are held to none. -/
def Any (_ : OsState) (_ : Action) : Prop := True

instance (s : OsState) (a : Action) : Decidable (Any s a) := inferInstanceAs (Decidable True)

/-- The states that runs from boot reach when every action meets `P`. -/
abbrev Reached (P : OsState → Action → Prop) (s : OsState) : Prop :=
  ∃ b, machine.Reach P (boot b) s

end OsState

end SengOS
