import SengOS.Kernel.Scheduler

/-!
# Mutexes, semaphores and reader-writer locks

`mutex.c`, `semaphore.c` and `rwlock.c`, each cut at its sections with
interrupts disabled: `attempt` is the section of an acquiring call,
`release` the one of a releasing call, and `granted` the test that a waiter
makes when it runs again.
-/

namespace SengOS

/-- What an acquiring call can be about; a reader-writer lock has two of them. -/
inductive Lock
  | mutex (m : Nat)
  | sem (s : Nat)
  | read (r : Nat)
  | write (r : Nat)
  deriving DecidableEq, Repr

/-- How the section of an acquiring call ends. -/
inductive Attempt
  | got
  | waits
  | full
  deriving DecidableEq, Repr

/-- `waitq_add` and `add`: the full queue refuses, a process already in it is not added again. -/
def waitqAdd (q : List PcbRef) (p : PcbRef) : Option (List PcbRef) :=
  if 16 ≤ q.length then none else if p ∈ q then some q else some (q ++ [p])

namespace Kernel

/-! ## Mutexes -/

def ownerAdd (k : Kernel) (p : PcbRef) (m : Nat) : Kernel :=
  k.modify p fun q =>
    if 4 ≤ q.ownedMutexList.length ∨ m ∈ q.ownedMutexList then q
    else { q with ownedMutexList := q.ownedMutexList ++ [m] }

def ownerRemove (k : Kernel) (p : PcbRef) (m : Nat) : Kernel :=
  k.modify p fun q => { q with ownedMutexList := q.ownedMutexList.erase m }

/-- `if (w->priority < p->priority) p->priority = w->priority`. -/
def raiseTo (p : PcbRef) (k : Kernel) (w : PcbRef) : Kernel :=
  if (k.pcbs w).priority < (k.pcbs p).priority then
    k.modify p fun q => { q with priority := (k.pcbs w).priority }
  else k

def recomputePriority (k : Kernel) (p : PcbRef) : Kernel :=
  let k := k.modify p fun q => { q with priority := q.basePriority }
  ((k.pcbs p).ownedMutexList.flatMap fun m => (k.mutexes m).waiters).foldl (raiseTo p) k

/-- The loop of `propagate_priority`, with the turns its guard leaves. -/
def propagatePriority (k : Kernel) : Nat → PcbRef → Kernel
  | 0, _ => k
  | guard + 1, p =>
    match (k.pcbs p).waitingMutex.bind fun m => (k.mutexes m).owner with
    | none => k
    | some owner =>
      if (k.pcbs owner).priority ≤ (k.pcbs p).priority then k
      else propagatePriority (raiseTo owner k p) guard owner

def mutexInit (k : Kernel) (m : Nat) : Kernel :=
  let k := k.setMutex m ⟨false, true, none, []⟩
  if m ∈ k.mutexRegistry ∨ 32 ≤ k.mutexRegistry.length then k
  else { k with mutexRegistry := k.mutexRegistry ++ [m] }

/-- The boost that a waiter gives the holder of the mutex. -/
def boostOwner (k : Kernel) (m : Nat) : Kernel :=
  match (k.mutexes m).owner with
  | none => k
  | some owner =>
    if k.cur.priority < (k.pcbs owner).priority then
      propagatePriority (raiseTo owner k k.current) 16 owner
    else k

def mutexAttempt (k : Kernel) (m : Nat) : Attempt × Kernel :=
  let x := k.mutexes m
  if !x.locked then
    (.got, (k.setMutex m { x with locked := true, owner := some k.current }).ownerAdd k.current m)
  else match waitqAdd x.waiters k.current with
    | none => (.full, k)
    | some q =>
      let k := k.setMutex m { x with waiters := q }
      let k := k.modify k.current fun q => { q with waitingMutex := some m }
      (.waits, (k.boostOwner m).schedulerBlockForever)

/-- The section of `mutex_unlock`: the first waiter becomes the owner. -/
def mutexRelease (k : Kernel) (m : Nat) : Kernel :=
  let cur := k.current
  let x := k.mutexes m
  let k := k.ownerRemove cur m
  match x.waiters with
  | [] => (k.setMutex m { x with locked := false, owner := none }).recomputePriority cur
  | next :: rest =>
    let k := k.setMutex m { x with locked := true, owner := some next, waiters := rest }
    let k := k.modify next fun q => { q with waitingMutex := none }
    ((k.ownerAdd next m).schedulerWake next).recomputePriority cur

/-! ## Semaphores -/

def semaphoreInit (k : Kernel) (s : Nat) (initialCount : Word) : Kernel :=
  k.setSem s ⟨if initialCount.slt 0#32 then 0#32 else initialCount, true, []⟩

def semAttempt (k : Kernel) (s : Nat) : Attempt × Kernel :=
  let x := k.sems s
  if (0#32).slt x.count then (.got, k.setSem s { x with count := x.count - 1#32 })
  else match waitqAdd x.waiters k.current with
    | none => (.full, k)
    | some q => (.waits, (k.setSem s { x with waiters := q }).schedulerBlockForever)

/-- The section of `sem_signal`: a unit goes to the first waiter, else to the count. -/
def semRelease (k : Kernel) (s : Nat) : Kernel :=
  let x := k.sems s
  match x.waiters with
  | [] => k.setSem s { x with count := x.count + 1#32 }
  | next :: rest => (k.setSem s { x with waiters := rest }).schedulerWake next

/-! ## Reader-writer locks -/

def rwlockInit (k : Kernel) (r : Nat) : Kernel := k.setRwlock r ⟨0#32, none, [], [], true⟩

/-- A process joins the readers. -/
def addReader (k : Kernel) (r : Nat) (p : PcbRef) : Kernel :=
  let x := k.rwlocks r
  (k.setRwlock r { x with readers := x.readers + 1#32 }).modify p fun q =>
    { q with rwReadLocks := q.rwReadLocks + 1#8 }

def readAttempt (k : Kernel) (r : Nat) : Attempt × Kernel :=
  let x := k.rwlocks r
  if x.writer.isNone && x.writerWaiters.isEmpty then (.got, k.addReader r k.current)
  else
    let q := (waitqAdd x.readerWaiters k.current).getD x.readerWaiters
    (.waits, (k.setRwlock r { x with readerWaiters := q }).schedulerBlockForever)

/-- `if (rw->readers) rw->readers--`. -/
def dropReader (x : Rwlock) : Rwlock :=
  { x with readers := if x.readers ≠ 0#32 then x.readers - 1#32 else x.readers }

def readRelease (k : Kernel) (r : Nat) : Kernel :=
  let k := k.modify k.current fun q => { q with rwReadLocks := q.rwReadLocks - 1#8 }
  let x := dropReader (k.rwlocks r)
  if x.readers = 0#32 ∧ x.writer = none then
    match x.writerWaiters with
    | [] => k.setRwlock r x
    | next :: rest => (k.setRwlock r { x with writerWaiters := rest }).schedulerWake next
  else k.setRwlock r x

def writeAttempt (k : Kernel) (r : Nat) : Attempt × Kernel :=
  let x := k.rwlocks r
  if x.writer.isNone && x.readers == 0#32 then
    (.got, k.setRwlock r { x with writer := some k.current })
  else
    let q := (waitqAdd x.writerWaiters k.current).getD x.writerWaiters
    (.waits, (k.setRwlock r { x with writerWaiters := q }).schedulerBlockForever)

/-- One turn of the loop that lets the waiting readers in. -/
def admitReader (r : Nat) (k : Kernel) (p : PcbRef) : Kernel := (k.addReader r p).schedulerWake p

def writeRelease (k : Kernel) (r : Nat) : Kernel :=
  let x := k.rwlocks r
  match x.writerWaiters with
  | next :: rest =>
    (k.setRwlock r { x with writer := some next, writerWaiters := rest }).schedulerWake next
  | [] => x.readerWaiters.foldl (admitReader r) (k.setRwlock r { x with writer := none, readerWaiters := [] })

/-! ## The calls at a lock -/

def initialized (k : Kernel) : Lock → Bool
  | .mutex m => (k.mutexes m).initialized
  | .sem s => (k.sems s).initialized
  | .read r | .write r => (k.rwlocks r).initialized

/-- The initialisation that a call makes up for. -/
def lazyInit (k : Kernel) : Lock → Kernel
  | .mutex m => k.mutexInit m
  | .sem s => k.semaphoreInit s 0#32
  | .read r | .write r => k.rwlockInit r

def attempt (k : Kernel) : Lock → Attempt × Kernel
  | .mutex m => k.mutexAttempt m
  | .sem s => k.semAttempt s
  | .read r => k.readAttempt r
  | .write r => k.writeAttempt r

/-- The test behind the yield of a waiter; `sem_wait` and `rwlock_read_lock` only look at the state. -/
def granted (k : Kernel) : Lock → Bool
  | .mutex m => (k.mutexes m).owner == some k.current
  | .sem _ | .read _ => k.cur.state != .blocked
  | .write r => (k.rwlocks r).writer == some k.current

/-- What a waiter does when it leaves with the lock. -/
def settle (k : Kernel) : Lock → Kernel
  | .mutex _ => k.modify k.current fun q => { q with waitingMutex := none }
  | _ => k

/-- The test before the section of a releasing call. -/
def mayRelease (k : Kernel) : Lock → Bool
  | .mutex m => (k.mutexes m).owner == some k.current
  | .sem _ => true
  | .read _ => k.cur.rwReadLocks != 0#8
  | .write r => (k.rwlocks r).writer == some k.current

def release (k : Kernel) : Lock → Kernel
  | .mutex m => k.mutexRelease m
  | .sem s => k.semRelease s
  | .read r => k.readRelease r
  | .write r => k.writeRelease r

end Kernel

end SengOS
