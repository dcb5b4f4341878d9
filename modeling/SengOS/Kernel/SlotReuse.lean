import SengOS.Kernel.Creation

/-!
# What a new process finds in its slot

Two kernels that differ only in slots that hold no process, and the same
creating call in both. `process_create_named` and `thread_create_named` write
every field that decides how the process runs. `scheduler_fork` leaves nine of
them as the slot's previous occupant had them.
-/

namespace SengOS

/-- The fields that decide how a process runs, apart from its identity and its stack. -/
structure Profile where
  state : ProcState
  priority : Byte
  basePriority : Byte
  quantumTicks : Byte
  ticksUsed : Byte
  wakeTick : Word
  isThread : Bool
  tid : Word
  parent : Option PcbRef
  entry : Word
  threadEntry : Word
  threadArg : Word
  ownedMutexes : Nat
  waitingMutex : Option Nat
  rwReadLocks : Byte
  deriving DecidableEq

def Pcb.profile (q : Pcb) : Profile :=
  ⟨q.state, q.priority, q.basePriority, q.quantumTicks, q.ticksUsed, q.wakeTick, q.isThread, q.tid,
    q.parent, q.entry, q.threadEntry, q.threadArg, q.ownedMutexList.length, q.waitingMutex,
    q.rwReadLocks⟩

namespace Profile

/-- A process from `process_create_named`. -/
def ofProcess (entry : Word) : Profile :=
  ⟨.ready, 0#8, 0#8, 4#8, 0#8, 0#32, false, 0#32, none, entry, 0#32, 0#32, 0, none, 0#8⟩

/-- A thread that the current process of `k` creates. -/
def ofThread (k : Kernel) (entry arg : Word) : Profile :=
  ⟨.ready, k.cur.priority, k.cur.basePriority, 4#8, 0#8, 0#32, true, k.nextTid, some k.current, 0#32,
    entry, arg, 0, none, 0#8⟩

/-- A child of `parent` in a slot with the fields of `stale`. -/
def ofFork (parent : Pcb) (stale : Profile) : Profile :=
  { stale with
    state := .ready
    priority := parent.priority
    quantumTicks := parent.quantumTicks
    ticksUsed := 0#8
    wakeTick := 0#32
    entry := parent.entry }

/-- The fields that `scheduler_fork` does not write. -/
def unset (q : Profile) : Byte × Bool × Word × Option PcbRef × Word × Word × Nat × Option Nat × Byte :=
  (q.basePriority, q.isThread, q.tid, q.parent, q.threadEntry, q.threadArg, q.ownedMutexes,
    q.waitingMutex, q.rwReadLocks)

theorem ofFork_inj (parent : Pcb) (a b : Profile) :
    ofFork parent a = ofFork parent b ↔ a.unset = b.unset := by
  cases a
  cases b
  simp [ofFork, unset]

end Profile

namespace Kernel

variable {k k' : Kernel}

/-! ## The profile of a new process -/

theorem giveStack_profile (k : Kernel) (p : PcbRef) (name : Option CStr) (default : List Byte) :
    ((giveStack k p name default).2.pcbs p).profile = (k.pcbs p).profile := by
  unfold giveStack
  dsimp only
  split
  · simp [Pcb.profile]
  · simp [buildInitialContext, Pcb.profile]

theorem processCreateNamed_profile {entry : Word} {p : PcbRef} (h : k.createTarget entry = some p)
    (name : Option CStr) :
    ((k.processCreateNamed entry name).2.pcbs p).profile = .ofProcess entry := by
  obtain ⟨hz, hp⟩ := createTarget_some h
  rw [processCreateNamed, if_neg hz, hp]
  dsimp only
  rw [giveStack_profile, modify_pcbs_self]
  rfl

theorem threadCreateNamed_profile {entry : Word} {p : PcbRef} (h : k.createTarget entry = some p)
    (arg : Word) (name : Option CStr) :
    ((k.threadCreateNamed entry arg name).2.pcbs p).profile = .ofThread k entry arg := by
  obtain ⟨hz, hp⟩ := createTarget_some h
  rw [threadCreateNamed, if_neg hz, hp]
  dsimp only
  rw [giveStack_profile, modify_pcbs_self]
  rfl

theorem schedulerFork_profile {child : PcbRef} (h : k.forkTarget = some child) (contextEsp : Word) :
    ((k.schedulerFork contextEsp).2.pcbs child).profile =
      .ofFork k.cur (k.pcbs child).profile := by
  rw [schedulerFork_pcbs h, if_pos rfl, Pcb.profile, forkedPcb, takeStack_cur h]
  rfl

/-! ## Kernels that differ in free slots -/

/-- Equal but for the contents of slots that are TERMINATED without a stack. -/
structure SameButFree (k k' : Kernel) : Prop where
  rest : { k' with pcbs := k.pcbs } = k
  pcbs : ∀ p, k'.pcbs p = k.pcbs p ∨
    (((k.pcbs p).state = .terminated ∧ (k.pcbs p).hasStack = false) ∧
      ((k'.pcbs p).state = .terminated ∧ (k'.pcbs p).hasStack = false))

namespace SameButFree

theorem pmm (h : SameButFree k k') : k'.pmm = k.pmm :=
  (congrArg Kernel.pmm h.rest :)

theorem current (h : SameButFree k k') : k'.current = k.current :=
  (congrArg Kernel.current h.rest :)

theorem nextTid (h : SameButFree k k') : k'.nextTid = k.nextTid :=
  (congrArg Kernel.nextTid h.rest :)

theorem freeSlot (h : SameButFree k k') : k'.freeSlot = k.freeSlot := by
  unfold Kernel.freeSlot
  congr 1
  funext i
  rcases h.pcbs i with he | ⟨⟨ht, hs⟩, ht', hs'⟩
  · rw [he]
  · rw [ht, hs, ht', hs']

theorem createTarget (h : SameButFree k k') (entry : Word) :
    k'.createTarget entry = k.createTarget entry := by
  rw [Kernel.createTarget, Kernel.createTarget, h.freeSlot]

/-- A process with a stack is in none of the slots that differ. -/
theorem cur (h : SameButFree k k') (hs : k.cur.hasStack = true ∨ k'.cur.hasStack = true) :
    k'.cur = k.cur := by
  rw [Kernel.cur, h.current]
  rw [Kernel.cur, Kernel.cur, h.current] at hs
  rcases h.pcbs k.current with he | ⟨⟨-, hf⟩, -, hf'⟩
  · exact he
  · simp [hf, hf'] at hs

theorem forkTarget (h : SameButFree k k') : k'.forkTarget = k.forkTarget := by
  have hs : k'.cur.hasStack = k.cur.hasStack := by
    by_cases hs : k.cur.hasStack = true ∨ k'.cur.hasStack = true
    · rw [h.cur hs]
    · simp only [not_or, Bool.not_eq_true] at hs
      rw [hs.1, hs.2]
  rw [Kernel.forkTarget, Kernel.forkTarget, hs, h.pmm, h.freeSlot]

end SameButFree

/-- The kernel had the slot never been used. -/
def clearSlot (k : Kernel) (p : PcbRef) : Kernel :=
  { k with pcbs := Function.update k.pcbs p emptyPcb }

theorem clearSlot_same (k : Kernel) {p : PcbRef}
    (hp : (k.pcbs p).state = .terminated ∧ (k.pcbs p).hasStack = false) :
    k.SameButFree (k.clearSlot p) := by
  refine ⟨rfl, fun q => ?_⟩
  by_cases hq : q = p
  · subst hq
    right
    have cleared : (k.clearSlot q).pcbs q = emptyPcb := Function.update_self _ _ _
    rw [cleared]
    exact ⟨hp, rfl, rfl⟩
  · left
    exact Function.update_of_ne hq _ _

end Kernel

namespace CreateCall

/-- The PCB that the call creates. -/
def created (k : Kernel) : CreateCall → Option PcbRef
  | .process entry name => (k.processCreateNamed entry name).1
  | .thread entry arg name => (k.threadCreateNamed entry arg name).1
  | .fork _ => k.forkTarget

/-- The profile of the process that the call creates. -/
def outcome (k : Kernel) (c : CreateCall) : Option Profile :=
  (c.created k).map fun p => ((c.run k).pcbs p).profile

/-- The call creates the same process in both kernels, or none in both. -/
def LeakFree (k k' : Kernel) (c : CreateCall) : Prop := c.outcome k' = c.outcome k

/-- What the call takes over without writing it is the same in both kernels: for a
thread its creator's two priorities, for a child the fields that
`scheduler_fork` does not write. -/
def SameInherited (k k' : Kernel) : CreateCall → Prop
  | .process _ _ => True
  | .thread entry _ _ => k.createTarget entry ≠ none → k.pmm.pmmAllocFrame.1 ≠ 0#32 →
      k'.cur.priority = k.cur.priority ∧ k'.cur.basePriority = k.cur.basePriority
  | .fork _ => ∀ child, k.forkTarget = some child →
      (k'.pcbs child).profile.unset = (k.pcbs child).profile.unset

theorem outcome_process (k : Kernel) (entry : Word) (name : Option CStr) :
    (CreateCall.process entry name).outcome k =
      if k.createTarget entry = none ∨ k.pmm.pmmAllocFrame.1 = 0#32 then none
      else some (.ofProcess entry) := by
  simp only [outcome, created, run]
  cases ht : k.createTarget entry with
  | none => simp [Kernel.processCreateNamed_none ht]
  | some p =>
    rw [(Kernel.processCreateNamed_spec ht name).2]
    split
    · rename_i hz
      simp [hz]
    · rename_i hz
      simp [hz, Kernel.processCreateNamed_profile ht]

theorem outcome_thread (k : Kernel) (entry arg : Word) (name : Option CStr) :
    (CreateCall.thread entry arg name).outcome k =
      if k.createTarget entry = none ∨ k.pmm.pmmAllocFrame.1 = 0#32 then none
      else some (.ofThread k entry arg) := by
  simp only [outcome, created, run]
  cases ht : k.createTarget entry with
  | none => simp [Kernel.threadCreateNamed_none ht]
  | some p =>
    rw [(Kernel.threadCreateNamed_spec ht arg name).2]
    split
    · rename_i hz
      simp [hz]
    · rename_i hz
      simp [hz, Kernel.threadCreateNamed_profile ht]

theorem outcome_fork (k : Kernel) (contextEsp : Word) :
    (CreateCall.fork contextEsp).outcome k =
      k.forkTarget.map fun child => .ofFork k.cur (k.pcbs child).profile := by
  simp only [outcome, created, run]
  cases ht : k.forkTarget with
  | none => rfl
  | some child => simp [Kernel.schedulerFork_profile ht]

/-- **A slot leaks into its next process through `scheduler_fork` only.** In two
kernels that differ in free slots alone, a creating call makes the same process
exactly when what it inherits without writing it is the same. -/
theorem leakFree_iff {k k' : Kernel} (h : k.SameButFree k') (c : CreateCall) :
    c.LeakFree k k' ↔ c.SameInherited k k' := by
  cases c with
  | process entry name =>
    rw [LeakFree, outcome_process, outcome_process, h.createTarget, h.pmm]
    exact iff_of_true rfl trivial
  | thread entry arg name =>
    rw [LeakFree, outcome_thread, outcome_thread, h.createTarget, h.pmm]
    by_cases hn : k.createTarget entry = none ∨ k.pmm.pmmAllocFrame.1 = 0#32
    · rw [if_pos hn, if_pos hn]
      refine iff_of_true rfl fun ht hz => ?_
      rcases hn with hn | hn
      · exact absurd hn ht
      · exact absurd hn hz
    · rw [if_neg hn, if_neg hn]
      rw [not_or] at hn
      simp [SameInherited, Profile.ofThread, h.nextTid, h.current, hn.1, hn.2]
  | fork contextEsp =>
    rw [LeakFree, outcome_fork, outcome_fork, h.forkTarget]
    cases ht : k.forkTarget with
    | none => simp [SameInherited, ht]
    | some child =>
      rw [h.cur (.inl (Kernel.forkTarget_some ht).1)]
      simp [SameInherited, ht, Profile.ofFork_inj]

/-! ## A slot that held a thread -/

/-- A process runs and the thread it created has been killed: slot 2 is free again. -/
def threadRun : List Action :=
  [.start, .create 0x20000#32 none, .yield 0x9000#32, .threadCreate 0x30000#32 7#32 none,
    .kill 0x109000#32 2#32]

def afterThread : OsState := OsState.machine.after (OsState.boot OsState.smallBoot) threadRun

theorem afterThread_reached : OsState.Reached OsState.Any afterThread := by
  refine ⟨OsState.smallBoot, ?_⟩
  have run : OsState.machine.Accepts OsState.Any (OsState.boot OsState.smallBoot) threadRun := by
    decide +kernel
  exact Machine.Reach.accepts .start run

/-- The same kernel had slot 2 never been used. -/
def withoutThread : Kernel := afterThread.kernel.clearSlot 2

theorem withoutThread_same : afterThread.kernel.SameButFree withoutThread :=
  Kernel.clearSlot_same _ (by decide +kernel)

/-- The child of a fork into the slot of a killed thread is taken for a thread. -/
theorem fork_leaks :
    OsState.Reached OsState.Any afterThread ∧ afterThread.kernel.SameButFree withoutThread ∧
      ¬ (CreateCall.fork 0x109000#32).LeakFree afterThread.kernel withoutThread := by
  refine ⟨afterThread_reached, withoutThread_same, ?_⟩
  rw [LeakFree, outcome_fork, outcome_fork]
  decide +kernel

theorem leakFree_afterThread :
    (CreateCall.fork 0x109000#32).LeakFree afterThread.kernel withoutThread ↔
      (CreateCall.fork 0x109000#32).SameInherited afterThread.kernel withoutThread :=
  leakFree_iff withoutThread_same _

end CreateCall

end SengOS
