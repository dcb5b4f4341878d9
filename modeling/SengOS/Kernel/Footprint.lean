import SengOS.Kernel.Registers

/-!
# What the kernel writes to memory

The process table, the locks and the frame bitmap are the kernel's own variables. Beside
them it writes only to stacks: the first context of a new process, the stack of a forked
child, and the result of a system call in the caller's saved EAX.
-/

namespace SengOS

namespace Kernel

section
variable (k : Kernel) (p : PcbRef)

@[simp] theorem modify_mem (f : Pcb → Pcb) : (k.modify p f).mem = k.mem := rfl
@[simp] theorem setMutex_mem (m : Nat) (v : Mutex) : (k.setMutex m v).mem = k.mem := rfl
@[simp] theorem setSem_mem (s : Nat) (v : Semaphore) : (k.setSem s v).mem = k.mem := rfl
@[simp] theorem setRwlock_mem (r : Nat) (v : Rwlock) : (k.setRwlock r v).mem = k.mem := rfl
@[simp] theorem ownerAdd_mem (m : Nat) : (k.ownerAdd p m).mem = k.mem := rfl
@[simp] theorem ownerRemove_mem (m : Nat) : (k.ownerRemove p m).mem = k.mem := rfl
@[simp] theorem addReader_mem (r : Nat) : (k.addReader r p).mem = k.mem := rfl
@[simp] theorem sleepQueueRemove_mem : (k.sleepQueueRemove p).mem = k.mem := rfl
@[simp] theorem killTarget_mem : (k.killTarget p).mem = k.mem := rfl

@[simp] theorem blockForever_mem : k.schedulerBlockForever.mem = k.mem := by
  unfold schedulerBlockForever
  split <;> rfl

@[simp] theorem wake_mem : (k.schedulerWake p).mem = k.mem := by
  unfold schedulerWake
  split <;> rfl

@[simp] theorem raiseTo_mem (w : PcbRef) : (raiseTo p k w).mem = k.mem := by
  unfold raiseTo
  split <;> rfl

@[simp] theorem processExit_mem : k.processExit.mem = k.mem := by
  unfold processExit
  split <;> rfl

@[simp] theorem settle_mem (l : Lock) : (k.settle l).mem = k.mem := by
  cases l <;> rfl

end

/-! ## The locks -/

theorem raiseAll_mem (k : Kernel) (p : PcbRef) (ws : List PcbRef) :
    (ws.foldl (raiseTo p) k).mem = k.mem := by
  induction ws generalizing k with
  | nil => rfl
  | cons w ws ih => rw [List.foldl_cons, ih, raiseTo_mem]

theorem admitReaders_mem (k : Kernel) (r : Nat) (ps : List PcbRef) :
    (ps.foldl (admitReader r) k).mem = k.mem := by
  induction ps generalizing k with
  | nil => rfl
  | cons p ps ih => rw [List.foldl_cons, ih, admitReader, wake_mem, addReader_mem]

@[simp] theorem recomputePriority_mem (k : Kernel) (p : PcbRef) : (k.recomputePriority p).mem = k.mem :=
  raiseAll_mem _ p _

theorem propagatePriority_mem (k : Kernel) (guard : Nat) (p : PcbRef) :
    (k.propagatePriority guard p).mem = k.mem := by
  induction guard generalizing k p with
  | zero => rfl
  | succ guard ih =>
    unfold propagatePriority
    split
    · rfl
    · split
      · rfl
      · rw [ih, raiseTo_mem]

@[simp] theorem boostOwner_mem (k : Kernel) (m : Nat) : (k.boostOwner m).mem = k.mem := by
  unfold boostOwner
  split
  · rfl
  · split
    · rw [propagatePriority_mem, raiseTo_mem]
    · rfl

@[simp] theorem lazyInit_mem (k : Kernel) (l : Lock) : (k.lazyInit l).mem = k.mem := by
  cases l with
  | mutex m =>
    unfold lazyInit mutexInit
    dsimp only
    split <;> rfl
  | _ => rfl

@[simp] theorem attempt_mem (k : Kernel) (l : Lock) : (k.attempt l).2.mem = k.mem := by
  cases l with
  | mutex m =>
    unfold attempt mutexAttempt
    dsimp only
    split
    · rfl
    · split
      · rfl
      · simp only [blockForever_mem, boostOwner_mem, modify_mem, setMutex_mem]
  | sem s =>
    unfold attempt semAttempt
    dsimp only
    split
    · rfl
    · split
      · rfl
      · simp only [blockForever_mem, setSem_mem]
  | read r =>
    unfold attempt readAttempt
    dsimp only
    split
    · rfl
    · simp only [blockForever_mem, setRwlock_mem]
  | write r =>
    unfold attempt writeAttempt
    dsimp only
    split
    · rfl
    · simp only [blockForever_mem, setRwlock_mem]

@[simp] theorem release_mem (k : Kernel) (l : Lock) : (k.release l).mem = k.mem := by
  cases l with
  | mutex m =>
    unfold release mutexRelease
    dsimp only
    split
    · simp only [recomputePriority_mem, setMutex_mem, ownerRemove_mem]
    · simp only [recomputePriority_mem, wake_mem, ownerAdd_mem, modify_mem, setMutex_mem, ownerRemove_mem]
  | sem s =>
    unfold release semRelease
    dsimp only
    split
    · rfl
    · simp only [wake_mem, setSem_mem]
  | read r =>
    unfold release readRelease
    dsimp only
    split
    · split
      · rfl
      · simp only [wake_mem, setRwlock_mem, modify_mem]
    · rfl
  | write r =>
    unfold release writeRelease
    dsimp only
    split
    · simp only [wake_mem, setRwlock_mem]
    · rw [admitReaders_mem, setRwlock_mem]

theorem advance_mem (k : Kernel) (point : Point) : (k.advance point).2.mem = k.mem := by
  unfold advance
  split
  · exact lazyInit_mem _ _
  · rename_i l
    have hmem := attempt_mem k l
    split <;> rename_i heq <;> rw [heq] at hmem <;> exact hmem
  · split
    · exact settle_mem _ _
    · rfl
  · rfl
  · exact release_mem _ _
  · rfl

/-! ## The scheduler -/

theorem wakeSleepersLoop_mem (k : Kernel) (q : List PcbRef) : (wakeSleepersLoop k q).mem = k.mem := by
  induction q generalizing k with
  | nil => rfl
  | cons index q ih =>
    unfold wakeSleepersLoop
    split
    · rfl
    · rw [ih, modify_mem]

theorem suspendCurrent_mem (k : Kernel) (contextEsp : Word) (countTick : Bool) :
    (k.suspendCurrent contextEsp countTick).mem = k.mem := by
  unfold suspendCurrent
  split <;> rfl

theorem switchTo_mem (k : Kernel) (next : PcbRef) : (k.switchTo next).mem = k.mem := by
  rw [switchTo_eq]

theorem choose_mem (k : Kernel) (contextEsp : Word) : (k.choose contextEsp).2.mem = k.mem := by
  unfold choose
  dsimp only
  split
  · rfl
  · exact switchTo_mem _ _

/-- A dispatch reads the frame that it saves, and writes no memory. -/
@[simp] theorem dispatch_mem (k : Kernel) (contextEsp : Word) (countTick : Bool) :
    (k.dispatch contextEsp countTick).2.mem = k.mem := by
  rw [dispatch, choose_mem, suspendCurrent_mem]
  cases countTick with
  | false => rfl
  | true => exact wakeSleepersLoop_mem _ _

theorem sleep_mem (k : Kernel) (ms : Word) : (k.sleep ms).mem = k.mem := by
  rcases k.sleep_cases ms with hk | ⟨_, _, _, hk, _⟩ <;> rw [hk]
  rfl

/-! ## New stacks -/

/-- The frame that `build_initial_context` writes lies at the end of the new stack. -/
theorem giveStack_mem (k : Kernel) (p : PcbRef) (name : Option CStr) (default : List Byte) :
    (giveStack k p name default).2.mem = if k.pmm.pmmAllocFrame.1 = 0#32 then k.mem
      else ((initialFrame k.bootstrap).foldl push (k.mem, k.pmm.pmmAllocFrame.1 + 4096#32)).1 := by
  unfold giveStack
  dsimp only
  split
  · rfl
  · simp only [buildInitialContext, modify_pcbs_self]
    rfl

/-- The memory after a creating call that has found a slot. -/
def createMem (k : Kernel) : Memory :=
  if k.pmm.pmmAllocFrame.1 = 0#32 then k.mem
  else ((initialFrame k.bootstrap).foldl push (k.mem, k.pmm.pmmAllocFrame.1 + 4096#32)).1

theorem processCreateNamed_mem {k : Kernel} {entry : Word} {p : PcbRef}
    (h : k.createTarget entry = some p) (name : Option CStr) :
    (k.processCreateNamed entry name).2.mem = k.createMem := by
  obtain ⟨hz, hp⟩ := createTarget_some h
  simp only [processCreateNamed, if_neg hz, hp, giveStack_mem]
  rfl

theorem threadCreateNamed_mem {k : Kernel} {entry : Word} {p : PcbRef}
    (h : k.createTarget entry = some p) (arg : Word) (name : Option CStr) :
    (k.threadCreateNamed entry arg name).2.mem = k.createMem := by
  obtain ⟨hz, hp⟩ := createTarget_some h
  simp only [threadCreateNamed, if_neg hz, hp, giveStack_mem]
  rfl

/-- A fork that fails reports it to the caller. -/
theorem schedulerFork_refused_mem {k : Kernel} (h : k.forkTarget = none) {contextEsp : Word}
    (hctx : contextEsp ≠ 0#32) :
    (k.schedulerFork contextEsp).2.mem = k.mem.storeWord (contextEsp + 28#32) (-1#32) := by
  unfold schedulerFork
  split
  · rfl
  · rename_i hs
    split
    · rfl
    · rename_i child hc
      have hz : k.pmm.pmmAllocFrame.1 = 0#32 := by
        by_contra hz
        simp [forkTarget, hs, hz, hc] at h
      dsimp only
      rw [if_pos hz]
      rfl

theorem schedulerKill_mem (k : Kernel) (contextEsp pid : Word) :
    (k.schedulerKill contextEsp pid).2.mem = k.mem.storeWord (contextEsp + 28#32)
      (if k.slotLeft (.kill contextEsp pid) = none then -1#32 else 0#32) := by
  have hleft : k.slotLeft (.kill contextEsp pid) = if pid = 0#32 then none else k.processGet pid := rfl
  rw [hleft]
  unfold schedulerKill
  split
  · rename_i hnone
    rw [hnone, ite_self, if_pos rfl]
    rfl
  · rename_i p hp
    rw [hp]
    split
    · rw [if_pos rfl]
      rfl
    · rw [if_neg (Option.some_ne_none p)]
      dsimp only
      split
      · rfl
      · rw [dispatch_mem]
        rfl

end Kernel

namespace OsState

variable {s : OsState}

/-- The actions that write to memory. -/
def Writes : Action → Bool
  | .create _ _ | .threadCreate _ _ _ | .fork _ | .kill _ _ => true
  | _ => false

theorem next_mem (a : Action) (h : Writes a = false) : (s.next a).kernel.mem = s.kernel.mem := by
  cases a with
  | tick contextEsp =>
    simp only [next, Kernel.schedulerTick]
    split
    · rfl
    · exact Kernel.dispatch_mem _ _ _
  | yield contextEsp => exact Kernel.dispatch_mem _ _ _
  | sleep ms => exact Kernel.sleep_mem _ _
  | blockForever => exact Kernel.blockForever_mem _
  | wake p =>
    cases p with
    | none => rfl
    | some p => exact Kernel.wake_mem _ _
  | exit => exact Kernel.processExit_mem _
  | mutexInit m => exact Kernel.lazyInit_mem _ (.mutex m)
  | proceed => exact Kernel.advance_mem _ _
  | create entry name => cases h
  | threadCreate entry arg name => cases h
  | fork contextEsp => cases h
  | kill contextEsp pid => cases h
  | _ => rfl

/-- The creating calls write the first context of the new process. -/
theorem creating_mem {entry : Word} {created : Option PcbRef × Kernel}
    (hnone : s.kernel.createTarget entry = none → created.2 = s.kernel)
    (hsome : ∀ p, s.kernel.createTarget entry = some p → created.2.mem = s.kernel.createMem) :
    (s.creating entry created).kernel.mem =
      if s.kernel.createTarget entry = none then s.kernel.mem else s.kernel.createMem := by
  rw [creating_kernel]
  split
  · rename_i hn
    rw [hnone hn]
  · rename_i hs
    obtain ⟨p, hp⟩ := Option.ne_none_iff_exists'.mp hs
    exact hsome p hp

end OsState

end SengOS
