import SengOS.Kernel.Shell

/-!
# The life of a process

A slot is taken by one of the three creating calls and left by `process_exit`
or `scheduler_kill`; no other action starts or ends a process, takes a frame or
gives one back. `process_exit` returns to its caller: the code of the process
goes on until the next interrupt, though its slot is TERMINATED.
-/

namespace SengOS

namespace Kernel

/-- The slot that a creating call fills. -/
def slotTaken (k : Kernel) : Action → Option PcbRef
  | .create entry _ | .threadCreate entry _ _ => k.createTarget entry
  | .fork _ => k.forkTarget
  | _ => none

/-- The slot whose process `process_exit` or `scheduler_kill` ends. -/
def slotLeft (k : Kernel) : Action → Option PcbRef
  | .exit => if k.cur.pid = 0#32 then none else some k.current
  | .kill _ pid => if pid = 0#32 then none else k.processGet pid
  | _ => none

end Kernel

/-- A slot that keeps its process, or that still has none. -/
structure Pcb.SameLife (q q' : Pcb) : Prop where
  terminated : q'.state = .terminated ↔ q.state = .terminated
  hasStack : q'.hasStack = q.hasStack
  stack : q.hasStack = true → q'.stackBase = q.stackBase ∧ q'.stackTop = q.stackTop

namespace Pcb

theorem SameLife.refl (q : Pcb) : q.SameLife q := ⟨.rfl, rfl, fun _ => ⟨rfl, rfl⟩⟩

theorem SameLife.trans {a b c : Pcb} (h : a.SameLife b) (h' : b.SameLife c) : a.SameLife c := by
  refine ⟨h'.terminated.trans h.terminated, h'.hasStack.trans h.hasStack, fun hs => ?_⟩
  have hb := h.stack hs
  have hc := h'.stack (h.hasStack.trans hs)
  exact ⟨hc.1.trans hb.1, hc.2.trans hb.2⟩

theorem Keeps.sameLife {q q' : Pcb} (h : q.Keeps q') : q.SameLife q' :=
  ⟨h.terminated, h.hasStack, fun _ => ⟨h.stackBase, h.stackTop⟩⟩

end Pcb

/-- What an action does to the lives of the processes. -/
inductive Lives (k : Kernel) (a : Action) (k' : Kernel) : Prop
  | rests (taken : k.slotTaken a = none) (left : k.slotLeft a = none)
      (same : ∀ q, (k.pcbs q).SameLife (k'.pcbs q)) (total : k'.processTotal = k.processTotal)
      (pmm : k'.pmm = k.pmm ∨ (k.pmm.pmmAllocFrame.1 = 0#32 ∧ k'.pmm = k.pmm.pmmAllocFrame.2))
  | born (p : PcbRef) (taken : k.slotTaken a = some p) (left : k.slotLeft a = none)
      (free : (k.pcbs p).state = .terminated ∧ (k.pcbs p).hasStack = false)
      (same : ∀ q, q ≠ p → (k.pcbs q).SameLife (k'.pcbs q))
      (ready : (k'.pcbs p).state = .ready) (frame : k.pmm.pmmAllocFrame.1 ≠ 0#32)
      (stack : (k'.pcbs p).hasStack = true ∧ (k'.pcbs p).stackBase = k.pmm.pmmAllocFrame.1 ∧
        (k'.pcbs p).stackTop = k.pmm.pmmAllocFrame.1 + 4096#32)
      (total : k.processTotal < 16 → k'.processTotal = k.processTotal + 1)
      (pmm : k'.pmm = k.pmm.pmmAllocFrame.2)
  | stillborn (p : PcbRef) (taken : k.slotTaken a = some p) (left : k.slotLeft a = none)
      (free : (k.pcbs p).state = .terminated ∧ (k.pcbs p).hasStack = false)
      (same : ∀ q, q ≠ p → (k.pcbs q).SameLife (k'.pcbs q))
      (ready : (k'.pcbs p).state = .ready) (frame : k.pmm.pmmAllocFrame.1 = 0#32)
      (stack : (k'.pcbs p).hasStack = false) (total : k'.processTotal = k.processTotal)
      (pmm : k'.pmm = k.pmm.pmmAllocFrame.2)
  | ended (p : PcbRef) (taken : k.slotTaken a = none) (left : k.slotLeft a = some p)
      (same : ∀ q, q ≠ p → (k.pcbs q).SameLife (k'.pcbs q))
      (terminated : (k'.pcbs p).state = .terminated) (stack : (k'.pcbs p).hasStack = false)
      (total : k'.processTotal = k.processTotal - 1)
      (pmm : k'.pmm = if (k.pcbs p).hasStack then k.pmm.pmmFreeFrame (k.pcbs p).stackBase else k.pmm)

/-- Code of the locks starts and ends no process. -/
theorem LockFrame.lives {k k' : Kernel} (h : LockFrame k k') {a : Action}
    (ha : k.slotTaken a = none ∧ k.slotLeft a = none) : Lives k a k' :=
  .rests ha.1 ha.2 (fun q => (h.pcbs q).sameLife) h.processTotal (.inl h.pmm)

namespace Kernel

section Calls
variable {k : Kernel} {p : PcbRef}

theorem giveStack_total (k : Kernel) (p : PcbRef) (name : Option CStr) (default : List Byte) :
    (giveStack k p name default).2.processTotal =
      if k.pmm.pmmAllocFrame.1 = 0#32 then k.processTotal else k.processTotal + 1 := by
  unfold giveStack
  dsimp only
  split
  · rfl
  · simp [buildInitialContext]

theorem giveStack_stackless (k : Kernel) (p : PcbRef) (name : Option CStr) (default : List Byte)
    (hz : k.pmm.pmmAllocFrame.1 = 0#32) :
    ((giveStack k p name default).2.pcbs p).hasStack = (k.pcbs p).hasStack := by
  simp [giveStack, hz]

/-- The two creating calls that fill the slot before they ask for a frame. -/
theorem Created.lives {a : Action} {k' k₁ : Kernel} {name : Option CStr} {default : List Byte}
    (hc : Created k p k') (ha : k.slotTaken a = some p ∧ k.slotLeft a = none)
    (hslot : k.freeSlot = some p) (hk : k' = (giveStack k₁ p name default).2)
    (hpmm : k₁.pmm = k.pmm) (htotal : k₁.processTotal = k.processTotal)
    (hstack : (k₁.pcbs p).hasStack = (k.pcbs p).hasStack) : Lives k a k' := by
  have hfree := (freeSlot_some hslot).2
  have hsame : ∀ q, q ≠ p → (k.pcbs q).SameLife (k'.pcbs q) := fun q hq => by
    rw [hc.others q hq]
    exact .refl _
  have hcount := giveStack_total k₁ p name default
  rw [hpmm, htotal, ← hk] at hcount
  by_cases hz : k.pmm.pmmAllocFrame.1 = 0#32
  · have hnone := giveStack_stackless k₁ p name default (by rw [hpmm]; exact hz)
    rw [← hk, hstack, hfree.2] at hnone
    rw [if_pos hz] at hcount
    exact .stillborn p ha.1 ha.2 hfree hsame hc.ready hz hnone hcount hc.pmm
  · obtain ⟨hs, hb, ht, _⟩ := hc.stack hz
    rw [if_neg hz] at hcount
    exact .born p ha.1 ha.2 hfree hsame hc.ready hz ⟨hs, hb, ht⟩ (fun _ => hcount) hc.pmm

theorem processCreateNamed_lives (k : Kernel) (entry : Word) (name : Option CStr) :
    Lives k (.create entry name) (k.processCreateNamed entry name).2 := by
  cases hp : k.createTarget entry with
  | none =>
    rw [processCreateNamed_none hp]
    exact .rests hp rfl (fun _ => .refl _) rfl (.inl rfl)
  | some p =>
    obtain ⟨hz, hslot⟩ := createTarget_some hp
    have hk : (k.processCreateNamed entry name).2 = (giveStack
        { k.modify p (k.newProcess entry) with nextPid := k.nextPid + 1#32 } p name
        defaultProcessName).2 := by
      simp only [processCreateNamed, if_neg hz, hslot]
    refine (processCreateNamed_spec hp name).1.lives ⟨hp, rfl⟩ hslot hk rfl rfl ?_
    simp [newProcess]

theorem threadCreateNamed_lives (k : Kernel) (entry arg : Word) (name : Option CStr) :
    Lives k (.threadCreate entry arg name) (k.threadCreateNamed entry arg name).2 := by
  cases hp : k.createTarget entry with
  | none =>
    rw [threadCreateNamed_none hp]
    exact .rests hp rfl (fun _ => .refl _) rfl (.inl rfl)
  | some p =>
    obtain ⟨hz, hslot⟩ := createTarget_some hp
    have hk : (k.threadCreateNamed entry arg name).2 = (giveStack
        { k.modify p (k.newThread entry arg) with
          nextPid := k.nextPid + 1#32
          nextTid := k.nextTid + 1#32 } p name defaultThreadName).2 := by
      simp only [threadCreateNamed, if_neg hz, hslot]
    refine (threadCreateNamed_spec hp arg name).1.lives ⟨hp, rfl⟩ hslot hk rfl rfl ?_
    simp [newThread]

theorem schedulerFork_total {child : PcbRef} (h : k.forkTarget = some child) (contextEsp : Word)
    (hlt : k.processTotal < 16) :
    (k.schedulerFork contextEsp).2.processTotal = k.processTotal + 1 := by
  obtain ⟨pastTable, heq⟩ := forkInto_eq (k.takeStack child) contextEsp child k.pmm.pmmAllocFrame.1
  rw [schedulerFork_eq h, heq]
  exact if_pos hlt

/-- A fork that fails touches only a slot without a stack. -/
theorem schedulerFork_refused_same (h : k.forkTarget = none) (contextEsp : Word) (q : PcbRef) :
    (k.pcbs q).SameLife ((k.schedulerFork contextEsp).2.pcbs q) := by
  unfold schedulerFork
  split
  · dsimp only
    split <;> exact .refl _
  · rename_i hs
    split
    · exact .refl _
    · rename_i child hc
      have hz : k.pmm.pmmAllocFrame.1 = 0#32 := by
        by_contra hz
        simp [forkTarget, hs, hz, hc] at h
      have hnone := (freeSlot_some hc).2.2
      dsimp only
      rw [if_pos hz]
      simp only [setEax, modify_pcbs]
      split
      · rename_i hq
        subst hq
        exact ⟨.rfl, rfl, fun hs => absurd hs (by rw [hnone]; decide)⟩
      · exact .refl _

theorem schedulerFork_lives (k : Kernel) (contextEsp : Word) :
    Lives k (.fork contextEsp) (k.schedulerFork contextEsp).2 := by
  cases hc : k.forkTarget with
  | none =>
    have hr := schedulerFork_refused hc contextEsp
    exact .rests hc rfl (schedulerFork_refused_same hc contextEsp) hr.processTotal hr.pmm
  | some child =>
    have hf := schedulerFork_spec hc contextEsp
    obtain ⟨_, hz, hslot⟩ := forkTarget_some hc
    obtain ⟨hs, hb, ht, _⟩ := hf.stack
    refine .born child hc rfl (freeSlot_some hslot).2 (fun q hq => ?_) hf.ready hz ⟨hs, hb, ht⟩
      (schedulerFork_total hc contextEsp) hf.pmm
    rw [hf.others q hq]
    exact ⟨.rfl, rfl, fun _ => ⟨rfl, rfl⟩⟩

theorem processExit_lives (k : Kernel) : Lives k .exit k.processExit := by
  by_cases hp : k.cur.pid = 0#32
  · rw [processExit, if_pos hp]
    exact .rests rfl (if_pos hp) (fun _ => .refl _) rfl (.inl rfl)
  · have hends := (processExit_spec k hp).1
    refine .ended k.current rfl (if_neg hp) (fun q hq => ?_) hends.terminated ?_ ?_ ?_
    · rw [hends.others q hq]
      exact .refl _
    · simp [processExit, hp, processDecrementCount]
    · simp [processExit, hp, processDecrementCount]
    · rw [processExit, if_neg hp]
      rfl

theorem Dispatched.sameLife {contextEsp esp : Word} {k' : Kernel} {woken : List PcbRef}
    (h : Dispatched k contextEsp esp k' woken) (q : PcbRef) : (k.pcbs q).SameLife (k'.pcbs q) :=
  ⟨h.terminated q, (h.body q).hasStack, fun _ => ⟨(h.body q).stackBase, (h.body q).stackTop⟩⟩

theorem killTarget_lives (contextEsp : Word) {pid : Word} (hp : k.processGet pid = some p)
    (hz : pid ≠ 0#32) :
    Lives k (.kill contextEsp pid) ((k.killTarget p).setEax contextEsp 0#32) := by
  have hends := (killTarget_spec k p).1
  have hleft : k.slotLeft (.kill contextEsp pid) = some p := by
    rw [slotLeft, if_neg hz, hp]
  refine .ended p rfl hleft (fun q hq => ?_) hends.terminated ?_ ?_ ?_
  · rw [show ((k.killTarget p).setEax contextEsp 0#32).pcbs q = k.pcbs q from hends.others q hq]
    exact .refl _
  all_goals simp [setEax, killTarget, processDecrementCount, sleepQueueRemove, killed]

end Calls

end Kernel

/-- The caller ends and the dispatcher takes over. -/
theorem Lives.dispatched {k k₁ k' : Kernel} {a : Action} {p : PcbRef} (h : Lives k a k₁) {contextEsp esp : Word}
    {woken : List PcbRef} (hd : Kernel.Dispatched k₁ contextEsp esp k' woken) (hp : k.slotLeft a = some p) :
    Lives k a k' := by
  cases h with
  | rests taken left same total pmm => rw [hp] at left; cases left
  | born q taken left free same ready frame stack total pmm => rw [hp] at left; cases left
  | stillborn q taken left free same ready frame stack total pmm => rw [hp] at left; cases left
  | ended q taken left same terminated stack total pmm =>
    refine .ended q taken left (fun r hr => (same r hr).trans (hd.sameLife r))
      ((hd.terminated q).mpr terminated) ?_ (hd.processTotal.trans total) (hd.pmm.trans pmm)
    rw [(hd.body q).hasStack, stack]

namespace OsState

/-- The process on the CPU has ended, or its slot holds a process that it made
itself since; its code goes on. -/
def Late (s : OsState) (a : Action) : Prop :=
  (s.kernel.cur.state = .terminated ∨ s.kernel.cur.state = .ready) ∧ s.here = .run ∧
    match a with
    | .create _ _ | .threadCreate _ _ _ | .exit => True
    | .fork contextEsp | .kill contextEsp _ => contextEsp ≠ 0#32
    | _ => False

instance (s : OsState) (a : Action) : Decidable (s.Late a) := by
  apply Action.casesOn (motive := fun a => Decidable (s.Late a)) a <;> intros <;>
    unfold Late <;> infer_instance

/-- The system with the code that runs behind a `process_exit`. -/
def lateMachine : Machine OsState Action := ⟨fun s a => s.Enabled a ∨ s.Late a, next⟩

instance (s : OsState) (a : Action) : Decidable (lateMachine.enabled s a) :=
  inferInstanceAs (Decidable (s.Enabled a ∨ s.Late a))

section
variable {s : OsState}

theorem late_shell (h : s.ShellInv) {a : Action} (hl : s.Late a) : (s.next a).ShellInv := by
  obtain ⟨_, _, ha⟩ := hl
  cases a with
  | create entry name =>
    refine h.creating (fun hn => ?_) (fun p hp => (Kernel.processCreateNamed_spec hp name).1)
    rw [Kernel.processCreateNamed_none hn]
  | threadCreate entry arg name =>
    refine h.creating (fun hn => ?_) (fun p hp => (Kernel.threadCreateNamed_spec hp arg name).1)
    rw [Kernel.threadCreateNamed_none hn]
  | fork contextEsp => exact h.fork contextEsp
  | kill contextEsp pid => exact h.kill ha pid
  | exit => exact h.exit
  | _ => cases ha

theorem lateStep_shell (h : s.ShellInv) (a : Action) (he : lateMachine.enabled s a) :
    (s.next a).ShellInv := by
  rcases he with he | hl
  · exact step_shell h a he
  · exact late_shell h hl

theorem creating_kernel (entry : Word) (created : Option PcbRef × Kernel) :
    (s.creating entry created).kernel = created.2 := by
  unfold creating
  split <;> rfl

theorem next_fork_kernel (contextEsp : Word) :
    (s.next (.fork contextEsp)).kernel = (s.kernel.schedulerFork contextEsp).2 := by
  simp only [next]
  split <;> rfl

theorem kill_lives (h : s.ShellInv) {contextEsp : Word} (hctx : contextEsp ≠ 0#32) (pid : Word) :
    Lives s.kernel (.kill contextEsp pid) (s.next (.kill contextEsp pid)).kernel := by
  simp only [next]
  rcases Kernel.schedulerKill_cases s.kernel contextEsp pid with ⟨hno, hk⟩ | ⟨p, hp, hz, hcase⟩
  · rw [hk]
    have hleft : s.kernel.slotLeft (.kill contextEsp pid) = none := by
      simp only [Kernel.slotLeft]
      split
      · rfl
      · rename_i hz
        exact hno.resolve_right hz
    exact .rests rfl hleft (fun _ => .refl _) rfl (.inl rfl)
  · have hlives := Kernel.killTarget_lives contextEsp hp hz
    rcases hcase with ⟨_, hk⟩ | ⟨_, hk⟩ <;> rw [hk]
    · exact hlives
    · obtain ⟨woken, hd⟩ := Kernel.dispatch_spec (h.killed hp hz contextEsp).ready hctx false
      exact hlives.dispatched hd (by rw [Kernel.slotLeft, if_neg hz, hp])

theorem sleep_lives (hr : s.kernel.cur.state ≠ .terminated) (ms : Word) :
    Lives s.kernel (.sleep ms) (s.kernel.sleep ms) := by
  refine .rests rfl rfl (fun q => (Kernel.sleep_keeps hr ms q).sameLife) ?_ ?_
  all_goals rcases Kernel.sleep_cases s.kernel ms with hk | ⟨_, _, _, hk, _⟩ <;> rw [hk]
  all_goals first | rfl | exact .inl rfl

/-- Every action leaves the lives of the processes alone, or starts one, or ends one. -/
theorem next_lives (h : s.ShellInv) (a : Action) (he : lateMachine.enabled s a) :
    Lives s.kernel a (s.next a).kernel := by
  cases a with
  | create entry name =>
    simp only [next, creating_kernel]
    exact Kernel.processCreateNamed_lives _ entry name
  | threadCreate entry arg name =>
    simp only [next, creating_kernel]
    exact Kernel.threadCreateNamed_lives _ entry arg name
  | fork contextEsp =>
    rw [next_fork_kernel]
    exact Kernel.schedulerFork_lives _ contextEsp
  | kill contextEsp pid =>
    refine kill_lives h ?_ pid
    rcases he with he | hl
    · exact he.1
    · exact hl.2.2
  | exit => exact Kernel.processExit_lives _
  | start => exact .rests rfl rfl (fun _ => .refl _) rfl (.inl rfl)
  | tick contextEsp =>
    have he := he.resolve_right fun hl => hl.2.2
    obtain ⟨woken, hd⟩ := Kernel.dispatch_spec h.ready he true
    simp only [next, Kernel.schedulerTick]
    cases s.kernel.timerStarted with
    | false => exact .rests rfl rfl (fun _ => .refl _) rfl (.inl rfl)
    | true => exact .rests rfl rfl hd.sameLife hd.processTotal (.inl hd.pmm)
  | yield contextEsp =>
    have he := he.resolve_right fun hl => hl.2.2
    obtain ⟨woken, hd⟩ := Kernel.dispatch_spec h.ready he.1 false
    exact .rests rfl rfl hd.sameLife hd.processTotal (.inl hd.pmm)
  | sleep ms =>
    have he := he.resolve_right fun hl => hl.2.2
    exact sleep_lives (by rw [he.1]; decide) ms
  | blockForever =>
    have he := he.resolve_right fun hl => hl.2.2
    exact (Kernel.blockForever_frame _ (by rw [he.1]; decide)).lives ⟨rfl, rfl⟩
  | wake p =>
    cases p with
    | none => exact (LockFrame.refl _).lives ⟨rfl, rfl⟩
    | some p => exact (Kernel.wake_frame _ p).lives ⟨rfl, rfl⟩
  | mutexInit m => exact (Kernel.lazyInit_frame _ (.mutex m)).lives ⟨rfl, rfl⟩
  | semInit i c => exact (Kernel.setSem_frame _ _ _).lives ⟨rfl, rfl⟩
  | rwlockInit r => exact (Kernel.setRwlock_frame _ _ _).lives ⟨rfl, rfl⟩
  | acquire l => exact (LockFrame.refl _).lives ⟨rfl, rfl⟩
  | unlock l => exact (LockFrame.refl _).lives ⟨rfl, rfl⟩
  | proceed =>
    have he := he.resolve_right fun hl => hl.2.2
    exact (h.advance_frame he.1).lives ⟨rfl, rfl⟩

end

end OsState

end SengOS
