import SengOS.Kernel.Levels
import SengOS.Kernel.MutexProtocol

/-!
# Priority inheritance of the mutexes

Runs of the mutex calls with ticks and yields, among processes of any base
priority. `Keeps` says which steps leave the inheritance alone; in a run of such
steps the owner of a mutex is at least as urgent as each of its waiters. A tick
that demotes an owner is a step that does not.
-/

namespace SengOS

/-- What a run of the system does, and the assignment by which a process sets the priority of
another, as `stage2_priority_demo` does. -/
inductive PrioAction
  | os (a : Action)
  | setPriority (p : PcbRef) (level : Byte)

namespace OsState

def setPriority (s : OsState) (p : PcbRef) (level : Byte) : OsState :=
  { s with kernel := s.kernel.modify p fun q => { q with basePriority := level, priority := level } }

def prioMachine : Machine OsState PrioAction where
  enabled s
    | .os a => s.Enabled a
    | .setPriority p _ => s.Idle ∧ p ≠ 0
  next s
    | .os a => s.next a
    | .setPriority p level => s.setPriority p level

/-- The runs of the mutex calls with any base priorities: a priority is set while nobody waits for
the process and it waits for nobody. -/
def PrioRun (s : OsState) : PrioAction → Prop
  | .os a => s.MutexRun a
  | .setPriority p _ => ∀ w o, s.kernel.WaitsFor w o → w ≠ p ∧ o ≠ p

/-- The steps that leave no owner less urgent than one of its waiters. -/
def Keeps (s : OsState) : PrioAction → Prop
  | .os (.tick _) => s.kernel.timerStarted = true → s.kernel.Demotes →
    ∀ w, s.kernel.WaitsFor w s.kernel.current → s.kernel.level s.kernel.current < s.kernel.level w
  | .os .proceed => ∀ m, s.here = .release (.mutex m) → s.kernel.PassesOn m
  | _ => True

section
variable {s : OsState} {k : Kernel}

theorem MutexInv.alive (h : s.MutexInv) {p : PcbRef} (hp : s.InMutex p) :
    (s.kernel.pcbs p).state ≠ .terminated := by
  obtain ⟨m, ho | hw⟩ := hp
  · exact ((h.mutex m).owner p ho).1
  · rw [((h.mutex m).waiter p hw).2.1]
    decide

theorem MutexInv.waiters_blocked (h : s.MutexInv) (m : Nat) (w : PcbRef)
    (hw : w ∈ (s.kernel.mutexes m).waiters) :
    (s.kernel.pcbs w).state = .blocked ∧ w ∉ s.kernel.sleepQueue :=
  ⟨((h.mutex m).waiter w hw).2.1, h.waiter_not_asleep hw⟩

/-- A step that keeps the mutexes and the levels of the processes in them. -/
theorem inherits_kept (h : s.kernel.Inherits) (hm : SameMutexes s.kernel k)
    (hl : ∀ p, s.InMutex p → k.level p = s.kernel.level p) : k.Inherits := by
  apply Inherited.congr h
  · rintro w o ⟨m, ho, hw⟩
    rw [(hm m).2.1] at ho
    rw [(hm m).2.2] at hw
    exact ⟨m, ho, hw⟩
  · rintro w o ⟨m, ho, hw⟩
    exact ⟨hl w ⟨m, .inr hw⟩, hl o ⟨m, .inl ho⟩⟩

/-- A new process takes the slot of an ended one, which is in no mutex. -/
theorem inherits_born (h : s.kernel.Inherits) (hi : s.MutexInv) {p : PcbRef}
    (hp : (s.kernel.pcbs p).state = .terminated) (hlocks : k.locks = s.kernel.locks)
    (hothers : ∀ q, q ≠ p → k.level q = s.kernel.level q) : k.Inherits := by
  apply inherits_kept h (.of_locks hlocks)
  intro q hq
  apply hothers q
  rintro rfl
  exact hi.alive hq hp

theorem inherits_creating (h : s.kernel.Inherits) (hi : s.MutexInv) {entry : Word}
    {created : Option PcbRef × Kernel}
    (hnone : s.kernel.createTarget entry = none → created.2 = s.kernel)
    (hsome : ∀ p, s.kernel.createTarget entry = some p → Kernel.Created s.kernel p created.2) :
    (s.creating entry created).kernel.Inherits := by
  unfold OsState.creating
  split
  · rename_i hn
    rw [hnone hn]
    exact h
  · rename_i p hp
    have hc := hsome p hp
    have hslot := Kernel.freeSlot_some (Kernel.createTarget_some hp).2
    refine inherits_born h hi hslot.2.1 hc.locks fun q hq => ?_
    exact congrArg (·.priority.toNat) (hc.others q hq)

theorem inherits_fork (h : s.kernel.Inherits) (hi : s.MutexInv) (contextEsp : Word) :
    (s.next (.fork contextEsp)).kernel.Inherits := by
  simp only [next]
  split
  · rename_i hn
    have hf := Kernel.schedulerFork_refused hn contextEsp
    refine inherits_kept h (.of_locks hf.locks) fun p _ => ?_
    unfold Kernel.level
    rcases hf.pcbs p with hq | ⟨_, _, hq⟩ <;> rw [hq]
  · rename_i child hc
    have hf := Kernel.schedulerFork_spec hc contextEsp
    have hslot := Kernel.freeSlot_some (Kernel.forkTarget_some hc).2.2
    refine inherits_born h hi hslot.2.1 hf.locks fun q hq => ?_
    unfold Kernel.level
    rw [hf.others q hq]

/-- A process that is in no mutex ends. -/
theorem inherits_ended (h : s.kernel.Inherits) {p : PcbRef} (hp : ¬ s.InMutex p)
    (he : Kernel.Ended s.kernel p k) : k.Inherits := by
  apply inherits_kept h (.of_locks he.locks)
  intro q hq
  unfold Kernel.level
  rw [he.others q]
  rintro rfl
  exact hp hq

theorem inherits_kill (h : s.kernel.Inherits) (hi : s.MutexInv) (hs : s.ShellInv)
    {contextEsp pid : Word} (hctx : contextEsp ≠ 0#32)
    (hrun : s.MutexRun (.kill contextEsp pid)) :
    (s.next (.kill contextEsp pid)).kernel.Inherits := by
  simp only [next]
  rcases Kernel.schedulerKill_cases s.kernel contextEsp pid with ⟨_, he⟩ | ⟨p, hp, hz, hcase⟩
  · rw [he]
    exact h
  · have hends := (Kernel.killTarget_spec s.kernel p).1
    have hk : (s.kernel.killTarget p).Inherits :=
      inherits_ended h (hrun p hp hz) hends
    rcases hcase with ⟨_, he⟩ | ⟨_, he⟩
    · rw [he]
      exact hk
    · rw [he]
      exact Kernel.dispatch_inherits (hs.killed hp hz contextEsp).ready hctx false hk
        (hi.killed (hrun p hp hz) contextEsp s.esp).waiters_blocked fun h => Bool.noConfusion h

theorem inherits_sleep (h : s.kernel.Inherits) (ms : Word) :
    (s.next (.sleep ms)).kernel.Inherits := by
  apply inherits_kept h (.of_locks (Kernel.sleep_locks _ ms))
  intro p _
  rcases s.kernel.sleep_cases ms with hk | ⟨_, wakeTick, q, hk, _⟩ <;> rw [hk]
  have hlevel : (s.kernel.modify s.kernel.current fun q =>
      { q with wakeTick := wakeTick, state := .blocked }).level = s.kernel.level :=
    Kernel.modify_level rfl
  exact congrFun hlevel p

theorem inherits_proceed (h : s.kernel.Inherits) (hi : s.MutexInv) (he : s.Enabled .proceed)
    (hrun : s.MutexRun .proceed) (hkeeps : s.Keeps (.os .proceed)) :
    (s.next .proceed).kernel.Inherits := by
  have hcur := hi.running_not_waiter he.1
  have hpoint := hi.points s.kernel.current
  rw [show s.point s.kernel.current = s.here from rfl] at hpoint
  show (s.kernel.advance s.here).2.Inherits
  cases hh : s.here with
  | run | full l | wait l => exact h
  | signalInit i => simp [hh, Point.ofMutex] at hpoint
  | init l =>
    cases l with
    | mutex m =>
      apply inherits_kept h
      · exact hi.initialises (hrun.2 m hh)
      · intro p _
        simp only [Kernel.advance, Kernel.lazyInit, Kernel.level, Kernel.mutexInit_pcbs]
    | sem i | read r | write r => simp [hh, Point.ofMutex] at hpoint
  | attempt l =>
    cases l with
    | mutex m =>
      have hinherits : (s.kernel.mutexAttempt m).2.Inherits := by
        apply Kernel.mutexAttempt_inherits h _ hcur
        · intro hfree
          by_contra hne
          have hlocked := (hi.mutex m).locked
          rw [hfree] at hlocked
          exact (hi.mutex m).owned hne (by simpa using hlocked.symm)
        · exact fun n w hw => ((hi.mutex n).waiter w hw).2.2.1
      simp only [Kernel.advance, Kernel.attempt]
      split <;> simp_all
    | sem i | read r | write r => simp [hh, Point.ofMutex] at hpoint
  | check l =>
    simp only [Kernel.advance]
    split
    · cases l with
      | mutex m =>
        apply inherits_kept h
        · exact .of_locks rfl
        · have hlevel : (s.kernel.modify s.kernel.current fun q =>
              { q with waitingMutex := none }).level = s.kernel.level := Kernel.modify_level rfl
          exact fun p _ => congrFun hlevel p
      | sem i | read r | write r => exact h
    · exact h
  | release l =>
    cases l with
    | mutex m => exact Kernel.mutexRelease_inherits h hcur (hkeeps m hh)
    | sem i | read r | write r => simp [hh, Point.ofMutex] at hpoint

/-- What every step of the runs keeps. -/
theorem step_inherits (h : s.kernel.Inherits) (hi : s.MutexInv) (hs : s.ShellInv) {a : Action}
    (he : s.Enabled a) (hrun : s.MutexRun a) (hkeeps : s.Keeps (.os a)) :
    (s.next a).kernel.Inherits := by
  cases a with
  | start | acquire l | unlock l => exact h
  | create entry name =>
    refine inherits_creating h hi (fun hn => ?_) fun p hp => (Kernel.processCreateNamed_spec hp name).1
    rw [Kernel.processCreateNamed_none hn]
  | threadCreate entry arg name =>
    refine inherits_creating h hi (fun hn => ?_) fun p hp => (Kernel.threadCreateNamed_spec hp arg name).1
    rw [Kernel.threadCreateNamed_none hn]
  | fork contextEsp => exact inherits_fork h hi contextEsp
  | tick contextEsp =>
    simp only [next, Kernel.schedulerTick]
    cases ht : s.kernel.timerStarted with
    | false => exact h
    | true =>
      exact Kernel.dispatch_inherits hs.ready he true h hi.waiters_blocked fun _ => hkeeps ht
  | yield contextEsp =>
    exact Kernel.dispatch_inherits hs.ready he.1 false h hi.waiters_blocked fun h => Bool.noConfusion h
  | sleep ms => exact inherits_sleep h ms
  | kill contextEsp pid => exact inherits_kill h hi hs he.1 hrun
  | exit =>
    by_cases hp : s.kernel.cur.pid = 0#32
    · simp only [next, Kernel.processExit, if_pos hp]
      exact h
    · exact inherits_ended h (hrun hp) (Kernel.processExit_spec _ hp).1
  | mutexInit m =>
    apply inherits_kept h (hi.initialises hrun)
    intro p _
    simp only [Kernel.level, Kernel.mutexInit_pcbs]
  | proceed => exact inherits_proceed h hi he hrun hkeeps
  | blockForever | wake p | semInit i c | rwlockInit r => cases hrun

/-! ## The runs -/

theorem setPriority_eq (s : OsState) (p : PcbRef) (level : Byte) : (s.setPriority p level).kernel =
    s.kernel.modify p fun q => { q with basePriority := level, priority := level } := rfl

theorem setPriority_shell (h : s.ShellInv) {p : PcbRef} (hp : p ≠ 0) (level : Byte) :
    (s.setPriority p level).ShellInv := by
  apply h.of_slot
  · rw [setPriority_eq]
    exact Kernel.modify_pcbs_ne _ _ _ hp.symm
  · rfl
  · rfl

theorem setPriority_mutexInv (h : s.MutexInv) (hr : s.kernel.cur.state = .running) (p : PcbRef)
    (level : Byte) : (s.setPriority p level).MutexInv := by
  have hwaits : SameWaits s.kernel (s.setPriority p level).kernel := by
    rw [setPriority_eq]
    exact Kernel.modify_sameWaits ⟨rfl, rfl⟩
  exact h.of_sameWaits (.of_locks rfl) rfl (fun q => ⟨(hwaits q).1, fun _ => (hwaits q).2⟩) hr
    ⟨rfl, rfl, rfl, rfl⟩ rfl

theorem setPriority_inherits (h : s.kernel.Inherits) {p : PcbRef}
    (hp : ∀ w o, s.kernel.WaitsFor w o → w ≠ p ∧ o ≠ p) (level : Byte) :
    (s.setPriority p level).kernel.Inherits := by
  have hothers : ∀ q, q ≠ p → (s.setPriority p level).kernel.level q = s.kernel.level q := by
    intro q hq
    unfold Kernel.level
    rw [setPriority_eq, Kernel.modify_pcbs_ne _ _ _ hq]
  apply Inherited.congr h
  · exact fun _ _ hwo => hwo
  · intro w o hwo
    exact ⟨hothers w (hp w o hwo).1, hothers o (hp w o hwo).2⟩

theorem prioStep_inv (hi : s.ShellInv ∧ s.MutexInv) {a : PrioAction}
    (he : prioMachine.enabled s a) (hrun : s.PrioRun a) :
    (prioMachine.next s a).ShellInv ∧ (prioMachine.next s a).MutexInv := by
  cases a with
  | os a => exact ⟨step_shell hi.1 a he, step_mutex hi.2 hi.1 a he hrun⟩
  | setPriority p level =>
    exact ⟨setPriority_shell hi.1 he.2 level, setPriority_mutexInv hi.2 he.1.1 p level⟩

/-- The states that runs of the mutex calls reach when every step meets `P`. -/
abbrev PrioReached (P : OsState → PrioAction → Prop) (s : OsState) : Prop :=
  ∃ b, prioMachine.Reach P (boot b) s

theorem prioReached_inv {P : OsState → PrioAction → Prop} (hP : ∀ s a, P s a → s.PrioRun a)
    (h : PrioReached P s) : s.ShellInv ∧ s.MutexInv := by
  obtain ⟨b, h⟩ := h
  exact h.invariant ⟨boot_shell b, boot_mutexInv b⟩ fun s a hi he hp => prioStep_inv hi he (hP s a hp)

/-- In every run whose steps keep it, the owner of a mutex is at least as urgent as each of its
waiters. -/
theorem reachable_inherits (h : PrioReached (fun s a => s.PrioRun a ∧ s.Keeps a) s) {m : Nat}
    {owner w : PcbRef} (ho : (s.kernel.mutexes m).owner = some owner)
    (hw : w ∈ (s.kernel.mutexes m).waiters) :
    (s.kernel.pcbs owner).priority ≤ (s.kernel.pcbs w).priority := by
  have hinherits : s.kernel.Inherits := by
    obtain ⟨b, h⟩ := h
    refine (h.invariant (I := fun s => (s.ShellInv ∧ s.MutexInv) ∧ s.kernel.Inherits)
      ⟨⟨boot_shell b, boot_mutexInv b⟩, ?_⟩ ?_).2
    · rintro w o ⟨m, ho, _⟩
      cases ho
    · rintro s a ⟨hi, hin⟩ he ⟨hrun, hkeeps⟩
      refine ⟨prioStep_inv hi he hrun, ?_⟩
      cases a with
      | os a => exact step_inherits hin hi.2 hi.1 he hrun hkeeps
      | setPriority p level => exact setPriority_inherits hin hrun level
  exact hinherits w owner ⟨m, ho, hw⟩

end

instance (s : OsState) : (a : PrioAction) → Decidable (prioMachine.enabled s a)
  | .os a => inferInstanceAs (Decidable (s.Enabled a))
  | .setPriority p _ => inferInstanceAs (Decidable (s.Idle ∧ p ≠ 0))

def ofTimer : Action → Bool
  | .start | .tick _ => true
  | _ => false

/-- The steps that the runs below take. -/
def prioStep (s : OsState) : PrioAction → Bool
  | .os a => ofTimer a || s.lockStep a
  | .setPriority _ _ => false

theorem prioStep_run {s : OsState} {a : PrioAction} (h : s.prioStep a = true) : s.PrioRun a := by
  cases a with
  | os a =>
    simp only [prioStep, Bool.or_eq_true] at h
    rcases h with ht | hl
    · cases a with
      | start | tick contextEsp => trivial
      | _ => cases ht
    · exact lockStep_mutexRun hl
  | setPriority p level => cases h

/-- Those of them after which there is nothing to restore. -/
def boostStep (s : OsState) (a : PrioAction) : Bool :=
  s.prioStep a && match a with
    | .os (.tick _) => false
    | .os .proceed => match s.here with
      | .release _ => false
      | _ => true
    | _ => true

theorem boostStep_keeps {s : OsState} {a : PrioAction} (h : s.boostStep a = true) :
    s.PrioRun a ∧ s.Keeps a := by
  simp only [boostStep, Bool.and_eq_true] at h
  refine ⟨prioStep_run h.1, ?_⟩
  cases a with
  | os a =>
    cases a with
    | tick contextEsp => cases h.2
    | proceed =>
      intro m hm
      have hpoint := h.2
      rw [hm] at hpoint
      cases hpoint
    | _ => trivial
  | setPriority p level => trivial

theorem MutexInv.nobody_waits {s : OsState} (h : s.MutexInv)
    (hw : ∀ w, (s.kernel.pcbs w).waitingMutex = none) (w o : PcbRef) : ¬ s.kernel.WaitsFor w o := by
  rintro ⟨m, _, hm⟩
  have hwaits := ((h.mutex m).waiter w hm).2.2.1
  rw [hw w] at hwaits
  cases hwaits

/-- Process 1 takes mutex 0, and process 2 gets the CPU. -/
def ownRun : List PrioAction :=
  [.os (.create 0x11000#32 none), .os (.create 0x12000#32 none), .os .start, .os (.yield 0x90000#32),
    .os (.acquire (.mutex 0)), .os .proceed, .os .proceed, .os (.yield 0x100F00#32)]

def owned : OsState := prioMachine.after (boot smallBoot) ownRun

/-- Process 2 waits for the mutex. -/
def waitRun : List PrioAction := [.os (.acquire (.mutex 0)), .os .proceed]

/-- The owner was set back to the last level before the other one began to wait. -/
def boosted : OsState := prioMachine.after (prioMachine.next owned (.setPriority 1 2#8)) waitRun

/-- The waiter takes the owner up from its base priority. -/
theorem waitRun_boosts :
    (boosted.kernel.mutexes 0).owner = some 1 ∧ 2 ∈ (boosted.kernel.mutexes 0).waiters ∧
      (boosted.kernel.pcbs 1).basePriority = 2#8 ∧ (boosted.kernel.pcbs 2).priority = 0#8 ∧
      (boosted.kernel.pcbs 1).priority ≤ (boosted.kernel.pcbs 2).priority := by
  have hown : prioMachine.Accepts (fun s a => s.boostStep a = true) (boot smallBoot) ownRun ∧
      (∀ w, (owned.kernel.pcbs w).waitingMutex = none) ∧
      prioMachine.enabled owned (.setPriority 1 2#8) := by
    decide +kernel
  have hwait : prioMachine.Accepts (fun s a => s.boostStep a = true)
        (prioMachine.next owned (.setPriority 1 2#8)) waitRun ∧
      (boosted.kernel.mutexes 0).owner = some 1 ∧ 2 ∈ (boosted.kernel.mutexes 0).waiters ∧
      (boosted.kernel.pcbs 1).basePriority = 2#8 ∧ (boosted.kernel.pcbs 2).priority = 0#8 := by
    decide +kernel
  have hreach : prioMachine.Reach (fun s a => s.PrioRun a ∧ s.Keeps a) (boot smallBoot) owned :=
    .mono (fun _ _ => boostStep_keeps) (.accepts .start hown.1)
  have hinv := prioReached_inv (fun _ _ hp => hp.1) ⟨smallBoot, hreach⟩
  have hnobody := hinv.2.nobody_waits hown.2.1
  have hfree : owned.PrioRun (.setPriority 1 2#8) := fun w o hwo => absurd hwo (hnobody w o)
  have hset := hreach.step (PrioAction.setPriority 1 2#8) hown.2.2 ⟨hfree, trivial⟩
  have hend : PrioReached (fun s a => s.PrioRun a ∧ s.Keeps a) boosted :=
    ⟨smallBoot, hset.accepts (hwait.1.mono fun _ _ => boostStep_keeps)⟩
  obtain ⟨_, ho, hw, hbase, hlevel⟩ := hwait
  exact ⟨ho, hw, hbase, hlevel, reachable_inherits hend ho hw⟩

/-- Process 1 owns mutex 0, process 2 waits for it, and ticks use up the quantum of the owner. -/
def demoteRun : List PrioAction :=
  ownRun ++ waitRun ++ [.os (.yield 0x101F00#32), .os (.yield 0x90000#32), .os (.tick 0x100F00#32),
    .os (.tick 0x90000#32), .os (.tick 0x100F00#32), .os (.tick 0x90000#32), .os (.tick 0x100F00#32)]

def demoted : OsState := prioMachine.after (boot smallBoot) demoteRun

/-- The feedback queue demotes an owner below its waiter. -/
theorem owner_demoted : ¬ ∀ s, PrioReached PrioRun s → ∀ m owner w,
    (s.kernel.mutexes m).owner = some owner → w ∈ (s.kernel.mutexes m).waiters →
      (s.kernel.pcbs owner).priority ≤ (s.kernel.pcbs w).priority := by
  intro h
  have hrun : prioMachine.Accepts (fun s a => s.prioStep a = true) (boot smallBoot) demoteRun ∧
      (demoted.kernel.mutexes 0).owner = some 1 ∧ 2 ∈ (demoted.kernel.mutexes 0).waiters ∧
      ¬ (demoted.kernel.pcbs 1).priority ≤ (demoted.kernel.pcbs 2).priority := by
    decide +kernel
  obtain ⟨haccepts, ho, hw, hlt⟩ := hrun
  exact hlt (h demoted ⟨smallBoot, .mono (fun _ _ => prioStep_run) (.accepts .start haccepts)⟩ 0 1 2 ho hw)

end OsState

end SengOS
