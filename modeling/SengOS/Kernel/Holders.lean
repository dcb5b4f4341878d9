import SengOS.Kernel.Integrity

/-!
# Who a lock refers to

`scheduler_kill` and `process_exit` do not look into the locks. As long as they
end no process that owns a mutex, writes under a reader-writer lock or stands
in a queue, and no fork overwrites the pid of one, every entry of every lock is
the live process whose call put it there.
-/

namespace SengOS

/-- The process owns a lock or waits for one. -/
def Kernel.Involved (k : Kernel) (p : PcbRef) : Prop := ∃ place, p ∈ k.entries place

namespace OsState

/-- The action neither ends a process that a lock refers to nor overwrites its pid. -/
def Spares (s : OsState) : Action → Prop
  | .exit => s.kernel.cur.pid ≠ 0#32 → ¬ s.kernel.Involved s.kernel.current
  | .kill _ pid => ∀ p, s.kernel.processGet pid = some p → pid ≠ 0#32 → ¬ s.kernel.Involved p
  | .fork _ => ∀ child q, s.kernel.forkTarget = some child → s.kernel.Spills child q →
    s.kernel.Involved q → (s.kernel.pcbs q).pid &&& 0xFFFFFF00#32 = (s.kernel.pcbs q).pid
  | _ => True

/-- Every entry of a lock is alive and is the process whose call put it there. -/
def LocksLive (s : OsState) : Prop :=
  ∀ place p, p ∈ s.kernel.entries place →
    (s.kernel.pcbs p).state ≠ .terminated ∧ s.claimed place p = s.proc p

theorem LocksLive.alive {s : OsState} (h : s.LocksLive) {p : PcbRef} (hp : s.kernel.Involved p) :
    (s.kernel.pcbs p).state ≠ .terminated := by
  obtain ⟨place, hp⟩ := hp
  exact (h place p hp).1

/-- A step beside the locks that keeps the processes they refer to. -/
theorem LocksLive.of_locks {s s' : OsState} (h : s.LocksLive)
    (hlocks : s'.kernel.locks = s.kernel.locks) (hclaimed : s'.claimed = s.claimed)
    (hsame : ∀ p, s.kernel.Involved p → (s'.kernel.pcbs p).state ≠ .terminated ∧
      s'.serial p = s.serial p ∧ (s'.kernel.pcbs p).pid = (s.kernel.pcbs p).pid) :
    s'.LocksLive := by
  intro place p hp
  rw [Kernel.entries_of_locks hlocks] at hp
  obtain ⟨ht, hserial, hpid⟩ := hsame p ⟨place, hp⟩
  refine ⟨ht, ?_⟩
  rw [hclaimed, (h place p hp).2, proc, proc, hserial, hpid]

/-- A step that only takes entries out of locks. -/
theorem LocksLive.of_frame {s s' : OsState} (h : s.LocksLive)
    (hk : ∀ p, (s.kernel.pcbs p).Keeps (s'.kernel.pcbs p))
    (hmem : ∀ place p, p ∈ s'.kernel.entries place → p ∈ s.kernel.entries place)
    (hclaimed : s'.claimed = s.claimed) (hserial : s'.serial = s.serial) : s'.LocksLive := by
  intro place p hp
  obtain ⟨ht, hc⟩ := h place p (hmem place p hp)
  refine ⟨fun ht' => ht ((hk p).terminated.mp ht'), ?_⟩
  rw [hclaimed, hc, proc, proc, hserial, (hk p).pid]

theorem LocksLive.dispatched {s s' : OsState} (h : s.LocksLive) {contextEsp esp : Word}
    {woken : List PcbRef} (hd : Kernel.Dispatched s.kernel contextEsp esp s'.kernel woken)
    (hclaimed : s'.claimed = s.claimed) (hserial : s'.serial = s.serial) : s'.LocksLive :=
  h.of_locks hd.locks hclaimed fun p hp =>
    ⟨fun ht => h.alive hp ((hd.terminated p).mp ht), by rw [hserial], (hd.body p).pid⟩

theorem LocksLive.ended {s s' : OsState} (h : s.LocksLive) {p : PcbRef}
    (hp : ¬ s.kernel.Involved p) (he : Kernel.Ended s.kernel p s'.kernel)
    (hclaimed : s'.claimed = s.claimed) (hserial : s'.serial = s.serial) : s'.LocksLive := by
  refine h.of_locks he.locks hclaimed fun q hq => ?_
  have hqp : q ≠ p := by
    rintro rfl
    exact hp hq
  rw [he.others q hqp]
  exact ⟨h.alive hq, by rw [hserial], rfl⟩

/-- A process is born in a slot that no lock refers to. -/
theorem LocksLive.born {s : OsState} (h : s.LocksLive) {p : PcbRef} {k : Kernel}
    (context : Option Word) (hp : (s.kernel.pcbs p).state = .terminated)
    (hlocks : k.locks = s.kernel.locks)
    (hothers : ∀ q, q ≠ p → s.kernel.Involved q → (k.pcbs q).state = (s.kernel.pcbs q).state ∧
      (k.pcbs q).pid = (s.kernel.pcbs q).pid) (esp : Word) :
    ({ s.birth p context with kernel := k, esp := esp } : OsState).LocksLive := by
  refine h.of_locks hlocks rfl fun q hq => ?_
  have hqp : q ≠ p := by
    rintro rfl
    exact h.alive hq hp
  obtain ⟨hs, hpid⟩ := hothers q hqp hq
  refine ⟨by rw [hs]; exact h.alive hq, ?_, hpid⟩
  simp [birth, hqp]

theorem LocksLive.creating {s : OsState} (h : s.LocksLive) {entry : Word}
    {created : Option PcbRef × Kernel}
    (hnone : s.kernel.createTarget entry = none → created.2 = s.kernel)
    (hsome : ∀ p, s.kernel.createTarget entry = some p → Kernel.Created s.kernel p created.2) :
    (s.creating entry created).LocksLive := by
  unfold OsState.creating
  split
  · rename_i hn
    rw [hnone hn]
    exact h
  · rename_i p hp
    have hc := hsome p hp
    have hslot := Kernel.freeSlot_some (Kernel.createTarget_some hp).2
    refine h.born _ hslot.2.1 hc.locks (fun q hq _ => ?_) s.esp
    rw [hc.others q hq]
    exact ⟨rfl, rfl⟩

theorem LocksLive.fork {s : OsState} (h : s.LocksLive) {contextEsp : Word}
    (hspares : s.Spares (.fork contextEsp)) : (s.next (.fork contextEsp)).LocksLive := by
  simp only [next]
  split
  · rename_i hn
    have hr := Kernel.schedulerFork_refused hn contextEsp
    refine h.of_locks hr.locks rfl fun p hp => ?_
    rcases hr.pcbs p with hq | ⟨ht, _, _⟩
    · rw [hq]
      exact ⟨h.alive hp, rfl, rfl⟩
    · exact absurd ht (h.alive hp)
  · rename_i child hc
    have hf := Kernel.schedulerFork_spec hc contextEsp
    have hslot := Kernel.freeSlot_some (Kernel.forkTarget_some hc).2.2
    refine h.born _ hslot.2.1 hf.locks (fun q hq hi => ⟨?_, ?_⟩) _
    · rw [hf.others q hq]
    · by_cases hspill : s.kernel.Spills child q
      · rw [hf.spilled q hq hspill, hspares child q hc hspill hi]
      · exact hf.pid q hq hspill

theorem LocksLive.kill {s : OsState} (h : s.LocksLive) (hs : s.ShellInv) {contextEsp pid : Word}
    (hctx : contextEsp ≠ 0#32) (hspares : s.Spares (.kill contextEsp pid)) :
    (s.next (.kill contextEsp pid)).LocksLive := by
  simp only [next]
  rcases Kernel.schedulerKill_cases s.kernel contextEsp pid with ⟨_, he⟩ | ⟨p, hp, hz, hcase⟩
  · rw [he]
    exact h.of_locks rfl rfl fun p hp => ⟨h.alive hp, rfl, rfl⟩
  · have hends := (Kernel.killTarget_spec s.kernel p).1
    have hk : ({ s with kernel := (s.kernel.killTarget p).setEax contextEsp 0#32 } : OsState).LocksLive :=
      h.ended (hspares p hp hz) (hends.setEax contextEsp 0#32) rfl rfl
    rcases hcase with ⟨_, he⟩ | ⟨_, he⟩
    · rw [he]
      exact hk
    · rw [he]
      obtain ⟨woken, hd⟩ := Kernel.dispatch_spec (hs.killed hp hz contextEsp).ready hctx false
      exact hk.dispatched hd rfl rfl

/-- A section puts in its own caller, or moves a waiter that stands for itself. -/
theorem LocksLive.proceed {s : OsState} (h : s.LocksLive) (hs : s.ShellInv)
    (hr : s.kernel.cur.state = .running) : (s.next .proceed).LocksLive := by
  have hk := hs.advance_frame hr
  intro place p hp
  have hproc : (s.next .proceed).proc p = s.proc p := by
    simp only [proc, next, setPoint, (hk.pcbs p).pid]
  have halive : (s.kernel.pcbs p).state ≠ .terminated →
      ((s.next .proceed).kernel.pcbs p).state ≠ .terminated :=
    fun ht ht' => ht ((hk.pcbs p).terminated.mp ht')
  have hclaim : (s.next .proceed).claimed place p = s.claims (s.kernel.advance s.here).2 place p := rfl
  rw [hproc, hclaim]
  have hp : p ∈ (s.kernel.advance s.here).2.entries place := hp
  by_cases hold : p ∈ s.kernel.entries place
  · obtain ⟨ht, hc⟩ := h place p hold
    refine ⟨halive ht, ?_⟩
    rw [claims, if_neg (fun hcond => hcond.2 hold), hc]
  · rw [claims, if_pos ⟨hp, hold⟩]
    by_cases hcur : p = s.kernel.current
    · subst hcur
      refine ⟨halive ?_, if_pos rfl⟩
      rw [show (s.kernel.pcbs s.kernel.current).state = .running from hr]
      decide
    · rcases Kernel.advance_entries hp with he | hq | ⟨he, _⟩
      · exact absurd he hold
      · obtain ⟨ht, hc⟩ := h place.queue p hq
        exact ⟨halive ht, by rw [if_neg hcur, hc]⟩
      · exact absurd he hcur

theorem step_locksLive {s : OsState} (h : s.LocksLive) (hs : s.ShellInv) (a : Action)
    (he : s.Enabled a) (hspares : s.Spares a) : (s.next a).LocksLive := by
  cases a with
  | start => exact h.of_locks rfl rfl fun p hp => ⟨h.alive hp, rfl, rfl⟩
  | create entry name =>
    refine h.creating (fun hn => ?_) (fun p hp => (Kernel.processCreateNamed_spec hp name).1)
    rw [Kernel.processCreateNamed_none hn]
  | threadCreate entry arg name =>
    refine h.creating (fun hn => ?_) (fun p hp => (Kernel.threadCreateNamed_spec hp arg name).1)
    rw [Kernel.threadCreateNamed_none hn]
  | fork contextEsp => exact h.fork hspares
  | tick contextEsp =>
    obtain ⟨woken, hd⟩ := Kernel.dispatch_spec hs.ready he true
    simp only [next, Kernel.schedulerTick]
    cases s.kernel.timerStarted with
    | false => exact h
    | true => exact h.dispatched hd rfl rfl
  | yield contextEsp =>
    obtain ⟨woken, hd⟩ := Kernel.dispatch_spec hs.ready he.1 false
    exact h.dispatched hd rfl rfl
  | sleep ms =>
    refine h.of_frame (Kernel.sleep_keeps (by rw [he.1]; decide) ms) (fun place p hp => ?_) rfl rfl
    rwa [next, Kernel.entries_of_locks (Kernel.sleep_locks s.kernel ms)] at hp
  | blockForever =>
    refine h.of_frame (Kernel.blockForever_frame _ (by rw [he.1]; decide)).pcbs (fun place p hp => ?_) rfl rfl
    rwa [next, Kernel.entries_of_locks (Kernel.blockForever_locks s.kernel)] at hp
  | wake p =>
    cases p with
    | none => exact h
    | some q =>
      refine h.of_frame (Kernel.wake_frame _ q).pcbs (fun place p hp => ?_) rfl rfl
      rwa [next, Kernel.entries_of_locks (Kernel.wake_locks s.kernel q)] at hp
  | kill contextEsp pid => exact h.kill hs he.1 hspares
  | exit =>
    simp only [next]
    by_cases hp : s.kernel.cur.pid = 0#32
    · rw [Kernel.processExit, if_pos hp]
      exact h
    · exact h.ended (hspares hp) (Kernel.processExit_spec _ hp).1 rfl rfl
  | mutexInit m =>
    exact h.of_frame (Kernel.lazyInit_frame _ (.mutex m)).pcbs
      (fun place p hp => Kernel.lazyInit_entries (l := .mutex m) hp) rfl rfl
  | semInit i initialCount =>
    refine h.of_frame (fun p => .refl _) (fun place p hp => ?_) rfl rfl
    rcases Kernel.mem_setSem hp with e | ⟨_, e⟩
    · exact e
    · cases e
  | rwlockInit r =>
    exact h.of_frame (Kernel.lazyInit_frame _ (.read r)).pcbs
      (fun place p hp => Kernel.lazyInit_entries (l := .read r) hp) rfl rfl
  | acquire l => exact h
  | unlock l => exact h
  | proceed => exact h.proceed hs he.1

/-! ## The condition is exact -/

/-- A lock that refers to a process that has ended. -/
theorem not_locksLive {s s' : OsState} {p : PcbRef} (hp : s.kernel.Involved p)
    (hlocks : s'.kernel.locks = s.kernel.locks)
    (ht : (s'.kernel.pcbs p).state = .terminated) : ¬ s'.LocksLive := by
  obtain ⟨place, hp⟩ := hp
  intro h
  rw [← Kernel.entries_of_locks hlocks] at hp
  exact (h place p hp).1 ht

theorem kill_not_locksLive {s : OsState} (hs : s.ShellInv) {contextEsp pid : Word}
    (hctx : contextEsp ≠ 0#32) {p : PcbRef} (hp : s.kernel.processGet pid = some p)
    (hz : pid ≠ 0#32) (hi : s.kernel.Involved p) : ¬ (s.next (.kill contextEsp pid)).LocksLive := by
  have hends := (Kernel.killTarget_spec s.kernel p).1
  simp only [next]
  by_cases hc : p = s.kernel.current
  · subst hc
    rw [Kernel.schedulerKill_self contextEsp hp hz]
    obtain ⟨woken, hd⟩ := Kernel.dispatch_spec (hs.killed hp hz contextEsp).ready hctx false
    exact not_locksLive hi (hd.locks.trans hends.locks) ((hd.terminated _).mpr hends.terminated)
  · rw [Kernel.schedulerKill_other contextEsp hp hz hc]
    exact not_locksLive hi hends.locks hends.terminated

theorem fork_not_locksLive {s : OsState} (h : s.LocksLive) {contextEsp : Word} {child q : PcbRef}
    (hc : s.kernel.forkTarget = some child) (hspill : s.kernel.Spills child q)
    (hi : s.kernel.Involved q)
    (hpid : (s.kernel.pcbs q).pid &&& 0xFFFFFF00#32 ≠ (s.kernel.pcbs q).pid) :
    ¬ (s.next (.fork contextEsp)).LocksLive := by
  obtain ⟨place, hq⟩ := hi
  have hf := Kernel.schedulerFork_spec hc contextEsp
  have hne : q ≠ child := by
    rintro rfl
    have := hspill.2
    omega
  intro hlive
  simp only [next, hc] at hlive
  have hq' : q ∈ (s.kernel.schedulerFork contextEsp).2.entries place := by
    rw [Kernel.entries_of_locks hf.locks]
    exact hq
  have hclaim := congrArg Proc.pid ((hlive place q hq').2.symm.trans (h place q hq).2)
  simp only [proc] at hclaim
  rw [hf.spilled q hne hspill] at hclaim
  exact hpid hclaim

/-- Locks refer only to live processes, those whose calls put them there, in
every run that spares them; and from such a state an action keeps it that way
exactly when it spares them too. -/
theorem reachable_locksLive {s : OsState} (h : Reached Spares s) :
    s.LocksLive ∧ ∀ a, s.Enabled a → ((s.next a).LocksLive ↔ s.Spares a) := by
  have hs := h.shell
  obtain ⟨b, hreach⟩ := h
  have hlive : s.LocksLive :=
    (hreach.invariant (I := fun s => s.ShellInv ∧ s.LocksLive)
      ⟨boot_shell b, fun place p hp => by cases place <;> cases hp⟩
      fun s a hi he hp => ⟨step_shell hi.1 a he, step_locksLive hi.2 hi.1 a he hp⟩).2
  refine ⟨hlive, fun a he => ⟨fun hnext => ?_, step_locksLive hlive hs a he⟩⟩
  cases a with
  | exit =>
    intro hp hi
    have hends := (Kernel.processExit_spec _ hp).1
    exact not_locksLive hi hends.locks hends.terminated hnext
  | kill contextEsp pid =>
    intro p hp hz hi
    exact kill_not_locksLive hs he.1 hp hz hi hnext
  | fork contextEsp =>
    intro child q hc hspill hi
    by_contra hpid
    exact fork_not_locksLive hlive hc hspill hi hpid hnext
  | _ => trivial

/-- The first process locks mutex 0, the second one waits for it, and the first
one is on the CPU again. -/
def contendRun : List Action :=
  [.create 0x11000#32 none, .create 0x12000#32 none, .yield 0x90000#32, .acquire (.mutex 0), .proceed,
    .proceed, .yield 0x100F00#32, .acquire (.mutex 0), .proceed, .yield 0x101F00#32, .yield 0x90000#32]

theorem contendRun_locksLive :
    machine.Accepts Any (boot smallBoot) contendRun ∧
      (let s := machine.after (boot smallBoot) contendRun
       s.kernel.current = 1 ∧ 1 ∈ s.kernel.entries (.mutexOwner 0) ∧
         2 ∈ s.kernel.entries (.mutexWaiter 0) ∧ s.claimed (.mutexWaiter 0) 2 = s.proc 2 ∧
         ¬ (s.next .exit).LocksLive) := by
  have hfacts : machine.Accepts Any (boot smallBoot) contendRun ∧
      (let s := machine.after (boot smallBoot) contendRun
       s.kernel.current = 1 ∧ 1 ∈ s.kernel.entries (.mutexOwner 0) ∧
         2 ∈ s.kernel.entries (.mutexWaiter 0) ∧ s.Enabled .exit ∧ s.kernel.cur.pid ≠ 0#32) := by
    decide +kernel
  obtain ⟨hrun, hcur, howner, hwaiter, he, hpid⟩ := hfacts
  have hspares : machine.Accepts Spares (boot smallBoot) contendRun :=
    hrun.of_forall (by simp [contendRun, Spares])
  have hlive := reachable_locksLive ⟨smallBoot, .accepts .start hspares⟩
  refine ⟨hrun, hcur, howner, hwaiter, (hlive.1 _ _ hwaiter).2, fun hexit => ?_⟩
  refine (hlive.2 .exit he).mp hexit hpid ⟨.mutexOwner 0, ?_⟩
  rw [hcur]
  exact howner

/-- The first process locks mutex 0 and is killed by the second one. -/
def killOwnerRun : List Action :=
  [.create 0x11000#32 none, .create 0x12000#32 none, .yield 0x90000#32, .acquire (.mutex 0), .proceed,
    .proceed, .yield 0x100F00#32, .kill 0x101F00#32 1#32]

/-- The dead process stays the owner, and then the next process in its slot is. -/
theorem killed_owner_remains :
    (let s := machine.after (boot smallBoot) killOwnerRun
     Reached Any s ∧ 1 ∈ s.kernel.entries (.mutexOwner 0) ∧ (s.kernel.pcbs 1).state = .terminated) ∧
    (let s := machine.after (boot smallBoot) (killOwnerRun ++ [.create 0x13000#32 none])
     Reached Any s ∧ 1 ∈ s.kernel.entries (.mutexOwner 0) ∧ (s.kernel.pcbs 1).state = .ready ∧
       s.claimed (.mutexOwner 0) 1 ≠ s.proc 1) := by
  refine ⟨⟨⟨smallBoot, .accepts .start ?_⟩, ?_, ?_⟩, ⟨smallBoot, .accepts .start ?_⟩, ?_, ?_, ?_⟩
  all_goals decide +kernel

end OsState

end SengOS
