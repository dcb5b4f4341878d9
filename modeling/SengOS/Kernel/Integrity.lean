import SengOS.Kernel.Shell

/-!
# Processes resume where they stopped

At most one process is RUNNING, the one on the CPU, and every other live
process has the stack pointer in its PCB that was recorded for it when it was
taken off the CPU or that was built when it was created. Contexts are recorded
by serial number, which a slot's next process does not share.
-/

namespace SengOS

namespace OsState

/-- A frame is free for the stack of a new process. -/
def FrameAvailable (s : OsState) : Action → Prop
  | .create _ _ | .threadCreate _ _ _ => s.kernel.pmm.pmmAllocFrame.1 ≠ 0#32
  | _ => True

instance (s : OsState) (a : Action) : Decidable (s.FrameAvailable a) := by
  apply Action.casesOn (motive := fun a => Decidable (s.FrameAvailable a)) a <;> intros <;>
    unfold FrameAvailable <;> infer_instance

structure Sched (s : OsState) : Prop where
  running : ∀ p, (s.kernel.pcbs p).state = .running → p = s.kernel.current
  saved : ∀ p, (s.kernel.pcbs p).state ≠ .terminated → p ≠ s.kernel.current →
    s.saved (s.serial p) = some (s.kernel.pcbs p).esp
  serials : Function.Injective s.serial
  fresh : ∀ p, s.serial p < s.nextSerial

/-- Code that moves no stack pointer, ends no process and makes none RUNNING. -/
theorem Sched.of_states {s s' : OsState} (h : s.Sched)
    (hc : s'.kernel.current = s.kernel.current)
    (hesp : ∀ p, (s'.kernel.pcbs p).esp = (s.kernel.pcbs p).esp)
    (hrunning : ∀ p, (s'.kernel.pcbs p).state = .running → (s.kernel.pcbs p).state = .running)
    (hterminated : ∀ p, (s.kernel.pcbs p).state = .terminated →
      (s'.kernel.pcbs p).state = .terminated)
    (hserial : s'.serial = s.serial) (hsaved : s'.saved = s.saved)
    (hnext : s'.nextSerial = s.nextSerial) : s'.Sched := by
  refine ⟨fun p hp => ?_, fun p hp hne => ?_, ?_, fun p => ?_⟩
  · rw [hc]
    exact h.running p (hrunning p hp)
  · rw [hsaved, hserial, hesp p]
    rw [hc] at hne
    exact h.saved p (fun ht => hp (hterminated p ht)) hne
  · rw [hserial]
    exact h.serials
  · rw [hserial, hnext]
    exact h.fresh p

theorem Sched.of_frame {s s' : OsState} (h : s.Sched) (hk : LockFrame s.kernel s'.kernel)
    (hserial : s'.serial = s.serial) (hsaved : s'.saved = s.saved)
    (hnext : s'.nextSerial = s.nextSerial) : s'.Sched :=
  h.of_states hk.current (fun p => (hk.pcbs p).esp) (fun p => (hk.pcbs p).running)
    (fun p => (hk.pcbs p).terminated.mpr) hserial hsaved hnext

/-- A new process in a slot that held none. -/
theorem Sched.born {s s' : OsState} (h : s.Sched) {p : PcbRef}
    (hc : s'.kernel.current = s.kernel.current)
    (hothers : ∀ q, q ≠ p → (s'.kernel.pcbs q).state = (s.kernel.pcbs q).state ∧
      (s'.kernel.pcbs q).esp = (s.kernel.pcbs q).esp)
    (hready : (s'.kernel.pcbs p).state = .ready)
    (hserial : s'.serial = Function.update s.serial p s.nextSerial)
    (hsaved : s'.saved =
      Function.update s.saved s.nextSerial (some (s'.kernel.pcbs p).esp))
    (hnext : s'.nextSerial = s.nextSerial + 1) : s'.Sched := by
  have hold : ∀ q, q ≠ p → s'.serial q = s.serial q := fun q hq => by
    rw [hserial, Function.update_of_ne hq]
  have hnew : s'.serial p = s.nextSerial := by rw [hserial, Function.update_self]
  refine ⟨fun q hq => ?_, fun q hq hne => ?_, fun q r hqr => ?_, fun q => ?_⟩
  · rw [hc]
    by_cases he : q = p
    · rw [he, hready] at hq
      cases hq
    · exact h.running q ((hothers q he).1 ▸ hq)
  · rw [hc] at hne
    by_cases he : q = p
    · rw [he, hnew, hsaved, Function.update_self]
    · rw [hold q he, hsaved, Function.update_of_ne (Nat.ne_of_lt (h.fresh q)), (hothers q he).2]
      exact h.saved q ((hothers q he).1 ▸ hq) hne
  · by_cases hq : q = p <;> by_cases hr : r = p
    · rw [hq, hr]
    · rw [hq, hnew, hold r hr] at hqr
      exact absurd hqr (Nat.ne_of_gt (h.fresh r))
    · rw [hr, hnew, hold q hq] at hqr
      exact absurd hqr (Nat.ne_of_lt (h.fresh q))
    · rw [hold q hq, hold r hr] at hqr
      exact h.serials hqr
  · rw [hnext]
    by_cases hq : q = p
    · rw [hq, hnew]
      exact Nat.lt_succ_self _
    · rw [hold q hq]
      exact Nat.lt_succ_of_lt (h.fresh q)

/-- The end of a process. -/
theorem Sched.ended {s s' : OsState} (h : s.Sched) {p : PcbRef}
    (he : Kernel.Ended s.kernel p s'.kernel) (hserial : s'.serial = s.serial)
    (hsaved : s'.saved = s.saved) (hnext : s'.nextSerial = s.nextSerial) : s'.Sched := by
  have hother : ∀ q, (s'.kernel.pcbs q).state ≠ .terminated → q ≠ p := by
    rintro q hq rfl
    exact hq he.terminated
  refine ⟨fun q hq => ?_, fun q hq hne => ?_, ?_, fun q => ?_⟩
  · have hqp := hother q (by rw [hq]; decide)
    rw [he.others q hqp] at hq
    rw [he.current]
    exact h.running q hq
  · have hqp := hother q hq
    rw [he.others q hqp] at hq ⊢
    rw [he.current] at hne
    rw [hserial, hsaved]
    exact h.saved q hq hne
  · rw [hserial]
    exact h.serials
  · rw [hserial, hnext]
    exact h.fresh q

/-- After a dispatch every live process, also the one that runs, has the
context recorded for it in its PCB. -/
theorem Sched.resumes {s s' : OsState} (h : s.Sched) {contextEsp esp : Word}
    {woken : List PcbRef} (hd : Kernel.Dispatched s.kernel contextEsp esp s'.kernel woken)
    (hserial : s'.serial = s.serial)
    (hsaved : (s.kernel.cur.state = .terminated ∧ s'.saved = s.saved) ∨
      s'.saved = Function.update s.saved (s.serial s.kernel.current) (some contextEsp)) (p : PcbRef)
    (hp : (s'.kernel.pcbs p).state ≠ .terminated) :
    s'.saved (s'.serial p) = some (s'.kernel.pcbs p).esp := by
  have halive : (s.kernel.pcbs p).state ≠ .terminated := fun ht => hp ((hd.terminated p).mpr ht)
  rw [hserial, hd.esp_eq p]
  by_cases hc : p = s.kernel.current
  · rw [if_pos ⟨hc, halive⟩]
    rcases hsaved with ⟨ht, _⟩ | hsaved
    · rw [hc] at halive
      exact absurd ht halive
    · rw [hsaved, hc, Function.update_self]
  · rw [if_neg (fun hcond => hc hcond.1)]
    rcases hsaved with ⟨_, hsaved⟩ | hsaved
    · rw [hsaved]
      exact h.saved p halive hc
    · rw [hsaved, Function.update_of_ne (fun he => hc (h.serials he))]
      exact h.saved p halive hc

theorem Sched.dispatched {s s' : OsState} (h : s.Sched) {contextEsp esp : Word}
    {woken : List PcbRef} (hd : Kernel.Dispatched s.kernel contextEsp esp s'.kernel woken)
    (hserial : s'.serial = s.serial) (hnext : s'.nextSerial = s.nextSerial)
    (hsaved : (s.kernel.cur.state = .terminated ∧ s'.saved = s.saved) ∨
      s'.saved = Function.update s.saved (s.serial s.kernel.current) (some contextEsp)) :
    s'.Sched := by
  refine ⟨fun p hp => ?_, fun p hp _ => h.resumes hd hserial hsaved p hp, ?_, fun p => ?_⟩
  · rcases hd.running p hp with he | ⟨hne, hr⟩
    · exact he
    · exact absurd (h.running p hr) hne
  · rw [hserial]
    exact h.serials
  · rw [hserial, hnext]
    exact h.fresh p

theorem Sched.creating {s : OsState} (h : s.Sched) {entry : Word}
    {created : Option PcbRef × Kernel}
    (hnone : s.kernel.createTarget entry = none → created.2 = s.kernel)
    (hsome : ∀ p, s.kernel.createTarget entry = some p → Kernel.Created s.kernel p created.2 ∧
      created.1 = some p) :
    (s.creating entry created).Sched := by
  unfold OsState.creating
  split
  · rename_i hn
    rw [hnone hn]
    exact h
  · rename_i p hp
    obtain ⟨hc, hr⟩ := hsome p hp
    refine h.born hc.current (fun q hq => ?_) hc.ready rfl ?_ rfl
    · rw [hc.others q hq]
      exact ⟨rfl, rfl⟩
    · rw [hr]
      rfl

theorem Sched.fork {s : OsState} (h : s.Sched) (contextEsp : Word) :
    (s.next (.fork contextEsp)).Sched := by
  simp only [next]
  split
  · rename_i hn
    have hr := Kernel.schedulerFork_refused hn contextEsp
    have same : ∀ p, ((s.kernel.schedulerFork contextEsp).2.pcbs p).state = (s.kernel.pcbs p).state ∧
        ((s.kernel.schedulerFork contextEsp).2.pcbs p).esp = (s.kernel.pcbs p).esp := by
      intro p
      rcases hr.pcbs p with hq | ⟨_, _, hq⟩ <;> rw [hq] <;> exact ⟨rfl, rfl⟩
    exact h.of_states hr.current (fun p => (same p).2) (fun p hp => (same p).1 ▸ hp)
      (fun p hp => (same p).1.trans hp) rfl rfl rfl
  · rename_i child hc
    have hf := Kernel.schedulerFork_spec hc contextEsp
    refine h.born hf.current (fun q hq => ?_) hf.ready rfl rfl rfl
    rw [hf.others q hq]
    exact ⟨rfl, rfl⟩

/-- The actions that reach `dispatch`. -/
def Dispatches (s : OsState) : Action → Prop
  | .tick _ => s.kernel.timerStarted = true
  | .yield _ => True
  | .kill _ pid => pid ≠ 0#32 ∧ s.kernel.processGet pid = some s.kernel.current
  | _ => False

theorem Sched.killed {s : OsState} (h : s.Sched) (p : PcbRef) (contextEsp : Word) :
    ({ s with kernel := (s.kernel.killTarget p).setEax contextEsp 0#32 } : OsState).Sched := by
  have hends := (Kernel.killTarget_spec s.kernel p).1
  exact h.ended (hends.setEax contextEsp 0#32) rfl rfl rfl

/-- The state that a dispatch starts from, and what has been recorded when it is done. -/
theorem Sched.dispatches {s : OsState} (h : s.Sched) (hs : s.ShellInv) {a : Action}
    (he : s.Enabled a) (hd : s.Dispatches a) :
    ∃ s₀ : OsState, s₀.Sched ∧ ∃ contextEsp woken,
      Kernel.Dispatched s₀.kernel contextEsp (s.next a).esp (s.next a).kernel woken ∧
      (s.next a).serial = s₀.serial ∧ (s.next a).nextSerial = s₀.nextSerial ∧
      ((s₀.kernel.cur.state = .terminated ∧ (s.next a).saved = s₀.saved) ∨
        (s.next a).saved =
          Function.update s₀.saved (s₀.serial s₀.kernel.current) (some contextEsp)) := by
  cases a with
  | tick contextEsp =>
    have ht : s.kernel.timerStarted = true := hd
    obtain ⟨woken, hd⟩ := Kernel.dispatch_spec hs.ready he true
    refine ⟨s, h, contextEsp, woken, ?_, ?_, ?_, .inr ?_⟩
    all_goals simp [next, Kernel.schedulerTick, ht, record, hd]
  | yield contextEsp =>
    obtain ⟨woken, hd⟩ := Kernel.dispatch_spec hs.ready he.1 false
    exact ⟨s, h, contextEsp, woken, hd, rfl, rfl, .inr rfl⟩
  | kill contextEsp pid =>
    obtain ⟨hz, hp⟩ := hd
    have hk := hs.killed hp hz contextEsp
    obtain ⟨woken, hd⟩ := Kernel.dispatch_spec hk.ready he.1 false
    have hends := (Kernel.killTarget_spec s.kernel s.kernel.current).1
    refine ⟨_, h.killed s.kernel.current contextEsp, contextEsp, woken, ?_, rfl, rfl,
      .inl ⟨?_, rfl⟩⟩
    · simp only [next, Kernel.schedulerKill_self contextEsp hp hz]
      exact hd
    · exact (hends.setEax contextEsp 0#32).cur_terminated
  | _ => exact hd.elim

theorem Sched.kill {s : OsState} (h : s.Sched) (contextEsp pid : Word)
    (hd : ¬ s.Dispatches (.kill contextEsp pid)) : (s.next (.kill contextEsp pid)).Sched := by
  simp only [next]
  rcases Kernel.schedulerKill_cases s.kernel contextEsp pid with ⟨_, he⟩ | ⟨p, hp, hz, hcase⟩
  · rw [he]
    exact h.of_states rfl (fun _ => rfl) (fun _ => id) (fun _ => id) rfl rfl rfl
  · rcases hcase with ⟨_, he⟩ | ⟨hc, _⟩
    · rw [he]
      have hk := h.killed p contextEsp
      exact ⟨hk.running, hk.saved, hk.serials, hk.fresh⟩
    · exact absurd ⟨hz, hc ▸ hp⟩ hd

theorem step_sched {s : OsState} (h : s.Sched) (hs : s.ShellInv) (a : Action) (he : s.Enabled a)
    (hf : s.FrameAvailable a) : (s.next a).Sched := by
  by_cases hd : s.Dispatches a
  · obtain ⟨s₀, h₀, contextEsp, woken, hd, hserial, hnext, hsaved⟩ := h.dispatches hs he hd
    exact h₀.dispatched hd hserial hnext hsaved
  · cases a with
    | start => exact h.of_states rfl (fun _ => rfl) (fun _ => id) (fun _ => id) rfl rfl rfl
    | create entry name =>
      refine h.creating (fun hn => ?_) (fun p hp => ?_)
      · rw [Kernel.processCreateNamed_none hn]
      · have hc := Kernel.processCreateNamed_spec hp name
        exact ⟨hc.1, hc.2.trans (if_neg hf)⟩
    | threadCreate entry arg name =>
      refine h.creating (fun hn => ?_) (fun p hp => ?_)
      · rw [Kernel.threadCreateNamed_none hn]
      · have hc := Kernel.threadCreateNamed_spec hp arg name
        exact ⟨hc.1, hc.2.trans (if_neg hf)⟩
    | fork contextEsp => exact h.fork contextEsp
    | tick contextEsp =>
      have ht : s.kernel.timerStarted = false := by simpa [Dispatches] using hd
      simp only [next, Kernel.schedulerTick, ht]
      exact h.of_states rfl (fun _ => rfl) (fun _ => id) (fun _ => id) rfl rfl rfl
    | yield contextEsp => exact absurd trivial hd
    | sleep ms =>
      have hk := Kernel.sleep_keeps (show s.kernel.cur.state ≠ .terminated by rw [he.1]; decide) ms
      exact h.of_states (Kernel.sleep_current _ _) (fun p => (hk p).esp) (fun p => (hk p).running)
        (fun p => (hk p).terminated.mpr) rfl rfl rfl
    | blockForever =>
      exact h.of_frame (Kernel.blockForever_frame _ (by rw [he.1]; decide)) rfl rfl rfl
    | wake p =>
      cases p with
      | none => exact h
      | some p => exact h.of_frame (Kernel.wake_frame _ p) rfl rfl rfl
    | kill contextEsp pid => exact h.kill contextEsp pid hd
    | exit =>
      simp only [next]
      by_cases hp : s.kernel.cur.pid = 0#32
      · rw [Kernel.processExit, if_pos hp]
        exact h
      · exact h.ended (Kernel.processExit_spec _ hp).1 rfl rfl rfl
    | mutexInit m => exact h.of_frame (Kernel.lazyInit_frame _ (.mutex m)) rfl rfl rfl
    | semInit i initialCount => exact h.of_frame (Kernel.setSem_frame _ _ _) rfl rfl rfl
    | rwlockInit r => exact h.of_frame (Kernel.setRwlock_frame _ _ _) rfl rfl rfl
    | acquire l => exact h.of_frame (.refl _) rfl rfl rfl
    | unlock l => exact h.of_frame (.refl _) rfl rfl rfl
    | proceed => exact h.of_frame (hs.advance_frame he.1) rfl rfl rfl

theorem boot_sched (b : Boot) : (boot b).Sched := by
  refine ⟨fun p hp => ?_, fun p hp hne => ?_, fun p q h => Fin.ext h, fun p => p.isLt⟩
  all_goals
    by_cases h0 : p = 0
    · subst h0
      first
      | rfl
      | exact absurd rfl hne
    · simp [boot, Kernel.schedulerInit, h0, Kernel.emptyPcb] at hp

/-- Scheduler state integrity: at most one process is RUNNING and it is the
current one; after every dispatch exactly the current one is, and the stack
pointer that the dispatch returned is the context recorded for that process,
serial numbers being never shared. -/
theorem reachable_integrity {s : OsState} (h : Reached FrameAvailable s) :
    (∀ p, (s.kernel.pcbs p).state = .running → p = s.kernel.current) ∧
      Function.Injective s.serial ∧ (∀ p, s.serial p < s.nextSerial) ∧
      ∀ a, s.Enabled a → s.Dispatches a →
        (∀ p, ((s.next a).kernel.pcbs p).state = .running ↔ p = (s.next a).kernel.current) ∧
        (s.next a).saved ((s.next a).serial (s.next a).kernel.current) = some (s.next a).esp := by
  have hs := h.shell
  obtain ⟨b, hreach⟩ := h
  have hsched : s.ShellInv ∧ s.Sched :=
    hreach.invariant (I := fun s => s.ShellInv ∧ s.Sched) ⟨boot_shell b, boot_sched b⟩ fun s a hi he hf =>
      ⟨step_shell hi.1 a he, step_sched hi.2 hi.1 a he hf⟩
  refine ⟨hsched.2.running, hsched.2.serials, hsched.2.fresh, fun a he hd => ?_⟩
  obtain ⟨s₀, h₀, contextEsp, woken, hdis, hserial, hnext, hsaved⟩ := hsched.2.dispatches hs he hd
  refine ⟨fun p => ⟨fun hp => ?_, fun hp => ?_⟩, ?_⟩
  · exact (h₀.dispatched hdis hserial hnext hsaved).running p hp
  · rw [hp]
    exact hdis.current_running
  · rw [h₀.resumes hdis hserial hsaved _ (by rw [hdis.current_running]; decide), hdis.returned]

/-- A process is created, sleeps, and is resumed by the tick that ends its sleep. -/
def sleepRun : List Action :=
  [.create 0x11000#32 none, .start, .yield 0x90000#32, .sleep 10#32, .yield 0x100F00#32]

theorem sleepRun_integrity :
    machine.Accepts FrameAvailable (boot smallBoot) sleepRun ∧
      (machine.after (boot smallBoot) sleepRun).Enabled (.tick 0x90004#32) ∧
      (let s := (machine.after (boot smallBoot) sleepRun).next (.tick 0x90004#32)
       s.kernel.current = 1 ∧ s.saved (s.serial s.kernel.current) = some s.esp ∧ s.esp = 0x100F00#32) := by
  have hfacts : machine.Accepts FrameAvailable (boot smallBoot) sleepRun ∧
      (let s := machine.after (boot smallBoot) sleepRun
       s.Enabled (.tick 0x90004#32) ∧ s.kernel.timerStarted = true ∧
         (s.next (.tick 0x90004#32)).kernel.current = 1 ∧
         (s.next (.tick 0x90004#32)).esp = 0x100F00#32) := by
    decide +kernel
  obtain ⟨hrun, he, hd, hcur, hesp⟩ := hfacts
  exact ⟨hrun, he, hcur, ((reachable_integrity ⟨smallBoot, .accepts .start hrun⟩).2.2.2 _ he hd).2, hesp⟩

end OsState

end SengOS
