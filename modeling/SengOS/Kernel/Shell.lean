import SengOS.Kernel.Sections
import SengOS.Kernel.Switch

/-!
# The shell can always run

Slot 0 holds the shell, with pid 0, READY or RUNNING and on the top level. No
lock call gets past its first test for pid 0, so the shell never waits, never
owns a mutex and never has its priority changed by one. Every dispatch
therefore finds a process.
-/

namespace SengOS

/-- Where the shell can stand: it waits for nothing and holds no mutex. -/
def Point.forShell : Point → Bool
  | .run | .signalInit _ | .release (.sem _) | .release (.read _) | .release (.write _) => true
  | _ => false

theorem LockFrame.shellReady {k k' : Kernel} (h : LockFrame k k') (hs : k.ShellReady) :
    k'.ShellReady := by
  have hk := h.pcbs 0
  refine ⟨hk.pid.trans hs.pid, ?_, h.shell_priority.trans hs.priority⟩
  rw [hk.shell hs.pid hs.not_blocked]
  exact hs.runnable

/-- A process that goes to sleep blocks itself, as lock code does. -/
theorem Kernel.sleep_keeps {k : Kernel} (h : k.cur.state ≠ .terminated) (ms : Word) (p : PcbRef) :
    (k.pcbs p).Keeps ((k.sleep ms).pcbs p) := by
  rcases k.sleep_cases ms with hk | ⟨hp, wakeTick, q, hk, _⟩
  · rw [hk]
    exact .refl _
  · rw [hk]
    dsimp only
    rw [modify_pcbs]
    split
    · rename_i hpc
      subst hpc
      refine ⟨rfl, rfl, rfl, rfl, rfl, fun hs => ?_, ⟨fun hs => ?_, fun hs => ?_⟩, fun hz => ?_⟩
      · cases hs
      · cases hs
      · exact absurd hs h
      · exact absurd hz hp
    · exact .refl _

namespace OsState

structure ShellInv (s : OsState) : Prop where
  ready : s.kernel.ShellReady
  point : (s.point 0).forShell = true
  mutexes : ∀ m, 0 ∉ s.kernel.entries (.mutexOwner m) ∧ 0 ∉ s.kernel.entries (.mutexWaiter m)

theorem ShellInv.ownsNone {s : OsState} (h : s.ShellInv) : s.kernel.ShellOwnsNone := by
  intro m he
  exact (h.mutexes m).1 (by simp [Kernel.entries, he])

/-- A process with a pid is not the shell. -/
theorem ShellInv.current_ne {s : OsState} (h : s.ShellInv) (hp : s.kernel.cur.pid ≠ 0#32) :
    s.kernel.current ≠ 0 := by
  intro he
  rw [Kernel.cur, he] at hp
  exact hp h.ready.pid

/-- A step that leaves slot 0, its point and the entries of the locks alone. -/
theorem ShellInv.of_slot {s s' : OsState} (h : s.ShellInv)
    (hpcb : s'.kernel.pcbs 0 = s.kernel.pcbs 0) (hpoint : s'.point 0 = s.point 0)
    (hlocks : s'.kernel.locks = s.kernel.locks) : s'.ShellInv := by
  refine ⟨?_, by rw [hpoint]; exact h.point, fun m => ?_⟩
  · have := h.ready
    exact ⟨by rw [hpcb]; exact this.pid, by rw [hpcb]; exact this.runnable,
      by rw [hpcb]; exact this.priority⟩
  · rw [Kernel.entries_of_locks hlocks, Kernel.entries_of_locks hlocks]
    exact h.mutexes m

/-- A step of lock code. -/
theorem ShellInv.of_frame {s s' : OsState} (h : s.ShellInv)
    (hk : LockFrame s.kernel s'.kernel) (hpoint : (s'.point 0).forShell = true)
    (hmem : ∀ m, (0 ∈ s'.kernel.entries (.mutexOwner m) →
        0 ∈ s.kernel.entries (.mutexOwner m) ∨ 0 ∈ s.kernel.entries (.mutexWaiter m)) ∧
      (0 ∈ s'.kernel.entries (.mutexWaiter m) → 0 ∈ s.kernel.entries (.mutexWaiter m))) :
    s'.ShellInv := by
  refine ⟨LockFrame.shellReady hk h.ready, hpoint, fun m => ⟨fun h0 => ?_, fun h0 => ?_⟩⟩
  · rcases (hmem m).1 h0 with h0 | h0
    · exact (h.mutexes m).1 h0
    · exact (h.mutexes m).2 h0
  · exact (h.mutexes m).2 ((hmem m).2 h0)

theorem ShellInv.dispatched {s s' : OsState} (h : s.ShellInv) {contextEsp esp : Word}
    {woken : List PcbRef} (hd : Kernel.Dispatched s.kernel contextEsp esp s'.kernel woken)
    (hpoint : (s'.point 0).forShell = true) : s'.ShellInv := by
  refine ⟨hd.shell, hpoint, fun m => ?_⟩
  rw [Kernel.entries_of_locks hd.locks, Kernel.entries_of_locks hd.locks]
  exact h.mutexes m

theorem ShellInv.creating {s : OsState} (h : s.ShellInv) {entry : Word}
    {created : Option PcbRef × Kernel}
    (hnone : s.kernel.createTarget entry = none → created.2 = s.kernel)
    (hsome : ∀ p, s.kernel.createTarget entry = some p → Kernel.Created s.kernel p created.2) :
    (s.creating entry created).ShellInv := by
  unfold OsState.creating
  split
  · rename_i hn
    refine h.of_slot ?_ rfl ?_
    · rw [hnone hn]
    · rw [hnone hn]
  · rename_i p hp
    have hc := hsome p hp
    have h0 : (0 : PcbRef) ≠ p := (Kernel.freeSlot_some (Kernel.createTarget_some hp).2).1.symm
    refine h.of_slot (hc.others 0 h0) ?_ hc.locks
    simp [birth, h0]

theorem ShellInv.fork {s : OsState} (h : s.ShellInv) (contextEsp : Word) :
    (s.next (.fork contextEsp)).ShellInv := by
  simp only [next]
  split
  · rename_i hn
    have hr := Kernel.schedulerFork_refused hn contextEsp
    refine h.of_slot ?_ rfl hr.locks
    rcases hr.pcbs 0 with hq | ⟨ht, _, _⟩
    · exact hq
    · exact absurd ht h.ready.not_terminated
  · rename_i child hc
    have hf := Kernel.schedulerFork_spec hc contextEsp
    have h0 : (0 : PcbRef) ≠ child :=
      (Kernel.freeSlot_some (Kernel.forkTarget_some hc).2.2).1.symm
    have hs : ¬ s.kernel.Spills child 0 := by
      rintro ⟨_, hv⟩
      simp at hv
    refine h.of_slot ?_ (by simp [birth, h0]) hf.locks
    have ho := hf.others 0 h0
    rw [hf.pid 0 h0 hs] at ho
    exact ho

/-- The table in which the target of a kill has ended. -/
theorem ShellInv.killed {s : OsState} (h : s.ShellInv) {pid : Word} {p : PcbRef}
    (hp : s.kernel.processGet pid = some p) (hz : pid ≠ 0#32) (contextEsp : Word) :
    ({ s with kernel := (s.kernel.killTarget p).setEax contextEsp 0#32 } : OsState).ShellInv := by
  have hends := (Kernel.killTarget_spec s.kernel p).1
  have h0 : (0 : PcbRef) ≠ p := by
    rintro rfl
    exact hz ((Kernel.processGet_some hp).1.symm.trans h.ready.pid)
  exact h.of_slot (hends.others 0 h0) rfl hends.locks

theorem ShellInv.kill {s : OsState} (h : s.ShellInv) {contextEsp : Word}
    (hctx : contextEsp ≠ 0#32) (pid : Word) : (s.next (.kill contextEsp pid)).ShellInv := by
  simp only [next]
  rcases Kernel.schedulerKill_cases s.kernel contextEsp pid with ⟨_, he⟩ | ⟨p, hp, hz, hcase⟩
  · rw [he]
    exact h.of_slot rfl rfl rfl
  · have hk := h.killed hp hz contextEsp
    rcases hcase with ⟨_, he⟩ | ⟨_, he⟩
    · rw [he]
      exact ⟨hk.ready, hk.point, hk.mutexes⟩
    · rw [he]
      obtain ⟨woken, hd⟩ := Kernel.dispatch_spec hk.ready hctx false
      exact hk.dispatched hd h.point

theorem ShellInv.exit {s : OsState} (h : s.ShellInv) : (s.next .exit).ShellInv := by
  simp only [next]
  by_cases hp : s.kernel.cur.pid = 0#32
  · rw [Kernel.processExit, if_pos hp]
    exact h
  · have hends := (Kernel.processExit_spec _ hp).1
    exact h.of_slot (hends.others 0 (h.current_ne hp).symm) rfl hends.locks

/-- Initialising a lock empties it. -/
theorem ShellInv.init {s : OsState} (h : s.ShellInv) {k : Kernel} (l : Lock)
    (hl : k.locks = (s.kernel.lazyInit l).locks) (hk : LockFrame s.kernel k) :
    ({ s with kernel := k } : OsState).ShellInv := by
  refine h.of_frame hk h.point fun m => ⟨fun h0 => ?_, fun h0 => ?_⟩
  · rw [Kernel.entries_of_locks hl] at h0
    exact .inl (Kernel.lazyInit_entries h0)
  · rw [Kernel.entries_of_locks hl] at h0
    exact Kernel.lazyInit_entries h0

theorem forShell_enter {s : OsState} (h : s.ShellInv) (hc : s.kernel.current = 0) (l : Lock) :
    s.kernel.enter l = .run := by
  have hp : s.kernel.cur.pid = 0#32 := by rw [Kernel.cur, hc]; exact h.ready.pid
  unfold Kernel.enter
  exact if_pos hp

theorem forShell_enterRelease {s : OsState} (h : s.ShellInv) (hc : s.kernel.current = 0) (l : Lock) :
    (s.kernel.enterRelease l).forShell = true := by
  cases l with
  | mutex m =>
    have hm : ¬ s.kernel.mayRelease (.mutex m) := by
      simp only [Kernel.mayRelease, beq_iff_eq, hc]
      exact h.ownsNone m
    simp [Kernel.enterRelease, hm, Point.forShell]
  | sem i =>
    simp only [Kernel.enterRelease]
    split <;> rfl
  | read r | write r =>
    simp only [Kernel.enterRelease]
    split <;> rfl

theorem forShell_advance {s : OsState} (hp : s.here.forShell = true) :
    (s.kernel.advance s.here).1.forShell = true := by
  generalize s.here = point at hp ⊢
  cases point with
  | run => rfl
  | signalInit i => rfl
  | release l => rfl
  | init l | attempt l | full l | wait l | check l => cases hp

theorem setPoint_forShell {s : OsState} (h : s.ShellInv) {point : Point}
    (hp : s.kernel.current = 0 → point.forShell = true) : ((s.setPoint point).point 0).forShell = true := by
  by_cases hc : s.kernel.current = 0
  · simp [setPoint, hc, hp hc]
  · simp [setPoint, Ne.symm hc, h.point]

theorem ShellInv.here {s : OsState} (h : s.ShellInv) (hc : s.kernel.current = 0) :
    s.here.forShell = true := by
  rw [OsState.here, hc]
  exact h.point

theorem ShellInv.advance_frame {s : OsState} (h : s.ShellInv)
    (hr : s.kernel.cur.state = .running) : LockFrame s.kernel (s.kernel.advance s.here).2 := by
  refine Kernel.advance_frame _ h.ownsNone (by rw [hr]; decide) ?_
  rintro ⟨m, hm⟩ hc
  have := h.here hc
  rw [hm] at this
  cases this

theorem ShellInv.proceed {s : OsState} (h : s.ShellInv)
    (hr : s.kernel.cur.state = .running) : (s.next .proceed).ShellInv := by
  refine h.of_frame (h.advance_frame hr) (setPoint_forShell h fun hc => forShell_advance (h.here hc))
    fun m => ⟨fun h0 => ?_, fun h0 => ?_⟩
  all_goals
    rcases Kernel.advance_entries h0 with h0 | h0 | ⟨hc, l, hl⟩
    · simp [h0]
    · simp [Place.queue] at h0
      simp [h0]
    · have := h.here hc.symm
      rw [hl] at this
      cases this

theorem step_shell {s : OsState} (h : s.ShellInv) (a : Action) (he : s.Enabled a) :
    (s.next a).ShellInv := by
  cases a with
  | start => exact h.of_slot rfl rfl rfl
  | create entry name =>
    refine h.creating (fun hn => ?_) (fun p hp => (Kernel.processCreateNamed_spec hp name).1)
    rw [Kernel.processCreateNamed_none hn]
  | threadCreate entry arg name =>
    refine h.creating (fun hn => ?_) (fun p hp => (Kernel.threadCreateNamed_spec hp arg name).1)
    rw [Kernel.threadCreateNamed_none hn]
  | fork contextEsp => exact h.fork contextEsp
  | tick contextEsp =>
    simp only [next, Kernel.schedulerTick]
    cases ht : s.kernel.timerStarted with
    | false => exact h.of_slot rfl rfl rfl
    | true =>
      obtain ⟨woken, hd⟩ := Kernel.dispatch_spec h.ready he true
      exact h.dispatched hd h.point
  | yield contextEsp =>
    obtain ⟨hctx, hy⟩ := he
    obtain ⟨woken, hd⟩ := Kernel.dispatch_spec h.ready hctx false
    refine h.dispatched hd (setPoint_forShell h fun hc => ?_)
    have hp : s.here.forShell = true := by rw [here, hc]; exact h.point
    generalize s.here = point at hp hy
    cases point <;> simp_all [Point.forShell, yields, Point.afterYield]
  | sleep ms =>
    simp only [next]
    rcases Kernel.sleep_cases s.kernel ms with hk | ⟨hp, wakeTick, q, hk, _⟩
    · rw [hk]
      exact h
    · rw [hk]
      refine h.of_slot ?_ rfl rfl
      simp [Kernel.modify_pcbs, (h.current_ne hp).symm]
  | blockForever =>
    have hl := Kernel.blockForever_locks s.kernel
    refine h.of_frame (Kernel.blockForever_frame _ (by rw [he.1]; decide)) h.point fun m => ?_
    simp only [next, Kernel.entries_of_locks hl]
    exact ⟨.inl, id⟩
  | wake p =>
    cases p with
    | none => exact h
    | some p =>
      have hl := Kernel.wake_locks s.kernel p
      refine h.of_frame (Kernel.wake_frame _ p) h.point fun m => ?_
      simp only [next, Kernel.entries_of_locks hl]
      exact ⟨.inl, id⟩
  | kill contextEsp pid => exact h.kill he.1 pid
  | exit => exact h.exit
  | mutexInit m => exact h.init (.mutex m) rfl (Kernel.lazyInit_frame _ (.mutex m))
  | semInit i initialCount =>
    refine h.of_frame (Kernel.setSem_frame _ _ _) h.point fun m => ?_
    exact ⟨.inl, id⟩
  | rwlockInit r => exact h.init (.read r) rfl (Kernel.lazyInit_frame _ (.read r))
  | acquire l =>
    refine h.of_frame (.refl _) ?_ fun m => ⟨.inl, id⟩
    refine setPoint_forShell h fun hc => ?_
    rw [forShell_enter h hc]
    rfl
  | unlock l =>
    refine h.of_frame (.refl _) ?_ fun m => ⟨.inl, id⟩
    exact setPoint_forShell h fun hc => forShell_enterRelease h hc l
  | proceed => exact h.proceed he.1

theorem boot_shell (b : Boot) : (boot b).ShellInv := by
  refine ⟨⟨?_, ?_, ?_⟩, rfl, fun m => ?_⟩
  · rfl
  · exact .inr rfl
  · rfl
  · simp [boot, Kernel.schedulerInit, Kernel.entries]

/-- The shell can run in every state of every run. -/
theorem Reached.shell {P : OsState → Action → Prop} {s : OsState} (h : Reached P s) :
    s.ShellInv := by
  obtain ⟨b, h⟩ := h
  exact h.invariant (boot_shell b) fun s a hs he _ => step_shell hs a he

end OsState

end SengOS
