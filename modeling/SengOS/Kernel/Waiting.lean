import SengOS.Kernel.Queues

/-!
# Who waits at a lock

The queues of all locks hold exactly the processes that blocked themselves in
an acquiring call. A step beside the locks keeps that, because it wakes only
sleepers; a section of a lock call queues and blocks the running process, or
takes processes out of a queue and wakes them.
-/

namespace SengOS

/-- In the loop of an acquiring call, behind the section that queued it. -/
def Point.Waits (point : Point) (l : Lock) : Prop := point = .wait l ∨ point = .check l

theorem Point.Waits.ne_run {point : Point} {l : Lock} (h : point.Waits l) : point ≠ .run := by
  rcases h with rfl | rfl <;> nofun

theorem Point.Waits.lock_eq {point : Point} {l l' : Lock} (h : point.Waits l) (h' : point.Waits l') :
    l = l' := by
  rcases h with rfl | rfl <;> rcases h' with h' | h' <;> simp_all

theorem afterYield_waits {point : Point} {l : Lock} : point.afterYield.Waits l ↔ point.Waits l := by
  cases point <;> simp [Point.afterYield, Point.Waits]

/-- The lock of the call that a process is in. -/
def Point.lock? : Point → Option Lock
  | .run => none
  | .init l | .attempt l | .full l | .wait l | .check l | .release l => some l
  | .signalInit i => some (.sem i)

theorem afterYield_lock? (point : Point) : point.afterYield.lock? = point.lock? := by
  cases point <;> rfl

theorem Point.Waits.lock? {point : Point} {l : Lock} (h : point.Waits l) : point.lock? = some l := by
  rcases h with rfl | rfl <;> rfl

namespace OsState

/-! ## Steps beside the locks -/

/-- Actions that run no code of the locks and wake nobody but sleepers. -/
def Beside : Action → Bool
  | .start | .create _ _ | .threadCreate _ _ _ | .fork _ | .tick _ | .yield _ | .sleep _ | .kill _ _
  | .exit => true
  | _ => false

/-- The action ends the process in slot `p`. -/
def Ends (s : OsState) : Action → PcbRef → Prop
  | .kill _ pid, p => s.kernel.processGet pid = some p ∧ pid ≠ 0#32
  | .exit, p => s.kernel.cur.pid ≠ 0#32 ∧ p = s.kernel.current
  | _, _ => False

/-- The sleepers are blocked and outside the lock calls. -/
structure Asleep (s : OsState) : Prop where
  blocked : ∀ p ∈ s.kernel.sleepQueue, (s.kernel.pcbs p).state = .blocked ∧ s.point p = .run
  nodup : s.kernel.sleepQueue.Nodup

/-- What a step beside the locks leaves of the processes in lock calls; `ends`
are the processes that it ends. -/
structure Quiet (s s' : OsState) (ends : PcbRef → Prop) : Prop where
  locks : s'.kernel.locks = s.kernel.locks
  calls : s'.call = s.call ∧ s'.nextCall = s.nextCall
  point : ∀ p, s'.point p = s.point p ∨ s'.point p = (s.point p).afterYield ∨
    (s'.point p = .run ∧ (s.kernel.pcbs p).state = .terminated)
  alive : ∀ p, (s'.kernel.pcbs p).state ≠ .terminated →
    (s.kernel.pcbs p).state ≠ .terminated ∨ s'.point p = .run
  stays : ∀ p, ¬ ends p → (s.kernel.pcbs p).state ≠ .terminated →
    (s'.kernel.pcbs p).state ≠ .terminated
  blocked : ∀ p, ¬ ends p → (s.kernel.pcbs p).state = .blocked → s.point p ≠ .run →
    (s'.kernel.pcbs p).state = .blocked
  unblocked : ∀ p, (s'.kernel.pcbs p).state = .blocked → s'.point p ≠ .run →
    (s.kernel.pcbs p).state = .blocked

section
variable {s s' : OsState} {ends : PcbRef → Prop}

/-- A step that keeps the state of every process, its point and the sleepers. -/
theorem Quiet.of_states (hlocks : s'.kernel.locks = s.kernel.locks)
    (hcalls : s'.call = s.call ∧ s'.nextCall = s.nextCall) (hpoint : s'.point = s.point)
    (hstate : ∀ p, (s'.kernel.pcbs p).state = (s.kernel.pcbs p).state) :
    Quiet s s' ends where
  locks := hlocks
  calls := hcalls
  point := fun p => .inl (by rw [hpoint])
  alive := fun p hp => .inl (by rwa [hstate] at hp)
  stays := fun p _ hp => by rwa [hstate]
  blocked := fun p _ hp _ => by rwa [hstate]
  unblocked := fun p hp _ => by rwa [hstate] at hp

theorem Asleep.of_states (h : s.Asleep) (hqueue : s'.kernel.sleepQueue = s.kernel.sleepQueue)
    (hpoint : s'.point = s.point)
    (hstate : ∀ p, (s'.kernel.pcbs p).state = (s.kernel.pcbs p).state) : s'.Asleep := by
  refine ⟨fun p hp => ?_, by rw [hqueue]; exact h.nodup⟩
  rw [hqueue] at hp
  rw [hstate, hpoint]
  exact h.blocked p hp

theorem Asleep.running (h : s.Asleep) (hr : s.kernel.cur.state = .running) :
    s.kernel.current ∉ s.kernel.sleepQueue := by
  intro hc
  rw [Kernel.cur, (h.blocked _ hc).1] at hr
  cases hr

theorem Asleep.dispatched (h : s.Asleep) {contextEsp esp : Word} {woken : List PcbRef}
    (hd : Kernel.Dispatched s.kernel contextEsp esp s'.kernel woken)
    (hcalls : s'.call = s.call ∧ s'.nextCall = s.nextCall)
    (hpoint : ∀ p, s'.point p = s.point p ∨ s'.point p = (s.point p).afterYield) :
    Quiet s s' ends ∧ s'.Asleep := by
  have hnodup := h.nodup
  rw [hd.queue] at hnodup
  have hasleep : ∀ p, p ∈ woken ∨ p ∈ s'.kernel.sleepQueue → p ∈ s.kernel.sleepQueue := by
    intro p hp
    rw [hd.queue]
    exact List.mem_append.mpr hp
  constructor
  · constructor
    case locks => exact hd.locks
    case calls => exact hcalls
    case point => exact fun p => (hpoint p).imp_right .inl
    case alive => exact fun p hp => .inl fun ht => hp ((hd.terminated p).mpr ht)
    case stays => exact fun p _ hp ht => hp ((hd.terminated p).mp ht)
    case blocked =>
      intro p _ hb hr
      exact hd.blocked p hb fun hw => hr (h.blocked p (hasleep p (.inl hw))).2
    case unblocked => exact fun p hp _ => hd.still p hp
  · refine ⟨fun p hp => ?_, hnodup.of_append_right⟩
    obtain ⟨hb, hr⟩ := h.blocked p (hasleep p (.inr hp))
    refine ⟨hd.blocked p hb fun hw => List.disjoint_of_nodup_append hnodup hw hp, ?_⟩
    rcases hpoint p with hq | hq <;> rw [hq, hr]
    rfl

theorem Asleep.ended (h : s.Asleep) {p : PcbRef} (he : Kernel.Ended s.kernel p s'.kernel)
    (hqueue : s'.kernel.sleepQueue = s.kernel.sleepQueue.erase p)
    (hcalls : s'.call = s.call ∧ s'.nextCall = s.nextCall) (hpoint : s'.point = s.point)
    (hends : ends p) : Quiet s s' ends ∧ s'.Asleep := by
  have hne : ∀ q, (s'.kernel.pcbs q).state ≠ .terminated → q ≠ p := by
    rintro q hq rfl
    exact hq he.terminated
  have hout : ∀ q, ¬ ends q → q ≠ p := by
    rintro q hq rfl
    exact hq hends
  constructor
  · constructor
    case locks => exact he.locks
    case calls => exact hcalls
    case point => exact fun q => .inl (by rw [hpoint])
    case alive => exact fun q hq => .inl (he.others q (hne q hq) ▸ hq)
    case stays => exact fun q hq ha => by rwa [he.others q (hout q hq)]
    case blocked => exact fun q hq hb _ => by rwa [he.others q (hout q hq)]
    case unblocked =>
      intro q hq _
      rwa [he.others q (hne q (by rw [hq]; decide))] at hq
  · refine ⟨fun q hq => ?_, by rw [hqueue]; exact h.nodup.erase p⟩
    rw [hqueue] at hq
    obtain ⟨hqp, hq⟩ := (List.Nodup.mem_erase_iff h.nodup).mp hq
    rw [he.others q hqp, hpoint]
    exact h.blocked q hq

theorem Asleep.born (h : s.Asleep) {p : PcbRef} (hp : (s.kernel.pcbs p).state = .terminated)
    (hlocks : s'.kernel.locks = s.kernel.locks)
    (hqueue : s'.kernel.sleepQueue = s.kernel.sleepQueue)
    (hready : (s'.kernel.pcbs p).state = .ready)
    (hothers : ∀ q, q ≠ p → (s'.kernel.pcbs q).state = (s.kernel.pcbs q).state)
    (hcalls : s'.call = s.call ∧ s'.nextCall = s.nextCall)
    (hpoint : s'.point = Function.update s.point p .run) :
    Quiet s s' ends ∧ s'.Asleep := by
  have hne : ∀ q, (s.kernel.pcbs q).state ≠ .terminated → q ≠ p := by
    rintro q hq rfl
    exact hq hp
  have hold : ∀ q, q ≠ p → s'.point q = s.point q := fun q hq => by
    rw [hpoint, Function.update_of_ne hq]
  have hnew : s'.point p = .run := by rw [hpoint, Function.update_self]
  constructor
  · constructor
    case locks => exact hlocks
    case calls => exact hcalls
    case point =>
      intro q
      by_cases hq : q = p
      · rw [hq]
        exact .inr (.inr ⟨hnew, hp⟩)
      · exact .inl (hold q hq)
    case alive =>
      intro q ha
      by_cases hq : q = p
      · exact .inr (by rw [hq]; exact hnew)
      · exact .inl (hothers q hq ▸ ha)
    case stays => exact fun q _ ha => by rwa [hothers q (hne q ha)]
    case blocked => exact fun q _ hb _ => by rwa [hothers q (hne q (by rw [hb]; decide))]
    case unblocked =>
      intro q hb _
      rwa [hothers q ?_] at hb
      rintro rfl
      rw [hready] at hb
      cases hb
  · refine ⟨fun q hq => ?_, by rw [hqueue]; exact h.nodup⟩
    rw [hqueue] at hq
    obtain ⟨hb, hr⟩ := h.blocked q hq
    have hqp := hne q (by rw [hb]; decide)
    exact ⟨(hothers q hqp).trans hb, (hold q hqp).trans hr⟩

theorem Asleep.creating (h : s.Asleep) {entry : Word} {created : Option PcbRef × Kernel}
    (hnone : s.kernel.createTarget entry = none → created.2 = s.kernel)
    (hsome : ∀ p, s.kernel.createTarget entry = some p → Kernel.Created s.kernel p created.2) :
    Quiet s (s.creating entry created) ends ∧ (s.creating entry created).Asleep := by
  unfold OsState.creating
  split
  · rename_i hn
    rw [hnone hn]
    exact ⟨.of_states rfl ⟨rfl, rfl⟩ rfl fun _ => rfl, h⟩
  · rename_i p hp
    have hc := hsome p hp
    have hslot := Kernel.freeSlot_some (Kernel.createTarget_some hp).2
    refine h.born hslot.2.1 hc.locks hc.sleepQueue hc.ready (fun q hq => ?_) ⟨rfl, rfl⟩ rfl
    exact congrArg Pcb.state (hc.others q hq)

theorem Asleep.fork (h : s.Asleep) (contextEsp : Word) :
    Quiet s (s.next (.fork contextEsp)) ends ∧ (s.next (.fork contextEsp)).Asleep := by
  simp only [next]
  split
  · rename_i hn
    have hf := Kernel.schedulerFork_refused hn contextEsp
    have hstate : ∀ p, ((s.kernel.schedulerFork contextEsp).2.pcbs p).state = (s.kernel.pcbs p).state := by
      intro p
      rcases hf.pcbs p with hq | ⟨_, _, hq⟩ <;> rw [hq]
    exact ⟨.of_states hf.locks ⟨rfl, rfl⟩ rfl hstate, h.of_states hf.sleepQueue rfl hstate⟩
  · rename_i child hc
    have hf := Kernel.schedulerFork_spec hc contextEsp
    have hslot := Kernel.freeSlot_some (Kernel.forkTarget_some hc).2.2
    refine h.born hslot.2.1 hf.locks hf.sleepQueue hf.ready (fun q hq => ?_) ⟨rfl, rfl⟩ rfl
    rw [hf.others q hq]

theorem Asleep.sleep (h : s.Asleep) (hi : s.Idle) (ms : Word) :
    Quiet s (s.next (.sleep ms)) ends ∧ (s.next (.sleep ms)).Asleep := by
  simp only [next]
  rcases s.kernel.sleep_cases ms with hk | ⟨_, wakeTick, q, hk, hq⟩
  · rw [hk]
    exact ⟨.of_states rfl ⟨rfl, rfl⟩ rfl fun _ => rfl, h⟩
  · rw [hk]
    have hself : ((s.kernel.modify s.kernel.current fun q =>
        { q with wakeTick := wakeTick, state := .blocked }).pcbs s.kernel.current).state = .blocked := by
      rw [Kernel.modify_pcbs_self]
    have hothers : ∀ p, p ≠ s.kernel.current → (s.kernel.modify s.kernel.current fun q =>
        { q with wakeTick := wakeTick, state := .blocked }).pcbs p = s.kernel.pcbs p :=
      fun p hp => Kernel.modify_pcbs_ne _ _ _ hp
    have hrun : (s.kernel.pcbs s.kernel.current).state = .running := hi.1
    constructor
    · constructor
      case locks => rfl
      case calls => exact ⟨rfl, rfl⟩
      case point => exact fun p => .inl rfl
      case alive =>
        intro p ha
        by_cases hp : p = s.kernel.current
        · left
          rw [hp, hrun]
          decide
        · exact .inl (hothers p hp ▸ ha)
      case stays =>
        intro p _ ha
        by_cases hp : p = s.kernel.current
        · rw [hp, hself]
          decide
        · rwa [hothers p hp]
      case blocked =>
        intro p _ hb hr
        have hp : p ≠ s.kernel.current := by
          rintro rfl
          exact hr hi.2
        rwa [hothers p hp]
      case unblocked =>
        intro p hb hr
        have hp : p ≠ s.kernel.current := by
          rintro rfl
          exact hr hi.2
        rwa [hothers p hp] at hb
    · refine ⟨fun p hp => ?_, ?_⟩
      · by_cases hpc : p = s.kernel.current
        · rw [hpc]
          exact ⟨hself, hi.2⟩
        · rw [hothers p hpc]
          rcases hq with rfl | hperm
          · exact h.blocked p hp
          · exact h.blocked p (List.mem_of_ne_of_mem hpc (hperm.mem_iff.mp hp))
      · rcases hq with rfl | hperm
        · exact h.nodup
        · exact hperm.nodup_iff.mpr (List.nodup_cons.mpr ⟨h.running hi.1, h.nodup⟩)

theorem Quiet.trans {s'' : OsState} (h : Quiet s s' ends)
    (h' : Quiet s' s'' fun _ => False) (hpoint : s'.point = s.point)
    (hpoint' : s''.point = s'.point) : Quiet s s'' ends where
  locks := h'.locks.trans h.locks
  calls := ⟨h'.calls.1.trans h.calls.1, h'.calls.2.trans h.calls.2⟩
  point := fun p => .inl (by rw [hpoint', hpoint])
  alive := fun p hp => by
    rcases h'.alive p hp with ha | hr
    · rcases h.alive p ha with ha | hr
      · exact .inl ha
      · exact .inr (by rw [hpoint']; exact hr)
    · exact .inr hr
  stays := fun p he hp => h'.stays p id (h.stays p he hp)
  blocked := fun p he hb hr => h'.blocked p id (h.blocked p he hb hr) (by rw [hpoint]; exact hr)
  unblocked := fun p hb hr => by
    have hr' : s'.point p ≠ .run := by rwa [← hpoint']
    exact h.unblocked p (h'.unblocked p hb hr) hr'

/-- The caller of `scheduler_kill` ends and the dispatcher takes over. -/
theorem Quiet.dispatched {s₁ : OsState} (h : Quiet s s₁ ends) (ha : s₁.Asleep)
    (hpoint : s₁.point = s.point) {contextEsp esp : Word} {woken : List PcbRef}
    (hd : Kernel.Dispatched s₁.kernel contextEsp esp s'.kernel woken)
    (hcalls : s'.call = s₁.call ∧ s'.nextCall = s₁.nextCall) (hpoint' : s'.point = s₁.point) :
    Quiet s s' ends ∧ s'.Asleep := by
  have hswitched : Quiet s₁ s' (fun _ => False) ∧ s'.Asleep :=
    ha.dispatched hd hcalls fun p => .inl (by rw [hpoint'])
  exact ⟨h.trans hswitched.1 hpoint hpoint', hswitched.2⟩

theorem Asleep.kill (h : s.Asleep) (hs : s.ShellInv) {contextEsp : Word} (hctx : contextEsp ≠ 0#32)
    (pid : Word) :
    Quiet s (s.next (.kill contextEsp pid)) (s.Ends (.kill contextEsp pid)) ∧
      (s.next (.kill contextEsp pid)).Asleep := by
  simp only [next]
  rcases Kernel.schedulerKill_cases s.kernel contextEsp pid with ⟨_, he⟩ | ⟨p, hp, hz, hcase⟩
  · rw [he]
    exact ⟨.of_states rfl ⟨rfl, rfl⟩ rfl fun _ => rfl, h.of_states rfl rfl fun _ => rfl⟩
  · obtain ⟨hends, hqueue⟩ := Kernel.killTarget_spec s.kernel p
    have hended := hends.setEax contextEsp 0#32
    have hkilled : Quiet s { s with kernel := (s.kernel.killTarget p).setEax contextEsp 0#32 }
        (s.Ends (.kill contextEsp pid)) ∧
        ({ s with kernel := (s.kernel.killTarget p).setEax contextEsp 0#32 } : OsState).Asleep :=
      h.ended hended hqueue ⟨rfl, rfl⟩ rfl ⟨hp, hz⟩
    rcases hcase with ⟨_, he⟩ | ⟨_, he⟩
    · rw [he]
      exact h.ended hended hqueue ⟨rfl, rfl⟩ rfl ⟨hp, hz⟩
    · rw [he]
      obtain ⟨woken, hd⟩ := Kernel.dispatch_spec (hs.killed hp hz contextEsp).ready hctx false
      exact hkilled.1.dispatched hkilled.2 rfl hd ⟨rfl, rfl⟩ rfl

theorem Asleep.exit (h : s.Asleep) (hr : s.kernel.cur.state = .running) :
    Quiet s (s.next .exit) (s.Ends .exit) ∧ (s.next .exit).Asleep := by
  simp only [next]
  by_cases hp : s.kernel.cur.pid = 0#32
  · rw [Kernel.processExit, if_pos hp]
    exact ⟨.of_states rfl ⟨rfl, rfl⟩ rfl fun _ => rfl, h⟩
  · obtain ⟨hends, hqueue⟩ := Kernel.processExit_spec _ hp
    refine h.ended hends ?_ ⟨rfl, rfl⟩ rfl ⟨hp, rfl⟩
    rw [List.erase_of_not_mem (h.running hr)]
    exact hqueue

/-- The steps beside the locks. -/
theorem Asleep.beside (h : s.Asleep) (hs : s.ShellInv) {a : Action} (he : s.Enabled a)
    (hb : Beside a = true) : Quiet s (s.next a) (s.Ends a) ∧ (s.next a).Asleep := by
  cases a with
  | start => exact ⟨.of_states rfl ⟨rfl, rfl⟩ rfl fun _ => rfl, h.of_states rfl rfl fun _ => rfl⟩
  | create entry name =>
    refine h.creating (fun hn => ?_) fun p hp => (Kernel.processCreateNamed_spec hp name).1
    rw [Kernel.processCreateNamed_none hn]
  | threadCreate entry arg name =>
    refine h.creating (fun hn => ?_) fun p hp => (Kernel.threadCreateNamed_spec hp arg name).1
    rw [Kernel.threadCreateNamed_none hn]
  | fork contextEsp => exact h.fork contextEsp
  | tick contextEsp =>
    obtain ⟨woken, hd⟩ := Kernel.dispatch_spec hs.ready he true
    simp only [next, Kernel.schedulerTick]
    cases s.kernel.timerStarted with
    | false => exact ⟨.of_states rfl ⟨rfl, rfl⟩ rfl fun _ => rfl, h.of_states rfl rfl fun _ => rfl⟩
    | true => exact h.dispatched hd ⟨rfl, rfl⟩ fun _ => .inl rfl
  | yield contextEsp =>
    obtain ⟨woken, hd⟩ := Kernel.dispatch_spec hs.ready he.1 false
    refine h.dispatched hd ⟨rfl, rfl⟩ fun p => ?_
    by_cases hp : p = s.kernel.current
    · right
      rw [hp]
      exact Function.update_self _ _ _
    · exact .inl (Function.update_of_ne hp _ _)
  | sleep ms => exact h.sleep he ms
  | kill contextEsp pid => exact h.kill hs he.1 pid
  | exit => exact h.exit he.1
  | _ => cases hb

/-! ## The queues -/

/-- The queues hold exactly the processes that are blocked in an acquiring call. -/
structure WaitInv (s : OsState) : Prop where
  asleep : s.Asleep
  nodup : ∀ l, (s.kernel.waiters l).Nodup
  queued : ∀ l p, p ∈ s.kernel.waiters l ↔ (s.kernel.pcbs p).state = .blocked ∧ (s.point p).Waits l
  waiting : ∀ p, (s.kernel.pcbs p).state = .blocked → s.point p = .run ∨ ∃ l, (s.point p).Waits l

/-- Nobody waits at the lock, or at either side of a reader-writer lock. -/
def Clear (s : OsState) : Lock → Prop
  | .read r | .write r => s.kernel.waiters (.read r) = [] ∧ s.kernel.waiters (.write r) = []
  | l => s.kernel.waiters l = []

/-- The steps of the calls: processes with a pid wait, no process ends while it
waits, and no lock is initialised while somebody waits at it. -/
def CallRun (s : OsState) : Action → Prop
  | .kill _ pid => ∀ p, s.kernel.processGet pid = some p → pid ≠ 0#32 → ∀ l, p ∉ s.kernel.waiters l
  | .mutexInit m => s.Clear (.mutex m)
  | .semInit i _ => s.Clear (.sem i)
  | .rwlockInit r => s.Clear (.read r)
  | .proceed => (∀ l, s.here = .attempt l → s.kernel.cur.pid ≠ 0#32) ∧
      (∀ l, s.here = .init l → s.Clear l) ∧ ∀ i, s.here = .signalInit i → s.Clear (.sem i)
  | .blockForever | .wake _ => False
  | _ => True

theorem WaitInv.running (h : s.WaitInv) (hr : s.kernel.cur.state = .running) (l : Lock) :
    s.kernel.current ∉ s.kernel.waiters l := by
  intro hc
  rw [Kernel.cur, ((h.queued l _).mp hc).1] at hr
  cases hr

theorem WaitInv.quiet (h : s.WaitInv) (hq : Quiet s s' ends) (ha : s'.Asleep)
    (hends : ∀ p, ends p → ∀ l, p ∉ s.kernel.waiters l) : s'.WaitInv := by
  have hw := Kernel.waiters_of_locks hq.locks
  constructor
  case asleep => exact ha
  case nodup => rw [hw]; exact h.nodup
  case queued =>
    intro l p
    rw [hw]
    constructor
    · intro hp
      obtain ⟨hb, hpt⟩ := (h.queued l p).mp hp
      refine ⟨hq.blocked p (fun he => hends p he l hp) hb hpt.ne_run, ?_⟩
      rcases hq.point p with hs | hs | ⟨_, ht⟩
      · rw [hs]
        exact hpt
      · rw [hs]
        exact afterYield_waits.mpr hpt
      · rw [hb] at ht
        cases ht
    · rintro ⟨hb, hpt⟩
      refine (h.queued l p).mpr ⟨hq.unblocked p hb hpt.ne_run, ?_⟩
      rcases hq.point p with hs | hs | ⟨hs, _⟩ <;> rw [hs] at hpt
      · exact hpt
      · exact afterYield_waits.mp hpt
      · exact absurd rfl hpt.ne_run
  case waiting =>
    intro p hb
    by_cases hr : s'.point p = .run
    · exact .inl hr
    · have hold := h.waiting p (hq.unblocked p hb hr)
      rcases hq.point p with hs | hs | ⟨hs, _⟩
      · rw [hs]
        exact hold
      · rw [hs]
        exact hold.imp afterYield_run.mpr fun ⟨l, hl⟩ => ⟨l, afterYield_waits.mpr hl⟩
      · exact .inl hs

/-- A section that queues and blocks the running process. -/
theorem WaitInv.joins (h : s.WaitInv) (hr : s.kernel.cur.state = .running) {l : Lock}
    (hj : Kernel.Joins s.kernel l s'.kernel)
    (hqueue : s'.kernel.sleepQueue = s.kernel.sleepQueue)
    (hpoint : s'.point = Function.update s.point s.kernel.current (.wait l)) : s'.WaitInv := by
  have hnew : s'.point s.kernel.current = .wait l := by rw [hpoint, Function.update_self]
  have hold : ∀ p, p ≠ s.kernel.current → s'.point p = s.point p := fun p hp => by
    rw [hpoint, Function.update_of_ne hp]
  constructor
  case asleep =>
    refine ⟨fun p hp => ?_, by rw [hqueue]; exact h.asleep.nodup⟩
    rw [hqueue] at hp
    have hpc : p ≠ s.kernel.current := by
      rintro rfl
      exact h.asleep.running hr hp
    rw [hj.others p hpc, hold p hpc]
    exact h.asleep.blocked p hp
  case nodup =>
    intro l'
    by_cases hl : l' = l
    · rw [hl, hj.queue]
      exact (List.perm_append_singleton _ _).nodup_iff.mpr
        (List.nodup_cons.mpr ⟨h.running hr l, h.nodup l⟩)
    · rw [hj.beside l' hl]
      exact h.nodup l'
  case queued =>
    intro l' p
    by_cases hp : p = s.kernel.current
    · rw [hp, hj.blocked, hnew]
      by_cases hl : l' = l
      · rw [hl, hj.queue]
        simp [Point.Waits]
      · rw [hj.beside l' hl]
        simp [Point.Waits, h.running hr l', Ne.symm hl]
    · rw [hj.others p hp, hold p hp, ← h.queued]
      by_cases hl : l' = l
      · rw [hl, hj.queue]
        simp [hp]
      · rw [hj.beside l' hl]
  case waiting =>
    intro p hb
    by_cases hp : p = s.kernel.current
    · rw [hp, hnew]
      exact .inr ⟨l, .inl rfl⟩
    · rw [hj.others p hp] at hb
      rw [hold p hp]
      exact h.waiting p hb

/-- A section that wakes the front of a queue. -/
theorem WaitInv.wakes (h : s.WaitInv) (hr : s.kernel.cur.state = .running) {l : Lock}
    {out : List PcbRef} (hw : Kernel.Wakes s.kernel l out s'.kernel)
    (hqueue : s'.kernel.sleepQueue = s.kernel.sleepQueue) {point : Point}
    (hpoint : s'.point = Function.update s.point s.kernel.current point) : s'.WaitInv := by
  have hold : ∀ p, p ≠ s.kernel.current → s'.point p = s.point p := fun p hp => by
    rw [hpoint, Function.update_of_ne hp]
  have hout : ∀ p ∈ out, p ∈ s.kernel.waiters l := fun p hp => by
    rw [hw.queue]
    exact List.mem_append_left _ hp
  have hnodup := h.nodup l
  rw [hw.queue] at hnodup
  constructor
  case asleep =>
    refine ⟨fun p hp => ?_, by rw [hqueue]; exact h.asleep.nodup⟩
    rw [hqueue] at hp
    obtain ⟨hb, hrun⟩ := h.asleep.blocked p hp
    have hpc : p ≠ s.kernel.current := by
      rintro rfl
      exact h.asleep.running hr hp
    rw [hw.others p ?_, hold p hpc]
    · exact ⟨hb, hrun⟩
    · intro ho
      exact ((h.queued l p).mp (hout p ho)).2.ne_run hrun
  case nodup =>
    intro l'
    by_cases hl : l' = l
    · rw [hl]
      exact hnodup.of_append_right
    · rw [hw.beside l' hl]
      exact h.nodup l'
  case queued =>
    intro l' p
    by_cases hp : p ∈ out
    · obtain ⟨hb, hpt⟩ := (h.queued l p).mp (hout p hp)
      rw [hw.woken p hp hb]
      constructor
      · intro hin
        by_cases hl : l' = l
        · rw [hl] at hin
          exact absurd hin fun hin => List.disjoint_of_nodup_append hnodup hp hin
        · rw [hw.beside l' hl] at hin
          exact absurd (((h.queued l' p).mp hin).2.lock_eq hpt) hl
      · rintro ⟨hb', _⟩
        cases hb'
    · have hin : p ∈ s'.kernel.waiters l' ↔ p ∈ s.kernel.waiters l' := by
        by_cases hl : l' = l
        · rw [hl, hw.queue, List.mem_append]
          simp [hp]
        · rw [hw.beside l' hl]
      rw [hin, h.queued, hw.others p hp]
      apply and_congr_right
      intro hb
      have hpc : p ≠ s.kernel.current := by
        rintro rfl
        rw [Kernel.cur, hb] at hr
        cases hr
      rw [hold p hpc]
  case waiting =>
    intro p hb
    have hp : p ∉ out := by
      intro ho
      rw [hw.woken p ho ((h.queued l p).mp (hout p ho)).1] at hb
      cases hb
    rw [hw.others p hp] at hb
    have hpc : p ≠ s.kernel.current := by
      rintro rfl
      rw [Kernel.cur, hb] at hr
      cases hr
    rw [hold p hpc]
    exact h.waiting p hb

theorem lazyInit_waiters {l : Lock} (h : s.Clear l) :
    (s.kernel.lazyInit l).waiters = s.kernel.waiters := by
  funext l'
  cases l with
  | mutex m =>
    have hlocks : (s.kernel.mutexInit m).locks =
        (s.kernel.setMutex m ⟨false, true, none, []⟩).locks := by
      unfold Kernel.mutexInit
      dsimp only
      split <;> rfl
    rw [Kernel.lazyInit, Kernel.waiters_of_locks hlocks, Kernel.waiters_setMutex]
    split
    · rename_i hl
      rw [hl]
      exact Eq.symm h
    · rfl
  | sem i =>
    rw [Kernel.lazyInit, Kernel.semaphoreInit, Kernel.waiters_setSem]
    split
    · rename_i hl
      rw [hl]
      exact Eq.symm h
    · rfl
  | read r | write r =>
    rw [Kernel.lazyInit, Kernel.rwlockInit, Kernel.waiters_setRwlock]
    split
    · rename_i hl
      rw [hl]
      exact h.1.symm
    · split
      · rename_i hl
        rw [hl]
        exact h.2.symm
      · rfl

theorem semaphoreInit_waiters {i : Nat} (h : s.Clear (.sem i)) (initialCount : Word) :
    (s.kernel.semaphoreInit i initialCount).waiters = s.kernel.waiters := by
  funext l
  rw [Kernel.semaphoreInit, Kernel.waiters_setSem]
  split
  · rename_i hl
    rw [hl]
    exact Eq.symm h
  · rfl

theorem enter_cases (k : Kernel) (l : Lock) :
    k.enter l = .run ∨ (k.enter l = .init l ∧ k.initialized l = false) ∨ k.enter l = .attempt l := by
  unfold Kernel.enter
  split
  · exact .inl rfl
  · split
    · rename_i hi
      exact .inr (.inl ⟨rfl, by simpa using hi⟩)
    · cases l with
      | mutex m =>
        dsimp only
        split
        · exact .inl rfl
        · exact .inr (.inr rfl)
      | _ => exact .inr (.inr rfl)

theorem enterRelease_cases (k : Kernel) (l : Lock) :
    k.enterRelease l = .run ∨ k.enterRelease l = .release l ∨
      ∃ i, l = .sem i ∧ k.enterRelease l = .signalInit i ∧ (k.sems i).initialized = false := by
  cases l with
  | sem i =>
    simp only [Kernel.enterRelease]
    split
    · rename_i hi
      exact .inr (.inr ⟨i, rfl, rfl, by simpa [Kernel.initialized] using hi⟩)
    · exact .inr (.inl rfl)
  | _ =>
    simp only [Kernel.enterRelease]
    split
    · exact .inr (.inl rfl)
    · exact .inl rfl

/-- What a process in a lock call does next: its new point, and the kernel. -/
inductive Proceeds (s : OsState) : Point × Kernel → Prop
  | init (l : Lock) (here : s.here = .init l) : Proceeds s (.attempt l, s.kernel.lazyInit l)
  | signalInit (i : Nat) (here : s.here = .signalInit i) :
      Proceeds s (.release (.sem i), s.kernel.semaphoreInit i 0#32)
  | got (l : Lock) (here : s.here = .attempt l) (got : (s.kernel.attempt l).1 = .got)
      (rests : Kernel.Wakes s.kernel l [] (s.kernel.attempt l).2) :
      Proceeds s (.run, (s.kernel.attempt l).2)
  | waits (l : Lock) (here : s.here = .attempt l) (waits : (s.kernel.attempt l).1 = .waits)
      (joins : Kernel.Joins s.kernel l (s.kernel.attempt l).2) :
      Proceeds s (.wait l, (s.kernel.attempt l).2)
  | returns (l : Lock) (here : s.here = .check l) (granted : s.kernel.granted l = true) :
      Proceeds s (.run, s.kernel.settle l)
  | retries (l : Lock) (here : s.here = .check l) (granted : s.kernel.granted l = false) :
      Proceeds s (.attempt l, s.kernel)
  | release (l : Lock) (here : s.here = .release l) : Proceeds s (.run, s.kernel.release l)

theorem WaitInv.proceeds (h : s.WaitInv) (hs : s.ShellInv) (he : s.Enabled .proceed)
    (hrun : s.CallRun .proceed) : Proceeds s (s.kernel.advance s.here) := by
  obtain ⟨hr, hy⟩ := he
  cases hp : s.here with
  | init l => exact .init l hp
  | attempt l =>
    have hacq := Kernel.attempt_acquires hs.ownsNone (hrun.1 l hp) (h.nodup l) (h.running hr l)
    simp only [Kernel.advance]
    generalize ha : s.kernel.attempt l = r at hacq
    obtain ⟨attempt, k'⟩ := r
    have hk : k' = (s.kernel.attempt l).2 := by rw [ha]
    cases hacq with
    | passes rests =>
      dsimp only
      rw [hk] at rests ⊢
      exact .got l hp (by rw [ha]) rests
    | joins joins =>
      dsimp only
      rw [hk] at joins ⊢
      exact .waits l hp (by rw [ha]) joins
  | check l =>
    simp only [Kernel.advance]
    cases hg : s.kernel.granted l with
    | true => exact .returns l hp hg
    | false => exact .retries l hp hg
  | signalInit i => exact .signalInit i hp
  | release l => exact .release l hp
  | run | full l | wait l =>
    rw [hp] at hy
    exact absurd rfl hy

theorem settle_wakes (k : Kernel) (l : Lock) : Kernel.Wakes k l [] (k.settle l) := by
  apply Kernel.Wakes.none
  · cases l with
    | mutex m => exact Kernel.waiters_of_locks (Kernel.modify_locks _ _ _)
    | _ => rfl
  · intro p
    cases l with
    | mutex m =>
      have hsame : ((k.settle (.mutex m)).pcbs p).state = (k.pcbs p).state := by
        rw [Kernel.settle, Kernel.modify_pcbs]
        split
        · rename_i hp
          rw [hp]
        · rfl
      exact hsame
    | _ => rfl

/-- Every section queues the running process or wakes the front of a queue. -/
theorem Proceeds.queues {r : Point × Kernel} (h : Proceeds s r) (hrun : s.CallRun .proceed) :
    (∃ l, r.1 = .wait l ∧ Kernel.Joins s.kernel l r.2) ∨
      ∃ l out, Kernel.Wakes s.kernel l out r.2 := by
  cases h with
  | init l here =>
    refine .inr ⟨l, [], .none (lazyInit_waiters (hrun.2.1 l here)) fun p => ?_⟩
    cases l with
    | mutex m => exact congrArg (fun pcbs => (pcbs p).state) (Kernel.mutexInit_pcbs s.kernel m)
    | _ => rfl
  | signalInit i here =>
    exact .inr ⟨.sem i, [], .none (semaphoreInit_waiters (hrun.2.2 i here) _) fun _ => rfl⟩
  | got l here got rests => exact .inr ⟨l, [], rests⟩
  | waits l here waits joins => exact .inl ⟨l, rfl, joins⟩
  | returns l here granted => exact .inr ⟨l, [], settle_wakes _ l⟩
  | retries l here granted => exact .inr ⟨l, [], .none rfl fun _ => rfl⟩
  | release l here => exact .inr (Kernel.release_wakes l)

/-- A section is about the lock of the call that its process is in. -/
theorem Proceeds.only {result : Point × Kernel} (h : Proceeds s result) :
    ∃ l, s.here.lock? = some l ∧ Kernel.Only s.kernel l result.2 ∧
      (result.1.lock? = none ∨ result.1.lock? = some l) := by
  cases h with
  | init l here => exact ⟨l, by rw [here]; rfl, Kernel.lazyInit_only _ l, .inr rfl⟩
  | signalInit i here => exact ⟨.sem i, by rw [here]; rfl, Kernel.lazyInit_only _ (.sem i), .inr rfl⟩
  | got l here got rests => exact ⟨l, by rw [here]; rfl, Kernel.attempt_only _ l, .inl rfl⟩
  | waits l here waits joins => exact ⟨l, by rw [here]; rfl, Kernel.attempt_only _ l, .inr rfl⟩
  | returns l here granted =>
    exact ⟨l, by rw [here]; rfl, (Kernel.Only.refl _ l).of_locks (Kernel.settle_locks _ l), .inl rfl⟩
  | retries l here granted => exact ⟨l, by rw [here]; rfl, .refl _ l, .inr rfl⟩
  | release l here => exact ⟨l, by rw [here]; rfl, Kernel.release_only _ l, .inl rfl⟩

theorem WaitInv.proceed (h : s.WaitInv) (hs : s.ShellInv) (he : s.Enabled .proceed)
    (hrun : s.CallRun .proceed) : (s.next .proceed).WaitInv := by
  have hqueue := (hs.advance_frame he.1).sleepQueue
  rcases (h.proceeds hs he hrun).queues hrun with ⟨l, hp, hj⟩ | ⟨l, out, hw⟩
  · apply h.joins he.1 hj hqueue
    rw [← hp]
    rfl
  · exact h.wakes he.1 hw hqueue rfl

/-- A step that changes only the point of the running process. -/
theorem WaitInv.moves (h : s.WaitInv) (hr : s.kernel.cur.state = .running)
    (hkernel : s'.kernel = s.kernel) {point : Point}
    (hpoint : s'.point = Function.update s.point s.kernel.current point) : s'.WaitInv := by
  have hw : Kernel.Wakes s.kernel (.sem 0) [] s'.kernel := by
    rw [hkernel]
    exact .none rfl fun _ => rfl
  exact h.wakes hr hw (by rw [hkernel]) hpoint

/-- An initialisation of a lock at which nobody waits. -/
theorem WaitInv.initialises (h : s.WaitInv) (hr : s.kernel.cur.state = .running)
    (hw : s'.kernel.waiters = s.kernel.waiters) (hs : s'.kernel.pcbs = s.kernel.pcbs)
    (hqueue : s'.kernel.sleepQueue = s.kernel.sleepQueue) (hpoint : s'.point = s.point) :
    s'.WaitInv := by
  have hwakes : Kernel.Wakes s.kernel (.sem 0) [] s'.kernel := .none hw fun p => by rw [hs]
  have hsame : s'.point = Function.update s.point s.kernel.current (s.point s.kernel.current) := by
    rw [hpoint, Function.update_eq_self]
  exact h.wakes hr hwakes hqueue hsame

/-- What every step of the calls keeps. -/
theorem WaitInv.next (h : s.WaitInv) (hs : s.ShellInv) {a : Action} (he : s.Enabled a)
    (hrun : s.CallRun a) : (s.next a).WaitInv := by
  by_cases hb : Beside a = true
  · obtain ⟨hq, ha⟩ := h.asleep.beside hs he hb
    refine h.quiet hq ha fun p hp l => ?_
    cases a with
    | kill contextEsp pid => exact hrun p hp.1 hp.2 l
    | exit =>
      rw [hp.2]
      exact h.running he.1 l
    | _ => cases hp
  · cases a with
    | mutexInit m =>
      exact h.initialises he.1 (lazyInit_waiters (l := .mutex m) hrun) (Kernel.mutexInit_pcbs _ m)
        (Kernel.lazyInit_frame _ (.mutex m)).sleepQueue rfl
    | semInit i c => exact h.initialises he.1 (semaphoreInit_waiters hrun c) rfl rfl rfl
    | rwlockInit r =>
      exact h.initialises he.1 (lazyInit_waiters (l := .read r) hrun) rfl rfl rfl
    | acquire l => exact h.moves he.1 rfl rfl
    | unlock l => exact h.moves he.1 rfl rfl
    | proceed => exact h.proceed hs he hrun
    | blockForever | wake p => cases hrun
    | _ => exact absurd rfl hb

/-- The queues change in the sections only. -/
theorem WaitInv.waiters_next (h : s.WaitInv) (hs : s.ShellInv) {a : Action} (he : s.Enabled a)
    (hrun : s.CallRun a) (ha : a ≠ .proceed) : (s.next a).kernel.waiters = s.kernel.waiters := by
  by_cases hb : Beside a = true
  · exact Kernel.waiters_of_locks (h.asleep.beside hs he hb).1.locks
  · cases a with
    | mutexInit m => exact lazyInit_waiters (l := .mutex m) hrun
    | semInit i c => exact semaphoreInit_waiters hrun c
    | rwlockInit r => exact lazyInit_waiters (l := .read r) hrun
    | acquire l | unlock l => rfl
    | proceed => exact absurd rfl ha
    | blockForever | wake p => cases hrun
    | _ => exact absurd rfl hb

theorem boot_wait (b : Boot) : (boot b).WaitInv := by
  refine ⟨⟨by nofun, .nil⟩, fun l => ?_, fun l p => ?_, fun p _ => .inl rfl⟩
  · cases l <;> exact .nil
  · have hempty : (boot b).kernel.waiters l = [] := by cases l <;> rfl
    have hno : ¬ ((boot b).point p).Waits l := by
      rintro (hp | hp) <;> cases hp
    rw [hempty]
    simp only [List.not_mem_nil, hno, and_false]

end

end OsState

end SengOS
