import SengOS.Kernel.MutexInvariant

/-!
# The mutex protocol

Runs of `mutex_lock` and `mutex_unlock` cut at their sections, mixed with
dispatches and with the creation, the sleep and the end of processes. A waiter
is never lost, the test behind its yield succeeds, and the calls are served in
the order in which they were queued.
-/

namespace SengOS

namespace OsState

section
variable {s s' : OsState}

/-! ## What the running process does next -/

/-- The sections that a process in a mutex call can run. -/
inductive Section (s : OsState) (m : Nat) (s' : OsState) : Prop
  | initialises (here : s.here = .init (.mutex m)) (unused : s.Unused m)
      (mutexes : SameMutexes s.kernel s'.kernel) (waits : SameWaits s.kernel s'.kernel)
      (calls : SameCalls s s')
      (point : s'.point = Function.update s.point s.kernel.current (.attempt (.mutex m)))
  | takes (here : s.here = .attempt (.mutex m)) (free : (s.kernel.mutexes m).locked = false)
      (mutexes : s'.kernel.mutexes = Function.update s.kernel.mutexes m
        { s.kernel.mutexes m with locked := true, owner := some s.kernel.current })
      (waits : SameWaits s.kernel s'.kernel) (calls : SameCalls s s')
      (point : s'.point = Function.update s.point s.kernel.current .run)
  | retries (here : s.here = .attempt (.mutex m)) (kernel : s'.kernel = s.kernel)
      (calls : SameCalls s s')
      (point : s'.point = Function.update s.point s.kernel.current (.full (.mutex m)))
  | queues (here : s.here = .attempt (.mutex m)) (locked : (s.kernel.mutexes m).locked = true)
      (mutexes : s'.kernel.mutexes = Function.update s.kernel.mutexes m
        { s.kernel.mutexes m with waiters := (s.kernel.mutexes m).waiters ++ [s.kernel.current] })
      (others : ∀ p, p ≠ s.kernel.current → (s'.kernel.pcbs p).state = (s.kernel.pcbs p).state ∧
        (s'.kernel.pcbs p).waitingMutex = (s.kernel.pcbs p).waitingMutex)
      (blocked : (s'.kernel.pcbs s.kernel.current).state = .blocked)
      (waiting : (s'.kernel.pcbs s.kernel.current).waitingMutex = some m)
      (calls : s'.call = s.call ∧ s'.nextCall = s.nextCall)
      (queued : s'.queued = Function.update s.queued m (s.queued m ++ [s.call s.kernel.current]))
      (granted : s'.granted = s.granted)
      (point : s'.point = Function.update s.point s.kernel.current (.wait (.mutex m)))
  | returns (here : s.here = .check (.mutex m))
      (owner : (s.kernel.mutexes m).owner = some s.kernel.current)
      (mutexes : s'.kernel.mutexes = s.kernel.mutexes)
      (waits : ∀ p, (s'.kernel.pcbs p).state = (s.kernel.pcbs p).state ∧
        (p ≠ s.kernel.current → (s'.kernel.pcbs p).waitingMutex = (s.kernel.pcbs p).waitingMutex))
      (calls : SameCalls s s')
      (point : s'.point = Function.update s.point s.kernel.current .run)
  | releases (here : s.here = .release (.mutex m))
      (owner : (s.kernel.mutexes m).owner = some s.kernel.current)
      (released : Kernel.Released s.kernel m s'.kernel)
      (calls : s'.call = s.call ∧ s'.nextCall = s.nextCall) (queued : s'.queued = s.queued)
      (granted : s'.granted = Function.update s.granted m
        (s.granted m ++ ((s.kernel.mutexes m).waiters.head?.map s.call).toList))
      (point : s'.point = Function.update s.point s.kernel.current .run)

theorem queuedBy_eq (hq : ∀ m, s.here = .attempt (.mutex m) → (s.kernel.mutexAttempt m).1 ≠ .waits) :
    s.queuedBy = s.queued := by
  funext m
  exact if_neg fun hc => hq m hc.1 hc.2.1

theorem grantedBy_eq (hg : ∀ m, s.here ≠ .release (.mutex m)) : s.grantedBy = s.granted := by
  funext m
  exact if_neg (hg m)

theorem queuedBy_waits {m : Nat} (hh : s.here = .attempt (.mutex m))
    (hw : (s.kernel.mutexAttempt m).1 = .waits)
    (hc : s.kernel.current ∉ (s.kernel.mutexes m).waiters) :
    s.queuedBy = Function.update s.queued m (s.queued m ++ [s.call s.kernel.current]) := by
  funext n
  by_cases hn : n = m
  · rw [hn, Function.update_self]
    exact if_pos ⟨hh, hw, hc⟩
  · rw [Function.update_of_ne hn]
    refine if_neg fun hcond => hn ?_
    rw [hh] at hcond
    simpa using hcond.1.symm

theorem grantedBy_release {m : Nat} (hh : s.here = .release (.mutex m)) :
    s.grantedBy = Function.update s.granted m
      (s.granted m ++ ((s.kernel.mutexes m).waiters.head?.map s.call).toList) := by
  funext n
  by_cases hn : n = m
  · rw [hn, Function.update_self]
    exact if_pos hh
  · rw [Function.update_of_ne hn]
    refine if_neg fun hcond => hn ?_
    rw [hh] at hcond
    simpa using hcond.symm

theorem waitqAdd_new {q q' : List PcbRef} {p : PcbRef} (h : waitqAdd q p = some q') (hp : p ∉ q) :
    q' = q ++ [p] := by
  unfold waitqAdd at h
  split at h
  · cases h
  · exact (Option.some.inj h).symm

theorem next_proceed (s : OsState) : s.next .proceed =
    { s.setPoint (s.kernel.advance s.here).1 with
      kernel := (s.kernel.advance s.here).2
      claimed := s.claims (s.kernel.advance s.here).2
      queued := s.queuedBy
      granted := s.grantedBy } := rfl

theorem MutexInv.proceeds (h : s.MutexInv) (hs : s.ShellInv) (he : s.Enabled .proceed)
    (hrun : s.MutexRun .proceed) : ∃ m, s.Section m (s.next .proceed) := by
  obtain ⟨hr, hy⟩ := he
  obtain ⟨hpid, hunused⟩ := hrun
  have hpoint := h.points s.kernel.current
  rw [show s.point s.kernel.current = s.here from rfl] at hpoint
  have halive : (s.kernel.pcbs s.kernel.current).state ≠ .terminated := by
    rw [show (s.kernel.pcbs s.kernel.current).state = .running from hr]
    decide
  cases hh : s.here with
  | run | full l | wait l => simp [hh, yields] at hy
  | signalInit i => simp [hh, Point.ofMutex] at hpoint
  | init l =>
    cases l with
    | mutex m =>
      have hu := hunused m hh
      have hq := queuedBy_eq (s := s) (by simp [hh])
      have hg := grantedBy_eq (s := s) (by simp [hh])
      rw [next_proceed, hq, hg, hh]
      refine ⟨m, .initialises hh hu (h.initialises hu) (fun p => ?_) ⟨rfl, rfl, rfl, rfl⟩ rfl⟩
      rw [show (s.kernel.advance (.init (.mutex m))).2.pcbs = s.kernel.pcbs from
        Kernel.mutexInit_pcbs _ _]
      exact ⟨rfl, rfl⟩
    | sem i | read r | write r => simp [hh, Point.ofMutex] at hpoint
  | attempt l =>
    cases l with
    | mutex m =>
      have hg := grantedBy_eq (s := s) (by simp [hh])
      have spec := Kernel.mutexAttempt_spec hs.ownsNone hpid m
      refine ⟨m, ?_⟩
      rw [next_proceed, hg, hh]
      generalize hk : s.kernel.mutexAttempt m = r at spec
      obtain ⟨outcome, k'⟩ := r
      have hw : (s.kernel.mutexAttempt m).1 = outcome := by rw [hk]
      simp only [Kernel.advance, Kernel.attempt, hk]
      cases spec with
      | got free mutexes waits =>
        have hq := queuedBy_eq (s := s) (by simp [hh, hw])
        rw [hq]
        exact .takes hh free mutexes waits ⟨rfl, rfl, rfl, rfl⟩ rfl
      | full locked =>
        have hq := queuedBy_eq (s := s) (by simp [hh, hw])
        rw [hq]
        exact .retries hh rfl ⟨rfl, rfl, rfl, rfl⟩ rfl
      | waits q locked queue mutexes others blocked waiting =>
        have hnot := h.running_not_waiter hr m
        rw [waitqAdd_new queue hnot] at mutexes
        exact .queues hh locked mutexes others blocked waiting ⟨rfl, rfl⟩
          (queuedBy_waits hh hw hnot) rfl rfl
    | sem i | read r | write r => simp [hh, Point.ofMutex] at hpoint
  | check l =>
    cases l with
    | mutex m =>
      have hq := queuedBy_eq (s := s) (by simp [hh])
      have hg := grantedBy_eq (s := s) (by simp [hh])
      have ho := ((h.mutex m).waiting _ halive (.inr hh)).1.resolve_left (h.running_not_waiter hr m)
      have hgr : s.kernel.granted (.mutex m) = true := by simp [Kernel.granted, ho]
      rw [next_proceed, hq, hg, hh]
      simp only [Kernel.advance, hgr, if_true, Kernel.settle]
      refine ⟨m, .returns hh ho rfl (fun p => ?_) ⟨rfl, rfl, rfl, rfl⟩ rfl⟩
      dsimp only
      rw [Kernel.modify_pcbs]
      split
      · rename_i hp
        rw [hp]
        exact ⟨rfl, fun hne => absurd rfl hne⟩
      · exact ⟨rfl, fun _ => rfl⟩
    | sem i | read r | write r => simp [hh, Point.ofMutex] at hpoint
  | release l =>
    cases l with
    | mutex m =>
      have hq := queuedBy_eq (s := s) (by simp [hh])
      have ho := (h.mutex m).releasing _ halive hh
      rw [next_proceed, hq, hh]
      exact ⟨m, .releases hh ho (Kernel.mutexRelease_spec (hs.current_ne hpid) m) ⟨rfl, rfl⟩ rfl
        (grantedBy_release hh) rfl⟩
    | sem i | read r | write r => simp [hh, Point.ofMutex] at hpoint

theorem MutexInv.section (h : s.MutexInv) (hr : s.kernel.cur.state = .running) {m : Nat}
    (hframe : LockFrame s.kernel s'.kernel) (hsec : s.Section m s') : s'.MutexInv := by
  have hhere : (s.setPoint .run).here = .run := Function.update_self _ _ _
  cases hsec with
  | initialises here unused mutexes waits calls point =>
    have hmoved : (s.setPoint (.attempt (.mutex m))).MutexInv := by
      refine h.moves hr rfl (fun n hw => ?_) (fun n hw => ?_) (fun n ht => ?_) fun n _ _ => ?_
      · simp [Point.Waiting] at hw
      · cases hw
      · obtain rfl : m = n := by simpa [Point.Trying] using ht
        rw [unused.1]
        exact (Option.some_ne_none _).symm
      · exact (h.mutex n).unqueued m _ (.inl here)
    exact hmoved.of_sameWaits mutexes hframe.sleepQueue
      (fun p => ⟨(waits p).1, fun _ => (waits p).2⟩) hr calls point
  | takes here free mutexes waits calls point =>
    exact (h.moves_run hr).takes hhere hr free mutexes waits hframe.sleepQueue calls point
  | retries here kernel calls point =>
    have howner : (s.kernel.mutexes m).owner ≠ some s.kernel.current :=
      fun ho => ((h.mutex m).owner _ ho).2 (.inl here)
    have hmoved : (s.setPoint (.full (.mutex m))).MutexInv := by
      refine h.moves hr rfl (fun n hw => ?_) (fun n hw => ?_) (fun n ht => ?_) fun n _ _ => ?_
      · simp [Point.Waiting] at hw
      · cases hw
      · obtain rfl : m = n := by simpa [Point.Trying] using ht
        exact howner
      · exact (h.mutex n).unqueued m _ (.inr (.inl here))
    refine hmoved.of_sameWaits (.of_locks (by rw [kernel]; rfl)) hframe.sleepQueue (fun p => ?_) hr
      calls point
    rw [kernel]
    exact ⟨rfl, fun _ => rfl⟩
  | queues here locked mutexes others blocked waiting calls queued granted point =>
    refine (h.moves_run hr).queues hhere hr locked (fun ho => ((h.mutex m).owner _ ho).2 (.inl here))
      (fun n => (h.mutex n).unqueued m _ (.inr (.inl here))) mutexes others blocked waiting
      hframe.sleepQueue calls queued granted ?_
    rw [point]
    exact (Function.update_idem _ _ _).symm
  | returns here owner mutexes waits calls point =>
    refine (h.moves_run hr).of_sameWaits (fun n => ?_) hframe.sleepQueue waits hr calls point
    rw [mutexes]
    exact ⟨rfl, rfl, rfl⟩
  | releases here owner released calls queued granted point =>
    exact (h.moves_run hr).releases hhere owner released hframe calls queued granted point

theorem step_mutex (h : s.MutexInv) (hs : s.ShellInv) (a : Action) (he : s.Enabled a)
    (hrun : s.MutexRun a) : (s.next a).MutexInv := by
  cases a with
  | start =>
    exact h.of_sameWaits (.of_locks rfl) rfl (fun _ => ⟨rfl, fun _ => rfl⟩) he.1
      ⟨rfl, rfl, rfl, rfl⟩ rfl
  | create entry name =>
    refine h.creating (fun hn => ?_) (fun p hp => (Kernel.processCreateNamed_spec hp name).1)
    rw [Kernel.processCreateNamed_none hn]
  | threadCreate entry arg name =>
    refine h.creating (fun hn => ?_) (fun p hp => (Kernel.threadCreateNamed_spec hp arg name).1)
    rw [Kernel.threadCreateNamed_none hn]
  | fork contextEsp => exact h.fork he.2.1 contextEsp
  | tick contextEsp =>
    obtain ⟨woken, hd⟩ := Kernel.dispatch_spec hs.ready he true
    simp only [next, Kernel.schedulerTick]
    cases s.kernel.timerStarted with
    | false =>
      exact h.of_quiet (.of_locks rfl) ⟨rfl, rfl, rfl, rfl⟩ (fun _ => .inl rfl) (fun _ ha => .inl ha)
        (fun m p hp => ⟨((h.mutex m).waiter p hp).2.1, rfl⟩) (fun m p hp => ((h.mutex m).owner p hp).1)
        h.asleep h.sleepers
    | true => exact h.dispatched hd ⟨rfl, rfl, rfl, rfl⟩ fun p => .inl rfl
  | yield contextEsp =>
    obtain ⟨woken, hd⟩ := Kernel.dispatch_spec hs.ready he.1 false
    refine h.dispatched hd ⟨rfl, rfl, rfl, rfl⟩ fun p => ?_
    by_cases hp : p = s.kernel.current
    · right
      rw [hp]
      exact Function.update_self _ _ _
    · exact .inl (Function.update_of_ne hp _ _)
  | sleep ms => exact h.sleep he ms
  | kill contextEsp pid => exact h.kill hs he.1 he.2.1 hrun
  | exit => exact h.exit he.1 hrun
  | mutexInit m => exact h.mutexInit he.1 hrun
  | acquire l =>
    cases l with
    | mutex m => exact h.acquire he m
    | sem i | read r | write r => cases hrun
  | unlock l =>
    cases l with
    | mutex m => exact h.unlock he m
    | sem i | read r | write r => cases hrun
  | proceed =>
    obtain ⟨m, hsec⟩ := h.proceeds hs he hrun
    exact h.section he.1 (hs.advance_frame he.1) hsec
  | blockForever | wake p | semInit i c | rwlockInit r => cases hrun

theorem boot_mutexInv (b : Boot) : (boot b).MutexInv := by
  refine ⟨fun _ => rfl, nofun, .nil, fun p q hpq => Fin.ext hpq, fun p => p.isLt, fun m => ?_⟩
  constructor
  case locked => rfl
  case owned => nofun
  case nodup => exact .nil
  case waiter => nofun
  case owner => nofun
  case waiting => exact fun p _ hw => absurd rfl hw.ne_run
  case releasing => nofun
  case log => rfl
  case distinct => exact .nil
  case logged => nofun
  case unqueued => exact fun _ _ _ => List.not_mem_nil

theorem Reached.mutexInv (h : Reached MutexRun s) : s.MutexInv := by
  obtain ⟨b, h⟩ := h
  exact (h.invariant (I := fun s => s.ShellInv ∧ s.MutexInv) ⟨boot_shell b, boot_mutexInv b⟩
    fun s a hi he hp => ⟨step_shell hi.1 a he, step_mutex hi.2 hi.1 a he hp⟩).2

/-! ## The protocol -/

/-- A mutex and the processes that wait for it. -/
structure Exclusive (s : OsState) (m : Nat) : Prop where
  locked : (s.kernel.mutexes m).locked = true ↔ (s.kernel.mutexes m).owner ≠ none
  nodup : (s.kernel.mutexes m).waiters.Nodup
  owner : ∀ p ∈ (s.kernel.mutexes m).waiters, (s.kernel.mutexes m).owner ≠ some p
  blocked : ∀ p ∈ (s.kernel.mutexes m).waiters,
    (s.kernel.pcbs p).state = .blocked ∧ (s.kernel.pcbs p).waitingMutex = some m
  alone : ∀ p ∈ (s.kernel.mutexes m).waiters, ∀ n, p ∈ (s.kernel.mutexes n).waiters → n = m
  owned : (s.kernel.mutexes m).waiters ≠ [] → (s.kernel.mutexes m).owner ≠ none

/-- What a step does to the owner, the queue and the logs of a mutex: the mutex
changes hands only when it is free or, from the owner that unlocks it, to the
first of the queue. -/
inductive Serves (s : OsState) (m : Nat) (s' : OsState) : Prop
  | rests (owner : (s'.kernel.mutexes m).owner = (s.kernel.mutexes m).owner)
      (waiters : (s'.kernel.mutexes m).waiters = (s.kernel.mutexes m).waiters)
      (logs : s'.queued m = s.queued m ∧ s'.granted m = s.granted m)
  | takes (free : s.Unused m) (owner : (s'.kernel.mutexes m).owner = some s.kernel.current)
      (waiters : (s'.kernel.mutexes m).waiters = [])
      (logs : s'.queued m = s.queued m ∧ s'.granted m = s.granted m)
  | queues (owner : (s'.kernel.mutexes m).owner = (s.kernel.mutexes m).owner)
      (waiters : (s'.kernel.mutexes m).waiters =
        (s.kernel.mutexes m).waiters ++ [s.kernel.current])
      (logs : s'.queued m = s.queued m ++ [s.call s.kernel.current] ∧ s'.granted m = s.granted m)
  | hands (p : PcbRef) (unlocks : (s.kernel.mutexes m).owner = some s.kernel.current)
      (owner : (s'.kernel.mutexes m).owner = some p)
      (waiters : (s.kernel.mutexes m).waiters = p :: (s'.kernel.mutexes m).waiters)
      (logs : s'.queued m = s.queued m ∧ s'.granted m = s.granted m ++ [s.call p])
  | frees (unlocks : (s.kernel.mutexes m).owner = some s.kernel.current) (free : s'.Unused m)
      (waiters : (s.kernel.mutexes m).waiters = [])
      (logs : s'.queued m = s.queued m ∧ s'.granted m = s.granted m)

/-- The action is the last one of a call of `mutex_lock`. -/
def Returns (s : OsState) (m : Nat) : Action → Prop
  | .acquire l => l = .mutex m ∧ (s.next (.acquire l)).point s.kernel.current = .run
  | .proceed => (s.here = .init (.mutex m) ∨ s.here = .attempt (.mutex m) ∨
      s.here = .check (.mutex m)) ∧ (s.next .proceed).point s.kernel.current = .run
  | _ => False

theorem MutexInv.exclusive (h : s.MutexInv) (m : Nat) : s.Exclusive m := by
  have hat := h.mutex m
  refine ⟨?_, hat.nodup, fun p hp => (hat.waiter p hp).1,
    fun p hp => ⟨(hat.waiter p hp).2.1, (hat.waiter p hp).2.2.1⟩, fun p hp n hn => ?_, hat.owned⟩
  · rw [hat.locked, Option.isSome_iff_ne_none]
  · have hw := (hat.waiter p hp).2.2.1
    rw [((h.mutex n).waiter p hn).2.2.1] at hw
    exact Option.some.inj hw

theorem SameMutexes.serves (h : SameMutexes s.kernel s'.kernel) (hq : s'.queued = s.queued)
    (hg : s'.granted = s.granted) (m : Nat) : s.Serves m s' :=
  .rests (h m).2.1 (h m).2.2 ⟨by rw [hq], by rw [hg]⟩

/-- A section of a call at another mutex. -/
theorem serves_other {m n : Nat} (hn : m ≠ n) {x : Mutex}
    (hmutexes : s'.kernel.mutexes = Function.update s.kernel.mutexes n x)
    (hq : s'.queued m = s.queued m) (hg : s'.granted m = s.granted m) : s.Serves m s' := by
  have hm : s'.kernel.mutexes m = s.kernel.mutexes m := by rw [hmutexes, Function.update_of_ne hn]
  exact .rests (by rw [hm]) (by rw [hm]) ⟨hq, hg⟩

theorem MutexInv.section_serves (h : s.MutexInv) {n : Nat} (hsec : s.Section n s') (m : Nat) :
    s.Serves m s' := by
  cases hsec with
  | initialises here unused mutexes waits calls point =>
    exact SameMutexes.serves mutexes calls.2.2.1 calls.2.2.2 m
  | takes here free mutexes waits calls point =>
    by_cases hm : m = n
    · subst hm
      have hnone : (s.kernel.mutexes m).owner = none := by simpa [free] using (h.mutex m).locked
      have hempty : (s.kernel.mutexes m).waiters = [] := by
        by_contra hne
        exact (h.mutex m).owned hne hnone
      refine .takes ⟨hnone, hempty⟩ ?_ ?_ ⟨by rw [calls.2.2.1], by rw [calls.2.2.2]⟩
      · rw [mutexes, Function.update_self]
      · rw [mutexes, Function.update_self]
        exact hempty
    · exact serves_other hm mutexes (by rw [calls.2.2.1]) (by rw [calls.2.2.2])
  | retries here kernel calls point =>
    exact SameMutexes.serves (.of_locks (by rw [kernel])) calls.2.2.1 calls.2.2.2 m
  | queues here locked mutexes others blocked waiting calls queued granted point =>
    by_cases hm : m = n
    · subst hm
      refine .queues ?_ ?_ ⟨by rw [queued, Function.update_self], by rw [granted]⟩
      · rw [mutexes, Function.update_self]
      · rw [mutexes, Function.update_self]
    · exact serves_other hm mutexes (by rw [queued, Function.update_of_ne hm]) (by rw [granted])
  | returns here owner mutexes waits calls point =>
    refine SameMutexes.serves (fun k => ?_) calls.2.2.1 calls.2.2.2 m
    rw [mutexes]
    exact ⟨rfl, rfl, rfl⟩
  | releases here owner released calls queued granted point =>
    have hother : m ≠ n → s'.granted m = s.granted m := fun hm => by
      rw [granted, Function.update_of_ne hm]
    cases released with
    | free queue mutexes waits =>
      by_cases hm : m = n
      · subst hm
        refine .frees owner ⟨?_, ?_⟩ queue ⟨by rw [queued], ?_⟩
        · rw [mutexes, Function.update_self]
        · rw [mutexes, Function.update_self]
          exact queue
        · rw [granted, Function.update_self, queue]
          exact List.append_nil _
      · exact serves_other hm mutexes (by rw [queued]) (hother hm)
    | handed next rest queue mutexes others alive =>
      by_cases hm : m = n
      · subst hm
        refine .hands next owner ?_ ?_ ⟨by rw [queued], ?_⟩
        · rw [mutexes, Function.update_self]
        · rw [mutexes, Function.update_self]
          exact queue
        · rw [granted, Function.update_self, queue]
          rfl
      · exact serves_other hm mutexes (by rw [queued]) (hother hm)

theorem creating_locks {entry : Word} {created : Option PcbRef × Kernel}
    (hnone : s.kernel.createTarget entry = none → created.2 = s.kernel)
    (hsome : ∀ p, s.kernel.createTarget entry = some p → Kernel.Created s.kernel p created.2) :
    (s.creating entry created).kernel.locks = s.kernel.locks ∧
      (s.creating entry created).queued = s.queued ∧
      (s.creating entry created).granted = s.granted := by
  unfold OsState.creating
  split
  · rename_i hn
    rw [hnone hn]
    exact ⟨rfl, rfl, rfl⟩
  · rename_i p hp
    exact ⟨(hsome p hp).locks, rfl, rfl⟩

/-- Only the sections of the mutex calls change what a mutex is about. -/
theorem MutexInv.step_serves (h : s.MutexInv) (hs : s.ShellInv) {a : Action} (he : s.Enabled a)
    (hrun : s.MutexRun a) (m : Nat) : s.Serves m (s.next a) := by
  have hrests : ∀ s' : OsState, s'.kernel.locks = s.kernel.locks ∧ s'.queued = s.queued ∧
      s'.granted = s.granted → s.Serves m s' :=
    fun s' hk => SameMutexes.serves (.of_locks hk.1) hk.2.1 hk.2.2 m
  cases a with
  | start => exact hrests _ ⟨rfl, rfl, rfl⟩
  | create entry name =>
    refine hrests _ (creating_locks (fun hn => ?_) fun p hp => (Kernel.processCreateNamed_spec hp name).1)
    rw [Kernel.processCreateNamed_none hn]
  | threadCreate entry arg name =>
    refine hrests _ (creating_locks (fun hn => ?_) fun p hp =>
      (Kernel.threadCreateNamed_spec hp arg name).1)
    rw [Kernel.threadCreateNamed_none hn]
  | fork contextEsp =>
    refine hrests _ ?_
    simp only [next]
    split
    · rename_i hn
      exact ⟨(Kernel.schedulerFork_refused hn contextEsp).locks, rfl, rfl⟩
    · rename_i child hc
      exact ⟨(Kernel.schedulerFork_spec hc contextEsp).locks, rfl, rfl⟩
  | tick contextEsp =>
    obtain ⟨woken, hd⟩ := Kernel.dispatch_spec hs.ready he true
    refine hrests _ ?_
    simp only [next, Kernel.schedulerTick]
    cases s.kernel.timerStarted with
    | false => exact ⟨rfl, rfl, rfl⟩
    | true => exact ⟨hd.locks, rfl, rfl⟩
  | yield contextEsp =>
    obtain ⟨woken, hd⟩ := Kernel.dispatch_spec hs.ready he.1 false
    exact hrests _ ⟨hd.locks, rfl, rfl⟩
  | sleep ms => exact hrests _ ⟨Kernel.sleep_locks _ ms, rfl, rfl⟩
  | kill contextEsp pid =>
    refine hrests _ ⟨?_, rfl, rfl⟩
    simp only [next]
    rcases Kernel.schedulerKill_cases s.kernel contextEsp pid with ⟨_, hk⟩ | ⟨p, hp, hz, hcase⟩
    · rw [hk]
      rfl
    · have hends := (Kernel.killTarget_spec s.kernel p).1
      rcases hcase with ⟨_, hk⟩ | ⟨_, hk⟩ <;> rw [hk]
      · exact hends.locks
      · obtain ⟨woken, hd⟩ := Kernel.dispatch_spec (hs.killed hp hz contextEsp).ready he.1 false
        exact hd.locks.trans hends.locks
  | exit =>
    refine hrests _ ⟨?_, rfl, rfl⟩
    simp only [next]
    by_cases hp : s.kernel.cur.pid = 0#32
    · rw [Kernel.processExit, if_pos hp]
    · exact (Kernel.processExit_spec _ hp).1.locks
  | mutexInit n =>
    have hsame : SameMutexes s.kernel (s.next (.mutexInit n)).kernel := h.initialises hrun
    exact hsame.serves rfl rfl m
  | acquire l => exact hrests _ ⟨rfl, rfl, rfl⟩
  | unlock l => exact hrests _ ⟨rfl, rfl, rfl⟩
  | proceed =>
    obtain ⟨n, hsec⟩ := h.proceeds hs he hrun
    exact h.section_serves hsec m
  | blockForever | wake p | semInit i c | rwlockInit r => cases hrun

/-- A queued call whose process owns the mutex has been served. -/
theorem MutexAt.served {m : Nat} (h : s.MutexAt m) (hinj : Function.Injective s.call) {p : PcbRef}
    (ho : (s.kernel.mutexes m).owner = some p) (hq : s.call p ∈ s.queued m) :
    s.call p ∈ s.granted m := by
  rw [h.log] at hq
  refine (List.mem_append.mp hq).resolve_right fun hw => ?_
  obtain ⟨q, hwaits, hc⟩ := List.mem_map.mp hw
  obtain rfl := hinj hc
  exact (h.waiter q hwaits).1 ho

/-- `mutex_lock` returns to the owner of the mutex, and from its waiting only
after the call was served. -/
theorem MutexInv.returns (h : s.MutexInv) (hs : s.ShellInv) {a : Action} (he : s.Enabled a)
    (hrun : s.MutexRun a) {m : Nat} (hret : s.Returns m a) :
    ((s.next a).kernel.mutexes m).owner = some s.kernel.current ∧
      (s.here = .check (.mutex m) → s.call s.kernel.current ∈ s.granted m) := by
  cases a with
  | acquire l =>
    obtain ⟨rfl, hp⟩ := hret
    have hp : s.kernel.enter (.mutex m) = .run := by
      simpa [next, setPoint] using hp
    refine ⟨?_, fun hc => ?_⟩
    · rcases enter_mutex s.kernel m with ⟨_, hz | ho⟩ | hi | ⟨ha, _⟩
      · exact absurd hz hrun
      · exact ho
      · rw [hi] at hp
        cases hp
      · rw [ha] at hp
        cases hp
    · rw [he.2] at hc
      cases hc
  | proceed =>
    obtain ⟨hhere, hp⟩ := hret
    obtain ⟨n, hsec⟩ := h.proceeds hs he hrun
    cases hsec with
    | initialises here unused mutexes waits calls point =>
      rw [point, Function.update_self] at hp
      cases hp
    | takes here free mutexes waits calls point =>
      obtain rfl : n = m := by simpa [here] using hhere
      refine ⟨by rw [mutexes, Function.update_self], fun hc => ?_⟩
      rw [here] at hc
      cases hc
    | retries here kernel calls point =>
      rw [point, Function.update_self] at hp
      cases hp
    | queues here locked mutexes others blocked waiting calls queued granted point =>
      rw [point, Function.update_self] at hp
      cases hp
    | returns here owner mutexes waits calls point =>
      obtain rfl : n = m := by simpa [here] using hhere
      refine ⟨by rw [mutexes]; exact owner, fun _ => ?_⟩
      refine (h.mutex n).served h.calls owner ((h.mutex n).waiting _ ?_ (.inr here)).2
      rw [show (s.kernel.pcbs s.kernel.current).state = .running from he.1]
      decide
    | releases here owner released calls queued granted point =>
      simp [here] at hhere
  | _ => cases hret

/-- In every run of the protocol each mutex excludes and loses no waiter; its
calls are queued at most once and served in the order of the queue; and
`mutex_lock` returns only to the owner. -/
theorem reachable_mutexes (h : Reached MutexRun s) (m : Nat) :
    s.Exclusive m ∧
      (s.queued m = s.granted m ++ (s.kernel.mutexes m).waiters.map s.call ∧ (s.queued m).Nodup ∧
        ∀ i ∈ s.queued m, i < s.nextCall) ∧
      ∀ a, s.Enabled a → s.MutexRun a → s.Serves m (s.next a) ∧
        (s.Returns m a → ((s.next a).kernel.mutexes m).owner = some s.kernel.current ∧
          (s.here = .check (.mutex m) → s.call s.kernel.current ∈ s.granted m)) := by
  have hs := h.shell
  have hi := h.mutexInv
  have hat := hi.mutex m
  exact ⟨hi.exclusive m, ⟨hat.log, hat.distinct, hat.logged⟩, fun a he hrun =>
    ⟨hi.step_serves hs he hrun m, hi.returns hs he hrun⟩⟩

end

/-- The steps of the protocol that create processes, dispatch and call. -/
def lockStep (s : OsState) : Action → Bool
  | .create _ _ | .yield _ => true
  | .acquire (.mutex _) | .unlock (.mutex _) => s.kernel.cur.pid != 0#32
  | .proceed => s.kernel.cur.pid != 0#32 && match s.here with
    | .init (.mutex m) => (s.kernel.mutexes m).owner.isNone && (s.kernel.mutexes m).waiters.isEmpty
    | _ => true
  | _ => false

theorem lockStep_mutexRun {s : OsState} {a : Action} (h : s.lockStep a = true) : s.MutexRun a := by
  cases a with
  | create entry name | yield contextEsp => trivial
  | acquire l | unlock l => cases l <;> simp_all [lockStep, MutexRun]
  | proceed =>
    simp only [lockStep, Bool.and_eq_true, bne_iff_ne] at h
    refine ⟨h.1, fun m hm => ?_⟩
    have hu := h.2
    rw [hm] at hu
    simpa [Unused] using hu
  | _ => cases h

/-- Two processes contend for mutex 0, the first one unlocks it, and the second
one is on the CPU behind the yield of its call. -/
def handRun : List Action :=
  [.create 0x11000#32 none, .create 0x12000#32 none, .yield 0x90000#32, .acquire (.mutex 0), .proceed,
    .proceed, .yield 0x100F00#32, .acquire (.mutex 0), .proceed, .yield 0x101F00#32, .yield 0x90000#32,
    .unlock (.mutex 0), .proceed, .yield 0x100F00#32]

theorem handRun_returns :
    machine.Accepts (fun s a => s.lockStep a = true) (boot smallBoot) handRun ∧
      (let s := machine.after (boot smallBoot) handRun
       s.kernel.current = 2 ∧ s.Returns 0 .proceed ∧
         ((s.next .proceed).kernel.mutexes 0).owner = some s.kernel.current ∧
         s.call s.kernel.current ∈ s.granted 0) := by
  have hfacts : machine.Accepts (fun s a => s.lockStep a = true) (boot smallBoot) handRun ∧
      (let s := machine.after (boot smallBoot) handRun
       s.kernel.current = 2 ∧ s.here = .check (.mutex 0) ∧ s.Enabled .proceed ∧
         s.lockStep .proceed = true ∧ (s.next .proceed).point s.kernel.current = .run) := by
    decide +kernel
  obtain ⟨hrun, hcur, hhere, he, hstep, hleft⟩ := hfacts
  have hreach : Reached MutexRun (machine.after (boot smallBoot) handRun) :=
    ⟨smallBoot, .mono (fun _ _ => lockStep_mutexRun) (.accepts .start hrun)⟩
  have hreturns : (machine.after (boot smallBoot) handRun).Returns 0 .proceed :=
    ⟨.inr (.inr hhere), hleft⟩
  have hsteps := ((reachable_mutexes hreach 0).2.2 .proceed he (lockStep_mutexRun hstep)).2 hreturns
  exact ⟨hrun, hcur, hreturns, hsteps.1, hsteps.2 hhere⟩

end OsState

end SengOS
