import SengOS.Kernel.MutexSections

/-!
# The invariant of the mutexes

A waiter is BLOCKED, knows its mutex, and stands in the retry loop of
`mutex_lock`; nobody else stands there but the process that the mutex was
handed to. The calls that were queued at a mutex are those that were served,
followed by those that still wait. Dispatches, sleeps and the creation and the
end of other processes keep this, and so do the sections of the mutex calls.
-/

namespace SengOS

/-- A point of the two mutex calls, or outside all lock calls. -/
def Point.ofMutex : Point → Bool
  | .run | .init (.mutex _) | .attempt (.mutex _) | .full (.mutex _) | .wait (.mutex _)
  | .check (.mutex _) | .release (.mutex _) => true
  | _ => false

/-- In the retry loop of `mutex_lock`, behind the section that queued the call. -/
def Point.Waiting (point : Point) (m : Nat) : Prop :=
  point = .wait (.mutex m) ∨ point = .check (.mutex m)

/-- In the loop of `mutex_lock`, before the section that takes the mutex or queues. -/
def Point.Trying (point : Point) (m : Nat) : Prop :=
  point = .attempt (.mutex m) ∨ point = .full (.mutex m)

theorem Point.Waiting.ne_run {point : Point} {m : Nat} (h : point.Waiting m) : point ≠ .run := by
  rcases h with rfl | rfl <;> nofun

theorem Point.Trying.ne_run {point : Point} {m : Nat} (h : point.Trying m) : point ≠ .run := by
  rcases h with rfl | rfl <;> nofun

namespace OsState

/-- The owner or a waiter of a mutex. -/
def InMutex (s : OsState) (p : PcbRef) : Prop :=
  ∃ m, (s.kernel.mutexes m).owner = some p ∨ p ∈ (s.kernel.mutexes m).waiters

def Unused (s : OsState) (m : Nat) : Prop :=
  (s.kernel.mutexes m).owner = none ∧ (s.kernel.mutexes m).waiters = []

/-- The steps of the protocol: mutex calls by processes with a pid, no process
ends while it owns a mutex or waits for one, and no mutex is initialised while
it is in use. -/
def MutexRun (s : OsState) : Action → Prop
  | .start | .create _ _ | .threadCreate _ _ _ | .fork _ | .tick _ | .yield _ | .sleep _ => True
  | .kill _ pid => ∀ p, s.kernel.processGet pid = some p → pid ≠ 0#32 → ¬ s.InMutex p
  | .exit => s.kernel.cur.pid ≠ 0#32 → ¬ s.InMutex s.kernel.current
  | .mutexInit m => s.Unused m
  | .acquire (.mutex _) | .unlock (.mutex _) => s.kernel.cur.pid ≠ 0#32
  | .proceed => s.kernel.cur.pid ≠ 0#32 ∧ ∀ m, s.here = .init (.mutex m) → s.Unused m
  | _ => False

/-- What holds at one mutex: of its fields, of the processes in its calls, and of its logs. -/
structure MutexAt (s : OsState) (m : Nat) : Prop where
  locked : (s.kernel.mutexes m).locked = (s.kernel.mutexes m).owner.isSome
  owned : (s.kernel.mutexes m).waiters ≠ [] → (s.kernel.mutexes m).owner ≠ none
  nodup : (s.kernel.mutexes m).waiters.Nodup
  waiter : ∀ p ∈ (s.kernel.mutexes m).waiters, (s.kernel.mutexes m).owner ≠ some p ∧
    (s.kernel.pcbs p).state = .blocked ∧ (s.kernel.pcbs p).waitingMutex = some m ∧
    (s.point p).Waiting m
  owner : ∀ p, (s.kernel.mutexes m).owner = some p →
    (s.kernel.pcbs p).state ≠ .terminated ∧ ¬ (s.point p).Trying m
  waiting : ∀ p, (s.kernel.pcbs p).state ≠ .terminated → (s.point p).Waiting m →
    (p ∈ (s.kernel.mutexes m).waiters ∨ (s.kernel.mutexes m).owner = some p) ∧ s.call p ∈ s.queued m
  releasing : ∀ p, (s.kernel.pcbs p).state ≠ .terminated → s.point p = .release (.mutex m) →
    (s.kernel.mutexes m).owner = some p
  log : s.queued m = s.granted m ++ (s.kernel.mutexes m).waiters.map s.call
  distinct : (s.queued m).Nodup
  logged : ∀ i ∈ s.queued m, i < s.nextCall
  unqueued : ∀ n p, s.point p = .init (.mutex n) ∨ (s.point p).Trying n → s.call p ∉ s.queued m

structure MutexInv (s : OsState) : Prop where
  points : ∀ p, (s.point p).ofMutex = true
  asleep : ∀ p ∈ s.kernel.sleepQueue, (s.kernel.pcbs p).state = .blocked ∧ s.point p = .run
  sleepers : s.kernel.sleepQueue.Nodup
  calls : Function.Injective s.call
  recent : ∀ p, s.call p < s.nextCall
  mutex : ∀ m, s.MutexAt m

/-! ## Steps beside the mutexes -/

theorem afterYield_ofMutex {point : Point} (h : point.ofMutex = true) :
    point.afterYield.ofMutex = true := by
  cases point with
  | full l | wait l => cases l <;> first | rfl | cases h
  | _ => exact h

theorem afterYield_waiting {point : Point} {m : Nat} :
    point.afterYield.Waiting m ↔ point.Waiting m := by
  cases point <;> simp [Point.afterYield, Point.Waiting]

theorem afterYield_trying {point : Point} {m : Nat} :
    point.afterYield.Trying m ↔ point.Trying m := by
  cases point <;> simp [Point.afterYield, Point.Trying]

/-- The four ghost fields that the invariant reads. -/
def SameCalls (s s' : OsState) : Prop :=
  s'.call = s.call ∧ s'.nextCall = s.nextCall ∧ s'.queued = s.queued ∧ s'.granted = s.granted

/-- The locks, owners and queues of all mutexes are kept. -/
def SameMutexes (k k' : Kernel) : Prop :=
  ∀ m, (k'.mutexes m).locked = (k.mutexes m).locked ∧ (k'.mutexes m).owner = (k.mutexes m).owner ∧
    (k'.mutexes m).waiters = (k.mutexes m).waiters

theorem SameMutexes.of_locks {k k' : Kernel} (h : k'.locks = k.locks) : SameMutexes k k' := by
  intro m
  rw [Kernel.mutexes_of_locks h]
  exact ⟨rfl, rfl, rfl⟩

section
variable {s s' : OsState}

/-- The other mutexes do not notice a step. -/
theorem MutexAt.frame {m : Nat} (h : s.MutexAt m)
    (hsame : (s'.kernel.mutexes m).locked = (s.kernel.mutexes m).locked ∧
      (s'.kernel.mutexes m).owner = (s.kernel.mutexes m).owner ∧
      (s'.kernel.mutexes m).waiters = (s.kernel.mutexes m).waiters)
    (hlog : s'.queued m = s.queued m ∧ s'.granted m = s.granted m)
    (hnext : s.nextCall ≤ s'.nextCall)
    (hwaiter : ∀ p ∈ (s.kernel.mutexes m).waiters, (s'.kernel.pcbs p).state = .blocked ∧
      (s'.kernel.pcbs p).waitingMutex = (s.kernel.pcbs p).waitingMutex ∧
      (s'.point p).Waiting m ∧ s'.call p = s.call p)
    (howner : ∀ p, (s.kernel.mutexes m).owner = some p →
      (s'.kernel.pcbs p).state ≠ .terminated ∧ ((s'.point p).Trying m → (s.point p).Trying m))
    (hwaiting : ∀ p, (s'.kernel.pcbs p).state ≠ .terminated → (s'.point p).Waiting m →
      (s.kernel.pcbs p).state ≠ .terminated ∧ (s.point p).Waiting m ∧ s'.call p = s.call p)
    (hreleasing : ∀ p, (s'.kernel.pcbs p).state ≠ .terminated → s'.point p = .release (.mutex m) →
      (s.kernel.mutexes m).owner = some p)
    (hunqueued : ∀ n p, s'.point p = .init (.mutex n) ∨ (s'.point p).Trying n →
      s'.call p ∉ s.queued m) : s'.MutexAt m := by
  obtain ⟨hl, ho, hw⟩ := hsame
  constructor
  case locked => rw [hl, ho]; exact h.locked
  case owned => rw [hw, ho]; exact h.owned
  case nodup => rw [hw]; exact h.nodup
  case waiter =>
    rw [hw, ho]
    intro p hp
    obtain ⟨hne, _, hm, _⟩ := h.waiter p hp
    obtain ⟨hb, hm', hp', _⟩ := hwaiter p hp
    exact ⟨hne, hb, hm'.trans hm, hp'⟩
  case owner =>
    rw [ho]
    exact fun p hp => ⟨(howner p hp).1, fun ht => (h.owner p hp).2 ((howner p hp).2 ht)⟩
  case waiting =>
    rw [hw, ho, hlog.1]
    intro p ha hp
    obtain ⟨ha', hp', hc⟩ := hwaiting p ha hp
    rw [hc]
    exact h.waiting p ha' hp'
  case releasing => rw [ho]; exact hreleasing
  case log =>
    rw [hlog.1, hlog.2, hw, h.log]
    exact congrArg _ (List.map_congr_left fun p hp => (hwaiter p hp).2.2.2.symm)
  case distinct => rw [hlog.1]; exact h.distinct
  case logged => rw [hlog.1]; exact fun i hi => (h.logged i hi).trans_le hnext
  case unqueued => rw [hlog.1]; exact hunqueued

/-- A step that leaves the mutexes and the logs alone, moves points only along a
yield or to the start of a new process, and neither wakes a waiter nor ends an owner. -/
theorem MutexInv.of_quiet (h : s.MutexInv) (hmutexes : SameMutexes s.kernel s'.kernel)
    (hcalls : SameCalls s s')
    (hpoint : ∀ p, s'.point p = s.point p ∨ s'.point p = (s.point p).afterYield ∨
      (s'.point p = .run ∧ (s.kernel.pcbs p).state = .terminated))
    (halive : ∀ p, (s'.kernel.pcbs p).state ≠ .terminated →
      (s.kernel.pcbs p).state ≠ .terminated ∨ s'.point p = .run)
    (hwaiter : ∀ m p, p ∈ (s.kernel.mutexes m).waiters → (s'.kernel.pcbs p).state = .blocked ∧
      (s'.kernel.pcbs p).waitingMutex = (s.kernel.pcbs p).waitingMutex)
    (howner : ∀ m p, (s.kernel.mutexes m).owner = some p → (s'.kernel.pcbs p).state ≠ .terminated)
    (hasleep : ∀ p ∈ s'.kernel.sleepQueue, (s'.kernel.pcbs p).state = .blocked ∧ s'.point p = .run)
    (hsleepers : s'.kernel.sleepQueue.Nodup) : s'.MutexInv := by
  obtain ⟨hcall, hnext, hqueued, hgranted⟩ := hcalls
  have htry : ∀ m p, (s'.point p).Trying m → (s.point p).Trying m := by
    intro m p ht
    rcases hpoint p with hp | hp | ⟨hp, _⟩ <;> rw [hp] at ht
    · exact ht
    · exact afterYield_trying.mp ht
    · simp [Point.Trying] at ht
  refine ⟨fun p => ?_, hasleep, hsleepers, by rw [hcall]; exact h.calls,
    by rw [hcall, hnext]; exact h.recent, fun m => ?_⟩
  · rcases hpoint p with hp | hp | ⟨hp, _⟩ <;> rw [hp]
    · exact h.points p
    · exact afterYield_ofMutex (h.points p)
    · rfl
  · refine (h.mutex m).frame (hmutexes m) ⟨by rw [hqueued], by rw [hgranted]⟩ hnext.ge
      (fun p hp => ?_) (fun p hp => ⟨howner m p hp, htry m p⟩) (fun p ha hw => ?_)
      (fun p ha hp => ?_) (fun n p hp => ?_)
    · obtain ⟨hb, hm⟩ := hwaiter m p hp
      obtain ⟨_, hb', _, hw⟩ := (h.mutex m).waiter p hp
      refine ⟨hb, hm, ?_, by rw [hcall]⟩
      rcases hpoint p with hq | hq | ⟨_, ht⟩
      · rw [hq]; exact hw
      · rw [hq]; exact afterYield_waiting.mpr hw
      · rw [hb'] at ht
        cases ht
    · rcases halive p ha with ha' | hr
      · refine ⟨ha', ?_, by rw [hcall]⟩
        rcases hpoint p with hq | hq | ⟨hq, _⟩ <;> rw [hq] at hw
        · exact hw
        · exact afterYield_waiting.mp hw
        · simp [Point.Waiting] at hw
      · rw [hr] at hw
        simp [Point.Waiting] at hw
    · rcases halive p ha with ha' | hr
      · refine (h.mutex m).releasing p ha' ?_
        rcases hpoint p with hq | hq | ⟨hq, _⟩ <;> rw [hq] at hp
        · exact hp
        · exact afterYield_release.mp hp
        · cases hp
      · rw [hr] at hp
        cases hp
    · rw [hcall]
      refine (h.mutex m).unqueued n p (hp.imp (fun hi => ?_) (htry n p))
      rcases hpoint p with hq | hq | ⟨hq, _⟩ <;> rw [hq] at hi
      · exact hi
      · exact afterYield_init.mp hi
      · cases hi

theorem MutexInv.running_not_waiter (h : s.MutexInv) (hr : s.kernel.cur.state = .running) (m : Nat) :
    s.kernel.current ∉ (s.kernel.mutexes m).waiters := by
  intro hc
  rw [Kernel.cur, ((h.mutex m).waiter _ hc).2.1] at hr
  cases hr

theorem MutexInv.running_not_asleep (h : s.MutexInv) (hr : s.kernel.cur.state = .running) :
    s.kernel.current ∉ s.kernel.sleepQueue := by
  intro hc
  rw [Kernel.cur, (h.asleep _ hc).1] at hr
  cases hr

/-- A sleeper is outside the lock calls, so it waits for no mutex. -/
theorem MutexInv.waiter_not_asleep (h : s.MutexInv) {m : Nat} {p : PcbRef}
    (hp : p ∈ (s.kernel.mutexes m).waiters) : p ∉ s.kernel.sleepQueue := by
  intro hq
  exact ((h.mutex m).waiter p hp).2.2.2.ne_run (h.asleep p hq).2

theorem MutexInv.dispatched (h : s.MutexInv) {contextEsp esp : Word} {woken : List PcbRef}
    (hd : Kernel.Dispatched s.kernel contextEsp esp s'.kernel woken) (hcalls : SameCalls s s')
    (hpoint : ∀ p, s'.point p = s.point p ∨ s'.point p = (s.point p).afterYield) : s'.MutexInv := by
  have hsleepers := h.sleepers
  rw [hd.queue] at hsleepers
  have hasleep : ∀ p, p ∈ woken ∨ p ∈ s'.kernel.sleepQueue → p ∈ s.kernel.sleepQueue := by
    intro p hp
    rw [hd.queue]
    exact List.mem_append.mpr hp
  refine h.of_quiet (.of_locks hd.locks) hcalls
    (fun p => (hpoint p).imp_right .inl) (fun p hp => .inl fun ht => hp ((hd.terminated p).mpr ht))
    (fun m p hp => ?_) (fun m p hp ht => ((h.mutex m).owner p hp).1 ((hd.terminated p).mp ht))
    (fun p hp => ?_) hsleepers.of_append_right
  · refine ⟨hd.blocked p ((h.mutex m).waiter p hp).2.1 fun hw => ?_, (hd.body p).waitingMutex⟩
    exact h.waiter_not_asleep hp (hasleep p (.inl hw))
  · obtain ⟨hb, hr⟩ := h.asleep p (hasleep p (.inr hp))
    refine ⟨hd.blocked p hb fun hw => List.disjoint_of_nodup_append hsleepers hw hp, ?_⟩
    rcases hpoint p with hq | hq <;> rw [hq, hr]
    rfl

theorem MutexInv.ended (h : s.MutexInv) {p : PcbRef} (hp : ¬ s.InMutex p)
    (he : Kernel.Ended s.kernel p s'.kernel)
    (hqueue : s'.kernel.sleepQueue = s.kernel.sleepQueue.erase p) (hcalls : SameCalls s s')
    (hpoint : s'.point = s.point) : s'.MutexInv := by
  have hwaiter : ∀ m q, q ∈ (s.kernel.mutexes m).waiters → q ≠ p := by
    rintro m q hq rfl
    exact hp ⟨m, .inr hq⟩
  have howner : ∀ m q, (s.kernel.mutexes m).owner = some q → q ≠ p := by
    rintro m q hq rfl
    exact hp ⟨m, .inl hq⟩
  refine h.of_quiet (.of_locks he.locks) hcalls (fun q => .inl (by rw [hpoint]))
    (fun q hq => .inl ?_) (fun m q hq => ?_) (fun m q hq => ?_) (fun q hq => ?_) ?_
  · have hqp : q ≠ p := by
      rintro rfl
      exact hq he.terminated
    rwa [he.others q hqp] at hq
  · rw [he.others q (hwaiter m q hq)]
    exact ⟨((h.mutex m).waiter q hq).2.1, rfl⟩
  · rw [he.others q (howner m q hq)]
    exact ((h.mutex m).owner q hq).1
  · rw [hqueue] at hq
    obtain ⟨hqp, hq⟩ := (List.Nodup.mem_erase_iff h.sleepers).mp hq
    rw [he.others q hqp, hpoint]
    exact h.asleep q hq
  · rw [hqueue]
    exact h.sleepers.erase p

theorem MutexInv.born (h : s.MutexInv) {p : PcbRef} (hp : (s.kernel.pcbs p).state = .terminated)
    (hlocks : s'.kernel.locks = s.kernel.locks)
    (hqueue : s'.kernel.sleepQueue = s.kernel.sleepQueue)
    (hothers : ∀ q, q ≠ p → (s'.kernel.pcbs q).state = (s.kernel.pcbs q).state ∧
      (s'.kernel.pcbs q).waitingMutex = (s.kernel.pcbs q).waitingMutex)
    (hcalls : SameCalls s s') (hpoint : s'.point = Function.update s.point p .run) :
    s'.MutexInv := by
  have hne : ∀ q, (s.kernel.pcbs q).state ≠ .terminated → q ≠ p := by
    rintro q hq rfl
    exact hq hp
  have hold : ∀ q, q ≠ p → s'.point q = s.point q := fun q hq => by
    rw [hpoint, Function.update_of_ne hq]
  have hnew : s'.point p = .run := by rw [hpoint, Function.update_self]
  refine h.of_quiet (.of_locks hlocks) hcalls (fun q => ?_) (fun q hq => ?_)
    (fun m q hq => ?_) (fun m q hq => ?_) (fun q hq => ?_) (by rw [hqueue]; exact h.sleepers)
  · by_cases hqp : q = p
    · subst hqp
      exact .inr (.inr ⟨hnew, hp⟩)
    · exact .inl (hold q hqp)
  · by_cases hqp : q = p
    · subst hqp
      exact .inr hnew
    · exact .inl ((hothers q hqp).1 ▸ hq)
  · have hb := ((h.mutex m).waiter q hq).2.1
    obtain ⟨hs, hw⟩ := hothers q (hne q (by rw [hb]; decide))
    exact ⟨hs.trans hb, hw⟩
  · have ht := ((h.mutex m).owner q hq).1
    rw [(hothers q (hne q ht)).1]
    exact ht
  · rw [hqueue] at hq
    obtain ⟨hb, hr⟩ := h.asleep q hq
    have hqp := hne q (by rw [hb]; decide)
    exact ⟨(hothers q hqp).1.trans hb, (hold q hqp).trans hr⟩

/-- A step that changes no state, no queue and no point. -/
theorem MutexInv.of_sameWaits (h : s.MutexInv) (hmutexes : SameMutexes s.kernel s'.kernel)
    (hqueue : s'.kernel.sleepQueue = s.kernel.sleepQueue)
    (hwaits : ∀ p, (s'.kernel.pcbs p).state = (s.kernel.pcbs p).state ∧
      (p ≠ s.kernel.current → (s'.kernel.pcbs p).waitingMutex = (s.kernel.pcbs p).waitingMutex))
    (hr : s.kernel.cur.state = .running)
    (hcalls : SameCalls s s') (hpoint : s'.point = s.point) : s'.MutexInv := by
  refine h.of_quiet hmutexes hcalls (fun q => .inl (by rw [hpoint]))
    (fun q hq => .inl ((hwaits q).1 ▸ hq)) (fun m q hq => ?_) (fun m q hq => ?_) (fun q hq => ?_)
    (by rw [hqueue]; exact h.sleepers)
  · refine ⟨(hwaits q).1.trans ((h.mutex m).waiter q hq).2.1, (hwaits q).2 ?_⟩
    rintro rfl
    exact h.running_not_waiter hr m hq
  · rw [(hwaits q).1]
    exact ((h.mutex m).owner q hq).1
  · rw [hqueue] at hq
    rw [(hwaits q).1, hpoint]
    exact h.asleep q hq

theorem MutexInv.creating (h : s.MutexInv) {entry : Word} {created : Option PcbRef × Kernel}
    (hnone : s.kernel.createTarget entry = none → created.2 = s.kernel)
    (hsome : ∀ p, s.kernel.createTarget entry = some p → Kernel.Created s.kernel p created.2) :
    (s.creating entry created).MutexInv := by
  unfold OsState.creating
  split
  · rename_i hn
    rw [hnone hn]
    exact h
  · rename_i p hp
    have hc := hsome p hp
    have hslot := Kernel.freeSlot_some (Kernel.createTarget_some hp).2
    refine h.born hslot.2.1 hc.locks hc.sleepQueue (fun q hq => ?_) ⟨rfl, rfl, rfl, rfl⟩ rfl
    rw [hc.others q hq]
    exact ⟨rfl, rfl⟩

theorem MutexInv.fork (h : s.MutexInv) (hr : s.kernel.cur.state = .running) (contextEsp : Word) :
    (s.next (.fork contextEsp)).MutexInv := by
  simp only [next]
  split
  · rename_i hn
    have hf := Kernel.schedulerFork_refused hn contextEsp
    refine h.of_sameWaits (.of_locks hf.locks) hf.sleepQueue (fun p => ?_) hr ⟨rfl, rfl, rfl, rfl⟩ rfl
    rcases hf.pcbs p with hq | ⟨_, _, hq⟩ <;> rw [hq] <;> exact ⟨rfl, fun _ => rfl⟩
  · rename_i child hc
    have hf := Kernel.schedulerFork_spec hc contextEsp
    have hslot := Kernel.freeSlot_some (Kernel.forkTarget_some hc).2.2
    refine h.born hslot.2.1 hf.locks hf.sleepQueue (fun q hq => ?_) ⟨rfl, rfl, rfl, rfl⟩ rfl
    rw [hf.others q hq]
    exact ⟨rfl, rfl⟩

theorem MutexInv.sleep (h : s.MutexInv) (hi : s.Idle) (ms : Word) :
    (s.next (.sleep ms)).MutexInv := by
  have hkeeps := Kernel.sleep_keeps (k := s.kernel) (by rw [hi.1]; decide) ms
  simp only [next]
  rcases s.kernel.sleep_cases ms with hk | ⟨_, wakeTick, q, hk, hq⟩
  · rw [hk]
    exact h
  · rw [hk] at hkeeps ⊢
    have hself : ((s.kernel.modify s.kernel.current fun q =>
        { q with wakeTick := wakeTick, state := .blocked }).pcbs s.kernel.current).state = .blocked := by
      rw [Kernel.modify_pcbs_self]
    have hothers : ∀ p, p ≠ s.kernel.current → (s.kernel.modify s.kernel.current fun q =>
        { q with wakeTick := wakeTick, state := .blocked }).pcbs p = s.kernel.pcbs p :=
      fun p hp => Kernel.modify_pcbs_ne _ _ _ hp
    refine h.of_quiet (.of_locks rfl) ⟨rfl, rfl, rfl, rfl⟩ (fun p => .inl rfl)
      (fun p hp => .inl fun ht => hp ((hkeeps p).terminated.mpr ht)) (fun m p hp => ?_)
      (fun m p hp ht => ((h.mutex m).owner p hp).1 ((hkeeps p).terminated.mp ht)) (fun p hp => ?_) ?_
    · have hpc : p ≠ s.kernel.current := by
        rintro rfl
        exact h.running_not_waiter hi.1 m hp
      rw [hothers p hpc]
      exact ⟨((h.mutex m).waiter p hp).2.1, rfl⟩
    · by_cases hpc : p = s.kernel.current
      · rw [hpc]
        exact ⟨hself, hi.2⟩
      · rw [hothers p hpc]
        rcases hq with rfl | hperm
        · exact h.asleep p hp
        · exact h.asleep p (List.mem_of_ne_of_mem hpc (hperm.mem_iff.mp hp))
    · rcases hq with rfl | hperm
      · exact h.sleepers
      · exact hperm.nodup_iff.mpr (List.nodup_cons.mpr ⟨h.running_not_asleep hi.1, h.sleepers⟩)

theorem MutexInv.killed (h : s.MutexInv) {p : PcbRef} (hp : ¬ s.InMutex p) (contextEsp esp : Word) :
    ({ s with
      kernel := (s.kernel.killTarget p).setEax contextEsp 0#32
      esp := esp } : OsState).MutexInv := by
  obtain ⟨hends, hqueue⟩ := Kernel.killTarget_spec s.kernel p
  exact h.ended hp (hends.setEax contextEsp 0#32) hqueue ⟨rfl, rfl, rfl, rfl⟩ rfl

theorem MutexInv.kill (h : s.MutexInv) (hs : s.ShellInv) {contextEsp pid : Word}
    (hctx : contextEsp ≠ 0#32) (hr : s.kernel.cur.state = .running)
    (hrun : s.MutexRun (.kill contextEsp pid)) : (s.next (.kill contextEsp pid)).MutexInv := by
  simp only [next]
  rcases Kernel.schedulerKill_cases s.kernel contextEsp pid with ⟨_, he⟩ | ⟨p, hp, hz, hcase⟩
  · rw [he]
    exact h.of_sameWaits (.of_locks rfl) rfl (fun _ => ⟨rfl, fun _ => rfl⟩) hr ⟨rfl, rfl, rfl, rfl⟩ rfl
  · have hk := h.killed (hrun p hp hz) contextEsp
    rcases hcase with ⟨_, he⟩ | ⟨_, he⟩
    · rw [he]
      exact hk contextEsp
    · rw [he]
      obtain ⟨woken, hd⟩ := Kernel.dispatch_spec (hs.killed hp hz contextEsp).ready hctx false
      exact (hk s.esp).dispatched hd ⟨rfl, rfl, rfl, rfl⟩ fun p => .inl rfl

theorem MutexInv.exit (h : s.MutexInv) (hr : s.kernel.cur.state = .running)
    (hrun : s.MutexRun .exit) : (s.next .exit).MutexInv := by
  simp only [next]
  by_cases hp : s.kernel.cur.pid = 0#32
  · rw [Kernel.processExit, if_pos hp]
    exact h
  · obtain ⟨hends, hqueue⟩ := Kernel.processExit_spec _ hp
    refine h.ended (hrun hp) hends ?_ ⟨rfl, rfl, rfl, rfl⟩ rfl
    rw [List.erase_of_not_mem (h.running_not_asleep hr)]
    exact hqueue

/-! ## Steps at a mutex -/

/-- The running process goes to a point before or outside the waiting of `mutex_lock`. -/
theorem MutexInv.moves (h : s.MutexInv) (hr : s.kernel.cur.state = .running) {point : Point}
    (hmutex : point.ofMutex = true) (hwait : ∀ m, ¬ point.Waiting m)
    (hrelease : ∀ m, point = .release (.mutex m) →
      (s.kernel.mutexes m).owner = some s.kernel.current)
    (htry : ∀ m, point.Trying m → (s.kernel.mutexes m).owner ≠ some s.kernel.current)
    (hqueued : ∀ m n, point = .init (.mutex n) ∨ point.Trying n →
      s.call s.kernel.current ∉ s.queued m) : (s.setPoint point).MutexInv := by
  have hpoint : ∀ p, (p ≠ s.kernel.current ∧ (s.setPoint point).point p = s.point p) ∨
      (p = s.kernel.current ∧ (s.setPoint point).point p = point) := by
    intro p
    by_cases hp : p = s.kernel.current
    · exact .inr ⟨hp, by rw [hp]; exact Function.update_self _ _ _⟩
    · exact .inl ⟨hp, Function.update_of_ne hp _ _⟩
  refine ⟨fun p => ?_, fun p hp => ?_, h.sleepers, h.calls, h.recent, fun m => ?_⟩
  · rcases hpoint p with ⟨_, hp⟩ | ⟨_, hp⟩ <;> rw [hp]
    · exact h.points p
    · exact hmutex
  · rcases hpoint p with ⟨_, hq⟩ | ⟨hq, _⟩
    · rw [hq]
      exact h.asleep p hp
    · rw [hq] at hp
      exact absurd hp (h.running_not_asleep hr)
  · refine (h.mutex m).frame ⟨rfl, rfl, rfl⟩ ⟨rfl, rfl⟩ (Nat.le_refl _) (fun p hp => ?_)
      (fun p hp => ⟨((h.mutex m).owner p hp).1, fun ht => ?_⟩) (fun p ha hw => ⟨ha, ?_, rfl⟩)
      (fun p ha hp => ?_) (fun n p hp => ?_) <;> rcases hpoint p with ⟨_, hq⟩ | ⟨hc, hq⟩
    · rw [hq]
      exact ⟨((h.mutex m).waiter p hp).2.1, rfl, ((h.mutex m).waiter p hp).2.2.2, rfl⟩
    · rw [hc] at hp
      exact absurd hp (h.running_not_waiter hr m)
    · rwa [hq] at ht
    · rw [hq] at ht
      rw [hc] at hp
      exact absurd hp (htry m ht)
    · rwa [hq] at hw
    · rw [hq] at hw
      exact absurd hw (hwait m)
    · rw [hq] at hp
      exact (h.mutex m).releasing p ha hp
    · rw [hq] at hp
      rw [hc]
      exact hrelease m hp
    · rw [hq] at hp
      exact (h.mutex m).unqueued n p hp
    · rw [hq] at hp
      rw [hc]
      exact hqueued m n hp

theorem MutexInv.moves_run (h : s.MutexInv) (hr : s.kernel.cur.state = .running) :
    (s.setPoint .run).MutexInv := by
  refine h.moves hr rfl (fun m hw => ?_) (fun m hw => ?_) (fun m hw => ?_) (fun m n hw => ?_)
  all_goals simp [Point.Waiting, Point.Trying] at hw


/-- A call begins: nothing in the logs has its number. -/
theorem MutexInv.newCall (h : s.MutexInv) (hi : s.Idle) :
    ({ s with
      call := Function.update s.call s.kernel.current s.nextCall
      nextCall := s.nextCall + 1 } : OsState).MutexInv := by
  have hold : ∀ p, p ≠ s.kernel.current →
      Function.update s.call s.kernel.current s.nextCall p = s.call p :=
    fun p hp => Function.update_of_ne hp _ _
  have hnew : Function.update s.call s.kernel.current s.nextCall s.kernel.current = s.nextCall :=
    Function.update_self _ _ _
  have hrun : ∀ p, s.point p ≠ .run → p ≠ s.kernel.current := by
    rintro p hp rfl
    exact hp hi.2
  refine ⟨h.points, h.asleep, h.sleepers, fun p q hpq => ?_, fun p => ?_, fun m => ?_⟩
  · dsimp only at hpq
    by_cases hp : p = s.kernel.current <;> by_cases hq : q = s.kernel.current
    · rw [hp, hq]
    · rw [hp, hnew, hold q hq] at hpq
      exact absurd hpq (Nat.ne_of_gt (h.recent q))
    · rw [hq, hnew, hold p hp] at hpq
      exact absurd hpq (Nat.ne_of_lt (h.recent p))
    · rw [hold p hp, hold q hq] at hpq
      exact h.calls hpq
  · by_cases hp : p = s.kernel.current
    · simp only [hp, hnew]
      exact Nat.lt_succ_self _
    · simp only [hold p hp]
      exact Nat.lt_succ_of_lt (h.recent p)
  · refine (h.mutex m).frame ⟨rfl, rfl, rfl⟩ ⟨rfl, rfl⟩ (Nat.le_succ _) (fun p hp => ?_)
      (fun p hp => ⟨((h.mutex m).owner p hp).1, id⟩) (fun p ha hw => ⟨ha, hw, hold p (hrun p ?_)⟩)
      (h.mutex m).releasing (fun n p hp => ?_)
    · obtain ⟨_, hb, _, hw⟩ := (h.mutex m).waiter p hp
      refine ⟨hb, rfl, hw, hold p ?_⟩
      rintro rfl
      exact h.running_not_waiter hi.1 m hp
    · exact hw.ne_run
    · have hpc : p ≠ s.kernel.current := by
        refine hrun p (hp.elim (fun hi => ?_) Point.Trying.ne_run)
        rw [show s.point p = .init (.mutex n) from hi]
        nofun
      simp only [hold p hpc]
      exact (h.mutex m).unqueued n p hp

/-- The points at which `mutex_lock` can be before its loop. -/
theorem enter_mutex (k : Kernel) (m : Nat) :
    (k.enter (.mutex m) = .run ∧ (k.cur.pid = 0#32 ∨ (k.mutexes m).owner = some k.current)) ∨
      k.enter (.mutex m) = .init (.mutex m) ∨
      (k.enter (.mutex m) = .attempt (.mutex m) ∧ (k.mutexes m).owner ≠ some k.current) := by
  unfold Kernel.enter
  dsimp only
  split
  · rename_i hp
    exact .inl ⟨rfl, .inl hp⟩
  · split
    · exact .inr (.inl rfl)
    · split
      · rename_i ho
        exact .inl ⟨rfl, .inr ho⟩
      · rename_i ho
        exact .inr (.inr ⟨rfl, ho⟩)

theorem MutexInv.acquire (h : s.MutexInv) (hi : s.Idle) (m : Nat) :
    (s.next (.acquire (.mutex m))).MutexInv := by
  have hc := h.newCall hi
  have hfresh : ∀ n, Function.update s.call s.kernel.current s.nextCall s.kernel.current ∉ s.queued n := by
    intro n hn
    rw [Function.update_self] at hn
    exact Nat.lt_irrefl _ ((h.mutex n).logged _ hn)
  have hmoves : ∀ point, (point = .init (.mutex m) ∨ (point = .attempt (.mutex m) ∧
      (s.kernel.mutexes m).owner ≠ some s.kernel.current)) → ({ s.setPoint point with
        call := Function.update s.call s.kernel.current s.nextCall
        nextCall := s.nextCall + 1 } : OsState).MutexInv := by
    intro point hp
    refine hc.moves hi.1 ?_ (fun n hw => ?_) (fun n hw => ?_) (fun n ht => ?_) fun n _ _ => hfresh n
    all_goals rcases hp with rfl | ⟨rfl, ho⟩
    all_goals first | rfl | simp_all [Point.Waiting, Point.Trying]
  simp only [next]
  rcases enter_mutex s.kernel m with ⟨he, _⟩ | he
  · rw [he]
    exact hc.moves_run hi.1
  · exact hmoves _ he

theorem MutexInv.unlock (h : s.MutexInv) (hi : s.Idle) (m : Nat) :
    (s.next (.unlock (.mutex m))).MutexInv := by
  simp only [next, Kernel.enterRelease]
  split
  · rename_i ho
    have ho : (s.kernel.mutexes m).owner = some s.kernel.current := by
      simpa [Kernel.mayRelease] using ho
    refine h.moves hi.1 rfl (fun n hw => ?_) (fun n hn => ?_) (fun n hw => ?_) (fun n k hw => ?_)
    · simp [Point.Waiting] at hw
    · cases hn
      exact ho
    · simp [Point.Trying] at hw
    · simp [Point.Trying] at hw
  · exact h.moves_run hi.1

/-- A mutex that is not in use is as `mutex_init` leaves it. -/
theorem MutexInv.initialises (h : s.MutexInv) {m : Nat} (hu : s.Unused m) :
    SameMutexes s.kernel (s.kernel.mutexInit m) := by
  intro n
  rw [Kernel.mutexInit_mutexes, Function.update_apply]
  split
  · rename_i hn
    rw [hn, (h.mutex m).locked, hu.1, hu.2]
    simp
  · exact ⟨rfl, rfl, rfl⟩

theorem MutexInv.mutexInit (h : s.MutexInv) (hr : s.kernel.cur.state = .running) {m : Nat}
    (hu : s.Unused m) : (s.next (.mutexInit m)).MutexInv := by
  refine h.of_sameWaits (h.initialises hu) (Kernel.lazyInit_frame _ (.mutex m)).sleepQueue
    (fun p => ?_) hr ⟨rfl, rfl, rfl, rfl⟩ rfl
  rw [show (s.next (.mutexInit m)).kernel.pcbs = s.kernel.pcbs from Kernel.mutexInit_pcbs _ _]
  exact ⟨rfl, fun _ => rfl⟩

/-- A step at one mutex; a process that is outside the lock calls may go to wait for it. -/
theorem MutexInv.at_mutex (h : s.MutexInv) {m : Nat} {x : Mutex}
    (hmutexes : s'.kernel.mutexes = Function.update s.kernel.mutexes m x)
    (hcalls : s'.call = s.call ∧ s'.nextCall = s.nextCall)
    (hlogs : ∀ n, n ≠ m → s'.queued n = s.queued n ∧ s'.granted n = s.granted n)
    (hpoint : ∀ p, s'.point p = s.point p ∨ (s.point p = .run ∧ s'.point p = .wait (.mutex m)))
    (halive : ∀ p, (s'.kernel.pcbs p).state = .terminated ↔ (s.kernel.pcbs p).state = .terminated)
    (hwaiter : ∀ n, n ≠ m → ∀ p ∈ (s.kernel.mutexes n).waiters,
      (s'.kernel.pcbs p).state = (s.kernel.pcbs p).state ∧
      (s'.kernel.pcbs p).waitingMutex = (s.kernel.pcbs p).waitingMutex)
    (hasleep : ∀ p ∈ s.kernel.sleepQueue,
      (s'.kernel.pcbs p).state = (s.kernel.pcbs p).state ∧ s'.point p = s.point p)
    (hqueue : s'.kernel.sleepQueue = s.kernel.sleepQueue) (hm : s'.MutexAt m) : s'.MutexInv := by
  obtain ⟨hcall, hnext⟩ := hcalls
  have hsame : ∀ p point, s'.point p = point → point ≠ .wait (.mutex m) → s.point p = point := by
    rintro p point hp hne
    rcases hpoint p with hq | ⟨_, hq⟩
    · exact hq.symm.trans hp
    · exact absurd (hp.symm.trans hq) hne
  refine ⟨fun p => ?_, fun p hp => ?_, by rw [hqueue]; exact h.sleepers, by rw [hcall]; exact h.calls,
    by rw [hcall, hnext]; exact h.recent, fun n => ?_⟩
  · rcases hpoint p with hp | ⟨_, hp⟩ <;> rw [hp]
    · exact h.points p
    · rfl
  · rw [hqueue] at hp
    rw [(hasleep p hp).1, (hasleep p hp).2]
    exact h.asleep p hp
  · by_cases hn : n = m
    · rw [hn]
      exact hm
    refine (h.mutex n).frame ?_ (hlogs n hn) hnext.ge (fun p hp => ?_) (fun p hp => ⟨?_, fun ht => ?_⟩)
      (fun p ha hw => ⟨fun ht => ha ((halive p).mpr ht), ?_, by rw [hcall]⟩) (fun p ha hp => ?_)
      (fun k p hp => ?_)
    · rw [hmutexes, Function.update_of_ne hn]
      exact ⟨rfl, rfl, rfl⟩
    · obtain ⟨_, hb, _, hw⟩ := (h.mutex n).waiter p hp
      obtain ⟨hs, hm⟩ := hwaiter n hn p hp
      refine ⟨hs.trans hb, hm, ?_, by rw [hcall]⟩
      rcases hpoint p with hq | ⟨hq, _⟩
      · rw [hq]
        exact hw
      · exact absurd hq hw.ne_run
    · exact fun ht => ((h.mutex n).owner p hp).1 ((halive p).mp ht)
    · rcases ht with ht | ht
      · exact .inl (hsame p _ ht (by simp))
      · exact .inr (hsame p _ ht (by simp))
    · rcases hw with hw | hw
      · exact .inl (hsame p _ hw (by simpa using hn))
      · exact .inr (hsame p _ hw (by simp))
    · exact (h.mutex n).releasing p (fun ht => ha ((halive p).mpr ht)) (hsame p _ hp (by simp))
    · rw [hcall]
      refine (h.mutex n).unqueued k p ?_
      rcases hp with hp | hp | hp
      · exact .inl (hsame p _ hp (by simp))
      · exact .inr (.inl (hsame p _ hp (by simp)))
      · exact .inr (.inr (hsame p _ hp (by simp)))

/-! ## The sections -/

/-- The section of `mutex_lock` that finds the mutex free. -/
theorem MutexInv.takes (h : s.MutexInv) (hrun : s.here = .run)
    (hr : s.kernel.cur.state = .running) {m : Nat} (hfree : (s.kernel.mutexes m).locked = false)
    (hmutexes : s'.kernel.mutexes = Function.update s.kernel.mutexes m
      { s.kernel.mutexes m with locked := true, owner := some s.kernel.current })
    (hwaits : SameWaits s.kernel s'.kernel)
    (hqueue : s'.kernel.sleepQueue = s.kernel.sleepQueue) (hcalls : SameCalls s s')
    (hpoint : s'.point = s.point) : s'.MutexInv := by
  obtain ⟨hcall, hnext, hqueued, hgranted⟩ := hcalls
  have hat := h.mutex m
  have hnone : (s.kernel.mutexes m).owner = none := by
    simpa [hfree] using hat.locked
  have hempty : (s.kernel.mutexes m).waiters = [] := by
    by_contra hne
    exact hat.owned hne hnone
  have hm : s'.kernel.mutexes m =
      { s.kernel.mutexes m with locked := true, owner := some s.kernel.current } := by
    rw [hmutexes, Function.update_self]
  have hstate := fun p => (hwaits p).1
  refine h.at_mutex hmutexes ⟨hcall, hnext⟩ (fun n _ => by rw [hqueued, hgranted]; exact ⟨rfl, rfl⟩)
    (fun p => .inl (by rw [hpoint])) (fun p => by rw [hstate]) (fun n _ p _ => hwaits p)
    (fun p _ => ⟨hstate p, by rw [hpoint]⟩) hqueue ?_
  constructor
  case locked => rw [hm]; rfl
  case owned => rw [hm]; nofun
  case nodup => rw [hm]; exact hat.nodup
  case waiter => rw [hm, hempty]; nofun
  case owner =>
    rw [hm]
    intro p hp
    obtain rfl := Option.some.inj hp
    rw [hstate, hpoint, show s.point s.kernel.current = .run from hrun]
    refine ⟨?_, fun ht => ht.ne_run rfl⟩
    rw [show (s.kernel.pcbs s.kernel.current).state = .running from hr]
    decide
  case waiting =>
    intro p ha hw
    rw [hstate] at ha
    rw [hpoint] at hw
    have hp := (hat.waiting p ha hw).1
    rw [hempty, hnone] at hp
    simp at hp
  case releasing =>
    intro p ha hp
    rw [hstate] at ha
    rw [hpoint] at hp
    have ho := hat.releasing p ha hp
    rw [hnone] at ho
    cases ho
  case log => rw [hqueued, hgranted, hm, hcall]; exact hat.log
  case distinct => rw [hqueued]; exact hat.distinct
  case logged => rw [hqueued, hnext]; exact hat.logged
  case unqueued => rw [hqueued, hpoint, hcall]; exact hat.unqueued

/-- The call of the running process is new when it is noted as queued. -/
theorem MutexInv.noted (h : s.MutexInv) {m : Nat} (hfresh : s.call s.kernel.current ∉ s.queued m) :
    (s.queued m ++ [s.call s.kernel.current]).Nodup ∧
      (∀ i ∈ s.queued m ++ [s.call s.kernel.current], i < s.nextCall) ∧
      ∀ p, p ≠ s.kernel.current → s.call p ∉ s.queued m →
        s.call p ∉ s.queued m ++ [s.call s.kernel.current] := by
  have hperm := List.perm_append_singleton (s.call s.kernel.current) (s.queued m)
  refine ⟨hperm.nodup_iff.mpr (List.nodup_cons.mpr ⟨hfresh, (h.mutex m).distinct⟩), ?_, ?_⟩
  · intro i hi
    rcases List.mem_cons.mp (hperm.mem_iff.mp hi) with rfl | hi
    · exact h.recent _
    · exact (h.mutex m).logged i hi
  · intro p hpc hp hin
    rcases List.mem_cons.mp (hperm.mem_iff.mp hin) with he | hin
    · exact hpc (h.calls he)
    · exact hp hin

/-- The section of `mutex_lock` that joins the queue. -/
theorem MutexInv.queues (h : s.MutexInv) (hrun : s.here = .run)
    (hr : s.kernel.cur.state = .running) {m : Nat} (hlocked : (s.kernel.mutexes m).locked = true)
    (howner : (s.kernel.mutexes m).owner ≠ some s.kernel.current)
    (hfresh : ∀ n, s.call s.kernel.current ∉ s.queued n)
    (hmutexes : s'.kernel.mutexes = Function.update s.kernel.mutexes m
      { s.kernel.mutexes m with waiters := (s.kernel.mutexes m).waiters ++ [s.kernel.current] })
    (hothers : ∀ p, p ≠ s.kernel.current → (s'.kernel.pcbs p).state = (s.kernel.pcbs p).state ∧
      (s'.kernel.pcbs p).waitingMutex = (s.kernel.pcbs p).waitingMutex)
    (hblocked : (s'.kernel.pcbs s.kernel.current).state = .blocked)
    (hwaiting : (s'.kernel.pcbs s.kernel.current).waitingMutex = some m)
    (hqueue : s'.kernel.sleepQueue = s.kernel.sleepQueue)
    (hcalls : s'.call = s.call ∧ s'.nextCall = s.nextCall)
    (hqueued : s'.queued = Function.update s.queued m (s.queued m ++ [s.call s.kernel.current]))
    (hgranted : s'.granted = s.granted)
    (hpoint : s'.point = Function.update s.point s.kernel.current (.wait (.mutex m))) :
    s'.MutexInv := by
  have hat := h.mutex m
  have hnew : s'.point s.kernel.current = .wait (.mutex m) := by rw [hpoint, Function.update_self]
  have hold : ∀ p, p ≠ s.kernel.current → s'.point p = s.point p := fun p hp => by
    rw [hpoint, Function.update_of_ne hp]
  have hnot := h.running_not_waiter hr
  have hm : s'.kernel.mutexes m =
      { s.kernel.mutexes m with waiters := (s.kernel.mutexes m).waiters ++ [s.kernel.current] } := by
    rw [hmutexes, Function.update_self]
  have hlog : s'.queued m = s.queued m ++ [s.call s.kernel.current] := by
    rw [hqueued, Function.update_self]
  obtain ⟨hdistinct, hlogged, hothersNew⟩ := h.noted (hfresh m)
  have hne : ∀ p n, p ∈ (s.kernel.mutexes n).waiters → p ≠ s.kernel.current := by
    rintro p n hp rfl
    exact hnot n hp
  have hsleep : ∀ p ∈ s.kernel.sleepQueue, p ≠ s.kernel.current := by
    rintro p hp rfl
    exact h.running_not_asleep hr hp
  refine h.at_mutex hmutexes hcalls (fun n hn => ?_) (fun p => ?_) (fun p => ?_)
    (fun n _ p hp => hothers p (hne p n hp))
    (fun p hp => ⟨(hothers p (hsleep p hp)).1, hold p (hsleep p hp)⟩) hqueue ?_
  · rw [hqueued, hgranted, Function.update_of_ne hn]
    exact ⟨rfl, rfl⟩
  · by_cases hp : p = s.kernel.current
    · exact .inr ⟨by rw [hp]; exact hrun, by rw [hp]; exact hnew⟩
    · exact .inl (hold p hp)
  · by_cases hp : p = s.kernel.current
    · rw [hp, hblocked, show (s.kernel.pcbs s.kernel.current).state = .running from hr]
      decide
    · rw [(hothers p hp).1]
  constructor
  case locked => rw [hm]; exact hat.locked
  case owned =>
    rw [hm]
    intro _ hn
    have hl := hat.locked
    rw [hlocked, show (s.kernel.mutexes m).owner = none from hn] at hl
    cases hl
  case nodup =>
    rw [hm]
    exact (List.perm_append_singleton _ _).nodup_iff.mpr (List.nodup_cons.mpr ⟨hnot m, hat.nodup⟩)
  case waiter =>
    rw [hm]
    intro p hp
    rcases List.mem_append.mp hp with hp | hp
    · obtain ⟨ho, hb, hw, hpt⟩ := hat.waiter p hp
      obtain ⟨hs', hw'⟩ := hothers p (hne p m hp)
      exact ⟨ho, hs'.trans hb, hw'.trans hw, by rw [hold p (hne p m hp)]; exact hpt⟩
    · rw [List.mem_singleton.mp hp]
      exact ⟨howner, hblocked, hwaiting, by rw [hnew]; exact .inl rfl⟩
  case owner =>
    rw [hm]
    intro p hp
    have hpc : p ≠ s.kernel.current := by
      rintro rfl
      exact howner hp
    rw [(hothers p hpc).1, hold p hpc]
    exact hat.owner p hp
  case waiting =>
    intro p ha hw
    rw [hm, hlog, hcalls.1]
    by_cases hp : p = s.kernel.current
    · rw [hp]
      simp
    · rw [(hothers p hp).1] at ha
      rw [hold p hp] at hw
      obtain ⟨hin, hcall⟩ := hat.waiting p ha hw
      exact ⟨hin.imp_left fun hin => List.mem_append.mpr (.inl hin), List.mem_append.mpr (.inl hcall)⟩
  case releasing =>
    rw [hm]
    intro p ha hp
    by_cases hpc : p = s.kernel.current
    · rw [hpc, hnew] at hp
      cases hp
    · rw [(hothers p hpc).1] at ha
      rw [hold p hpc] at hp
      exact hat.releasing p ha hp
  case log =>
    rw [hlog, hgranted, hm, hcalls.1, hat.log]
    simp
  case distinct => rw [hlog]; exact hdistinct
  case logged => rw [hlog, hcalls.2]; exact hlogged
  case unqueued =>
    rw [hlog, hcalls.1]
    intro n p hp
    have hpc : p ≠ s.kernel.current := by
      rintro rfl
      rw [hnew] at hp
      simp [Point.Trying] at hp
    rw [hold p hpc] at hp
    exact hothersNew p hpc (hat.unqueued n p hp)

/-- The process that unlocks has left its call, so nobody but a waiter is still in one. -/
theorem MutexInv.only_waiters (h : s.MutexInv) (hrun : s.here = .run) {m : Nat}
    (howner : (s.kernel.mutexes m).owner = some s.kernel.current)
    (hframe : LockFrame s.kernel s'.kernel) (hpoint : s'.point = s.point) {p : PcbRef}
    (ha : (s'.kernel.pcbs p).state ≠ .terminated) :
    ((s'.point p).Waiting m → p ∈ (s.kernel.mutexes m).waiters ∧ s.call p ∈ s.queued m) ∧
      s'.point p ≠ .release (.mutex m) := by
  have halive : (s.kernel.pcbs p).state ≠ .terminated :=
    fun ht => ha ((hframe.pcbs p).terminated.mpr ht)
  have hself : (s.kernel.mutexes m).owner = some p → s.point p = .run := by
    intro ho
    rw [howner] at ho
    obtain rfl := Option.some.inj ho
    exact hrun
  rw [hpoint]
  constructor
  · intro hw
    obtain ⟨hp, hc⟩ := (h.mutex m).waiting p halive hw
    exact ⟨hp.resolve_right fun ho => hw.ne_run (hself ho), hc⟩
  · intro hp
    have hout := hself ((h.mutex m).releasing p halive hp)
    rw [hout] at hp
    cases hp

/-- The section of `mutex_unlock` that finds nobody waiting. -/
theorem MutexInv.frees (h : s.MutexInv) (hrun : s.here = .run) {m : Nat}
    (howner : (s.kernel.mutexes m).owner = some s.kernel.current)
    (hframe : LockFrame s.kernel s'.kernel) (hqueue : (s.kernel.mutexes m).waiters = [])
    (hmutexes : s'.kernel.mutexes = Function.update s.kernel.mutexes m
      { s.kernel.mutexes m with locked := false, owner := none })
    (hwaits : SameWaits s.kernel s'.kernel) (hcalls : SameCalls s s')
    (hpoint : s'.point = s.point) : s'.MutexInv := by
  obtain ⟨hcall, hnext, hqueued, hgranted⟩ := hcalls
  have hat := h.mutex m
  have hm : s'.kernel.mutexes m = { s.kernel.mutexes m with locked := false, owner := none } := by
    rw [hmutexes, Function.update_self]
  have hin := fun p => h.only_waiters (p := p) hrun howner hframe hpoint
  refine h.at_mutex hmutexes ⟨hcall, hnext⟩ (fun n _ => by rw [hqueued, hgranted]; exact ⟨rfl, rfl⟩)
    (fun p => .inl (by rw [hpoint])) (fun p => (hframe.pcbs p).terminated)
    (fun n _ p _ => hwaits p) (fun p _ => ⟨(hwaits p).1, by rw [hpoint]⟩) hframe.sleepQueue ?_
  constructor
  case locked => rw [hm]; rfl
  case owned => rw [hm]; exact fun hne => absurd hqueue hne
  case nodup => rw [hm]; exact hat.nodup
  case waiter => rw [hm, hqueue]; nofun
  case owner => rw [hm]; nofun
  case waiting =>
    intro p ha hw
    have hp := ((hin p ha).1 hw).1
    rw [hqueue] at hp
    cases hp
  case releasing => exact fun p ha hp => absurd hp (hin p ha).2
  case log => rw [hqueued, hgranted, hm, hcall]; exact hat.log
  case distinct => rw [hqueued]; exact hat.distinct
  case logged => rw [hqueued, hnext]; exact hat.logged
  case unqueued => rw [hqueued, hpoint, hcall]; exact hat.unqueued

/-- The section of `mutex_unlock` that hands the mutex to the first waiter. -/
theorem MutexInv.hands (h : s.MutexInv) (hrun : s.here = .run) {m : Nat}
    (howner : (s.kernel.mutexes m).owner = some s.kernel.current)
    (hframe : LockFrame s.kernel s'.kernel) {next : PcbRef} {rest : List PcbRef}
    (hqueue : (s.kernel.mutexes m).waiters = next :: rest)
    (hmutexes : s'.kernel.mutexes = Function.update s.kernel.mutexes m
      { s.kernel.mutexes m with locked := true, owner := some next, waiters := rest })
    (hothers : ∀ p, p ≠ next → (s'.kernel.pcbs p).state = (s.kernel.pcbs p).state ∧
      (s'.kernel.pcbs p).waitingMutex = (s.kernel.pcbs p).waitingMutex)
    (hcalls : s'.call = s.call ∧ s'.nextCall = s.nextCall) (hqueued : s'.queued = s.queued)
    (hgranted : s'.granted = Function.update s.granted m (s.granted m ++ [s.call next]))
    (hpoint : s'.point = s.point) : s'.MutexInv := by
  have hat := h.mutex m
  have hm : s'.kernel.mutexes m =
      { s.kernel.mutexes m with locked := true, owner := some next, waiters := rest } := by
    rw [hmutexes, Function.update_self]
  have hin := fun p => h.only_waiters (p := p) hrun howner hframe hpoint
  have hfirst : next ∈ (s.kernel.mutexes m).waiters := by rw [hqueue]; exact List.mem_cons_self
  obtain ⟨_, hb, hw, hpt⟩ := hat.waiter next hfirst
  have hnodup := hat.nodup
  rw [hqueue] at hnodup
  obtain ⟨hout, hrest⟩ := List.nodup_cons.mp hnodup
  have hwaiter : ∀ p ∈ rest, p ∈ (s.kernel.mutexes m).waiters := fun p hp => by
    rw [hqueue]
    exact List.mem_cons_of_mem _ hp
  have hne : ∀ p ∈ rest, p ≠ next := by
    rintro p hp rfl
    exact hout hp
  refine h.at_mutex hmutexes hcalls (fun n hn => ?_) (fun p => .inl (by rw [hpoint]))
    (fun p => (hframe.pcbs p).terminated) (fun n hn p hp => hothers p ?_)
    (fun p hp => ⟨(hothers p ?_).1, by rw [hpoint]⟩) hframe.sleepQueue ?_
  · rw [hqueued, hgranted, Function.update_of_ne hn]
    exact ⟨rfl, rfl⟩
  · rintro rfl
    have hw' := ((h.mutex n).waiter p hp).2.2.1
    rw [hw] at hw'
    exact hn (Option.some.inj hw').symm
  · rintro rfl
    exact h.waiter_not_asleep hfirst hp
  constructor
  case locked => rw [hm]; rfl
  case owned => rw [hm]; nofun
  case nodup => rw [hm]; exact hrest
  case waiter =>
    rw [hm]
    intro p hp
    obtain ⟨_, hb', hw', hpt'⟩ := hat.waiter p (hwaiter p hp)
    obtain ⟨hs, hws⟩ := hothers p (hne p hp)
    refine ⟨fun he => hne p hp (Option.some.inj he).symm, hs.trans hb', hws.trans hw', ?_⟩
    rw [hpoint]
    exact hpt'
  case owner =>
    rw [hm]
    intro p hp
    obtain rfl := Option.some.inj hp
    refine ⟨fun ht => ?_, fun ht => ?_⟩
    · rw [(hframe.pcbs next).terminated, hb] at ht
      cases ht
    · rw [hpoint] at ht
      rcases hpt with hpt | hpt <;> rw [hpt] at ht <;> simp [Point.Trying] at ht
  case waiting =>
    intro p ha hwt
    obtain ⟨hp, hc⟩ := (hin p ha).1 hwt
    rw [hqueue] at hp
    rw [hm, hcalls.1, hqueued]
    exact ⟨(List.mem_cons.mp hp).elim (fun he => .inr (by rw [he])) .inl, hc⟩
  case releasing => exact fun p ha hp => absurd hp (hin p ha).2
  case log =>
    rw [hgranted, Function.update_self, hqueued, hm, hcalls.1, hat.log, hqueue]
    simp
  case distinct => rw [hqueued]; exact hat.distinct
  case logged => rw [hqueued, hcalls.2]; exact hat.logged
  case unqueued => rw [hqueued, hpoint, hcalls.1]; exact hat.unqueued

theorem MutexInv.releases (h : s.MutexInv) (hrun : s.here = .run) {m : Nat}
    (howner : (s.kernel.mutexes m).owner = some s.kernel.current)
    (hreleased : Kernel.Released s.kernel m s'.kernel)
    (hframe : LockFrame s.kernel s'.kernel)
    (hcalls : s'.call = s.call ∧ s'.nextCall = s.nextCall) (hqueued : s'.queued = s.queued)
    (hgranted : s'.granted = Function.update s.granted m
      (s.granted m ++ ((s.kernel.mutexes m).waiters.head?.map s.call).toList))
    (hpoint : s'.point = s.point) : s'.MutexInv := by
  cases hreleased with
  | free queue mutexes waits =>
    have hsame : s'.granted = s.granted := by
      rw [hgranted, queue]
      simp
    exact h.frees hrun howner hframe queue mutexes waits ⟨hcalls.1, hcalls.2, hqueued, hsame⟩ hpoint
  | handed next rest queue mutexes others alive =>
    rw [queue] at hgranted
    exact h.hands hrun howner hframe queue mutexes others hcalls hqueued hgranted hpoint

end

end OsState

end SengOS
