import SengOS.Kernel.Inheritance
import SengOS.Kernel.Lifecycle
import SengOS.Kernel.Queues
import Mathlib.Order.Bounds.Basic

/-!
# A critical section without contention

A process locks a mutex that nobody holds and unlocks it again. `mutex_unlock`
sets the priority of its caller to what `recompute_priority` finds, whether
somebody waited or not; so the section leaves no trace if and only if the caller
already has that priority.
-/

namespace SengOS

namespace OsState

/-! ## Every run -/

/-- The system with the code behind a `process_exit` and the assignments of priorities. -/
def wholeMachine : Machine OsState PrioAction where
  enabled s
    | .os a => lateMachine.enabled s a
    | .setPriority p _ => s.Idle ∧ p ≠ 0
  next := prioMachine.next

instance (s : OsState) : (a : PrioAction) → Decidable (wholeMachine.enabled s a)
  | .os a => inferInstanceAs (Decidable (lateMachine.enabled s a))
  | .setPriority p _ => inferInstanceAs (Decidable (s.Idle ∧ p ≠ 0))

/-- The condition of runs that are held to none. -/
def AnyPrio (_ : OsState) (_ : PrioAction) : Prop := True

instance (s : OsState) (a : PrioAction) : Decidable (AnyPrio s a) := inferInstanceAs (Decidable True)

abbrev WholeReached (s : OsState) : Prop := ∃ b, wholeMachine.Reach AnyPrio (boot b) s

section
variable {s : OsState}

theorem wholeStep_shell (h : s.ShellInv) {a : PrioAction} (he : wholeMachine.enabled s a) :
    (wholeMachine.next s a).ShellInv := by
  cases a with
  | os a => exact lateStep_shell h a he
  | setPriority p level => exact setPriority_shell h he.2 level

/-- The actions that write to a lock. -/
def writesLock : Action → Bool
  | .mutexInit _ | .semInit _ _ | .rwlockInit _ | .proceed => true
  | _ => false

theorem next_locks (h : s.ShellInv) {a : Action} (he : lateMachine.enabled s a)
    (ha : writesLock a = false) : (s.next a).kernel.locks = s.kernel.locks := by
  cases a with
  | start | acquire l | unlock l => rfl
  | create entry name =>
    refine (creating_locks (fun hn => ?_) fun p hp => (Kernel.processCreateNamed_spec hp name).1).1
    rw [Kernel.processCreateNamed_none hn]
  | threadCreate entry arg name =>
    refine (creating_locks (fun hn => ?_) fun p hp => (Kernel.threadCreateNamed_spec hp arg name).1).1
    rw [Kernel.threadCreateNamed_none hn]
  | fork contextEsp =>
    rw [next_fork_kernel]
    cases hc : s.kernel.forkTarget with
    | none => exact (Kernel.schedulerFork_refused hc contextEsp).locks
    | some child => exact (Kernel.schedulerFork_spec hc contextEsp).locks
  | tick contextEsp =>
    obtain ⟨woken, hd⟩ := Kernel.dispatch_spec h.ready (he.resolve_right fun hl => hl.2.2) true
    simp only [next, Kernel.schedulerTick]
    cases s.kernel.timerStarted with
    | false => rfl
    | true => exact hd.locks
  | yield contextEsp =>
    obtain ⟨woken, hd⟩ := Kernel.dispatch_spec h.ready (he.resolve_right fun hl => hl.2.2).1 false
    exact hd.locks
  | sleep ms => exact Kernel.sleep_locks _ ms
  | blockForever => exact Kernel.blockForever_locks _
  | wake p =>
    cases p with
    | none => rfl
    | some p => exact Kernel.wake_locks _ p
  | kill contextEsp pid =>
    have hctx : contextEsp ≠ 0#32 := by
      rcases he with he | hl
      · exact he.1
      · exact hl.2.2
    simp only [next]
    rcases Kernel.schedulerKill_cases s.kernel contextEsp pid with ⟨_, hk⟩ | ⟨p, hp, hz, hcase⟩
    · rw [hk]
      rfl
    · have hends := (Kernel.killTarget_spec s.kernel p).1
      rcases hcase with ⟨_, hk⟩ | ⟨_, hk⟩ <;> rw [hk]
      · exact hends.locks
      · obtain ⟨woken, hd⟩ := Kernel.dispatch_spec (h.killed hp hz contextEsp).ready hctx false
        exact hd.locks.trans hends.locks
  | exit =>
    simp only [next]
    by_cases hp : s.kernel.cur.pid = 0#32
    · rw [Kernel.processExit, if_pos hp]
    · exact (Kernel.processExit_spec _ hp).1.locks
  | mutexInit m | semInit i c | rwlockInit r | proceed => cases ha

end

end OsState

/-! ## A mutex that nobody holds -/

/-- An unlocked mutex has no owner, and nobody waits for it. -/
def Mutex.Free (x : Mutex) : Prop := x.locked = false → x.owner = none ∧ x.waiters = []

namespace Kernel

/-- Every unlocked mutex is free. -/
def FreeUnlocked (k : Kernel) : Prop := ∀ m, (k.mutexes m).Free

section
variable {k k' : Kernel}

theorem FreeUnlocked.of_mutexes (h : k.FreeUnlocked) (hm : k'.mutexes = k.mutexes) :
    k'.FreeUnlocked := by
  unfold FreeUnlocked
  rw [hm]
  exact h

theorem FreeUnlocked.of_locks (h : k.FreeUnlocked) (hl : k'.locks = k.locks) : k'.FreeUnlocked :=
  h.of_mutexes (mutexes_of_locks hl)

/-- Code about one lock leaves that one free, if it is a mutex and unlocked. -/
theorem FreeUnlocked.only (h : k.FreeUnlocked) {l : Lock} (hl : Only k l k')
    (hm : ∀ m, l = .mutex m → (k'.mutexes m).Free) : k'.FreeUnlocked := by
  intro n
  by_cases hn : l = .mutex n
  · exact hm n hn
  · rw [hl.mutexes n hn]
    exact h n

theorem mutexInit_free (k : Kernel) (m : Nat) : ((k.mutexInit m).mutexes m).Free := by
  rw [mutexInit_mutexes, Function.update_self]
  exact fun _ => ⟨rfl, rfl⟩

/-- The section of `mutex_lock` leaves its mutex locked. -/
theorem mutexAttempt_free (k : Kernel) (m : Nat) : ((k.mutexAttempt m).2.mutexes m).Free := by
  have locked : ((k.mutexAttempt m).2.mutexes m).locked = true := by
    unfold mutexAttempt
    dsimp only
    split
    · rw [mutexes_of_locks (ownerAdd_locks _ _ _)]
      simp [setMutex]
    · rename_i hl
      have hl : (k.mutexes m).locked = true := by simpa using hl
      split
      · exact hl
      · rename_i q _
        have hlocks := (blockForever_locks (((k.setMutex m { k.mutexes m with waiters := q }).modify
          k.current fun q => { q with waitingMutex := some m }).boostOwner m)).trans
            (boostOwner_locks _ m)
        have hm := congrFun (mutexes_of_locks hlocks) m
        refine (congrArg Mutex.locked hm).trans ?_
        simpa [setMutex] using hl
  intro hf
  rw [locked] at hf
  cases hf

/-- The section of `mutex_unlock` hands the mutex on, or leaves it to nobody. -/
theorem mutexRelease_free (k : Kernel) (m : Nat) : ((k.mutexRelease m).mutexes m).Free := by
  unfold mutexRelease
  dsimp only
  split
  · rename_i hq
    rw [mutexes_of_locks (recomputePriority_locks _ _)]
    intro _
    simpa [setMutex] using hq
  · rw [mutexes_of_locks (recomputePriority_locks _ _), mutexes_of_locks (wake_locks _ _),
      mutexes_of_locks (ownerAdd_locks _ _ _), modify_mutexes]
    intro hf
    simp [setMutex] at hf

theorem FreeUnlocked.lazyInit (h : k.FreeUnlocked) (l : Lock) : (k.lazyInit l).FreeUnlocked := by
  apply h.only (lazyInit_only k l)
  rintro m rfl
  exact mutexInit_free k m

theorem FreeUnlocked.advance (h : k.FreeUnlocked) (point : Point) :
    (k.advance point).2.FreeUnlocked := by
  cases point with
  | run | full l | wait l => exact h
  | init l => exact h.lazyInit l
  | attempt l =>
    have hafter : (k.attempt l).2.FreeUnlocked := by
      apply h.only (attempt_only k l)
      rintro m rfl
      exact mutexAttempt_free k m
    simp only [Kernel.advance]
    split <;> rename_i he <;> rw [he] at hafter <;> exact hafter
  | check l =>
    simp only [Kernel.advance]
    split
    · exact h.of_locks (settle_locks k l)
    · exact h
  | signalInit i => exact h.lazyInit (.sem i)
  | release l =>
    apply h.only (release_only k l)
    rintro m rfl
    exact mutexRelease_free k m

end

end Kernel

namespace OsState

section
variable {s : OsState}

theorem next_freeUnlocked (h : s.kernel.FreeUnlocked) (hs : s.ShellInv) {a : PrioAction}
    (he : wholeMachine.enabled s a) : (wholeMachine.next s a).kernel.FreeUnlocked := by
  cases a with
  | setPriority p level => exact h.of_locks rfl
  | os a =>
    cases ha : writesLock a with
    | false => exact h.of_locks (next_locks hs he ha)
    | true =>
      cases a with
      | mutexInit m => exact h.lazyInit (.mutex m)
      | semInit i c | rwlockInit r => exact h.of_mutexes rfl
      | proceed => exact h.advance s.here
      | _ => cases ha

theorem wholeReached_inv (h : WholeReached s) : s.ShellInv ∧ s.kernel.FreeUnlocked := by
  obtain ⟨b, h⟩ := h
  refine h.invariant (I := fun s => s.ShellInv ∧ s.kernel.FreeUnlocked)
    ⟨boot_shell b, fun m _ => ⟨rfl, rfl⟩⟩ fun s a hi he _ => ?_
  exact ⟨wholeStep_shell hi.1 he, next_freeUnlocked hi.2 hi.1 he⟩

end

end OsState

/-! ## The priority that an unlock sets -/

namespace Kernel

/-- What `recompute_priority` takes the least of: the base priority of `p`, and the
priorities of the others that wait for a mutex in its list. -/
def urgencies (k : Kernel) (p : PcbRef) : Set Nat :=
  {n | n = (k.pcbs p).basePriority.toNat ∨
    ∃ m ∈ (k.pcbs p).ownedMutexList, ∃ w ∈ (k.mutexes m).waiters, w ≠ p ∧ n = k.level w}

section
variable {k : Kernel}

theorem raiseTo_self (k : Kernel) (p : PcbRef) : raiseTo p k p = k := by
  rw [raiseTo, if_neg (BitVec.lt_irrefl _)]

theorem raiseTo_pcbs (k : Kernel) (p w : PcbRef) :
    ∃ v, ∀ q, (raiseTo p k w).pcbs q = if q = p then { k.pcbs p with priority := v } else k.pcbs q := by
  unfold raiseTo
  split
  · exact ⟨(k.pcbs w).priority, fun q => modify_pcbs _ _ _ _⟩
  · refine ⟨(k.pcbs p).priority, fun q => ?_⟩
    split
    · rename_i hq
      rw [hq]
    · rfl

/-- The chain of `raise_to` changes the priority of `p` and nothing else. -/
theorem raiseAll_pcbs (p : PcbRef) (ws : List PcbRef) (k : Kernel) :
    ∃ v, ∀ q, (ws.foldl (raiseTo p) k).pcbs q =
      if q = p then { k.pcbs p with priority := v } else k.pcbs q := by
  induction ws generalizing k with
  | nil =>
    refine ⟨(k.pcbs p).priority, fun q => ?_⟩
    split
    · rename_i hq
      rw [hq]
      rfl
    · rfl
  | cons w ws ih =>
    obtain ⟨v, hv⟩ := ih (raiseTo p k w)
    obtain ⟨u, hu⟩ := raiseTo_pcbs k p w
    refine ⟨v, fun q => ?_⟩
    rw [List.foldl_cons, hv q]
    by_cases hq : q = p
    · rw [if_pos hq, if_pos hq, hu p, if_pos rfl]
    · rw [if_neg hq, if_neg hq, hu q, if_neg hq]

/-- The priority that the chain ends with is the old one, or that of another process in the chain. -/
theorem raiseAll_attains (p : PcbRef) (ws : List PcbRef) (k : Kernel) :
    (ws.foldl (raiseTo p) k).level p = k.level p ∨
      ∃ w ∈ ws, w ≠ p ∧ (ws.foldl (raiseTo p) k).level p = k.level w := by
  induction ws generalizing k with
  | nil => exact .inl rfl
  | cons w ws ih =>
    rw [List.foldl_cons]
    by_cases hw : w = p
    · rw [hw, raiseTo_self]
      rcases ih k with hself | ⟨v, hv, hne, hlevel⟩
      · exact .inl hself
      · exact .inr ⟨v, List.mem_cons_of_mem _ hv, hne, hlevel⟩
    · have hlevel := raiseTo_level p w k
      rcases ih (raiseTo p k w) with hself | ⟨v, hv, hne, hother⟩
      · rw [hlevel, Function.update_self] at hself
        rcases min_choice (k.level p) (k.level w) with hmin | hmin
        · exact .inl (hself.trans hmin)
        · exact .inr ⟨w, List.mem_cons_self, hw, hself.trans hmin⟩
      · rw [hlevel, Function.update_of_ne hne] at hother
        exact .inr ⟨v, List.mem_cons_of_mem _ hv, hne, hother⟩

theorem recomputePriority_least (k : Kernel) (p : PcbRef) :
    IsLeast (k.urgencies p) ((k.recomputePriority p).level p) := by
  obtain ⟨-, hbase, hwaiters⟩ := recomputePriority_level k p
  constructor
  · generalize hk₁ : k.modify p (fun q => { q with priority := q.basePriority }) = k₁
    have hself : k₁.pcbs p = { k.pcbs p with priority := (k.pcbs p).basePriority } := by
      rw [← hk₁, modify_pcbs_self]
    have hmutexes : k₁.mutexes = k.mutexes := by rw [← hk₁]; rfl
    have hlevel : ∀ q, q ≠ p → k₁.level q = k.level q := by
      intro q hq
      unfold level
      rw [← hk₁, modify_pcbs_ne _ _ _ hq]
    have hunfold : k.recomputePriority p =
        ((k₁.pcbs p).ownedMutexList.flatMap fun m => (k₁.mutexes m).waiters).foldl (raiseTo p) k₁ := by
      rw [← hk₁]
      rfl
    rw [hunfold, hself, hmutexes]
    rcases raiseAll_attains p ((k.pcbs p).ownedMutexList.flatMap fun m => (k.mutexes m).waiters) k₁
      with hold | ⟨w, hw, hne, hnew⟩
    · left
      rw [hold, level, hself]
    · obtain ⟨m, hm, hw⟩ := List.mem_flatMap.mp hw
      exact .inr ⟨m, hm, w, hw, hne, hnew.trans (hlevel w hne)⟩
  · rintro n (rfl | ⟨m, hm, w, hw, hne, rfl⟩)
    · exact hbase
    · exact hwaiters m hm w hw hne

theorem recomputePriority_pcbs (k : Kernel) (p : PcbRef) :
    ∃ v, ∀ q, (k.recomputePriority p).pcbs q =
      if q = p then { k.pcbs p with priority := v } else k.pcbs q := by
  obtain ⟨v, hv⟩ := raiseAll_pcbs p
    (((k.modify p fun q => { q with priority := q.basePriority }).pcbs p).ownedMutexList.flatMap
      fun m => ((k.modify p fun q => { q with priority := q.basePriority }).mutexes m).waiters)
    (k.modify p fun q => { q with priority := q.basePriority })
  refine ⟨v, fun q => ?_⟩
  rw [recomputePriority, hv q, modify_pcbs_self]
  split
  · rfl
  · rename_i hq
    exact modify_pcbs_ne _ _ _ hq

/-- A process that owns no mutex goes back to its base priority. -/
theorem least_of_owns_none (howned : k.cur.ownedMutexList = [])
    (hbase : k.cur.basePriority.toNat = k.level k.current) (m : Nat) :
    m ∉ k.cur.ownedMutexList ∧ IsLeast (k.urgencies k.current) (k.level k.current) := by
  refine ⟨by rw [howned]; exact List.not_mem_nil, .inl hbase.symm, ?_⟩
  rintro n (rfl | ⟨i, hi, _⟩)
  · exact hbase.symm.le
  · rw [show (k.pcbs k.current).ownedMutexList = [] from howned] at hi
    cases hi

/-! ## The section -/

/-- The step leaves the mutex, what its caller does with mutexes and priorities, and
every other process as they were. -/
structure Invisible (k k' : Kernel) (m : Nat) : Prop where
  mutex : k'.mutexes m = k.mutexes m
  priority : (k'.pcbs k.current).priority = k.cur.priority
  basePriority : (k'.pcbs k.current).basePriority = k.cur.basePriority
  owned : (k'.pcbs k.current).ownedMutexList = k.cur.ownedMutexList
  waiting : (k'.pcbs k.current).waitingMutex = k.cur.waitingMutex
  others : ∀ q, q ≠ k.current → k'.pcbs q = k.pcbs q

/-- `owner_add` followed by `owner_remove`. -/
def addRemove (owned : List Nat) (m : Nat) : List Nat :=
  (if 4 ≤ owned.length ∨ m ∈ owned then owned else owned ++ [m]).erase m

theorem addRemove_iff (owned : List Nat) (m : Nat) : addRemove owned m = owned ↔ m ∉ owned := by
  unfold addRemove
  by_cases hm : m ∈ owned
  · rw [if_pos (.inr hm)]
    constructor
    · intro he
      have hlen := List.length_erase_of_mem hm
      rw [he] at hlen
      have := List.length_pos_of_mem hm
      omega
    · exact fun hout => absurd hm hout
  · simp only [hm, or_false, not_false_eq_true, iff_true]
    split
    · exact List.erase_of_not_mem hm
    · rw [List.erase_append_right _ hm, List.erase_cons_head, List.append_nil]

/-- The two sections one after the other. -/
def lockUnlock (k : Kernel) (m : Nat) : Kernel :=
  ((k.setMutex m { k.mutexes m with locked := true, owner := some k.current }).ownerAdd
    k.current m).mutexRelease m

/-- On a mutex that nobody holds only the list of the caller is left to be looked at. -/
theorem lockUnlock_eq {m : Nat} (hfree : (k.mutexes m).locked = false)
    (hm : (k.mutexes m).owner = none ∧ (k.mutexes m).waiters = []) :
    k.lockUnlock m = (k.modify k.current fun q =>
      { q with ownedMutexList := addRemove q.ownedMutexList m }).recomputePriority k.current := by
  obtain ⟨howner, hwaiters⟩ := hm
  have hback : { k.mutexes m with locked := false, owner := none } = k.mutexes m := by
    rw [← hfree, ← howner]
  generalize hk₁ : (k.setMutex m { k.mutexes m with locked := true, owner := some k.current }).ownerAdd
    k.current m = k₁
  have hcur : k₁.current = k.current := by rw [← hk₁]; rfl
  have hmutex : k₁.mutexes m = { k.mutexes m with locked := true, owner := some k.current } := by
    rw [← hk₁]
    simp [ownerAdd, setMutex]
  have hafter : (k₁.ownerRemove k.current m).setMutex m
      { k₁.mutexes m with locked := false, owner := none } =
        k.modify k.current fun q => { q with ownedMutexList := addRemove q.ownedMutexList m } := by
    rw [hmutex, hback, ← hk₁]
    simp only [ownerRemove, ownerAdd, modify_modify]
    simp only [setMutex, modify, Function.update_idem, Function.update_eq_self, Kernel.mk.injEq,
      and_true]
    congr 1
    simp only [Function.comp_apply, addRemove]
    split <;> rfl
  rw [lockUnlock, hk₁, mutexRelease]
  dsimp only
  rw [hcur, hmutex]
  dsimp only
  rw [hwaiters]
  dsimp only
  rw [hmutex] at hafter
  rw [← hafter]
  simp only [hwaiters]

theorem lockUnlock_invisible_iff {m : Nat} (hfree : (k.mutexes m).locked = false)
    (hm : (k.mutexes m).owner = none ∧ (k.mutexes m).waiters = []) :
    Invisible k (k.lockUnlock m) m ↔
      m ∉ k.cur.ownedMutexList ∧ IsLeast (k.urgencies k.current) (k.level k.current) := by
  generalize hk₁ : (k.modify k.current fun q =>
    { q with ownedMutexList := addRemove q.ownedMutexList m }) = k₁
  have hself : k₁.pcbs k.current =
      { k.cur with ownedMutexList := addRemove k.cur.ownedMutexList m } := by
    rw [← hk₁, modify_pcbs_self]
    rfl
  have hothers : ∀ q, q ≠ k.current → k₁.pcbs q = k.pcbs q := by
    intro q hq
    rw [← hk₁, modify_pcbs_ne _ _ _ hq]
  have hmutexes : k₁.mutexes = k.mutexes := by rw [← hk₁]; rfl
  have hleast := recomputePriority_least k₁ k.current
  obtain ⟨v, hv⟩ := recomputePriority_pcbs k₁ k.current
  have hcaller := hv k.current
  rw [if_pos rfl] at hcaller
  have hlevel : (k₁.recomputePriority k.current).level k.current = v.toNat := by
    rw [level, hcaller]
  rw [hlevel] at hleast
  have hsame : m ∉ k.cur.ownedMutexList → k₁.urgencies k.current = k.urgencies k.current := by
    intro hout
    have howned : addRemove k.cur.ownedMutexList m = k.cur.ownedMutexList :=
      (addRemove_iff _ _).mpr hout
    have hcur : k₁.pcbs k.current = k.pcbs k.current := by
      rw [hself, howned]
      rfl
    have hall : k₁.pcbs = k.pcbs := by
      funext q
      by_cases hq : q = k.current
      · rw [hq, hcur]
      · exact hothers q hq
    unfold urgencies level
    rw [hall, hmutexes]
  rw [lockUnlock_eq hfree hm, hk₁]
  constructor
  · intro h
    have howned := h.owned
    rw [hcaller, hself] at howned
    have hout := (addRemove_iff _ _).mp howned
    have hprio := h.priority
    rw [hcaller] at hprio
    refine ⟨hout, ?_⟩
    rw [← hsame hout, show k.level k.current = v.toNat from congrArg BitVec.toNat hprio.symm]
    exact hleast
  · rintro ⟨hout, hmin⟩
    have howned := (addRemove_iff _ _).mpr hout
    rw [hsame hout] at hleast
    have hprio : v = k.cur.priority := BitVec.eq_of_toNat_eq (hleast.unique hmin)
    constructor
    · rw [mutexes_of_locks (recomputePriority_locks _ _), hmutexes]
    · rw [hcaller, hprio]
    · rw [hcaller, hself]
    · rw [hcaller, hself, howned]
    · rw [hcaller, hself]
    · intro q hq
      rw [hv q, if_neg hq, hothers q hq]

end

end Kernel

namespace OsState

/-- `mutex_lock` and `mutex_unlock` of one mutex with no other step in between. -/
def criticalSection (m : Nat) : List PrioAction :=
  [.os (.acquire (.mutex m)), .os .proceed, .os (.unlock (.mutex m)), .os .proceed]

section
variable {s : OsState}

theorem enabled_whole {a : Action} (h : s.Enabled a) : wholeMachine.enabled s (.os a) := .inl h

/-- The call of `mutex_lock` comes to its section, which takes the mutex. -/
theorem acquire_free {m : Nat} (hp : s.kernel.cur.pid ≠ 0#32)
    (hinit : (s.kernel.mutexes m).initialized = true) (hfree : (s.kernel.mutexes m).locked = false)
    (howner : (s.kernel.mutexes m).owner = none) :
    (s.next (.acquire (.mutex m))).here = .attempt (.mutex m) ∧
      s.kernel.advance (.attempt (.mutex m)) = (.run,
        (s.kernel.setMutex m { s.kernel.mutexes m with
          locked := true
          owner := some s.kernel.current }).ownerAdd s.kernel.current m) := by
  constructor
  · have henter : s.kernel.enter (.mutex m) = .attempt (.mutex m) := by
      simp [Kernel.enter, hp, Kernel.initialized, hinit, howner]
    simp only [next, here, setPoint, Function.update_self, henter]
  · simp only [Kernel.advance, Kernel.attempt, Kernel.mutexAttempt, hfree, Bool.not_false, if_true]

/-- The call of `mutex_unlock` by the owner comes to its section. -/
theorem unlock_owned {m : Nat} (howner : (s.kernel.mutexes m).owner = some s.kernel.current) :
    (s.next (.unlock (.mutex m))).here = .release (.mutex m) := by
  have henter : s.kernel.enterRelease (.mutex m) = .release (.mutex m) := by
    simp [Kernel.enterRelease, Kernel.mayRelease, howner]
  simp only [next, here, setPoint, Function.update_self, henter]

theorem proceed_kernel {point point' : Point} {k : Kernel} (hhere : s.here = point)
    (hadvance : s.kernel.advance point = (point', k)) (hcur : k.current = s.kernel.current) :
    (s.next .proceed).kernel = k ∧ (s.next .proceed).here = point' := by
  simp only [next, hhere, hadvance]
  simp only [here, setPoint, hcur, Function.update_self, and_self]

/-- The section runs through, and does to the kernel what the two calls do. -/
theorem criticalSection_runs {m : Nat} (hi : s.Idle) (hp : s.kernel.cur.pid ≠ 0#32)
    (hinit : (s.kernel.mutexes m).initialized = true) (hfree : (s.kernel.mutexes m).locked = false)
    (howner : (s.kernel.mutexes m).owner = none) :
    wholeMachine.Accepts AnyPrio s (criticalSection m) ∧
      (wholeMachine.after s (criticalSection m)).kernel = s.kernel.lockUnlock m := by
  obtain ⟨hhere, hadvance⟩ := acquire_free hp hinit hfree howner
  obtain ⟨hlocked, hrun⟩ := proceed_kernel (s := s.next (.acquire (.mutex m))) hhere hadvance rfl
  generalize ha : s.next (.acquire (.mutex m)) = a at *
  have hak : a.kernel = s.kernel := by rw [← ha]; rfl
  generalize hb : a.next .proceed = b at *
  have hcur : b.kernel.current = s.kernel.current := by rw [hlocked]; rfl
  have hstate : b.kernel.cur.state = .running := by
    rw [Kernel.cur, hcur, hlocked, (Kernel.ownerAdd_sameWaits _ _ _ _).1]
    exact hi.1
  have hown : (b.kernel.mutexes m).owner = some b.kernel.current := by
    rw [hcur, hlocked]
    simp [Kernel.ownerAdd, Kernel.setMutex]
  have hreleasing := unlock_owned hown
  generalize hc : b.next (.unlock (.mutex m)) = c at *
  have hck : c.kernel = b.kernel := by rw [← hc]; rfl
  constructor
  · refine ⟨enabled_whole hi, trivial, ?_⟩
    change wholeMachine.Accepts AnyPrio (s.next (.acquire (.mutex m))) _
    rw [ha]
    refine ⟨enabled_whole ⟨?_, ?_⟩, trivial, ?_⟩
    · rw [hak]
      exact hi.1
    · rw [hhere]
      exact Bool.false_ne_true
    change wholeMachine.Accepts AnyPrio (a.next .proceed) _
    rw [hb]
    refine ⟨enabled_whole ⟨hstate, hrun⟩, trivial, ?_⟩
    change wholeMachine.Accepts AnyPrio (b.next (.unlock (.mutex m))) _
    rw [hc]
    refine ⟨enabled_whole ⟨?_, ?_⟩, trivial, trivial⟩
    · rw [hck]
      exact hstate
    · rw [hreleasing]
      exact Bool.false_ne_true
  · change ((((s.next (.acquire (.mutex m))).next .proceed).next (.unlock (.mutex m))).next
      .proceed).kernel = _
    rw [ha, hb, hc]
    have hsection : c.kernel.advance (.release (.mutex m)) = (.run, c.kernel.mutexRelease m) := rfl
    rw [next, hreleasing, hsection]
    change c.kernel.mutexRelease m = _
    rw [hck, hlocked]
    rfl

/-- **When a critical section without contention leaves no trace.** In every reachable state
a process with a pid that locks and unlocks an initialised mutex that is unlocked comes
through, and leaves the mutex, its own priorities and mutexes and every other process as they
were if and only if the mutex is not in its list already and its priority is the least of its
base priority and the priorities of those who wait for a mutex in its list. -/
theorem criticalSection_invisible_iff (h : WholeReached s) {m : Nat} (hi : s.Idle)
    (hp : s.kernel.cur.pid ≠ 0#32) (hinit : (s.kernel.mutexes m).initialized = true)
    (hfree : (s.kernel.mutexes m).locked = false) :
    wholeMachine.Accepts AnyPrio s (criticalSection m) ∧
      (Kernel.Invisible s.kernel (wholeMachine.after s (criticalSection m)).kernel m ↔
        m ∉ s.kernel.cur.ownedMutexList ∧
          IsLeast (s.kernel.urgencies s.kernel.current) (s.kernel.level s.kernel.current)) := by
  have hm := (wholeReached_inv h).2 m hfree
  obtain ⟨haccepts, hkernel⟩ := criticalSection_runs hi hp hinit hfree hm.1
  refine ⟨haccepts, ?_⟩
  rw [hkernel]
  exact Kernel.lockUnlock_invisible_iff hfree hm

end

/-- Process 1 starts on the top level and initialises mutex 0. -/
def ownerRun : List PrioAction :=
  [.os (.create 0x11000#32 none), .os .start, .os (.yield 0x90000#32), .os (.mutexInit 0)]

def freshOwner : OsState := wholeMachine.after (boot smallBoot) ownerRun

theorem freshOwner_invisible :
    Kernel.Invisible freshOwner.kernel (wholeMachine.after freshOwner (criticalSection 0)).kernel 0 := by
  have hrun : wholeMachine.Accepts AnyPrio (boot smallBoot) ownerRun ∧ freshOwner.Idle ∧
      freshOwner.kernel.cur.pid ≠ 0#32 ∧ (freshOwner.kernel.mutexes 0).initialized = true ∧
      (freshOwner.kernel.mutexes 0).locked = false ∧ freshOwner.kernel.cur.ownedMutexList = [] ∧
      freshOwner.kernel.cur.basePriority.toNat = freshOwner.kernel.level freshOwner.kernel.current := by
    decide +kernel
  obtain ⟨haccepts, hi, hp, hinit, hfree, howned, hbase⟩ := hrun
  have hreach : wholeMachine.Reach AnyPrio (boot smallBoot) freshOwner := .accepts .start haccepts
  apply (criticalSection_invisible_iff ⟨smallBoot, hreach⟩ hi hp hinit hfree).2.mpr
  exact Kernel.least_of_owns_none howned hbase 0

/-- Process 1 sleeps while its priorities are set to the last level; the tick that wakes
it boosts it to the top. -/
def boostRun : List PrioAction :=
  ownerRun ++ [.os (.sleep 10#32), .os (.yield 0x100F00#32), .setPriority 1 2#8,
    .os (.tick 0x90000#32)]

def boostedSleeper : OsState := wholeMachine.after (boot smallBoot) boostRun

/-- The unlock takes the boost away, though nobody ever waited. -/
theorem boost_lost : ¬ ∀ s, WholeReached s → s.Idle → s.kernel.cur.pid ≠ 0#32 →
    ∀ m, (s.kernel.mutexes m).initialized = true → (s.kernel.mutexes m).locked = false →
      Kernel.Invisible s.kernel (wholeMachine.after s (criticalSection m)).kernel m := by
  intro h
  have hrun : wholeMachine.Accepts AnyPrio (boot smallBoot) boostRun ∧ boostedSleeper.Idle ∧
      boostedSleeper.kernel.cur.pid ≠ 0#32 ∧
      (boostedSleeper.kernel.mutexes 0).initialized = true ∧
      (boostedSleeper.kernel.mutexes 0).locked = false ∧
      boostedSleeper.kernel.current = 1 ∧ boostedSleeper.kernel.cur.priority = 0#8 ∧
      ((wholeMachine.after boostedSleeper (criticalSection 0)).kernel.pcbs 1).priority = 2#8 := by
    decide +kernel
  obtain ⟨haccepts, hi, hp, hinit, hfree, hcur, hboost, hafter⟩ := hrun
  have hreach : wholeMachine.Reach AnyPrio (boot smallBoot) boostedSleeper := .accepts .start haccepts
  have hsame := (h boostedSleeper ⟨smallBoot, hreach⟩ hi hp 0 hinit hfree).priority
  rw [hcur, hafter, hboost] at hsame
  cases hsame

end OsState

end SengOS
