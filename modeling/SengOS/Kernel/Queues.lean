import SengOS.Kernel.MutexSections
import Mathlib.Data.Fintype.Card

/-!
# The queues of the locks

What the sections of the lock calls do to the queues and to the states of the
processes, whatever the kind of the lock. The section of an acquiring call
passes, or it queues the running process and blocks it; the section of a
releasing call takes processes out of one queue, in order, and wakes them.
-/

namespace SengOS

namespace Kernel

def waiters (k : Kernel) : Lock → List PcbRef
  | .mutex m => (k.mutexes m).waiters
  | .sem s => (k.sems s).waiters
  | .read r => (k.rwlocks r).readerWaiters
  | .write r => (k.rwlocks r).writerWaiters

theorem waiters_of_locks {k k' : Kernel} (h : k'.locks = k.locks) : k'.waiters = k.waiters := by
  simp only [locks, Prod.mk.injEq] at h
  funext l
  cases l <;> simp only [waiters, h.1, h.2.1, h.2.2]

/-- The running process goes to the end of the queue of `l` and blocks. -/
structure Joins (k : Kernel) (l : Lock) (k' : Kernel) : Prop where
  queue : k'.waiters l = k.waiters l ++ [k.current]
  beside : ∀ l', l' ≠ l → k'.waiters l' = k.waiters l'
  blocked : (k'.pcbs k.current).state = .blocked
  others : ∀ p, p ≠ k.current → (k'.pcbs p).state = (k.pcbs p).state

/-- The processes `out` leave the front of the queue of `l` and are woken. -/
structure Wakes (k : Kernel) (l : Lock) (out : List PcbRef) (k' : Kernel) : Prop where
  queue : k.waiters l = out ++ k'.waiters l
  beside : ∀ l', l' ≠ l → k'.waiters l' = k.waiters l'
  woken : ∀ p ∈ out, (k.pcbs p).state = .blocked → (k'.pcbs p).state = .ready
  others : ∀ p, p ∉ out → (k'.pcbs p).state = (k.pcbs p).state

/-- Code that leaves all queues and states alone. -/
theorem Wakes.none {k k' : Kernel} {l : Lock} (hq : k'.waiters = k.waiters)
    (hs : ∀ p, (k'.pcbs p).state = (k.pcbs p).state) : Wakes k l [] k' where
  queue := by rw [hq]; rfl
  beside := fun l' _ => by rw [hq]
  woken := by nofun
  others := fun p _ => hs p

theorem waitqAdd_new {q : List PcbRef} {p : PcbRef} (hq : q.Nodup) (hp : p ∉ q) :
    waitqAdd q p = some (q ++ [p]) := by
  have hlen := (List.nodup_cons.mpr ⟨hp, hq⟩).length_le_card
  rw [Fintype.card_fin, List.length_cons] at hlen
  rw [waitqAdd, if_neg (by omega), if_neg hp]

section Writes
variable (k : Kernel)

theorem waiters_setMutex (m : Nat) (v : Mutex) (l : Lock) :
    (k.setMutex m v).waiters l = if l = .mutex m then v.waiters else k.waiters l := by
  cases l with
  | mutex n =>
    by_cases hn : n = m
    · subst hn
      simp [waiters, setMutex]
    · simp [waiters, setMutex, hn]
  | _ => rfl

theorem waiters_setSem (i : Nat) (v : Semaphore) (l : Lock) :
    (k.setSem i v).waiters l = if l = .sem i then v.waiters else k.waiters l := by
  cases l with
  | sem n =>
    by_cases hn : n = i
    · subst hn
      simp [waiters, setSem]
    · simp [waiters, setSem, hn]
  | _ => rfl

theorem waiters_setRwlock (r : Nat) (v : Rwlock) (l : Lock) :
    (k.setRwlock r v).waiters l =
      if l = .read r then v.readerWaiters else if l = .write r then v.writerWaiters
      else k.waiters l := by
  cases l with
  | read n | write n =>
    by_cases hn : n = r
    · subst hn
      simp [waiters, setRwlock]
    · simp [waiters, setRwlock, hn]
  | _ => rfl

theorem wake_state (p q : PcbRef) :
    ((k.schedulerWake p).pcbs q).state =
      if q = p ∧ (k.pcbs p).state = .blocked then .ready else (k.pcbs q).state := by
  unfold schedulerWake
  split
  · rename_i hb
    rw [if_neg fun h => hb h.2]
  · rename_i hb
    have hb : (k.pcbs p).state = .blocked := not_not.mp hb
    rw [modify_pcbs]
    by_cases hq : q = p
    · simp only [hq, hb, if_true, and_self]
    · simp only [hq, if_false, false_and]

end Writes

/-! ## Acquiring -/

section Acquiring
variable {k : Kernel}

theorem joins_of_lock {k₁ : Kernel} {l : Lock} (hpid : k₁.cur.pid ≠ 0#32)
    (hcur : k₁.current = k.current) (hq : k₁.waiters l = k.waiters l ++ [k.current])
    (hb : ∀ l', l' ≠ l → k₁.waiters l' = k.waiters l')
    (hs : ∀ p, (k₁.pcbs p).state = (k.pcbs p).state) : Joins k l k₁.schedulerBlockForever where
  queue := by rw [waiters_of_locks (blockForever_locks k₁), hq]
  beside := fun l' hl => by rw [waiters_of_locks (blockForever_locks k₁), hb l' hl]
  blocked := by rw [blockForever_pcbs hpid, hcur, if_pos rfl]
  others := fun p hp => by rw [blockForever_pcbs hpid, hcur, if_neg hp, hs]

/-- The section of an acquiring call: it takes the lock or joins the queue. -/
inductive Acquires (k : Kernel) (l : Lock) : Attempt × Kernel → Prop
  | passes {k' : Kernel} (rests : Wakes k l [] k') : Acquires k l (.got, k')
  | joins {k' : Kernel} (joins : Joins k l k') : Acquires k l (.waits, k')

theorem mutexAttempt_acquires (h : k.ShellOwnsNone) (hpid : k.cur.pid ≠ 0#32) {m : Nat}
    (hq : (k.mutexes m).waiters.Nodup) (hc : k.current ∉ (k.mutexes m).waiters) :
    Acquires k (.mutex m) (k.mutexAttempt m) := by
  unfold mutexAttempt
  dsimp only
  split
  · refine .passes (.none (funext fun l => ?_) fun p => ?_)
    · rw [waiters_of_locks (ownerAdd_locks _ _ _), waiters_setMutex]
      split
      · rename_i hl
        rw [hl]
        rfl
      · rfl
    · exact (ownerAdd_sameWaits _ _ _ p).1
  · rw [waitqAdd_new hq hc]
    dsimp only
    generalize hk₁ : (k.setMutex m { k.mutexes m with
      waiters := (k.mutexes m).waiters ++ [k.current] }).modify
        (k.setMutex m { k.mutexes m with
          waiters := (k.mutexes m).waiters ++ [k.current] }).current
        (fun q => { q with waitingMutex := some m }) = k₁
    have hcur : k₁.current = k.current := by rw [← hk₁]; rfl
    have hpcb : ∀ p, (k₁.pcbs p).state = (k.pcbs p).state ∧ (k₁.pcbs p).pid = (k.pcbs p).pid := by
      intro p
      rw [← hk₁, modify_pcbs]
      split
      · rename_i hp
        rw [hp]
        exact ⟨rfl, rfl⟩
      · exact ⟨rfl, rfl⟩
    have hqueue : ∀ l, k₁.waiters l =
        if l = .mutex m then (k.mutexes m).waiters ++ [k.current] else k.waiters l := by
      intro l
      rw [← hk₁, waiters_of_locks (modify_locks _ _ _), waiters_setMutex]
    have hframe : LockFrame k₁ (k₁.boostOwner m) := by
      apply boostOwner_frame
      rw [← hk₁]
      exact h.queued m _ _ _
    refine .joins (joins_of_lock ?_ (hframe.current.trans hcur) ?_ (fun l hl => ?_) fun p => ?_)
    · rw [hframe.cur.pid, cur, hcur, (hpcb _).2]
      exact hpid
    · rw [waiters_of_locks (boostOwner_locks _ _), hqueue, if_pos rfl]
      rfl
    · rw [waiters_of_locks (boostOwner_locks _ _), hqueue, if_neg hl]
    · rw [(boostOwner_sameWaits k₁ m p).1, (hpcb p).1]

theorem semAttempt_acquires (hpid : k.cur.pid ≠ 0#32) {i : Nat}
    (hq : (k.sems i).waiters.Nodup) (hc : k.current ∉ (k.sems i).waiters) :
    Acquires k (.sem i) (k.semAttempt i) := by
  unfold semAttempt
  dsimp only
  split
  · refine .passes (.none (funext fun l => ?_) fun p => rfl)
    rw [waiters_setSem]
    split
    · rename_i hl
      rw [hl]
      rfl
    · rfl
  · rw [waitqAdd_new hq hc]
    refine .joins (joins_of_lock hpid rfl ?_ (fun l hl => ?_) fun p => rfl)
    · rw [waiters_setSem, if_pos rfl]
      rfl
    · rw [waiters_setSem, if_neg hl]

/-- A write to a reader-writer lock that keeps both queues. -/
theorem waiters_rw {r : Nat} {v : Rwlock} (hr : v.readerWaiters = (k.rwlocks r).readerWaiters)
    (hw : v.writerWaiters = (k.rwlocks r).writerWaiters) : (k.setRwlock r v).waiters = k.waiters := by
  funext l
  rw [waiters_setRwlock]
  split
  · rename_i hl
    rw [hl, hr]
    rfl
  · split
    · rename_i hl
      rw [hl, hw]
      rfl
    · rfl

theorem addReader_waiters (r : Nat) (p : PcbRef) : (k.addReader r p).waiters = k.waiters := by
  rw [addReader, waiters_of_locks (modify_locks _ _ _)]
  exact waiters_rw rfl rfl

theorem addReader_state (r : Nat) (p q : PcbRef) :
    ((k.addReader r p).pcbs q).state = (k.pcbs q).state := by
  rw [addReader, modify_pcbs]
  split
  · rename_i hq
    rw [hq]
    rfl
  · rfl

theorem readAttempt_acquires (hpid : k.cur.pid ≠ 0#32) {r : Nat}
    (hq : (k.rwlocks r).readerWaiters.Nodup) (hc : k.current ∉ (k.rwlocks r).readerWaiters) :
    Acquires k (.read r) (k.readAttempt r) := by
  unfold readAttempt
  dsimp only
  split
  · exact .passes (.none (addReader_waiters r _) (addReader_state r _))
  · rw [waitqAdd_new hq hc, Option.getD_some]
    refine .joins (joins_of_lock hpid rfl ?_ (fun l hl => ?_) fun p => rfl)
    · rw [waiters_setRwlock, if_pos rfl]
      rfl
    · rw [waiters_setRwlock, if_neg hl]
      split
      · rename_i hw
        rw [hw]
        rfl
      · rfl

theorem writeAttempt_acquires (hpid : k.cur.pid ≠ 0#32) {r : Nat}
    (hq : (k.rwlocks r).writerWaiters.Nodup) (hc : k.current ∉ (k.rwlocks r).writerWaiters) :
    Acquires k (.write r) (k.writeAttempt r) := by
  unfold writeAttempt
  dsimp only
  split
  · exact .passes (.none (waiters_rw rfl rfl) fun p => rfl)
  · rw [waitqAdd_new hq hc, Option.getD_some]
    refine .joins (joins_of_lock hpid rfl ?_ (fun l hl => ?_) fun p => rfl)
    · rw [waiters_setRwlock, if_neg nofun, if_pos rfl]
      rfl
    · rw [waiters_setRwlock, if_neg hl]
      split
      · rename_i hw
        rw [hw]
        rfl
      · rfl

theorem attempt_acquires (h : k.ShellOwnsNone) (hpid : k.cur.pid ≠ 0#32) {l : Lock}
    (hq : (k.waiters l).Nodup) (hc : k.current ∉ k.waiters l) : Acquires k l (k.attempt l) := by
  cases l with
  | mutex m => exact mutexAttempt_acquires h hpid hq hc
  | sem i => exact semAttempt_acquires hpid hq hc
  | read r => exact readAttempt_acquires hpid hq hc
  | write r => exact writeAttempt_acquires hpid hq hc

end Acquiring

/-! ## Releasing -/

section Releasing
variable {k : Kernel}

/-- The first process of a queue is woken, if there is one. -/
theorem wakes_first {k₁ : Kernel} {l : Lock} {next : PcbRef} {rest : List PcbRef}
    (hq : k.waiters l = next :: rest) (hq₁ : k₁.waiters l = rest)
    (hb : ∀ l', l' ≠ l → k₁.waiters l' = k.waiters l')
    (hs : ∀ p, (k₁.pcbs p).state = (k.pcbs p).state) : Wakes k l [next] (k₁.schedulerWake next) where
  queue := by rw [waiters_of_locks (wake_locks k₁ next), hq₁, hq]; rfl
  beside := fun l' hl => by rw [waiters_of_locks (wake_locks k₁ next), hb l' hl]
  woken := fun p hp hbl => by
    rw [List.mem_singleton.mp hp] at hbl ⊢
    rw [wake_state, if_pos ⟨rfl, by rw [hs]; exact hbl⟩]
  others := fun p hp => by
    rw [wake_state, if_neg fun h => hp (List.mem_singleton.mpr h.1), hs]

theorem mutexRelease_wakes (m : Nat) :
    Wakes k (.mutex m) ((k.mutexes m).waiters.take 1) (k.mutexRelease m) := by
  unfold mutexRelease
  dsimp only
  cases hq : (k.mutexes m).waiters with
  | nil =>
    refine .none ?_ fun p => ?_
    · rw [waiters_of_locks (recomputePriority_locks _ _)]
      funext l
      rw [waiters_setMutex]
      split
      · rename_i hl
        rw [hl]
        exact hq.symm
      · exact congrFun (waiters_of_locks (modify_locks _ _ _)) l
    · rw [(recomputePriority_sameWaits _ _ p).1]
      exact (ownerRemove_sameWaits k _ m p).1
  | cons next rest =>
    dsimp only
    generalize hk₁ : (((k.ownerRemove k.current m).setMutex m
      { k.mutexes m with locked := true, owner := some next, waiters := rest }).modify next
        fun q => { q with waitingMutex := none }).ownerAdd next m = k₁
    have hlocks : k₁.locks = ((k.ownerRemove k.current m).setMutex m
        { k.mutexes m with locked := true, owner := some next, waiters := rest }).locks := by
      rw [← hk₁, ownerAdd_locks, modify_locks]
    have hqueue : ∀ l, k₁.waiters l = if l = .mutex m then rest else k.waiters l := by
      intro l
      rw [waiters_of_locks hlocks, waiters_setMutex]
      rfl
    have hstate : ∀ p, (k₁.pcbs p).state = (k.pcbs p).state := by
      intro p
      rw [← hk₁, (ownerAdd_sameWaits _ _ _ p).1, modify_pcbs]
      split
      · rename_i hp
        rw [hp]
        exact (ownerRemove_sameWaits k _ m next).1
      · exact (ownerRemove_sameWaits k _ m p).1
    have hw : Wakes k (.mutex m) [next] (k₁.schedulerWake next) :=
      wakes_first hq (by rw [hqueue, if_pos rfl]) (fun l hl => by rw [hqueue, if_neg hl]) hstate
    refine ⟨?_, fun l hl => ?_, fun p hp hb => ?_, fun p hp => ?_⟩
    · rw [waiters_of_locks (recomputePriority_locks _ _)]
      exact hw.queue
    · rw [waiters_of_locks (recomputePriority_locks _ _)]
      exact hw.beside l hl
    · rw [(recomputePriority_sameWaits _ _ p).1]
      exact hw.woken p hp hb
    · rw [(recomputePriority_sameWaits _ _ p).1]
      exact hw.others p hp

theorem semRelease_wakes (i : Nat) :
    Wakes k (.sem i) ((k.sems i).waiters.take 1) (k.semRelease i) := by
  unfold semRelease
  dsimp only
  cases hq : (k.sems i).waiters with
  | nil =>
    refine .none (funext fun l => ?_) fun p => rfl
    rw [waiters_setSem]
    split
    · rename_i hl
      rw [hl]
      exact hq.symm
    · rfl
  | cons next rest =>
    have hqueue : k.waiters (.sem i) = next :: rest := hq
    apply wakes_first hqueue
    · rw [waiters_setSem, if_pos rfl]
    · intro l hl
      rw [waiters_setSem, if_neg hl]
    · exact fun p => rfl

/-- The lock is free once the running reader has left. -/
def LastReader (k : Kernel) (r : Nat) : Prop :=
  (dropReader (k.rwlocks r)).readers = 0#32 ∧ (k.rwlocks r).writer = none

instance (k : Kernel) (r : Nat) : Decidable (k.LastReader r) := inferInstanceAs (Decidable (_ ∧ _))

theorem readRelease_wakes (r : Nat) :
    Wakes k (.write r) (if k.LastReader r then (k.rwlocks r).writerWaiters.take 1 else [])
      (k.readRelease r) := by
  unfold readRelease
  dsimp only
  generalize hk₁ : (k.modify k.current fun q => { q with rwReadLocks := q.rwReadLocks - 1#8 }) = k₁
  have hlocks : k₁.locks = k.locks := by rw [← hk₁, modify_locks]
  have hwaiters := waiters_of_locks hlocks
  have hrw : k₁.rwlocks = k.rwlocks := congrArg (fun l => l.2.2) hlocks
  have hstate : ∀ p, (k₁.pcbs p).state = (k.pcbs p).state := by
    intro p
    rw [← hk₁, modify_pcbs]
    split
    · rename_i hp
      rw [hp]
    · rfl
  rw [hrw]
  have hkeep : (k₁.setRwlock r (dropReader (k.rwlocks r))).waiters = k.waiters := by
    rw [← hwaiters]
    apply waiters_rw
    · rw [hrw]
      rfl
    · rw [hrw]
      rfl
  by_cases hl : (dropReader (k.rwlocks r)).readers = 0#32 ∧ (dropReader (k.rwlocks r)).writer = none
  · have hlast : k.LastReader r := hl
    rw [if_pos hl, if_pos hlast]
    cases hq : (k.rwlocks r).writerWaiters with
    | nil =>
      simp only [show (dropReader (k.rwlocks r)).writerWaiters = [] from hq]
      exact .none hkeep hstate
    | cons next rest =>
      have hqueue : k.waiters (.write r) = next :: rest := hq
      simp only [show (dropReader (k.rwlocks r)).writerWaiters = next :: rest from hq]
      apply wakes_first hqueue
      · rw [waiters_setRwlock, if_neg nofun, if_pos rfl]
      · intro l hl
        rw [waiters_setRwlock, if_neg hl, hwaiters]
        split
        · rename_i hw
          rw [hw]
          rfl
        · rfl
      · exact hstate
  · have hlast : ¬ k.LastReader r := hl
    rw [if_neg hl, if_neg hlast]
    exact .none hkeep hstate

theorem admitReaders_waiters (r : Nat) (ps : List PcbRef) (k : Kernel) :
    (ps.foldl (admitReader r) k).waiters = k.waiters := by
  induction ps generalizing k with
  | nil => rfl
  | cons p ps ih =>
    rw [List.foldl_cons, ih, admitReader, waiters_of_locks (wake_locks _ _), addReader_waiters]

theorem admitReaders_state (r : Nat) (ps : List PcbRef) (k : Kernel) (q : PcbRef) :
    ((ps.foldl (admitReader r) k).pcbs q).state =
      if q ∈ ps ∧ (k.pcbs q).state = .blocked then .ready else (k.pcbs q).state := by
  induction ps generalizing k with
  | nil => simp
  | cons p ps ih =>
    rw [List.foldl_cons, ih, admitReader, wake_state, addReader_state, addReader_state]
    by_cases hqp : q = p
    · subst hqp
      by_cases hb : (k.pcbs q).state = .blocked <;> simp [hb]
    · simp [hqp]

theorem writeRelease_wakes (r : Nat) :
    ((k.rwlocks r).writerWaiters ≠ [] ∧
        Wakes k (.write r) ((k.rwlocks r).writerWaiters.take 1) (k.writeRelease r)) ∨
      ((k.rwlocks r).writerWaiters = [] ∧
        Wakes k (.read r) (k.rwlocks r).readerWaiters (k.writeRelease r)) := by
  unfold writeRelease
  dsimp only
  cases hq : (k.rwlocks r).writerWaiters with
  | cons next rest =>
    have hqueue : k.waiters (.write r) = next :: rest := hq
    refine .inl ⟨nofun, ?_⟩
    apply wakes_first hqueue
    · rw [waiters_setRwlock, if_neg nofun, if_pos rfl]
    · intro l hl
      rw [waiters_setRwlock, if_neg hl]
      split
      · rename_i hw
        rw [hw]
        rfl
      · rfl
    · exact fun p => rfl
  | nil =>
    refine .inr ⟨rfl, ?_⟩
    constructor
    case queue =>
      rw [admitReaders_waiters, waiters_setRwlock, if_pos rfl, List.append_nil]
      rfl
    case beside =>
      intro l hl
      rw [admitReaders_waiters, waiters_setRwlock, if_neg hl]
      split
      · rename_i hw
        rw [hw]
        exact hq.symm
      · rfl
    case woken =>
      intro p hp hb
      rw [admitReaders_state, if_pos ⟨hp, hb⟩]
    case others =>
      intro p hp
      rw [admitReaders_state, if_neg fun h => hp h.1]
      rfl

theorem release_wakes (l : Lock) : ∃ l' out, Wakes k l' out (k.release l) := by
  cases l with
  | mutex m => exact ⟨_, _, mutexRelease_wakes m⟩
  | sem i => exact ⟨_, _, semRelease_wakes i⟩
  | read r => exact ⟨_, _, readRelease_wakes r⟩
  | write r =>
    rcases writeRelease_wakes (k := k) r with ⟨_, h⟩ | ⟨_, h⟩
    · exact ⟨_, _, h⟩
    · exact ⟨_, _, h⟩

end Releasing

/-! ## Other locks -/

/-- No lock changes but the one that `l` is about. -/
structure Only (k : Kernel) (l : Lock) (k' : Kernel) : Prop where
  mutexes : ∀ n, l ≠ .mutex n → k'.mutexes n = k.mutexes n
  sems : ∀ n, l ≠ .sem n → k'.sems n = k.sems n
  rwlocks : ∀ n, l ≠ .read n → l ≠ .write n → k'.rwlocks n = k.rwlocks n

theorem Only.refl (k : Kernel) (l : Lock) : Only k l k :=
  ⟨fun _ _ => rfl, fun _ _ => rfl, fun _ _ _ => rfl⟩

theorem Only.of_locks {k k₁ k' : Kernel} {l : Lock} (h : Only k l k₁) (hl : k'.locks = k₁.locks) :
    Only k l k' := by
  simp only [locks, Prod.mk.injEq] at hl
  obtain ⟨hm, hs, hr⟩ := hl
  exact ⟨by rw [hm]; exact h.mutexes, by rw [hs]; exact h.sems, by rw [hr]; exact h.rwlocks⟩

theorem Only.setMutex {k k₁ : Kernel} {m : Nat} (h : Only k (.mutex m) k₁) (v : Mutex) :
    Only k (.mutex m) (k₁.setMutex m v) := by
  refine ⟨fun n hn => ?_, h.sems, h.rwlocks⟩
  rw [← h.mutexes n hn]
  exact Function.update_of_ne (fun he => hn (by rw [he])) _ _

theorem Only.setSem {k k₁ : Kernel} {i : Nat} (h : Only k (.sem i) k₁) (v : Semaphore) :
    Only k (.sem i) (k₁.setSem i v) := by
  refine ⟨h.mutexes, fun n hn => ?_, h.rwlocks⟩
  rw [← h.sems n hn]
  exact Function.update_of_ne (fun he => hn (by rw [he])) _ _

theorem Only.setRwlock {k k₁ : Kernel} {l : Lock} {r : Nat} (hl : l = .read r ∨ l = .write r)
    (h : Only k l k₁) (v : Rwlock) : Only k l (k₁.setRwlock r v) := by
  refine ⟨h.mutexes, h.sems, fun n hr hw => ?_⟩
  rw [← h.rwlocks n hr hw]
  refine Function.update_of_ne (fun he => ?_) _ _
  rcases hl with rfl | rfl
  · exact hr (by rw [he])
  · exact hw (by rw [he])

theorem lazyInit_only (k : Kernel) (l : Lock) : Only k l (k.lazyInit l) := by
  cases l with
  | mutex m =>
    apply ((Only.refl k (.mutex m)).setMutex ⟨false, true, none, []⟩).of_locks
    unfold lazyInit mutexInit
    dsimp only
    split <;> rfl
  | sem i => exact (Only.refl k _).setSem _
  | read r => exact (Only.refl k _).setRwlock (.inl rfl) _
  | write r => exact (Only.refl k _).setRwlock (.inr rfl) _

theorem addReader_only {k k₁ : Kernel} {l : Lock} {r : Nat} (hl : l = .read r ∨ l = .write r)
    (h : Only k l k₁) (p : PcbRef) : Only k l (k₁.addReader r p) :=
  (h.setRwlock hl _).of_locks (modify_locks _ _ _)

theorem admitReaders_only {k k₁ : Kernel} {l : Lock} {r : Nat} (hl : l = .read r ∨ l = .write r)
    (h : Only k l k₁) (ps : List PcbRef) : Only k l (ps.foldl (admitReader r) k₁) := by
  induction ps generalizing k₁ with
  | nil => exact h
  | cons p ps ih => exact ih ((addReader_only hl h p).of_locks (wake_locks _ _))

theorem attempt_only (k : Kernel) (l : Lock) : Only k l (k.attempt l).2 := by
  cases l with
  | mutex m =>
    simp only [attempt, mutexAttempt]
    split
    · exact ((Only.refl k _).setMutex _).of_locks (ownerAdd_locks _ _ _)
    · split
      · exact .refl k _
      · apply ((Only.refl k (.mutex m)).setMutex _).of_locks
        dsimp only
        rw [blockForever_locks, boostOwner_locks, modify_locks]
  | sem i =>
    simp only [attempt, semAttempt]
    split
    · exact (Only.refl k _).setSem _
    · split
      · exact .refl k _
      · exact ((Only.refl k _).setSem _).of_locks (blockForever_locks _)
  | read r =>
    simp only [attempt, readAttempt]
    split
    · exact addReader_only (.inl rfl) (.refl k _) _
    · exact ((Only.refl k _).setRwlock (.inl rfl) _).of_locks (blockForever_locks _)
  | write r =>
    simp only [attempt, writeAttempt]
    split
    · exact (Only.refl k _).setRwlock (.inr rfl) _
    · exact ((Only.refl k _).setRwlock (.inr rfl) _).of_locks (blockForever_locks _)

theorem release_only (k : Kernel) (l : Lock) : Only k l (k.release l) := by
  cases l with
  | mutex m =>
    have hk : Only k (.mutex m) (k.ownerRemove k.current m) := (Only.refl k _).of_locks (modify_locks _ _ _)
    simp only [release, mutexRelease]
    split
    · exact (hk.setMutex _).of_locks (recomputePriority_locks _ _)
    · apply (hk.setMutex _).of_locks
      rw [recomputePriority_locks, wake_locks, ownerAdd_locks, modify_locks]
  | sem i =>
    simp only [release, semRelease]
    split
    · exact (Only.refl k _).setSem _
    · exact ((Only.refl k _).setSem _).of_locks (wake_locks _ _)
  | read r =>
    have hk : Only k (.read r)
        (k.modify k.current fun q => { q with rwReadLocks := q.rwReadLocks - 1#8 }) :=
      (Only.refl k _).of_locks (modify_locks _ _ _)
    simp only [release, readRelease]
    split
    · split
      · exact hk.setRwlock (.inl rfl) _
      · exact (hk.setRwlock (.inl rfl) _).of_locks (wake_locks _ _)
    · exact hk.setRwlock (.inl rfl) _
  | write r =>
    simp only [release, writeRelease]
    split
    · exact ((Only.refl k _).setRwlock (.inr rfl) _).of_locks (wake_locks _ _)
    · exact admitReaders_only (.inr rfl) ((Only.refl k _).setRwlock (.inr rfl) _) _

theorem settle_locks (k : Kernel) (l : Lock) : (k.settle l).locks = k.locks := by
  cases l <;> rfl

end Kernel

end SengOS
