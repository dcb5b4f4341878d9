import SengOS.Kernel.SleepQueue
import SengOS.Kernel.Uncontended

/-!
# How long a sleep lasts

In runs in which the arithmetic of every `sleep` goes through and no lock wakes a
process that is in the sleep queue, the queue is in the order of the wake-up times
and none of them has passed. Then a sleeper counts down: it wakes at the tick that
completes its sleep, whoever else sleeps.
-/

namespace SengOS

namespace Kernel

/-! ## Processes that lock code leaves alone -/

/-- The clock is kept, and so are the states and the wake-up times of the processes in `kept`. -/
structure Rests (k k' : Kernel) (kept : PcbRef → Prop) : Prop where
  clock : k'.tickCount = k.tickCount
  state : ∀ p, kept p → (k'.pcbs p).state = (k.pcbs p).state
  wakeTick : ∀ p, kept p → (k'.pcbs p).wakeTick = (k.pcbs p).wakeTick

section
variable (k : Kernel) {kept : PcbRef → Prop}

theorem Rests.refl : k.Rests k kept := ⟨rfl, fun _ _ => rfl, fun _ _ => rfl⟩

theorem Rests.trans {a b c : Kernel} (h : a.Rests b kept) (h' : b.Rests c kept) : a.Rests c kept where
  clock := h'.clock.trans h.clock
  state := fun p hp => (h'.state p hp).trans (h.state p hp)
  wakeTick := fun p hp => (h'.wakeTick p hp).trans (h.wakeTick p hp)

/-- Code that leaves the table alone. -/
theorem Rests.of_pcbs {k k' : Kernel} (hclock : k'.tickCount = k.tickCount) (hpcbs : k'.pcbs = k.pcbs) :
    k.Rests k' kept :=
  ⟨hclock, fun _ _ => by rw [hpcbs], fun _ _ => by rw [hpcbs]⟩

/-- A store to a process outside `kept`, or one that leaves the state and the time alone. -/
theorem modify_rests {k : Kernel} {p : PcbRef} {f : Pcb → Pcb}
    (h : kept p → (f (k.pcbs p)).state = (k.pcbs p).state ∧
      (f (k.pcbs p)).wakeTick = (k.pcbs p).wakeTick) : k.Rests (k.modify p f) kept := by
  constructor
  · rfl
  all_goals
    intro q hq
    rw [modify_pcbs]
    split
    · rename_i hqp
      subst hqp
      simp only [h hq]
    · rfl

theorem setMutex_rests (m : Nat) (v : Mutex) : k.Rests (k.setMutex m v) kept := .of_pcbs rfl rfl

theorem setSem_rests (i : Nat) (v : Semaphore) : k.Rests (k.setSem i v) kept := .of_pcbs rfl rfl

theorem setRwlock_rests (r : Nat) (v : Rwlock) : k.Rests (k.setRwlock r v) kept := .of_pcbs rfl rfl

theorem waitingMutex_rests (p : PcbRef) (m : Option Nat) :
    k.Rests (k.modify p fun q => { q with waitingMutex := m }) kept :=
  modify_rests fun _ => ⟨rfl, rfl⟩

theorem ownerRemove_rests (p : PcbRef) (m : Nat) : k.Rests (k.ownerRemove p m) kept :=
  modify_rests fun _ => ⟨rfl, rfl⟩

theorem ownerAdd_rests (p : PcbRef) (m : Nat) : k.Rests (k.ownerAdd p m) kept := by
  apply modify_rests
  intro _
  split <;> exact ⟨rfl, rfl⟩

theorem raiseTo_rests (p w : PcbRef) : k.Rests (raiseTo p k w) kept := by
  unfold raiseTo
  split
  · exact modify_rests fun _ => ⟨rfl, rfl⟩
  · exact .refl k

theorem raiseAll_rests (p : PcbRef) (ws : List PcbRef) : k.Rests (ws.foldl (raiseTo p) k) kept := by
  induction ws generalizing k with
  | nil => exact .refl k
  | cons w ws ih => exact (raiseTo_rests k p w).trans (ih _)

theorem recomputePriority_rests (p : PcbRef) : k.Rests (k.recomputePriority p) kept := by
  have hbase : k.Rests (k.modify p fun q => { q with priority := q.basePriority }) kept :=
    modify_rests fun _ => ⟨rfl, rfl⟩
  exact hbase.trans (raiseAll_rests _ p _)

theorem propagatePriority_rests (guard : Nat) (p : PcbRef) :
    k.Rests (k.propagatePriority guard p) kept := by
  induction guard generalizing k p with
  | zero => exact .refl k
  | succ guard ih =>
    unfold propagatePriority
    split
    · exact .refl k
    · split
      · exact .refl k
      · exact (raiseTo_rests k _ p).trans (ih _ _)

theorem boostOwner_rests (m : Nat) : k.Rests (k.boostOwner m) kept := by
  unfold boostOwner
  split
  · exact .refl k
  · split
    · exact (raiseTo_rests k _ _).trans (propagatePriority_rests _ _ _)
    · exact .refl k

theorem addReader_rests (r : Nat) (p : PcbRef) : k.Rests (k.addReader r p) kept := by
  unfold addReader
  exact (setRwlock_rests k r _).trans (modify_rests fun _ => ⟨rfl, rfl⟩)

theorem wake_rests {p : PcbRef} (h : ¬ kept p) : k.Rests (k.schedulerWake p) kept := by
  unfold schedulerWake
  split
  · exact .refl k
  · exact modify_rests fun hp => absurd hp h

theorem blockForever_rests (h : ¬ kept k.current) : k.Rests k.schedulerBlockForever kept := by
  unfold schedulerBlockForever
  split
  · exact .refl k
  · exact modify_rests fun hp => absurd hp h

theorem admitReaders_rests (r : Nat) {ps : List PcbRef} (h : ∀ p ∈ ps, ¬ kept p) :
    k.Rests (ps.foldl (admitReader r) k) kept := by
  induction ps generalizing k with
  | nil => exact .refl k
  | cons p ps ih =>
    have hp := h p List.mem_cons_self
    have hps : ∀ q ∈ ps, ¬ kept q := fun q hq => h q (List.mem_cons_of_mem _ hq)
    exact ((addReader_rests k r p).trans (wake_rests _ hp)).trans (ih _ hps)

theorem lazyInit_rests (l : Lock) : k.Rests (k.lazyInit l) kept := by
  cases l with
  | mutex m =>
    refine .of_pcbs ?_ (mutexInit_pcbs k m)
    simp only [lazyInit, mutexInit]
    split <;> rfl
  | sem i | read r | write r => exact .of_pcbs rfl rfl

/-- An acquiring section blocks nobody but its caller. -/
theorem attempt_rests (hs : k.ShellOwnsNone) (l : Lock) (h : ¬ kept k.current) :
    k.Rests (k.attempt l).2 kept := by
  cases l with
  | mutex m =>
    simp only [attempt, mutexAttempt]
    split
    · exact (setMutex_rests k m _).trans (ownerAdd_rests _ k.current m)
    · split
      · exact .refl k
      · rename_i queue _
        have hqueued : k.Rests _ kept := setMutex_rests k m { k.mutexes m with waiters := queue }
        have hwait := hqueued.trans (waitingMutex_rests _ k.current (some m))
        apply (hwait.trans (boostOwner_rests _ m)).trans
        apply blockForever_rests
        rw [(boostOwner_frame _ (hs.queued m queue _ _) m).current]
        exact h
  | sem i =>
    simp only [attempt, semAttempt]
    split
    · exact setSem_rests k i _
    · split
      · exact .refl k
      · exact (setSem_rests k i _).trans (blockForever_rests _ h)
  | read r =>
    simp only [attempt, readAttempt]
    split
    · exact addReader_rests k r k.current
    · exact (setRwlock_rests k r _).trans (blockForever_rests _ h)
  | write r =>
    simp only [attempt, writeAttempt]
    split
    · exact setRwlock_rests k r _
    · exact (setRwlock_rests k r _).trans (blockForever_rests _ h)

/-- The processes that a releasing section wakes. -/
def wokenBy (k : Kernel) : Lock → List PcbRef
  | .mutex m => (k.mutexes m).waiters.take 1
  | .sem i => (k.sems i).waiters.take 1
  | .read r => if k.LastReader r then (k.rwlocks r).writerWaiters.take 1 else []
  | .write r =>
    if (k.rwlocks r).writerWaiters = [] then (k.rwlocks r).readerWaiters
    else (k.rwlocks r).writerWaiters.take 1

theorem release_rests (l : Lock) (h : ∀ p ∈ k.wokenBy l, ¬ kept p) : k.Rests (k.release l) kept := by
  cases l with
  | mutex m =>
    simp only [release, mutexRelease]
    have hremove : k.Rests _ kept := ownerRemove_rests k k.current m
    split
    · exact (hremove.trans (setMutex_rests _ m _)).trans (recomputePriority_rests _ k.current)
    · rename_i next rest hq
      have hnext : ¬ kept next := h next (by simp [wokenBy, hq])
      exact ((((hremove.trans (setMutex_rests _ m _)).trans (waitingMutex_rests _ next none)).trans
        (ownerAdd_rests _ next m)).trans (wake_rests _ hnext)).trans
        (recomputePriority_rests _ k.current)
  | sem i =>
    simp only [release, semRelease]
    split
    · exact setSem_rests k i _
    · rename_i next rest hq
      have hnext : ¬ kept next := h next (by simp [wokenBy, hq])
      exact (setSem_rests k i _).trans (wake_rests _ hnext)
  | read r =>
    simp only [release, readRelease]
    have hdrop : k.Rests (k.modify k.current fun q => { q with rwReadLocks := q.rwReadLocks - 1#8 })
        kept := modify_rests fun _ => ⟨rfl, rfl⟩
    split
    · rename_i hlast
      split
      · exact hdrop.trans (setRwlock_rests _ r _)
      · rename_i next rest hq
        have hlast : k.LastReader r := hlast
        have hq : (k.rwlocks r).writerWaiters = next :: rest := hq
        have hnext : ¬ kept next := h next (by simp [wokenBy, hlast, hq])
        exact (hdrop.trans (setRwlock_rests _ r _)).trans (wake_rests _ hnext)
    · exact hdrop.trans (setRwlock_rests _ r _)
  | write r =>
    simp only [release, writeRelease]
    split
    · rename_i next rest hq
      have hnext : ¬ kept next := h next (by simp [wokenBy, hq])
      exact (setRwlock_rests k r _).trans (wake_rests _ hnext)
    · rename_i hq
      refine (setRwlock_rests k r _).trans (admitReaders_rests _ r fun p hp => h p ?_)
      simpa [wokenBy, hq] using hp

/-- A section leaves everybody alone but its caller and those it wakes. -/
theorem advance_rests (hs : k.ShellOwnsNone) {point : Point} (h : ¬ kept k.current)
    (hwoken : ∀ l, point = .release l → ∀ p ∈ k.wokenBy l, ¬ kept p) :
    k.Rests (k.advance point).2 kept := by
  cases point with
  | run | full l | wait l => exact .refl k
  | init l => exact lazyInit_rests k l
  | attempt l =>
    have hafter := attempt_rests k hs l h
    simp only [advance]
    split <;> rename_i he <;> rw [he] at hafter <;> exact hafter
  | check l =>
    simp only [advance]
    split
    · cases l with
      | mutex m => exact waitingMutex_rests k k.current none
      | sem i | read r | write r => exact .refl k
    · exact .refl k
  | signalInit i => exact lazyInit_rests k (.sem i)
  | release l => exact release_rests k l (hwoken l rfl)

end

/-! ## The order of the queue -/

/-- The queue is in the order of the wake-up times, which are not 0, and the next tick
is past none of them. -/
structure Timely (k : Kernel) : Prop where
  nodup : k.sleepQueue.Nodup
  sorted : ByKey k.wakeTime k.sleepQueue
  blocked : ∀ p ∈ k.sleepQueue, (k.pcbs p).state = .blocked
  timed : ∀ p ∈ k.sleepQueue, 0 < k.wakeTime p
  coming : ∀ p ∈ k.sleepQueue, (k.tickCount + 1#32).toNat ≤ k.wakeTime p

/-- The ticks that `sleep` is asked for: `ms / 10`, rounded up. -/
def sleepTicks (ms : Word) : Nat := (ms.toNat + 9) / 10

/-- The 32-bit sums of `sleep` do not wrap around: the rounding does not, and the wake-up
time, counted from the next tick, is neither past the last value of the clock nor 0. -/
def Fits (k : Kernel) (ms : Word) : Prop :=
  ms.toNat + 9 < 2 ^ 32 ∧ 0 < (k.tickCount + 1#32).toNat + (sleepTicks ms - 1) ∧
    (k.tickCount + 1#32).toNat + (sleepTicks ms - 1) < 2 ^ 32

instance (k : Kernel) (ms : Word) : Decidable (k.Fits ms) := inferInstanceAs (Decidable (_ ∧ _))

section
variable {k k' : Kernel}

/-- A step that leaves the queue, the clock and the sleepers alone. -/
theorem Timely.of_rests (h : k.Timely) (hq : k'.sleepQueue = k.sleepQueue)
    (hr : k.Rests k' (· ∈ k.sleepQueue)) : k'.Timely := by
  have same : ∀ p ∈ k.sleepQueue, k'.wakeTime p = k.wakeTime p := fun p hp =>
    congrArg BitVec.toNat (hr.wakeTick p hp)
  constructor
  · rw [hq]
    exact h.nodup
  · rw [hq]
    exact h.sorted.congr same
  · intro p hp
    rw [hq] at hp
    rw [hr.state p hp]
    exact h.blocked p hp
  · intro p hp
    rw [hq] at hp
    rw [same p hp]
    exact h.timed p hp
  · intro p hp
    rw [hq] at hp
    rw [hr.clock, same p hp]
    exact h.coming p hp

theorem Timely.not_current (h : k.Timely) (hc : k.cur.state ≠ .blocked) :
    k.current ∉ k.sleepQueue := fun hin => hc (h.blocked _ hin)

/-! ## Going to sleep -/

theorem ticks_toNat {ms : Word} (h : ms.toNat + 9 < 2 ^ 32) :
    ((ms + 9#32) / 10#32).toNat = sleepTicks ms := by
  have hadd : (ms + 9#32).toNat = ms.toNat + 9 := by
    rw [BitVec.toNat_add]
    exact Nat.mod_eq_of_lt h
  rw [BitVec.toNat_udiv, hadd]
  rfl

theorem sleepTicks_pos {ms : Word} (h : ms ≠ 0#32) : 0 < sleepTicks ms := by
  have hms : ms.toNat ≠ 0 := fun he => h (BitVec.eq_of_toNat_eq he)
  unfold sleepTicks
  omega

/-- The wake-up time of a sleep that fits is so many ticks behind the next one. -/
theorem Fits.wakeTick_toNat {ms : Word} (h : k.Fits ms) (hms : ms ≠ 0#32) :
    (k.tickCount + (ms + 9#32) / 10#32).toNat =
      (k.tickCount + 1#32).toNat + (sleepTicks ms - 1) := by
  obtain ⟨hround, -, hlast⟩ := h
  have hpos := sleepTicks_pos hms
  rw [BitVec.toNat_add, ticks_toNat hround]
  rw [BitVec.toNat_add] at hlast ⊢
  have hone : (1#32).toNat = 1 := rfl
  rw [hone] at hlast ⊢
  omega

theorem Timely.sleep (h : k.Timely) (hc : k.cur.state ≠ .blocked) {ms : Word}
    (hp : k.cur.pid ≠ 0#32) (hms : ms ≠ 0#32) (hfits : k.Fits ms) :
    (k.sleep ms).Timely ∧ k.current ∈ (k.sleep ms).sleepQueue ∧
      (k.sleep ms).tickCount = k.tickCount ∧
      (k.sleep ms).wakeTime k.current = (k.tickCount + 1#32).toNat + (sleepTicks ms - 1) ∧
      ∀ p ∈ k.sleepQueue, p ∈ (k.sleep ms).sleepQueue ∧ (k.sleep ms).wakeTime p = k.wakeTime p := by
  have hnew := h.not_current hc
  have hgo : ¬ (k.cur.pid = 0#32 ∨ (ms + 9#32) / 10#32 = 0#32) := by
    rintro (hz | hz)
    · exact hp hz
    · have hpos := sleepTicks_pos hms
      rw [← ticks_toNat hfits.1, hz] at hpos
      exact Nat.lt_irrefl 0 hpos
  have hslept := sleep_slept h.nodup hnew hgo
  have hself : (k.sleep ms).wakeTime k.current =
      (k.tickCount + 1#32).toNat + (sleepTicks ms - 1) := by
    rw [hslept.wakeTime_self]
    exact hfits.wakeTick_toNat hms
  have hold := hslept.wakeTime_old hnew
  refine ⟨?_, (hslept.mem_iff _).mpr (.inl rfl), hslept.clock, hself, fun p hin =>
    ⟨(hslept.mem_iff p).mpr (.inr hin), hold p hin⟩⟩
  constructor
  · exact hslept.nodup h.nodup hnew
  · exact hslept.sorted hnew h.sorted
  · intro p hin
    rcases (hslept.mem_iff p).mp hin with rfl | hin
    · rw [hslept.self]
    · rw [hslept.others p fun he => hnew (he ▸ hin)]
      exact h.blocked p hin
  · intro p hin
    rcases (hslept.mem_iff p).mp hin with rfl | hin
    · rw [hself]
      exact hfits.2.1
    · rw [hold p hin]
      exact h.timed p hin
  · intro p hin
    rw [hslept.clock]
    rcases (hslept.mem_iff p).mp hin with rfl | hin
    · rw [hself]
      exact Nat.le_add_right _ _
    · rw [hold p hin]
      exact h.coming p hin

/-! ## Waking up -/

/-- A dispatch wakes those sleepers whose time is the tick that it counts. -/
theorem Timely.woken_iff (h : k.Timely) {countTick : Bool} {woken rest : List PcbRef}
    (hw : k.Woken countTick woken rest) (p : PcbRef) (hp : p ∈ k.sleepQueue) :
    p ∈ woken ↔ countTick = true ∧ k.wakeTime p = (k.tickCount + 1#32).toNat := by
  have hsplit := hw.queue
  cases countTick with
  | false => simp [hw.uncounted rfl]
  | true =>
    constructor
    · intro hin
      have hdue : k.wakeTime p ≤ (k.tickCount + 1#32).toNat := hw.due h.nodup p hin
      exact ⟨rfl, Nat.le_antisymm hdue (h.coming p hp)⟩
    · rintro ⟨-, hnow⟩
      by_contra hout
      have hrest : p ∈ rest := (List.mem_append.mp (hsplit ▸ hp)).resolve_left hout
      have hsorted : ByKey k.wakeTime (woken ++ rest) := hsplit ▸ h.sorted
      have hafter : ByKey k.wakeTime rest := hsorted.sublist (List.sublist_append_right _ _)
      have first : ∀ q ∈ rest.head?, (k.tickCount + 1#32).toNat < k.wakeTime q := by
        intro q hq
        have hin : q ∈ k.sleepQueue := by
          rw [hsplit]
          exact List.mem_append_right _ (List.mem_of_mem_head? hq)
        rcases hw.later h.nodup rfl q hq with hz | hlt
        · have htimed := h.timed q hin
          rw [wakeTime, hz] at htimed
          exact absurd htimed (Nat.lt_irrefl 0)
        · exact hlt
      have hlater := hafter.not_due first p hrest
      omega

/-- What a step does to the sleepers: those whose time is the tick that it counts wake,
and the others stay, if it spares them. -/
structure Rouses (k : Kernel) (countTick : Bool) (spared : PcbRef → Prop) (k' : Kernel) : Prop where
  timely : k'.Timely
  clock : k'.tickCount = k.clock countTick
  now : ∀ p ∈ k.sleepQueue, countTick = true → k.wakeTime p = (k.tickCount + 1#32).toNat →
    (k'.pcbs p).state ≠ .blocked
  later : ∀ p ∈ k.sleepQueue, spared p →
    (countTick = true → k.wakeTime p ≠ (k.tickCount + 1#32).toNat) →
      p ∈ k'.sleepQueue ∧ k'.wakeTime p = k.wakeTime p

theorem Timely.dispatch (h : k.Timely) (hs : k.ShellReady) {contextEsp : Word}
    (hctx : contextEsp ≠ 0#32) (countTick : Bool) {spared : PcbRef → Prop} :
    k.Rouses countTick spared (k.dispatch contextEsp countTick).2 := by
  obtain ⟨woken, rest, next, hw, hnext, -, hd⟩ := dispatch_switched hs hctx countTick
  have hsplit := hw.queue
  have hnodup : (woken ++ rest).Nodup := hsplit ▸ h.nodup
  have hrest {p : PcbRef} (hp : p ∈ rest) : p ∈ k.sleepQueue ∧ p ∉ woken := by
    refine ⟨hsplit ▸ List.mem_append_right _ hp, fun hw => ?_⟩
    exact List.disjoint_of_nodup_append hnodup hw hp
  have hstays {p : PcbRef} (hp : p ∈ k.sleepQueue) (hout : p ∉ woken) : p ∈ rest :=
    (List.mem_append.mp (hsplit ▸ hp)).resolve_left hout
  have same : ∀ p ∈ rest, (k.switched contextEsp countTick woken next p).wakeTick.toNat =
      k.wakeTime p := fun p hp => congrArg BitVec.toNat (switched_wakeTick (hrest hp).2)
  rw [hd]
  constructor
  · constructor
    · exact hnodup.of_append_right
    · have hsorted : ByKey k.wakeTime (woken ++ rest) := hsplit ▸ h.sorted
      exact ByKey.congr (hsorted.sublist (List.sublist_append_right _ _)) same
    · intro p hp
      exact (switched_blocked hnext).mpr ⟨h.blocked p (hrest hp).1, (hrest hp).2⟩
    · intro p hp
      exact Nat.lt_of_lt_of_eq (h.timed p (hrest hp).1) (same p hp).symm
    · intro p hp
      refine Nat.le_trans ?_ (same p hp).symm.le
      have hcoming := h.coming p (hrest hp).1
      have hnot := (not_congr (h.woken_iff hw p (hrest hp).1)).mp (hrest hp).2
      cases countTick with
      | false => exact hcoming
      | true =>
        have hlt : (k.tickCount + 1#32).toNat < k.wakeTime p :=
          lt_of_le_of_ne hcoming fun he => hnot ⟨rfl, he.symm⟩
        change (k.tickCount + 1#32 + 1#32).toNat ≤ k.wakeTime p
        rw [BitVec.toNat_add]
        exact (Nat.mod_le _ _).trans hlt
  · rfl
  · rintro p hp hcount hnow hb
    exact ((switched_blocked hnext).mp hb).2 ((h.woken_iff hw p hp).mpr ⟨hcount, hnow⟩)
  · intro p hp _ hlater
    have hout : p ∉ woken := fun hin =>
      let ⟨hcount, hnow⟩ := (h.woken_iff hw p hp).mp hin
      hlater hcount hnow
    exact ⟨hstays hp hout, same p (hstays hp hout)⟩

/-- A step that is no tick and leaves the queue and the sleepers alone. -/
theorem Timely.undisturbed (h : k.Timely) {spared : PcbRef → Prop}
    (hq : k'.sleepQueue = k.sleepQueue) (hr : k.Rests k' (· ∈ k.sleepQueue)) :
    k.Rouses false spared k' where
  timely := h.of_rests hq hr
  clock := hr.clock
  now := nofun
  later := fun p hp _ _ => ⟨by rw [hq]; exact hp, congrArg BitVec.toNat (hr.wakeTick p hp)⟩

theorem Timely.unchanged (h : k.Timely) {spared : PcbRef → Prop} : k.Rouses false spared k :=
  h.undisturbed rfl (.refl k)

/-- A new process takes the slot of an ended one, which is not in the queue. -/
theorem Timely.born (h : k.Timely) {spared : PcbRef → Prop} {p : PcbRef}
    (hp : (k.pcbs p).state = .terminated)
    (hothers : ∀ q, q ≠ p → (k'.pcbs q).state = (k.pcbs q).state ∧
      (k'.pcbs q).wakeTick = (k.pcbs q).wakeTick)
    (hq : k'.sleepQueue = k.sleepQueue) (ht : k'.tickCount = k.tickCount) :
    k.Rouses false spared k' := by
  have hne : ∀ q ∈ k.sleepQueue, q ≠ p := by
    rintro q hin rfl
    have hb := h.blocked q hin
    rw [hp] at hb
    cases hb
  apply h.undisturbed hq
  exact ⟨ht, fun q hin => (hothers q (hne q hin)).1, fun q hin => (hothers q (hne q hin)).2⟩

theorem Timely.fork (h : k.Timely) {spared : PcbRef → Prop} (contextEsp : Word) :
    k.Rouses false spared (k.schedulerFork contextEsp).2 := by
  have ht := schedulerFork_tickCount k contextEsp
  cases hc : k.forkTarget with
  | none =>
    have hf := schedulerFork_refused hc contextEsp
    apply h.undisturbed hf.sleepQueue
    refine ⟨ht, fun p _ => ?_, fun p _ => ?_⟩
    all_goals rcases hf.pcbs p with hq | ⟨_, _, hq⟩ <;> rw [hq]
  | some child =>
    have hf := schedulerFork_spec hc contextEsp
    have hslot := freeSlot_some (forkTarget_some hc).2.2
    refine h.born hslot.2.1 (fun q hq => ?_) hf.sleepQueue ht
    rw [hf.others q hq]
    exact ⟨rfl, rfl⟩

/-- A process ends and leaves the queue. -/
theorem Timely.ended (h : k.Timely) {p : PcbRef} (he : Ended k p k')
    (hq : k'.sleepQueue = k.sleepQueue.erase p) (ht : k'.tickCount = k.tickCount) :
    k.Rouses false (fun q => q ≠ p) k' := by
  have left {q : PcbRef} (hin : q ∈ k'.sleepQueue) : q ≠ p ∧ q ∈ k.sleepQueue := by
    rw [hq] at hin
    exact (List.Nodup.mem_erase_iff h.nodup).mp hin
  have same {q : PcbRef} (hne : q ≠ p) : k'.wakeTime q = k.wakeTime q := by
    rw [wakeTime, he.others q hne, wakeTime]
  constructor
  · constructor
    · rw [hq]
      exact h.nodup.erase p
    · rw [hq]
      exact (h.sorted.erase p).congr fun q hin => same (left (hq ▸ hin)).1
    · intro q hin
      rw [he.others q (left hin).1]
      exact h.blocked q (left hin).2
    · intro q hin
      rw [same (left hin).1]
      exact h.timed q (left hin).2
    · intro q hin
      rw [ht, same (left hin).1]
      exact h.coming q (left hin).2
  · exact ht
  · exact fun _ _ h => Bool.noConfusion h
  · intro q hin hne _
    rw [hq]
    exact ⟨(List.mem_erase_of_ne hne).mpr hin, same hne⟩

/-- A step before a dispatch that counts no tick. -/
theorem Rouses.dispatched {spared : PcbRef → Prop} (h : k.Rouses false spared k')
    (hs : k'.ShellReady) {contextEsp : Word} (hctx : contextEsp ≠ 0#32) :
    k.Rouses false spared (k'.dispatch contextEsp false).2 := by
  have hd : k'.Rouses false (fun _ => True) _ := h.timely.dispatch hs hctx false
  refine ⟨hd.timely, hd.clock.trans h.clock, nofun, fun p hp hspared _ => ?_⟩
  obtain ⟨hin, hsame⟩ := h.later p hp hspared nofun
  obtain ⟨hin', hsame'⟩ := hd.later p hin trivial nofun
  exact ⟨hin', hsame'.trans hsame⟩

end

end Kernel

namespace OsState

/-! ## Runs -/

/-- The action is a timer tick that `scheduler_tick` counts. -/
def countsTick (s : OsState) : PrioAction → Bool
  | .os (.tick _) => s.kernel.timerStarted
  | _ => false

/-- Every sleep fits, and no lock wakes a process that is in the sleep queue. -/
def Undisturbed (s : OsState) : PrioAction → Prop
  | .os (.sleep ms) => s.kernel.cur.pid = 0#32 ∨ ms = 0#32 ∨ s.kernel.Fits ms
  | .os (.wake (some p)) => p ∉ s.kernel.sleepQueue
  | .os .proceed => ∀ l, s.here = .release l → ∀ p ∈ s.kernel.sleepQueue, p ∉ s.kernel.wokenBy l
  | _ => True

/-- The action neither kills process `p` nor wakes it through a lock. -/
def SparesSleeper (s : OsState) (p : PcbRef) : PrioAction → Prop
  | .os (.kill _ pid) => pid = 0#32 ∨ s.kernel.processGet pid ≠ some p
  | .os (.wake q) => q ≠ some p
  | .os .proceed => ∀ l, s.here = .release l → p ∉ s.kernel.wokenBy l
  | _ => True

section
variable {s : OsState}

theorem kill_rouses (h : s.kernel.Timely) (hs : s.ShellInv) {contextEsp pid : Word}
    (hctx : contextEsp ≠ 0#32) :
    s.kernel.Rouses false (fun p => s.SparesSleeper p (.os (.kill contextEsp pid)))
      (s.next (.kill contextEsp pid)).kernel := by
  simp only [next]
  rcases Kernel.schedulerKill_cases s.kernel contextEsp pid with ⟨_, hk⟩ | ⟨p, hp, hz, hcase⟩
  · rw [hk]
    exact h.undisturbed rfl (.of_pcbs rfl rfl)
  · obtain ⟨hends, hq⟩ := Kernel.killTarget_spec s.kernel p
    have hended := h.ended (hends.setEax contextEsp 0#32) hq rfl
    have hkilled : s.kernel.Rouses false (fun p => s.SparesSleeper p (.os (.kill contextEsp pid)))
        ((s.kernel.killTarget p).setEax contextEsp 0#32) := by
      refine ⟨hended.timely, hended.clock, fun _ _ h => Bool.noConfusion h, fun q hin hspares hlater => ?_⟩
      refine hended.later q hin ?_ hlater
      rintro rfl
      exact hspares.elim hz fun hne => hne hp
    rcases hcase with ⟨_, hk⟩ | ⟨_, hk⟩ <;> rw [hk]
    · exact hkilled
    · exact hkilled.dispatched (hs.killed hp hz contextEsp).ready hctx

theorem creating_rouses (h : s.kernel.Timely) {spared : PcbRef → Prop} {entry : Word}
    {created : Option PcbRef × Kernel}
    (hnone : s.kernel.createTarget entry = none → created.2 = s.kernel)
    (hsome : ∀ p, s.kernel.createTarget entry = some p → Kernel.Created s.kernel p created.2)
    (ht : created.2.tickCount = s.kernel.tickCount) :
    s.kernel.Rouses false spared (s.creating entry created).kernel := by
  rw [creating_kernel]
  cases hp : s.kernel.createTarget entry with
  | none =>
    rw [hnone hp]
    exact h.unchanged
  | some p =>
    have hc := hsome p hp
    have hslot := Kernel.freeSlot_some (Kernel.createTarget_some hp).2
    refine h.born hslot.2.1 (fun q hq => ?_) hc.sleepQueue ht
    rw [hc.others q hq]
    exact ⟨rfl, rfl⟩

theorem sleep_rouses (h : s.kernel.Timely) {ms : Word} {spared : PcbRef → Prop}
    (hawake : s.kernel.cur.state ≠ .blocked) (hrun : s.Undisturbed (.os (.sleep ms))) :
    s.kernel.Rouses false spared (s.kernel.sleep ms) := by
  by_cases hp : s.kernel.cur.pid = 0#32
  · rw [Kernel.sleep_eq, if_pos (.inl hp)]
    exact h.unchanged
  · by_cases hms : ms = 0#32
    · rw [Kernel.sleep_eq, if_pos (.inr (by rw [hms]; rfl))]
      exact h.unchanged
    · have hfits := (hrun.resolve_left hp).resolve_left hms
      obtain ⟨htimely, _, hclock, _, hold⟩ := h.sleep hawake hp hms hfits
      exact ⟨htimely, hclock, nofun, fun p hin _ _ => hold p hin⟩

/-- The steps of the system. -/
theorem next_rouses (h : s.kernel.Timely) (hs : s.ShellInv) {a : Action}
    (he : lateMachine.enabled s a) (hrun : s.Undisturbed (.os a)) :
    s.kernel.Rouses (s.countsTick (.os a)) (fun p => s.SparesSleeper p (.os a)) (s.next a).kernel := by
  have awake (hr : s.kernel.cur.state = .running) : ¬ s.kernel.current ∈ s.kernel.sleepQueue :=
    h.not_current (by rw [hr]; decide)
  cases a with
  | start => exact h.undisturbed rfl (.of_pcbs rfl rfl)
  | acquire l | unlock l => exact h.unchanged
  | create entry name =>
    refine creating_rouses h (fun hn => ?_) (fun p hp => (Kernel.processCreateNamed_spec hp name).1)
      (Kernel.processCreateNamed_tickCount _ _ _)
    rw [Kernel.processCreateNamed_none hn]
  | threadCreate entry arg name =>
    refine creating_rouses h (fun hn => ?_)
      (fun p hp => (Kernel.threadCreateNamed_spec hp arg name).1)
      (Kernel.threadCreateNamed_tickCount _ _ _ _)
    rw [Kernel.threadCreateNamed_none hn]
  | fork contextEsp =>
    rw [next_fork_kernel]
    exact h.fork contextEsp
  | tick contextEsp =>
    have hctx : contextEsp ≠ 0#32 := he.resolve_right fun hl => hl.2.2
    simp only [next, countsTick, Kernel.schedulerTick]
    cases s.kernel.timerStarted with
    | false => exact h.unchanged
    | true => exact h.dispatch hs.ready hctx true
  | yield contextEsp => exact h.dispatch hs.ready (he.resolve_right fun hl => hl.2.2).1 false
  | sleep ms => exact sleep_rouses h (enabled_not_blocked he (.inr ⟨ms, rfl⟩)) hrun
  | blockForever =>
    have he := he.resolve_right fun hl => hl.2.2
    have hframe := Kernel.blockForever_frame s.kernel (by rw [he.1]; decide)
    exact h.undisturbed hframe.sleepQueue (Kernel.blockForever_rests _ (awake he.1))
  | wake p =>
    cases p with
    | none => exact h.unchanged
    | some p => exact h.undisturbed (Kernel.wake_frame _ p).sleepQueue (Kernel.wake_rests _ hrun)
  | kill contextEsp pid =>
    apply kill_rouses h hs
    rcases he with he | hl
    · exact he.1
    · exact hl.2.2
  | exit =>
    by_cases hp : s.kernel.cur.pid = 0#32
    · simp only [next, Kernel.processExit, if_pos hp]
      exact h.unchanged
    · have hout := h.not_current (enabled_not_blocked he (.inl rfl))
      obtain ⟨hends, hq⟩ := Kernel.processExit_spec s.kernel hp
      have hclock : s.kernel.processExit.tickCount = s.kernel.tickCount := by
        rw [Kernel.processExit, if_neg hp]
        rfl
      have hothers : ∀ q ∈ s.kernel.sleepQueue, s.kernel.processExit.pcbs q = s.kernel.pcbs q :=
        fun q hin => hends.others q fun he => hout (he ▸ hin)
      refine h.undisturbed hq ⟨hclock, fun q hin => ?_, fun q hin => ?_⟩
      all_goals exact congrArg _ (hothers q hin)
  | mutexInit m =>
    exact h.undisturbed (Kernel.lazyInit_frame _ (.mutex m)).sleepQueue
      (Kernel.lazyInit_rests _ (.mutex m))
  | semInit i c | rwlockInit r => exact h.undisturbed rfl (.of_pcbs rfl rfl)
  | proceed =>
    have he := he.resolve_right fun hl => hl.2.2
    apply h.undisturbed (hs.advance_frame he.1).sleepQueue
    exact Kernel.advance_rests _ hs.ownsNone (awake he.1) fun l hl p hp hin => hrun l hl p hin hp

theorem step_rouses (h : s.kernel.Timely) (hs : s.ShellInv) {a : PrioAction}
    (he : wholeMachine.enabled s a) (hrun : s.Undisturbed a) :
    s.kernel.Rouses (s.countsTick a) (fun p => s.SparesSleeper p a) (wholeMachine.next s a).kernel := by
  cases a with
  | os a => exact next_rouses h hs he hrun
  | setPriority p level =>
    have hset : s.kernel.Rests (s.setPriority p level).kernel (· ∈ s.kernel.sleepQueue) := by
      rw [setPriority_eq]
      exact Kernel.modify_rests fun _ => ⟨rfl, rfl⟩
    exact h.undisturbed rfl hset

/-! ## Counting the ticks -/

/-- The ticks counted since a call. -/
def countTicks (s : OsState) (a : PrioAction) (n : Nat) : Nat :=
  if s.countsTick a then n + 1 else n

def countMachine : Machine (OsState × Nat) PrioAction := wholeMachine.watched countTicks

/-- Process `p` has slept for `n` of `ticks` ticks. -/
structure Sleeps (p : PcbRef) (ticks : Nat) (s : OsState) (n : Nat) : Prop where
  queued : p ∈ s.kernel.sleepQueue
  left : (s.kernel.tickCount + 1#32).toNat + (ticks - 1 - n) = s.kernel.wakeTime p

/-- The next tick is not the last one, unless it is the one that completes the sleep. -/
theorem Sleeps.step {p : PcbRef} {ticks n : Nat} {a : PrioAction} {s' : OsState}
    (h : s.Sleeps p ticks n) (hn : s.countTicks a n < ticks) (hspares : s.SparesSleeper p a)
    (hr : s.kernel.Rouses (s.countsTick a) (fun p => s.SparesSleeper p a) s'.kernel) :
    s'.Sleeps p ticks (s.countTicks a n) := by
  have hbound : s.kernel.wakeTime p < 2 ^ 32 := (s.kernel.pcbs p).wakeTick.isLt
  have hleft := h.left
  unfold countTicks at hn ⊢
  cases hc : s.countsTick a with
  | false =>
    rw [hc] at hr
    obtain ⟨hin, hsame⟩ := hr.later p h.queued hspares nofun
    refine ⟨hin, ?_⟩
    rw [hsame, hr.clock]
    exact hleft
  | true =>
    rw [hc, if_pos rfl] at hn
    rw [hc] at hr
    have hlater : s.kernel.wakeTime p ≠ (s.kernel.tickCount + 1#32).toNat := by omega
    obtain ⟨hin, hsame⟩ := hr.later p h.queued hspares fun _ => hlater
    refine ⟨hin, ?_⟩
    rw [hsame, hr.clock]
    change (s.kernel.tickCount + 1#32 + 1#32).toNat + (ticks - 1 - (n + 1)) = s.kernel.wakeTime p
    have hnext : (s.kernel.tickCount + 1#32 + 1#32).toNat = (s.kernel.tickCount + 1#32).toNat + 1 := by
      rw [BitVec.toNat_add]
      exact Nat.mod_eq_of_lt (show (s.kernel.tickCount + 1#32).toNat + 1 < 2 ^ 32 by omega)
    omega

/-- In the runs behind the call `sleep(ms)` whose steps meet `P` and neither kill the caller
nor wake it through a lock, it is BLOCKED as long as fewer ticks were counted than it asked
for, and the tick that completes them takes it out of BLOCKED. -/
def SleepsFor (P : OsState → PrioAction → Prop) (s : OsState) (ms : Word) : Prop :=
  ∀ t n, countMachine.Reach (fun x a => P x.1 a ∧ x.1.SparesSleeper s.kernel.current a)
      (s.next (.sleep ms), 0) (t, n) →
    (n < Kernel.sleepTicks ms → (t.kernel.pcbs s.kernel.current).state = .blocked) ∧
    (n + 1 = Kernel.sleepTicks ms → t.kernel.timerStarted = true →
      ∀ contextEsp, contextEsp ≠ 0#32 →
        ((t.next (.tick contextEsp)).kernel.pcbs s.kernel.current).state ≠ .blocked)

/-- What holds in every state of a run behind the call. -/
structure Counted (p : PcbRef) (ticks : Nat) (x : OsState × Nat) : Prop where
  shell : x.1.ShellInv
  timely : x.1.kernel.Timely
  sleeps : x.2 < ticks → x.1.Sleeps p ticks x.2

theorem Counted.step {p : PcbRef} {ticks : Nat} {x : OsState × Nat} (h : Counted p ticks x)
    {a : PrioAction} (he : countMachine.enabled x a) (hrun : x.1.Undisturbed a)
    (hspares : x.1.SparesSleeper p a) : Counted p ticks (countMachine.next x a) := by
  have hr := step_rouses h.timely h.shell he hrun
  refine ⟨wholeStep_shell h.shell he, hr.timely, fun hn => ?_⟩
  have hbefore : x.2 < ticks := by
    change x.1.countTicks a x.2 < ticks at hn
    unfold countTicks at hn
    split at hn <;> omega
  exact (h.sleeps hbefore).step hn hspares hr

theorem reached_timely {b : Boot} (h : wholeMachine.Reach Undisturbed (boot b) s) :
    s.ShellInv ∧ s.kernel.Timely := by
  refine h.invariant (I := fun s => s.ShellInv ∧ s.kernel.Timely) ⟨boot_shell b, ?_⟩
    fun s a hi he hrun => ⟨wholeStep_shell hi.1 he, (step_rouses hi.2 hi.1 he hrun).timely⟩
  exact ⟨List.nodup_nil, .nil, nofun, nofun, nofun⟩

/-- **A sleep lasts as long as asked**, in every run in which every sleep fits and no lock
wakes a process that is in the sleep queue. -/
theorem sleep_lasts {b : Boot} (h : wholeMachine.Reach Undisturbed (boot b) s) (hi : s.Idle)
    (hp : s.kernel.cur.pid ≠ 0#32) {ms : Word} (hms : ms ≠ 0#32)
    (hrun : s.Undisturbed (.os (.sleep ms))) : s.SleepsFor Undisturbed ms := by
  intro t n hreach
  obtain ⟨hs, htimely⟩ := reached_timely h
  have hfits : s.kernel.Fits ms := (hrun.resolve_left hp).resolve_left hms
  have hawake : s.kernel.cur.state ≠ .blocked := by
    rw [hi.1]
    decide
  obtain ⟨htimely', hin, hclock, hwake, _⟩ := htimely.sleep hawake hp hms hfits
  have hstart : Counted s.kernel.current (Kernel.sleepTicks ms) (s.next (.sleep ms), 0) := by
    refine ⟨step_shell hs (.sleep ms) hi, htimely', fun _ => ⟨hin, ?_⟩⟩
    change ((s.kernel.sleep ms).tickCount + 1#32).toNat + _ = (s.kernel.sleep ms).wakeTime _
    rw [hclock, hwake]
    rfl
  have hcounted : Counted s.kernel.current (Kernel.sleepTicks ms) (t, n) :=
    hreach.invariant hstart fun x a hx he hstep => hx.step he hstep.1 hstep.2
  constructor
  · intro hn
    exact hcounted.timely.blocked _ (hcounted.sleeps hn).queued
  · intro hn hstarted contextEsp hctx
    have hsleeps := hcounted.sleeps (show n < Kernel.sleepTicks ms by omega)
    have hr : t.kernel.Rouses true (fun _ => True) _ :=
      hcounted.timely.dispatch hcounted.shell.ready hctx true
    have hnow : t.kernel.wakeTime s.kernel.current = (t.kernel.tickCount + 1#32).toNat := by
      have hleft : (t.kernel.tickCount + 1#32).toNat + (Kernel.sleepTicks ms - 1 - n) =
          t.kernel.wakeTime s.kernel.current := hsleeps.left
      omega
    simp only [next, Kernel.schedulerTick, hstarted, Bool.not_true, Bool.false_eq_true, if_false]
    exact hr.now _ hsleeps.queued rfl hnow

end

/-- Process 1 is on the CPU. -/
def firstRun : List PrioAction := [.os (.create 0x11000#32 none), .os .start, .os (.yield 0x90000#32)]

def firstProcess : OsState := wholeMachine.after (boot smallBoot) firstRun

def quietStep : PrioAction → Bool
  | .os (.create _ _) | .os .start | .os (.yield _) => true
  | _ => false

theorem quietStep_undisturbed {s : OsState} {a : PrioAction} (h : quietStep a = true) :
    s.Undisturbed a := by
  cases a with
  | os a =>
    cases a with
    | create entry name | start | yield contextEsp => trivial
    | _ => cases h
  | setPriority p level => cases h

/-- Its sleep of 15 ms takes two ticks. -/
theorem firstProcess_sleeps : firstProcess.SleepsFor Undisturbed 15#32 := by
  have hrun : wholeMachine.Accepts (fun _ a => quietStep a = true) (boot smallBoot) firstRun ∧
      firstProcess.Idle ∧ firstProcess.kernel.cur.pid ≠ 0#32 ∧ firstProcess.kernel.Fits 15#32 := by
    decide +kernel
  obtain ⟨haccepts, hi, hp, hfits⟩ := hrun
  have hreach : wholeMachine.Reach Undisturbed (boot smallBoot) firstProcess :=
    .mono (fun _ _ => quietStep_undisturbed) (.accepts .start haccepts)
  exact sleep_lasts hreach hi hp (by decide) (.inr (.inr hfits))

/-- A sleep for the longest time returns at once: the rounding wraps around to 0 ticks. -/
theorem longest_sleep_returns : ¬ ∀ s, WholeReached s → s.Idle → s.kernel.cur.pid ≠ 0#32 →
    ∀ ms, ms ≠ 0#32 → s.SleepsFor AnyPrio ms := by
  intro h
  have hrun : wholeMachine.Accepts AnyPrio (boot smallBoot) firstRun ∧
      firstProcess.Idle ∧ firstProcess.kernel.cur.pid ≠ 0#32 ∧ firstProcess.kernel.current = 1 ∧
      ((firstProcess.next (.sleep 0xFFFFFFFF#32)).kernel.pcbs 1).state = .running := by
    decide +kernel
  obtain ⟨haccepts, hi, hp, hcur, hrunning⟩ := hrun
  have hreach : wholeMachine.Reach AnyPrio (boot smallBoot) firstProcess := .accepts .start haccepts
  have hsleeps := h firstProcess ⟨smallBoot, hreach⟩ hi hp 0xFFFFFFFF#32 (by decide) _ 0 .start
  have hblocked := hsleeps.1 (by decide)
  rw [hcur, hrunning] at hblocked
  cases hblocked

end OsState

end SengOS
