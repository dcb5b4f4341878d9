import Mathlib.Logic.Relation
import SengOS.Kernel.Sections

/-!
# The stores that lock code makes to a PCB

Every section of the three lock modules changes a process through a few kinds of
stores. What all of these keep, every section keeps.
-/

namespace SengOS

namespace Pcb

/-- One store of lock code to a PCB. -/
inductive Store (q : Pcb) : Pcb → Prop
  /-- `scheduler_block_forever`. -/
  | block : Store q { q with wakeTick := 0#32, state := .blocked }
  /-- `scheduler_wake`. -/
  | wake : Store q { q with
      state := .ready
      wakeTick := 0#32
      ticksUsed := 0#8
      quantumTicks := if q.quantumTicks = 0#8 then 4#8 else q.quantumTicks }
  | owned (ms : List Nat) : Store q { q with ownedMutexList := ms }
  | waiting (m : Option Nat) : Store q { q with waitingMutex := m }
  | readLocks (n : Byte) : Store q { q with rwReadLocks := n }
  /-- A more urgent process waits for this one. -/
  | raise (level : Byte) (lower : level < q.priority) : Store q { q with priority := level }
  /-- `recompute_priority` starts from the base priority. -/
  | restore : Store q { q with priority := q.basePriority }

abbrev Stores (q q' : Pcb) : Prop := Relation.ReflTransGen Store q q'

end Pcb

namespace Kernel

/-- Lock code took the table of `k` to that of `k'`. -/
def Stored (k k' : Kernel) : Prop := ∀ p, (k.pcbs p).Stores (k'.pcbs p)

theorem Stored.refl (k : Kernel) : k.Stored k := fun _ => .refl

theorem Stored.trans {k k' k'' : Kernel} (h : k.Stored k') (h' : k'.Stored k'') : k.Stored k'' :=
  fun p => Relation.ReflTransGen.trans (h p) (h' p)

theorem Stored.modify {k : Kernel} {p : PcbRef} {f : Pcb → Pcb}
    (h : (k.pcbs p).Stores (f (k.pcbs p))) : k.Stored (k.modify p f) := by
  intro q
  rw [modify_pcbs]
  split
  · rename_i hq
    rw [hq]
    exact h
  · exact .refl

section
variable (k : Kernel)

theorem setMutex_stored (m : Nat) (v : Mutex) : k.Stored (k.setMutex m v) := fun _ => .refl

theorem setSem_stored (s : Nat) (v : Semaphore) : k.Stored (k.setSem s v) := fun _ => .refl

theorem setRwlock_stored (r : Nat) (v : Rwlock) : k.Stored (k.setRwlock r v) := fun _ => .refl

theorem blockForever_stored : k.Stored k.schedulerBlockForever := by
  unfold schedulerBlockForever
  split
  · exact .refl k
  · exact .modify (.single .block)

theorem wake_stored (p : PcbRef) : k.Stored (k.schedulerWake p) := by
  unfold schedulerWake
  split
  · exact .refl k
  · exact .modify (.single .wake)

theorem ownerAdd_stored (p : PcbRef) (m : Nat) : k.Stored (k.ownerAdd p m) := by
  apply Stored.modify
  split
  · exact .refl
  · exact .single (.owned _)

theorem ownerRemove_stored (p : PcbRef) (m : Nat) : k.Stored (k.ownerRemove p m) :=
  .modify (.single (.owned _))

theorem waitingMutex_stored (p : PcbRef) (m : Option Nat) :
    k.Stored (k.modify p fun q => { q with waitingMutex := m }) :=
  .modify (.single (.waiting m))

theorem raiseTo_stored (p w : PcbRef) : k.Stored (raiseTo p k w) := by
  unfold raiseTo
  split
  · rename_i h
    exact .modify (.single (.raise _ h))
  · exact .refl k

theorem raiseAll_stored (p : PcbRef) (ws : List PcbRef) : k.Stored (ws.foldl (raiseTo p) k) := by
  induction ws generalizing k with
  | nil => exact .refl k
  | cons w ws ih => exact (raiseTo_stored k p w).trans (ih _)

theorem recomputePriority_stored (p : PcbRef) : k.Stored (k.recomputePriority p) :=
  .trans (.modify (.single .restore)) (raiseAll_stored _ p _)

theorem propagatePriority_stored (guard : Nat) (p : PcbRef) :
    k.Stored (k.propagatePriority guard p) := by
  induction guard generalizing k p with
  | zero => exact .refl k
  | succ guard ih =>
    unfold propagatePriority
    split
    · exact .refl k
    · rename_i owner _
      split
      · exact .refl k
      · exact (raiseTo_stored k owner p).trans (ih _ owner)

theorem boostOwner_stored (m : Nat) : k.Stored (k.boostOwner m) := by
  unfold boostOwner
  split
  · exact .refl k
  · split
    · exact (raiseTo_stored k _ _).trans (propagatePriority_stored _ 16 _)
    · exact .refl k

theorem addReader_stored (r : Nat) (p : PcbRef) : k.Stored (k.addReader r p) := by
  unfold addReader
  apply (setRwlock_stored k r _).trans
  exact .modify (.single (.readLocks _))

theorem admitReaders_stored (r : Nat) (ps : List PcbRef) :
    k.Stored (ps.foldl (admitReader r) k) := by
  induction ps generalizing k with
  | nil => exact .refl k
  | cons p ps ih => exact ((addReader_stored k r p).trans (wake_stored _ p)).trans (ih _)

/-! ## Whole sections -/

theorem attempt_stored (l : Lock) : k.Stored (k.attempt l).2 := by
  cases l with
  | mutex m =>
    simp only [attempt, mutexAttempt]
    split
    · exact (setMutex_stored k m _).trans (ownerAdd_stored _ k.current m)
    · split
      · exact .refl k
      · rename_i q _
        have hwait : k.Stored ((k.setMutex m { k.mutexes m with waiters := q }).modify k.current
            fun q => { q with waitingMutex := some m }) :=
          (setMutex_stored k m _).trans (waitingMutex_stored _ k.current (some m))
        exact (hwait.trans (boostOwner_stored _ m)).trans (blockForever_stored _)
  | sem s =>
    simp only [attempt, semAttempt]
    split
    · exact .refl k
    · split
      · exact .refl k
      · exact (setSem_stored k s _).trans (blockForever_stored _)
  | read r =>
    simp only [attempt, readAttempt]
    split
    · exact addReader_stored k r k.current
    · exact (setRwlock_stored k r _).trans (blockForever_stored _)
  | write r =>
    simp only [attempt, writeAttempt]
    split
    · exact .refl k
    · exact (setRwlock_stored k r _).trans (blockForever_stored _)

theorem lazyInit_stored (l : Lock) : k.Stored (k.lazyInit l) := by
  cases l with
  | mutex m =>
    simp only [lazyInit, mutexInit]
    split <;> exact fun _ => .refl
  | sem s | read r | write r => exact fun _ => .refl

theorem settle_stored (l : Lock) : k.Stored (k.settle l) := by
  cases l with
  | mutex m => exact waitingMutex_stored k k.current none
  | sem s | read r | write r => exact .refl k

theorem mutexRelease_stored (m : Nat) : k.Stored (k.mutexRelease m) := by
  unfold mutexRelease
  dsimp only
  have hremove := ownerRemove_stored k k.current m
  split
  · exact (hremove.trans (setMutex_stored _ m _)).trans (recomputePriority_stored _ k.current)
  · rename_i next rest _
    exact ((((hremove.trans (setMutex_stored _ m _)).trans (waitingMutex_stored _ next none)).trans
      (ownerAdd_stored _ next m)).trans (wake_stored _ next)).trans
      (recomputePriority_stored _ k.current)

theorem release_stored (l : Lock) : k.Stored (k.release l) := by
  cases l with
  | mutex m => exact mutexRelease_stored k m
  | sem s =>
    simp only [release, semRelease]
    split
    · exact .refl k
    · exact (setSem_stored k s _).trans (wake_stored _ _)
  | read r =>
    simp only [release, readRelease]
    have hdrop : k.Stored (k.modify k.current fun q => { q with rwReadLocks := q.rwReadLocks - 1#8 }) :=
      .modify (.single (.readLocks _))
    split
    · split
      · exact hdrop.trans (setRwlock_stored _ r _)
      · exact (hdrop.trans (setRwlock_stored _ r _)).trans (wake_stored _ _)
    · exact hdrop.trans (setRwlock_stored _ r _)
  | write r =>
    simp only [release, writeRelease]
    split
    · exact (setRwlock_stored k r _).trans (wake_stored _ _)
    · exact (setRwlock_stored k r _).trans (admitReaders_stored _ r _)

theorem advance_stored (point : Point) : k.Stored (k.advance point).2 := by
  cases point with
  | init l => exact lazyInit_stored k l
  | attempt l =>
    have h := attempt_stored k l
    simp only [advance]
    split <;> rename_i he <;> rw [he] at h <;> exact h
  | check l =>
    simp only [advance]
    split
    · exact settle_stored k l
    · exact .refl k
  | signalInit s => exact lazyInit_stored k (.sem s)
  | release l => exact release_stored k l
  | run | full l | wait l => exact .refl k

end

end Kernel

end SengOS
