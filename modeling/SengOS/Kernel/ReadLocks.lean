import SengOS.Kernel.Lifecycle
import SengOS.Kernel.RwProtocol
import SengOS.Kernel.SlotReuse

/-!
# The counter of read locks

`rw_read_locks` is one byte in the PCB for all reader-writer locks together.
Only the sections of the read calls and the unlock of a writer change it. A new
process or thread starts with 0, the child of a fork with what its slot had.
-/

namespace SengOS

namespace Kernel

/-! ## The sections -/

/-- `rw_read_locks` of every process. -/
def readLocks (k : Kernel) (p : PcbRef) : Byte := (k.pcbs p).rwReadLocks

section Sections
variable (k : Kernel)

theorem modify_readLocks {k : Kernel} {p : PcbRef} {f : Pcb → Pcb}
    (h : (f (k.pcbs p)).rwReadLocks = (k.pcbs p).rwReadLocks) : (k.modify p f).readLocks = k.readLocks := by
  funext q
  unfold readLocks
  rw [modify_pcbs]
  split
  · rename_i hq
    rw [h, hq]
  · rfl

theorem blockForever_readLocks : k.schedulerBlockForever.readLocks = k.readLocks := by
  unfold schedulerBlockForever
  split
  · rfl
  · exact modify_readLocks rfl

theorem wake_readLocks (p : PcbRef) : (k.schedulerWake p).readLocks = k.readLocks := by
  unfold schedulerWake
  split
  · rfl
  · exact modify_readLocks rfl

theorem ownerAdd_readLocks (p : PcbRef) (m : Nat) : (k.ownerAdd p m).readLocks = k.readLocks := by
  apply modify_readLocks
  split <;> rfl

theorem raiseTo_readLocks (p w : PcbRef) : (raiseTo p k w).readLocks = k.readLocks := by
  unfold raiseTo
  split
  · exact modify_readLocks rfl
  · rfl

theorem recomputePriority_readLocks (p : PcbRef) : (k.recomputePriority p).readLocks = k.readLocks := by
  have hraise (ws : List PcbRef) (k : Kernel) : (ws.foldl (raiseTo p) k).readLocks = k.readLocks := by
    induction ws generalizing k with
    | nil => rfl
    | cons w ws ih => exact (ih _).trans (raiseTo_readLocks k p w)
  exact (hraise _ _).trans (modify_readLocks rfl)

theorem propagatePriority_readLocks (guard : Nat) (p : PcbRef) :
    (k.propagatePriority guard p).readLocks = k.readLocks := by
  induction guard generalizing k p with
  | zero => rfl
  | succ guard ih =>
    unfold propagatePriority
    split
    · rfl
    · rename_i owner _
      split
      · rfl
      · exact (ih _ owner).trans (raiseTo_readLocks k owner p)

theorem boostOwner_readLocks (m : Nat) : (k.boostOwner m).readLocks = k.readLocks := by
  unfold boostOwner
  split
  · rfl
  · split
    · exact (propagatePriority_readLocks _ 16 _).trans (raiseTo_readLocks k _ _)
    · rfl

theorem mutexAttempt_readLocks (m : Nat) : (k.mutexAttempt m).2.readLocks = k.readLocks := by
  unfold mutexAttempt
  dsimp only
  split
  · exact ownerAdd_readLocks _ _ _
  · split
    · rfl
    · dsimp only
      rw [blockForever_readLocks, boostOwner_readLocks]
      exact modify_readLocks rfl

theorem mutexRelease_readLocks (m : Nat) : (k.mutexRelease m).readLocks = k.readLocks := by
  have hremove : (k.ownerRemove k.current m).readLocks = k.readLocks := modify_readLocks rfl
  unfold mutexRelease
  dsimp only
  split
  · exact (recomputePriority_readLocks _ _).trans hremove
  · rename_i next rest _
    rw [recomputePriority_readLocks, wake_readLocks, ownerAdd_readLocks]
    exact (modify_readLocks rfl).trans hremove

theorem semAttempt_readLocks (i : Nat) : (k.semAttempt i).2.readLocks = k.readLocks := by
  unfold semAttempt
  dsimp only
  split
  · rfl
  · split
    · rfl
    · exact blockForever_readLocks _

theorem semRelease_readLocks (i : Nat) : (k.semRelease i).readLocks = k.readLocks := by
  unfold semRelease
  dsimp only
  split
  · rfl
  · exact wake_readLocks _ _

theorem writeAttempt_readLocks (r : Nat) : (k.writeAttempt r).2.readLocks = k.readLocks := by
  unfold writeAttempt
  dsimp only
  split
  · rfl
  · exact blockForever_readLocks _

theorem lazyInit_readLocks (l : Lock) : (k.lazyInit l).readLocks = k.readLocks := by
  cases l with
  | mutex m =>
    funext p
    exact congrArg (fun pcbs => (pcbs p).rwReadLocks) (mutexInit_pcbs k m)
  | _ => rfl

theorem settle_readLocks (l : Lock) : (k.settle l).readLocks = k.readLocks := by
  cases l with
  | mutex m =>
    unfold settle
    exact modify_readLocks rfl
  | _ => rfl

theorem addReader_readLocks (r : Nat) (p q : PcbRef) :
    (k.addReader r p).readLocks q = k.readLocks q + if q = p then 1#8 else 0#8 := by
  unfold addReader readLocks
  rw [modify_pcbs]
  by_cases hq : q = p
  · rw [if_pos hq, if_pos hq, hq]
    rfl
  · rw [if_neg hq, if_neg hq, BitVec.add_zero]
    rfl

theorem readAttempt_got_readLocks {k : Kernel} {r : Nat} (h : (k.readAttempt r).1 = .got) (q : PcbRef) :
    (k.readAttempt r).2.readLocks q = k.readLocks q + if q = k.current then 1#8 else 0#8 := by
  unfold readAttempt at h ⊢
  dsimp only at h ⊢
  split at h
  · rename_i hc
    rw [if_pos hc]
    exact addReader_readLocks k r _ q
  · cases h

theorem readAttempt_waits_readLocks {k : Kernel} {r : Nat} (h : (k.readAttempt r).1 = .waits) :
    (k.readAttempt r).2.readLocks = k.readLocks := by
  unfold readAttempt at h ⊢
  dsimp only at h ⊢
  split at h
  · cases h
  · rename_i hc
    rw [if_neg hc]
    exact blockForever_readLocks _

theorem readRelease_readLocks (r : Nat) (q : PcbRef) :
    (k.readRelease r).readLocks q = k.readLocks q - if q = k.current then 1#8 else 0#8 := by
  have hdrop : (k.modify k.current fun q => { q with rwReadLocks := q.rwReadLocks - 1#8 }).readLocks q =
      k.readLocks q - if q = k.current then 1#8 else 0#8 := by
    unfold readLocks
    rw [modify_pcbs]
    by_cases hq : q = k.current
    · rw [if_pos hq, if_pos hq, hq]
    · rw [if_neg hq, if_neg hq, BitVec.sub_zero]
  unfold readRelease
  dsimp only
  split
  · split
    · exact hdrop
    · rw [wake_readLocks]
      exact hdrop
  · exact hdrop

theorem writeRelease_hand_readLocks {k : Kernel} {r : Nat} (h : (k.rwlocks r).writerWaiters ≠ []) :
    (k.writeRelease r).readLocks = k.readLocks := by
  obtain ⟨next, rest, hq⟩ := List.exists_cons_of_ne_nil h
  unfold writeRelease
  dsimp only
  rw [hq]
  exact wake_readLocks _ next

theorem admitReaders_readLocks {ps : List PcbRef} (hps : ps.Nodup) (r : Nat) (q : PcbRef) :
    (ps.foldl (admitReader r) k).readLocks q = k.readLocks q + if q ∈ ps then 1#8 else 0#8 := by
  induction ps generalizing k with
  | nil => simp
  | cons p ps ih =>
    obtain ⟨hp, hps⟩ := List.nodup_cons.mp hps
    rw [List.foldl_cons, ih _ hps, admitReader, wake_readLocks, addReader_readLocks]
    by_cases hq : q = p
    · subst hq
      simp [hp]
    · simp [hq]

theorem writeRelease_letIn_readLocks {k : Kernel} {r : Nat} (h : (k.rwlocks r).writerWaiters = [])
    (hps : (k.rwlocks r).readerWaiters.Nodup) (q : PcbRef) :
    (k.writeRelease r).readLocks q =
      k.readLocks q + if q ∈ (k.rwlocks r).readerWaiters then 1#8 else 0#8 := by
  unfold writeRelease
  dsimp only
  rw [h]
  exact admitReaders_readLocks _ hps r q

end Sections

/-! ## Code beside the locks -/

theorem suspend_readLocks (contextEsp eip : Word) (countTick : Bool) (q : Pcb) :
    (suspend contextEsp eip countTick q).rwReadLocks = q.rwReadLocks := by
  unfold suspend charge
  dsimp only
  repeat' split
  all_goals rfl

theorem wakeUp_readLocks (q : Pcb) : (wakeUp q).rwReadLocks = q.rwReadLocks := by
  unfold wakeUp
  split <;> rfl

theorem dispatch_readLocks {k : Kernel} (h : k.ShellReady) {contextEsp : Word} (hctx : contextEsp ≠ 0#32)
    (countTick : Bool) : (k.dispatch contextEsp countTick).2.readLocks = k.readLocks := by
  obtain ⟨woken, rest, next, -, -, -, he⟩ := dispatch_switched h hctx countTick
  rw [he]
  funext p
  have hw : (if p ∈ woken then wakeUp (k.pcbs p) else k.pcbs p).rwReadLocks = (k.pcbs p).rwReadLocks := by
    split
    · exact wakeUp_readLocks _
    · rfl
  unfold readLocks switched suspended
  dsimp only
  split
  · rw [suspend_readLocks, hw]
  · exact hw

theorem killTarget_readLocks (k : Kernel) (p : PcbRef) : (k.killTarget p).readLocks = k.readLocks := by
  have hkilled : ((k.sleepQueueRemove p).modify p killed).readLocks = k.readLocks := modify_readLocks rfl
  exact hkilled

theorem processExit_readLocks (k : Kernel) : k.processExit.readLocks = k.readLocks := by
  by_cases hp : k.cur.pid = 0#32
  · rw [processExit, if_pos hp]
  · funext q
    by_cases hq : q = k.current
    · subst hq
      simp [processExit, hp, processDecrementCount, readLocks]
    · simp [processExit, hp, processDecrementCount, readLocks, modify_pcbs, hq]

theorem sleep_readLocks (k : Kernel) (ms : Word) : (k.sleep ms).readLocks = k.readLocks := by
  rcases k.sleep_cases ms with hk | ⟨_, wakeTick, q, hk, -⟩
  · rw [hk]
  · rw [hk]
    funext p
    unfold readLocks
    dsimp only
    rw [modify_pcbs]
    split
    · rename_i hp
      rw [hp]
    · rfl

/-- The byte of a slot that was free is 0 or what it was before. -/
def KeepsReadLocks (k k' : Kernel) : Prop :=
  ∀ p, k'.readLocks p = k.readLocks p ∨ ((k.pcbs p).state = .terminated ∧ k'.readLocks p = 0#8)

theorem KeepsReadLocks.of_eq {k k' : Kernel} (h : k'.readLocks = k.readLocks) : KeepsReadLocks k k' :=
  fun p => .inl (by rw [h])

theorem Created.readLocks {k k' : Kernel} {p : PcbRef} (h : Created k p k')
    (hfree : (k.pcbs p).state = .terminated) (hzero : (k'.pcbs p).profile.rwReadLocks = 0#8) :
    KeepsReadLocks k k' := by
  intro q
  by_cases hq : q = p
  · subst hq
    exact .inr ⟨hfree, hzero⟩
  · exact .inl (congrArg Pcb.rwReadLocks (h.others q hq))

theorem processCreateNamed_readLocks (k : Kernel) (entry : Word) (name : Option CStr) :
    KeepsReadLocks k (k.processCreateNamed entry name).2 := by
  cases ht : k.createTarget entry with
  | none => exact .of_eq (by rw [processCreateNamed_none ht])
  | some p =>
    have hfree := (freeSlot_some (createTarget_some ht).2).2.1
    apply (processCreateNamed_spec ht name).1.readLocks hfree
    rw [processCreateNamed_profile ht]
    rfl

theorem threadCreateNamed_readLocks (k : Kernel) (entry arg : Word) (name : Option CStr) :
    KeepsReadLocks k (k.threadCreateNamed entry arg name).2 := by
  cases ht : k.createTarget entry with
  | none => exact .of_eq (by rw [threadCreateNamed_none ht])
  | some p =>
    have hfree := (freeSlot_some (createTarget_some ht).2).2.1
    apply (threadCreateNamed_spec ht arg name).1.readLocks hfree
    rw [threadCreateNamed_profile ht]
    rfl

/-- The child of a fork keeps the byte that its slot had. -/
theorem schedulerFork_readLocks (k : Kernel) (contextEsp : Word) :
    (k.schedulerFork contextEsp).2.readLocks = k.readLocks := by
  funext q
  cases ht : k.forkTarget with
  | none =>
    rcases (schedulerFork_refused ht contextEsp).pcbs q with hq | ⟨-, -, hq⟩
    · exact (congrArg Pcb.rwReadLocks hq :)
    · exact (congrArg Pcb.rwReadLocks hq :)
  | some child =>
    by_cases hq : q = child
    · subst hq
      exact congrArg Profile.rwReadLocks (schedulerFork_profile ht contextEsp)
    · exact (congrArg Pcb.rwReadLocks ((schedulerFork_spec ht contextEsp).others q hq) :)

end Kernel

namespace OsState

variable {s s' : OsState}

theorem beside_readLocks (hs : s.ShellInv) {a : Action} (he : s.Enabled a) (hb : Beside a = true) :
    Kernel.KeepsReadLocks s.kernel (s.next a).kernel := by
  cases a with
  | start => exact .of_eq rfl
  | create entry name =>
    rw [next, creating_kernel]
    exact Kernel.processCreateNamed_readLocks _ entry name
  | threadCreate entry arg name =>
    rw [next, creating_kernel]
    exact Kernel.threadCreateNamed_readLocks _ entry arg name
  | fork contextEsp =>
    rw [next_fork_kernel]
    exact .of_eq (Kernel.schedulerFork_readLocks _ contextEsp)
  | tick contextEsp =>
    apply Kernel.KeepsReadLocks.of_eq
    simp only [next, Kernel.schedulerTick]
    cases s.kernel.timerStarted with
    | false => rfl
    | true => exact Kernel.dispatch_readLocks hs.ready he true
  | yield contextEsp => exact .of_eq (Kernel.dispatch_readLocks hs.ready he.1 false)
  | sleep ms => exact .of_eq (Kernel.sleep_readLocks _ ms)
  | kill contextEsp pid =>
    apply Kernel.KeepsReadLocks.of_eq
    show (s.kernel.schedulerKill contextEsp pid).2.readLocks = _
    rcases Kernel.schedulerKill_cases s.kernel contextEsp pid with ⟨_, hk⟩ | ⟨p, hp, hz, hcase⟩
    · rw [hk]
      rfl
    · have hkilled : ((s.kernel.killTarget p).setEax contextEsp 0#32).readLocks = s.kernel.readLocks :=
        Kernel.killTarget_readLocks _ p
      rcases hcase with ⟨_, hk⟩ | ⟨_, hk⟩
      · rw [hk]
        exact hkilled
      · rw [hk, Kernel.dispatch_readLocks (hs.killed hp hz contextEsp).ready he.1 false]
        exact hkilled
  | exit => exact .of_eq (Kernel.processExit_readLocks _)
  | _ => cases hb

end OsState

end SengOS
