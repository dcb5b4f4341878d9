import SengOS.Kernel.Shell

/-!
# The sections of the mutex

What the section of `mutex_lock` and the section of `mutex_unlock` do to the
mutex and to the states of the processes, with the priority code out of the
way: it changes neither.
-/

namespace SengOS

/-- The state of every process and the mutex it waits for are kept. -/
def SameWaits (k k' : Kernel) : Prop :=
  ∀ p, (k'.pcbs p).state = (k.pcbs p).state ∧ (k'.pcbs p).waitingMutex = (k.pcbs p).waitingMutex

theorem SameWaits.refl (k : Kernel) : SameWaits k k := fun _ => ⟨rfl, rfl⟩

theorem SameWaits.trans {a b c : Kernel} (h : SameWaits a b) (h' : SameWaits b c) : SameWaits a c :=
  fun p => ⟨(h' p).1.trans (h p).1, (h' p).2.trans (h p).2⟩

namespace Kernel

section
variable (k : Kernel)

theorem modify_sameWaits {k : Kernel} {p : PcbRef} {f : Pcb → Pcb}
    (h : (f (k.pcbs p)).state = (k.pcbs p).state ∧
      (f (k.pcbs p)).waitingMutex = (k.pcbs p).waitingMutex) : SameWaits k (k.modify p f) := by
  intro q
  rw [modify_pcbs]
  split
  · rename_i hq
    rw [hq]
    exact h
  · exact ⟨rfl, rfl⟩

theorem ownerAdd_sameWaits (p : PcbRef) (m : Nat) : SameWaits k (k.ownerAdd p m) := by
  refine modify_sameWaits ?_
  split <;> exact ⟨rfl, rfl⟩

theorem ownerRemove_sameWaits (p : PcbRef) (m : Nat) : SameWaits k (k.ownerRemove p m) :=
  modify_sameWaits ⟨rfl, rfl⟩

theorem raiseTo_sameWaits (p w : PcbRef) : SameWaits k (raiseTo p k w) := by
  unfold raiseTo
  split
  · exact modify_sameWaits ⟨rfl, rfl⟩
  · exact .refl k

theorem raiseAll_sameWaits (p : PcbRef) (ws : List PcbRef) :
    SameWaits k (ws.foldl (raiseTo p) k) := by
  induction ws generalizing k with
  | nil => exact .refl k
  | cons w ws ih => exact (raiseTo_sameWaits k p w).trans (ih _)

theorem recomputePriority_sameWaits (p : PcbRef) : SameWaits k (k.recomputePriority p) :=
  (modify_sameWaits (f := fun q => { q with priority := q.basePriority }) ⟨rfl, rfl⟩).trans
    (raiseAll_sameWaits _ p _)

theorem propagatePriority_sameWaits (guard : Nat) (p : PcbRef) :
    SameWaits k (k.propagatePriority guard p) := by
  induction guard generalizing k p with
  | zero => exact .refl k
  | succ guard ih =>
    unfold propagatePriority
    split
    · exact .refl k
    · split
      · exact .refl k
      · exact (raiseTo_sameWaits k _ p).trans (ih _ _)

theorem boostOwner_sameWaits (m : Nat) : SameWaits k (k.boostOwner m) := by
  unfold boostOwner
  split
  · exact .refl k
  · split
    · exact (raiseTo_sameWaits k _ _).trans (propagatePriority_sameWaits _ _ _)
    · exact .refl k

end

theorem mutexes_of_locks {k k' : Kernel} (h : k'.locks = k.locks) : k'.mutexes = k.mutexes :=
  congrArg Prod.fst h

theorem mutexInit_mutexes (k : Kernel) (m : Nat) :
    (k.mutexInit m).mutexes = Function.update k.mutexes m ⟨false, true, none, []⟩ := by
  unfold mutexInit
  dsimp only
  split <;> rfl

theorem mutexInit_pcbs (k : Kernel) (m : Nat) : (k.mutexInit m).pcbs = k.pcbs := by
  unfold mutexInit
  dsimp only
  split <;> rfl

/-- The three ways through the section of `mutex_lock`. -/
inductive Attempted (k : Kernel) (m : Nat) : Attempt → Kernel → Prop
  | got {k' : Kernel} (free : (k.mutexes m).locked = false)
      (mutexes : k'.mutexes = Function.update k.mutexes m
        { k.mutexes m with locked := true, owner := some k.current })
      (waits : SameWaits k k') : Attempted k m .got k'
  | full (locked : (k.mutexes m).locked = true) : Attempted k m .full k
  | waits {k' : Kernel} (q : List PcbRef) (locked : (k.mutexes m).locked = true)
      (queue : waitqAdd (k.mutexes m).waiters k.current = some q)
      (mutexes : k'.mutexes = Function.update k.mutexes m { k.mutexes m with waiters := q })
      (others : ∀ p, p ≠ k.current → (k'.pcbs p).state = (k.pcbs p).state ∧
        (k'.pcbs p).waitingMutex = (k.pcbs p).waitingMutex)
      (blocked : (k'.pcbs k.current).state = .blocked)
      (waiting : (k'.pcbs k.current).waitingMutex = some m) : Attempted k m .waits k'

theorem blockForever_pcbs {k : Kernel} (h : k.cur.pid ≠ 0#32) (p : PcbRef) :
    (k.schedulerBlockForever).pcbs p =
      if p = k.current then { k.pcbs p with wakeTick := 0#32, state := .blocked } else k.pcbs p := by
  rw [schedulerBlockForever, if_neg h, modify_pcbs]
  split
  · rename_i hp
    rw [hp]
  · rfl

theorem mutexAttempt_spec {k : Kernel} (h : k.ShellOwnsNone) (hpid : k.cur.pid ≠ 0#32) (m : Nat) :
    Attempted k m (k.mutexAttempt m).1 (k.mutexAttempt m).2 := by
  unfold mutexAttempt
  dsimp only
  split
  · rename_i hl
    exact .got (by simpa using hl) (mutexes_of_locks (ownerAdd_locks _ _ _))
      (.trans (fun _ => ⟨rfl, rfl⟩) (ownerAdd_sameWaits _ _ _))
  · rename_i hl
    have hl : (k.mutexes m).locked = true := by simpa using hl
    split
    · exact .full hl
    · rename_i q hq
      change Attempted k m .waits (((k.setMutex m { k.mutexes m with waiters := q }).modify k.current
        fun q => { q with waitingMutex := some m }).boostOwner m).schedulerBlockForever
      generalize hk₁ : (k.setMutex m { k.mutexes m with waiters := q }).modify k.current
        (fun q => { q with waitingMutex := some m }) = k₁
      have hcur : k₁.current = k.current := by rw [← hk₁]; rfl
      have hframe : LockFrame k₁ (k₁.boostOwner m) := by
        refine boostOwner_frame _ ?_ m
        rw [← hk₁]
        exact h.queued m q _ _
      have hpcb : ∀ p, (k₁.pcbs p).state = (k.pcbs p).state ∧ (k₁.pcbs p).pid = (k.pcbs p).pid ∧
          (k₁.pcbs p).waitingMutex = if p = k.current then some m else (k.pcbs p).waitingMutex := by
        intro p
        rw [← hk₁, modify_pcbs]
        split
        · rename_i hp
          rw [hp]
          exact ⟨rfl, rfl, rfl⟩
        · exact ⟨rfl, rfl, rfl⟩
      have hpid₁ : (k₁.boostOwner m).cur.pid ≠ 0#32 := by
        rw [hframe.cur.pid, cur, hcur, (hpcb _).2.1]
        exact hpid
      have hc : (k₁.boostOwner m).current = k.current := hframe.current.trans hcur
      have hwaits := boostOwner_sameWaits k₁ m
      refine .waits q hl hq ?_ (fun p hp => ?_) ?_ ?_
      · rw [mutexes_of_locks ((blockForever_locks _).trans (boostOwner_locks _ _)), ← hk₁]
        rfl
      · rw [blockForever_pcbs hpid₁, hc, if_neg hp, (hwaits p).1, (hwaits p).2, (hpcb p).1,
          (hpcb p).2.2, if_neg hp]
        exact ⟨rfl, rfl⟩
      · rw [blockForever_pcbs hpid₁, hc, if_pos rfl]
      · rw [blockForever_pcbs hpid₁, hc, if_pos rfl]
        show ((k₁.boostOwner m).pcbs k.current).waitingMutex = some m
        rw [(hwaits _).2, (hpcb _).2.2, if_pos rfl]

/-- The two ways through the section of `mutex_unlock`. -/
inductive Released (k : Kernel) (m : Nat) (k' : Kernel) : Prop
  | free (queue : (k.mutexes m).waiters = [])
      (mutexes : k'.mutexes = Function.update k.mutexes m
        { k.mutexes m with locked := false, owner := none })
      (waits : SameWaits k k')
  | handed (next : PcbRef) (rest : List PcbRef) (queue : (k.mutexes m).waiters = next :: rest)
      (mutexes : k'.mutexes = Function.update k.mutexes m
        { k.mutexes m with locked := true, owner := some next, waiters := rest })
      (others : ∀ p, p ≠ next → (k'.pcbs p).state = (k.pcbs p).state ∧
        (k'.pcbs p).waitingMutex = (k.pcbs p).waitingMutex)
      (alive : (k.pcbs next).state ≠ .terminated → (k'.pcbs next).state ≠ .terminated)

theorem wake_others (k : Kernel) {p q : PcbRef} (h : q ≠ p) :
    (k.schedulerWake p).pcbs q = k.pcbs q := by
  unfold schedulerWake
  split
  · rfl
  · exact modify_pcbs_ne _ _ _ h

theorem mutexRelease_spec {k : Kernel} (hc : k.current ≠ 0) (m : Nat) :
    Released k m (k.mutexRelease m) := by
  have hframe := mutexRelease_frame k hc m
  unfold mutexRelease at hframe ⊢
  dsimp only at hframe ⊢
  split at hframe
  · rename_i hq
    refine .free hq (mutexes_of_locks (recomputePriority_locks _ _)) ?_
    exact ((ownerRemove_sameWaits k _ m).trans (fun _ => ⟨rfl, rfl⟩)).trans
      (recomputePriority_sameWaits _ _)
  · rename_i next rest hq
    refine .handed next rest hq ?_ (fun p hp => ?_) fun ht ht' =>
      ht ((hframe.pcbs next).terminated.mp ht')
    · exact mutexes_of_locks ((recomputePriority_locks _ _).trans ((wake_locks _ _).trans
        ((ownerAdd_locks _ _ _).trans (modify_locks _ _ _))))
    · have hr := recomputePriority_sameWaits (((((k.ownerRemove k.current m).setMutex m
        { k.mutexes m with locked := true, owner := some next, waiters := rest }).modify next
        fun q => { q with waitingMutex := none }).ownerAdd next m).schedulerWake next) k.current p
      rw [hr.1, hr.2, wake_others _ hp, (ownerAdd_sameWaits _ _ _ p).1, (ownerAdd_sameWaits _ _ _ p).2,
        modify_pcbs_ne _ _ _ hp]
      exact ownerRemove_sameWaits k _ m p

end Kernel

end SengOS
