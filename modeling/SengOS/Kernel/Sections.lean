import SengOS.Kernel.System

/-!
# What the lock code does to processes

The sections of the three lock modules touch the process table in few ways:
they block the process that runs them, wake waiters and change priorities.
They put into a lock only the running process and processes from its queue.
-/

namespace SengOS

/-- The identity of a process is kept, and its state changes only as lock code may change it. -/
structure Pcb.Keeps (q q' : Pcb) : Prop where
  pid : q'.pid = q.pid
  esp : q'.esp = q.esp
  stackBase : q'.stackBase = q.stackBase
  stackTop : q'.stackTop = q.stackTop
  hasStack : q'.hasStack = q.hasStack
  running : q'.state = .running → q.state = .running
  terminated : q'.state = .terminated ↔ q.state = .terminated
  shell : q.pid = 0#32 → q.state ≠ .blocked → q'.state = q.state

namespace Pcb

/-- A store that leaves the identity and the state alone. -/
theorem Keeps.of_eq {q q' : Pcb} (pid : q'.pid = q.pid) (esp : q'.esp = q.esp)
    (stackBase : q'.stackBase = q.stackBase) (stackTop : q'.stackTop = q.stackTop)
    (hasStack : q'.hasStack = q.hasStack) (state : q'.state = q.state) : q.Keeps q' where
  pid := pid
  esp := esp
  stackBase := stackBase
  stackTop := stackTop
  hasStack := hasStack
  running := fun h => state ▸ h
  terminated := by rw [state]
  shell := fun _ _ => state

theorem Keeps.refl (q : Pcb) : q.Keeps q := .of_eq rfl rfl rfl rfl rfl rfl

theorem Keeps.trans {a b c : Pcb} (h : a.Keeps b) (h' : b.Keeps c) : a.Keeps c where
  pid := h'.pid.trans h.pid
  esp := h'.esp.trans h.esp
  stackBase := h'.stackBase.trans h.stackBase
  stackTop := h'.stackTop.trans h.stackTop
  hasStack := h'.hasStack.trans h.hasStack
  running := fun hr => h.running (h'.running hr)
  terminated := h'.terminated.trans h.terminated
  shell := fun hp hb => by
    have hs := h.shell hp hb
    rw [h'.shell (h.pid.trans hp) (by rw [hs]; exact hb), hs]

end Pcb

/-- The effect of lock code on everything but the locks. -/
structure LockFrame (k k' : Kernel) : Prop where
  current : k'.current = k.current
  sleepQueue : k'.sleepQueue = k.sleepQueue
  pmm : k'.pmm = k.pmm
  pcbs : ∀ p, (k.pcbs p).Keeps (k'.pcbs p)
  shell_priority : (k'.pcbs 0).priority = (k.pcbs 0).priority
  processTotal : k'.processTotal = k.processTotal

namespace LockFrame

variable {k k' k'' : Kernel}

theorem refl (k : Kernel) : LockFrame k k := ⟨rfl, rfl, rfl, fun _ => .refl _, rfl, rfl⟩

theorem trans (h : LockFrame k k') (h' : LockFrame k' k'') : LockFrame k k'' where
  current := h'.current.trans h.current
  sleepQueue := h'.sleepQueue.trans h.sleepQueue
  pmm := h'.pmm.trans h.pmm
  pcbs := fun p => (h.pcbs p).trans (h'.pcbs p)
  shell_priority := h'.shell_priority.trans h.shell_priority
  processTotal := h'.processTotal.trans h.processTotal

theorem cur (h : LockFrame k k') : k.cur.Keeps k'.cur := by
  unfold Kernel.cur
  rw [h.current]
  exact h.pcbs _

/-- Code that leaves the table and the variables beside the locks alone. -/
theorem of_pcbs (current : k'.current = k.current) (sleepQueue : k'.sleepQueue = k.sleepQueue)
    (pmm : k'.pmm = k.pmm) (pcbs : k'.pcbs = k.pcbs)
    (processTotal : k'.processTotal = k.processTotal) : LockFrame k k' :=
  ⟨current, sleepQueue, pmm, fun p => by rw [pcbs]; exact .refl _, by rw [pcbs], processTotal⟩

theorem modify {p : PcbRef} {f : Pcb → Pcb} (h : (k.pcbs p).Keeps (f (k.pcbs p)))
    (hp : p = 0 → (f (k.pcbs p)).priority = (k.pcbs p).priority) : LockFrame k (k.modify p f) where
  current := rfl
  sleepQueue := rfl
  pmm := rfl
  pcbs := fun q => by
    rw [Kernel.modify_pcbs]
    split
    · rename_i he
      rw [he]
      exact h
    · exact .refl _
  shell_priority := by
    rw [Kernel.modify_pcbs]
    split
    · rename_i he
      rw [hp he.symm, he]
    · rfl
  processTotal := rfl

end LockFrame

namespace Kernel

def ShellOwnsNone (k : Kernel) : Prop := ∀ m, (k.mutexes m).owner ≠ some 0

section Frames
variable (k : Kernel)

theorem setMutex_frame (m : Nat) (v : Mutex) : LockFrame k (k.setMutex m v) :=
  .of_pcbs rfl rfl rfl rfl rfl

theorem setSem_frame (s : Nat) (v : Semaphore) : LockFrame k (k.setSem s v) :=
  .of_pcbs rfl rfl rfl rfl rfl

theorem setRwlock_frame (r : Nat) (v : Rwlock) : LockFrame k (k.setRwlock r v) :=
  .of_pcbs rfl rfl rfl rfl rfl

theorem blockForever_frame (h : k.cur.state ≠ .terminated) :
    LockFrame k k.schedulerBlockForever := by
  unfold schedulerBlockForever
  split
  · exact .refl k
  · rename_i hpid
    refine .modify ⟨rfl, rfl, rfl, rfl, rfl, fun hs => ?_, ⟨fun hs => ?_, fun hs => ?_⟩, ?_⟩
      (fun _ => rfl)
    · cases hs
    · cases hs
    · exact absurd hs h
    · exact fun hp => absurd hp hpid

theorem wake_frame (p : PcbRef) : LockFrame k (k.schedulerWake p) := by
  unfold schedulerWake
  split
  · exact .refl k
  · rename_i hb
    have hb : (k.pcbs p).state = .blocked := not_not.mp hb
    refine .modify ⟨rfl, rfl, rfl, rfl, rfl, fun hs => ?_, ⟨fun hs => ?_, fun hs => ?_⟩, ?_⟩
      (fun _ => rfl)
    · cases hs
    · cases hs
    · rw [hb] at hs
      cases hs
    · exact fun _ hs => absurd hb hs

theorem ownerAdd_frame (p : PcbRef) (m : Nat) : LockFrame k (k.ownerAdd p m) := by
  refine .modify ?_ (fun _ => ?_)
  · split <;> exact .of_eq rfl rfl rfl rfl rfl rfl
  · split <;> rfl

theorem ownerRemove_frame (p : PcbRef) (m : Nat) : LockFrame k (k.ownerRemove p m) :=
  .modify (.of_eq rfl rfl rfl rfl rfl rfl) (fun _ => rfl)

theorem waitingMutex_frame (p : PcbRef) (m : Option Nat) :
    LockFrame k (k.modify p fun q => { q with waitingMutex := m }) :=
  .modify (.of_eq rfl rfl rfl rfl rfl rfl) (fun _ => rfl)

theorem raiseTo_frame {p : PcbRef} (hp : p ≠ 0) (w : PcbRef) : LockFrame k (raiseTo p k w) := by
  unfold raiseTo
  split
  · exact .modify (.of_eq rfl rfl rfl rfl rfl rfl) (fun h => absurd h hp)
  · exact .refl k

@[simp] theorem raiseTo_mutexes (p w : PcbRef) : (raiseTo p k w).mutexes = k.mutexes := by
  unfold raiseTo
  split <;> rfl

theorem raiseAll_frame {p : PcbRef} (hp : p ≠ 0) (ws : List PcbRef) :
    LockFrame k (ws.foldl (raiseTo p) k) := by
  induction ws generalizing k with
  | nil => exact .refl k
  | cons w ws ih => exact (raiseTo_frame k hp w).trans (ih _)

theorem recomputePriority_frame {p : PcbRef} (hp : p ≠ 0) :
    LockFrame k (k.recomputePriority p) :=
  .trans (.modify (.of_eq rfl rfl rfl rfl rfl rfl) (fun h => absurd h hp)) (raiseAll_frame _ hp _)

/-- The owners that the boost passes on to are never the shell. -/
theorem propagatePriority_frame (h : k.ShellOwnsNone) (guard : Nat) (p : PcbRef) :
    LockFrame k (k.propagatePriority guard p) := by
  induction guard generalizing k p with
  | zero => exact .refl k
  | succ guard ih =>
    unfold propagatePriority
    split
    · exact .refl k
    · rename_i owner ho
      obtain ⟨m, _, hm⟩ := Option.bind_eq_some_iff.mp ho
      have hne : owner ≠ 0 := by
        rintro rfl
        exact h m hm
      split
      · exact .refl k
      · refine (raiseTo_frame k hne p).trans (ih _ ?_ owner)
        intro m
        rw [raiseTo_mutexes]
        exact h m

theorem boostOwner_frame (h : k.ShellOwnsNone) (m : Nat) : LockFrame k (k.boostOwner m) := by
  unfold boostOwner
  split
  · exact .refl k
  · rename_i owner ho
    have hne : owner ≠ 0 := by
      rintro rfl
      exact h m ho
    split
    · refine (raiseTo_frame k hne _).trans (propagatePriority_frame _ ?_ 16 owner)
      intro m
      rw [raiseTo_mutexes]
      exact h m
    · exact .refl k

theorem addReader_frame (r : Nat) (p : PcbRef) : LockFrame k (k.addReader r p) := by
  unfold addReader
  refine (setRwlock_frame k r _).trans (.modify ?_ (fun _ => rfl))
  exact .of_eq rfl rfl rfl rfl rfl rfl

theorem admitReaders_frame (r : Nat) (ps : List PcbRef) :
    LockFrame k (ps.foldl (admitReader r) k) := by
  induction ps generalizing k with
  | nil => exact .refl k
  | cons p ps ih => exact ((addReader_frame k r p).trans (wake_frame _ p)).trans (ih _)

/-! ## Whole sections -/

theorem lazyInit_frame (l : Lock) : LockFrame k (k.lazyInit l) := by
  cases l with
  | mutex m =>
    simp only [lazyInit, mutexInit]
    split <;> exact .of_pcbs rfl rfl rfl rfl rfl
  | sem s => exact setSem_frame k s _
  | read r => exact setRwlock_frame k r _
  | write r => exact setRwlock_frame k r _

theorem ShellOwnsNone.queued {k : Kernel} (h : k.ShellOwnsNone) (m : Nat) (q : List PcbRef)
    (p : PcbRef) (f : Pcb → Pcb) :
    ((k.setMutex m { k.mutexes m with waiters := q }).modify p f).ShellOwnsNone := by
  intro n
  rw [modify_mutexes]
  by_cases hn : n = m
  · subst hn
    simpa [setMutex] using h n
  · simpa [setMutex, hn] using h n

theorem mutexAttempt_frame (h : k.ShellOwnsNone) (ht : k.cur.state ≠ .terminated) (m : Nat) :
    LockFrame k (k.mutexAttempt m).2 := by
  unfold mutexAttempt
  dsimp only
  split
  · exact (setMutex_frame k m _).trans (ownerAdd_frame _ _ m)
  · split
    · exact .refl k
    · rename_i q hq
      have hx : LockFrame k ((k.setMutex m { k.mutexes m with waiters := q }).modify k.current
          fun q => { q with waitingMutex := some m }) :=
        (setMutex_frame k m _).trans (waitingMutex_frame _ _ _)
      have hboost := hx.trans (boostOwner_frame _ (h.queued m q k.current _) m)
      refine hboost.trans (blockForever_frame _ ?_)
      rw [Ne, hboost.cur.terminated]
      exact ht

theorem semAttempt_frame (ht : k.cur.state ≠ .terminated) (s : Nat) :
    LockFrame k (k.semAttempt s).2 := by
  unfold semAttempt
  dsimp only
  split
  · exact setSem_frame k s _
  · split
    · exact .refl k
    · exact (setSem_frame k s _).trans (blockForever_frame _ ht)

theorem readAttempt_frame (ht : k.cur.state ≠ .terminated) (r : Nat) :
    LockFrame k (k.readAttempt r).2 := by
  unfold readAttempt
  dsimp only
  split
  · exact addReader_frame k r _
  · exact (setRwlock_frame k r _).trans (blockForever_frame _ ht)

theorem writeAttempt_frame (ht : k.cur.state ≠ .terminated) (r : Nat) :
    LockFrame k (k.writeAttempt r).2 := by
  unfold writeAttempt
  dsimp only
  split
  · exact setRwlock_frame k r _
  · exact (setRwlock_frame k r _).trans (blockForever_frame _ ht)

theorem attempt_frame (h : k.ShellOwnsNone) (ht : k.cur.state ≠ .terminated) (l : Lock) :
    LockFrame k (k.attempt l).2 := by
  cases l with
  | mutex m => exact mutexAttempt_frame k h ht m
  | sem s => exact semAttempt_frame k ht s
  | read r => exact readAttempt_frame k ht r
  | write r => exact writeAttempt_frame k ht r

theorem settle_frame (l : Lock) : LockFrame k (k.settle l) := by
  cases l with
  | mutex m => exact waitingMutex_frame k _ _
  | sem s => exact .refl k
  | read r => exact .refl k
  | write r => exact .refl k

theorem mutexRelease_frame (hc : k.current ≠ 0) (m : Nat) : LockFrame k (k.mutexRelease m) := by
  unfold mutexRelease
  dsimp only
  split
  · exact ((ownerRemove_frame k _ m).trans (setMutex_frame _ m _)).trans
      (recomputePriority_frame _ hc)
  · rename_i next rest _
    exact (((((ownerRemove_frame k _ m).trans (setMutex_frame _ m _)).trans
      (waitingMutex_frame _ next none)).trans (ownerAdd_frame _ next m)).trans
      (wake_frame _ next)).trans (recomputePriority_frame _ hc)

theorem semRelease_frame (s : Nat) : LockFrame k (k.semRelease s) := by
  unfold semRelease
  dsimp only
  split
  · exact setSem_frame k s _
  · exact (setSem_frame k s _).trans (wake_frame _ _)

theorem readRelease_frame (r : Nat) : LockFrame k (k.readRelease r) := by
  have hk : LockFrame k
      (k.modify k.current fun q => { q with rwReadLocks := q.rwReadLocks - 1#8 }) :=
    .modify (.of_eq rfl rfl rfl rfl rfl rfl) (fun _ => rfl)
  unfold readRelease
  dsimp only
  split
  · split
    · exact hk.trans (setRwlock_frame _ r _)
    · exact (hk.trans (setRwlock_frame _ r _)).trans (wake_frame _ _)
  · exact hk.trans (setRwlock_frame _ r _)

theorem writeRelease_frame (r : Nat) : LockFrame k (k.writeRelease r) := by
  unfold writeRelease
  dsimp only
  split
  · exact (setRwlock_frame k r _).trans (wake_frame _ _)
  · exact (setRwlock_frame k r _).trans (admitReaders_frame _ r _)

/-- Only the section of `mutex_unlock` sets a priority of its caller. -/
theorem release_frame (l : Lock) (hc : (∃ m, l = .mutex m) → k.current ≠ 0) :
    LockFrame k (k.release l) := by
  cases l with
  | mutex m => exact mutexRelease_frame k (hc ⟨m, rfl⟩) m
  | sem s => exact semRelease_frame k s
  | read r => exact readRelease_frame k r
  | write r => exact writeRelease_frame k r

end Frames

/-! ## Entries of the locks -/

theorem entries_of_locks {k k' : Kernel} (h : k'.locks = k.locks) (place : Place) :
    k'.entries place = k.entries place := by
  simp only [locks, Prod.mk.injEq] at h
  obtain ⟨hm, hs, hr⟩ := h
  cases place <;> simp only [entries, hm, hs, hr]

section Locks
variable (k : Kernel)

@[simp] theorem blockForever_locks : k.schedulerBlockForever.locks = k.locks := by
  unfold schedulerBlockForever
  split <;> rfl

@[simp] theorem wake_locks (p : PcbRef) : (k.schedulerWake p).locks = k.locks := by
  unfold schedulerWake
  split <;> rfl

@[simp] theorem ownerAdd_locks (p : PcbRef) (m : Nat) : (k.ownerAdd p m).locks = k.locks := rfl

@[simp] theorem ownerRemove_locks (p : PcbRef) (m : Nat) : (k.ownerRemove p m).locks = k.locks := rfl

@[simp] theorem raiseTo_locks (p w : PcbRef) : (raiseTo p k w).locks = k.locks := by
  unfold raiseTo
  split <;> rfl

theorem raiseAll_locks (p : PcbRef) (ws : List PcbRef) :
    (ws.foldl (raiseTo p) k).locks = k.locks := by
  induction ws generalizing k with
  | nil => rfl
  | cons w ws ih => rw [List.foldl_cons, ih, raiseTo_locks]

@[simp] theorem recomputePriority_locks (p : PcbRef) : (k.recomputePriority p).locks = k.locks :=
  raiseAll_locks _ p _

theorem propagatePriority_locks (guard : Nat) (p : PcbRef) :
    (k.propagatePriority guard p).locks = k.locks := by
  induction guard generalizing k p with
  | zero => rfl
  | succ guard ih =>
    unfold propagatePriority
    split
    · rfl
    · split
      · rfl
      · rw [ih, raiseTo_locks]

@[simp] theorem boostOwner_locks (m : Nat) : (k.boostOwner m).locks = k.locks := by
  unfold boostOwner
  split
  · rfl
  · split
    · rw [propagatePriority_locks, raiseTo_locks]
    · rfl

end Locks

section Entries
variable {k : Kernel} {p : PcbRef} {place : Place}

/-- An entry of the table after a mutex was written is one of the new mutex or an old one. -/
theorem mem_setMutex {m : Nat} {v : Mutex} (h : p ∈ (k.setMutex m v).entries place) :
    p ∈ k.entries place ∨ (place = .mutexOwner m ∧ v.owner = some p) ∨
      (place = .mutexWaiter m ∧ p ∈ v.waiters) := by
  cases place with
  | mutexOwner n =>
    by_cases hn : n = m
    · subst hn
      simp only [entries, setMutex, Function.update_self, Option.mem_toList] at h
      exact .inr (.inl ⟨rfl, h⟩)
    · exact .inl (by simpa [entries, setMutex, hn] using h)
  | mutexWaiter n =>
    by_cases hn : n = m
    · subst hn
      simp only [entries, setMutex, Function.update_self] at h
      exact .inr (.inr ⟨rfl, h⟩)
    · exact .inl (by simpa [entries, setMutex, hn] using h)
  | semWaiter s => exact .inl h
  | rwWriter r => exact .inl h
  | readWaiter r => exact .inl h
  | writeWaiter r => exact .inl h

theorem mem_setSem {s : Nat} {v : Semaphore} (h : p ∈ (k.setSem s v).entries place) :
    p ∈ k.entries place ∨ (place = .semWaiter s ∧ p ∈ v.waiters) := by
  cases place with
  | semWaiter n =>
    by_cases hn : n = s
    · subst hn
      simp only [entries, setSem, Function.update_self] at h
      exact .inr ⟨rfl, h⟩
    · exact .inl (by simpa [entries, setSem, hn] using h)
  | mutexOwner m => exact .inl h
  | mutexWaiter m => exact .inl h
  | rwWriter r => exact .inl h
  | readWaiter r => exact .inl h
  | writeWaiter r => exact .inl h

theorem mem_setRwlock {r : Nat} {v : Rwlock} (h : p ∈ (k.setRwlock r v).entries place) :
    p ∈ k.entries place ∨ (place = .rwWriter r ∧ v.writer = some p) ∨
      (place = .readWaiter r ∧ p ∈ v.readerWaiters) ∨
      (place = .writeWaiter r ∧ p ∈ v.writerWaiters) := by
  cases place with
  | rwWriter n =>
    by_cases hn : n = r
    · subst hn
      simp only [entries, setRwlock, Function.update_self, Option.mem_toList] at h
      exact .inr (.inl ⟨rfl, h⟩)
    · exact .inl (by simpa [entries, setRwlock, hn] using h)
  | readWaiter n =>
    by_cases hn : n = r
    · subst hn
      simp only [entries, setRwlock, Function.update_self] at h
      exact .inr (.inr (.inl ⟨rfl, h⟩))
    · exact .inl (by simpa [entries, setRwlock, hn] using h)
  | writeWaiter n =>
    by_cases hn : n = r
    · subst hn
      simp only [entries, setRwlock, Function.update_self] at h
      exact .inr (.inr (.inr ⟨rfl, h⟩))
    · exact .inl (by simpa [entries, setRwlock, hn] using h)
  | mutexOwner m => exact .inl h
  | mutexWaiter m => exact .inl h
  | semWaiter s => exact .inl h

theorem mem_waitqAdd {q q' : List PcbRef} {c : PcbRef} (hq : waitqAdd q c = some q') (h : p ∈ q') :
    p ∈ q ∨ p = c := by
  unfold waitqAdd at hq
  split at hq
  · cases hq
  · split at hq
    · cases hq
      exact .inl h
    · cases hq
      simpa using h

theorem mem_waitqAdd_getD {q : List PcbRef} {c : PcbRef} (h : p ∈ (waitqAdd q c).getD q) :
    p ∈ q ∨ p = c := by
  cases hq : waitqAdd q c with
  | none =>
    rw [hq] at h
    exact .inl h
  | some q' =>
    rw [hq] at h
    exact mem_waitqAdd hq h

theorem lazyInit_entries {l : Lock} (h : p ∈ (k.lazyInit l).entries place) :
    p ∈ k.entries place := by
  cases l with
  | mutex m =>
    have hl : (k.mutexInit m).locks = (k.setMutex m ⟨false, true, none, []⟩).locks := by
      unfold mutexInit
      dsimp only
      split <;> rfl
    rw [lazyInit, entries_of_locks hl] at h
    rcases mem_setMutex h with e | ⟨_, e⟩ | ⟨_, e⟩
    · exact e
    · cases e
    · cases e
  | sem s =>
    rcases mem_setSem h with e | ⟨_, e⟩
    · exact e
    · cases e
  | read r | write r =>
    rcases mem_setRwlock h with e | ⟨_, e⟩ | ⟨_, e⟩ | ⟨_, e⟩
    · exact e
    · cases e
    · cases e
    · cases e

/-- An acquiring call puts nobody but its caller into a lock. -/
theorem attempt_entries {l : Lock} (h : p ∈ (k.attempt l).2.entries place) :
    p ∈ k.entries place ∨ p = k.current := by
  cases l with
  | mutex m =>
    simp only [attempt, mutexAttempt] at h
    split at h
    · rw [entries_of_locks (ownerAdd_locks _ _ _)] at h
      rcases mem_setMutex h with e | ⟨_, e⟩ | ⟨rfl, e⟩
      · exact .inl e
      · exact .inr (Option.some.inj e).symm
      · exact .inl e
    · split at h
      · exact .inl h
      · rename_i q hq
        rw [entries_of_locks ((blockForever_locks _).trans ((boostOwner_locks _ _).trans
          (modify_locks _ _ _)))] at h
        rcases mem_setMutex h with e | ⟨rfl, e⟩ | ⟨rfl, e⟩
        · exact .inl e
        · exact .inl (by simpa [entries] using e)
        · exact mem_waitqAdd hq e
  | sem s =>
    simp only [attempt, semAttempt] at h
    split at h
    · rcases mem_setSem h with e | ⟨rfl, e⟩
      · exact .inl e
      · exact .inl e
    · split at h
      · exact .inl h
      · rename_i q hq
        rw [entries_of_locks (blockForever_locks _)] at h
        rcases mem_setSem h with e | ⟨rfl, e⟩
        · exact .inl e
        · exact mem_waitqAdd hq e
  | read r =>
    simp only [attempt, readAttempt] at h
    split at h
    · rw [addReader, entries_of_locks (modify_locks _ _ _)] at h
      rcases mem_setRwlock h with e | ⟨rfl, e⟩ | ⟨rfl, e⟩ | ⟨rfl, e⟩
      · exact .inl e
      · exact .inl (by simpa [entries] using e)
      · exact .inl e
      · exact .inl e
    · rw [entries_of_locks (blockForever_locks _)] at h
      rcases mem_setRwlock h with e | ⟨rfl, e⟩ | ⟨rfl, e⟩ | ⟨rfl, e⟩
      · exact .inl e
      · exact .inl (by simpa [entries] using e)
      · exact mem_waitqAdd_getD e
      · exact .inl e
  | write r =>
    simp only [attempt, writeAttempt] at h
    split at h
    · rcases mem_setRwlock h with e | ⟨rfl, e⟩ | ⟨rfl, e⟩ | ⟨rfl, e⟩
      · exact .inl e
      · exact .inr (Option.some.inj e).symm
      · exact .inl e
      · exact .inl e
    · rw [entries_of_locks (blockForever_locks _)] at h
      rcases mem_setRwlock h with e | ⟨rfl, e⟩ | ⟨rfl, e⟩ | ⟨rfl, e⟩
      · exact .inl e
      · exact .inl (by simpa [entries] using e)
      · exact .inl e
      · exact mem_waitqAdd_getD e

theorem addReader_entries {r : Nat} {c : PcbRef} (h : p ∈ (k.addReader r c).entries place) :
    p ∈ k.entries place := by
  rw [addReader, entries_of_locks (modify_locks _ _ _)] at h
  rcases mem_setRwlock h with e | ⟨rfl, e⟩ | ⟨rfl, e⟩ | ⟨rfl, e⟩
  · exact e
  · simpa [entries] using e
  · exact e
  · exact e

theorem admitReaders_entries {r : Nat} {ps : List PcbRef}
    (h : p ∈ (ps.foldl (admitReader r) k).entries place) : p ∈ k.entries place := by
  induction ps generalizing k with
  | nil => exact h
  | cons c ps ih =>
    have h := ih h
    rw [admitReader, entries_of_locks (wake_locks _ _)] at h
    exact addReader_entries h

theorem readRelease_locks (k : Kernel) (r : Nat) :
    ∃ x : Rwlock, (k.readRelease r).locks = (k.setRwlock r x).locks ∧
      x.writer = (k.rwlocks r).writer ∧ x.readerWaiters = (k.rwlocks r).readerWaiters ∧
      ∀ q ∈ x.writerWaiters, q ∈ (k.rwlocks r).writerWaiters := by
  unfold readRelease
  dsimp only
  split
  · split
    · exact ⟨_, rfl, rfl, rfl, fun _ hq => hq⟩
    · rename_i next rest hq
      exact ⟨_, wake_locks _ _, rfl, rfl, fun q hr => hq ▸ List.mem_cons_of_mem _ hr⟩
  · exact ⟨_, rfl, rfl, rfl, fun _ hq => hq⟩

theorem readRelease_entries {r : Nat} (h : p ∈ (k.readRelease r).entries place) :
    p ∈ k.entries place := by
  obtain ⟨x, hl, hw, hr, hq⟩ := readRelease_locks k r
  rw [entries_of_locks hl] at h
  rcases mem_setRwlock h with e | ⟨rfl, e⟩ | ⟨rfl, e⟩ | ⟨rfl, e⟩
  · exact e
  · simpa [entries, ← hw] using e
  · simpa [entries, ← hr] using e
  · exact hq p e

/-- A releasing call moves entries from a queue to the place it serves. -/
theorem release_entries {l : Lock} (h : p ∈ (k.release l).entries place) :
    p ∈ k.entries place ∨ p ∈ k.entries place.queue := by
  cases l with
  | mutex m =>
    simp only [release, mutexRelease] at h
    split at h
    · rw [entries_of_locks (recomputePriority_locks _ _)] at h
      rcases mem_setMutex h with e | ⟨_, e⟩ | ⟨rfl, e⟩
      · exact .inl e
      · cases e
      · exact .inl e
    · rename_i next rest hq
      rw [entries_of_locks ((recomputePriority_locks _ _).trans ((wake_locks _ _).trans
        ((ownerAdd_locks _ _ _).trans (modify_locks _ _ _))))] at h
      rcases mem_setMutex h with e | ⟨rfl, e⟩ | ⟨rfl, e⟩
      · exact .inl e
      · cases e
        exact .inr (by simp [Place.queue, entries, hq])
      · exact .inl (by simp [entries, hq, show p ∈ rest from e])
  | sem s =>
    simp only [release, semRelease] at h
    split at h
    · rcases mem_setSem h with e | ⟨rfl, e⟩
      · exact .inl e
      · exact .inl e
    · rename_i next rest hq
      rw [entries_of_locks (wake_locks _ _)] at h
      rcases mem_setSem h with e | ⟨rfl, e⟩
      · exact .inl e
      · exact .inl (by simp [entries, hq, show p ∈ rest from e])
  | read r => exact .inl (readRelease_entries h)
  | write r =>
    simp only [release, writeRelease] at h
    split at h
    · rename_i next rest hq
      rw [entries_of_locks (wake_locks _ _)] at h
      rcases mem_setRwlock h with e | ⟨rfl, e⟩ | ⟨rfl, e⟩ | ⟨rfl, e⟩
      · exact .inl e
      · cases e
        exact .inr (by simp [Place.queue, entries, hq])
      · exact .inl e
      · exact .inl (by simp [entries, hq, show p ∈ rest from e])
    · rcases mem_setRwlock (admitReaders_entries h) with e | ⟨rfl, e⟩ | ⟨rfl, e⟩ | ⟨rfl, e⟩
      · exact .inl e
      · cases e
      · cases e
      · exact .inl e

/-- What one section can put into a lock. -/
theorem advance_entries {point : Point} (h : p ∈ (k.advance point).2.entries place) :
    p ∈ k.entries place ∨ p ∈ k.entries place.queue ∨
      (p = k.current ∧ ∃ l, point = .attempt l) := by
  cases point with
  | init l => exact .inl (lazyInit_entries h)
  | attempt l =>
    have h : p ∈ (k.attempt l).2.entries place := by
      simp only [advance] at h
      split at h <;> rename_i he <;> rw [he] <;> exact h
    rcases attempt_entries h with h | h
    · exact .inl h
    · exact .inr (.inr ⟨h, l, rfl⟩)
  | check l =>
    simp only [advance] at h
    split at h
    · have hl : (k.settle l).locks = k.locks := by cases l <;> rfl
      rw [entries_of_locks hl] at h
      exact .inl h
    · exact .inl h
  | signalInit s => exact .inl (lazyInit_entries (l := .sem s) h)
  | release l =>
    rcases release_entries h with h | h
    · exact .inl h
    · exact .inr (.inl h)
  | run | full l | wait l => exact .inl h

end Entries

/-- One section leaves the processes alone but for blocking its caller, waking
waiters and setting priorities. -/
theorem advance_frame (k : Kernel) {point : Point} (h : k.ShellOwnsNone)
    (ht : k.cur.state ≠ .terminated) (hc : (∃ m, point = .release (.mutex m)) → k.current ≠ 0) :
    LockFrame k (k.advance point).2 := by
  cases point with
  | init l => exact lazyInit_frame k l
  | attempt l =>
    have hf := attempt_frame k h ht l
    simp only [advance]
    split <;> rename_i he <;> rw [he] at hf <;> exact hf
  | check l =>
    simp only [advance]
    split
    · exact settle_frame k l
    · exact .refl k
  | signalInit s => exact lazyInit_frame k (.sem s)
  | release l =>
    refine release_frame k l ?_
    rintro ⟨m, rfl⟩
    exact hc ⟨m, rfl⟩
  | run | full l | wait l => exact .refl k

end Kernel

end SengOS
