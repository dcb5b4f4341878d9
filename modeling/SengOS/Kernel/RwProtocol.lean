import SengOS.Kernel.Waiting
import SengOS.Lib.ReadersWriters

/-!
# The reader-writer lock

Runs of the four calls of `rwlock.c` cut at their sections. Seen from outside
the lock is the protocol of readers and writers: every section is one of its
steps, and the counter of the lock is the number of processes in the read
section.
-/

namespace SengOS

/-- Before the section of an acquiring call. -/
def Point.Tries (point : Point) (l : Lock) : Prop :=
  point = .init l ∨ point = .attempt l ∨ point = .full l

/-- In one of the calls at reader-writer lock `r`. -/
def Point.AtRw (point : Point) (r : Nat) : Prop :=
  point.lock? = some (.read r) ∨ point.lock? = some (.write r)

theorem Point.Tries.lock? {point : Point} {l : Lock} (h : point.Tries l) : point.lock? = some l := by
  rcases h with rfl | rfl | rfl <;> rfl

theorem afterYield_tries {point : Point} {l : Lock} : point.afterYield.Tries l ↔ point.Tries l := by
  cases point <;> simp [Point.afterYield, Point.Tries]

namespace Kernel

/-! ## The sections -/

section Values
variable {k : Kernel} {r : Nat}

theorem setRwlock_self (k : Kernel) (r : Nat) (v : Rwlock) : (k.setRwlock r v).rwlocks r = v :=
  Function.update_self _ _ _

theorem blockForever_rwlocks (k : Kernel) : k.schedulerBlockForever.rwlocks = k.rwlocks :=
  congrArg (fun l => l.2.2) (blockForever_locks k)

theorem wake_rwlocks (k : Kernel) (p : PcbRef) : (k.schedulerWake p).rwlocks = k.rwlocks :=
  congrArg (fun l => l.2.2) (wake_locks k p)

theorem addReader_rwlock (k : Kernel) (r : Nat) (p : PcbRef) :
    (k.addReader r p).rwlocks r = { k.rwlocks r with readers := (k.rwlocks r).readers + 1#32 } := by
  rw [addReader, modify_rwlocks, setRwlock_self]

theorem readAttempt_got (h : (k.readAttempt r).1 = .got) :
    (k.rwlocks r).writer = none ∧ (k.rwlocks r).writerWaiters = [] ∧
      (k.readAttempt r).2.rwlocks r = { k.rwlocks r with readers := (k.rwlocks r).readers + 1#32 } := by
  unfold readAttempt at h ⊢
  dsimp only at h ⊢
  split at h
  · rename_i hc
    rw [if_pos hc]
    simp only [Bool.and_eq_true, Option.isNone_iff_eq_none, List.isEmpty_iff] at hc
    exact ⟨hc.1, hc.2, addReader_rwlock k r _⟩
  · cases h

theorem readAttempt_waits (h : (k.readAttempt r).1 = .waits) :
    ((k.rwlocks r).writer ≠ none ∨ (k.rwlocks r).writerWaiters ≠ []) ∧
      ∃ q, (k.readAttempt r).2.rwlocks r = { k.rwlocks r with readerWaiters := q } := by
  unfold readAttempt at h ⊢
  dsimp only at h ⊢
  split at h
  · cases h
  · rename_i hc
    rw [if_neg hc]
    simp only [Bool.and_eq_true, Option.isNone_iff_eq_none, List.isEmpty_iff, not_and_or] at hc
    exact ⟨hc, _, by rw [blockForever_rwlocks, setRwlock_self]⟩

/-- Where the queue has room, the waiting reader is its last entry. -/
theorem readAttempt_queues (h : (k.readAttempt r).1 = .waits)
    (joins : Joins k (.read r) (k.attempt (.read r)).2) : (k.readAttempt r).2.rwlocks r =
      { k.rwlocks r with readerWaiters := (k.rwlocks r).readerWaiters ++ [k.current] } := by
  obtain ⟨-, q, hval⟩ := readAttempt_waits h
  have hjoin := joins.queue
  simp only [waiters, attempt, hval] at hjoin
  rw [hval, hjoin]

theorem writeAttempt_got (h : (k.writeAttempt r).1 = .got) :
    (k.rwlocks r).writer = none ∧ (k.rwlocks r).readers = 0#32 ∧
      (k.writeAttempt r).2.rwlocks r = { k.rwlocks r with writer := some k.current } := by
  unfold writeAttempt at h ⊢
  dsimp only at h ⊢
  split at h
  · rename_i hc
    rw [if_pos hc]
    simp only [Bool.and_eq_true, Option.isNone_iff_eq_none, beq_iff_eq] at hc
    exact ⟨hc.1, hc.2, setRwlock_self k r _⟩
  · cases h

theorem writeAttempt_waits (h : (k.writeAttempt r).1 = .waits) :
    ((k.rwlocks r).writer ≠ none ∨ (k.rwlocks r).readers ≠ 0#32) ∧
      ∃ q, (k.writeAttempt r).2.rwlocks r = { k.rwlocks r with writerWaiters := q } := by
  unfold writeAttempt at h ⊢
  dsimp only at h ⊢
  split at h
  · cases h
  · rename_i hc
    rw [if_neg hc]
    simp only [Bool.and_eq_true, Option.isNone_iff_eq_none, beq_iff_eq, not_and_or] at hc
    exact ⟨hc, _, by rw [blockForever_rwlocks, setRwlock_self]⟩

theorem writeAttempt_queues (h : (k.writeAttempt r).1 = .waits)
    (joins : Joins k (.write r) (k.attempt (.write r)).2) : (k.writeAttempt r).2.rwlocks r =
      { k.rwlocks r with writerWaiters := (k.rwlocks r).writerWaiters ++ [k.current] } := by
  obtain ⟨-, q, hval⟩ := writeAttempt_waits h
  have hjoin := joins.queue
  simp only [waiters, attempt, hval] at hjoin
  rw [hval, hjoin]

theorem readRelease_rwlock (k : Kernel) (r : Nat) :
    ∃ q, (k.readRelease r).rwlocks r = { dropReader (k.rwlocks r) with writerWaiters := q } := by
  unfold readRelease
  dsimp only
  generalize hk₁ : (k.modify k.current fun q => { q with rwReadLocks := q.rwReadLocks - 1#8 }) = k₁
  have hrw : k₁.rwlocks = k.rwlocks := by rw [← hk₁, modify_rwlocks]
  rw [hrw]
  by_cases hl : (dropReader (k.rwlocks r)).readers = 0#32 ∧ (dropReader (k.rwlocks r)).writer = none
  · rw [if_pos hl]
    cases (dropReader (k.rwlocks r)).writerWaiters with
    | nil => exact ⟨_, setRwlock_self _ r _⟩
    | cons next rest => exact ⟨rest, by rw [wake_rwlocks, setRwlock_self]⟩
  · rw [if_neg hl]
    exact ⟨_, setRwlock_self _ r _⟩

theorem writeRelease_hand {next : PcbRef} {rest : List PcbRef}
    (h : (k.rwlocks r).writerWaiters = next :: rest) :
    (k.writeRelease r).rwlocks r =
      { k.rwlocks r with writer := some next, writerWaiters := rest } := by
  unfold writeRelease
  dsimp only
  rw [h]
  dsimp only
  rw [wake_rwlocks, setRwlock_self]

theorem admitReaders_rwlock (r : Nat) (ps : List PcbRef) (k : Kernel) :
    (ps.foldl (admitReader r) k).rwlocks r =
      { k.rwlocks r with readers := (k.rwlocks r).readers + BitVec.ofNat 32 ps.length } := by
  induction ps generalizing k with
  | nil => simp
  | cons p ps ih =>
    rw [List.foldl_cons, ih, admitReader, wake_rwlocks, addReader_rwlock, List.length_cons,
      Nat.add_comm ps.length, BitVec.ofNat_add, BitVec.add_assoc]

theorem writeRelease_letIn (h : (k.rwlocks r).writerWaiters = []) :
    (k.writeRelease r).rwlocks r =
      { k.rwlocks r with
        writer := none
        readerWaiters := []
        readers := (k.rwlocks r).readers + BitVec.ofNat 32 (k.rwlocks r).readerWaiters.length } := by
  unfold writeRelease
  dsimp only
  rw [h]
  dsimp only
  rw [admitReaders_rwlock, setRwlock_self]

/-- The processes that a section takes out of a queue. -/
def leaving (k k' : Kernel) (l : Lock) : List PcbRef := (k.waiters l).filter (· ∉ k'.waiters l)

theorem Wakes.leaving {k' : Kernel} {l : Lock} {out : List PcbRef} (h : Wakes k l out k')
    (hq : (k.waiters l).Nodup) : k.leaving k' l = out := by
  rw [h.queue] at hq
  rw [Kernel.leaving, h.queue, List.filter_append, List.filter_eq_self.mpr, List.filter_eq_nil_iff.mpr,
    List.append_nil]
  · intro p hp
    simpa using hp
  · intro p hp
    simpa using List.disjoint_of_nodup_append hq hp

theorem Wakes.leaving_beside {k' : Kernel} {l : Lock} {out : List PcbRef} (h : Wakes k l out k')
    (l' : Lock) (hl : l' ≠ l) : k.leaving k' l' = [] := by
  rw [Kernel.leaving, h.beside l' hl]
  exact List.filter_eq_nil_iff.mpr fun p hp => by simpa using hp

end Values

end Kernel

/-- Who is in the two sections of a reader-writer lock, and the writers that
`rwlock_read_unlock` woke and that have not tried again. -/
structure RwLog where
  inside : List PcbRef
  writing : List PcbRef
  woken : List PcbRef

def RwLog.empty : RwLog := ⟨[], [], []⟩

namespace OsState

/-- A section of a call at lock `r` notes whom it lets in, whom it takes out and whom it wakes. -/
def noteRw (r : Nat) (s : OsState) (a : Action) (log : RwLog) : RwLog :=
  let k := s.kernel
  match a with
  | .proceed =>
    if s.here = .attempt (.read r) then
      if (k.readAttempt r).1 = .got then { log with inside := log.inside ++ [k.current] } else log
    else if s.here = .attempt (.write r) then
      { log with
        writing := if (k.writeAttempt r).1 = .got then log.writing ++ [k.current] else log.writing
        woken := log.woken.filter (· ≠ k.current) }
    else if s.here = .release (.read r) then
      { log with
        inside := log.inside.erase k.current
        woken := log.woken ++ k.leaving (k.readRelease r) (.write r) }
    else if s.here = .release (.write r) then
      { log with
        inside := log.inside ++ k.leaving (k.writeRelease r) (.read r)
        writing := log.writing.erase k.current ++ k.leaving (k.writeRelease r) (.write r) }
    else log
  | _ => log

/-- The lock is as `rwlock_init` leaves it. -/
def Vacant (s : OsState) (r : Nat) : Prop :=
  (s.kernel.rwlocks r).readers = 0#32 ∧ (s.kernel.rwlocks r).writer = none ∧
    (s.kernel.rwlocks r).readerWaiters = [] ∧ (s.kernel.rwlocks r).writerWaiters = []

/-- The runs of one reader-writer lock: its processes release what they hold and
nothing else, they do not acquire what they hold, and they do not end while they
hold it or are in a call. It is not initialised while it is in use. -/
def RwRun (r : Nat) (x : OsState × RwLog) (a : Action) : Prop :=
  x.1.CallRun a ∧
    (∀ p, x.1.Ends a p → p ∉ x.2.inside ∧ p ∉ x.2.writing ∧ ¬ (x.1.point p).AtRw r) ∧
    match a with
    | .rwlockInit n => n = r → x.1.Vacant r
    | .acquire l => l = .read r ∨ l = .write r →
        x.1.kernel.current ∉ x.2.inside ∧ x.1.kernel.current ∉ x.2.writing
    | .unlock l => (l = .read r → x.1.kernel.current ∈ x.2.inside) ∧
        (l = .write r → x.1.kernel.current ∈ x.2.writing)
    | .proceed => x.1.here = .init (.read r) ∨ x.1.here = .init (.write r) → x.1.Vacant r
    | _ => True

/-- The lock as readers and writers see it. -/
def view (r : Nat) (s : OsState) (log : RwLog) : ReadersWriters PcbRef where
  writer := (s.kernel.rwlocks r).writer
  inside := log.inside
  readers := (s.kernel.rwlocks r).readerWaiters
  writers := (s.kernel.rwlocks r).writerWaiters
  woken := log.woken

/-- What the point of a process says about its part in the lock. -/
structure Stands (r : Nat) (rw : Rwlock) (log : RwLog) (p : PcbRef) (point : Point) : Prop where
  tries : point.Tries (.read r) → p ∉ log.inside
  reads : point = .release (.read r) → p ∈ log.inside
  writes : point = .release (.write r) → rw.writer = some p

/-- A writer that runs, or will run, its loop again. -/
structure Returning (r : Nat) (s : OsState) (p : PcbRef) : Prop where
  awake : (s.kernel.pcbs p).state ≠ .blocked
  alive : (s.kernel.pcbs p).state ≠ .terminated
  point : (s.point p).Waits (.write r) ∨ s.point p = .attempt (.write r)

/-- What holds at reader-writer lock `r`, whose notes are `log`. -/
structure RwAt (r : Nat) (s : OsState) (log : RwLog) : Prop where
  protocol : (view r s log).Inv
  count : (s.kernel.rwlocks r).readers.toNat = log.inside.length
  writing : log.writing = (s.kernel.rwlocks r).writer.toList
  stands : ∀ p, Stands r (s.kernel.rwlocks r) log p (s.point p)
  woken : ∀ p ∈ log.woken, Returning r s p ∧ (s.kernel.rwlocks r).writer ≠ some p
  alive : ∀ p, p ∈ log.inside ∨ p ∈ log.writing → (s.kernel.pcbs p).state ≠ .terminated

section
variable {r : Nat} {s s' : OsState} {log : RwLog} {rw : Rwlock} {p : PcbRef} {point : Point}

theorem Stands.elsewhere (h : ¬ point.AtRw r) : Stands r rw log p point where
  tries := fun ht => absurd (.inl ht.lock?) h
  reads := fun hp => absurd (.inl (by rw [hp]; rfl)) h
  writes := fun hp => absurd (.inr (by rw [hp]; rfl)) h

theorem Stands.afterYield (h : Stands r rw log p point) : Stands r rw log p point.afterYield where
  tries := fun ht => h.tries (afterYield_tries.mp ht)
  reads := fun hp => h.reads (afterYield_release.mp hp)
  writes := fun hp => h.writes (afterYield_release.mp hp)

theorem Returning.atRw (h : Returning r s p) : (s.point p).AtRw r := by
  rcases h.point with hw | hw
  · exact .inr hw.lock?
  · exact .inr (by rw [hw]; rfl)

theorem Returning.quiet (h : Returning r s p) {ends : PcbRef → Prop} (hq : Quiet s s' ends)
    (hends : ¬ ends p) : Returning r s' p := by
  have hpoint : (s'.point p).Waits (.write r) ∨ s'.point p = .attempt (.write r) := by
    rcases hq.point p with hp | hp | ⟨_, ht⟩
    · rw [hp]
      exact h.point
    · rw [hp]
      exact h.point.imp afterYield_waits.mpr fun hw => by rw [hw]; rfl
    · exact absurd ht h.alive
  refine ⟨fun hb => h.awake (hq.unblocked p hb ?_), hq.stays p hends h.alive, hpoint⟩
  rcases hpoint with hw | hw
  · exact hw.ne_run
  · rw [hw]
    nofun

/-- A step that leaves the lock and its notes alone. -/
theorem RwAt.frame (h : RwAt r s log) {init : Bool}
    (hrw : s'.kernel.rwlocks r = { s.kernel.rwlocks r with initialized := init })
    (hpoint : ∀ p, s'.point p = s.point p ∨ s'.point p = (s.point p).afterYield ∨
      Stands r (s.kernel.rwlocks r) log p (s'.point p))
    (hwoken : ∀ p ∈ log.woken, Returning r s' p)
    (halive : ∀ p, p ∈ log.inside ∨ p ∈ log.writing → (s'.kernel.pcbs p).state ≠ .terminated) :
    RwAt r s' log := by
  have hview : view r s' log = view r s log := by
    simp only [view, hrw]
  constructor
  case protocol => rw [hview]; exact h.protocol
  case count => rw [hrw]; exact h.count
  case writing => rw [hrw]; exact h.writing
  case stands =>
    intro p
    have hstands : Stands r (s.kernel.rwlocks r) log p (s'.point p) := by
      rcases hpoint p with hp | hp | hp
      · rw [hp]
        exact h.stands p
      · rw [hp]
        exact (h.stands p).afterYield
      · exact hp
    exact ⟨hstands.tries, hstands.reads, fun hw => by rw [hrw]; exact hstands.writes hw⟩
  case woken =>
    intro p hp
    refine ⟨hwoken p hp, ?_⟩
    rw [hrw]
    exact (h.woken p hp).2
  case alive => exact halive

theorem RwAt.beside (h : RwAt r s log) {ends : PcbRef → Prop} (hq : Quiet s s' ends)
    (hends : ∀ p, ends p → p ∉ log.inside ∧ p ∉ log.writing ∧ ¬ (s.point p).AtRw r) :
    RwAt r s' log := by
  have hrw : s'.kernel.rwlocks = s.kernel.rwlocks := congrArg (fun l => l.2.2) hq.locks
  refine h.frame (by rw [hrw]) (fun p => ?_) (fun p hp => ?_) fun p hp => ?_
  · rcases hq.point p with hp | hp | ⟨hp, _⟩
    · exact .inl hp
    · exact .inr (.inl hp)
    · right
      right
      rw [hp]
      exact .elsewhere (by rintro (h | h) <;> cases h)
  · have hret := (h.woken p hp).1
    exact hret.quiet hq fun he => (hends p he).2.2 hret.atRw
  · refine hq.stays p (fun he => ?_) (h.alive p hp)
    rcases hp with hp | hp
    · exact (hends p he).1 hp
    · exact (hends p he).2.1 hp

/-! ## The sections as steps of the protocol -/

/-- The running process ran a section and is at `point` now. -/
structure Ran (s s' : OsState) (point : Point) : Prop where
  point : s'.point = Function.update s.point s.kernel.current point
  awake : ∀ p, p ≠ s.kernel.current → (s.kernel.pcbs p).state ≠ .blocked →
    (s'.kernel.pcbs p).state = (s.kernel.pcbs p).state
  alive : ∀ p, (s.kernel.pcbs p).state ≠ .terminated → (s'.kernel.pcbs p).state ≠ .terminated

theorem Ran.self (h : Ran s s' point) : s'.point s.kernel.current = point := by
  rw [h.point, Function.update_self]

theorem Ran.others (h : Ran s s' point) (hp : p ≠ s.kernel.current) : s'.point p = s.point p := by
  rw [h.point, Function.update_of_ne hp]

theorem Ran.returning (h : Ran s s' point) (hp : p ≠ s.kernel.current) (hret : Returning r s p) :
    Returning r s' p := by
  have hstate := h.awake p hp hret.awake
  constructor
  case awake => rw [hstate]; exact hret.awake
  case alive => rw [hstate]; exact hret.alive
  case point => rw [h.others hp]; exact hret.point

/-- A section between the readers and writers of other locks. -/
theorem RwAt.ran (h : RwAt r s log) (hran : Ran s s' point) {init : Bool}
    (hrw : s'.kernel.rwlocks r = { s.kernel.rwlocks r with initialized := init })
    (hcur : Stands r (s.kernel.rwlocks r) log s.kernel.current point)
    (hret : s.kernel.current ∈ log.woken → Returning r s' s.kernel.current) : RwAt r s' log := by
  refine h.frame hrw (fun p => ?_) (fun p hp => ?_) fun p hp => hran.alive p (h.alive p hp)
  · by_cases hp : p = s.kernel.current
    · rw [hp, hran.self]
      exact .inr (.inr hcur)
    · exact .inl (hran.others hp)
  · by_cases hpc : p = s.kernel.current
    · subst hpc
      exact hret hp
    · exact hran.returning hpc (h.woken p hp).1

theorem Returning.ne_current (h : Returning r s p) (here : s.here = point)
    (hw : ¬ point.Waits (.write r)) (ha : point ≠ .attempt (.write r)) : p ≠ s.kernel.current := by
  rintro rfl
  rcases h.point with hp | hp
  · exact hw (by rwa [← here])
  · exact ha (by rw [← here]; exact hp)

theorem RwAt.inside_le (h : RwAt r s log) : log.inside.length ≤ 16 := by
  have hlen := h.protocol.nodup.of_append_left.length_le_card
  rwa [Fintype.card_fin] at hlen

theorem RwAt.empty_iff (h : RwAt r s log) : (s.kernel.rwlocks r).readers = 0#32 ↔ log.inside = [] := by
  rw [← List.length_eq_zero_iff, ← h.count, ← BitVec.toNat_inj]
  rfl

theorem Stands.run : Stands r rw log p .run := .elsewhere (by rintro (h | h) <;> cases h)

/-- `rwlock_read_lock` goes in. -/
theorem RwAt.admits (h : RwAt r s log) (here : s.here = .attempt (.read r))
    (hr : s.kernel.cur.state = .running) (hout : s.kernel.current ∉ (s.kernel.rwlocks r).readerWaiters)
    (free : (s.kernel.rwlocks r).writer = none) (nobody : (s.kernel.rwlocks r).writerWaiters = [])
    (hrw : s'.kernel.rwlocks r =
      { s.kernel.rwlocks r with readers := (s.kernel.rwlocks r).readers + 1#32 })
    (hran : Ran s s' .run) :
    RwAt r s' { log with inside := log.inside ++ [s.kernel.current] } := by
  have hnew : s.kernel.current ∉ log.inside := (h.stands s.kernel.current).tries (.inr (.inl here))
  have hview : view r s' { log with inside := log.inside ++ [s.kernel.current] } =
      { view r s log with inside := log.inside ++ [s.kernel.current] } := by
    simp only [view, hrw]
  constructor
  case protocol =>
    rw [hview]
    apply h.protocol.step
    apply ReadersWriters.Step.join s.kernel.current free nobody
    exact fun hin => (List.mem_append.mp hin).elim hnew hout
  case count =>
    have hcount := h.count
    have hle := h.inside_le
    rw [hrw, List.length_append, List.length_singleton, BitVec.toNat_add, hcount, BitVec.toNat_ofNat]
    omega
  case writing => rw [hrw]; exact h.writing
  case stands =>
    intro p
    by_cases hp : p = s.kernel.current
    · rw [hp, hran.self]
      exact .run
    · rw [hran.others hp, hrw]
      have hst := h.stands p
      refine ⟨fun ht hin => ?_, fun hpt => List.mem_append_left _ (hst.reads hpt), hst.writes⟩
      rcases List.mem_append.mp hin with hin | hin
      · exact hst.tries ht hin
      · exact hp (List.mem_singleton.mp hin)
  case woken =>
    intro p hp
    obtain ⟨hret, hwriter⟩ := h.woken p hp
    have hpc := hret.ne_current here (by rintro (h | h) <;> cases h) nofun
    exact ⟨hran.returning hpc hret, by rw [hrw]; exact hwriter⟩
  case alive =>
    intro p hp
    apply hran.alive
    rcases hp with hp | hp
    · rcases List.mem_append.mp hp with hp | hp
      · exact h.alive p (.inl hp)
      · rw [List.mem_singleton.mp hp, show (s.kernel.pcbs s.kernel.current).state = _ from hr]
        decide
    · exact h.alive p (.inr hp)

/-- `rwlock_read_lock` queues its process. -/
theorem RwAt.queuesReader (h : RwAt r s log) (here : s.here = .attempt (.read r))
    (hout : s.kernel.current ∉ (s.kernel.rwlocks r).readerWaiters)
    (held : (s.kernel.rwlocks r).writer ≠ none ∨ (s.kernel.rwlocks r).writerWaiters ≠ [])
    (hrw : s'.kernel.rwlocks r = { s.kernel.rwlocks r with
      readerWaiters := (s.kernel.rwlocks r).readerWaiters ++ [s.kernel.current] })
    (hran : Ran s s' (.wait (.read r))) : RwAt r s' log := by
  have hnew : s.kernel.current ∉ log.inside := (h.stands s.kernel.current).tries (.inr (.inl here))
  have hview : view r s' log = { view r s log with
      readers := (view r s log).readers ++ [s.kernel.current] } := by
    simp only [view, hrw]
  constructor
  case protocol =>
    rw [hview]
    apply h.protocol.step
    apply ReadersWriters.Step.queueReader s.kernel.current held
    exact fun hin => (List.mem_append.mp hin).elim hnew hout
  case count => rw [hrw]; exact h.count
  case writing => rw [hrw]; exact h.writing
  case stands =>
    intro p
    rw [hrw]
    by_cases hp : p = s.kernel.current
    · rw [hp, hran.self]
      exact ⟨fun _ => hnew, nofun, nofun⟩
    · rw [hran.others hp]
      have hst := h.stands p
      exact ⟨hst.tries, hst.reads, hst.writes⟩
  case woken =>
    intro p hp
    obtain ⟨hret, hwriter⟩ := h.woken p hp
    have hpc := hret.ne_current here (by rintro (h | h) <;> cases h) nofun
    exact ⟨hran.returning hpc hret, by rw [hrw]; exact hwriter⟩
  case alive => exact fun p hp => hran.alive p (h.alive p hp)

/-- `rwlock_write_lock` goes in. -/
theorem RwAt.takes (h : RwAt r s log) (hr : s.kernel.cur.state = .running)
    (free : (s.kernel.rwlocks r).writer = none) (empty : (s.kernel.rwlocks r).readers = 0#32)
    (hrw : s'.kernel.rwlocks r = { s.kernel.rwlocks r with writer := some s.kernel.current })
    (hran : Ran s s' .run) :
    RwAt r s' { log with
      writing := log.writing ++ [s.kernel.current]
      woken := log.woken.filter (· ≠ s.kernel.current) } := by
  have hwriting : log.writing = [] := by rw [h.writing, free]; rfl
  have hview : view r s' { log with
      writing := log.writing ++ [s.kernel.current]
      woken := log.woken.filter (· ≠ s.kernel.current) } = { view r s log with
        writer := some s.kernel.current
        woken := (view r s log).woken.filter (· ≠ s.kernel.current) } := by
    simp only [view, hrw]
  constructor
  case protocol =>
    rw [hview]
    exact h.protocol.step (.take s.kernel.current free (h.empty_iff.mp empty))
  case count => rw [hrw]; exact h.count
  case writing => rw [hrw, hwriting]; rfl
  case stands =>
    intro p
    by_cases hp : p = s.kernel.current
    · rw [hp, hran.self]
      exact .run
    · rw [hran.others hp]
      have hst := h.stands p
      refine ⟨hst.tries, hst.reads, fun hpt => ?_⟩
      have hw := hst.writes hpt
      rw [free] at hw
      cases hw
  case woken =>
    intro p hp
    obtain ⟨hp, hpc⟩ := List.mem_filter.mp hp
    have hpc : p ≠ s.kernel.current := by simpa using hpc
    refine ⟨hran.returning hpc (h.woken p hp).1, ?_⟩
    rw [hrw]
    exact fun hw => hpc (Option.some.inj hw).symm
  case alive =>
    intro p hp
    apply hran.alive
    rcases hp with hp | hp
    · exact h.alive p (.inl hp)
    · rw [hwriting] at hp
      rw [List.mem_singleton.mp hp, show (s.kernel.pcbs s.kernel.current).state = _ from hr]
      decide

/-- `rwlock_write_lock` queues its process. -/
theorem RwAt.queuesWriter (h : RwAt r s log)
    (held : (s.kernel.rwlocks r).writer ≠ none ∨ (s.kernel.rwlocks r).readers ≠ 0#32)
    (hrw : s'.kernel.rwlocks r = { s.kernel.rwlocks r with
      writerWaiters := (s.kernel.rwlocks r).writerWaiters ++ [s.kernel.current] })
    (hran : Ran s s' (.wait (.write r))) :
    RwAt r s' { log with woken := log.woken.filter (· ≠ s.kernel.current) } := by
  have hview : view r s' { log with woken := log.woken.filter (· ≠ s.kernel.current) } =
      { view r s log with
        writers := (view r s log).writers ++ [s.kernel.current]
        woken := (view r s log).woken.filter (· ≠ s.kernel.current) } := by
    simp only [view, hrw]
  constructor
  case protocol =>
    rw [hview]
    exact h.protocol.step
      (.queueWriter s.kernel.current (held.imp_right fun he hin => he (h.empty_iff.mpr hin)))
  case count => rw [hrw]; exact h.count
  case writing => rw [hrw]; exact h.writing
  case stands =>
    intro p
    rw [hrw]
    by_cases hp : p = s.kernel.current
    · rw [hp, hran.self]
      exact ⟨(by rintro (h | h | h) <;> cases h), nofun, nofun⟩
    · rw [hran.others hp]
      have hst := h.stands p
      exact ⟨hst.tries, hst.reads, hst.writes⟩
  case woken =>
    intro p hp
    obtain ⟨hp, hpc⟩ := List.mem_filter.mp hp
    have hpc : p ≠ s.kernel.current := by simpa using hpc
    exact ⟨hran.returning hpc (h.woken p hp).1, by rw [hrw]; exact (h.woken p hp).2⟩
  case alive => exact fun p hp => hran.alive p (h.alive p hp)

/-- A process that a section takes out of the writers' queue. -/
theorem Ran.woken (h : Ran s s' point) (hw : s.WaitInv) (hr : s.kernel.cur.state = .running)
    {out : List PcbRef} (hwakes : Kernel.Wakes s.kernel (.write r) out s'.kernel) (hp : p ∈ out) :
    Returning r s' p := by
  have hqueue : p ∈ s.kernel.waiters (.write r) := by
    rw [hwakes.queue]
    exact List.mem_append_left _ hp
  obtain ⟨hb, hwaits⟩ := (hw.queued _ p).mp hqueue
  have hpc : p ≠ s.kernel.current := by
    rintro rfl
    exact hw.running hr _ hqueue
  have hready := hwakes.woken p hp hb
  constructor
  case awake => rw [hready]; decide
  case alive => rw [hready]; decide
  case point => rw [h.others hpc]; exact .inl hwaits

theorem RwAt.free_of_inside (h : RwAt r s log) (hp : p ∈ log.inside) :
    (s.kernel.rwlocks r).writer = none := by
  by_contra hw
  have hempty : log.inside = [] := h.protocol.exclusive hw
  rw [hempty] at hp
  cases hp

theorem RwAt.dropReader_count (h : RwAt r s log) (hp : p ∈ log.inside) :
    (Kernel.dropReader (s.kernel.rwlocks r)).readers.toNat = (log.inside.erase p).length := by
  have hcount := h.count
  have hpos := List.length_pos_of_mem hp
  have hne : (s.kernel.rwlocks r).readers ≠ 0#32 := by
    intro hz
    rw [hz] at hcount
    simp at hcount
    omega
  have hlt := (s.kernel.rwlocks r).readers.isLt
  rw [List.length_erase_of_mem hp, Kernel.dropReader]
  simp only [if_pos hne]
  rw [BitVec.toNat_sub, BitVec.toNat_ofNat]
  omega

/-- `rwlock_read_unlock`: the last reader wakes a writer. -/
theorem RwAt.leaves (h : RwAt r s log) (hw : s.WaitInv) (here : s.here = .release (.read r))
    (hr : s.kernel.cur.state = .running) (hkernel : s'.kernel = s.kernel.readRelease r)
    (hran : Ran s s' .run) :
    RwAt r s' { log with
      inside := log.inside.erase s.kernel.current
      woken := log.woken ++ s.kernel.leaving (s.kernel.readRelease r) (.write r) } := by
  have hin : s.kernel.current ∈ log.inside := (h.stands s.kernel.current).reads here
  have hfree := h.free_of_inside hin
  have hdrop := h.dropReader_count hin
  have hwakes := Kernel.readRelease_wakes (k := s.kernel) r
  rw [hwakes.leaving (hw.nodup _)]
  rw [← hkernel] at hwakes
  have hlast : s.kernel.LastReader r ↔ log.inside.erase s.kernel.current = [] := by
    rw [Kernel.LastReader, ← BitVec.toNat_inj, hdrop, BitVec.toNat_ofNat, Nat.zero_mod,
      List.length_eq_zero_iff]
    exact and_iff_left hfree
  obtain ⟨q, hrw⟩ := Kernel.readRelease_rwlock s.kernel r
  rw [← hkernel] at hrw
  have hqueue : (s.kernel.rwlocks r).writerWaiters =
      (if s.kernel.LastReader r then (s.kernel.rwlocks r).writerWaiters.take 1 else []) ++ q := by
    have hsplit := hwakes.queue
    simp only [Kernel.waiters, hrw] at hsplit
    exact hsplit
  constructor
  case protocol =>
    by_cases hl : s.kernel.LastReader r
    · have hempty := hlast.mp hl
      have hrest : q = (s.kernel.rwlocks r).writerWaiters.drop 1 := by
        rw [if_pos hl] at hqueue
        have happ := (List.take_append_drop 1 (s.kernel.rwlocks r).writerWaiters).trans hqueue
        exact (List.append_cancel_left happ).symm
      have hview : view r s' { log with
          inside := log.inside.erase s.kernel.current
          woken := log.woken ++
            if s.kernel.LastReader r then (s.kernel.rwlocks r).writerWaiters.take 1 else [] } =
          { view r s log with
            inside := []
            writers := (view r s log).writers.drop 1
            woken := (view r s log).woken ++ (view r s log).writers.take 1 } := by
        simp only [view, hrw, Kernel.dropReader, hrest, hempty, if_pos hl]
      rw [hview]
      exact h.protocol.step (.leaveLast s.kernel.current hin hempty)
    · have hmore : log.inside.erase s.kernel.current ≠ [] := fun he => hl (hlast.mpr he)
      have hrest : q = (s.kernel.rwlocks r).writerWaiters := by
        rw [if_neg hl] at hqueue
        exact hqueue.symm
      have hview : view r s' { log with
          inside := log.inside.erase s.kernel.current
          woken := log.woken ++
            if s.kernel.LastReader r then (s.kernel.rwlocks r).writerWaiters.take 1 else [] } =
          { view r s log with inside := (view r s log).inside.erase s.kernel.current } := by
        simp only [view, hrw, Kernel.dropReader, hrest, if_neg hl, List.append_nil]
      rw [hview]
      exact h.protocol.step (.leave s.kernel.current hmore)
  case count => rw [hrw]; exact hdrop
  case writing => rw [hrw]; exact h.writing
  case stands =>
    intro p
    by_cases hp : p = s.kernel.current
    · rw [hp, hran.self]
      exact .run
    · rw [hran.others hp, hrw]
      have hst := h.stands p
      refine ⟨fun ht hin => hst.tries ht (List.mem_of_mem_erase hin), fun hpt => ?_, hst.writes⟩
      exact (List.mem_erase_of_ne hp).mpr (hst.reads hpt)
  case woken =>
    intro p hp
    have hwriter : (s'.kernel.rwlocks r).writer ≠ some p := by
      rw [hrw]
      simp only [Kernel.dropReader, hfree]
      exact (Option.some_ne_none p).symm
    rcases List.mem_append.mp hp with hp | hp
    · have hret := (h.woken p hp).1
      have hpc := hret.ne_current here (by rintro (h | h) <;> cases h) (by rintro ⟨⟩)
      exact ⟨hran.returning hpc hret, hwriter⟩
    · exact ⟨hran.woken hw hr hwakes hp, hwriter⟩
  case alive =>
    intro p hp
    exact hran.alive p (h.alive p (hp.imp_left List.mem_of_mem_erase))

/-- Only the holder of the lock stands before the section of `rwlock_write_unlock`. -/
theorem RwAt.writer_alone (h : RwAt r s log)
    (hwriter : (s.kernel.rwlocks r).writer = some s.kernel.current) {p : PcbRef}
    (hp : p ≠ s.kernel.current) : s.point p ≠ .release (.write r) := by
  intro hpt
  have hsame := (h.stands p).writes hpt
  rw [hwriter] at hsame
  exact hp (Option.some.inj hsame).symm

/-- A releasing process is none of the woken writers, and those go on. -/
theorem RwAt.woken_returning (h : RwAt r s log) {l : Lock} (here : s.here = .release l)
    (hran : Ran s s' .run) {p : PcbRef} (hp : p ∈ log.woken) : Returning r s' p := by
  have hret := (h.woken p hp).1
  exact hran.returning (hret.ne_current here (by rintro (h | h) <;> cases h) nofun) hret

/-- `rwlock_write_unlock` hands the lock to the first waiting writer. -/
theorem RwAt.handsOver (h : RwAt r s log) (hw : s.WaitInv) (here : s.here = .release (.write r))
    (hwriter : (s.kernel.rwlocks r).writer = some s.kernel.current) {next : PcbRef}
    {rest : List PcbRef} (hq : (s.kernel.rwlocks r).writerWaiters = next :: rest)
    (hrw : s'.kernel.rwlocks r =
      { s.kernel.rwlocks r with writer := some next, writerWaiters := rest })
    (hran : Ran s s' .run) : RwAt r s' { log with writing := [next] } := by
  have hheld : (s.kernel.rwlocks r).writer ≠ none := by rw [hwriter]; nofun
  have hnext : next ∈ s.kernel.waiters (.write r) := by
    rw [show s.kernel.waiters (.write r) = _ from hq]
    exact List.mem_cons_self
  have hblocked := ((hw.queued (.write r) next).mp hnext).1
  have hview : view r s' { log with writing := [next] } =
      { view r s log with writer := some next, writers := rest } := by
    simp only [view, hrw]
  constructor
  case protocol =>
    rw [hview]
    exact h.protocol.step (.hand next rest hheld hq)
  case count => rw [hrw]; exact h.count
  case writing => rw [hrw]; rfl
  case stands =>
    intro p
    by_cases hp : p = s.kernel.current
    · rw [hp, hran.self]
      exact .run
    · rw [hran.others hp]
      have hst := h.stands p
      exact ⟨hst.tries, hst.reads, fun hpt => absurd hpt (h.writer_alone hwriter hp)⟩
  case woken =>
    intro p hp
    refine ⟨h.woken_returning here hran hp, ?_⟩
    rw [hrw]
    intro hsame
    obtain rfl : next = p := Option.some.inj hsame
    exact (h.woken next hp).1.awake hblocked
  case alive =>
    intro p hp
    apply hran.alive
    rcases hp with hp | hp
    · exact h.alive p (.inl hp)
    · obtain rfl : p = next := by simpa using hp
      rw [hblocked]
      decide

/-- `rwlock_write_unlock` lets all waiting readers in when no writer waits. -/
theorem RwAt.letsIn (h : RwAt r s log) (hw : s.WaitInv) (here : s.here = .release (.write r))
    (hwriter : (s.kernel.rwlocks r).writer = some s.kernel.current) (hempty : log.inside = [])
    (hnobody : (s.kernel.rwlocks r).writerWaiters = [])
    (hrw : s'.kernel.rwlocks r = (s.kernel.writeRelease r).rwlocks r) (hran : Ran s s' .run) :
    RwAt r s' { log with inside := (s.kernel.rwlocks r).readerWaiters, writing := [] } := by
  have hheld : (s.kernel.rwlocks r).writer ≠ none := by rw [hwriter]; nofun
  rw [Kernel.writeRelease_letIn hnobody] at hrw
  have hview : view r s' { log with inside := (s.kernel.rwlocks r).readerWaiters, writing := [] } =
      { view r s log with
        writer := none
        inside := (view r s log).readers
        readers := [] } := by
    simp only [view, hrw]
  constructor
  case protocol =>
    rw [hview]
    exact h.protocol.step (.letIn hheld hnobody)
  case count =>
    have hlen := (hw.nodup (.read r)).length_le_card
    rw [Fintype.card_fin] at hlen
    rw [hrw, h.empty_iff.mpr hempty, BitVec.zero_add]
    simp only [BitVec.toNat_ofNat]
    exact Nat.mod_eq_of_lt (Nat.lt_of_le_of_lt hlen (by decide))
  case writing => rw [hrw]; rfl
  case stands =>
    intro p
    by_cases hp : p = s.kernel.current
    · rw [hp, hran.self]
      exact .run
    · rw [hran.others hp]
      refine ⟨fun ht hin => ?_, fun hpt => ?_, fun hpt => absurd hpt (h.writer_alone hwriter hp)⟩
      · have hwaits := ((hw.queued (.read r) p).mp hin).2
        rcases ht with ht | ht | ht <;> rw [ht] at hwaits <;> rcases hwaits with hw | hw <;> cases hw
      · have hin := (h.stands p).reads hpt
        rw [hempty] at hin
        cases hin
  case woken =>
    intro p hp
    refine ⟨h.woken_returning here hran hp, ?_⟩
    rw [hrw]
    nofun
  case alive =>
    intro p hp
    apply hran.alive
    rcases hp with hp | hp
    · rw [((hw.queued (.read r) p).mp hp).1]
      decide
    · cases hp

/-- `rwlock_write_unlock`: the first waiting writer gets the lock, else all waiting readers. -/
theorem RwAt.writeLeaves (h : RwAt r s log) (hw : s.WaitInv) (here : s.here = .release (.write r))
    (hkernel : s'.kernel = s.kernel.writeRelease r) (hran : Ran s s' .run) :
    RwAt r s' { log with
      inside := log.inside ++ s.kernel.leaving (s.kernel.writeRelease r) (.read r)
      writing := log.writing.erase s.kernel.current ++
        s.kernel.leaving (s.kernel.writeRelease r) (.write r) } := by
  have hwriter : (s.kernel.rwlocks r).writer = some s.kernel.current :=
    (h.stands s.kernel.current).writes here
  have hempty : log.inside = [] := by
    apply h.protocol.exclusive
    rw [show (view r s log).writer = _ from hwriter]
    nofun
  have hwriting : log.writing.erase s.kernel.current = [] := by
    rw [h.writing, hwriter]
    simp
  rcases Kernel.writeRelease_wakes (k := s.kernel) r with ⟨hne, hwakes⟩ | ⟨hnobody, hwakes⟩
  · obtain ⟨next, rest, hq⟩ := List.exists_cons_of_ne_nil hne
    rw [hwakes.leaving (hw.nodup _), hwakes.leaving_beside (.read r) nofun, hq, List.append_nil, hwriting]
    exact h.handsOver hw here hwriter hq (by rw [hkernel]; exact Kernel.writeRelease_hand hq) hran
  · rw [hwakes.leaving (hw.nodup _), hwakes.leaving_beside (.write r) nofun, hempty, List.nil_append, hwriting]
    exact h.letsIn hw here hwriter hempty hnobody (by rw [hkernel]) hran

/-! ## Runs -/

structure RwInv (r : Nat) (x : OsState × RwLog) : Prop where
  shell : x.1.ShellInv
  wait : x.1.WaitInv
  rw : RwAt r x.1 x.2

/-- What every section leaves of the other processes. -/
theorem Proceeds.ran (h : Proceeds s (s.kernel.advance s.here)) (hw : s.WaitInv)
    (hr : s.kernel.cur.state = .running) (hrun : s.CallRun .proceed) :
    Ran s (s.next .proceed) (s.kernel.advance s.here).1 := by
  have hcur : (s.kernel.pcbs s.kernel.current).state = .running := hr
  refine ⟨rfl, fun p hp ha => ?_, fun p ha => ?_⟩
  · rcases h.queues hrun with ⟨l, _, hj⟩ | ⟨l, out, hwakes⟩
    · exact hj.others p hp
    · refine hwakes.others p fun ho => ha ((hw.queued l p).mp ?_).1
      rw [hwakes.queue]
      exact List.mem_append_left _ ho
  · rcases h.queues hrun with ⟨l, _, hj⟩ | ⟨l, out, hwakes⟩
    · by_cases hp : p = s.kernel.current
      · rw [hp, show ((s.next .proceed).kernel.pcbs s.kernel.current).state = _ from hj.blocked]
        decide
      · rwa [show ((s.next .proceed).kernel.pcbs p).state = _ from hj.others p hp]
    · by_cases hp : p ∈ out
      · have hb : (s.kernel.pcbs p).state = .blocked := by
          apply ((hw.queued l p).mp _).1
          rw [hwakes.queue]
          exact List.mem_append_left _ hp
        rw [show ((s.next .proceed).kernel.pcbs p).state = _ from hwakes.woken p hp hb]
        decide
      · rwa [show ((s.next .proceed).kernel.pcbs p).state = _ from hwakes.others p hp]

theorem noteRw_rests (log : RwLog)
    (h : ∀ l, l = .read r ∨ l = .write r → s.here ≠ .attempt l ∧ s.here ≠ .release l) :
    noteRw r s .proceed log = log := by
  have hread := h (.read r) (.inl rfl)
  have hwrite := h (.write r) (.inr rfl)
  simp only [noteRw, hread.1, hread.2, hwrite.1, hwrite.2, if_false]

/-- A section of a call at another lock. -/
theorem RwAt.otherLock (h : RwAt r s log) (hran : Ran s s' point) {l : Lock}
    (hl : l ≠ .read r ∧ l ≠ .write r) (here : s.here.lock? = some l) (honly : Kernel.Only s.kernel l s'.kernel)
    (hpoint : point.lock? = none ∨ point.lock? = some l) : RwAt r s' log := by
  have hrw := honly.rwlocks r hl.1 hl.2
  have haway : ∀ {point : Point}, point.lock? = none ∨ point.lock? = some l → ¬ point.AtRw r := by
    rintro point (hp | hp) (hat | hat) <;> rw [hp] at hat <;> simp_all
  refine h.ran hran (by rw [hrw]) (.elsewhere (haway hpoint)) fun hin => ?_
  exact absurd (h.woken _ hin).1.atRw (haway (.inr here))

theorem Vacant.initialises (h : s.Vacant r) :
    (s.kernel.rwlockInit r).rwlocks r = { s.kernel.rwlocks r with initialized := true } := by
  obtain ⟨hreaders, hwriter, hrq, hwq⟩ := h
  rw [Kernel.rwlockInit, Kernel.setRwlock_self]
  simp only [hreaders, hwriter, hrq, hwq]

/-- Both acquiring calls initialise the lock they are given. -/
theorem Vacant.lazily (h : s.Vacant r) {l : Lock} (hl : l = .read r ∨ l = .write r) :
    (s.kernel.lazyInit l).rwlocks r = { s.kernel.rwlocks r with initialized := true } := by
  rcases hl with rfl | rfl <;> exact h.initialises

/-- The running process has initialised the lock and is about to try for it. -/
theorem RwAt.initialised (h : RwAt r s log) (hvacant : s.Vacant r) {l : Lock}
    (hl : l = .read r ∨ l = .write r) (here : s.here = .init l)
    (hkernel : s'.kernel = s.kernel.lazyInit l) (hran : Ran s s' (.attempt l)) : RwAt r s' log := by
  refine h.ran hran (by rw [hkernel]; exact hvacant.lazily hl) ⟨fun ht => ?_, nofun, nofun⟩ fun hin => ?_
  · refine (h.stands s.kernel.current).tries ?_
    rcases ht with ht | ht | ht
    · cases ht
    · rw [show s.point s.kernel.current = _ from here]
      exact .inl (by rw [Point.attempt.inj ht])
    · cases ht
  · exact absurd rfl ((h.woken _ hin).1.ne_current here (by rintro (h | h) <;> cases h) nofun)

/-- The running process was granted the lock and returns from its call. -/
theorem RwAt.granted (h : RwAt r s log) {l : Lock} (hl : l = .read r ∨ l = .write r)
    (here : s.here = .check l) (granted : s.kernel.granted l = true)
    (hkernel : s'.kernel = s.kernel) (hran : Ran s s' .run) : RwAt r s' log := by
  refine h.ran hran (by rw [hkernel]) .run fun hin => ?_
  obtain ⟨hret, hwriter⟩ := h.woken _ hin
  rcases hl with rfl | rfl
  · exact absurd rfl (hret.ne_current here (by rintro (h | h) <;> cases h) nofun)
  · exact absurd (by simpa [Kernel.granted] using granted) hwriter

/-- A writer that did not find itself in the lock tries again. -/
theorem RwAt.retries (h : RwAt r s log) (hkernel : s'.kernel = s.kernel)
    (hran : Ran s s' (.attempt (.write r))) : RwAt r s' log := by
  refine h.ran hran (by rw [hkernel]) ⟨(by rintro (h | h | h) <;> cases h), nofun, nofun⟩ fun hin => ?_
  obtain ⟨hret, _⟩ := h.woken _ hin
  exact ⟨by rw [hkernel]; exact hret.awake, by rw [hkernel]; exact hret.alive, .inr hran.self⟩

/-- The sections of the calls at the lock itself. -/
theorem RwInv.proceeds_at {x : OsState × RwLog} (h : RwInv r x) (he : x.1.Enabled .proceed)
    (hrun : RwRun r x .proceed) {l : Lock} (hl : l = .read r ∨ l = .write r)
    (here : x.1.here.lock? = some l) : RwAt r (x.1.next .proceed) (noteRw r x.1 .proceed x.2) := by
  obtain ⟨s, log⟩ := x
  have hrw := h.rw
  have hproc := h.wait.proceeds h.shell he hrun.1
  have hran := hproc.ran h.wait he.1 hrun.1
  have hout := h.wait.running he.1
  have hkernel : (s.next .proceed).kernel = (s.kernel.advance s.here).2 := rfl
  dsimp only at hrw hproc hran hout here ⊢
  have hrest : ∀ point, s.here = point → (∀ l, point ≠ .attempt l ∧ point ≠ .release l) →
      noteRw r s .proceed log = log := by
    rintro point rfl hne
    exact noteRw_rests log fun l _ => hne l
  generalize hadv : s.kernel.advance s.here = result at hproc hran hkernel
  cases hproc with
  | init l' hp =>
    obtain rfl : l' = l := by simpa [hp, Point.lock?] using here
    rw [hrest _ hp fun _ => ⟨nofun, nofun⟩]
    have hvacant : s.Vacant r := by
      apply hrun.2.2
      rcases hl with rfl | rfl
      · exact .inl hp
      · exact .inr hp
    exact hrw.initialised hvacant hl hp hkernel hran
  | signalInit i hp => rcases hl with rfl | rfl <;> simp [hp, Point.lock?] at here
  | got l' hp got rests =>
    obtain rfl : l' = l := by simpa [hp, Point.lock?] using here
    rcases hl with rfl | rfl
    · obtain ⟨free, nobody, hval⟩ := Kernel.readAttempt_got got
      have hnote : noteRw r s .proceed log =
          { log with inside := log.inside ++ [s.kernel.current] } := by
        simp only [noteRw, hp, show (s.kernel.readAttempt r).1 = .got from got, if_true]
      rw [hnote]
      exact hrw.admits hp he.1 (hout (.read r)) free nobody (by rw [hkernel]; exact hval) hran
    · obtain ⟨free, empty, hval⟩ := Kernel.writeAttempt_got got
      have hnote : noteRw r s .proceed log = { log with
          writing := log.writing ++ [s.kernel.current]
          woken := log.woken.filter (· ≠ s.kernel.current) } := by
        simp [noteRw, hp, show (s.kernel.writeAttempt r).1 = .got from got]
      rw [hnote]
      exact hrw.takes he.1 free empty (by rw [hkernel]; exact hval) hran
  | waits l' hp waits joins =>
    obtain rfl : l' = l := by simpa [hp, Point.lock?] using here
    rcases hl with rfl | rfl
    · have held := (Kernel.readAttempt_waits waits).1
      have hval := Kernel.readAttempt_queues waits joins
      have hnote : noteRw r s .proceed log = log := by
        simp [noteRw, hp, show (s.kernel.readAttempt r).1 = .waits from waits]
      rw [hnote]
      exact hrw.queuesReader hp (hout (.read r)) held (by rw [hkernel]; exact hval) hran
    · have held := (Kernel.writeAttempt_waits waits).1
      have hval := Kernel.writeAttempt_queues waits joins
      have hnote : noteRw r s .proceed log =
          { log with woken := log.woken.filter (· ≠ s.kernel.current) } := by
        simp [noteRw, hp, show (s.kernel.writeAttempt r).1 = .waits from waits]
      rw [hnote]
      exact hrw.queuesWriter held (by rw [hkernel]; exact hval) hran
  | returns l' hp granted =>
    obtain rfl : l' = l := by simpa [hp, Point.lock?] using here
    rw [hrest _ hp fun _ => ⟨nofun, nofun⟩]
    have hsame : (s.next .proceed).kernel = s.kernel := by
      rw [hkernel]
      rcases hl with rfl | rfl <;> rfl
    exact hrw.granted hl hp granted hsame hran
  | retries l' hp granted =>
    obtain rfl : l' = l := by simpa [hp, Point.lock?] using here
    rw [hrest _ hp fun _ => ⟨nofun, nofun⟩]
    rcases hl with rfl | rfl
    · have hrunning : s.kernel.cur.state = .running := he.1
      simp [Kernel.granted, hrunning] at granted
    · exact hrw.retries hkernel hran
  | release l' hp =>
    obtain rfl : l' = l := by simpa [hp, Point.lock?] using here
    rcases hl with rfl | rfl
    · have hnote : noteRw r s .proceed log = { log with
          inside := log.inside.erase s.kernel.current
          woken := log.woken ++ s.kernel.leaving (s.kernel.readRelease r) (.write r) } := by
        simp [noteRw, hp]
      rw [hnote]
      exact hrw.leaves h.wait hp he.1 hkernel hran
    · have hnote : noteRw r s .proceed log = { log with
          inside := log.inside ++ s.kernel.leaving (s.kernel.writeRelease r) (.read r)
          writing := log.writing.erase s.kernel.current ++
            s.kernel.leaving (s.kernel.writeRelease r) (.write r) } := by
        simp [noteRw, hp]
      rw [hnote]
      exact hrw.writeLeaves h.wait hp hkernel hran

theorem RwInv.proceeds {x : OsState × RwLog} (h : RwInv r x) (he : x.1.Enabled .proceed)
    (hrun : RwRun r x .proceed) : RwAt r (x.1.next .proceed) (noteRw r x.1 .proceed x.2) := by
  have hproc := h.wait.proceeds h.shell he hrun.1
  have hran := hproc.ran h.wait he.1 hrun.1
  obtain ⟨l, here, honly, hpoint⟩ := hproc.only
  by_cases hl : l = .read r ∨ l = .write r
  · exact h.proceeds_at he hrun hl here
  · rw [not_or] at hl
    rw [noteRw_rests]
    · exact h.rw.otherLock hran hl here honly hpoint
    · intro l' hl'
      constructor
      · intro hp
        rw [hp] at here
        obtain rfl : l' = l := Option.some.inj here
        exact hl'.elim hl.1 hl.2
      · intro hp
        rw [hp] at here
        obtain rfl : l' = l := Option.some.inj here
        exact hl'.elim hl.1 hl.2

theorem Ran.moves (hkernel : s'.kernel = s.kernel)
    (hpoint : s'.point = Function.update s.point s.kernel.current point) : Ran s s' point :=
  ⟨hpoint, fun p _ _ => by rw [hkernel], fun p ha => by rwa [hkernel]⟩

theorem Ran.still (hpcbs : s'.kernel.pcbs = s.kernel.pcbs) (hpoint : s'.point = s.point) :
    Ran s s' s.here :=
  ⟨by rw [hpoint]; exact (Function.update_eq_self _ _).symm, fun p _ _ => by rw [hpcbs],
    fun p ha => by rwa [hpcbs]⟩

/-- A process outside the lock calls is no woken writer. -/
theorem RwAt.idle (h : RwAt r s log) (hi : s.Idle) : s.kernel.current ∉ log.woken := fun hin =>
  (h.woken _ hin).1.ne_current hi.2 (by rintro (h | h) <;> cases h) nofun rfl

/-- A step of an idle process that leaves the lock alone. -/
theorem RwAt.stays (h : RwAt r s log) (hi : s.Idle) (hran : Ran s s' point)
    (hrw : s'.kernel.rwlocks r = s.kernel.rwlocks r)
    (hcur : Stands r (s.kernel.rwlocks r) log s.kernel.current point) : RwAt r s' log :=
  h.ran hran (by rw [hrw]) hcur fun hin => absurd hin (h.idle hi)

theorem RwAt.acquires (h : RwAt r s log) (hi : s.Idle) {l : Lock}
    (hl : l = .read r ∨ l = .write r → s.kernel.current ∉ log.inside) :
    RwAt r (s.next (.acquire l)) log := by
  refine h.stays hi (.moves rfl rfl) rfl ?_
  refine ⟨fun ht => hl (.inl ?_), fun hp => ?_, fun hp => ?_⟩
  · rcases enter_cases s.kernel l with he | ⟨he, _⟩ | he <;> rw [he] at ht <;>
      simp_all [Point.Tries]
  · rcases enter_cases s.kernel l with he | ⟨he, _⟩ | he <;> rw [he] at hp <;> cases hp
  · rcases enter_cases s.kernel l with he | ⟨he, _⟩ | he <;> rw [he] at hp <;> cases hp

theorem RwAt.unlocks (h : RwAt r s log) (hi : s.Idle) {l : Lock}
    (hread : l = .read r → s.kernel.current ∈ log.inside)
    (hwrite : l = .write r → s.kernel.current ∈ log.writing) : RwAt r (s.next (.unlock l)) log := by
  refine h.stays hi (.moves rfl rfl) rfl ?_
  rcases enterRelease_cases s.kernel l with he | he | ⟨i, _, he, _⟩ <;> rw [he]
  · exact .run
  · refine ⟨(by rintro (h | h | h) <;> cases h), fun hp => hread (Point.release.inj hp), fun hp => ?_⟩
    have hin := hwrite (Point.release.inj hp)
    rw [h.writing] at hin
    exact Option.mem_toList.mp hin
  · exact .elsewhere (by rintro (h | h) <;> cases h)

theorem RwInv.next {x : OsState × RwLog} (h : RwInv r x) (a : Action) (he : x.1.Enabled a)
    (hrun : RwRun r x a) : RwInv r ((machine.watched (noteRw r)).next x a) := by
  refine ⟨step_shell h.shell a he, h.wait.next h.shell he hrun.1, ?_⟩
  show RwAt r (x.1.next a) (noteRw r x.1 a x.2)
  by_cases hb : Beside a = true
  · have hq := (h.wait.asleep.beside h.shell he hb).1
    cases a with
    | proceed => cases hb
    | _ => exact h.rw.beside hq hrun.2.1
  · cases a with
    | mutexInit m =>
      have hrw := (Kernel.lazyInit_only x.1.kernel (.mutex m)).rwlocks r nofun nofun
      exact h.rw.stays he (.still (Kernel.mutexInit_pcbs _ m) rfl) hrw (h.rw.stands _)
    | semInit i c => exact h.rw.stays he (.still rfl rfl) rfl (h.rw.stands _)
    | rwlockInit n =>
      by_cases hn : n = r
      · subst hn
        exact h.rw.ran (.still rfl rfl) (hrun.2.2 rfl).initialises (h.rw.stands _)
          fun hin => absurd hin (h.rw.idle he)
      · have hrw : (x.1.next (.rwlockInit n)).kernel.rwlocks r = x.1.kernel.rwlocks r :=
          Function.update_of_ne (Ne.symm hn) _ _
        exact h.rw.stays he (.still rfl rfl) hrw (h.rw.stands _)
    | acquire l => exact h.rw.acquires he fun hl => (hrun.2.2 hl).1
    | unlock l => exact h.rw.unlocks he hrun.2.2.1 hrun.2.2.2
    | proceed => exact h.proceeds he hrun
    | blockForever | wake p => exact hrun.1.elim
    | _ => exact absurd rfl hb

/-- What a reader-writer lock promises: a writer is alone, the counter is right,
and at a free lock nobody waits without a woken writer that tries again. -/
structure RwSafe (r : Nat) (s : OsState) (log : RwLog) : Prop where
  readers : (s.kernel.rwlocks r).readers.toNat = log.inside.length
  distinct : log.inside.Nodup
  writing : log.writing = (s.kernel.rwlocks r).writer.toList
  exclusive : (s.kernel.rwlocks r).writer ≠ none →
    (s.kernel.rwlocks r).readers = 0#32 ∧ log.inside = []
  noneStranded : (s.kernel.rwlocks r).readers = 0#32 → (s.kernel.rwlocks r).writer = none →
    ∀ p, p ∈ (s.kernel.rwlocks r).readerWaiters ∨ p ∈ (s.kernel.rwlocks r).writerWaiters →
      ∃ w ∈ log.woken, Returning r s w ∧ w ∉ (s.kernel.rwlocks r).writerWaiters

theorem RwInv.safe {x : OsState × RwLog} (h : RwInv r x) : RwSafe r x.1 x.2 := by
  obtain ⟨s, log⟩ := x
  have hrw := h.rw
  have hwait := h.wait
  dsimp only at hrw hwait ⊢
  constructor
  case readers => exact hrw.count
  case distinct => exact hrw.protocol.nodup.of_append_left
  case writing => exact hrw.writing
  case exclusive =>
    intro hw
    have hempty : log.inside = [] := hrw.protocol.exclusive hw
    exact ⟨hrw.empty_iff.mpr hempty, hempty⟩
  case noneStranded =>
    intro hz hfree p hp
    have hwoken : log.woken ≠ [] := by
      apply hrw.protocol.woken hfree (hrw.empty_iff.mp hz)
      exact hp.imp List.ne_nil_of_mem List.ne_nil_of_mem
    obtain ⟨w, hw⟩ := List.exists_mem_of_ne_nil _ hwoken
    have hret := (hrw.woken w hw).1
    exact ⟨w, hw, hret, fun hin => hret.awake ((hwait.queued (.write r) w).mp hin).1⟩

end

/-- Steps of `RwRun` that create processes, dispatch and call. -/
def rwStep (r : Nat) (x : OsState × RwLog) : Action → Bool
  | .create _ _ | .yield _ => true
  | .rwlockInit n => n == r && (x.1.kernel.rwlocks r).readers == 0#32 &&
      (x.1.kernel.rwlocks r).writer.isNone && (x.1.kernel.rwlocks r).readerWaiters.isEmpty &&
      (x.1.kernel.rwlocks r).writerWaiters.isEmpty
  | .acquire _ => x.1.kernel.current ∉ x.2.inside ∧ x.1.kernel.current ∉ x.2.writing
  | .unlock (.read _) => x.1.kernel.current ∈ x.2.inside
  | .proceed => match x.1.here with
    | .attempt _ => x.1.kernel.cur.pid != 0#32
    | .init _ | .signalInit _ => false
    | _ => true
  | _ => false

theorem rwStep_rwRun {r : Nat} {x : OsState × RwLog} {a : Action} (h : rwStep r x a = true) :
    RwRun r x a := by
  cases a with
  | create entry name | yield contextEsp => exact ⟨trivial, nofun, trivial⟩
  | rwlockInit n =>
    simp only [rwStep, Bool.and_eq_true, beq_iff_eq, Option.isNone_iff_eq_none,
      List.isEmpty_iff] at h
    obtain ⟨⟨⟨⟨rfl, hreaders⟩, hwriter⟩, hrq⟩, hwq⟩ := h
    exact ⟨⟨hrq, hwq⟩, nofun, fun _ => ⟨hreaders, hwriter, hrq, hwq⟩⟩
  | acquire l => exact ⟨trivial, nofun, fun _ => by simpa [rwStep] using h⟩
  | unlock l =>
    cases l with
    | read n => exact ⟨trivial, nofun, fun _ => by simpa [rwStep] using h, nofun⟩
    | _ => cases h
  | proceed =>
    refine ⟨?_, nofun, ?_⟩ <;> cases hp : x.1.here <;> simp_all [rwStep, CallRun]
  | _ => cases h

end OsState

end SengOS
