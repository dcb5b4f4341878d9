import SengOS.Kernel.Waiting

/-!
# The units of a semaphore

Runs of `sem_wait` and `sem_signal` cut at their sections. A unit lies in the
count or it was granted to a call of `sem_wait`, which took it from the count
or was handed it in the queue; units are handed over in the order in which the
calls were queued.
-/

namespace SengOS

/-- What happened at a semaphore since its initialisation: the calls of
`sem_wait` that took a unit from the count, those that were queued and those
that were handed a unit, each in order, and the number of signals. -/
structure SemLog where
  initial : Word
  signals : Nat
  taken : List Nat
  queued : List Nat
  handed : List Nat

def SemLog.empty : SemLog := ⟨0#32, 0, [], [], []⟩

namespace OsState

/-- The section of `sem_wait` notes its call. -/
def noteWait (s : OsState) (i : Nat) (log : SemLog) : SemLog :=
  match (s.kernel.semAttempt i).1 with
  | .got => { log with taken := log.taken ++ [s.call s.kernel.current] }
  | .waits => { log with queued := log.queued ++ [s.call s.kernel.current] }
  | .full => log

/-- The section of `sem_signal` notes the call that it serves. -/
def noteSignal (s : OsState) (i : Nat) (log : SemLog) : SemLog :=
  { log with
    signals := log.signals + 1
    handed := log.handed ++ ((s.kernel.sems i).waiters.take 1).map s.call }

def noteSem (i : Nat) (s : OsState) (a : Action) (log : SemLog) : SemLog :=
  match a with
  | .semInit j initialCount => if j = i then { log with initial := initialCount } else log
  | .proceed =>
    if s.here = .attempt (.sem i) then s.noteWait i log
    else if s.here = .release (.sem i) then s.noteSignal i log
    else log
  | _ => log

/-- The units that were ever there. -/
def units (log : SemLog) : Int := max log.initial.toInt 0 + log.signals

/-- The runs of one semaphore: it is initialised once and before it is used, and
less than 2^31 units come together. -/
def SemRun (i : Nat) (x : OsState × SemLog) (a : Action) : Prop :=
  x.1.CallRun a ∧
    match a with
    | .semInit j _ => j = i → (x.1.kernel.sems i).initialized = false
    | .acquire l | .unlock l => l = .sem i → (x.1.kernel.sems i).initialized = true
    | .proceed => x.1.here = .release (.sem i) → units x.2 + 1 < 2 ^ 31
    | _ => True

/-- What holds at semaphore `i`, whose notes are `log`. -/
structure SemAt (i : Nat) (s : OsState) (log : SemLog) : Prop where
  ready : ∀ p, (s.point p).lock? = some (.sem i) → (s.kernel.sems i).initialized = true ∧
    s.point p ≠ .init (.sem i) ∧ s.point p ≠ .signalInit i
  fresh : (s.kernel.sems i).initialized = false →
    (s.kernel.sems i).count = 0#32 ∧ log = SemLog.empty
  nonneg : (s.kernel.sems i).count.toNat < 2 ^ 31
  idle : (s.kernel.sems i).count ≠ 0#32 → (s.kernel.sems i).waiters = []
  conserved : units log = (s.kernel.sems i).count.toNat + log.taken.length + log.handed.length
  bounded : units log < 2 ^ 31
  order : log.queued = log.handed ++ (s.kernel.sems i).waiters.map s.call
  distinct : (log.taken ++ log.queued).Nodup
  logged : ∀ n ∈ log.taken ++ log.queued, n < s.nextCall
  calls : Function.Injective s.call
  recent : ∀ p, s.call p < s.nextCall
  trying : ∀ p, s.point p = .attempt (.sem i) ∨ s.point p = .full (.sem i) →
    s.call p ∉ log.taken ++ log.queued
  waiting : ∀ p, (s.point p).Waits (.sem i) → s.call p ∈ log.queued

section
variable {i : Nat} {s s' : OsState} {log : SemLog}

/-- A step that leaves the semaphore and its notes alone. -/
theorem SemAt.frame (h : SemAt i s log) (hsem : s'.kernel.sems i = s.kernel.sems i)
    (hcalls : s'.call = s.call ∧ s'.nextCall = s.nextCall)
    (hpoint : ∀ p, s'.point p = s.point p ∨ s'.point p = (s.point p).afterYield ∨
      (s'.point p).lock? ≠ some (.sem i) ∨
      (s'.point p = .release (.sem i) ∧ (s.kernel.sems i).initialized = true)) :
    SemAt i s' log := by
  have htry : ∀ p, s'.point p = .attempt (.sem i) ∨ s'.point p = .full (.sem i) →
      s.point p = .attempt (.sem i) ∨ s.point p = .full (.sem i) := by
    intro p hp
    rcases hpoint p with hs | hs | hs | ⟨hs, _⟩
    · rwa [hs] at hp
    · rw [hs] at hp
      cases hq : s.point p <;> rw [hq] at hp <;> simp_all [Point.afterYield]
    · rcases hp with hp | hp <;> rw [hp] at hs <;> exact absurd rfl hs
    · rw [hs] at hp
      simp at hp
  have hwait : ∀ p, (s'.point p).Waits (.sem i) → (s.point p).Waits (.sem i) := by
    intro p hp
    rcases hpoint p with hs | hs | hs | ⟨hs, _⟩
    · rwa [hs] at hp
    · rw [hs] at hp
      exact afterYield_waits.mp hp
    · exact absurd hp.lock? hs
    · rw [hs] at hp
      simp [Point.Waits] at hp
  constructor
  case ready =>
    intro p hp
    rw [hsem]
    rcases hpoint p with hs | hs | hs | ⟨hs, hi⟩
    · rw [hs] at hp ⊢
      exact h.ready p hp
    · rw [hs] at hp ⊢
      rw [afterYield_lock?] at hp
      obtain ⟨hi, hn, hn'⟩ := h.ready p hp
      refine ⟨hi, ?_⟩
      cases hq : s.point p <;> simp_all [Point.afterYield]
    · exact absurd hp hs
    · rw [hs]
      exact ⟨hi, by rintro ⟨⟩, by rintro ⟨⟩⟩
  case fresh => rw [hsem]; exact h.fresh
  case nonneg => rw [hsem]; exact h.nonneg
  case idle => rw [hsem]; exact h.idle
  case conserved => rw [hsem]; exact h.conserved
  case bounded => exact h.bounded
  case order => rw [hsem, hcalls.1]; exact h.order
  case distinct => exact h.distinct
  case logged => rw [hcalls.2]; exact h.logged
  case calls => rw [hcalls.1]; exact h.calls
  case recent => rw [hcalls.1, hcalls.2]; exact h.recent
  case trying =>
    rw [hcalls.1]
    exact fun p hp => h.trying p (htry p hp)
  case waiting =>
    rw [hcalls.1]
    exact fun p hp => h.waiting p (hwait p hp)

/-- A call begins, at this semaphore or at another lock. -/
theorem SemAt.acquires (h : SemAt i s log) (hw : s.WaitInv) (hi : s.Idle) {l : Lock}
    (hl : l = .sem i → (s.kernel.sems i).initialized = true) :
    SemAt i (s.next (.acquire l)) log := by
  have hnew : (s.next (.acquire l)).point s.kernel.current = s.kernel.enter l :=
    Function.update_self _ _ _
  have hold : ∀ p, p ≠ s.kernel.current → (s.next (.acquire l)).point p = s.point p :=
    fun p hp => Function.update_of_ne hp _ _
  have hcall : (s.next (.acquire l)).call s.kernel.current = s.nextCall := Function.update_self _ _ _
  have hcalls : ∀ p, p ≠ s.kernel.current → (s.next (.acquire l)).call p = s.call p :=
    fun p hp => Function.update_of_ne hp _ _
  constructor
  case ready =>
    intro p hp
    by_cases hpc : p = s.kernel.current
    · rw [hpc, hnew] at hp ⊢
      rcases enter_cases s.kernel l with he | ⟨he, hn⟩ | he <;> rw [he] at hp ⊢
      · cases hp
      · obtain rfl : l = .sem i := Option.some.inj hp
        have hinit : s.kernel.initialized (.sem i) = true := hl rfl
        rw [hn] at hinit
        cases hinit
      · obtain rfl : l = .sem i := Option.some.inj hp
        exact ⟨hl rfl, nofun, nofun⟩
    · rw [hold p hpc] at hp ⊢
      exact h.ready p hp
  case fresh => exact h.fresh
  case nonneg => exact h.nonneg
  case idle => exact h.idle
  case conserved => exact h.conserved
  case bounded => exact h.bounded
  case order =>
    rw [h.order]
    refine congrArg _ (List.map_congr_left fun p hp => (hcalls p ?_).symm)
    rintro rfl
    exact hw.running hi.1 (.sem i) hp
  case distinct => exact h.distinct
  case logged => exact fun n hn => Nat.lt_succ_of_lt (h.logged n hn)
  case calls =>
    intro p q hpq
    by_cases hp : p = s.kernel.current <;> by_cases hq : q = s.kernel.current
    · rw [hp, hq]
    · rw [hp, hcall, hcalls q hq] at hpq
      exact absurd hpq (Nat.ne_of_gt (h.recent q))
    · rw [hq, hcall, hcalls p hp] at hpq
      exact absurd hpq (Nat.ne_of_lt (h.recent p))
    · rw [hcalls p hp, hcalls q hq] at hpq
      exact h.calls hpq
  case recent =>
    intro p
    by_cases hp : p = s.kernel.current
    · rw [hp, hcall]
      exact Nat.lt_succ_self _
    · rw [hcalls p hp]
      exact Nat.lt_succ_of_lt (h.recent p)
  case trying =>
    intro p hp
    by_cases hpc : p = s.kernel.current
    · rw [hpc, hcall]
      exact fun hin => Nat.lt_irrefl _ (h.logged _ hin)
    · rw [hold p hpc] at hp
      rw [hcalls p hpc]
      exact h.trying p hp
  case waiting =>
    intro p hp
    by_cases hpc : p = s.kernel.current
    · rw [hpc, hnew] at hp
      rcases enter_cases s.kernel l with he | ⟨he, _⟩ | he <;> rw [he] at hp <;>
        simp [Point.Waits] at hp
    · rw [hold p hpc] at hp
      rw [hcalls p hpc]
      exact h.waiting p hp

theorem toInt_small {c : Word} (h : c.toNat < 2 ^ 31) : c.toInt = c.toNat :=
  BitVec.toInt_eq_toNat_of_lt (by omega)

theorem slt_zero {c : Word} (h : c.toNat < 2 ^ 31) : (0#32).slt c = true ↔ 0 < c.toNat := by
  rw [BitVec.slt_iff_toInt_lt, toInt_small h, BitVec.toInt_zero]
  omega

/-- `semaphore_init`, before the first call. -/
theorem SemAt.initialises (h : SemAt i s log) (hfresh : (s.kernel.sems i).initialized = false)
    (initialCount : Word) :
    SemAt i (s.next (.semInit i initialCount)) { log with initial := initialCount } := by
  obtain ⟨_, hlog⟩ := h.fresh hfresh
  subst hlog
  have hempty : (s.kernel.sems i).waiters = [] := by
    have hord := h.order
    simpa [SemLog.empty] using hord
  have hsem : (s.next (.semInit i initialCount)).kernel.sems i =
      ⟨if initialCount.slt 0#32 then 0#32 else initialCount, true, []⟩ := Function.update_self _ _ _
  -- The count is the larger of the argument and 0.
  have hcount : (if initialCount.slt 0#32 then 0#32 else initialCount).toNat < 2 ^ 31 ∧
      max initialCount.toInt 0 =
        ((if initialCount.slt 0#32 then 0#32 else initialCount).toNat : Int) := by
    by_cases hneg : initialCount.slt 0#32 = true
    · have hlt := BitVec.slt_iff_toInt_lt.mp hneg
      rw [BitVec.toInt_zero] at hlt
      rw [if_pos hneg, BitVec.toNat_ofNat]
      omega
    · have hge : ¬ initialCount.toInt < 0 := by
        intro hlt
        exact hneg (BitVec.slt_iff_toInt_lt.mpr (by rw [BitVec.toInt_zero]; exact hlt))
      have hval := BitVec.toInt_eq_toNat_cond initialCount
      have hlt := initialCount.isLt
      rw [if_neg hneg]
      split at hval <;> omega
  constructor
  case ready =>
    intro p hp
    have hready := (h.ready p hp).1
    rw [hfresh] at hready
    cases hready
  case fresh => rw [hsem]; nofun
  case nonneg => rw [hsem]; exact hcount.1
  case idle => rw [hsem]; exact fun _ => rfl
  case conserved =>
    rw [hsem]
    simp only [units, SemLog.empty, hcount.2]
    simp
  case bounded =>
    simp only [units, SemLog.empty, hcount.2]
    have := hcount.1
    omega
  case order =>
    rw [hsem]
    rfl
  case distinct => exact h.distinct
  case logged => exact h.logged
  case calls => exact h.calls
  case recent => exact h.recent
  case trying => exact h.trying
  case waiting => exact h.waiting

/-- The call of the running process is new when it is noted. -/
theorem SemAt.noted (h : SemAt i s log) (here : s.here = .attempt (.sem i)) {notes : List Nat}
    (hperm : notes.Perm (s.call s.kernel.current :: (log.taken ++ log.queued))) :
    notes.Nodup ∧ (∀ n ∈ notes, n < s.nextCall) ∧
      ∀ p, p ≠ s.kernel.current → s.point p = .attempt (.sem i) ∨ s.point p = .full (.sem i) →
        s.call p ∉ notes := by
  have hnew := h.trying s.kernel.current (.inl here)
  refine ⟨hperm.nodup_iff.mpr (List.nodup_cons.mpr ⟨hnew, h.distinct⟩), ?_, ?_⟩
  · intro n hn
    rcases List.mem_cons.mp (hperm.mem_iff.mp hn) with rfl | hn
    · exact h.recent _
    · exact h.logged n hn
  · intro p hpc hp hin
    rcases List.mem_cons.mp (hperm.mem_iff.mp hin) with he | hin
    · exact hpc (h.calls he)
    · exact h.trying p hp hin

/-- Whoever is in a lock call after the running process has left its own stood there before. -/
theorem stands_of_left {p : PcbRef} {l : Lock}
    (hpoint : s'.point = Function.update s.point s.kernel.current .run)
    (hp : (s'.point p).lock? = some l) : p ≠ s.kernel.current ∧ s'.point p = s.point p := by
  have hpc : p ≠ s.kernel.current := by
    rintro rfl
    rw [hpoint, Function.update_self] at hp
    cases hp
  exact ⟨hpc, by rw [hpoint, Function.update_of_ne hpc]⟩

/-- The running process finds a unit and takes it. -/
theorem SemAt.takes (h : SemAt i s log) (here : s.here = .attempt (.sem i))
    (hpos : (0#32).slt (s.kernel.sems i).count = true)
    (hsem : s'.kernel.sems i =
      { s.kernel.sems i with count := (s.kernel.sems i).count - 1#32 })
    (hcalls : s'.call = s.call ∧ s'.nextCall = s.nextCall)
    (hpoint : s'.point = Function.update s.point s.kernel.current .run) :
    SemAt i s' { log with taken := log.taken ++ [s.call s.kernel.current] } := by
  have hcount := (slt_zero h.nonneg).mp hpos
  have hsub : ((s.kernel.sems i).count - 1#32).toNat = (s.kernel.sems i).count.toNat - 1 := by
    have := (s.kernel.sems i).count.isLt
    rw [BitVec.toNat_sub, BitVec.toNat_ofNat]
    omega
  have hnonneg := h.nonneg
  have hempty : (s.kernel.sems i).waiters = [] := by
    apply h.idle
    intro hz
    rw [hz] at hcount
    simp at hcount
  have hready := (h.ready s.kernel.current (show s.here.lock? = _ by rw [here]; rfl)).1
  have hperm : (log.taken ++ [s.call s.kernel.current] ++ log.queued).Perm
      (s.call s.kernel.current :: (log.taken ++ log.queued)) := by
    rw [List.append_assoc]
    exact List.perm_middle
  obtain ⟨hdistinct, hlogged, htrying⟩ := h.noted here hperm
  constructor
  case ready =>
    intro p hp
    rw [hsem]
    obtain ⟨_, hs⟩ := stands_of_left hpoint hp
    rw [hs] at hp ⊢
    exact h.ready p hp
  case fresh =>
    rw [hsem]
    intro hf
    rw [show (s.kernel.sems i).initialized = false from hf] at hready
    cases hready
  case nonneg => rw [hsem]; dsimp only; omega
  case idle => rw [hsem]; exact fun _ => hempty
  case conserved =>
    have hcons := h.conserved
    rw [hsem]
    simp only [units] at hcons ⊢
    rw [hsub, List.length_append, List.length_singleton]
    omega
  case bounded => exact h.bounded
  case order => rw [hsem, hcalls.1]; exact h.order
  case distinct => exact hdistinct
  case logged => rw [hcalls.2]; exact hlogged
  case calls => rw [hcalls.1]; exact h.calls
  case recent => rw [hcalls.1, hcalls.2]; exact h.recent
  case trying =>
    intro p hp
    obtain ⟨hpc, hs⟩ := stands_of_left (l := .sem i) hpoint
      (by rcases hp with hp | hp <;> rw [hp] <;> rfl)
    rw [hs] at hp
    rw [hcalls.1]
    exact htrying p hpc hp
  case waiting =>
    intro p hp
    obtain ⟨_, hs⟩ := stands_of_left hpoint hp.lock?
    rw [hs] at hp
    rw [hcalls.1]
    exact h.waiting p hp

/-- The running process finds no unit and joins the queue. -/
theorem SemAt.queues (h : SemAt i s log) (here : s.here = .attempt (.sem i))
    (hpos : (0#32).slt (s.kernel.sems i).count = false)
    (hsem : s'.kernel.sems i =
      { s.kernel.sems i with waiters := (s.kernel.sems i).waiters ++ [s.kernel.current] })
    (hcalls : s'.call = s.call ∧ s'.nextCall = s.nextCall)
    (hpoint : s'.point = Function.update s.point s.kernel.current (.wait (.sem i))) :
    SemAt i s' { log with queued := log.queued ++ [s.call s.kernel.current] } := by
  have hnewPoint : s'.point s.kernel.current = .wait (.sem i) := by rw [hpoint, Function.update_self]
  have hold : ∀ p, p ≠ s.kernel.current → s'.point p = s.point p := fun p hp => by
    rw [hpoint, Function.update_of_ne hp]
  have hzero : (s.kernel.sems i).count = 0#32 := by
    have hnot : ¬ 0 < (s.kernel.sems i).count.toNat := by
      intro hlt
      rw [(slt_zero h.nonneg).mpr hlt] at hpos
      cases hpos
    apply BitVec.eq_of_toNat_eq
    rw [BitVec.toNat_ofNat]
    omega
  have hready := (h.ready s.kernel.current (show s.here.lock? = _ by rw [here]; rfl)).1
  have hperm : (log.taken ++ (log.queued ++ [s.call s.kernel.current])).Perm
      (s.call s.kernel.current :: (log.taken ++ log.queued)) := by
    rw [← List.append_assoc]
    exact List.perm_append_singleton _ _
  obtain ⟨hdistinct, hlogged, htrying⟩ := h.noted here hperm
  constructor
  case ready =>
    intro p hp
    rw [hsem]
    by_cases hpc : p = s.kernel.current
    · rw [hpc, hnewPoint]
      exact ⟨hready, nofun, nofun⟩
    · rw [hold p hpc] at hp ⊢
      exact h.ready p hp
  case fresh =>
    rw [hsem]
    intro hf
    rw [show (s.kernel.sems i).initialized = false from hf] at hready
    cases hready
  case nonneg => rw [hsem]; exact h.nonneg
  case idle => rw [hsem]; exact fun hne => absurd hzero hne
  case conserved => rw [hsem]; exact h.conserved
  case bounded => exact h.bounded
  case order =>
    rw [hsem, hcalls.1, h.order]
    simp
  case distinct => exact hdistinct
  case logged => rw [hcalls.2]; exact hlogged
  case calls => rw [hcalls.1]; exact h.calls
  case recent => rw [hcalls.1, hcalls.2]; exact h.recent
  case trying =>
    intro p hp
    have hpc : p ≠ s.kernel.current := by
      rintro rfl
      rw [hnewPoint] at hp
      simp at hp
    rw [hold p hpc] at hp
    rw [hcalls.1]
    exact htrying p hpc hp
  case waiting =>
    intro p hp
    rw [hcalls.1]
    by_cases hpc : p = s.kernel.current
    · rw [hpc]
      exact List.mem_append_right _ List.mem_cons_self
    · rw [hold p hpc] at hp
      exact List.mem_append_left _ (h.waiting p hp)

/-- What the section of `sem_signal` writes, with and without a waiter. -/
theorem semRelease_cases (k : Kernel) (i : Nat) :
    ((k.sems i).waiters = [] ∧
        (k.semRelease i).sems i = { k.sems i with count := (k.sems i).count + 1#32 }) ∨
      ∃ next rest, (k.sems i).waiters = next :: rest ∧
        (k.semRelease i).sems i = { k.sems i with waiters := rest } := by
  unfold Kernel.semRelease
  dsimp only
  cases (k.sems i).waiters with
  | nil =>
    refine .inl ⟨rfl, ?_⟩
    simp only [Kernel.setSem, Function.update_self]
  | cons next rest =>
    refine .inr ⟨next, rest, rfl, ?_⟩
    have hlocks := Kernel.wake_locks (k.setSem i { k.sems i with waiters := rest }) next
    have hsems : ((k.setSem i { k.sems i with waiters := rest }).schedulerWake next).sems =
        (k.setSem i { k.sems i with waiters := rest }).sems :=
      congrArg (fun l => l.2.1) hlocks
    dsimp only
    rw [hsems]
    simp [Kernel.setSem]

/-- A signal adds a unit to the count, or hands it to the first waiter. -/
theorem SemAt.signals (h : SemAt i s log) (here : s.here = .release (.sem i))
    (hbound : units log + 1 < 2 ^ 31)
    (hsem : s'.kernel.sems i = (s.kernel.semRelease i).sems i)
    (hcalls : s'.call = s.call ∧ s'.nextCall = s.nextCall)
    (hpoint : s'.point = Function.update s.point s.kernel.current .run) :
    SemAt i s' (s.noteSignal i log) := by
  have hready := (h.ready s.kernel.current (show s.here.lock? = _ by rw [here]; rfl)).1
  have hcons := h.conserved
  have hunits : units (s.noteSignal i log) = units log + 1 := by
    simp only [units, noteSignal]
    omega
  have hcases : ((s.kernel.sems i).waiters = [] ∧
        s'.kernel.sems i = { s.kernel.sems i with count := (s.kernel.sems i).count + 1#32 } ∧
        ((s.kernel.sems i).count + 1#32).toNat = (s.kernel.sems i).count.toNat + 1) ∨
      ∃ next rest, (s.kernel.sems i).waiters = next :: rest ∧
        s'.kernel.sems i = { s.kernel.sems i with waiters := rest } := by
    rw [hsem]
    refine (semRelease_cases s.kernel i).imp_left fun hfree => ⟨hfree.1, hfree.2, ?_⟩
    rw [BitVec.toNat_add, BitVec.toNat_ofNat]
    omega
  have hinit : (s'.kernel.sems i).initialized = (s.kernel.sems i).initialized := by
    rcases hcases with ⟨_, hs, _⟩ | ⟨_, _, _, hs⟩ <;> rw [hs]
  constructor
  case ready =>
    intro p hp
    rw [hinit]
    obtain ⟨_, hs⟩ := stands_of_left hpoint hp
    rw [hs] at hp ⊢
    exact h.ready p hp
  case fresh =>
    rw [hinit, hready]
    nofun
  case nonneg =>
    rcases hcases with ⟨_, hs, hadd⟩ | ⟨_, _, _, hs⟩ <;> rw [hs]
    · dsimp only
      omega
    · exact h.nonneg
  case idle =>
    rcases hcases with ⟨hq, hs, _⟩ | ⟨next, rest, hq, hs⟩ <;> rw [hs]
    · exact fun _ => hq
    · intro hne
      have := h.idle hne
      rw [hq] at this
      cases this
  case conserved =>
    rw [hunits]
    rcases hcases with ⟨hq, hs, hadd⟩ | ⟨next, rest, hq, hs⟩ <;> rw [hs]
    · simp only [noteSignal, hq, hadd, List.take_nil, List.map_nil, List.append_nil]
      omega
    · simp only [noteSignal, hq, List.take_succ_cons, List.take_zero, List.map_cons, List.map_nil,
        List.length_append, List.length_singleton]
      omega
  case bounded => rw [hunits]; exact hbound
  case order =>
    have hord := h.order
    rw [hcalls.1]
    rcases hcases with ⟨hq, hs, _⟩ | ⟨next, rest, hq, hs⟩ <;> rw [hs] <;> rw [hq] at hord
    · simp only [noteSignal, hq]
      simpa using hord
    · simp only [noteSignal, hq]
      simpa using hord
  case distinct => exact h.distinct
  case logged => rw [hcalls.2]; exact h.logged
  case calls => rw [hcalls.1]; exact h.calls
  case recent => rw [hcalls.1, hcalls.2]; exact h.recent
  case trying =>
    intro p hp
    obtain ⟨_, hs⟩ := stands_of_left (l := .sem i) hpoint
      (by rcases hp with hp | hp <;> rw [hp] <;> rfl)
    rw [hs] at hp
    rw [hcalls.1]
    exact h.trying p hp
  case waiting =>
    intro p hp
    obtain ⟨_, hs⟩ := stands_of_left hpoint hp.lock?
    rw [hs] at hp
    rw [hcalls.1]
    exact h.waiting p hp

/-! ## Runs -/

structure SemInv (i : Nat) (x : OsState × SemLog) : Prop where
  shell : x.1.ShellInv
  wait : x.1.WaitInv
  sem : SemAt i x.1 x.2

theorem SemAt.beside (h : SemAt i s log) {ends : PcbRef → Prop} (hq : Quiet s s' ends) :
    SemAt i s' log := by
  have hsems : s'.kernel.sems = s.kernel.sems := congrArg (fun l => l.2.1) hq.locks
  refine h.frame (by rw [hsems]) hq.calls fun p => ?_
  rcases hq.point p with hp | hp | ⟨hp, _⟩
  · exact .inl hp
  · exact .inr (.inl hp)
  · exact .inr (.inr (.inl (by rw [hp]; nofun)))

/-- A step of the running process that leaves the semaphore alone. -/
theorem SemAt.moves (h : SemAt i s log) (hsem : s'.kernel.sems i = s.kernel.sems i)
    (hcalls : s'.call = s.call ∧ s'.nextCall = s.nextCall) {point : Point}
    (hpoint : s'.point = Function.update s.point s.kernel.current point)
    (hnew : point.lock? ≠ some (.sem i) ∨
      (point = .release (.sem i) ∧ (s.kernel.sems i).initialized = true)) : SemAt i s' log := by
  refine h.frame hsem hcalls fun p => ?_
  by_cases hp : p = s.kernel.current
  · right
    right
    rwa [hp, hpoint, Function.update_self]
  · left
    rw [hpoint, Function.update_of_ne hp]

theorem SemAt.unlocks (h : SemAt i s log) {l : Lock}
    (hl : l = .sem i → (s.kernel.sems i).initialized = true) : SemAt i (s.next (.unlock l)) log := by
  refine h.moves rfl ⟨rfl, rfl⟩ rfl ?_
  rcases enterRelease_cases s.kernel l with he | he | ⟨j, rfl, he, hn⟩ <;> rw [he]
  · exact .inl nofun
  · by_cases hli : l = .sem i
    · right
      rw [hli]
      exact ⟨rfl, hl hli⟩
    · left
      exact fun hs => hli (Option.some.inj hs)
  · left
    intro hs
    obtain rfl : j = i := by simpa [Point.lock?] using hs
    rw [hl rfl] at hn
    cases hn

theorem semAttempt_got (k : Kernel) (i : Nat) (h : (k.semAttempt i).1 = .got) :
    (0#32).slt (k.sems i).count = true ∧
      (k.semAttempt i).2.sems i = { k.sems i with count := (k.sems i).count - 1#32 } := by
  unfold Kernel.semAttempt at h ⊢
  dsimp only at h ⊢
  split at h
  · rename_i hc
    rw [if_pos hc]
    exact ⟨hc, by simp [Kernel.setSem]⟩
  · split at h <;> cases h

theorem semAttempt_waits (k : Kernel) (i : Nat) (h : (k.semAttempt i).1 = .waits) :
    (0#32).slt (k.sems i).count = false ∧ ∃ q, (k.semAttempt i).2.sems i = { k.sems i with waiters := q } := by
  unfold Kernel.semAttempt at h ⊢
  dsimp only at h ⊢
  split at h
  · cases h
  · rename_i hc
    rw [if_neg hc]
    refine ⟨by simpa using hc, ?_⟩
    split at h
    · cases h
    · rename_i q hq
      refine ⟨q, ?_⟩
      have hsems : ((k.setSem i { k.sems i with waiters := q }).schedulerBlockForever).sems =
          (k.setSem i { k.sems i with waiters := q }).sems :=
        congrArg (fun l => l.2.1) (Kernel.blockForever_locks _)
      rw [hsems]
      simp [Kernel.setSem]

/-- A section that neither waits for the semaphore nor signals it. -/
theorem noteSem_rests {s : OsState} (log : SemLog) (ha : s.here ≠ .attempt (.sem i))
    (hr : s.here ≠ .release (.sem i)) : noteSem i s .proceed log = log := by
  simp only [noteSem, ha, hr, if_false]

/-- The sections of the calls at this semaphore. -/
theorem SemInv.proceeds_at {x : OsState × SemLog} (h : SemInv i x) (he : x.1.Enabled .proceed)
    (hrun : SemRun i x .proceed) (here : x.1.here.lock? = some (.sem i)) :
    SemAt i (x.1.next .proceed) (noteSem i x.1 .proceed x.2) := by
  obtain ⟨s, log⟩ := x
  have hsem := h.sem
  have hproc := h.wait.proceeds h.shell he hrun.1
  have hkernel : (s.next .proceed).kernel = (s.kernel.advance s.here).2 := rfl
  have hpoint : (s.next .proceed).point =
      Function.update s.point s.kernel.current (s.kernel.advance s.here).1 := rfl
  have hcalls : (s.next .proceed).call = s.call ∧ (s.next .proceed).nextCall = s.nextCall := ⟨rfl, rfl⟩
  dsimp only at hsem hproc here ⊢
  have hready := hsem.ready s.kernel.current here
  rw [show s.point s.kernel.current = s.here from rfl] at hready
  generalize hr : s.kernel.advance s.here = r at hproc hkernel hpoint
  cases hproc with
  | init l hp =>
    obtain rfl : l = .sem i := by simpa [hp, Point.lock?] using here
    exact absurd hp hready.2.1
  | signalInit j hp =>
    obtain rfl : j = i := by simpa [hp, Point.lock?] using here
    exact absurd hp hready.2.2
  | got l hp got rests =>
    obtain rfl : l = .sem i := by simpa [hp, Point.lock?] using here
    obtain ⟨hpos, hs⟩ := semAttempt_got s.kernel i got
    have hnote : noteSem i s .proceed log = { log with taken := log.taken ++ [s.call s.kernel.current] } := by
      simp only [noteSem, noteWait, hp, show (s.kernel.semAttempt i).1 = .got from got, if_true]
    rw [hnote]
    exact hsem.takes hp hpos (by rw [hkernel]; exact hs) hcalls hpoint
  | waits l hp waits joins =>
    obtain rfl : l = .sem i := by simpa [hp, Point.lock?] using here
    obtain ⟨hpos, q, hs⟩ := semAttempt_waits s.kernel i waits
    have hnote : noteSem i s .proceed log =
        { log with queued := log.queued ++ [s.call s.kernel.current] } := by
      simp only [noteSem, noteWait, hp, show (s.kernel.semAttempt i).1 = .waits from waits, if_true]
    have hq : q = (s.kernel.sems i).waiters ++ [s.kernel.current] := by
      have hjoin := joins.queue
      simp only [Kernel.waiters, Kernel.attempt, hs] at hjoin
      exact hjoin
    rw [hq] at hs
    rw [hnote]
    exact hsem.queues hp hpos (by rw [hkernel]; exact hs) hcalls hpoint
  | returns l hp granted =>
    obtain rfl : l = .sem i := by simpa [hp, Point.lock?] using here
    rw [noteSem_rests log (by rw [hp]; rintro ⟨⟩) (by rw [hp]; rintro ⟨⟩)]
    exact hsem.moves (by rw [hkernel]; rfl) hcalls hpoint (.inl (Option.some_ne_none _).symm)
  | retries l hp granted =>
    obtain rfl : l = .sem i := by simpa [hp, Point.lock?] using here
    have hrunning : s.kernel.cur.state = .running := he.1
    simp [Kernel.granted, hrunning] at granted
  | release l hp =>
    obtain rfl : l = .sem i := by simpa [hp, Point.lock?] using here
    have hnote : noteSem i s .proceed log = s.noteSignal i log := by
      simp [noteSem, hp]
    rw [hnote]
    exact hsem.signals hp (hrun.2 hp) (by rw [hkernel]; rfl) hcalls hpoint

theorem SemInv.proceeds {x : OsState × SemLog} (h : SemInv i x) (he : x.1.Enabled .proceed)
    (hrun : SemRun i x .proceed) : SemAt i (x.1.next .proceed) (noteSem i x.1 .proceed x.2) := by
  obtain ⟨l, here, honly, hpoint⟩ := (h.wait.proceeds h.shell he hrun.1).only
  by_cases hl : l = .sem i
  · rw [hl] at here
    exact h.proceeds_at he hrun here
  · have hne : ∀ point : Point, point.lock? = some (.sem i) → x.1.here ≠ point := by
      rintro point hp rfl
      rw [here] at hp
      exact hl (Option.some.inj hp)
    rw [noteSem_rests _ (hne _ rfl) (hne _ rfl)]
    have hleft : (x.1.kernel.advance x.1.here).1.lock? ≠ some (.sem i) := by
      rcases hpoint with hp | hp <;> rw [hp]
      · nofun
      · exact fun hs => hl (Option.some.inj hs)
    exact h.sem.moves (honly.sems i hl) ⟨rfl, rfl⟩ rfl (.inl hleft)

theorem SemInv.next {x : OsState × SemLog} (h : SemInv i x) (a : Action) (he : x.1.Enabled a)
    (hrun : SemRun i x a) : SemInv i ((machine.watched (noteSem i)).next x a) := by
  refine ⟨step_shell h.shell a he, h.wait.next h.shell he hrun.1, ?_⟩
  show SemAt i (x.1.next a) (noteSem i x.1 a x.2)
  by_cases hb : Beside a = true
  · have hq := (h.wait.asleep.beside h.shell he hb).1
    cases a with
    | semInit j c | proceed => cases hb
    | _ => exact h.sem.beside hq
  · cases a with
    | mutexInit m =>
      have hsem := (Kernel.lazyInit_only x.1.kernel (.mutex m)).sems i nofun
      exact h.sem.frame hsem ⟨rfl, rfl⟩ fun _ => .inl rfl
    | semInit j c =>
      by_cases hj : j = i
      · subst hj
        simp only [noteSem, if_true]
        exact h.sem.initialises (hrun.2 rfl) c
      · simp only [noteSem, hj, if_false]
        have hsem : (x.1.next (.semInit j c)).kernel.sems i = x.1.kernel.sems i :=
          Function.update_of_ne (Ne.symm hj) _ _
        exact h.sem.frame hsem ⟨rfl, rfl⟩ fun _ => .inl rfl
    | rwlockInit r => exact h.sem.frame rfl ⟨rfl, rfl⟩ fun _ => .inl rfl
    | acquire l => exact h.sem.acquires h.wait he hrun.2
    | unlock l => exact h.sem.unlocks hrun.2
    | proceed => exact h.proceeds he hrun
    | blockForever | wake p => exact hrun.1.elim
    | _ => exact absurd rfl hb

theorem boot_sem (b : Boot) (i : Nat) : SemInv i (boot b, SemLog.empty) := by
  refine ⟨boot_shell b, boot_wait b, ?_⟩
  constructor
  case ready => nofun
  case fresh => exact fun _ => ⟨rfl, rfl⟩
  case nonneg => exact Nat.two_pow_pos 31
  case idle => exact fun h => absurd rfl h
  case conserved => rfl
  case bounded =>
    show units SemLog.empty < 2 ^ 31
    decide
  case order => rfl
  case distinct => exact .nil
  case logged => nofun
  case calls => exact fun p q h => Fin.ext h
  case recent => exact fun p => p.isLt
  case trying => rintro p (hp | hp) <;> cases hp
  case waiting => rintro p (hp | hp) <;> cases hp

/-- What a semaphore promises: its units are conserved, its queue holds the
blocked calls, and a unit that was handed over stays with its call. -/
structure Conserves (i : Nat) (s : OsState) (log : SemLog) : Prop where
  nonneg : 0 ≤ (s.kernel.sems i).count.toInt
  idle : 0 < (s.kernel.sems i).count.toInt → (s.kernel.sems i).waiters = []
  nodup : (s.kernel.sems i).waiters.Nodup
  blocked : ∀ p, p ∈ (s.kernel.sems i).waiters ↔
    (s.kernel.pcbs p).state = .blocked ∧ (s.point p).Waits (.sem i)
  conserved : max log.initial.toInt 0 + log.signals =
    (s.kernel.sems i).count.toInt + (log.taken.length + log.handed.length)
  order : log.queued = log.handed ++ (s.kernel.sems i).waiters.map s.call
  once : (log.taken ++ log.queued).Nodup
  kept : ∀ p, (s.point p).Waits (.sem i) → (s.kernel.pcbs p).state ≠ .blocked → s.call p ∈ log.handed
  returns : s.Enabled .proceed → s.here = .check (.sem i) → (s.next .proceed).kernel = s.kernel ∧
    (s.next .proceed).point s.kernel.current = .run

theorem SemInv.conserves {x : OsState × SemLog} (h : SemInv i x) : Conserves i x.1 x.2 := by
  obtain ⟨s, log⟩ := x
  have hsem := h.sem
  have hwait := h.wait
  dsimp only at hsem hwait ⊢
  have hint := toInt_small hsem.nonneg
  constructor
  case nonneg => omega
  case idle =>
    intro hpos
    apply hsem.idle
    intro hz
    rw [hz] at hpos
    exact absurd hpos (by decide)
  case nodup => exact hwait.nodup (.sem i)
  case blocked => exact hwait.queued (.sem i)
  case conserved =>
    have hcons := hsem.conserved
    rw [units] at hcons
    omega
  case order => exact hsem.order
  case once => exact hsem.distinct
  case kept =>
    intro p hp hb
    have hq := hsem.waiting p hp
    rw [hsem.order] at hq
    refine (List.mem_append.mp hq).resolve_right fun hin => ?_
    -- A call that still waits is that of a blocked process.
    obtain ⟨q, hqw, hcall⟩ := List.mem_map.mp hin
    obtain rfl := hsem.calls hcall
    exact hb ((hwait.queued (.sem i) q).mp hqw).1
  case returns =>
    intro he hhere
    have hrunning : s.kernel.cur.state = .running := he.1
    have hgranted : s.kernel.granted (.sem i) = true := by simp [Kernel.granted, hrunning]
    have hadv : s.kernel.advance s.here = (.run, s.kernel) := by
      rw [hhere]
      simp only [Kernel.advance, hgranted, if_true]
      rfl
    constructor
    · show (s.kernel.advance s.here).2 = s.kernel
      rw [hadv]
    · show Function.update s.point s.kernel.current (s.kernel.advance s.here).1 s.kernel.current = .run
      rw [Function.update_self, hadv]

/-- Every run of a semaphore conserves its units. -/
theorem reachable_semaphore {b : Boot} {x : OsState × SemLog}
    (h : (machine.watched (noteSem i)).Reach (SemRun i) (boot b, SemLog.empty) x) :
    Conserves i x.1 x.2 := by
  have hinv : SemInv i x := h.invariant (boot_sem b i) fun x a hx he hrun => hx.next a he hrun
  exact hinv.conserves

end

/-- Steps of `SemRun` that create processes, dispatch and call. -/
def semStep (i : Nat) (x : OsState × SemLog) : Action → Bool
  | .create _ _ | .yield _ => true
  | .semInit j _ => !(x.1.kernel.sems j).initialized && (x.1.kernel.sems j).waiters.isEmpty
  | .acquire _ | .unlock _ => (x.1.kernel.sems i).initialized
  | .proceed => match x.1.here with
    | .attempt _ => x.1.kernel.cur.pid != 0#32
    | .init _ | .signalInit _ => false
    | _ => decide (units x.2 + 1 < 2 ^ 31)
  | _ => false

theorem semStep_semRun {i : Nat} {x : OsState × SemLog} {a : Action} (h : semStep i x a = true) :
    SemRun i x a := by
  cases a with
  | create entry name | yield contextEsp => exact ⟨trivial, trivial⟩
  | semInit j c =>
    simp only [semStep, Bool.and_eq_true, Bool.not_eq_true', List.isEmpty_iff] at h
    refine ⟨h.2, fun hj => ?_⟩
    rw [← hj]
    exact h.1
  | acquire l | unlock l => exact ⟨trivial, fun _ => h⟩
  | proceed =>
    cases hp : x.1.here <;> simp_all [semStep, SemRun, CallRun]
  | _ => cases h

/-- A process waits for a unit, another one signals twice, and the first one is
on the CPU behind the yield of its call. -/
def unitRun : List Action :=
  [.create 0x11000#32 none, .create 0x12000#32 none, .semInit 0 0#32, .yield 0x90000#32,
    .acquire (.sem 0), .proceed, .yield 0x100F00#32, .unlock (.sem 0), .proceed, .unlock (.sem 0),
    .proceed, .yield 0x101F00#32, .yield 0x90000#32]

theorem unitRun_conserves :
    (machine.watched (noteSem 0)).Accepts (fun x a => semStep 0 x a = true)
        (boot smallBoot, SemLog.empty) unitRun ∧
      (let x := (machine.watched (noteSem 0)).after (boot smallBoot, SemLog.empty) unitRun
       x.1.kernel.current = 1 ∧ x.2.signals = 2 ∧ x.2.handed = [x.1.call 1] ∧ Conserves 0 x.1 x.2) := by
  have hrun : (machine.watched (noteSem 0)).Accepts (fun x a => semStep 0 x a = true)
      (boot smallBoot, SemLog.empty) unitRun := by decide +kernel
  have hreach : (machine.watched (noteSem 0)).Reach (SemRun 0) (boot smallBoot, SemLog.empty)
      ((machine.watched (noteSem 0)).after (boot smallBoot, SemLog.empty) unitRun) :=
    .mono (fun _ _ => semStep_semRun) (.accepts .start hrun)
  exact ⟨hrun, by decide +kernel, by decide +kernel, by decide +kernel, reachable_semaphore hreach⟩

end OsState

end SengOS
