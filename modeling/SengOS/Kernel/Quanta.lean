import SengOS.Kernel.Levels
import SengOS.Kernel.SlotReuse
import SengOS.Kernel.Selection
import SengOS.Kernel.Stores

/-!
# What a demotion charges

A record beside the system counts, for each slot, the timer ticks at which its
process was RUNNING since it came to its level. `dispatch` counts a voluntary
yield into `ticks_used` as well; in runs in which only the shell yields while it
is RUNNING, `ticks_used` never exceeds the record, and a process that loses a
level has run for its whole quantum.

Base priorities are 0 throughout and only the top level is ever dispatched, so a
RUNNING process stands on level 0, and so do the threads and children it creates.
-/

namespace SengOS

namespace Pcb

/-- The priority and the quantum of a process that has run for `n` ticks on its level. -/
structure Charged (q : Pcb) (n : Nat) : Prop where
  base : q.basePriority = 0#8
  running : q.state = .running → q.priority = 0#8
  fresh : q.priority ≠ 0#8 → q.ticksUsed = 0#8
  quantum : q.state ≠ .terminated → 4 ≤ q.quantumTicks.toNat
  counted : q.ticksUsed.toNat ≤ n

/-- The ticks recorded for a slot that goes from `q` to `q'`: a new level starts anew. -/
def restart (q q' : Pcb) (n : Nat) : Nat := if q'.priority = q.priority then n else 0

theorem restart_same {q q' : Pcb} (h : q'.priority = q.priority) (n : Nat) : q.restart q' n = n :=
  if_pos h

/-- A step that leaves the fields of the feedback queue alone and runs nobody. -/
theorem Charged.of_eq {q q' : Pcb} {n : Nat} (h : q.Charged n)
    (base : q'.basePriority = q.basePriority) (priority : q'.priority = q.priority)
    (ticks : q'.ticksUsed = q.ticksUsed) (quantum : q'.quantumTicks = q.quantumTicks)
    (running : q'.state = .running → q.state = .running)
    (alive : q'.state ≠ .terminated → q.state ≠ .terminated) : q'.Charged n where
  base := base.trans h.base
  running := fun hr => priority.trans (h.running (running hr))
  fresh := fun hp => ticks.trans (h.fresh (priority ▸ hp))
  quantum := fun ht => quantum ▸ h.quantum (alive ht)
  counted := ticks ▸ h.counted

/-! ## Lock code -/

/-- What the stores of lock code do to the fields of the feedback queue. -/
structure Lowers (q q' : Pcb) : Prop where
  base : q'.basePriority = q.basePriority
  priority : q'.priority.toNat ≤ max q.priority.toNat q.basePriority.toNat
  ticks : q'.ticksUsed = q.ticksUsed ∨ q'.ticksUsed = 0#8
  quantum : q'.quantumTicks = q.quantumTicks ∨ (q.quantumTicks = 0#8 ∧ q'.quantumTicks = 4#8)

theorem Store.lowers {q q' : Pcb} (h : q.Store q') : q.Lowers q' := by
  cases h with
  | block | owned ms | waiting m | readLocks n =>
    exact ⟨rfl, Nat.le_max_left _ _, .inl rfl, .inl rfl⟩
  | wake =>
    refine ⟨rfl, Nat.le_max_left _ _, .inr rfl, ?_⟩
    dsimp only
    split
    · rename_i hz
      exact .inr ⟨hz, rfl⟩
    · exact .inl rfl
  | raise level lower =>
    exact ⟨rfl, (Nat.le_of_lt lower).trans (Nat.le_max_left _ _), .inl rfl, .inl rfl⟩
  | restore => exact ⟨rfl, Nat.le_max_right _ _, .inl rfl, .inl rfl⟩

theorem Lowers.trans {a b c : Pcb} (h : a.Lowers b) (h' : b.Lowers c) : a.Lowers c where
  base := h'.base.trans h.base
  priority := by
    have h₁ := h.priority
    have h₂ := h'.priority
    rw [h.base] at h₂
    omega
  ticks := by
    rcases h'.ticks with hc | hc
    · rw [hc]
      exact h.ticks
    · exact .inr hc
  quantum := by
    rcases h'.quantum with hc | ⟨hz, hc⟩
    · rw [hc]
      exact h.quantum
    · rcases h.quantum with hb | ⟨_, hb⟩
      · exact .inr ⟨hb ▸ hz, hc⟩
      · rw [hb] at hz
        exact absurd hz (by decide)

theorem Stores.lowers {q q' : Pcb} (h : q.Stores q') : q.Lowers q' := by
  induction h with
  | refl => exact ⟨rfl, Nat.le_max_left _ _, .inl rfl, .inl rfl⟩
  | tail _ hs ih => exact ih.trans hs.lowers

/-- A new level is a higher one, and it starts with nothing used. -/
theorem Charged.stored {q q' : Pcb} {n : Nat} (h : q.Charged n) (hs : q.Stores q')
    (hk : q.Keeps q') : q'.Charged (q.restart q' n) := by
  have hl := hs.lowers
  have hle : q'.priority.toNat ≤ q.priority.toNat := by
    have := hl.priority
    rw [h.base] at this
    simpa using this
  have hzero (hp : q.priority = 0#8) : q'.priority = 0#8 := by
    apply BitVec.eq_of_toNat_eq
    rw [hp] at hle
    exact Nat.le_zero.mp hle
  have hfresh (hp : q.priority ≠ 0#8) : q'.ticksUsed = 0#8 := by
    rcases hl.ticks with ht | ht
    · exact ht.trans (h.fresh hp)
    · exact ht
  constructor
  case base => exact hl.base.trans h.base
  case running => exact fun hr => hzero (h.running (hk.running hr))
  case fresh =>
    intro hp
    exact hfresh fun hz => hp (hzero hz)
  case quantum =>
    intro ht
    rcases hl.quantum with hq | ⟨_, hq⟩
    · rw [hq]
      exact h.quantum fun hz => ht (hk.terminated.mpr hz)
    · rw [hq]
      decide
  case counted =>
    by_cases hsame : q'.priority = q.priority
    · rw [restart_same hsame]
      rcases hl.ticks with ht | ht
      · rw [ht]
        exact h.counted
      · rw [ht]
        exact Nat.zero_le _
    · have hp : q.priority ≠ 0#8 := fun hz => hsame ((hzero hz).trans hz.symm)
      rw [hfresh hp]
      exact Nat.zero_le _

end Pcb

namespace Kernel

variable {k : Kernel}

/-! ## DispatchOf -/

section Suspended
variable (contextEsp eip : Word) (countTick : Bool) (woken : List PcbRef) {p : PcbRef}

/-- The running process is charged. -/
theorem suspended_running (hp : p = k.current) (hr : (k.pcbs p).state = .running) :
    k.suspended contextEsp eip countTick woken p =
      charge countTick { k.pcbs p with esp := contextEsp, eip := eip } := by
  have hb : (k.pcbs p).state ≠ .blocked := by rw [hr]; decide
  have hw : (if p ∈ woken then wakeUp (k.pcbs p) else k.pcbs p) = k.pcbs p := by
    split
    · exact wakeUp_of_not_blocked hb
    · rfl
  simp only [suspended, if_pos hp, hw, suspend, hr, ne_eq, reduceCtorEq, not_false_eq_true, if_true]

/-- Every other process keeps its share, or starts anew from a sleep. -/
theorem suspended_idle (h : ¬ (p = k.current ∧ (k.pcbs p).state = .running)) :
    let q := k.suspended contextEsp eip countTick woken p
    (q.basePriority = (k.pcbs p).basePriority ∧ q.priority = (k.pcbs p).priority ∧
      q.ticksUsed = (k.pcbs p).ticksUsed ∧ q.quantumTicks = (k.pcbs p).quantumTicks) ∨
    (q.basePriority = (k.pcbs p).basePriority ∧ q.priority = 0#8 ∧ q.ticksUsed = 0#8 ∧
      q.quantumTicks = 4#8) := by
  have hw : let q := if p ∈ woken then wakeUp (k.pcbs p) else k.pcbs p
      (p = k.current → q.state ≠ .running) ∧
      ((q.basePriority = (k.pcbs p).basePriority ∧ q.priority = (k.pcbs p).priority ∧
        q.ticksUsed = (k.pcbs p).ticksUsed ∧ q.quantumTicks = (k.pcbs p).quantumTicks) ∨
      (q.basePriority = (k.pcbs p).basePriority ∧ q.priority = 0#8 ∧ q.ticksUsed = 0#8 ∧
        q.quantumTicks = 4#8)) := by
    dsimp only
    split
    · unfold wakeUp
      split
      · exact ⟨fun _ hr => (by cases hr), .inr ⟨rfl, rfl, rfl, rfl⟩⟩
      · exact ⟨fun hp hr => h ⟨hp, hr⟩, .inl ⟨rfl, rfl, rfl, rfl⟩⟩
    · exact ⟨fun hp hr => h ⟨hp, hr⟩, .inl ⟨rfl, rfl, rfl, rfl⟩⟩
  revert hw
  simp only [suspended]
  generalize (if p ∈ woken then wakeUp (k.pcbs p) else k.pcbs p) = q
  rintro ⟨hidle, hw⟩
  split
  · rename_i hp
    have hs : suspend contextEsp eip countTick q =
        if q.state ≠ .terminated then { q with esp := contextEsp, eip := eip } else q := by
      unfold suspend
      dsimp only
      rw [if_neg (by split <;> exact hidle hp)]
    rw [hs]
    split <;> exact hw
  · exact hw

end Suspended

/-- What the charge does to a RUNNING process on the top level. -/
theorem charge_charged {q : Pcb} {n : Nat} (h : q.Charged n) (hr : q.state = .running)
    {countTick : Bool} (hyield : countTick = false → q.pid = 0#32) :
    let q' := charge countTick q
    q'.basePriority = 0#8 ∧ 4 ≤ q'.quantumTicks.toNat ∧
      ((q'.priority = 0#8 ∧ q'.ticksUsed.toNat ≤ if countTick then n + 1 else n) ∨
        (q'.priority ≠ 0#8 ∧ q'.ticksUsed = 0#8)) := by
  have hp := h.running hr
  have hq := h.quantum (by rw [hr]; decide)
  unfold charge
  split
  · exact ⟨h.base, (by decide : 4 ≤ (quantum 0).toNat), .inl ⟨rfl, Nat.zero_le _⟩⟩
  · rename_i hpid
    have hc : countTick = true := by
      by_contra hc
      exact hpid (hyield (by simpa using hc))
    subst hc
    dsimp only
    split
    · have hlevel : q.priority.toNat + 1 < 3 := by rw [hp]; decide
      rw [if_pos hlevel]
      refine ⟨h.base, ?_, .inr ⟨?_, rfl⟩⟩
      · change 4 ≤ (quantum (q.priority + 1#8).toNat).toNat
        rw [hp]
        decide
      · change q.priority + 1#8 ≠ 0#8
        rw [hp]
        decide
    · refine ⟨h.base, hq, .inl ⟨hp, ?_⟩⟩
      have : (q.ticksUsed + 1#8).toNat ≤ q.ticksUsed.toNat + 1 := by
        rw [BitVec.toNat_add]
        exact Nat.mod_le _ _
      exact this.trans (Nat.succ_le_succ h.counted)

section Switched
variable {contextEsp : Word} {countTick : Bool} {woken : List PcbRef} {next p : PcbRef} {n : Nat}

theorem switched_alive
    (hnext : (k.suspended contextEsp (k.frameWord contextEsp 8) countTick woken next).state = .ready ∨
      (k.suspended contextEsp (k.frameWord contextEsp 8) countTick woken next).state = .running)
    (ht : (k.switched contextEsp countTick woken next p).state ≠ .terminated) :
    (k.pcbs p).state ≠ .terminated := by
  intro hz
  have hst := suspended_state k contextEsp (k.frameWord contextEsp 8) countTick woken p
  have hpn : p ≠ next := by
    rintro rfl
    grind
  simp only [switched] at ht
  grind

/-- The process that is interrupted loses its level, or keeps it with its tick counted. -/
theorem switched_current (h : (k.pcbs k.current).Charged n)
    (hr : (k.pcbs k.current).state = .running)
    (hyield : countTick = false → (k.pcbs k.current).pid = 0#32)
    (hprio : (k.suspended contextEsp (k.frameWord contextEsp 8) countTick woken next).priority = 0#8) :
    let q := k.switched contextEsp countTick woken next k.current
    q.Charged ((k.pcbs k.current).restart q (if countTick then n + 1 else n)) := by
  intro q
  have hsus := suspended_running contextEsp (k.frameWord contextEsp 8) countTick woken rfl hr
  have hq : ({ k.pcbs k.current with esp := contextEsp, eip := k.frameWord contextEsp 8 } : Pcb).Charged
      n := h.of_eq rfl rfl rfl rfl id id
  obtain ⟨hbase, hquantum, hcase⟩ := charge_charged hq hr hyield
  rw [← hsus] at hbase hquantum hcase
  rcases hcase with ⟨hzero, hticks⟩ | ⟨hlow, hticks⟩
  · have same : q.priority = (k.pcbs k.current).priority := hzero.trans (h.running hr).symm
    rw [Pcb.restart_same same]
    exact ⟨hbase, fun _ => hzero, fun hne => absurd hzero hne, fun _ => hquantum, hticks⟩
  · -- The process has lost its level, so `next` is another one.
    have hpn : k.current ≠ next := by
      intro he
      rw [← he] at hprio
      exact hlow hprio
    have hready : q.state = .ready := by
      have hst := suspended_state k contextEsp (k.frameWord contextEsp 8) countTick woken k.current
      rw [hr, if_neg (by simp)] at hst
      simp [q, switched, hpn, hst]
    refine ⟨hbase, fun hr' => ?_, fun _ => hticks, fun _ => hquantum, ?_⟩
    · rw [hready] at hr'
      cases hr'
    · exact le_of_eq_of_le (congrArg BitVec.toNat hticks) (Nat.zero_le _)

/-- The others keep their record, or start anew from a sleep. -/
theorem switched_idle (h : (k.pcbs p).Charged n)
    (hidle : ¬ (p = k.current ∧ (k.pcbs p).state = .running))
    (hnext : (k.suspended contextEsp (k.frameWord contextEsp 8) countTick woken next).state = .ready ∨
      (k.suspended contextEsp (k.frameWord contextEsp 8) countTick woken next).state = .running)
    (hprio : (k.suspended contextEsp (k.frameWord contextEsp 8) countTick woken next).priority = 0#8) :
    let q := k.switched contextEsp countTick woken next p
    q.Charged ((k.pcbs p).restart q n) := by
  intro q
  have hstate : q.state = .running → q.priority = 0#8 ∨ (k.pcbs p).state = .running := by
    intro hr
    by_cases hpn : p = next
    · subst hpn
      exact .inl hprio
    · right
      have hst := suspended_state k contextEsp (k.frameWord contextEsp 8) countTick woken p
      simp only [q, switched] at hr
      grind
  rcases suspended_idle contextEsp (k.frameWord contextEsp 8) countTick woken hidle with
    ⟨hb, hpr, ht, hq⟩ | ⟨hb, hpr, ht, hq⟩
  · have same : q.priority = (k.pcbs p).priority := hpr
    rw [Pcb.restart_same same]
    refine ⟨hb.trans h.base, fun hr => ?_, fun hne => ?_, fun hne => ?_, ?_⟩
    · rcases hstate hr with hz | hr
      · exact hz
      · exact hpr.trans (h.running hr)
    · exact ht.trans (h.fresh (same ▸ hne))
    · exact le_of_le_of_eq (h.quantum (switched_alive hnext hne)) (congrArg BitVec.toNat hq).symm
    · exact le_of_eq_of_le (congrArg BitVec.toNat ht) h.counted
  · refine ⟨hb.trans h.base, fun _ => hpr, fun hne => absurd hpr hne, fun _ => ?_, ?_⟩
    · exact Nat.le_of_eq (congrArg BitVec.toNat hq).symm
    · exact le_of_eq_of_le (congrArg BitVec.toNat ht) (Nat.zero_le _)

end Switched

/-- A dispatch counts at most the tick of the process that it interrupts. -/
theorem dispatch_charged {n : PcbRef → Nat} (h : ∀ p, (k.pcbs p).Charged (n p)) (hs : k.ShellReady)
    {contextEsp : Word} (hctx : contextEsp ≠ 0#32) {countTick : Bool}
    (hyield : countTick = false → k.cur.state = .running → k.cur.pid = 0#32) (p : PcbRef) :
    ((k.dispatch contextEsp countTick).2.pcbs p).Charged
      ((k.pcbs p).restart ((k.dispatch contextEsp countTick).2.pcbs p)
        (if countTick = true ∧ p = k.current ∧ (k.pcbs p).state = .running then n p + 1 else n p)) := by
  obtain ⟨woken, rest, next, hw, hnext, hprio, hd⟩ := dispatch_switched hs hctx countTick
  rw [hd]
  by_cases hrun : p = k.current ∧ (k.pcbs p).state = .running
  · obtain ⟨rfl, hr⟩ := hrun
    simpa [hr] using switched_current (h k.current) hr (fun hc => hyield hc hr) hprio
  · rw [if_neg (c := countTick = true ∧ p = k.current ∧ (k.pcbs p).state = .running) fun h => hrun h.2]
    exact switched_idle (h p) hrun hnext hprio

/-- Only the tick of a process whose quantum is used up raises a priority number. -/
theorem dispatch_demotes (h : k.ShellReady) {contextEsp : Word} (hctx : contextEsp ≠ 0#32)
    {countTick : Bool} {p : PcbRef}
    (hup : k.level p < (k.dispatch contextEsp countTick).2.level p) :
    countTick = true ∧ p = k.current ∧ k.Demotes := by
  obtain ⟨woken, rest, -, hlevel⟩ := dispatch_level h hctx countTick
  rw [hlevel] at hup
  rcases suspended_level k contextEsp (k.frameWord contextEsp 8) countTick woken p with
    hle | ⟨hc, hp, hdem, -⟩
  · exact absurd hup (Nat.not_lt.mpr hle)
  · exact ⟨hc, hp, hdem⟩

end Kernel

namespace OsState

/-! ## The record -/

/-- The process in slot `p` is RUNNING when the timer ticks. -/
def runsAtTick (s : OsState) (a : Action) (p : PcbRef) : Bool :=
  match a with
  | .tick _ => s.kernel.timerStarted && p == s.kernel.current && (s.kernel.pcbs p).state == .running
  | _ => false

/-- The ticks of a process on its level, up to and with the one of `a`. -/
def ticksRun (s : OsState) (a : Action) (n : PcbRef → Nat) (p : PcbRef) : Nat :=
  if s.runsAtTick a p then n p + 1 else n p

/-- A process comes to a level when it is created and when its priority changes. -/
def noteTicks (s : OsState) (a : Action) (n : PcbRef → Nat) : PcbRef → Nat := fun p =>
  if s.kernel.slotTaken a = some p then 0
  else (s.kernel.pcbs p).restart ((s.next a).kernel.pcbs p) (s.ticksRun a n p)

def tickMachine : Machine (OsState × (PcbRef → Nat)) Action := machine.watched noteTicks

instance (s : OsState × (PcbRef → Nat)) (a : Action) : Decidable (tickMachine.enabled s a) :=
  inferInstanceAs (Decidable (s.1.Enabled a))

/-- Only the shell, which is never charged, yields while it is RUNNING. -/
def TicksOnly (s : OsState) : Action → Prop
  | .yield _ => s.kernel.cur.state = .running → s.kernel.cur.pid = 0#32
  | _ => True

instance (s : OsState) (a : Action) : Decidable (s.TicksOnly a) := by
  apply Action.casesOn (motive := fun a => Decidable (s.TicksOnly a)) a <;> intros <;>
    unfold TicksOnly <;> infer_instance

section
variable {s : OsState} {n : PcbRef → Nat}

def ChargedBy (s : OsState) (n : PcbRef → Nat) : Prop := ∀ p, (s.kernel.pcbs p).Charged (n p)

/-- An action that fills no slot. -/
theorem ChargedBy.unfilled {a : Action} (taken : s.kernel.slotTaken a = none)
    (h : ∀ p, ((s.next a).kernel.pcbs p).Charged
      ((s.kernel.pcbs p).restart ((s.next a).kernel.pcbs p) (s.ticksRun a n p))) :
    (s.next a).ChargedBy (s.noteTicks a n) := by
  intro p
  rw [noteTicks, taken, if_neg (by simp)]
  exact h p

theorem ticksRun_untimed {a : Action} (tick : ∀ p, s.runsAtTick a p = false) (n : PcbRef → Nat)
    (p : PcbRef) : s.ticksRun a n p = n p := by
  rw [ticksRun, tick, if_neg (by simp)]

/-- An action that leaves the priorities alone. -/
theorem ChargedBy.same {a : Action} (h : s.ChargedBy n) (taken : s.kernel.slotTaken a = none)
    (tick : ∀ p, s.runsAtTick a p = false)
    (hsame : ∀ p m, (s.kernel.pcbs p).Charged m → ((s.next a).kernel.pcbs p).Charged m ∧
      ((s.next a).kernel.pcbs p).priority = (s.kernel.pcbs p).priority) :
    (s.next a).ChargedBy (s.noteTicks a n) := by
  apply ChargedBy.unfilled taken
  intro p
  obtain ⟨hc, hp⟩ := hsame p _ (h p)
  rw [Pcb.restart_same hp, ticksRun_untimed tick]
  exact hc

/-- A process is born with the profile of its kind, and nobody else is touched. -/
theorem ChargedBy.born {a : Action} {p : PcbRef} (h : s.ChargedBy n)
    (taken : s.kernel.slotTaken a = some p) (tick : ∀ p, s.runsAtTick a p = false)
    (hnew : ((s.next a).kernel.pcbs p).Charged 0)
    (hothers : ∀ q, q ≠ p → ∃ pid, (s.next a).kernel.pcbs q = { s.kernel.pcbs q with pid := pid }) :
    (s.next a).ChargedBy (s.noteTicks a n) := by
  intro q
  by_cases hq : q = p
  · subst hq
    rw [noteTicks, if_pos taken]
    exact hnew
  · obtain ⟨pid, he⟩ := hothers q hq
    have hne : ¬ s.kernel.slotTaken a = some q := by
      rw [taken]
      exact fun he => hq (Option.some.inj he).symm
    have same : ((s.next a).kernel.pcbs q).priority = (s.kernel.pcbs q).priority := by rw [he]
    rw [noteTicks, if_neg hne, Pcb.restart_same same, ticksRun_untimed tick, he]
    exact (h q).of_eq rfl rfl rfl rfl id id

/-- A new process on the top level has used nothing. -/
theorem charged_of_profile {q : Pcb} {f : Profile} (h : q.profile = f)
    (base : f.basePriority = 0#8) (priority : f.priority = 0#8) (ticks : f.ticksUsed = 0#8)
    (quantum : 4 ≤ f.quantumTicks.toNat) : q.Charged 0 := by
  subst h
  exact ⟨base, fun _ => priority, fun hne => absurd priority hne, fun _ => quantum,
    Nat.le_of_eq (congrArg BitVec.toNat ticks)⟩

theorem ChargedBy.creating {a : Action} {entry : Word} {created : Option PcbRef × Kernel}
    (h : s.ChargedBy n) (ha : s.next a = s.creating entry created)
    (taken : s.kernel.slotTaken a = s.kernel.createTarget entry)
    (tick : ∀ p, s.runsAtTick a p = false)
    (hnone : s.kernel.createTarget entry = none → created.2 = s.kernel)
    (hsome : ∀ p, s.kernel.createTarget entry = some p → Kernel.Created s.kernel p created.2 ∧
      (created.2.pcbs p).Charged 0) : (s.next a).ChargedBy (s.noteTicks a n) := by
  have hk : (s.next a).kernel = created.2 := by rw [ha, creating_kernel]
  cases ht : s.kernel.createTarget entry with
  | none =>
    refine h.same (taken.trans ht) tick fun p m hm => ?_
    rw [hk, hnone ht]
    exact ⟨hm, rfl⟩
  | some p =>
    obtain ⟨hc, hnew⟩ := hsome p ht
    refine h.born (taken.trans ht) tick (by rw [hk]; exact hnew) fun q hq => ?_
    rw [hk, hc.others q hq]
    exact ⟨_, rfl⟩

theorem ChargedBy.fork (h : s.ChargedBy n) (hi : s.Idle) (contextEsp : Word) :
    (s.next (.fork contextEsp)).ChargedBy (s.noteTicks (.fork contextEsp) n) := by
  have hcur := h s.kernel.current
  cases hc : s.kernel.forkTarget with
  | none =>
    have hf := Kernel.schedulerFork_refused hc contextEsp
    refine h.same hc (fun _ => rfl) fun p m hm => ?_
    rw [next_fork_kernel]
    rcases hf.pcbs p with hq | ⟨_, _, hq⟩
    · rw [hq]
      exact ⟨hm, rfl⟩
    · rw [hq]
      exact ⟨hm.of_eq rfl rfl rfl rfl id id, rfl⟩
  | some child =>
    have hf := Kernel.schedulerFork_spec hc contextEsp
    have hprofile := Kernel.schedulerFork_profile hc contextEsp
    refine h.born hc (fun _ => rfl) ?_ fun q hq => ?_
    · rw [next_fork_kernel]
      refine charged_of_profile hprofile (h child).base (hcur.running hi.1) rfl (hcur.quantum ?_)
      rw [show (s.kernel.pcbs s.kernel.current).state = .running from hi.1]
      decide
    · rw [next_fork_kernel, hf.others q hq]
      exact ⟨_, rfl⟩

/-- A slot whose process ends keeps its fields. -/
theorem charged_killed {q : Pcb} {m : Nat} (h : q.Charged m) : (Kernel.killed q).Charged m :=
  h.of_eq rfl rfl rfl rfl (fun hr => by cases hr) fun ht => absurd rfl ht

theorem killTarget_pcbs (k : Kernel) (target p : PcbRef) :
    (k.killTarget target).pcbs p = if p = target then Kernel.killed (k.pcbs target) else k.pcbs p := by
  simp only [Kernel.killTarget, Kernel.processDecrementCount]
  exact Kernel.modify_pcbs _ _ _ p

theorem ChargedBy.killed (h : s.ChargedBy n) (target p : PcbRef) (contextEsp v : Word) :
    (((s.kernel.killTarget target).setEax contextEsp v).pcbs p).Charged (n p) ∧
      (((s.kernel.killTarget target).setEax contextEsp v).pcbs p).priority =
        (s.kernel.pcbs p).priority := by
  change ((s.kernel.killTarget target).pcbs p).Charged (n p) ∧
    ((s.kernel.killTarget target).pcbs p).priority = (s.kernel.pcbs p).priority
  rw [killTarget_pcbs]
  split
  · rename_i hp
    rw [← hp]
    exact ⟨charged_killed (h p), rfl⟩
  · exact ⟨h p, rfl⟩

theorem ChargedBy.kill (h : s.ChargedBy n) (hs : s.ShellInv) {contextEsp : Word}
    (hctx : contextEsp ≠ 0#32) (pid : Word) :
    (s.next (.kill contextEsp pid)).ChargedBy (s.noteTicks (.kill contextEsp pid) n) := by
  have hnext (p : PcbRef) (h : ((s.kernel.schedulerKill contextEsp pid).2.pcbs p).Charged
      ((s.kernel.pcbs p).restart ((s.kernel.schedulerKill contextEsp pid).2.pcbs p) (n p))) :
      ((s.next (.kill contextEsp pid)).kernel.pcbs p).Charged ((s.kernel.pcbs p).restart
        ((s.next (.kill contextEsp pid)).kernel.pcbs p) (s.ticksRun (.kill contextEsp pid) n p)) := by
    rw [ticksRun_untimed fun _ => rfl]
    exact h
  apply ChargedBy.unfilled rfl
  intro p
  apply hnext
  rcases Kernel.schedulerKill_cases s.kernel contextEsp pid with ⟨_, hk⟩ | ⟨target, hp, hz, hcase⟩
  · rw [hk]
    have hrest := Pcb.restart_same (q := s.kernel.pcbs p) rfl (n p)
    exact hrest.symm ▸ h p
  · rcases hcase with ⟨_, hk⟩ | ⟨rfl, hk⟩
    · obtain ⟨hc, hprio⟩ := h.killed target p contextEsp 0#32
      rw [hk, Pcb.restart_same hprio]
      exact hc
    · have hended := (Kernel.killTarget_spec s.kernel s.kernel.current).1.setEax contextEsp 0#32
      -- The caller is TERMINATED by now, so nobody is charged.
      have hidle : ((s.kernel.killTarget s.kernel.current).setEax contextEsp 0#32).cur.state ≠ .running := by
        rw [hended.cur_terminated]
        decide
      have hd := Kernel.dispatch_charged (fun p => (h.killed s.kernel.current p contextEsp 0#32).1)
        (hs.killed hp hz contextEsp).ready hctx (fun _ hr => absurd hr hidle : false = false → _) p
      rw [hk]
      have hsame := (h.killed s.kernel.current p contextEsp 0#32).2
      simpa [Pcb.restart, hsame] using hd

theorem ChargedBy.sleep (h : s.ChargedBy n) (hi : s.Idle) (ms : Word) :
    (s.next (.sleep ms)).ChargedBy (s.noteTicks (.sleep ms) n) := by
  refine h.same rfl (fun _ => rfl) fun p m hm => ?_
  simp only [next]
  rcases s.kernel.sleep_cases ms with hk | ⟨_, wakeTick, q, hk, _⟩
  · rw [hk]
    exact ⟨hm, rfl⟩
  · rw [hk]
    dsimp only
    rw [Kernel.modify_pcbs]
    split
    · rename_i hp
      rw [hp] at hm ⊢
      refine ⟨hm.of_eq rfl rfl rfl rfl (fun hr => ?_) (fun _ => ?_), rfl⟩
      · cases hr
      · rw [show (s.kernel.pcbs s.kernel.current).state = .running from hi.1]
        decide
    · exact ⟨hm, rfl⟩

/-- An action that touches no PCB at all. -/
theorem ChargedBy.rests (h : s.ChargedBy n) {a : Action} (taken : s.kernel.slotTaken a = none)
    (tick : ∀ p, s.runsAtTick a p = false) (hk : (s.next a).kernel.pcbs = s.kernel.pcbs) :
    (s.next a).ChargedBy (s.noteTicks a n) := by
  refine h.same taken tick fun p m hm => ?_
  rw [hk]
  exact ⟨hm, rfl⟩

/-- Lock code. -/
theorem ChargedBy.locks (h : s.ChargedBy n) {a : Action} (taken : s.kernel.slotTaken a = none)
    (tick : ∀ p, s.runsAtTick a p = false) (hstored : s.kernel.Stored (s.next a).kernel)
    (hframe : LockFrame s.kernel (s.next a).kernel) : (s.next a).ChargedBy (s.noteTicks a n) := by
  apply ChargedBy.unfilled taken
  intro p
  rw [ticksRun_untimed tick]
  exact (h p).stored (hstored p) (hframe.pcbs p)

theorem ChargedBy.tick (h : s.ChargedBy n) (hs : s.ShellInv) {contextEsp : Word}
    (hctx : contextEsp ≠ 0#32) :
    (s.next (.tick contextEsp)).ChargedBy (s.noteTicks (.tick contextEsp) n) := by
  apply ChargedBy.unfilled rfl
  intro p
  cases ht : s.kernel.timerStarted with
  | false =>
    have hk : (s.next (.tick contextEsp)).kernel = s.kernel := by
      simp [next, Kernel.schedulerTick, ht]
    have hrun : s.ticksRun (.tick contextEsp) n p = n p := by simp [ticksRun, runsAtTick, ht]
    rw [hk, Pcb.restart_same rfl, hrun]
    exact h p
  | true =>
    have hk : (s.next (.tick contextEsp)).kernel = (s.kernel.dispatch contextEsp true).2 := by
      simp [next, Kernel.schedulerTick, ht]
    have hrun : s.ticksRun (.tick contextEsp) n p =
        if true = true ∧ p = s.kernel.current ∧ (s.kernel.pcbs p).state = .running then n p + 1
        else n p := by
      simp [ticksRun, runsAtTick, ht]
    rw [hk, hrun]
    exact Kernel.dispatch_charged h hs.ready hctx (fun hc => by cases hc) p

theorem ChargedBy.yield (h : s.ChargedBy n) (hs : s.ShellInv) {contextEsp : Word}
    (hctx : contextEsp ≠ 0#32) (hrun : s.TicksOnly (.yield contextEsp)) :
    (s.next (.yield contextEsp)).ChargedBy (s.noteTicks (.yield contextEsp) n) := by
  apply ChargedBy.unfilled rfl
  intro p
  rw [ticksRun_untimed fun _ => rfl]
  have hd := Kernel.dispatch_charged h hs.ready hctx (fun _ => hrun : false = false → _) p
  rw [if_neg (by simp)] at hd
  exact hd

theorem ChargedBy.exit (h : s.ChargedBy n) : (s.next .exit).ChargedBy (s.noteTicks .exit n) := by
  refine h.same rfl (fun _ => rfl) fun p m hm => ?_
  simp only [next, Kernel.processExit]
  split
  · exact ⟨hm, rfl⟩
  · simp only [Kernel.processDecrementCount]
    rw [Kernel.modify_pcbs]
    split
    · rename_i hp
      rw [hp] at hm ⊢
      exact ⟨hm.of_eq rfl rfl rfl rfl (fun hr => by cases hr) fun ht => absurd rfl ht, rfl⟩
    · exact ⟨hm, rfl⟩

theorem step_charged (h : s.ChargedBy n) (hs : s.ShellInv) {a : Action} (he : s.Enabled a)
    (hrun : s.TicksOnly a) : (s.next a).ChargedBy (s.noteTicks a n) := by
  have hcur := h s.kernel.current
  cases a with
  | start => exact h.rests rfl (fun _ => rfl) rfl
  | create entry name =>
    refine h.creating rfl rfl (fun _ => rfl) (fun hn => ?_) fun p hp => ⟨?_, ?_⟩
    · rw [Kernel.processCreateNamed_none hn]
    · exact (Kernel.processCreateNamed_spec hp name).1
    · exact charged_of_profile (Kernel.processCreateNamed_profile hp name) rfl rfl rfl (Nat.le_refl 4)
  | threadCreate entry arg name =>
    refine h.creating rfl rfl (fun _ => rfl) (fun hn => ?_) fun p hp => ⟨?_, ?_⟩
    · rw [Kernel.threadCreateNamed_none hn]
    · exact (Kernel.threadCreateNamed_spec hp arg name).1
    · exact charged_of_profile (Kernel.threadCreateNamed_profile hp arg name) hcur.base
        (hcur.running he.1) rfl (Nat.le_refl 4)
  | fork contextEsp => exact h.fork he.2 contextEsp
  | tick contextEsp => exact h.tick hs he
  | yield contextEsp => exact h.yield hs he.1 hrun
  | sleep ms => exact h.sleep he ms
  | blockForever =>
    exact h.locks rfl (fun _ => rfl) (Kernel.blockForever_stored _)
      (Kernel.blockForever_frame _ (by rw [he.1]; decide))
  | wake p =>
    cases p with
    | none => exact h.rests rfl (fun _ => rfl) rfl
    | some p => exact h.locks rfl (fun _ => rfl) (Kernel.wake_stored _ p) (Kernel.wake_frame _ p)
  | kill contextEsp pid => exact h.kill hs he.1 pid
  | exit => exact h.exit
  | mutexInit m =>
    exact h.locks rfl (fun _ => rfl) (Kernel.lazyInit_stored _ (.mutex m))
      (Kernel.lazyInit_frame _ (.mutex m))
  | semInit i initialCount => exact h.rests rfl (fun _ => rfl) rfl
  | rwlockInit r => exact h.rests rfl (fun _ => rfl) rfl
  | acquire l => exact h.rests rfl (fun _ => rfl) rfl
  | unlock l => exact h.rests rfl (fun _ => rfl) rfl
  | proceed =>
    exact h.locks rfl (fun _ => rfl) (Kernel.advance_stored _ s.here) (hs.advance_frame he.1)

theorem boot_charged (b : Boot) : (boot b).ChargedBy fun _ => 0 := by
  intro p
  by_cases hp : p = 0
  · subst hp
    change Kernel.shellPcb.Charged 0
    exact ⟨rfl, fun _ => rfl, fun _ => rfl, fun _ => by decide, Nat.le_refl _⟩
  · change (Function.update (fun _ => Kernel.emptyPcb) 0 Kernel.shellPcb p).Charged 0
    rw [Function.update_of_ne hp]
    exact ⟨rfl, fun _ => rfl, fun _ => rfl, fun ht => absurd rfl ht, Nat.le_refl _⟩

theorem reach_charged {b : Boot} {s : OsState × (PcbRef → Nat)}
    (h : tickMachine.Reach (fun s a => s.1.TicksOnly a) (boot b, fun _ => 0) s) :
    s.1.ChargedBy s.2 ∧ s.1.ShellInv := by
  refine h.invariant (I := fun s => s.1.ChargedBy s.2 ∧ s.1.ShellInv)
    ⟨boot_charged b, boot_shell b⟩ fun s a hs he hrun => ?_
  exact ⟨step_charged hs.1 hs.2 he hrun, step_shell hs.2 a he⟩

/-- Ending a process leaves all levels alone. -/
theorem killTarget_level (k : Kernel) (target p : PcbRef) (contextEsp v : Word) :
    ((k.killTarget target).setEax contextEsp v).level p = k.level p := by
  change ((k.killTarget target).pcbs p).priority.toNat = (k.pcbs p).priority.toNat
  rw [killTarget_pcbs]
  split
  · rename_i hp
    rw [hp]
    rfl
  · rfl

/-- Only a tick takes a level away, from the process on the CPU. -/
theorem decides_demotes (hs : s.ShellInv) {a : Action} (he : s.Enabled a)
    (hd : (s.decides a).isSome) {p : PcbRef}
    (hup : s.kernel.level p < (s.next a).kernel.level p) :
    s.runsAtTick a p = true ∧ p = s.kernel.current ∧ s.kernel.Demotes := by
  obtain ⟨k, hk⟩ := Option.isSome_iff_exists.mp hd
  obtain ⟨j, contextEsp, countTick, hj, -, hnext⟩ := decides_dispatch hk
  obtain ⟨hready, hctx⟩ := hj.shell hs (.inl he)
  have hlevel : j.level p = s.kernel.level p := by
    cases hj with
    | tick _ _ | yield _ => rfl
    | kill _ _ _ _ => exact killTarget_level _ _ _ _ _
  rw [hnext, ← hlevel] at hup
  obtain ⟨hcount, hp, hdem⟩ := Kernel.dispatch_demotes hready hctx hup
  cases hj with
  | tick _ started =>
    subst hp
    have hr : (s.kernel.pcbs s.kernel.current).state = .running := hdem.1
    exact ⟨by simp [runsAtTick, started, hr], rfl, hdem⟩
  | yield _ | kill _ _ _ _ => cases hcount

/-- **A demotion charges timer ticks.** In a run in which only the shell yields
while it is RUNNING, a process whose priority number a dispatch raises from
`level` to `level + 1` was the RUNNING process at `quantum[level]` ticks or more
since it came to that level. -/
theorem demotion_charges_ticks {b : Boot} {s : OsState × (PcbRef → Nat)}
    (h : tickMachine.Reach (fun s a => s.1.TicksOnly a) (boot b, fun _ => 0) s) {a : Action}
    (he : s.1.Enabled a) (hd : (s.1.decides a).isSome) {p : PcbRef} {level : Nat}
    (hold : (s.1.kernel.pcbs p).priority.toNat = level)
    (hnew : ((s.1.next a).kernel.pcbs p).priority.toNat = level + 1) :
    (Kernel.quantum level).toNat ≤ s.1.ticksRun a s.2 p := by
  obtain ⟨hc, hs⟩ := reach_charged h
  have hup : s.1.kernel.level p < (s.1.next a).kernel.level p := by
    rw [Kernel.level, Kernel.level, hold, hnew]
    exact Nat.lt_succ_self level
  obtain ⟨hrun, rfl, hdem⟩ := decides_demotes hs he hd hup
  have hcur := hc s.1.kernel.current
  have hlevel : level = 0 := by
    rw [← hold, hcur.running hdem.1]
    rfl
  have hquantum : 4 ≤ s.1.kernel.cur.quantumTicks.toNat := by
    apply hcur.quantum
    rw [show (s.1.kernel.pcbs s.1.kernel.current).state = .running from hdem.1]
    decide
  have hticks : s.1.kernel.cur.quantumTicks.toNat ≤ s.1.kernel.cur.ticksUsed.toNat + 1 := by
    have hle : s.1.kernel.cur.quantumTicks.toNat ≤ (s.1.kernel.cur.ticksUsed + 1#8).toNat := hdem.2.2.1
    rw [BitVec.toNat_add] at hle
    exact hle.trans (Nat.mod_le _ _)
  rw [hlevel, ticksRun, if_pos hrun]
  calc (Kernel.quantum 0).toNat = 4 := rfl
    _ ≤ s.1.kernel.cur.quantumTicks.toNat := hquantum
    _ ≤ s.1.kernel.cur.ticksUsed.toNat + 1 := hticks
    _ ≤ s.2 s.1.kernel.current + 1 := Nat.succ_le_succ hcur.counted

/-! ## Yields that cost a level -/

/-- A process that yields three times between its first ticks. -/
def yieldRun : List Action :=
  [.start, .create 0x20000#32 none, .yield 0x9000#32, .yield 0x101000#32, .yield 0x9000#32,
    .yield 0x101000#32, .yield 0x9000#32, .yield 0x101000#32, .yield 0x9000#32]

/-- The first timer tick the process ever sees takes its level away. -/
theorem yields_demote :
    let s := tickMachine.after (boot smallBoot, fun _ => 0) yieldRun
    tickMachine.Reach (fun _ _ => True) (boot smallBoot, fun _ => 0) s ∧
      s.1.Enabled (.tick 0x101000#32) ∧ (s.1.decides (.tick 0x101000#32)).isSome ∧
      (s.1.kernel.pcbs 1).priority.toNat = 0 ∧
      ((s.1.next (.tick 0x101000#32)).kernel.pcbs 1).priority.toNat = 1 ∧
      s.1.ticksRun (.tick 0x101000#32) s.2 1 = 1 ∧ (Kernel.quantum 0).toNat = 4 := by
  have run : tickMachine.Accepts (fun _ _ => True) (boot smallBoot, fun _ => 0) yieldRun := by
    decide +kernel
  refine ⟨Machine.Reach.accepts .start run, ?_⟩
  decide +kernel

/-- A process that never yields runs for four ticks. -/
def tickRun : List Action :=
  [.start, .create 0x20000#32 none, .tick 0x9000#32, .tick 0x101000#32, .tick 0x9000#32,
    .tick 0x101000#32, .tick 0x9000#32, .tick 0x101000#32, .tick 0x9000#32]

theorem ticks_demote :
    let s := tickMachine.after (boot smallBoot, fun _ => 0) tickRun
    ((s.1.next (.tick 0x101000#32)).kernel.pcbs 1).priority.toNat = 1 ∧
      (Kernel.quantum 0).toNat ≤ s.1.ticksRun (.tick 0x101000#32) s.2 1 := by
  intro s
  have run : tickMachine.Accepts (fun s a => s.1.TicksOnly a) (boot smallBoot, fun _ => 0) tickRun := by
    decide +kernel
  have reached : tickMachine.Reach (fun s a => s.1.TicksOnly a) (boot smallBoot, fun _ => 0) s :=
    Machine.Reach.accepts .start run
  have facts : s.1.Enabled (.tick 0x101000#32) ∧ (s.1.decides (.tick 0x101000#32)).isSome ∧
      (s.1.kernel.pcbs 1).priority.toNat = 0 ∧
      ((s.1.next (.tick 0x101000#32)).kernel.pcbs 1).priority.toNat = 1 := by
    decide +kernel
  exact ⟨facts.2.2.2, demotion_charges_ticks reached facts.1 facts.2.1 facts.2.2.1 facts.2.2.2⟩

end

end OsState

end SengOS
