import SengOS.Kernel.Waiting
import SengOS.Kernel.Lifecycle

/-!
# The sleep queue

As long as no lock code runs, the queue holds exactly the BLOCKED processes, in
the order of their wake-up times, and none of these times has passed. So the
loop of `wake_sleepers`, which stops at the first sleeper that is not due, wakes
all that are.
-/

namespace SengOS

namespace Kernel

structure SleepInv (k : Kernel) : Prop where
  nodup : k.sleepQueue.Nodup
  sorted : ByKey k.wakeTime k.sleepQueue
  members : ∀ p, p ∈ k.sleepQueue ↔ (k.pcbs p).state = .blocked
  future : ∀ p ∈ k.sleepQueue, k.tickCount.toNat < k.wakeTime p

section
variable {k k' : Kernel}

/-- A step that leaves the queue, the clock and the sleepers alone. -/
theorem SleepInv.of_same (h : k.SleepInv) (hq : k'.sleepQueue = k.sleepQueue)
    (ht : k'.tickCount = k.tickCount)
    (hstate : ∀ p, (k'.pcbs p).state = .blocked ↔ (k.pcbs p).state = .blocked)
    (hwake : ∀ p, (k.pcbs p).state = .blocked → (k'.pcbs p).wakeTick = (k.pcbs p).wakeTick) :
    k'.SleepInv := by
  have same : ∀ p ∈ k.sleepQueue, k'.wakeTime p = k.wakeTime p := fun p hp =>
    congrArg BitVec.toNat (hwake p ((h.members p).mp hp))
  refine ⟨by rw [hq]; exact h.nodup, by rw [hq]; exact h.sorted.congr same, fun p => ?_, fun p hp => ?_⟩
  · rw [hq, hstate]
    exact h.members p
  · rw [hq] at hp
    rw [ht, same p hp]
    exact h.future p hp

/-! ## Going to sleep -/

/-- The running process has gone to sleep until `wakeTick`. -/
structure Slept (k : Kernel) (wakeTick : Word) (k' : Kernel) : Prop where
  self : k'.pcbs k.current = { k.cur with wakeTick := wakeTick, state := .blocked }
  others : ∀ p, p ≠ k.current → k'.pcbs p = k.pcbs p
  clock : k'.tickCount = k.tickCount
  queue : k'.sleepQueue = insertByKey k'.wakeTime k.current k.sleepQueue

/-- A process that is not in the queue finds room there. -/
theorem sleep_slept (hnodup : k.sleepQueue.Nodup) (hnew : k.current ∉ k.sleepQueue) {ms : Word}
    (hgo : ¬ (k.cur.pid = 0#32 ∨ (ms + 9#32) / 10#32 = 0#32)) :
    Slept k (k.tickCount + (ms + 9#32) / 10#32) (k.sleep ms) := by
  have hroom : ¬ 16 ≤ k.sleepQueue.length := by
    have := (List.nodup_cons.mpr ⟨hnew, hnodup⟩).length_le_card
    simp only [List.length_cons, Fintype.card_fin] at this
    omega
  have hsleep := sleep_eq k ms
  rw [if_neg hgo, sleepQueueInsert_eq, modify_sleepQueue, if_neg hroom] at hsleep
  rw [hsleep]
  exact ⟨Function.update_self _ _ _, fun p hp => Function.update_of_ne hp _ _, rfl, rfl⟩

section Slept
variable {wakeTick : Word}

theorem Slept.mem_iff (h : Slept k wakeTick k') (p : PcbRef) :
    p ∈ k'.sleepQueue ↔ p = k.current ∨ p ∈ k.sleepQueue := by
  rw [h.queue, (insertByKey_perm _ _ _).mem_iff, List.mem_cons]

theorem Slept.nodup (h : Slept k wakeTick k') (hnodup : k.sleepQueue.Nodup)
    (hnew : k.current ∉ k.sleepQueue) : k'.sleepQueue.Nodup := by
  rw [h.queue]
  exact (insertByKey_perm _ _ _).nodup_iff.mpr (List.nodup_cons.mpr ⟨hnew, hnodup⟩)

theorem Slept.wakeTime_self (h : Slept k wakeTick k') : k'.wakeTime k.current = wakeTick.toNat := by
  rw [wakeTime, h.self]

theorem Slept.wakeTime_old (h : Slept k wakeTick k') (hnew : k.current ∉ k.sleepQueue) :
    ∀ p ∈ k.sleepQueue, k'.wakeTime p = k.wakeTime p := by
  intro p hp
  rw [wakeTime, h.others p (fun he => hnew (he ▸ hp)), wakeTime]

theorem Slept.sorted (h : Slept k wakeTick k') (hnew : k.current ∉ k.sleepQueue)
    (hsorted : ByKey k.wakeTime k.sleepQueue) : ByKey k'.wakeTime k'.sleepQueue := by
  rw [h.queue]
  exact (hsorted.congr (h.wakeTime_old hnew)).insert k.current

end Slept

theorem SleepInv.sleep (h : k.SleepInv) (hc : k.cur.state ≠ .blocked) (ms : Word)
    (hlimit : k.tickCount.toNat + ((ms + 9#32) / 10#32).toNat < 2 ^ 32) : (k.sleep ms).SleepInv := by
  by_cases hgo : k.cur.pid = 0#32 ∨ (ms + 9#32) / 10#32 = 0#32
  · rw [sleep_eq, if_pos hgo]
    exact h
  · have hnew : k.current ∉ k.sleepQueue := fun hin => hc ((h.members _).mp hin)
    have hslept := sleep_slept h.nodup hnew hgo
    have hticks : (k.sleep ms).wakeTime k.current = k.tickCount.toNat + ((ms + 9#32) / 10#32).toNat := by
      rw [hslept.wakeTime_self, BitVec.toNat_add, Nat.mod_eq_of_lt hlimit]
    have hlong : 0 < ((ms + 9#32) / 10#32).toNat := by
      rw [not_or] at hgo
      exact Nat.pos_of_ne_zero fun he => hgo.2 (BitVec.eq_of_toNat_eq he)
    constructor
    · exact hslept.nodup h.nodup hnew
    · exact hslept.sorted hnew h.sorted
    · intro p
      rw [hslept.mem_iff]
      by_cases hp : p = k.current
      · subst hp
        simp [hslept.self]
      · rw [hslept.others p hp]
        simp [hp, h.members p]
    · intro p hp
      rw [hslept.clock]
      rcases (hslept.mem_iff p).mp hp with rfl | hp
      · omega
      · rw [hslept.wakeTime_old hnew p hp]
        exact h.future p hp

/-! ## Creation and ends -/

theorem giveStack_tickCount (k : Kernel) (p : PcbRef) (name : Option CStr) (default : List Byte) :
    (giveStack k p name default).2.tickCount = k.tickCount := by
  unfold giveStack
  dsimp only
  split <;> rfl

theorem processCreateNamed_tickCount (k : Kernel) (entry : Word) (name : Option CStr) :
    (k.processCreateNamed entry name).2.tickCount = k.tickCount := by
  unfold processCreateNamed
  split
  · rfl
  · split
    · rfl
    · rw [giveStack_tickCount]
      rfl

theorem threadCreateNamed_tickCount (k : Kernel) (entry arg : Word) (name : Option CStr) :
    (k.threadCreateNamed entry arg name).2.tickCount = k.tickCount := by
  unfold threadCreateNamed
  split
  · rfl
  · split
    · rfl
    · rw [giveStack_tickCount]
      rfl

theorem forkInto_tickCount (k : Kernel) (contextEsp : Word) (child : PcbRef) (frame : Word) :
    (k.forkInto contextEsp child frame).tickCount = k.tickCount := by
  obtain ⟨pastTable, heq⟩ := forkInto_eq k contextEsp child frame
  rw [heq]

theorem schedulerFork_tickCount (k : Kernel) (contextEsp : Word) :
    (k.schedulerFork contextEsp).2.tickCount = k.tickCount := by
  unfold schedulerFork
  split
  · dsimp only
    split <;> rfl
  · split
    · rfl
    · dsimp only
      split
      · rfl
      · rw [forkInto_tickCount]
        rfl

/-- The slot of a new process held none before. -/
theorem SleepInv.born (h : k.SleepInv) {p : PcbRef} (hp : (k.pcbs p).state = .terminated)
    (hready : (k'.pcbs p).state = .ready)
    (hothers : ∀ q, q ≠ p → (k'.pcbs q).state = (k.pcbs q).state ∧
      (k'.pcbs q).wakeTick = (k.pcbs q).wakeTick)
    (hq : k'.sleepQueue = k.sleepQueue) (ht : k'.tickCount = k.tickCount) : k'.SleepInv := by
  apply h.of_same hq ht
  · intro q
    by_cases hqp : q = p
    · subst hqp
      simp [hready, hp]
    · rw [(hothers q hqp).1]
  · intro q hb
    have hqp : q ≠ p := by
      rintro rfl
      rw [hp] at hb
      cases hb
    exact (hothers q hqp).2

theorem SleepInv.created (h : k.SleepInv) {p : PcbRef} (hc : Created k p k')
    (hp : (k.pcbs p).state = .terminated) (ht : k'.tickCount = k.tickCount) : k'.SleepInv := by
  refine h.born hp hc.ready (fun q hq => ?_) hc.sleepQueue ht
  rw [hc.others q hq]
  exact ⟨rfl, rfl⟩

theorem SleepInv.fork (h : k.SleepInv) (contextEsp : Word) :
    (k.schedulerFork contextEsp).2.SleepInv := by
  have ht := schedulerFork_tickCount k contextEsp
  cases hc : k.forkTarget with
  | none =>
    have hf := schedulerFork_refused hc contextEsp
    refine h.of_same hf.sleepQueue ht (fun p => ?_) (fun p _ => ?_)
    · rcases hf.pcbs p with hq | ⟨_, _, hq⟩ <;> rw [hq]
    · rcases hf.pcbs p with hq | ⟨_, _, hq⟩ <;> rw [hq]
  | some child =>
    have hf := schedulerFork_spec hc contextEsp
    have hslot := freeSlot_some (forkTarget_some hc).2.2
    refine h.born hslot.2.1 hf.ready (fun q hq => ?_) hf.sleepQueue ht
    rw [hf.others q hq]
    exact ⟨rfl, rfl⟩

theorem SleepInv.ended (h : k.SleepInv) {p : PcbRef} (he : Ended k p k')
    (hq : k'.sleepQueue = k.sleepQueue.erase p) (ht : k'.tickCount = k.tickCount) :
    k'.SleepInv := by
  have left {q : PcbRef} (hin : q ∈ k'.sleepQueue) : q ≠ p ∧ q ∈ k.sleepQueue := by
    rw [hq] at hin
    exact (List.Nodup.mem_erase_iff h.nodup).mp hin
  have same : ∀ q ∈ k.sleepQueue.erase p, k'.wakeTime q = k.wakeTime q := by
    intro q hin
    rw [wakeTime, he.others q (left (hq ▸ hin)).1, wakeTime]
  constructor
  · rw [hq]
    exact h.nodup.erase p
  · rw [hq]
    exact (h.sorted.erase p).congr same
  · intro q
    by_cases hqp : q = p
    · subst hqp
      rw [he.terminated]
      exact iff_of_false (fun hin => (left hin).1 rfl) (by decide)
    · rw [hq, List.mem_erase_of_ne hqp, he.others q hqp]
      exact h.members q
  · intro q hin
    obtain ⟨-, hold⟩ := left hin
    rw [ht, same q (hq ▸ hin)]
    exact h.future q hold

theorem SleepInv.killed (h : k.SleepInv) (p : PcbRef) (contextEsp v : Word) :
    ((k.killTarget p).setEax contextEsp v).SleepInv := by
  obtain ⟨he, hq⟩ := killTarget_spec k p
  exact (h.ended he hq rfl).of_same rfl rfl (fun _ => .rfl) fun _ _ => rfl

theorem SleepInv.exit (h : k.SleepInv) (hc : k.cur.state ≠ .blocked) : k.processExit.SleepInv := by
  by_cases hp : k.cur.pid = 0#32
  · rw [processExit, if_pos hp]
    exact h
  · obtain ⟨he, hq⟩ := processExit_spec k hp
    have hout : k.current ∉ k.sleepQueue := fun hin => hc ((h.members _).mp hin)
    refine h.ended he ?_ ?_
    · rw [List.erase_of_not_mem hout]
      exact hq
    · rw [processExit, if_neg hp]
      rfl

/-! ## Waking up -/

/-- Of the processes that were BLOCKED the step woke those whose time has come, to
the top level, and no other. -/
structure WakesDue (k k' : Kernel) : Prop where
  due : ∀ p, (k.pcbs p).state = .blocked → k.wakeTime p ≤ k'.tickCount.toNat →
    ((k'.pcbs p).state = .ready ∨ (k'.pcbs p).state = .running) ∧ (k'.pcbs p).priority = 0#8
  later : ∀ p, (k.pcbs p).state = .blocked → k'.tickCount.toNat < k.wakeTime p →
    (k'.pcbs p).state = .blocked

theorem suspend_wakeTick (contextEsp eip : Word) (countTick : Bool) (q : Pcb) :
    (suspend contextEsp eip countTick q).wakeTick = q.wakeTick := by
  unfold suspend charge
  dsimp only
  repeat' split
  all_goals rfl

/-- A process that is not RUNNING is not charged. -/
theorem suspend_priority_of_not_running (contextEsp eip : Word) (countTick : Bool) {q : Pcb}
    (h : q.state ≠ .running) : (suspend contextEsp eip countTick q).priority = q.priority := by
  unfold suspend
  dsimp only
  rw [if_neg (by split <;> exact h)]
  split <;> rfl

section Switched
variable {contextEsp : Word} {countTick : Bool} {woken : List PcbRef} {next p : PcbRef}

theorem switched_wakeTick (hw : p ∉ woken) :
    (k.switched contextEsp countTick woken next p).wakeTick = (k.pcbs p).wakeTick := by
  simp only [switched, suspended, if_neg hw]
  split
  · exact suspend_wakeTick _ _ _ _
  · rfl

theorem switched_blocked
    (hnext : (k.suspended contextEsp (k.frameWord contextEsp 8) countTick woken next).state = .ready ∨
      (k.suspended contextEsp (k.frameWord contextEsp 8) countTick woken next).state = .running) :
    (k.switched contextEsp countTick woken next p).state = .blocked ↔
      (k.pcbs p).state = .blocked ∧ p ∉ woken := by
  have hs := suspended_state k contextEsp (k.frameWord contextEsp 8) countTick woken p
  simp only [switched]
  by_cases hp : p = next
  · subst hp
    grind
  · grind

theorem switched_woken (hw : p ∈ woken) (hb : (k.pcbs p).state = .blocked) :
    ((k.switched contextEsp countTick woken next p).state = .ready ∨
      (k.switched contextEsp countTick woken next p).state = .running) ∧
    (k.switched contextEsp countTick woken next p).priority = 0#8 := by
  have hs := suspended_state k contextEsp (k.frameWord contextEsp 8) countTick woken p
  rw [if_pos ⟨hw, hb⟩] at hs
  constructor
  · simp only [switched, hs]
    grind
  · have hup : (wakeUp (k.pcbs p)).priority = 0#8 ∧ (wakeUp (k.pcbs p)).state ≠ .running := by
      simp [wakeUp, hb]
    simp only [switched, suspended, if_pos hw]
    split
    · rw [suspend_priority_of_not_running _ _ _ hup.2]
      exact hup.1
    · exact hup.1

end Switched

/-- In a sorted queue without a time that has passed the sleepers that a dispatch
wakes are those whose time has come. -/
theorem SleepInv.woken_iff (h : k.SleepInv) {countTick : Bool} {woken rest : List PcbRef}
    (hw : k.Woken countTick woken rest) (p : PcbRef) (hp : p ∈ k.sleepQueue) :
    p ∈ woken ↔ k.wakeTime p ≤ (k.clock countTick).toNat := by
  have hsplit := hw.queue
  have hsorted : ByKey k.wakeTime (woken ++ rest) := hsplit ▸ h.sorted
  constructor
  · intro hin
    exact hw.due h.nodup p hin
  · intro hle
    by_contra hout
    have hrest : p ∈ rest := (List.mem_append.mp (hsplit ▸ hp)).resolve_left hout
    cases countTick with
    | false => exact absurd (h.future p hp) (Nat.not_lt.mpr hle)
    | true =>
      have first : ∀ q ∈ rest.head?, (k.clock true).toNat < k.wakeTime q := by
        intro q hq
        rcases hw.later h.nodup rfl q hq with hz | hlt
        · have hin : q ∈ k.sleepQueue := by
            rw [hsplit]
            exact List.mem_append_right _ (List.mem_of_mem_head? hq)
          have := h.future q hin
          rw [wakeTime, hz] at this
          exact absurd this (Nat.not_lt_zero _)
        · exact hlt
      have hafter : ByKey k.wakeTime rest := hsorted.sublist (List.sublist_append_right _ _)
      exact absurd (hafter.not_due first p hrest) (Nat.not_lt.mpr hle)

theorem SleepInv.dispatch (h : k.SleepInv) (hs : k.ShellReady) {contextEsp : Word}
    (hctx : contextEsp ≠ 0#32) (countTick : Bool) :
    (k.dispatch contextEsp countTick).2.SleepInv ∧ k.WakesDue (k.dispatch contextEsp countTick).2 := by
  obtain ⟨woken, rest, next, hw, hnext, -, hd⟩ := dispatch_switched hs hctx countTick
  have hin (p : PcbRef) (hb : (k.pcbs p).state = .blocked) := h.woken_iff hw p ((h.members p).mpr hb)
  have hsplit := hw.queue
  have hnodup : (woken ++ rest).Nodup := hsplit ▸ h.nodup
  have hrest {p : PcbRef} (hp : p ∈ rest) : p ∈ k.sleepQueue ∧ p ∉ woken := by
    refine ⟨hsplit ▸ List.mem_append_right _ hp, fun hw => ?_⟩
    exact List.disjoint_of_nodup_append hnodup hw hp
  rw [hd]
  have same : ∀ p ∈ rest, (k.switched contextEsp countTick woken next p).wakeTick.toNat =
      k.wakeTime p := fun p hp => congrArg BitVec.toNat (switched_wakeTick (hrest hp).2)
  constructor
  · constructor
    · exact hnodup.of_append_right
    · have hsorted : ByKey k.wakeTime (woken ++ rest) := hsplit ▸ h.sorted
      exact ByKey.congr (hsorted.sublist (List.sublist_append_right _ _)) same
    · intro p
      dsimp only
      rw [switched_blocked hnext]
      constructor
      · intro hp
        exact ⟨(h.members p).mp (hrest hp).1, (hrest hp).2⟩
      · rintro ⟨hb, hout⟩
        have := (h.members p).mpr hb
        rw [hsplit] at this
        exact (List.mem_append.mp this).resolve_left hout
    · intro p hp
      have hlate := (not_congr (h.woken_iff hw p (hrest hp).1)).mp (hrest hp).2
      rw [not_le] at hlate
      exact Nat.lt_of_lt_of_eq hlate (same p hp).symm
  · constructor
    · intro p hb hle
      exact switched_woken ((hin p hb).mpr hle) hb
    · intro p hb hlt
      apply (switched_blocked hnext).mpr
      exact ⟨hb, fun hw => absurd ((hin p hb).mp hw) (Nat.not_le.mpr hlt)⟩

end

end Kernel

namespace OsState

/-- Runs without lock operations in which no wake-up time passes 2^32. -/
def SleepRun (s : OsState) : Action → Prop
  | .sleep ms => s.kernel.tickCount.toNat + ((ms + 9#32) / 10#32).toNat < 2 ^ 32
  | a => Beside a = true

instance (s : OsState) (a : Action) : Decidable (s.SleepRun a) := by
  apply Action.casesOn (motive := fun a => Decidable (s.SleepRun a)) a <;> intros <;>
    unfold SleepRun <;> infer_instance

section
variable {s : OsState}

/-- A process that is blocked runs no code. -/
theorem enabled_not_blocked {a : Action} (he : lateMachine.enabled s a)
    (ha : a = .exit ∨ ∃ ms, a = .sleep ms) : s.kernel.cur.state ≠ .blocked := by
  rcases he with he | ⟨hstate, -, -⟩
  · rcases ha with rfl | ⟨ms, rfl⟩
    · rw [he.1]
      decide
    · rw [he.1]
      decide
  · rcases hstate with hstate | hstate
    · rw [hstate]
      decide
    · rw [hstate]
      decide

theorem step_sleepInv (h : s.kernel.SleepInv) (hs : s.ShellInv) {a : Action}
    (he : lateMachine.enabled s a) (hrun : s.SleepRun a) : (s.next a).kernel.SleepInv := by
  have creating {entry : Word} {created : Option PcbRef × Kernel}
      (hnone : s.kernel.createTarget entry = none → created.2 = s.kernel)
      (hsome : ∀ p, s.kernel.createTarget entry = some p → Kernel.Created s.kernel p created.2)
      (ht : created.2.tickCount = s.kernel.tickCount) : (s.creating entry created).kernel.SleepInv := by
    rw [creating_kernel]
    cases hp : s.kernel.createTarget entry with
    | none =>
      rw [hnone hp]
      exact h
    | some p =>
      have hslot := Kernel.freeSlot_some (Kernel.createTarget_some hp).2
      exact h.created (hsome p hp) hslot.2.1 ht
  cases a with
  | start => exact h.of_same rfl rfl (fun _ => .rfl) fun _ _ => rfl
  | create entry name =>
    refine creating (fun hn => ?_) (fun p hp => (Kernel.processCreateNamed_spec hp name).1)
      (Kernel.processCreateNamed_tickCount _ _ _)
    rw [Kernel.processCreateNamed_none hn]
  | threadCreate entry arg name =>
    refine creating (fun hn => ?_) (fun p hp => (Kernel.threadCreateNamed_spec hp arg name).1)
      (Kernel.threadCreateNamed_tickCount _ _ _ _)
    rw [Kernel.threadCreateNamed_none hn]
  | fork contextEsp =>
    rw [next_fork_kernel]
    exact h.fork contextEsp
  | tick contextEsp =>
    simp only [next, Kernel.schedulerTick]
    cases s.kernel.timerStarted with
    | false => exact h
    | true => exact (h.dispatch hs.ready (he.resolve_right fun hl => hl.2.2) true).1
  | yield contextEsp =>
    exact (h.dispatch hs.ready (he.resolve_right fun hl => hl.2.2).1 false).1
  | sleep ms => exact h.sleep (enabled_not_blocked he (.inr ⟨ms, rfl⟩)) ms hrun
  | kill contextEsp pid =>
    have hctx : contextEsp ≠ 0#32 := by
      rcases he with he | hl
      · exact he.1
      · exact hl.2.2
    simp only [next]
    rcases Kernel.schedulerKill_cases s.kernel contextEsp pid with ⟨_, hk⟩ | ⟨p, hp, hz, hcase⟩
    · rw [hk]
      exact h.of_same rfl rfl (fun _ => .rfl) fun _ _ => rfl
    · have hkilled := h.killed p contextEsp 0#32
      rcases hcase with ⟨_, hk⟩ | ⟨_, hk⟩
      · rw [hk]
        exact hkilled
      · rw [hk]
        exact (hkilled.dispatch (hs.killed hp hz contextEsp).ready hctx false).1
  | exit => exact h.exit (enabled_not_blocked he (.inl rfl))
  | _ => cases hrun

theorem boot_sleepInv (b : Boot) : (boot b).kernel.SleepInv := by
  have awake (p : PcbRef) : ((boot b).kernel.pcbs p).state ≠ .blocked := by
    by_cases hp : p = 0
    · subst hp
      change Kernel.shellPcb.state ≠ .blocked
      decide
    · change (Function.update (fun _ => Kernel.emptyPcb) 0 Kernel.shellPcb p).state ≠ .blocked
      rw [Function.update_of_ne hp]
      decide
  refine ⟨List.nodup_nil, List.Pairwise.nil, fun p => ?_, ?_⟩
  · exact iff_of_false List.not_mem_nil (awake p)
  · intro p hp
    cases hp

theorem reached_sleepInv {b : Boot} (h : lateMachine.Reach SleepRun (boot b) s) :
    s.kernel.SleepInv ∧ s.ShellInv := by
  refine h.invariant (I := fun s => s.kernel.SleepInv ∧ s.ShellInv)
    ⟨boot_sleepInv b, boot_shell b⟩ fun s a hs he hrun => ?_
  exact ⟨step_sleepInv hs.1 hs.2 he hrun, lateStep_shell hs.2 a he⟩

/-- **The sleep queue is exact.** In every state of a run without lock operations
the queue holds the BLOCKED processes and nobody else, each once, in the order of
their wake-up times, which are not 0; and every timer tick wakes those whose time
has come by the new `tick_count`, to the top level, and nobody else. -/
theorem sleep_queue_exact {b : Boot} (h : lateMachine.Reach SleepRun (boot b) s) :
    (s.kernel.sleepQueue.length ≤ 16 ∧ s.kernel.sleepQueue.Nodup ∧
      s.kernel.sleepQueue.Pairwise (fun p q => s.kernel.wakeTime p ≤ s.kernel.wakeTime q) ∧
      (∀ p, p ∈ s.kernel.sleepQueue ↔ (s.kernel.pcbs p).state = .blocked) ∧
      ∀ p ∈ s.kernel.sleepQueue, 0 < s.kernel.wakeTime p) ∧
    ∀ contextEsp, s.Enabled (.tick contextEsp) →
      s.kernel.WakesDue (s.next (.tick contextEsp)).kernel := by
  obtain ⟨hk, hs⟩ := reached_sleepInv h
  refine ⟨⟨?_, hk.nodup, hk.sorted, hk.members, fun p hp => ?_⟩, fun contextEsp he => ?_⟩
  · have := hk.nodup.length_le_card
    simpa using this
  · exact Nat.lt_of_le_of_lt (Nat.zero_le _) (hk.future p hp)
  · simp only [next, Kernel.schedulerTick]
    cases s.kernel.timerStarted with
    | true => exact (hk.dispatch hs.ready he true).2
    | false =>
      -- The clock stands still, and no sleeper is due.
      constructor
      · intro p hb hle
        exact absurd (hk.future p ((hk.members p).mpr hb)) (Nat.not_lt.mpr hle)
      · intro p hb _
        exact hb

/-- Two processes sleep for different times; the second tick is the shorter one's. -/
def twoSleepers : List Action :=
  [.start, .create 0x20000#32 none, .create 0x20000#32 none, .yield 0x9000#32, .sleep 30#32,
    .yield 0x101000#32, .sleep 10#32, .yield 0x102000#32]

theorem sleep_queue_two :
    let s := lateMachine.after (boot smallBoot) twoSleepers
    s.kernel.sleepQueue = [2, 1] ∧ s.kernel.WakesDue (s.next (.tick 0x9000#32)).kernel := by
  have run : lateMachine.Accepts SleepRun (boot smallBoot) twoSleepers ∧
      (lateMachine.after (boot smallBoot) twoSleepers).kernel.sleepQueue = [2, 1] := by
    decide +kernel
  have reached : lateMachine.Reach SleepRun (boot smallBoot)
      (lateMachine.after (boot smallBoot) twoSleepers) := Machine.Reach.accepts .start run.1
  exact ⟨run.2, (sleep_queue_exact reached).2 0x9000#32 (by decide)⟩

end

end OsState

end SengOS
