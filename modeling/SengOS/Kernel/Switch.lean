import SengOS.Lib.Deadlines
import SengOS.Kernel.System

/-!
# What the scheduler does to processes

A dispatch saves the context of the process it takes off the CPU, wakes the
sleepers whose time has come and makes one runnable process RUNNING. It always
finds one, because the shell is runnable on the top level. The other calls of
the scheduler change one slot and leave the rest of the table alone.
-/

namespace SengOS

namespace Pcb

/-- The parts of a PCB that the scheduler never changes while the process lives. -/
structure SameBody (q q' : Pcb) : Prop where
  pid : q'.pid = q.pid
  stackBase : q'.stackBase = q.stackBase
  stackTop : q'.stackTop = q.stackTop
  hasStack : q'.hasStack = q.hasStack
  waitingMutex : q'.waitingMutex = q.waitingMutex

theorem SameBody.refl (q : Pcb) : q.SameBody q := ⟨rfl, rfl, rfl, rfl, rfl⟩

theorem SameBody.trans {a b c : Pcb} (h : a.SameBody b) (h' : b.SameBody c) : a.SameBody c :=
  ⟨h'.pid.trans h.pid, h'.stackBase.trans h.stackBase, h'.stackTop.trans h.stackTop,
    h'.hasStack.trans h.hasStack, h'.waitingMutex.trans h.waitingMutex⟩

end Pcb

namespace Kernel

/-- Slot 0 holds the shell, and it can run. -/
structure ShellReady (k : Kernel) : Prop where
  pid : (k.pcbs 0).pid = 0#32
  runnable : (k.pcbs 0).state = .ready ∨ (k.pcbs 0).state = .running
  priority : (k.pcbs 0).priority = 0#8

theorem ShellReady.not_blocked {k : Kernel} (h : k.ShellReady) : (k.pcbs 0).state ≠ .blocked := by
  rcases h.runnable with h | h <;> rw [h] <;> decide

theorem ShellReady.not_terminated {k : Kernel} (h : k.ShellReady) :
    (k.pcbs 0).state ≠ .terminated := by
  rcases h.runnable with h | h <;> rw [h] <;> decide

/-! ## The choice -/

theorem foldl_bestLevel_le (k : Kernel) (is : List PcbRef) (best : Nat) :
    is.foldl (fun best i => if k.runnableAt i && (k.pcbs i).priority.toNat < best then
      (k.pcbs i).priority.toNat else best) best ≤ best := by
  induction is generalizing best with
  | nil => exact Nat.le_refl _
  | cons i is ih =>
    refine (ih _).trans ?_
    dsimp only
    split
    · rename_i h
      simp only [Bool.and_eq_true, decide_eq_true_eq] at h
      exact h.2.le
    · exact Nat.le_refl _

theorem bestLevel_shell {k : Kernel} (h : k.ShellReady) : k.bestLevel = 0 := by
  have hr : k.runnableAt 0 = true := by
    rcases h.runnable with h | h <;> simp [runnableAt, h]
  have hlist : List.finRange 16 = 0 :: (List.finRange 16).tail := rfl
  unfold bestLevel
  rw [hlist, List.foldl_cons]
  have := foldl_bestLevel_le k (List.finRange 16).tail
    (if k.runnableAt 0 && (k.pcbs 0).priority.toNat < 3 then (k.pcbs 0).priority.toNat else 3)
  simp only [hr, h.priority, BitVec.toNat_ofNat] at this ⊢
  simpa using this

theorem pickNext_runnable {k : Kernel} {start p : PcbRef} (h : k.pickNext start = some p) :
    (k.pcbs p).state = .ready ∨ (k.pcbs p).state = .running := by
  unfold pickNext at h
  split at h
  · cases h
  · have := List.find?_some h
    simp only [runnableAt, Bool.and_eq_true, Bool.or_eq_true, beq_iff_eq] at this
    exact this.1

theorem pickNext_level {k : Kernel} {start p : PcbRef} (h : k.pickNext start = some p) :
    (k.pcbs p).priority.toNat = k.bestLevel := by
  unfold pickNext at h
  split at h
  · cases h
  · have := List.find?_some h
    simp only [Bool.and_eq_true, beq_iff_eq] at this
    exact this.2

theorem pickNext_shell {k : Kernel} (h : k.ShellReady) (start : PcbRef) :
    ∃ p, k.pickNext start = some p := by
  have hr : k.runnableAt 0 = true := by
    rcases h.runnable with h | h <;> simp [runnableAt, h]
  unfold pickNext
  rw [bestLevel_shell h, if_neg (by decide)]
  refine Option.isSome_iff_exists.mp (List.find?_isSome.mpr ⟨0, ?_, ?_⟩)
  · exact List.mem_map.mpr ⟨-start, List.mem_finRange _, (by decide : ∀ i : PcbRef, i + -i = 0) start⟩
  · simp [hr, h.priority]

/-! ## The sleepers -/

theorem wakeUp_body (q : Pcb) : q.SameBody (wakeUp q) := by
  unfold wakeUp
  split <;> exact ⟨rfl, rfl, rfl, rfl, rfl⟩

theorem wakeUp_of_not_blocked {q : Pcb} (h : q.state ≠ .blocked) : wakeUp q = q := if_neg h

theorem wakeUp_state (q : Pcb) :
    (wakeUp q).state = if q.state = .blocked then .ready else q.state := by
  unfold wakeUp
  split <;> rfl

theorem wakeUp_esp (q : Pcb) : (wakeUp q).esp = q.esp := by
  unfold wakeUp
  split <;> rfl

theorem wakeUp_wakeUp (q : Pcb) : wakeUp (wakeUp q) = wakeUp q := by
  refine wakeUp_of_not_blocked ?_
  rw [wakeUp_state]
  split
  · decide
  · assumption

/-- The loop wakes the front of the queue and leaves the rest as it is. It stops
at the first sleeper whose time has not come; waking one clears its time, so this
reads the times before the tick only if nobody is queued twice. -/
theorem wakeSleepersLoop_eq (k : Kernel) (q : List PcbRef) :
    ∃ woken rest, q = woken ++ rest ∧
      wakeSleepersLoop k q =
        { k with
          sleepQueue := rest
          pcbs := fun p => if p ∈ woken then wakeUp (k.pcbs p) else k.pcbs p } ∧
      (q.Nodup → (∀ p ∈ woken, (k.pcbs p).wakeTick ≤ k.tickCount) ∧
        ∀ p ∈ rest.head?, (k.pcbs p).wakeTick = 0#32 ∨ k.tickCount < (k.pcbs p).wakeTick) := by
  induction q generalizing k with
  | nil => exact ⟨[], [], rfl, by simp [wakeSleepersLoop], by simp⟩
  | cons index q ih =>
    unfold wakeSleepersLoop
    split
    · rename_i hlater
      exact ⟨[], index :: q, rfl, by simp, fun _ => ⟨by simp, by simpa using hlater⟩⟩
    · rename_i hdue
      rw [not_or, BitVec.not_lt] at hdue
      obtain ⟨woken, rest, hq, he, hstop⟩ := ih (k.modify index wakeUp)
      refine ⟨index :: woken, rest, by rw [hq, List.cons_append], ?_, fun hn => ?_⟩
      · rw [he]
        simp only [modify, Kernel.mk.injEq, and_true]
        funext p
        by_cases hp : p = index
        · subst hp
          by_cases hw : p ∈ woken <;> simp [hw, wakeUp_wakeUp]
        · simp [hp]
      · obtain ⟨hout, hn⟩ := List.nodup_cons.mp hn
        have same {p : PcbRef} (hp : p ∈ q) : (k.modify index wakeUp).pcbs p = k.pcbs p :=
          modify_pcbs_ne _ _ _ fun hpi => hout (hpi ▸ hp)
        obtain ⟨hw, hr⟩ := hstop hn
        constructor
        · intro p hp
          rcases List.mem_cons.mp hp with rfl | hp
          · exact hdue.2
          · have := hw p hp
            rwa [same (hq ▸ List.mem_append_left _ hp)] at this
        · intro p hp
          have := hr p hp
          rwa [same (hq ▸ List.mem_append_right _ (List.mem_of_mem_head? hp))] at this

/-- The tick at which a sleeper is to wake up. -/
def wakeTime (k : Kernel) (p : PcbRef) : Nat := (k.pcbs p).wakeTick.toNat

theorem insertByWake_eq (pcbs : PcbRef → Pcb) (index : PcbRef) (q : List PcbRef) :
    insertByWake pcbs index q =
      q.orderedInsert (fun a b => (pcbs b).wakeTick.toNat ≤ (pcbs a).wakeTick.toNat) index := by
  induction q with
  | nil => rfl
  | cons prev front ih =>
    rw [insertByWake, List.orderedInsert_cons, ih]
    simp only [BitVec.le_def]

theorem sleepQueueInsert_eq (k : Kernel) (index : PcbRef) :
    k.sleepQueueInsert index =
      if 16 ≤ k.sleepQueue.length then k
      else { k with sleepQueue := insertByKey k.wakeTime index k.sleepQueue } := by
  rw [sleepQueueInsert, insertByWake_eq]
  rfl

theorem sleepQueueInsert_cases (k : Kernel) (index : PcbRef) :
    ∃ q, k.sleepQueueInsert index = { k with sleepQueue := q } ∧
      (q = k.sleepQueue ∨ q.Perm (index :: k.sleepQueue)) := by
  rw [sleepQueueInsert_eq]
  split
  · exact ⟨k.sleepQueue, rfl, .inl rfl⟩
  · exact ⟨_, rfl, .inr (insertByKey_perm _ _ _)⟩

/-- `sleep` sets the wake-up time twice, to the same value. -/
theorem sleep_eq (k : Kernel) (ms : Word) :
    k.sleep ms =
      if k.cur.pid = 0#32 ∨ (ms + 9#32) / 10#32 = 0#32 then k
      else sleepQueueInsert (k.modify k.current fun q =>
        { q with wakeTick := k.tickCount + (ms + 9#32) / 10#32, state := .blocked }) k.current := by
  unfold sleep
  dsimp only
  split
  · rfl
  · rename_i h
    have hpid : (k.modify k.current fun q => { q with wakeTick := k.tickCount + (ms + 9#32) / 10#32 }).cur.pid
        ≠ 0#32 := by
      simpa [cur] using fun he => h (.inl he)
    rw [schedulerBlockCurrent, if_neg hpid, modify_current, modify_modify]
    simp only [cur, modify_current, modify_pcbs_self]
    rfl

/-- A process that goes to sleep is BLOCKED and joins the queue. -/
theorem sleep_cases (k : Kernel) (ms : Word) :
    k.sleep ms = k ∨ (k.cur.pid ≠ 0#32 ∧ ∃ wakeTick q,
      k.sleep ms =
        { k.modify k.current (fun q => { q with wakeTick := wakeTick, state := .blocked }) with
          sleepQueue := q } ∧
      (q = k.sleepQueue ∨ q.Perm (k.current :: k.sleepQueue))) := by
  rw [sleep_eq]
  split
  · exact .inl rfl
  · rename_i h
    obtain ⟨q, hq, hperm⟩ := sleepQueueInsert_cases (k.modify k.current fun q =>
      { q with wakeTick := k.tickCount + (ms + 9#32) / 10#32, state := .blocked }) k.current
    exact .inr ⟨fun he => h (.inl he), _, q, hq, hperm⟩

theorem sleep_current (k : Kernel) (ms : Word) : (k.sleep ms).current = k.current := by
  rcases k.sleep_cases ms with hk | ⟨_, _, _, hk, _⟩ <;> rw [hk]
  rfl

theorem sleep_locks (k : Kernel) (ms : Word) : (k.sleep ms).locks = k.locks := by
  rcases k.sleep_cases ms with hk | ⟨_, _, _, hk, _⟩ <;> rw [hk]
  rfl

/-! ## The switch -/

theorem suspend_body (contextEsp eip : Word) (countTick : Bool) (q : Pcb) :
    q.SameBody (suspend contextEsp eip countTick q) := by
  unfold suspend charge
  dsimp only
  repeat' split
  all_goals exact ⟨rfl, rfl, rfl, rfl, rfl⟩

theorem suspend_state (contextEsp eip : Word) (countTick : Bool) (q : Pcb) :
    (suspend contextEsp eip countTick q).state = q.state := by
  unfold suspend charge
  dsimp only
  repeat' split
  all_goals rfl

theorem suspend_esp (contextEsp eip : Word) (countTick : Bool) (q : Pcb) :
    (suspend contextEsp eip countTick q).esp =
      if q.state ≠ .terminated then contextEsp else q.esp := by
  unfold suspend charge
  dsimp only
  repeat' split
  all_goals simp_all

theorem suspend_shell (contextEsp eip : Word) (countTick : Bool) {q : Pcb} (hp : q.pid = 0#32)
    (hq : q.priority = 0#8) : (suspend contextEsp eip countTick q).priority = 0#8 := by
  unfold suspend charge
  dsimp only
  repeat' split
  all_goals simp_all

theorem switchTo_pcbs (k : Kernel) (next p : PcbRef) :
    (k.switchTo next).pcbs p =
      { k.pcbs p with
        state := if p = next then .running
          else if p = k.current ∧ (k.pcbs p).state = .running then .ready
          else (k.pcbs p).state } := by
  by_cases hc : k.current ≠ next ∧ k.cur.state = .running
  · have hk : (k.switchTo next).pcbs p = ((k.modify k.current fun q => { q with state := .ready }).modify
        next fun q => { q with state := .running }).pcbs p := by
      simp only [switchTo, if_pos hc]
    rw [hk, modify_pcbs]
    by_cases hp : p = next
    · subst hp
      simp [modify_pcbs_ne _ _ _ hc.1.symm]
    · rw [if_neg hp, modify_pcbs]
      by_cases hpc : p = k.current
      · subst hpc
        simp [hp, show (k.pcbs k.current).state = .running from hc.2]
      · simp [hp, hpc]
  · have hk : (k.switchTo next).pcbs p =
        (k.modify next fun q => { q with state := .running }).pcbs p := by
      simp only [switchTo, if_neg hc]
    rw [hk, modify_pcbs]
    by_cases hp : p = next
    · subst hp
      simp
    · have : ¬ (p = k.current ∧ (k.pcbs p).state = .running) := by
        rintro ⟨rfl, hr⟩
        exact hc ⟨hp, hr⟩
      simp [hp, this]

theorem switchTo_eq (k : Kernel) (next : PcbRef) :
    k.switchTo next =
      { k with pcbs := (k.switchTo next).pcbs, current := next, rrCursor := next + 1 } := by
  unfold switchTo
  dsimp only
  split <;> rfl

/-- What a dispatch does: `woken` are the sleepers whose time has come. -/
structure Dispatched (k : Kernel) (contextEsp esp : Word) (k' : Kernel) (woken : List PcbRef) :
    Prop where
  returned : esp = (k'.pcbs k'.current).esp
  esp_eq : ∀ p, (k'.pcbs p).esp =
    if p = k.current ∧ (k.pcbs p).state ≠ .terminated then contextEsp else (k.pcbs p).esp
  body : ∀ p, (k.pcbs p).SameBody (k'.pcbs p)
  current_running : (k'.pcbs k'.current).state = .running
  running : ∀ p, (k'.pcbs p).state = .running →
    p = k'.current ∨ (p ≠ k.current ∧ (k.pcbs p).state = .running)
  terminated : ∀ p, (k'.pcbs p).state = .terminated ↔ (k.pcbs p).state = .terminated
  queue : k.sleepQueue = woken ++ k'.sleepQueue
  blocked : ∀ p, (k.pcbs p).state = .blocked → p ∉ woken → (k'.pcbs p).state = .blocked
  still : ∀ p, (k'.pcbs p).state = .blocked → (k.pcbs p).state = .blocked
  shell : k'.ShellReady
  locks : k'.locks = k.locks
  pmm : k'.pmm = k.pmm
  processTotal : k'.processTotal = k.processTotal

theorem choose_shell {k : Kernel} (h : k.ShellReady) (contextEsp : Word) :
    ∃ next, ((k.pcbs next).state = .ready ∨ (k.pcbs next).state = .running) ∧
      (k.pcbs next).priority = 0#8 ∧
      k.choose contextEsp =
        ((k.pcbs next).esp, { k with rrCursor := k.current + 1 }.switchTo next) := by
  have h' : { k with rrCursor := k.current + 1 }.ShellReady := ⟨h.pid, h.runnable, h.priority⟩
  obtain ⟨next, hn⟩ := pickNext_shell h' (k.current + 1)
  refine ⟨next, pickNext_runnable hn, ?_, by simp only [choose, hn, Option.some_or]⟩
  apply BitVec.eq_of_toNat_eq
  exact (pickNext_level hn).trans (bestLevel_shell h')

/-- The kernel with the sleepers `woken` on their feet and `rest` asleep. -/
def awake (k : Kernel) (tickCount : Word) (woken rest : List PcbRef) : Kernel :=
  { k with
    tickCount := tickCount
    sleepQueue := rest
    pcbs := fun p => if p ∈ woken then wakeUp (k.pcbs p) else k.pcbs p }

/-- `tick_count` once a dispatch has counted its tick. -/
def clock (k : Kernel) (countTick : Bool) : Word :=
  if countTick then k.tickCount + 1#32 else k.tickCount

/-- The sleepers that a dispatch wakes: the front of the queue, up to the first
one whose time has not come. -/
structure Woken (k : Kernel) (countTick : Bool) (woken rest : List PcbRef) : Prop where
  queue : k.sleepQueue = woken ++ rest
  uncounted : countTick = false → woken = []
  due : k.sleepQueue.Nodup → ∀ p ∈ woken, (k.pcbs p).wakeTick ≤ k.clock countTick
  later : k.sleepQueue.Nodup → countTick = true → ∀ p ∈ rest.head?,
    (k.pcbs p).wakeTick = 0#32 ∨ k.clock countTick < (k.pcbs p).wakeTick

theorem ticked_eq (k : Kernel) (countTick : Bool) :
    ∃ woken rest, k.Woken countTick woken rest ∧
      (if countTick then k.countedTick else k) = k.awake (k.clock countTick) woken rest := by
  cases countTick with
  | false =>
    refine ⟨[], k.sleepQueue, ⟨rfl, fun _ => rfl, by simp, fun _ h => ?_⟩, by simp [awake, clock]⟩
    cases h
  | true =>
    obtain ⟨woken, rest, hq, he, hstop⟩ :=
      wakeSleepersLoop_eq { k with tickCount := k.tickCount + 1#32 } k.sleepQueue
    refine ⟨woken, rest, ⟨hq, fun h => ?_, fun hn => (hstop hn).1, fun hn _ => (hstop hn).2⟩, ?_⟩
    · cases h
    · rw [if_pos rfl, countedTick, wakeSleepers, he, awake]
      rfl

/-- The PCB of a process as the tick and the saving of its context leave it. -/
def suspended (k : Kernel) (contextEsp eip : Word) (countTick : Bool) (woken : List PcbRef)
    (p : PcbRef) : Pcb :=
  let q := if p ∈ woken then wakeUp (k.pcbs p) else k.pcbs p
  if p = k.current then suspend contextEsp eip countTick q else q

section Suspended
variable (k : Kernel) (contextEsp eip : Word) (countTick : Bool) (woken : List PcbRef) (p : PcbRef)

theorem suspended_body :
    (k.pcbs p).SameBody (k.suspended contextEsp eip countTick woken p) := by
  have hw : (k.pcbs p).SameBody (if p ∈ woken then wakeUp (k.pcbs p) else k.pcbs p) := by
    split
    · exact wakeUp_body _
    · exact .refl _
  unfold suspended
  dsimp only
  split
  · exact hw.trans (suspend_body _ _ _ _)
  · exact hw

theorem suspended_state :
    (k.suspended contextEsp eip countTick woken p).state =
      if p ∈ woken ∧ (k.pcbs p).state = .blocked then .ready else (k.pcbs p).state := by
  have hs : (k.suspended contextEsp eip countTick woken p).state =
      (if p ∈ woken then wakeUp (k.pcbs p) else k.pcbs p).state := by
    unfold suspended
    dsimp only
    split
    · exact suspend_state _ _ _ _
    · rfl
  rw [hs]
  by_cases hw : p ∈ woken <;> simp [hw, wakeUp_state]

theorem suspended_esp :
    (k.suspended contextEsp eip countTick woken p).esp =
      if p = k.current ∧ (k.pcbs p).state ≠ .terminated then contextEsp else (k.pcbs p).esp := by
  have hw : (if p ∈ woken then wakeUp (k.pcbs p) else k.pcbs p).esp = (k.pcbs p).esp := by
    split
    · exact wakeUp_esp _
    · rfl
  have ht : (if p ∈ woken then wakeUp (k.pcbs p) else k.pcbs p).state = .terminated ↔
      (k.pcbs p).state = .terminated := by
    split
    · rw [wakeUp_state]
      split <;> simp_all
    · rfl
  unfold suspended
  dsimp only
  by_cases hp : p = k.current
  · rw [if_pos hp, suspend_esp, hw]
    exact if_congr (by rw [Ne, ht]; exact (and_iff_right hp).symm) rfl rfl
  · rw [if_neg hp, hw, if_neg (fun h => hp h.1)]

theorem suspended_shell {k : Kernel} (h : k.ShellReady) :
    (k.suspended contextEsp eip countTick woken 0).priority = 0#8 := by
  have hw : (if (0 : PcbRef) ∈ woken then wakeUp (k.pcbs 0) else k.pcbs 0) = k.pcbs 0 := by
    split
    · exact wakeUp_of_not_blocked h.not_blocked
    · rfl
  unfold suspended
  rw [hw]
  dsimp only
  split
  · exact suspend_shell _ _ _ h.pid h.priority
  · exact h.priority

end Suspended

theorem suspendCurrent_awake (k : Kernel) (tickCount : Word) (woken rest : List PcbRef)
    {contextEsp : Word} (hctx : contextEsp ≠ 0#32) (countTick : Bool) :
    (k.awake tickCount woken rest).suspendCurrent contextEsp countTick =
      { k.awake tickCount woken rest with
        pcbs := k.suspended contextEsp (k.frameWord contextEsp 8) countTick woken } := by
  rw [suspendCurrent, if_pos hctx, modify]
  congr 1
  funext p
  unfold suspended
  by_cases hp : p = k.current
  · subst hp
    simp [awake, frameWord]
  · simp [awake, hp]

/-- The shell can still run when the choice is made. -/
theorem suspended_shellReady {k : Kernel} (h : k.ShellReady) (contextEsp eip : Word)
    (countTick : Bool) (tickCount : Word) (woken rest : List PcbRef) :
    ShellReady { k.awake tickCount woken rest with
      pcbs := k.suspended contextEsp eip countTick woken } := by
  refine ⟨(suspended_body k _ _ _ _ 0).pid.trans h.pid, ?_, suspended_shell _ _ _ _ h⟩
  dsimp only
  rw [suspended_state, if_neg (fun hb => h.not_blocked hb.2)]
  exact h.runnable

/-- The PCB of a process when `next` has got the CPU. -/
def switched (k : Kernel) (contextEsp : Word) (countTick : Bool) (woken : List PcbRef)
    (next p : PcbRef) : Pcb :=
  let q := k.suspended contextEsp (k.frameWord contextEsp 8) countTick woken p
  { q with
    state := if p = next then .running
      else if p = k.current ∧ q.state = .running then .ready
      else q.state }

/-- A dispatch as a whole: it wakes the sleepers whose time has come, suspends the
process on the CPU and resumes one on the top level. -/
theorem dispatch_switched {k : Kernel} (h : k.ShellReady) {contextEsp : Word}
    (hctx : contextEsp ≠ 0#32) (countTick : Bool) :
    ∃ woken rest next, k.Woken countTick woken rest ∧
      ((k.suspended contextEsp (k.frameWord contextEsp 8) countTick woken next).state = .ready ∨
        (k.suspended contextEsp (k.frameWord contextEsp 8) countTick woken next).state = .running) ∧
      (k.suspended contextEsp (k.frameWord contextEsp 8) countTick woken next).priority = 0#8 ∧
      k.dispatch contextEsp countTick =
        ((k.suspended contextEsp (k.frameWord contextEsp 8) countTick woken next).esp,
          { k with
            tickCount := k.clock countTick
            sleepQueue := rest
            current := next
            rrCursor := next + 1
            pcbs := k.switched contextEsp countTick woken next }) := by
  obtain ⟨woken, rest, hw, hk⟩ := ticked_eq k countTick
  rw [dispatch, hk, suspendCurrent_awake k _ woken rest hctx]
  have hshell := suspended_shellReady h contextEsp (k.frameWord contextEsp 8) countTick
    (k.clock countTick) woken rest
  obtain ⟨next, hrun, hprio, hchoose⟩ := choose_shell hshell contextEsp
  refine ⟨woken, rest, next, hw, hrun, hprio, ?_⟩
  rw [hchoose, switchTo_eq]
  congr 2
  funext p
  exact switchTo_pcbs _ next p

/-- A dispatch finds a process, and resumes it where it was suspended. -/
theorem dispatch_spec {k : Kernel} (h : k.ShellReady) {contextEsp : Word}
    (hctx : contextEsp ≠ 0#32) (countTick : Bool) :
    ∃ woken, Dispatched k contextEsp (k.dispatch contextEsp countTick).1
      (k.dispatch contextEsp countTick).2 woken := by
  obtain ⟨woken, rest, next, hw, hnext, hprio, hd⟩ := dispatch_switched h hctx countTick
  refine ⟨woken, ?_⟩
  rw [hd]
  have hstate (p : PcbRef) :
      (k.suspended contextEsp (k.frameWord contextEsp 8) countTick woken p).state =
        if p ∈ woken ∧ (k.pcbs p).state = .blocked then .ready else (k.pcbs p).state :=
    suspended_state _ _ _ _ _ _
  constructor
  case returned => rfl
  case esp_eq => exact suspended_esp k contextEsp (k.frameWord contextEsp 8) countTick woken
  case body =>
    intro p
    exact (suspended_body k contextEsp _ countTick woken p).trans ⟨rfl, rfl, rfl, rfl, rfl⟩
  case current_running => exact if_pos rfl
  case running =>
    intro p hp
    by_cases hn : p = next
    · exact .inl hn
    · have hs := hstate p
      right
      simp only [switched] at hp
      grind
  case terminated =>
    intro p
    have hs := hstate p
    simp only [switched]
    by_cases hn : p = next
    · subst hn
      grind
    · grind
  case queue => exact hw.queue
  case blocked =>
    intro p hb hnw
    have hs := hstate p
    rw [if_neg (fun h => hnw h.1), hb] at hs
    have hn : p ≠ next := by
      rintro rfl
      rw [hs] at hnext
      simp at hnext
    simp [switched, hs, hn]
  case still =>
    intro p hb
    have hs := hstate p
    simp only [switched] at hb
    grind
  case shell =>
    have hshell := suspended_shellReady h contextEsp (k.frameWord contextEsp 8) countTick
      (k.clock countTick) woken rest
    refine ⟨hshell.pid, ?_, hshell.priority⟩
    have := hshell.runnable
    simp only [switched]
    grind
  case locks => rfl
  case pmm => rfl
  case processTotal => rfl

/-! ## Creation -/

/-- The effect of a creating call on the slot that it fills. -/
structure Created (k : Kernel) (p : PcbRef) (k' : Kernel) : Prop where
  others : ∀ q, q ≠ p → k'.pcbs q = k.pcbs q
  ready : (k'.pcbs p).state = .ready
  current : k'.current = k.current
  sleepQueue : k'.sleepQueue = k.sleepQueue
  locks : k'.locks = k.locks
  pmm : k'.pmm = k.pmm.pmmAllocFrame.2
  stack : k.pmm.pmmAllocFrame.1 ≠ 0#32 → (k'.pcbs p).hasStack = true ∧
    (k'.pcbs p).stackBase = k.pmm.pmmAllocFrame.1 ∧
    (k'.pcbs p).stackTop = k.pmm.pmmAllocFrame.1 + 4096#32 ∧
    (k'.pcbs p).esp = k.pmm.pmmAllocFrame.1 + 4096#32 - 44#32

theorem giveStack_spec (k : Kernel) (p : PcbRef) (name : Option CStr) (default : List Byte)
    (h : (k.pcbs p).state = .ready) : Created k p (giveStack k p name default).2 ∧
      (giveStack k p name default).1 =
        if k.pmm.pmmAllocFrame.1 = 0#32 then none else some p := by
  unfold giveStack
  dsimp only
  split
  · rename_i hz
    refine ⟨⟨fun q hq => ?_, ?_, rfl, rfl, rfl, rfl, ?_⟩, rfl⟩
    · simp [modify_pcbs, hq]
    · simp [h]
    · exact fun hne => absurd hz hne
  · refine ⟨⟨fun q hq => ?_, ?_, rfl, rfl, rfl, rfl, fun _ => ?_⟩, rfl⟩
    · simp [buildInitialContext, modify_pcbs, hq]
    · simp [buildInitialContext, h]
    · simp only [buildInitialContext, modify_pcbs_self, initialFrame, List.foldl_cons, List.foldl_nil,
        push, true_and]
      bv_omega

theorem Created.fill {k k₁ k' : Kernel} {p : PcbRef} {f : Pcb → Pcb} (h : Created k₁ p k')
    (hk : k₁ = { k.modify p f with nextPid := k₁.nextPid, nextTid := k₁.nextTid }) :
    Created k p k' := by
  have hpmm : k₁.pmm = k.pmm := by rw [hk]; rfl
  refine ⟨fun q hq => ?_, h.ready, ?_, ?_, ?_, ?_, ?_⟩
  · rw [h.others q hq, hk]
    exact modify_pcbs_ne _ _ _ hq
  · rw [h.current, hk]
    rfl
  · rw [h.sleepQueue, hk]
    rfl
  · rw [h.locks, hk]
    rfl
  · rw [h.pmm, hpmm]
  · rw [← hpmm]
    exact h.stack

theorem createTarget_some {k : Kernel} {entry : Word} {p : PcbRef}
    (h : k.createTarget entry = some p) : entry ≠ 0#32 ∧ k.freeSlot = some p := by
  unfold createTarget at h
  split at h
  · cases h
  · rename_i hz
    exact ⟨hz, h⟩

theorem createTarget_none {k : Kernel} {entry : Word} (h : k.createTarget entry = none) :
    entry = 0#32 ∨ k.freeSlot = none := by
  unfold createTarget at h
  split at h
  · rename_i hz
    exact .inl hz
  · exact .inr h

theorem processCreateNamed_spec {k : Kernel} {entry : Word} {p : PcbRef}
    (h : k.createTarget entry = some p) (name : Option CStr) :
    Created k p (k.processCreateNamed entry name).2 ∧ (k.processCreateNamed entry name).1 =
      if k.pmm.pmmAllocFrame.1 = 0#32 then none else some p := by
  obtain ⟨hz, hp⟩ := createTarget_some h
  have spec := giveStack_spec
    { k.modify p (k.newProcess entry) with nextPid := k.nextPid + 1#32 } p name defaultProcessName
    (by simp [newProcess])
  simp only [processCreateNamed, if_neg hz, hp]
  exact ⟨spec.1.fill rfl, spec.2⟩

theorem threadCreateNamed_spec {k : Kernel} {entry : Word} {p : PcbRef}
    (h : k.createTarget entry = some p) (arg : Word) (name : Option CStr) :
    Created k p (k.threadCreateNamed entry arg name).2 ∧ (k.threadCreateNamed entry arg name).1 =
      if k.pmm.pmmAllocFrame.1 = 0#32 then none else some p := by
  obtain ⟨hz, hp⟩ := createTarget_some h
  have spec := giveStack_spec
    { k.modify p (k.newThread entry arg) with
      nextPid := k.nextPid + 1#32
      nextTid := k.nextTid + 1#32 } p name defaultThreadName (by simp [newThread])
  simp only [threadCreateNamed, if_neg hz, hp]
  exact ⟨spec.1.fill rfl, spec.2⟩

theorem processCreateNamed_none {k : Kernel} {entry : Word} (h : k.createTarget entry = none)
    (name : Option CStr) : k.processCreateNamed entry name = (none, k) := by
  unfold processCreateNamed
  rcases createTarget_none h with hz | hf
  · rw [if_pos hz]
  · rw [hf]
    split <;> rfl

theorem threadCreateNamed_none {k : Kernel} {entry : Word} (h : k.createTarget entry = none)
    (arg : Word) (name : Option CStr) : k.threadCreateNamed entry arg name = (none, k) := by
  unfold threadCreateNamed
  rcases createTarget_none h with hz | hf
  · rw [if_pos hz]
  · rw [hf]
    split <;> rfl

/-! ## fork -/

/-- The fork of `k.current` into `child` writes past the child's name into slot `q`. -/
def Spills (k : Kernel) (child q : PcbRef) : Prop :=
  (k.cur.name.cstrAt 0 15).length = 14 ∧ q.val = child.val + 1

structure Forked (k : Kernel) (contextEsp : Word) (child : PcbRef) (k' : Kernel) : Prop where
  others : ∀ q, q ≠ child → k'.pcbs q = { k.pcbs q with pid := (k'.pcbs q).pid }
  pid : ∀ q, q ≠ child → ¬ k.Spills child q → (k'.pcbs q).pid = (k.pcbs q).pid
  spilled : ∀ q, q ≠ child → k.Spills child q →
    (k'.pcbs q).pid = (k.pcbs q).pid &&& 0xFFFFFF00#32
  ready : (k'.pcbs child).state = .ready
  current : k'.current = k.current
  sleepQueue : k'.sleepQueue = k.sleepQueue
  locks : k'.locks = k.locks
  pmm : k'.pmm = k.pmm.pmmAllocFrame.2
  stack : (k'.pcbs child).hasStack = true ∧
    (k'.pcbs child).stackBase = k.pmm.pmmAllocFrame.1 ∧
    (k'.pcbs child).stackTop = k.pmm.pmmAllocFrame.1 + 4096#32 ∧
    (k'.pcbs child).esp = contextEsp + (k.pmm.pmmAllocFrame.1 - k.cur.stackBase)

/-- A fork that fails touches only a slot that holds no process. -/
structure ForkRefused (k k' : Kernel) : Prop where
  pcbs : ∀ q, k'.pcbs q = k.pcbs q ∨ ((k.pcbs q).state = .terminated ∧ q ≠ 0 ∧
    k'.pcbs q = { k.pcbs q with pid := 0#32, stackBase := 0#32 })
  current : k'.current = k.current
  sleepQueue : k'.sleepQueue = k.sleepQueue
  locks : k'.locks = k.locks
  processTotal : k'.processTotal = k.processTotal
  pmm : k'.pmm = k.pmm ∨ (k.pmm.pmmAllocFrame.1 = 0#32 ∧ k'.pmm = k.pmm.pmmAllocFrame.2)

theorem schedulerFork_refused {k : Kernel} (h : k.forkTarget = none) (contextEsp : Word) :
    ForkRefused k (k.schedulerFork contextEsp).2 := by
  unfold schedulerFork
  split
  · dsimp only
    split <;> exact ⟨fun _ => .inl rfl, rfl, rfl, rfl, rfl, .inl rfl⟩
  · rename_i hs
    split
    · exact ⟨fun _ => .inl rfl, rfl, rfl, rfl, rfl, .inl rfl⟩
    · rename_i child hc
      have hz : k.pmm.pmmAllocFrame.1 = 0#32 := by
        by_contra hz
        simp [forkTarget, hs, hz, hc] at h
      dsimp only
      rw [if_pos hz]
      refine ⟨fun q => ?_, rfl, rfl, rfl, rfl, .inr ⟨hz, rfl⟩⟩
      by_cases hq : q = child
      · subst hq
        obtain ⟨h0, ht, _⟩ := freeSlot_some hc
        refine .inr ⟨ht, h0, ?_⟩
        simp [setEax, hz]
      · exact .inl (by simp [setEax, modify_pcbs, hq])

theorem nameSpill_eq (k : Kernel) (parent : Buf 16) (child : PcbRef) :
    ∃ pastTable, k.nameSpill parent child =
      { k with
        pcbs := fun q =>
          if (parent.cstrAt 0 15).length = 14 ∧ q.val = child.val + 1 then
            { k.pcbs q with pid := (k.pcbs q).pid &&& 0xFFFFFF00#32 }
          else k.pcbs q
        pastTable := pastTable } := by
  unfold nameSpill
  split
  · rename_i hl
    simp only [hl, true_and]
    split
    · refine ⟨k.pastTable, ?_⟩
      rw [modify]
      congr 1
      funext q
      rw [Function.update_apply]
      by_cases hq : q.val = child.val + 1
      · have : q = ⟨child.val + 1, by assumption⟩ := Fin.ext hq
        subst this
        simp
      · rw [if_neg hq, if_neg (fun he => hq (by rw [he]))]
    · refine ⟨0#8, ?_⟩
      congr 1
      funext q
      have := q.isLt
      rw [if_neg (by omega)]
  · rename_i hl
    exact ⟨k.pastTable, by simp [hl]⟩

theorem forkTarget_some {k : Kernel} {child : PcbRef} (h : k.forkTarget = some child) :
    k.cur.hasStack = true ∧ k.pmm.pmmAllocFrame.1 ≠ 0#32 ∧ k.freeSlot = some child := by
  unfold forkTarget at h
  split at h
  · cases h
  · rename_i hs
    simp only [Bool.or_eq_true, Bool.not_eq_true', beq_iff_eq, not_or] at hs
    exact ⟨by simpa using hs.1, hs.2, h⟩

instance (k : Kernel) (child q : PcbRef) : Decidable (k.Spills child q) :=
  inferInstanceAs (Decidable (_ ∧ _))

/-- Memory once `scheduler_fork` has made the child's stack. -/
def forkMem (k : Kernel) (contextEsp frame : Word) : Memory :=
  let delta := frame - k.cur.stackBase
  let mem := k.mem.copyBytes k.cur.stackBase frame 4096
  let mem := (List.range 8).foldl (relocateSlot k.cur delta (contextEsp + delta)) mem
  mem.storeWord (contextEsp + delta + 28#32) 0#32

/-- What `scheduler_fork` makes of the PCB in the child's slot. -/
def forkedPcb (k : Kernel) (contextEsp frame : Word) (q : Pcb) : Pcb :=
  let childCtx := contextEsp + (frame - k.cur.stackBase)
  { q with
    stackTop := frame + 4096#32
    hasStack := true
    state := .ready
    entry := k.cur.entry
    priority := k.cur.priority
    quantumTicks := k.cur.quantumTicks
    ticksUsed := 0#8
    wakeTick := 0#32
    pid := k.nextPid
    name := forkName k.cur.name q.name
    esp := childCtx
    eip := (k.forkMem contextEsp frame).loadWord (childCtx + 32#32) }

/-- The part of `scheduler_fork` behind the allocation, field by field. -/
theorem forkInto_eq (k : Kernel) (contextEsp : Word) (child : PcbRef) (frame : Word) :
    ∃ pastTable, k.forkInto contextEsp child frame =
      { k with
        pcbs := fun q =>
          if q = child then k.forkedPcb contextEsp frame (k.pcbs child)
          else if k.Spills child q then { k.pcbs q with pid := (k.pcbs q).pid &&& 0xFFFFFF00#32 }
          else k.pcbs q
        nextPid := k.nextPid + 1#32
        mem := (k.forkMem contextEsp frame).storeWord (contextEsp + 28#32) k.nextPid
        pastTable := pastTable
        processTotal := if k.processTotal < 16 then k.processTotal + 1 else k.processTotal } := by
  have hself : ¬ (child.val = child.val + 1) := by omega
  unfold forkInto
  dsimp only
  generalize hk₁ : k.modify child _ = k₁
  obtain ⟨pastTable, hspill⟩ := nameSpill_eq k₁ k.cur.name child
  refine ⟨pastTable, ?_⟩
  have hcount (k : Kernel) : k.processIncrementCount =
      { k with processTotal := if k.processTotal < 16 then k.processTotal + 1 else k.processTotal } := by
    unfold processIncrementCount
    split <;> rfl
  have hpcbs : (fun q => if (k.cur.name.cstrAt 0 15).length = 14 ∧ q.val = child.val + 1 then
        { k₁.pcbs q with pid := (k₁.pcbs q).pid &&& 0xFFFFFF00#32 } else k₁.pcbs q) =
      fun q => if q = child then k.forkedPcb contextEsp frame (k.pcbs child)
        else if k.Spills child q then { k.pcbs q with pid := (k.pcbs q).pid &&& 0xFFFFFF00#32 }
        else k.pcbs q := by
    funext q
    by_cases hq : q = child
    · subst hq
      rw [if_neg fun h => hself h.2, if_pos rfl, ← hk₁, modify_pcbs_self]
      rfl
    · rw [if_neg hq, ← hk₁, modify_pcbs_ne _ _ _ hq]
      rfl
  rw [hspill, hcount, hpcbs, ← hk₁]
  rfl

/-- The kernel in which `scheduler_fork` has found the child's slot and its frame. -/
def takeStack (k : Kernel) (child : PcbRef) : Kernel :=
  { k.modify child (fun q => { q with pid := 0#32, stackBase := k.pmm.pmmAllocFrame.1 })
    with pmm := k.pmm.pmmAllocFrame.2 }

theorem forkTarget_ne {k : Kernel} {child : PcbRef} (h : k.forkTarget = some child) :
    child ≠ k.current := by
  obtain ⟨hs, _, hc⟩ := forkTarget_some h
  intro he
  have hno := (freeSlot_some hc).2.2
  rw [he] at hno
  exact absurd (show k.cur.hasStack = false from hno) (by rw [hs]; decide)

theorem schedulerFork_eq {k : Kernel} {child : PcbRef} (h : k.forkTarget = some child)
    (contextEsp : Word) : (k.schedulerFork contextEsp).2 =
      (k.takeStack child).forkInto contextEsp child k.pmm.pmmAllocFrame.1 := by
  obtain ⟨hs, hz, hc⟩ := forkTarget_some h
  simp only [schedulerFork, hs, Bool.not_true, Bool.false_eq_true, if_false, hc, if_neg hz]
  rfl

theorem takeStack_pcbs_ne {k : Kernel} {child q : PcbRef} (hq : q ≠ child) :
    (k.takeStack child).pcbs q = k.pcbs q := by
  rw [takeStack, modify_pcbs_ne _ _ _ hq]

theorem takeStack_cur {k : Kernel} {child : PcbRef} (h : k.forkTarget = some child) :
    (k.takeStack child).cur = k.cur :=
  takeStack_pcbs_ne (forkTarget_ne h).symm

/-- A fork that succeeds writes the child's PCB and, if the name spills, a pid. -/
theorem schedulerFork_pcbs {k : Kernel} {child : PcbRef} (h : k.forkTarget = some child)
    (contextEsp : Word) (q : PcbRef) : (k.schedulerFork contextEsp).2.pcbs q =
      if q = child then
        (k.takeStack child).forkedPcb contextEsp k.pmm.pmmAllocFrame.1
          { k.pcbs child with pid := 0#32, stackBase := k.pmm.pmmAllocFrame.1 }
      else if k.Spills child q then { k.pcbs q with pid := (k.pcbs q).pid &&& 0xFFFFFF00#32 }
      else k.pcbs q := by
  obtain ⟨pastTable, heq⟩ := forkInto_eq (k.takeStack child) contextEsp child k.pmm.pmmAllocFrame.1
  have hspills : (k.takeStack child).Spills child q ↔ k.Spills child q := by
    rw [Spills, takeStack_cur h, Spills]
  rw [schedulerFork_eq h, heq]
  dsimp only
  by_cases hq : q = child
  · rw [if_pos hq, if_pos hq, takeStack, modify_pcbs_self]
  · rw [if_neg hq, if_neg hq, takeStack_pcbs_ne hq]
    simp only [hspills]

theorem schedulerFork_mem {k : Kernel} {child : PcbRef} (h : k.forkTarget = some child)
    (contextEsp : Word) : (k.schedulerFork contextEsp).2.mem =
      (k.forkMem contextEsp k.pmm.pmmAllocFrame.1).storeWord (contextEsp + 28#32) k.nextPid := by
  obtain ⟨pastTable, heq⟩ := forkInto_eq (k.takeStack child) contextEsp child k.pmm.pmmAllocFrame.1
  rw [schedulerFork_eq h, heq]
  dsimp only
  rw [forkMem, takeStack_cur h]
  rfl

theorem schedulerFork_spec {k : Kernel} {child : PcbRef} (h : k.forkTarget = some child)
    (contextEsp : Word) : Forked k contextEsp child (k.schedulerFork contextEsp).2 := by
  have hpcbs := schedulerFork_pcbs h contextEsp
  have hcur := takeStack_cur h
  obtain ⟨pastTable, heq⟩ := forkInto_eq (k.takeStack child) contextEsp child k.pmm.pmmAllocFrame.1
  rw [← schedulerFork_eq h] at heq
  constructor
  case others =>
    intro q hq
    rw [hpcbs q, if_neg hq]
    split <;> rfl
  case pid =>
    intro q hq hsp
    rw [hpcbs q, if_neg hq, if_neg hsp]
  case spilled =>
    intro q hq hsp
    rw [hpcbs q, if_neg hq, if_pos hsp]
  case ready =>
    rw [hpcbs child, if_pos rfl]
    rfl
  case stack =>
    rw [hpcbs child, if_pos rfl]
    refine ⟨rfl, rfl, rfl, ?_⟩
    rw [forkedPcb, hcur]
  all_goals
    rw [heq]
    rfl

/-! ## exit and kill -/

/-- The end of the process in slot `p`. -/
structure Ended (k : Kernel) (p : PcbRef) (k' : Kernel) : Prop where
  others : ∀ q, q ≠ p → k'.pcbs q = k.pcbs q
  terminated : (k'.pcbs p).state = .terminated
  pid : (k'.pcbs p).pid = (k.pcbs p).pid
  current : k'.current = k.current
  locks : k'.locks = k.locks
  pmm : k'.pmm = k.pmm ∨ k'.pmm = k.pmm.pmmFreeFrame (k.pcbs p).stackBase

theorem processExit_spec (k : Kernel) (h : k.cur.pid ≠ 0#32) :
    Ended k k.current k.processExit ∧ k.processExit.sleepQueue = k.sleepQueue := by
  rw [processExit, if_neg h]
  refine ⟨⟨fun q hq => ?_, ?_, ?_, rfl, rfl, ?_⟩, rfl⟩
  · simp [processDecrementCount, modify_pcbs, hq]
  · simp [processDecrementCount]
  · simp [processDecrementCount]
  · simp only [processDecrementCount]
    split
    · exact .inr rfl
    · exact .inl rfl

theorem killTarget_spec (k : Kernel) (p : PcbRef) :
    Ended k p (k.killTarget p) ∧ (k.killTarget p).sleepQueue = k.sleepQueue.erase p := by
  refine ⟨⟨fun q hq => ?_, ?_, ?_, rfl, rfl, ?_⟩, rfl⟩
  · simp [killTarget, processDecrementCount, modify_pcbs, hq, sleepQueueRemove]
  · simp [killTarget, processDecrementCount, killed]
  · simp [killTarget, processDecrementCount, killed, sleepQueueRemove]
  · simp only [killTarget, processDecrementCount]
    split
    · exact .inr rfl
    · exact .inl rfl

/-- The answer of a system call goes to the caller's stack. -/
theorem Ended.setEax {k k' : Kernel} {p : PcbRef} (h : Ended k p k') (contextEsp v : Word) :
    Ended k p (k'.setEax contextEsp v) :=
  ⟨h.others, h.terminated, h.pid, h.current, h.locks, h.pmm⟩

theorem Ended.cur_terminated {k k' : Kernel} (h : Ended k k.current k') :
    k'.cur.state = .terminated := by
  rw [cur, h.current]
  exact h.terminated

section Kill
variable {k : Kernel} {pid : Word} (contextEsp : Word)

theorem schedulerKill_other {p : PcbRef} (hp : k.processGet pid = some p) (hz : pid ≠ 0#32)
    (hne : p ≠ k.current) :
    k.schedulerKill contextEsp pid = (contextEsp, (k.killTarget p).setEax contextEsp 0#32) := by
  have hc : ((k.killTarget p).setEax contextEsp 0#32).current = k.current :=
    (killTarget_spec k p).1.current
  simp only [schedulerKill, hp, if_neg hz]
  exact if_pos (by rw [hc]; exact hne)

/-- A process that kills itself gives up the CPU. -/
theorem schedulerKill_self (hp : k.processGet pid = some k.current) (hz : pid ≠ 0#32) :
    k.schedulerKill contextEsp pid =
      ((k.killTarget k.current).setEax contextEsp 0#32).dispatch contextEsp false := by
  have hc : ((k.killTarget k.current).setEax contextEsp 0#32).current = k.current :=
    (killTarget_spec k k.current).1.current
  simp only [schedulerKill, hp, if_neg hz]
  exact if_neg (by rw [hc]; exact not_not.mpr rfl)

end Kill

/-- The outcomes of `scheduler_kill`: nothing, the end of another process, or the
end of the caller and a dispatch. -/
theorem schedulerKill_cases (k : Kernel) (contextEsp pid : Word) :
    ((k.processGet pid = none ∨ pid = 0#32) ∧
        k.schedulerKill contextEsp pid = (contextEsp, k.setEax contextEsp (-1#32))) ∨
      ∃ p, k.processGet pid = some p ∧ pid ≠ 0#32 ∧
        ((p ≠ k.current ∧ k.schedulerKill contextEsp pid =
            (contextEsp, (k.killTarget p).setEax contextEsp 0#32)) ∨
          (p = k.current ∧ k.schedulerKill contextEsp pid =
            ((k.killTarget p).setEax contextEsp 0#32).dispatch contextEsp false)) := by
  cases hp : k.processGet pid with
  | none =>
    left
    exact ⟨.inl rfl, by simp only [schedulerKill, hp]⟩
  | some p =>
    by_cases hz : pid = 0#32
    · left
      exact ⟨.inr hz, by simp only [schedulerKill, hp, if_pos hz]⟩
    · right
      refine ⟨p, rfl, hz, ?_⟩
      by_cases hpc : p = k.current
      · subst hpc
        exact .inr ⟨rfl, schedulerKill_self contextEsp hp hz⟩
      · exact .inl ⟨hpc, schedulerKill_other contextEsp hp hz hpc⟩

end Kernel

end SengOS
