import SengOS.Kernel.Lifecycle

/-!
# What a dispatch selects

The shell is always runnable on the top level, so `pick_next` always finds a
process there: `dispatch` never comes to its fallback, and no process below the
top level is ever selected.
-/

namespace SengOS

namespace Kernel

/-- The kernel in which `dispatch` calls `pick_next`. -/
def decision (k : Kernel) (contextEsp : Word) (countTick : Bool) : Kernel :=
  (if countTick then k.countedTick else k).suspendCurrent contextEsp countTick

theorem dispatch_eq (k : Kernel) (contextEsp : Word) (countTick : Bool) :
    k.dispatch contextEsp countTick = (k.decision contextEsp countTick).choose contextEsp := rfl

theorem decision_shell {k : Kernel} (h : k.ShellReady) {contextEsp : Word}
    (hctx : contextEsp ≠ 0#32) (countTick : Bool) : (k.decision contextEsp countTick).ShellReady := by
  obtain ⟨woken, rest, -, hk⟩ := ticked_eq k countTick
  rw [decision, hk, suspendCurrent_awake k _ woken rest hctx]
  exact suspended_shellReady h _ _ _ _ _ _

/-- The round robin of `dispatch` starts behind the process on the CPU. -/
def select (k : Kernel) : Option PcbRef := k.pickNext (k.current + 1)

theorem select_shell {k : Kernel} (h : k.ShellReady) (contextEsp : Word) :
    ∃ next, k.select = some next ∧ (k.pcbs next).priority = 0#8 ∧
      (k.choose contextEsp).2.current = next := by
  obtain ⟨next, hn⟩ := pickNext_shell h (k.current + 1)
  refine ⟨next, hn, ?_, ?_⟩
  · apply BitVec.eq_of_toNat_eq
    rw [pickNext_level hn, bestLevel_shell h]
    rfl
  · have hn' : { k with rrCursor := k.current + 1 }.pickNext (k.current + 1) = some next := hn
    simp only [choose, hn', Option.some_or]
    rfl

end Kernel

namespace OsState

/-- The kernel in which an action makes its scheduling decision, if it makes one:
a tick of the started timer, a yield, or a process that kills itself. -/
def decides (s : OsState) : Action → Option Kernel
  | .tick contextEsp =>
    if s.kernel.timerStarted then some (s.kernel.decision contextEsp true) else none
  | .yield contextEsp => some (s.kernel.decision contextEsp false)
  | .kill contextEsp pid =>
    match s.kernel.processGet pid with
    | none => none
    | some target =>
      if pid ≠ 0#32 ∧ target = s.kernel.current then
        some (((s.kernel.killTarget target).setEax contextEsp 0#32).decision contextEsp false)
      else none
  | _ => none

/-- The dispatch that an action makes: the kernel it starts in, its context, and
whether it counts a tick. -/
inductive DispatchOf (s : OsState) : Action → Kernel → Word → Bool → Prop
  | tick (contextEsp : Word) (started : s.kernel.timerStarted = true) :
      DispatchOf s (.tick contextEsp) s.kernel contextEsp true
  | yield (contextEsp : Word) : DispatchOf s (.yield contextEsp) s.kernel contextEsp false
  | kill (contextEsp pid : Word) (found : s.kernel.processGet pid = some s.kernel.current)
      (user : pid ≠ 0#32) :
      DispatchOf s (.kill contextEsp pid)
        ((s.kernel.killTarget s.kernel.current).setEax contextEsp 0#32) contextEsp false

/-- Every decision is the one of a dispatch. -/
theorem decides_dispatch {s : OsState} {a : Action} {k : Kernel} (hk : s.decides a = some k) :
    ∃ j contextEsp countTick, s.DispatchOf a j contextEsp countTick ∧
      k = j.decision contextEsp countTick ∧
      (s.next a).kernel = (j.dispatch contextEsp countTick).2 := by
  cases a with
  | tick contextEsp =>
    simp only [decides] at hk
    split at hk
    · rename_i started
      cases hk
      refine ⟨_, _, _, .tick contextEsp started, rfl, ?_⟩
      simp only [next, Kernel.schedulerTick, started, Bool.not_true, Bool.false_eq_true, if_false]
    · cases hk
  | yield contextEsp =>
    cases hk
    exact ⟨_, _, _, .yield contextEsp, rfl, rfl⟩
  | kill contextEsp pid =>
    simp only [decides] at hk
    split at hk
    · cases hk
    · rename_i target found
      split at hk
      · rename_i hself
        obtain ⟨user, rfl⟩ := hself
        cases hk
        refine ⟨_, _, _, .kill contextEsp pid found user, rfl, ?_⟩
        simp only [next, Kernel.schedulerKill_self contextEsp found user]
      · cases hk
  | _ => cases hk

theorem DispatchOf.shell {s : OsState} {a : Action} {j : Kernel} {contextEsp : Word}
    {countTick : Bool} (h : s.DispatchOf a j contextEsp countTick) (hs : s.ShellInv)
    (he : lateMachine.enabled s a) : j.ShellReady ∧ contextEsp ≠ 0#32 := by
  cases h with
  | tick _ _ =>
    rcases he with he | ⟨-, -, hl⟩
    · exact ⟨hs.ready, he⟩
    · cases hl
  | yield _ =>
    rcases he with he | ⟨-, -, hl⟩
    · exact ⟨hs.ready, he.1⟩
    · cases hl
  | kill _ pid found user =>
    have hready := (hs.killed found user contextEsp).ready
    rcases he with he | ⟨-, -, hl⟩
    · exact ⟨hready, he.1⟩
    · exact ⟨hready, hl⟩

theorem late_reach_shell {b : Boot} {s : OsState} (h : lateMachine.Reach Any (boot b) s) :
    s.ShellInv :=
  h.invariant (boot_shell b) fun _ a hs he _ => lateStep_shell hs a he

/-- **Every dispatch finds a process on the top level.** In every reachable state
the shell has pid 0, is READY or RUNNING and stands on level 0; so in every
scheduling decision `pick_next` returns a process, which has priority 0 and gets
the CPU, and the fallback behind it is never evaluated. -/
theorem dispatch_selects {b : Boot} {s : OsState} (h : lateMachine.Reach Any (boot b) s) :
    ((s.kernel.pcbs 0).pid = 0#32 ∧ (s.kernel.pcbs 0).priority = 0#8 ∧
      ((s.kernel.pcbs 0).state = .ready ∨ (s.kernel.pcbs 0).state = .running)) ∧
    ∀ a, lateMachine.enabled s a → ∀ k, s.decides a = some k →
      ∃ next, k.select = some next ∧ (k.pcbs next).priority = 0#8 ∧
        (s.next a).kernel.current = next := by
  have hs := late_reach_shell h
  refine ⟨⟨hs.ready.pid, hs.ready.priority, hs.ready.runnable⟩, fun a he k hk => ?_⟩
  obtain ⟨j, contextEsp, countTick, hj, rfl, hnext⟩ := decides_dispatch hk
  obtain ⟨hready, hctx⟩ := hj.shell hs he
  obtain ⟨next, hsel, hprio, hcur⟩ :=
    Kernel.select_shell (Kernel.decision_shell hready hctx countTick) contextEsp
  exact ⟨next, hsel, hprio, by rw [hnext, Kernel.dispatch_eq, hcur]⟩

/-- The first tick, before any process exists, goes back to the shell. -/
theorem dispatch_selects_shell :
    ((boot smallBoot).next .start).decides (.tick 0x9000#32) =
        some (((boot smallBoot).next .start).kernel.decision 0x9000#32 true) ∧
      ∃ next, (((boot smallBoot).next .start).kernel.decision 0x9000#32 true).select = some next ∧
        ((((boot smallBoot).next .start).kernel.decision 0x9000#32 true).pcbs next).priority = 0#8 ∧
        (((boot smallBoot).next .start).next (.tick 0x9000#32)).kernel.current = next := by
  have hrun : lateMachine.Reach Any (boot smallBoot) ((boot smallBoot).next .start) :=
    Machine.Reach.step Action.start .start (by decide +kernel) trivial
  exact ⟨rfl, (dispatch_selects hrun).2 _ (by decide +kernel) _ rfl⟩

end OsState

end SengOS
