import SengOS.Lib.Rounds
import SengOS.Kernel.Selection
import SengOS.Kernel.Uncontended

/-!
# Round robin on the top level

A yield charges nobody a tick and wakes nobody, so it leaves the set of the processes on
the top level as it is. The yields of one round go to each of them once, in the order of
the table behind the process that was on the CPU.
-/

namespace SengOS

namespace Kernel

/-- A runnable process on level 0. -/
def onTop (k : Kernel) (p : PcbRef) : Bool := k.runnableAt p && (k.pcbs p).priority == 0#8

/-- The runnable processes with the least priority number among the runnable ones. -/
def topLevel (k : Kernel) : Finset PcbRef :=
  Finset.univ.filter fun p =>
    k.runnableAt p = true ∧ ∀ q, k.runnableAt q = true → (k.pcbs p).priority ≤ (k.pcbs q).priority

/-- The processes that consecutive yields select. -/
def selections (k : Kernel) (contexts : List Word) : List PcbRef :=
  turns (·.current) (fun k contextEsp => (k.schedulerYield contextEsp).2) k contexts

section
variable {k : Kernel}

theorem ShellReady.onTop (h : k.ShellReady) : k.onTop 0 = true := by
  rcases h.runnable with hr | hr <;> simp [Kernel.onTop, runnableAt, hr, h.priority]

theorem mem_topLevel (h : k.ShellReady) (p : PcbRef) : p ∈ k.topLevel ↔ k.onTop p = true := by
  have hshell := h.onTop
  simp only [Kernel.onTop, Bool.and_eq_true, beq_iff_eq] at hshell
  simp only [topLevel, Finset.mem_filter, Finset.mem_univ, true_and, onTop, Bool.and_eq_true, beq_iff_eq]
  constructor
  · rintro ⟨hr, hleast⟩
    refine ⟨hr, ?_⟩
    have hle := hleast 0 hshell.1
    rw [hshell.2] at hle
    exact BitVec.le_zero_iff.mp hle
  · rintro ⟨hr, hz⟩
    refine ⟨hr, fun q _ => ?_⟩
    rw [hz]
    exact Nat.zero_le _

theorem circle_finRange (start : PcbRef) : (List.finRange 16).map (start + ·) = stretch start 16 := by
  revert start
  decide

/-- `pick_next` finds the first process of the circle that is on the top level. -/
theorem pickNext_onTop (h : k.ShellReady) (start : PcbRef) :
    k.pickNext start = (stretch start 16).find? k.onTop := by
  unfold pickNext
  rw [bestLevel_shell h, if_neg (by decide), circle_finRange]
  congr 1
  funext p
  unfold onTop
  congr 1
  rw [Bool.eq_iff_iff, beq_iff_eq, beq_iff_eq]
  exact ⟨fun hz => BitVec.eq_of_toNat_eq hz, congrArg BitVec.toNat⟩

/-! ## One yield -/

section
variable {contextEsp : Word}

theorem decision_yield (hctx : contextEsp ≠ 0#32) :
    k.decision contextEsp false =
      k.modify k.current (suspend contextEsp (k.frameWord contextEsp 8) false) := by
  simp only [decision, Bool.false_eq_true, if_false, suspendCurrent, if_pos hctx]

/-- The suspension charges no tick; it can only take a process without a pid to the top level. -/
theorem decision_onTop (hctx : contextEsp ≠ 0#32) {p : PcbRef}
    (h : p ≠ k.current ∨ k.onTop k.current = true) :
    (k.decision contextEsp false).onTop p = k.onTop p := by
  rw [decision_yield hctx]
  by_cases hp : p = k.current
  · subst hp
    have htop := h.resolve_left fun hne => hne rfl
    rw [htop]
    simp only [onTop, runnableAt, Bool.and_eq_true, beq_iff_eq] at htop ⊢
    rw [modify_pcbs_self, suspend_state]
    refine ⟨htop.1, BitVec.eq_of_toNat_eq ?_⟩
    rcases suspend_priority contextEsp (k.frameWord contextEsp 8) false (k.pcbs k.current) with
      hle | ⟨hfalse, _⟩
    · rw [htop.2] at hle
      exact Nat.le_zero.mp hle
    · cases hfalse
  · simp only [onTop, runnableAt, modify_pcbs_ne _ _ _ hp]

/-- The process that gets the CPU, and the one that loses it, stay runnable and on their levels. -/
theorem choose_onTop (h : k.ShellReady) (p : PcbRef) :
    (k.choose contextEsp).2.onTop p = k.onTop p := by
  obtain ⟨next, hrun, -, hchoose⟩ := choose_shell h contextEsp
  have hstate : ((k.choose contextEsp).2.pcbs p).priority = (k.pcbs p).priority ∧
      (k.choose contextEsp).2.runnableAt p = k.runnableAt p := by
    rw [hchoose]
    simp only [runnableAt, switchTo_pcbs]
    refine ⟨trivial, ?_⟩
    by_cases hp : p = next
    · subst hp
      rcases hrun with hr | hr <;> simp [hr]
    · rw [if_neg hp]
      split
      · rename_i hcur
        simp [hcur.2]
      · rfl
  rw [onTop, hstate.1, hstate.2, onTop]

theorem yield_onTop (h : k.ShellReady) (hctx : contextEsp ≠ 0#32) {p : PcbRef}
    (hp : p ≠ k.current ∨ k.onTop k.current = true) :
    (k.schedulerYield contextEsp).2.onTop p = k.onTop p := by
  rw [schedulerYield, dispatch_eq, choose_onTop (decision_shell h hctx false)]
  exact decision_onTop hctx hp

/-- The process that a yield selects is the next one of the circle. -/
theorem yield_selects (h : k.ShellReady) (hctx : contextEsp ≠ 0#32) :
    (stretch (k.current + 1) 16).find? k.onTop = some (k.schedulerYield contextEsp).2.current := by
  have hdecision := decision_shell h hctx false
  obtain ⟨next, hselect, -, hcurrent⟩ := select_shell hdecision contextEsp
  have hfind : (stretch (k.current + 1) 16).find? (k.decision contextEsp false).onTop = some next := by
    rw [← pickNext_onTop hdecision, ← hselect, select, decision_yield hctx]
    rfl
  rw [schedulerYield, dispatch_eq, hcurrent, ← hfind]
  by_cases htop : k.onTop k.current = true
  · congr 1
    funext p
    exact (decision_onTop hctx (.inr htop)).symm
  · -- The process on the CPU is the last one of the circle, behind the shell.
    have hagree : ∀ p ∈ stretch (k.current + 1) 15,
        k.onTop p = (k.decision contextEsp false).onTop p := by
      intro p hp
      refine (decision_onTop hctx (.inl ?_)).symm
      rintro rfl
      exact not_mem_behind k.current hp
    have hshell : (0 : PcbRef) ∈ stretch (k.current + 1) 15 := by
      have hin := mem_circle (k.current + 1) 0
      rw [circle_last, List.mem_append, List.mem_singleton] at hin
      refine hin.resolve_right fun he => htop ?_
      rw [← he]
      exact h.onTop
    have hsame : (stretch (k.current + 1) 15).find? k.onTop =
        (stretch (k.current + 1) 15).find? (k.decision contextEsp false).onTop := by
      rw [← List.head?_filter, ← List.head?_filter, List.filter_congr hagree]
    obtain ⟨z, hz⟩ := Option.isSome_iff_exists.mp
      (List.find?_isSome.mpr ⟨0, hshell, h.onTop⟩ : ((stretch (k.current + 1) 15).find? k.onTop).isSome)
    rw [circle_last, List.find?_append, List.find?_append, ← hsame, hz, Option.some_or, Option.some_or]

/-- `scheduler_yield` is a round robin over the processes on the top level. -/
theorem yield_roundRobin : RoundRobin ShellReady (· ≠ 0#32) (·.current) onTop
    (fun k contextEsp => (k.schedulerYield contextEsp).2) where
  keeps := fun _ _ h hctx =>
    let ⟨_, hd⟩ := dispatch_spec h hctx false
    hd.shell
  first := fun _ _ h hctx => yield_selects h hctx
  same := fun _ _ _ h hctx hp => yield_onTop h hctx hp

end

end

end Kernel

namespace OsState

/-- **Round robin is fair on the top level.** In every reachable state, as many consecutive
yields as there are runnable processes with the least priority number select each of these
once, in the order of the table behind the process that was on the CPU, and nobody else. -/
theorem yields_fair {s : OsState} (h : WholeReached s) {contexts : List Word}
    (hctx : ∀ contextEsp ∈ contexts, contextEsp ≠ 0#32)
    (hlen : contexts.length = s.kernel.topLevel.card) :
    s.kernel.selections contexts =
        (stretch (s.kernel.current + 1) 16).filter (· ∈ s.kernel.topLevel) ∧
      (s.kernel.selections contexts).Nodup ∧
      ∀ p, p ∈ s.kernel.selections contexts ↔ p ∈ s.kernel.topLevel := by
  have hs := (wholeReached_inv h).1.ready
  have htop : (stretch (s.kernel.current + 1) 16).filter (· ∈ s.kernel.topLevel) =
      (stretch (s.kernel.current + 1) 16).filter s.kernel.onTop := by
    apply List.filter_congr
    intro p _
    rw [Bool.eq_iff_iff, decide_eq_true_eq]
    exact Kernel.mem_topLevel hs p
  have hnodup : ((stretch (s.kernel.current + 1) 16).filter (· ∈ s.kernel.topLevel)).Nodup :=
    (stretch_nodup _ (Nat.le_refl 16)).filter _
  have hmem : ∀ p, p ∈ (stretch (s.kernel.current + 1) 16).filter (· ∈ s.kernel.topLevel) ↔
      p ∈ s.kernel.topLevel := by
    intro p
    rw [List.mem_filter, decide_eq_true_eq]
    exact and_iff_right (mem_circle _ p)
  have hcard : s.kernel.topLevel.card =
      ((stretch (s.kernel.current + 1) 16).filter (· ∈ s.kernel.topLevel)).length := by
    rw [← List.toFinset_card_of_nodup hnodup]
    congr 1
    ext p
    rw [List.mem_toFinset, hmem]
  have hround : s.kernel.selections contexts =
      (stretch (s.kernel.current + 1) 16).filter (· ∈ s.kernel.topLevel) := by
    rw [htop]
    apply Kernel.yield_roundRobin.round hs hctx
    rw [hlen, hcard, htop]
  rw [hround]
  exact ⟨rfl, hnodup, hmem⟩

/-- Two processes beside the shell, which is on the CPU. -/
def threeRun : List PrioAction :=
  [.os (.create 0x11000#32 none), .os (.create 0x12000#32 none)]

def threeProcesses : OsState := wholeMachine.after (boot smallBoot) threeRun

theorem threeProcesses_fair :
    threeProcesses.kernel.selections [0x90000#32, 0x100F00#32, 0x101F00#32] = [1, 2, 0] := by
  have hrun : wholeMachine.Accepts AnyPrio (boot smallBoot) threeRun ∧
      threeProcesses.kernel.topLevel.card = 3 ∧
      (stretch (threeProcesses.kernel.current + 1) 16).filter (· ∈ threeProcesses.kernel.topLevel) =
        [1, 2, 0] := by
    decide +kernel
  have hreach : wholeMachine.Reach AnyPrio (boot smallBoot) threeProcesses := .accepts .start hrun.1
  have hcontexts : ∀ contextEsp ∈ [0x90000#32, 0x100F00#32, 0x101F00#32], contextEsp ≠ 0#32 := by simp
  have hfair := yields_fair ⟨smallBoot, hreach⟩ hcontexts hrun.2.1.symm
  rw [hfair.1, hrun.2.2]

end OsState

end SengOS
