import SengOS.Kernel.Lifecycle
import SengOS.Lib.Slots

/-!
# The count of live processes

`process_total` is moved by one in each creating call and in the two calls that
end a process. It stays the number of live processes as long as every call
that moves it, or fills a slot, also changes what it counts.
-/

namespace SengOS

namespace Kernel

/-- `process_count`. -/
def processCount (k : Kernel) : Nat := k.processTotal

/-- The slots whose process is not TERMINATED. -/
def live (k : Kernel) : List PcbRef := (List.finRange 16).filter fun p => (k.pcbs p).state != .terminated

def CountExact (k : Kernel) : Prop := k.processCount = k.live.length

theorem live_length (k : Kernel) :
    k.live.length = (holdings (List.finRange 16) (fun p => (k.pcbs p).state != .terminated) id).length :=
  holdings_length.symm

theorem live_le (k : Kernel) : k.live.length ≤ 16 := by
  have h := List.length_filter_le (fun p => (k.pcbs p).state != .terminated) (List.finRange 16)
  rwa [List.length_finRange] at h

theorem live_pos {k : Kernel} (h : k.ShellReady) : 0 < k.live.length := by
  apply List.length_pos_of_mem (a := 0)
  simp [live, h.not_terminated]

section
variable {k k' : Kernel} {p : PcbRef}

theorem sameLife_live {q q' : Pcb} (h : q.SameLife q') :
    (q'.state != .terminated) = (q.state != .terminated) := by
  rw [Bool.eq_iff_iff]
  simp only [bne_iff_ne, ne_eq, h.terminated]

theorem live_rests (h : ∀ q, (k.pcbs q).SameLife (k'.pcbs q)) : k'.live = k.live :=
  List.filter_congr fun q _ => sameLife_live (h q)

theorem live_gains (h : ∀ q, q ≠ p → (k.pcbs q).SameLife (k'.pcbs q))
    (hp : (k.pcbs p).state = .terminated) (hp' : (k'.pcbs p).state ≠ .terminated) :
    k'.live.length = k.live.length + 1 := by
  rw [live_length, live_length]
  refine (holdings_fill (List.nodup_finRange 16) (List.mem_finRange p) ?_ ?_ fun q hq => ?_).length_eq
  · simp [hp]
  · simpa using hp'
  · exact ⟨sameLife_live (h q hq), fun _ => rfl⟩

theorem live_loses (h : ∀ q, q ≠ p → (k.pcbs q).SameLife (k'.pcbs q))
    (hp : (k.pcbs p).state ≠ .terminated) (hp' : (k'.pcbs p).state = .terminated) :
    k.live.length = k'.live.length + 1 :=
  live_gains (fun q hq => ⟨(h q hq).terminated.symm, (h q hq).hasStack.symm,
    fun hs => ((h q hq).stack ((h q hq).hasStack ▸ hs)).imp Eq.symm Eq.symm⟩) hp' hp

end

end Kernel

namespace OsState

/-- No creating call fills a slot without getting a frame for it, and no process
that has ended ends again. -/
def CountRun (s : OsState) : Action → Prop
  | .create entry _ | .threadCreate entry _ _ =>
    s.kernel.createTarget entry ≠ none → s.kernel.pmm.pmmAllocFrame.1 ≠ 0#32
  | .exit => s.kernel.cur.pid ≠ 0#32 → s.kernel.cur.state ≠ .terminated
  | _ => True

instance (s : OsState) (a : Action) : Decidable (s.CountRun a) := by
  apply Action.casesOn (motive := fun a => Decidable (s.CountRun a)) a <;> intros <;>
    unfold CountRun <;> infer_instance

section
variable {s : OsState} {a : Action} {p : PcbRef}

theorem countRun_rests (taken : s.kernel.slotTaken a = none) (left : s.kernel.slotLeft a = none) :
    s.CountRun a := by
  cases a with
  | create entry name => exact fun hne => absurd taken hne
  | threadCreate entry arg name => exact fun hne => absurd taken hne
  | exit =>
    intro hp
    rw [Kernel.slotLeft, if_neg hp] at left
    cases left
  | _ => trivial

theorem countRun_born (taken : s.kernel.slotTaken a = some p) (left : s.kernel.slotLeft a = none)
    (frame : s.kernel.pmm.pmmAllocFrame.1 ≠ 0#32) : s.CountRun a := by
  cases a with
  | create entry name => exact fun _ => frame
  | threadCreate entry arg name => exact fun _ => frame
  | exit => cases taken
  | _ => trivial

theorem not_countRun_stillborn (taken : s.kernel.slotTaken a = some p)
    (frame : s.kernel.pmm.pmmAllocFrame.1 = 0#32) : ¬ s.CountRun a := by
  cases a with
  | create entry name =>
    exact fun h => h (by rw [show s.kernel.createTarget entry = _ from taken]; nofun) frame
  | threadCreate entry arg name =>
    exact fun h => h (by rw [show s.kernel.createTarget entry = _ from taken]; nofun) frame
  | fork contextEsp => exact absurd frame (Kernel.forkTarget_some taken).2.1
  | _ => cases taken

theorem countRun_ended (taken : s.kernel.slotTaken a = none) (left : s.kernel.slotLeft a = some p) :
    s.CountRun a ↔ (s.kernel.pcbs p).state ≠ .terminated := by
  cases a with
  | exit =>
    simp only [Kernel.slotLeft] at left
    split at left
    · cases left
    · rename_i hp
      obtain rfl : s.kernel.current = p := Option.some.inj left
      exact ⟨fun h => h hp, fun h _ => h⟩
  | kill contextEsp pid =>
    simp only [Kernel.slotLeft] at left
    split at left
    · cases left
    · exact iff_of_true trivial (Kernel.processGet_some left).2
  | _ => cases left

/-- From a right count, an action leads to a right one exactly if it meets the condition. -/
theorem count_step_iff (h : s.ShellInv) (hx : s.kernel.CountExact) (he : lateMachine.enabled s a) :
    (s.next a).kernel.CountExact ↔ s.CountRun a := by
  have hpos := Kernel.live_pos h.ready
  unfold Kernel.CountExact Kernel.processCount at *
  cases next_lives h a he with
  | rests taken left same total pmm =>
    rw [Kernel.live_rests same, total]
    exact iff_of_true hx (countRun_rests taken left)
  | born p taken left free same ready frame stack total pmm =>
    have hgain := Kernel.live_gains same free.1 (by rw [ready]; decide)
    have hle := Kernel.live_le (s.next a).kernel
    refine iff_of_true ?_ (countRun_born taken left frame)
    rw [hgain, total (by omega), hx]
  | stillborn p taken left free same ready frame stack total pmm =>
    have hgain := Kernel.live_gains same free.1 (by rw [ready]; decide)
    refine iff_of_false ?_ (not_countRun_stillborn taken frame)
    omega
  | ended p taken left same terminated stack total pmm =>
    rw [countRun_ended taken left]
    by_cases hp : (s.kernel.pcbs p).state = .terminated
    · have hsame : (s.next a).kernel.live = s.kernel.live := by
        refine List.filter_congr fun q _ => ?_
        by_cases hq : q = p
        · rw [hq, terminated, hp]
        · exact Kernel.sameLife_live (same q hq)
      refine iff_of_false ?_ (not_not.mpr hp)
      rw [hsame]
      omega
    · have hlose := Kernel.live_loses same hp terminated
      refine iff_of_true ?_ hp
      omega

/-- In every run whose steps meet the condition the count is right in every state. -/
theorem reachable_count {b : Boot} (h : lateMachine.Reach CountRun (boot b) s) :
    s.kernel.processCount = s.kernel.live.length := by
  have hinv : s.ShellInv ∧ s.kernel.CountExact := by
    apply h.invariant (I := fun s => s.ShellInv ∧ s.kernel.CountExact)
    · exact ⟨boot_shell b, rfl⟩
    · intro s a hi he hrun
      exact ⟨lateStep_shell hi.1 a he, (count_step_iff hi.1 hi.2 he).mpr hrun⟩
  exact hinv.2

end

/-- Two processes are made; the first one forks, kills the second one and ends. -/
def familyRun : List Action :=
  [.create 0x11000#32 none, .threadCreate 0x12000#32 0#32 none, .yield 0x90000#32, .fork 0x100F00#32,
    .kill 0x100F00#32 2#32, .exit]

theorem familyRun_counted :
    lateMachine.Accepts CountRun (boot smallBoot) familyRun ∧
      (let s := lateMachine.after (boot smallBoot) familyRun
       s.kernel.live = [0, 3] ∧ s.kernel.processCount = s.kernel.live.length) := by
  have hrun : lateMachine.Accepts CountRun (boot smallBoot) familyRun := by decide +kernel
  exact ⟨hrun, by decide +kernel, reachable_count (.accepts .start hrun)⟩

/-- A body that calls `process_exit` and returns, before the next interrupt. -/
def twiceRun : List Action := [.create 0x11000#32 none, .yield 0x90000#32, .exit, .exit]

theorem ended_twice_miscounted :
    ∃ s, lateMachine.Reach Any (boot smallBoot) s ∧ s.kernel.live = [0] ∧ s.kernel.processCount = 0 := by
  have hrun : lateMachine.Accepts Any (boot smallBoot) twiceRun := by decide +kernel
  exact ⟨_, .accepts .start hrun, by decide +kernel, by decide +kernel⟩

end OsState

end SengOS
