import SengOS.Kernel.Lifecycle
import SengOS.Kernel.Frames
import SengOS.Lib.Slots

/-!
# Who owns the stacks

The processes are clients of the frame allocator among others. A frame is taken
for a stack when a slot is filled and given back when the slot is left; between
the two it belongs to that slot and to nobody else.
-/

namespace SengOS

/-- The stacks of the slots that have one. -/
def Kernel.stackBases (k : Kernel) : List Word :=
  holdings (List.finRange 16) (fun p => (k.pcbs p).hasStack) fun p => (k.pcbs p).stackBase

/-- The system beside the frames that its other parts hold, and those that were
taken for stacks and not given back since. -/
structure Tenancy where
  os : OsState
  clients : List Word
  stackFrames : List Word

inductive FrameUse
  | os (a : Action)
  | alloc
  | free (addr : Word)

namespace Tenancy

/-- A creating call that gets a frame takes it for a stack; the end of a process gives its frame back. -/
def noteStack (k : Kernel) (a : Action) (frames : List Word) : List Word :=
  match k.slotTaken a, k.slotLeft a with
  | some _, _ => if k.pmm.pmmAllocFrame.1 = 0#32 then frames else k.pmm.pmmAllocFrame.1 :: frames
  | none, some p => if (k.pcbs p).hasStack then frames.erase (k.pcbs p).stackBase else frames
  | none, none => frames

def withPmm (t : Tenancy) (pmm : Pmm) : OsState :=
  { t.os with kernel := { t.os.kernel with pmm := pmm } }

def next (t : Tenancy) : FrameUse → Tenancy
  | .os a => ⟨t.os.next a, t.clients, noteStack t.os.kernel a t.stackFrames⟩
  | .alloc =>
    let (addr, pmm) := t.os.kernel.pmm.pmmAllocFrame
    ⟨t.withPmm pmm, if addr = 0#32 then t.clients else addr :: t.clients, t.stackFrames⟩
  | .free addr =>
    ⟨t.withPmm (t.os.kernel.pmm.pmmFreeFrame addr), t.clients.erase addr, t.stackFrames⟩

/-- Clients allocate at any time and free frames of their own. -/
def Enabled (t : Tenancy) : FrameUse → Prop
  | .os a => OsState.lateMachine.enabled t.os a
  | .alloc => True
  | .free addr => addr ∈ t.clients

instance (t : Tenancy) (u : FrameUse) : Decidable (t.Enabled u) := by
  apply FrameUse.casesOn (motive := fun u => Decidable (t.Enabled u)) u <;> intros <;>
    unfold Enabled <;> infer_instance

def machine : Machine Tenancy FrameUse := ⟨Enabled, next⟩

instance (t : Tenancy) (u : FrameUse) : Decidable (machine.enabled t u) :=
  inferInstanceAs (Decidable (t.Enabled u))

def boot (b : OsState.Boot) : Tenancy := ⟨OsState.boot b, [], []⟩

/-- The frames that `pmm_init` leaves. -/
def firstPmm (b : OsState.Boot) : Pmm := Pmm.pmmInit b.e820 b.kernelEnd

structure Inv (b : OsState.Boot) (t : Tenancy) : Prop where
  shell : t.os.ShellInv
  lent : Pmm.Lent (firstPmm b) t.os.kernel.pmm (t.os.kernel.stackBases ++ t.clients)
  tops : ∀ p, (t.os.kernel.pcbs p).hasStack = true →
    (t.os.kernel.pcbs p).stackTop = (t.os.kernel.pcbs p).stackBase + 4096#32
  frames : t.stackFrames.Perm t.os.kernel.stackBases

section
variable {k k' : Kernel} {p : PcbRef} {b : OsState.Boot} {t : Tenancy}

theorem stackBases_rests (h : ∀ q, (k.pcbs q).SameLife (k'.pcbs q)) : k'.stackBases = k.stackBases :=
  holdings_congr fun q => ⟨(h q).hasStack, fun hs => ((h q).stack hs).1⟩

/-- A slot without a stack before and after. -/
theorem stackBases_still (h : ∀ q, q ≠ p → (k.pcbs q).SameLife (k'.pcbs q))
    (hp : (k.pcbs p).hasStack = false) (hp' : (k'.pcbs p).hasStack = false) :
    k'.stackBases = k.stackBases := by
  refine holdings_congr fun q => ?_
  by_cases hq : q = p
  · rw [hq, hp, hp']
    exact ⟨rfl, nofun⟩
  · exact ⟨(h q hq).hasStack, fun hs => ((h q hq).stack hs).1⟩

theorem stackBases_gains (h : ∀ q, q ≠ p → (k.pcbs q).SameLife (k'.pcbs q))
    (hp : (k.pcbs p).hasStack = false) (hp' : (k'.pcbs p).hasStack = true) :
    k'.stackBases.Perm ((k'.pcbs p).stackBase :: k.stackBases) :=
  holdings_fill (List.nodup_finRange 16) (List.mem_finRange p) hp hp' fun q hq =>
    ⟨(h q hq).hasStack, fun hs => ((h q hq).stack hs).1⟩

theorem stackBases_loses (h : ∀ q, q ≠ p → (k.pcbs q).SameLife (k'.pcbs q))
    (hp : (k.pcbs p).hasStack = true) (hp' : (k'.pcbs p).hasStack = false) :
    k.stackBases.Perm ((k.pcbs p).stackBase :: k'.stackBases) :=
  holdings_clear (List.nodup_finRange 16) (List.mem_finRange p) hp hp' fun q hq =>
    ⟨(h q hq).hasStack, fun hs => ((h q hq).stack hs).1⟩

theorem Inv.tops_same (h : t.Inv b) (hs : (t.os.kernel.pcbs p).SameLife (k'.pcbs p))
    (hp : (k'.pcbs p).hasStack = true) : (k'.pcbs p).stackTop = (k'.pcbs p).stackBase + 4096#32 := by
  rw [hs.hasStack] at hp
  obtain ⟨hbase, htop⟩ := hs.stack hp
  rw [hbase, htop]
  exact h.tops p hp

/-- An allocation that fails changes nothing. -/
theorem Inv.refused (h : t.Inv b) (hz : t.os.kernel.pmm.pmmAllocFrame.1 = 0#32) :
    t.os.kernel.pmm.pmmAllocFrame.2 = t.os.kernel.pmm := by
  rcases h.lent.alloc (Pmm.pmmInit_ready _ _) with ⟨he, _⟩ | ⟨f, _, _, he, hne, _, _⟩
  · rw [he]
  · rw [he] at hz
    exact absurd hz hne

theorem Inv.allocates (h : t.Inv b) (hz : t.os.kernel.pmm.pmmAllocFrame.1 ≠ 0#32) :
    Pmm.Lent (firstPmm b) t.os.kernel.pmm.pmmAllocFrame.2
      (t.os.kernel.pmm.pmmAllocFrame.1 :: (t.os.kernel.stackBases ++ t.clients)) := by
  rcases h.lent.alloc (Pmm.pmmInit_ready _ _) with ⟨he, _⟩ | ⟨f, _, _, he, _, _, hl⟩
  · rw [he] at hz
    exact absurd rfl hz
  · rwa [← he] at hl

/-- A slot is emptied: its frame goes back, if it had one. -/
theorem Inv.gives (h : t.Inv b) (hs : ∀ q, q ≠ p → (t.os.kernel.pcbs q).SameLife (k'.pcbs q))
    (hp : (t.os.kernel.pcbs p).hasStack = true) (hp' : (k'.pcbs p).hasStack = false) :
    Pmm.Lent (firstPmm b) (t.os.kernel.pmm.pmmFreeFrame (t.os.kernel.pcbs p).stackBase)
        (k'.stackBases ++ t.clients) ∧
      (t.stackFrames.erase (t.os.kernel.pcbs p).stackBase).Perm k'.stackBases := by
  have hperm := stackBases_loses hs hp hp'
  constructor
  · have hheld : (t.os.kernel.pcbs p).stackBase ∈ t.os.kernel.stackBases ++ t.clients :=
      List.mem_append_left _ (hperm.mem_iff.mpr List.mem_cons_self)
    apply (h.lent.free (Pmm.pmmInit_ready _ _) hheld).perm
    have herase := (hperm.append_right t.clients).erase (t.os.kernel.pcbs p).stackBase
    rwa [List.cons_append, List.erase_cons_head] at herase
  · have herase := (h.frames.trans hperm).erase (t.os.kernel.pcbs p).stackBase
    rwa [List.erase_cons_head] at herase

theorem Inv.os (h : t.Inv b) (a : Action) (he : OsState.lateMachine.enabled t.os a) :
    (t.next (.os a)).Inv b := by
  have hshell := OsState.lateStep_shell h.shell a he
  cases OsState.next_lives h.shell a he with
  | rests taken left same total pmm =>
    have hbases := stackBases_rests same
    refine ⟨hshell, ?_, fun p => h.tops_same (same p), ?_⟩
    · have hpmm : (t.os.next a).kernel.pmm = t.os.kernel.pmm := by
        rcases pmm with hp | ⟨hz, hp⟩
        · exact hp
        · rw [hp, h.refused hz]
      simp only [next, hbases, hpmm]
      exact h.lent
    · simp only [next, noteStack, taken, left, hbases]
      exact h.frames
  | born p taken left free same ready frame stack total pmm =>
    have hperm := stackBases_gains same free.2 stack.1
    rw [stack.2.1] at hperm
    refine ⟨hshell, ?_, fun q hq => ?_, ?_⟩
    · simp only [next, pmm]
      apply (h.allocates frame).perm
      exact (hperm.append_right t.clients).symm
    · by_cases hqp : q = p
      · simp only [next, hqp, stack.2.1, stack.2.2]
      · exact h.tops_same (same q hqp) hq
    · simp only [next, noteStack, taken, if_neg frame]
      exact (h.frames.cons _).trans hperm.symm
  | stillborn p taken left free same ready frame stack total pmm =>
    have hbases := stackBases_still same free.2 stack
    refine ⟨hshell, ?_, fun q hq => ?_, ?_⟩
    · simp only [next, hbases, pmm, h.refused frame]
      exact h.lent
    · have hqp : q ≠ p := by
        rintro rfl
        rw [show ((t.next (.os a)).os.kernel.pcbs q).hasStack = false from stack] at hq
        cases hq
      exact h.tops_same (same q hqp) hq
    · simp only [next, noteStack, taken, if_pos frame, hbases]
      exact h.frames
  | ended p taken left same terminated stack total pmm =>
    have htops : ∀ q, ((t.os.next a).kernel.pcbs q).hasStack = true →
        ((t.os.next a).kernel.pcbs q).stackTop = ((t.os.next a).kernel.pcbs q).stackBase + 4096#32 := by
      intro q hq
      have hqp : q ≠ p := by
        rintro rfl
        rw [stack] at hq
        cases hq
      exact h.tops_same (same q hqp) hq
    cases hp : (t.os.kernel.pcbs p).hasStack with
    | true =>
      obtain ⟨hlent, hframes⟩ := h.gives same hp stack
      rw [hp, if_pos rfl] at pmm
      refine ⟨hshell, ?_, htops, ?_⟩
      · simp only [next, pmm]
        exact hlent
      · simp only [next, noteStack, taken, left, hp, if_true]
        exact hframes
    | false =>
      have hbases := stackBases_still same hp stack
      rw [hp, if_neg nofun] at pmm
      refine ⟨hshell, ?_, htops, ?_⟩
      · simp only [next, hbases, pmm]
        exact h.lent
      · simp only [next, noteStack, taken, left, hp, hbases]
        exact h.frames

theorem Inv.withPmm (h : t.Inv b) (pmm : Pmm) : (t.withPmm pmm).ShellInv :=
  h.shell.of_slot rfl rfl rfl

theorem Inv.next (h : t.Inv b) (u : FrameUse) (he : t.Enabled u) : (t.next u).Inv b := by
  cases u with
  | os a => exact h.os a he
  | alloc =>
    refine ⟨h.withPmm _, ?_, h.tops, h.frames⟩
    show Pmm.Lent _ t.os.kernel.pmm.pmmAllocFrame.2 (t.os.kernel.stackBases ++
      if t.os.kernel.pmm.pmmAllocFrame.1 = 0#32 then t.clients
      else t.os.kernel.pmm.pmmAllocFrame.1 :: t.clients)
    split
    · rename_i hz
      rw [h.refused hz]
      exact h.lent
    · rename_i hz
      exact (h.allocates hz).perm List.perm_middle.symm
  | free addr =>
    have hin : addr ∈ t.clients := he
    have hout : addr ∉ t.os.kernel.stackBases := fun hs =>
      List.disjoint_of_nodup_append h.lent.nodup hs hin
    refine ⟨h.withPmm _, ?_, h.tops, h.frames⟩
    have hfree := h.lent.free (Pmm.pmmInit_ready _ _) (List.mem_append_right _ hin)
    rwa [List.erase_append_right _ hout] at hfree

theorem boot_inv (b : OsState.Boot) : (boot b).Inv b := by
  have hbases : (boot b).os.kernel.stackBases = [] := rfl
  refine ⟨OsState.boot_shell b, ?_, fun p hp => ?_, ?_⟩
  · rw [hbases]
    exact (Pmm.pmmInit_ready b.e820 b.kernelEnd).lent
  · have hmem : ((boot b).os.kernel.pcbs p).stackBase ∈ (boot b).os.kernel.stackBases :=
      mem_holdings.mpr ⟨p, List.mem_finRange p, hp, rfl⟩
    rw [hbases] at hmem
    cases hmem
  · rw [hbases]
    exact .nil

/-- Every stack has one owner: the slots with a stack have different frames of
their own, and the frames in use are those of the boot, of the stacks and of
the other clients. -/
structure StacksOwned (b : OsState.Boot) (t : Tenancy) : Prop where
  distinct : ∀ p q, (t.os.kernel.pcbs p).hasStack = true → (t.os.kernel.pcbs q).hasStack = true →
    (t.os.kernel.pcbs p).stackBase = (t.os.kernel.pcbs q).stackBase → p = q
  own : ∀ p, (t.os.kernel.pcbs p).hasStack = true →
    (t.os.kernel.pcbs p).stackBase ≠ 0#32 ∧ (t.os.kernel.pcbs p).stackBase ∉ t.clients ∧
    t.os.kernel.pmm.bitTest ((t.os.kernel.pcbs p).stackBase.toNat / 4096) = true ∧
    (t.os.kernel.pcbs p).stackTop = (t.os.kernel.pcbs p).stackBase + 4096#32
  frames : t.stackFrames.Perm t.os.kernel.stackBases
  count : t.stackFrames.length = (List.finRange 16).countP fun p => (t.os.kernel.pcbs p).hasStack
  used : ∀ f, f < Pmm.maxFrames → (t.os.kernel.pmm.bitTest f = true ↔
    (firstPmm b).bitTest f = true ∨ Pmm.frameAddr f ∈ t.stackFrames ∨ Pmm.frameAddr f ∈ t.clients)

theorem Inv.owned (h : t.Inv b) : t.StacksOwned b := by
  have hready : (firstPmm b).Ready := Pmm.pmmInit_ready _ _
  have hnodup := h.lent.nodup.of_append_left
  have hmem : ∀ p, (t.os.kernel.pcbs p).hasStack = true →
      (t.os.kernel.pcbs p).stackBase ∈ t.os.kernel.stackBases := fun p hp =>
    mem_holdings.mpr ⟨p, List.mem_finRange p, hp, rfl⟩
  constructor
  case distinct =>
    intro p q hp hq he
    have hin : ∀ r, (t.os.kernel.pcbs r).hasStack = true →
        r ∈ (List.finRange 16).filter fun r => (t.os.kernel.pcbs r).hasStack := fun r hr =>
      List.mem_filter.mpr ⟨List.mem_finRange r, hr⟩
    exact List.inj_on_of_nodup_map hnodup (hin p hp) (hin q hq) he
  case own =>
    intro p hp
    have hheld := List.mem_append_left t.clients (hmem p hp)
    obtain ⟨_, _, _, hhigh, hbit⟩ := h.lent.frees hready hheld
    refine ⟨fun hz => ?_, fun hc => ?_, hbit, h.tops p hp⟩
    · rw [hz] at hhigh
      exact absurd hhigh (by decide)
    · exact List.disjoint_of_nodup_append h.lent.nodup (hmem p hp) hc
  case frames => exact h.frames
  case count =>
    rw [h.frames.length_eq, Kernel.stackBases, holdings_length, List.countP_eq_length_filter]
  case used =>
    intro f hf
    have hclear := h.lent.clear f hf
    rw [List.mem_append, ← h.frames.mem_iff] at hclear
    rw [← Bool.not_eq_false, hclear, ← Bool.not_eq_false]
    tauto

/-- Process stacks are owned once in every state of every run. -/
theorem reachable_owned (h : machine.Reach (fun _ _ => True) (boot b) t) : t.StacksOwned b := by
  have hinv : t.Inv b := h.invariant (boot_inv b) fun t u hi he _ => hi.next u he
  exact hinv.owned

end

/-- A client holds the frame between two stacks; the first process forks and ends
twice, and the client takes the frame of its stack. -/
def lodgerRun : List FrameUse :=
  [.os (.create 0x11000#32 none), .alloc, .os (.create 0x12000#32 none), .os (.yield 0x90000#32),
    .os (.fork 0x100F00#32), .os .exit, .os .exit, .free 0x101000#32, .alloc]

theorem lodgerRun_owned :
    ∃ t, machine.Reach (fun _ _ => True) (boot OsState.smallBoot) t ∧
      t.clients = [0x100000#32] ∧ t.stackFrames = [0x103000#32, 0x102000#32] ∧
      t.os.kernel.stackBases = [0x102000#32, 0x103000#32] ∧ t.StacksOwned OsState.smallBoot := by
  have hrun : machine.Accepts (fun _ _ => True) (boot OsState.smallBoot) lodgerRun := by decide +kernel
  have hreach := Machine.Reach.start.accepts hrun
  exact ⟨_, hreach, by decide +kernel, by decide +kernel, by decide +kernel, reachable_owned hreach⟩

end Tenancy

end SengOS
