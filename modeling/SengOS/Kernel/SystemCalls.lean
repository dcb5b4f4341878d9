import SengOS.Kernel.Transparency

/-!
# What a process finds when it goes on

A fork returns twice: the parent gets the child's pid, the child zero, and both go on behind
the same `int $0x31`, each on its own stack. A new process finds the context that
`build_initial_context` made, however late it gets the CPU.
-/

namespace SengOS

namespace Registers

/-- The registers of a forked child: those that point into the parent's stack are moved. -/
def forked (r : Registers) (parent : Pcb) (delta : Word) : Registers where
  edi := Kernel.moved parent delta r.edi
  esi := Kernel.moved parent delta r.esi
  ebp := Kernel.moved parent delta r.ebp
  esp := r.esp + delta
  ebx := Kernel.moved parent delta r.ebx
  edx := Kernel.moved parent delta r.edx
  ecx := Kernel.moved parent delta r.ecx
  eax := 0#32
  eip := r.eip
  cs := r.cs
  eflags := r.eflags

variable {m m' : Memory} {sp : Word}

/-- A frame of which only the saved EAX has changed. -/
theorem restore_eax (h : Fits sp) {v : Word} (hv : m'.loadWord (sp + 28#32) = v)
    (hm : ∀ a : Word, sp.toNat ≤ a.toNat → a.toNat < sp.toNat + 44 →
      (a.toNat < sp.toNat + 28 ∨ sp.toNat + 32 ≤ a.toNat) → m' a = m a) :
    restore m' sp = { restore m sp with eax := v } := by
  unfold Fits at h
  have hword (w : Word) (hlo : sp.toNat ≤ w.toNat) (hhi : w.toNat + 4 ≤ sp.toNat + 44)
      (hout : w.toNat + 4 ≤ sp.toNat + 28 ∨ sp.toNat + 32 ≤ w.toNat) : m'.loadWord w = m.loadWord w := by
    apply Memory.loadWord_congr
    intro i hi
    apply hm <;> bv_omega
  ext1
  case esp => rfl
  case eax => exact hv
  all_goals apply hword <;> bv_omega

end Registers

namespace Computer

variable {image : Image} {c : Computer} {child : PcbRef} {before after : Memory}

/-- What a fork leaves to its two processes. -/
structure ForkedTwice (image : Image) (c c' : Computer) (child : PcbRef) : Prop where
  parent : c'.regs = { c.regs with eax := (c'.kernel.pcbs child).pid }
  alive : c'.Alive child
  regs : c'.registers child = c.regs.forked c.kernel.cur
    ((c'.kernel.pcbs child).stackBase - c.kernel.cur.stackBase)
  parentStack : ∀ a : Word, c.stack.Has a.toNat → c.regs.esp ≤ a → c'.mem a = c.mem a
  childStack : ∀ o, c.regs.esp.toNat - c.kernel.cur.stackBase.toNat ≤ o → o < 4096 →
    c'.mem ((c'.kernel.pcbs child).stackBase + BitVec.ofNat 32 o) =
      c.mem (c.kernel.cur.stackBase + BitVec.ofNat 32 o)

/-- The frame as the C function finds it. -/
theorem entered_frame (h : c.Inv image) (hr : c.Roomy image) :
    Registers.restore (c.entered image before).os.kernel.mem c.regs.contextEsp = c.regs := by
  have hbound := h.bound
  obtain ⟨hlow, hhigh, htop⟩ := hr
  have hfits : Registers.Fits c.regs.contextEsp := by
    unfold Registers.Fits
    omega
  have hframe : Registers.restore (c.entered image before).os.kernel.mem c.regs.contextEsp =
      Registers.restore (c.regs.save c.mem) c.regs.contextEsp := by
    apply Registers.restore_congr hfits
    intro a hlo _
    exact Memory.scratch_ne (.inr hlo)
  exact hframe.trans (Registers.restore_save (by omega))

/-- Above the frame the C function finds the stack as the process left it. -/
theorem entered_mem (hr : c.Roomy image) {a : Word}
    (ha : a.toNat + image.depth < c.regs.contextEsp.toNat ∨ c.regs.esp.toNat ≤ a.toNat) :
    (c.entered image before).os.kernel.mem a = c.mem a := by
  obtain ⟨hlow, hhigh, htop⟩ := hr
  have hentered : (c.entered image before).os.kernel.mem a = c.regs.save c.mem a :=
    Memory.scratch_ne (by omega)
  rw [hentered, Registers.save_ne (by omega) (by omega)]

/-- The words of the child's frame, from those of the parent's. -/
theorem forked_frame {k k' : Kernel} {sp : Word} (h : Kernel.StackCloned k sp child k')
    (hapart : Kernel.StacksApart k.cur.stackBase (k'.pcbs child).stackBase sp)
    {r : Registers}
    (hr : Registers.restore k.mem sp = r) :
    Registers.restore k'.mem (k'.pcbs child).esp =
      r.forked k.cur ((k'.pcbs child).stackBase - k.cur.stackBase) := by
  obtain ⟨hparent, hchild, _, hlow, hhigh⟩ := hapart
  obtain ⟨d, hd⟩ : ∃ d, sp.toNat = k.cur.stackBase.toNat + d := ⟨_, (Nat.add_sub_of_le hlow).symm⟩
  have hoffset : k.frameOffset sp = d := by
    rw [Kernel.frameOffset]
    omega
  have hsp : sp = k.cur.stackBase + BitVec.ofNat 32 d := by
    apply BitVec.eq_of_toNat_eq
    rw [BitVec.toNat_add, BitVec.toNat_ofNat]
    omega
  have hesp : (k'.pcbs child).esp = (k'.pcbs child).stackBase + BitVec.ofNat 32 d := by
    have hesp := h.esp
    apply BitVec.eq_of_toNat_eq
    rw [BitVec.toNat_add, BitVec.toNat_ofNat]
    omega
  have hslot (i : Nat) (hi : i < 7) : k'.frameWord (k'.pcbs child).esp i =
      Kernel.moved k.cur ((k'.pcbs child).stackBase - k.cur.stackBase) (k.frameWord sp i) := by
    rw [h.slots i hi, Kernel.moved]
    split
    · have hmoved (x y v : Word) : y + (v - x) = v + (y - x) := by bv_omega
      exact hmoved _ _ _
    · rfl
  -- EIP, CS and EFLAGS lie above the eight registers that pushad saves
  have hword (i : Nat) (hi : 8 ≤ i ∧ i < 11) :
      k'.frameWord (k'.pcbs child).esp i = k.frameWord sp i := by
    have hw := h.words (d + 4 * i) (by omega) (by omega)
    rw [BitVec.ofNat_add, ← BitVec.add_assoc, ← BitVec.add_assoc, ← hesp, ← hsp] at hw
    exact hw
  subst hr
  ext1
  case edi =>
    have h0 := hslot 0 (by decide)
    rw [Kernel.frameWord, Kernel.frameWord, Nat.mul_zero, BitVec.add_zero, BitVec.add_zero] at h0
    exact h0
  case esi => exact hslot 1 (by decide)
  case ebp => exact hslot 2 (by decide)
  case esp =>
    have hmoved (x y d : Word) : y + d + 44#32 = x + d + 44#32 + (y - x) := by bv_omega
    simp only [Registers.restore, Registers.forked]
    rw [hesp, hsp]
    exact hmoved _ _ _
  case ebx => exact hslot 4 (by decide)
  case edx => exact hslot 5 (by decide)
  case ecx => exact hslot 6 (by decide)
  case eax => exact h.eax
  case eip => exact hword 8 (by decide)
  case cs => exact hword 9 (by decide)
  case eflags => exact hword 10 (by decide)

section
variable (h : c.Inv image) (hr : c.Roomy image)
include h hr

/-- The scratch of the C function lies on the parent's stack, below the frame. -/
theorem scratch_child {m bytes : Memory} (halive : c.Alive c.kernel.current)
    (hc : c.kernel.forkTarget = some child) {a : Word}
    (ha : Extent.Has ⟨c.kernel.pmm.pmmAllocFrame.1.toNat, 4096⟩ a.toNat) :
    m.scratch c.regs.contextEsp image.depth bytes a = m a := by
  have hnew := h.tenancy.new_apart (h.stacked _ halive) (Kernel.forkTarget_some hc).2.1
  have hout : ¬ c.stack.Has a.toNat := by
    rw [h.own halive]
    exact fun hin => hnew _ hin ha
  obtain ⟨hlow, hhigh, htop⟩ := hr
  apply Memory.scratch_ne
  simp only [Extent.Has] at hout
  omega

theorem forked_twice (he : c.Enabled (.interrupt .int31 before after))
    (hc : c.kernel.forkTarget = some child) :
    ForkedTwice image c (c.next image (.interrupt .int31 before after)) child := by
  have halive : c.Alive c.kernel.current := by
    have hrun : (c.kernel.pcbs c.kernel.current).state = .running := he.2.1
    rw [Alive, hrun]
    decide
  have hapart := h.forks hr hc halive
  have hspec : Kernel.Forked (c.entered image before).os.kernel c.regs.contextEsp child
      (c.handled image .int31 before).os.kernel := by
    rw [handled, Interrupt.action, Tenancy.next, OsState.next_fork_kernel]
    exact Kernel.schedulerFork_spec (k := (c.entered image before).os.kernel) hc _
  have hcloned : Kernel.StackCloned (c.entered image before).os.kernel c.regs.contextEsp child
      (c.handled image .int31 before).os.kernel := by
    rw [handled, Interrupt.action, Tenancy.next, OsState.next_fork_kernel]
    exact Kernel.schedulerFork_cloned (k := (c.entered image before).os.kernel) hc hapart
  have hh := handled_handles h he
  have hbase : ((c.handled image .int31 before).os.kernel.pcbs child).stackBase =
      c.kernel.pmm.pmmAllocFrame.1 := hspec.stack.2.1
  have hframe : Registers.restore (c.entered image before).os.kernel.mem c.regs.contextEsp = c.regs :=
    entered_frame h hr
  have hret : (c.handled image .int31 before).os.esp = c.regs.contextEsp :=
    hh.returned.trans (if_pos hspec.current)
  have hctx : c.regs.contextEsp.toNat + 44 = c.regs.esp.toNat := hr.high
  have hafter (a : Word) (ha : c.regs.contextEsp.toNat ≤ a.toNat) :
      (c.next image (.interrupt .int31 before after)).mem a =
        (c.handled image .int31 before).os.kernel.mem a := Memory.scratch_ne (.inr ha)
  have hchild (a : Word) (ha : Extent.Has ⟨c.kernel.pmm.pmmAllocFrame.1.toNat, 4096⟩ a.toNat) :
      (c.next image (.interrupt .int31 before after)).mem a =
        (c.handled image .int31 before).os.kernel.mem a := scratch_child h hr halive hc ha
  have hcur : (c.next image (.interrupt .int31 before after)).kernel.current = c.kernel.current :=
    hspec.current
  have hne : child ≠ c.kernel.current := Kernel.forkTarget_ne hc
  have hesp := hcloned.esp
  have hparentFits := hapart.parentFits
  have hchildFits := hapart.childFits
  have hlow := hapart.low
  have hhigh := hapart.high
  have hfits : Registers.Fits c.regs.contextEsp := by
    unfold Registers.Fits
    omega
  constructor
  case parent =>
    have hregs : (c.next image (.interrupt .int31 before after)).regs =
        Registers.restore (c.next image (.interrupt .int31 before after)).mem c.regs.contextEsp := by
      rw [← hret]
      rfl
    rw [hregs, Registers.restore_congr hfits fun a ha _ => hafter a ha,
      Registers.restore_eax hfits hcloned.pid fun a hlo hhi hout =>
        hcloned.parent a (hlow.trans hlo)
          (show a.toNat < c.kernel.cur.stackBase.toNat + 4096 by omega) (by omega), hframe]
    rfl
  case alive =>
    show ((c.handled image .int31 before).os.kernel.pcbs child).state ≠ .terminated
    rw [hspec.ready]
    decide
  case regs =>
    have hregs : (c.next image (.interrupt .int31 before after)).registers child = Registers.restore
        (c.next image (.interrupt .int31 before after)).mem
        ((c.handled image .int31 before).os.kernel.pcbs child).esp := if_neg (by rw [hcur]; exact hne)
    rw [hregs]
    have hoffset : (c.entered image before).os.kernel.frameOffset c.regs.contextEsp =
        c.regs.contextEsp.toNat - c.kernel.cur.stackBase.toNat := rfl
    rw [hoffset, hbase] at hesp
    have hfits' : Registers.Fits ((c.handled image .int31 before).os.kernel.pcbs child).esp := by
      unfold Registers.Fits
      omega
    rw [Registers.restore_congr hfits' fun a hlo hhi =>
      hchild a ⟨by dsimp only; omega, by dsimp only; omega⟩]
    refine forked_frame hcloned ?_ hframe
    rw [hbase]
    exact hapart
  case parentStack =>
    intro a ha hsp
    apply interrupt_mem h hr he (.inr hsp)
    rintro child _ hchild
    have hown := h.own halive
    rw [hown] at ha
    exact h.tenancy.new_apart (h.stacked _ halive) (Kernel.forkTarget_some hchild).2.1 _ ha
  case childStack =>
    intro o hlo hhi
    show (c.next image (.interrupt .int31 before after)).mem
      (((c.handled image .int31 before).os.kernel.pcbs child).stackBase + BitVec.ofNat 32 o) = _
    rw [hchild, hcloned.bytes o hhi]
    · show (c.entered image before).os.kernel.mem (c.kernel.cur.stackBase + BitVec.ofNat 32 o) = _
      apply entered_mem hr
      right
      bv_omega
    · right
      show c.regs.contextEsp.toNat - c.kernel.cur.stackBase.toNat + 32 ≤ o
      omega
    · rw [hbase]
      constructor <;> dsimp only <;> bv_omega

end

/-- A system call that fails, or that ends another process, changes EAX alone. -/
theorem answered (h : c.Inv image) (hr : c.Roomy image) {i : Interrupt}
    (he : c.Enabled (.interrupt i before after)) {v : Word}
    (hcur : (c.handled image i before).os.kernel.current = c.kernel.current)
    (hmem : (c.handled image i before).os.kernel.mem =
      (c.entered image before).os.kernel.mem.storeWord (c.regs.contextEsp + 28#32) v)
    (hno : i = .int31 → c.kernel.forkTarget = none) :
    (c.next image (.interrupt i before after)).regs = { c.regs with eax := v } ∧
      ∀ a : Word, c.stack.Has a.toNat → c.regs.esp ≤ a →
        (c.next image (.interrupt i before after)).mem a = c.mem a := by
  have hh := handled_handles h he
  have hret : (c.handled image i before).os.esp = c.regs.contextEsp := hh.returned.trans (if_pos hcur)
  have hframe : Registers.restore (c.entered image before).os.kernel.mem c.regs.contextEsp = c.regs :=
    entered_frame h hr
  have hbound := h.bound
  have hregs : (c.next image (.interrupt i before after)).regs =
      Registers.restore (c.next image (.interrupt i before after)).mem c.regs.contextEsp := by
    rw [← hret]
    rfl
  constructor
  · obtain ⟨hlow, hhigh, htop⟩ := hr
    have hfits : Registers.Fits c.regs.contextEsp := by
      unfold Registers.Fits
      omega
    have hafter : Registers.restore (c.next image (.interrupt i before after)).mem c.regs.contextEsp =
        Registers.restore (c.handled image i before).os.kernel.mem c.regs.contextEsp :=
      Registers.restore_congr hfits fun a ha _ => Memory.scratch_ne (.inr ha)
    rw [hregs, hafter, hmem, Registers.restore_eax hfits (Memory.loadWord_storeWord _ _ _), hframe]
    intro a hlo hhi hout
    apply Memory.storeWord_ne <;> bv_omega
  · intro a _ hsp
    apply interrupt_mem h hr he (.inr hsp)
    rintro child hi hchild
    rw [hno hi] at hchild
    cases hchild

/-! ## Runs -/

/-- In every run `fork` returns twice: the caller goes on with the child's pid in EAX and the
child, when its turn comes, with zero, both with the caller's other registers and stack. If
there is no slot or no frame for the child, the caller alone goes on, with -1. -/
theorem fork_returns_twice {regs : Registers}
    (h : (machine image).Reach (Polite image) (boot image regs) c)
    (he : c.Enabled (.interrupt .int31 before after))
    (hpol : c.Polite image (.interrupt .int31 before after)) :
    (c.next image (.interrupt .int31 before after)).kernel.current = c.kernel.current ∧
      (∀ child, c.kernel.forkTarget = some child →
        ForkedTwice image c (c.next image (.interrupt .int31 before after)) child) ∧
      (c.kernel.forkTarget = none →
        (c.next image (.interrupt .int31 before after)).regs = { c.regs with eax := -1#32 } ∧
          ∀ a : Word, c.stack.Has a.toNat → c.regs.esp ≤ a →
            (c.next image (.interrupt .int31 before after)).mem a = c.mem a) := by
  have hinv := reach_inv h
  have hr := hpol.roomy
  have hk : (c.handled image .int31 before).os.kernel =
      ((c.entered image before).os.kernel.schedulerFork c.regs.contextEsp).2 :=
    OsState.next_fork_kernel _
  have hcur : (c.handled image .int31 before).os.kernel.current = c.kernel.current := by
    rw [hk]
    cases hc : (c.entered image before).os.kernel.forkTarget with
    | none => exact (Kernel.schedulerFork_refused hc _).current
    | some child => exact (Kernel.schedulerFork_spec hc _).current
  refine ⟨hcur, fun child hc => forked_twice hinv hr he hc, fun hnone => ?_⟩
  apply answered hinv hr he hcur _ fun _ => hnone
  rw [hk]
  exact Kernel.schedulerFork_refused_mem (k := (c.entered image before).os.kernel) hnone he.1

/-- Process 1 forks with a pointer to its own stack in EBX. -/
theorem working_forks :
    let c := working.next smallImage (.interrupt .int31 junk junk)
    c.regs = { workRegs with eax := 2#32 } ∧
      c.registers 2 = { workRegs with esp := 0x101F00#32, ebx := 0x101F10#32, eax := 0#32 } := by
  intro c
  have hfacts : working.Enabled (.interrupt .int31 junk junk) ∧
      working.Polite smallImage (.interrupt .int31 junk junk) ∧ working.kernel.forkTarget = some 2 ∧
      working.regs = workRegs ∧ (c.kernel.pcbs 2).pid = 2#32 ∧
      (c.kernel.pcbs 2).stackBase = 0x101000#32 ∧ working.kernel.cur.stackBase = 0x100000#32 ∧
      working.kernel.cur.stackTop = 0x101000#32 := by
    decide +kernel
  obtain ⟨he, hpol, hchild, hregs, hpid, hbase, hfrom, htop⟩ := hfacts
  have hforked := (fork_returns_twice working_kept.1 he hpol).2.1 2 hchild
  refine ⟨?_, ?_⟩
  · have hparent : c.regs = { working.regs with eax := (c.kernel.pcbs 2).pid } := hforked.parent
    rw [hparent, hregs, hpid]
  · have hregs' : c.registers 2 = working.regs.forked working.kernel.cur
        ((c.kernel.pcbs 2).stackBase - working.kernel.cur.stackBase) := hforked.regs
    rw [hregs', hregs, hbase, hfrom]
    simp only [Registers.forked, Kernel.moved, hfrom, htop]
    decide

/-- A process or thread that a call has created finds, at whatever time it gets the CPU
first, the registers of `build_initial_context`, its stack empty. -/
theorem first_context {regs : Registers} {a : Action} {c' : Computer} {p : PcbRef}
    (h : (machine image).Reach (Polite image) (boot image regs) c)
    (he : c.tenancy.MayCall (.os a)) (hframe : c.tenancy.os.FrameAvailable a)
    (ht : c.kernel.slotTaken a = some p)
    (hrun : (machine image).Reach (fun c e => c.Polite image e ∧ c.Rests p e)
      (c.next image (.call (.os a))) c') :
    c'.Alive p ∧ c'.registers p =
      Registers.initial c.kernel.bootstrap (c.kernel.pmm.pmmAllocFrame.1 + 4096#32) := by
  have hinv := reach_inv h
  have hz := polite_frame he hframe ht
  have hrange : c.kernel.pmm.pmmAllocFrame.1.toNat + 4096 < 2 ^ 32 := hinv.tenancy.new_range hz
  have hnew := newborn he ht hz
  have hcalls := OsState.calls hinv.tenancy.shell (mayCall_os he).1 (mayCall_os he).2.2
  have halive : (c.next image (.call (.os a))).Alive p := by
    show ((c.tenancy.os.next a).kernel.pcbs p).state ≠ .terminated
    rw [hnew.ready]
    decide
  have hregs : (c.next image (.call (.os a))).registers p =
      Registers.initial c.kernel.bootstrap (c.kernel.pmm.pmmAllocFrame.1 + 4096#32) := by
    have hout : (c.next image (.call (.os a))).registers p = Registers.restore
        (c.tenancy.os.next a).kernel.mem ((c.tenancy.os.next a).kernel.pcbs p).esp := by
      apply if_neg
      show p ≠ (c.tenancy.os.next a).kernel.current
      rw [hcalls.current]
      exact hnew.other
    rw [hout, hnew.mem, hnew.esp, Kernel.createMem, if_neg hz]
    apply Registers.restore_initial
    bv_omega
  have hkept := context_kept (Machine.Reach.step (M := machine image) (.call (.os a)) h he hframe)
    halive hrun
  exact ⟨hkept.1, hkept.2.registers.trans hregs⟩

/-- The thread that process 1 creates is interrupted before its first instruction. -/
def beforeThread : List Event :=
  [.interrupt .irq0 junk junk, .interrupt .irq0 junk junk, .run shellRegs [(0x1BF08#32, 0xCD#8)]]

theorem working_creates :
    let c := working.next smallImage (.call (.os (.threadCreate 0x13000#32 5#32 none)))
    ((machine smallImage).after c beforeThread).registers 2 =
      Registers.initial 0x10000#32 0x102000#32 := by
  intro c
  have hfacts : working.tenancy.MayCall (.os (.threadCreate 0x13000#32 5#32 none)) ∧
      working.tenancy.os.FrameAvailable (.threadCreate 0x13000#32 5#32 none) ∧
      working.kernel.slotTaken (.threadCreate 0x13000#32 5#32 none) = some 2 ∧
      working.kernel.bootstrap = 0x10000#32 ∧
      working.kernel.pmm.pmmAllocFrame.1 + 4096#32 = 0x102000#32 ∧
      (machine smallImage).Accepts (fun c e => c.Polite smallImage e ∧ c.Rests 2 e) c beforeThread := by
    decide +kernel
  obtain ⟨he, hframe, htaken, hboot, htop, hrun⟩ := hfacts
  have hfirst := (first_context working_kept.1 he hframe htaken (Machine.Reach.start.accepts hrun)).2
  rwa [hboot, htop] at hfirst

end Computer

end SengOS
