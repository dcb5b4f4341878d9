import SengOS.Kernel.Contexts

/-!
# A process does not notice

Between two instructions of its own a process keeps its registers and its stack through any
number of interrupts, switches, system calls, creations and ends of other processes.
-/

namespace SengOS

namespace Computer

variable {image : Image} {c c' : Computer} {p : PcbRef}

/-! ## A waiting process -/

theorem Inv.fits (h : c.Inv image) (hne : p ≠ c.kernel.current) (hp : c.Alive p) :
    (c.kernel.pcbs p).esp.toNat + 44 < 2 ^ 32 := by
  have hbound := h.tenancy.stackOf_bound (h.stacked p hp)
  exact (h.framed p hne hp).2.trans_lt hbound

/-- A process that waits keeps its context if its stack pointer and the used part of its
stack are left alone. -/
theorem Inv.waits (h : c.Inv image) (hne : p ≠ c.kernel.current) (hp : c.Alive p)
    (hstack : image.stackOf c'.kernel p = image.stackOf c.kernel p)
    (hregs : c'.registers p = Registers.restore c'.mem (c.kernel.pcbs p).esp)
    (hmem : ∀ a : Word, (image.stackOf c.kernel p).Has a.toNat → (c.kernel.pcbs p).esp ≤ a →
      c'.mem a = c.mem a) : c.SameContext image c' p := by
  have hfits := h.fits hne hp
  obtain ⟨hlow, hhigh⟩ := h.framed p hne hp
  have hold : c.registers p = Registers.restore c.mem (c.kernel.pcbs p).esp := if_neg hne
  refine ⟨?_, hstack, fun a ha hsp => hmem a ha ?_⟩
  · rw [hregs, hold]
    apply Registers.restore_congr hfits.le
    intro a hlo hhi
    apply hmem a _ hlo
    constructor <;> omega
  · rw [hold] at hsp
    have hesp : (Registers.restore c.mem (c.kernel.pcbs p).esp).esp = (c.kernel.pcbs p).esp + 44#32 := rfl
    rw [hesp] at hsp
    bv_omega

theorem run_context (h : c.Inv image) (hp : c.Alive p) {regs : Registers} {stores : List (Word × Byte)}
    (hpol : c.Polite image (.run regs stores)) (hne : p ≠ c.kernel.current) :
    c.SameContext image (c.next image (.run regs stores)) p := by
  refine h.waits hne hp rfl ?_ fun a ha hsp => ?_
  · exact if_neg hne
  · apply Memory.store_ne
    rintro s hs rfl
    exact hpol s hs p ⟨hp, hne, ha, hsp⟩

/-! ## Calls -/

theorem call_context (h : c.Inv image) (hp : c.Alive p) {a : Action}
    (he : c.tenancy.MayCall (.os a)) (hl : c.kernel.slotLeft a ≠ some p) : c.SameContext image (c.next image (.call (.os a))) p := by
  obtain ⟨hstep, hlate, hno⟩ := mayCall_os he
  have hs := h.tenancy.shell
  have hcalls := OsState.calls hs hstep hno
  have hstack : image.stackOf (c.next image (.call (.os a))).kernel p = image.stackOf c.kernel p :=
    Tenancy.stackOf_sameLife (Tenancy.survives hs hlate hp hl) (h.stacked p hp)
  have hmem (x : Word) (hx : (image.stackOf c.kernel p).Has x.toNat) :
      (c.next image (.call (.os a))).mem x = c.mem x := by
    apply OsState.call_mem ⟨hno.1, hno.2.2.2⟩
    intro q hq hz
    exact ⟨h.tenancy.new_range hz, h.tenancy.new_apart (h.stacked p hp) hz _ hx⟩
  have hcur : (c.next image (.call (.os a))).kernel.current = c.kernel.current := hcalls.current
  by_cases hc : p = c.kernel.current
  · have hregs : (c.next image (.call (.os a))).registers p = c.registers p := by
      rw [registers, hcur, if_pos hc, registers, if_pos hc]
      rfl
    exact ⟨hregs, hstack, fun x hx _ => hmem x hx⟩
  · refine h.waits hc hp hstack ?_ fun x hx _ => hmem x hx
    have hesp : ((c.next image (.call (.os a))).kernel.pcbs p).esp = (c.kernel.pcbs p).esp :=
      hcalls.esp p hp hl
    rw [registers, hcur, if_neg hc, hesp]

/-! ## Interrupts -/

section
variable {i : Interrupt} {before after : Memory}

/-- Outside the part of the stack that the interrupt uses, and outside the stack of a child,
the memory is as before. -/
theorem interrupt_mem (h : c.Inv image) (hr : c.Roomy image)
    (he : c.Enabled (.interrupt i before after)) {a : Word}
    (ha : a.toNat + image.depth < c.regs.contextEsp.toNat ∨ c.regs.esp.toNat ≤ a.toNat)
    (hnew : ∀ child, i = .int31 → c.kernel.forkTarget = some child →
      ¬ Extent.Has ⟨c.kernel.pmm.pmmAllocFrame.1.toNat, 4096⟩ a.toNat) :
    (c.next image (.interrupt i before after)).mem a = c.mem a := by
  obtain ⟨hlow, hhigh, htop⟩ := hr
  have hafter : (c.next image (.interrupt i before after)).mem a =
      (c.handled image i before).os.kernel.mem a := Memory.scratch_ne (by omega)
  have hctx : c.regs.contextEsp ≠ 0#32 := by
    cases i with
    | irq0 => exact he
    | int30 => exact he.1
    | int31 => exact he.1
    | int32 => exact he.1
  have hhandler : (c.handled image i before).os.kernel.mem a =
      (c.entered image before).os.kernel.mem a := by
    apply OsState.handler_mem i hctx (by have := h.bound; omega) (by omega)
    rintro child rfl hchild
    have halive : c.Alive c.kernel.current := by
      have hrun : (c.kernel.pcbs c.kernel.current).state = .running := he.2.1
      rw [Alive, hrun]
      decide
    exact ⟨h.forks ⟨hlow, hhigh, htop⟩ hchild halive, hnew child rfl hchild⟩
  have hentered : (c.entered image before).os.kernel.mem a = c.regs.save c.mem a :=
    Memory.scratch_ne (by omega)
  rw [hafter, hhandler, hentered, Registers.save_ne (by omega) (by omega)]

/-- A process that waits does not notice an interrupt, also not when it gets the CPU by it. -/
theorem interrupt_waiting (h : c.Inv image) (hp : c.Alive p) (he : c.Enabled (.interrupt i before after))
    (hpol : c.Polite image (.interrupt i before after)) (hne : p ≠ c.kernel.current)
    (hl : c.kernel.slotLeft (i.action c.regs.contextEsp c.killArg) ≠ some p) :
    c.SameContext image (c.next image (.interrupt i before after)) p := by
  have hr := hpol.roomy
  have hh := handled_handles h he
  have hs := handled_survivors h he
  refine h.waits hne hp (hs.stackOf p hp hl).2 ?_ fun a ha _ => ?_
  · by_cases hc : p = (c.handled image i before).os.kernel.current
    · have hcur : (c.handled image i before).os.kernel.current ≠ c.kernel.current :=
        fun he => hne (hc.trans he)
      have hesp : (c.handled image i before).os.esp = (c.kernel.pcbs p).esp := by
        rw [hh.returned, if_neg hcur, ← hc, hh.others p hne hp hl]
      rw [← hesp]
      exact if_pos hc
    · have hesp : ((c.handled image i before).os.kernel.pcbs p).esp = (c.kernel.pcbs p).esp :=
        hh.others p hne hp hl
      rw [← hesp]
      exact if_neg hc
  · have hout : ¬ c.stack.Has a.toNat := fun hin => h.apart p hne hp _ hin ha
    apply interrupt_mem h hr he
    · obtain ⟨hlow, hhigh, htop⟩ := hr
      simp only [Extent.Has] at hout
      omega
    · rintro child _ hchild
      exact h.tenancy.new_apart (h.stacked p hp) (Kernel.forkTarget_some hchild).2.1 _ ha

/-- The frame of an interrupt that changes no register of the process. -/
theorem frame_mem (hi : i = .irq0 ∨ i = .int30) {a : Word}
    (ha : c.regs.contextEsp.toNat ≤ a.toNat) :
    (c.next image (.interrupt i before after)).mem a = c.regs.save c.mem a := by
  have hafter : (c.next image (.interrupt i before after)).mem a =
      (c.handled image i before).os.kernel.mem a := Memory.scratch_ne (.inr ha)
  have hhandler : (c.handled image i before).os.kernel.mem = (c.entered image before).os.kernel.mem := by
    apply OsState.next_mem
    rcases hi with rfl | rfl <;> rfl
  rw [hafter, hhandler]
  exact Memory.scratch_ne (.inr ha)

/-- A process that is interrupted by the timer, or yields, does not notice it either. -/
theorem interrupt_current (h : c.Inv image) (hp : c.Alive c.kernel.current)
    (he : c.Enabled (.interrupt i before after)) (hpol : c.Polite image (.interrupt i before after))
    (hi : i = .irq0 ∨ i = .int30) :
    c.SameContext image (c.next image (.interrupt i before after)) c.kernel.current := by
  have hr := hpol.roomy
  have hh := handled_handles h he
  have hs := handled_survivors h he
  have hl : c.kernel.slotLeft (i.action c.regs.contextEsp c.killArg) ≠ some c.kernel.current := by
    rcases hi with rfl | rfl <;> exact (Option.some_ne_none _).symm
  have hold : c.registers c.kernel.current = c.regs := if_pos rfl
  have hrestore : Registers.restore (c.next image (.interrupt i before after)).mem c.regs.contextEsp =
      c.regs := by
    have hbound := h.bound
    obtain ⟨hlow, hhigh, htop⟩ := hr
    have hfits : Registers.Fits c.regs.contextEsp := by
      unfold Registers.Fits
      omega
    have hframe : Registers.restore (c.next image (.interrupt i before after)).mem c.regs.contextEsp =
        Registers.restore (c.regs.save c.mem) c.regs.contextEsp := by
      apply Registers.restore_congr hfits
      intro a hlo _
      exact frame_mem hi hlo
    exact hframe.trans (Registers.restore_save (by omega))
  refine ⟨?_, (hs.stackOf _ hp hl).2, fun a ha hsp => ?_⟩
  · rw [hold]
    refine Eq.trans ?_ hrestore
    by_cases hc : c.kernel.current = (c.handled image i before).os.kernel.current
    · have hesp : (c.handled image i before).os.esp = c.regs.contextEsp := by
        rw [hh.returned, if_pos hc.symm]
      rw [← hesp]
      exact if_pos hc
    · have hesp : ((c.handled image i before).os.kernel.pcbs c.kernel.current).esp = c.regs.contextEsp :=
        hh.own (Ne.symm hc) hp hl
      rw [← hesp]
      exact if_neg hc
  · rw [hold] at hsp
    obtain ⟨hlow, hhigh, htop⟩ := hr
    have hctx : c.regs.contextEsp.toNat ≤ a.toNat := by
      rw [BitVec.le_def] at hsp
      omega
    rw [frame_mem hi hctx]
    exact Registers.save_ne (by omega) (.inr hsp)

end

/-! ## Runs -/

theorem step_inv (h : c.Inv image) (e : Event) (he : c.Enabled e) (hpol : c.Polite image e) :
    (c.next image e).Inv image := by
  cases e with
  | run regs stores => exact h.of_table (h.tenancy.withMem_inv _) rfl rfl rfl
  | call u => exact h.call u he hpol
  | interrupt i before after => exact h.interrupt he hpol

/-- One event in which the process does nothing. -/
theorem step_context (h : c.Inv image) (hp : c.Alive p) (e : Event) (he : c.Enabled e)
    (hpol : c.Polite image e) (hrest : c.Rests p e) :
    (c.next image e).Alive p ∧ c.SameContext image (c.next image e) p := by
  cases e with
  | run regs stores => exact ⟨hp, run_context h hp hpol hrest⟩
  | call u =>
    cases u with
    | os a =>
      have hlive := Tenancy.survives h.tenancy.shell (mayCall_os he).2.1 hp hrest
      exact ⟨fun ht => hp (hlive.terminated.mp ht), call_context h hp he hrest⟩
    | alloc => exact ⟨hp, ⟨rfl, rfl, fun _ _ _ => rfl⟩⟩
    | free addr => exact ⟨hp, ⟨rfl, rfl, fun _ _ _ => rfl⟩⟩
  | interrupt i before after =>
    have hs := handled_survivors h he
    have hl : c.kernel.slotLeft (i.action c.regs.contextEsp c.killArg) ≠ some p := by
      cases i with
      | int32 => exact hrest.2
      | _ => exact (Option.some_ne_none p).symm
    refine ⟨(hs.stackOf p hp hl).1, ?_⟩
    by_cases hc : p = c.kernel.current
    · subst hc
      apply interrupt_current h hp he hpol
      cases i with
      | irq0 => exact .inl rfl
      | int30 => exact .inr rfl
      | int31 => exact absurd rfl hrest
      | int32 => exact absurd rfl hrest.1
    · exact interrupt_waiting h hp he hpol hc hl

theorem reach_inv {regs : Registers} (h : (machine image).Reach (Polite image) (boot image regs) c) :
    c.Inv image :=
  h.invariant (boot_inv image regs) fun _ e hi he hpol => step_inv hi e he hpol

/-- Interrupts are transparent: from any state of any run, as long as a process is not ended
and executes nothing itself, its registers and the used part of its stack stay the same,
whatever else happens and however often the CPU changes hands. -/
theorem context_kept {regs : Registers}
    (h : (machine image).Reach (Polite image) (boot image regs) c) (hp : c.Alive p)
    (hrun : (machine image).Reach (fun c e => c.Polite image e ∧ c.Rests p e) c c') :
    c'.Alive p ∧ c.SameContext image c' p := by
  have hall : c'.Inv image ∧ c'.Alive p ∧ c.SameContext image c' p := by
    refine hrun.invariant (I := fun c' => c'.Inv image ∧ c'.Alive p ∧ c.SameContext image c' p)
      ⟨reach_inv h, hp, .refl image c p⟩ fun d e hd he hpol => ?_
    obtain ⟨hinv, halive, hsame⟩ := hd
    obtain ⟨halive', hstep⟩ := step_context hinv halive e he hpol.1 hpol.2
    exact ⟨step_inv hinv e he hpol.1, halive', hsame.trans hstep⟩
  exact hall.2

instance (p : PcbRef) (c : Computer) : (e : Event) → Decidable (c.Rests p e)
  | .run _ _ => inferInstanceAs (Decidable (_ ≠ _))
  | .call (.os a) => inferInstanceAs (Decidable (c.kernel.slotLeft a ≠ some p))
  | .call .alloc => .isTrue trivial
  | .call (.free _) => .isTrue trivial
  | .interrupt .irq0 _ _ => .isTrue trivial
  | .interrupt .int30 _ _ => .isTrue trivial
  | .interrupt .int31 _ _ => inferInstanceAs (Decidable (_ ≠ _))
  | .interrupt .int32 _ _ => inferInstanceAs (Decidable (_ ∧ _))

/-- Thirty-two KiB of memory, and a kernel that ends at `0x20000`. -/
def smallImage : Image where
  toBoot := OsState.smallBoot
  stackBottom := 0x18000#32
  depth := 256
  linked := by decide
  fits := by decide

def shellRegs : Registers := Registers.initial 0x10400#32 0x1BF00#32

/-- Process 1 has a pointer to its own stack in EBX. -/
def workRegs : Registers :=
  { Registers.initial 0x11020#32 0x100F00#32 with ebx := 0x100F10#32, eax := 1#32 }

/-- What a C function leaves on the stack. -/
def junk : Memory := fun a => a.setWidth 8

/-- The shell creates process 1, which gets the CPU and writes to its stack. -/
def startWork : List Event :=
  [.call (.os (.create 0x11000#32 none)), .call (.os .start), .interrupt .int30 junk junk,
    .run workRegs [(0x100F10#32, 0xAB#8)]]

/-- The shell goes on and creates process 2, which gets the CPU after process 1 had it again. -/
def othersWork : List Event :=
  [.interrupt .irq0 junk junk, .run shellRegs [(0x1BF08#32, 0xCD#8)],
    .call (.os (.create 0x12000#32 none)), .interrupt .irq0 junk junk, .interrupt .irq0 junk junk]

def working : Computer := (machine smallImage).after (boot smallImage shellRegs) startWork

theorem working_kept :
    (machine smallImage).Reach (Polite smallImage) (boot smallImage shellRegs) working ∧
      working.kernel.current = 1 ∧ working.regs = workRegs ∧
      (let c := (machine smallImage).after working othersWork
       c.kernel.current = 2 ∧ c.registers 1 = workRegs ∧ working.SameContext smallImage c 1) := by
  have hfacts : ((machine smallImage).Accepts (Polite smallImage) (boot smallImage shellRegs) startWork ∧
      working.kernel.current = 1 ∧ working.regs = workRegs ∧ working.Alive 1) ∧
      (machine smallImage).Accepts (fun c e => c.Polite smallImage e ∧ c.Rests 1 e) working othersWork ∧
      ((machine smallImage).after working othersWork).kernel.current = 2 := by
    decide +kernel
  obtain ⟨⟨hstart, hcur, hregs, halive⟩, hothers, hcur'⟩ := hfacts
  have hreach : (machine smallImage).Reach (Polite smallImage) (boot smallImage shellRegs) working :=
    Machine.Reach.start.accepts hstart
  have hkept := (context_kept hreach halive (Machine.Reach.start.accepts hothers)).2
  have hwork : working.registers 1 = workRegs := by
    rw [registers, if_pos hcur.symm, hregs]
  exact ⟨hreach, hcur, hregs, hcur', hkept.registers.trans hwork, hkept⟩

end Computer

end SengOS
