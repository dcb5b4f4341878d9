import SengOS.Kernel.Handlers

/-!
# Interrupts are transparent

Every stack has its own addresses, so what an interrupt saves on one is still there when
the process gets the CPU again, whatever the other processes did meanwhile.
-/

namespace SengOS

namespace Tenancy

variable {image : Image} {t : Tenancy} {p q : PcbRef}

/-! ## The stacks lie apart -/

theorem Inv.withMem_inv {b : OsState.Boot} (h : t.Inv b) (mem : Memory) : (t.withMem mem).Inv b :=
  ⟨h.shell.of_slot rfl rfl rfl, h.lent, h.tops, h.frames⟩

/-- A frame that is held lies behind the kernel. -/
theorem held_frame {held : List Word} {pmm : Pmm}
    (hl : Pmm.Lent (firstPmm image.toBoot) pmm held) {a : Word} (ha : a ∈ held) :
    ∃ f, f < 32768 ∧ a = Pmm.frameAddr f ∧ image.kernelEnd.toNat ≤ f * 4096 := by
  obtain ⟨f, hf, hframe, hfree⟩ := hl.held_free a ha
  obtain ⟨_, hend, _⟩ := (Pmm.pmmInit_ready image.e820 image.kernelEnd).free f hf hfree
  have halign : (Pmm.pmmInit image.e820 image.kernelEnd).reservedEnd = Pmm.alignUpPage image.kernelEnd :=
    rfl
  have hfits := image.fits
  rw [halign, Pmm.alignUpPage_toNat (by omega)] at hend
  exact ⟨f, hf, hframe, by omega⟩

/-- The process has the stack that `stackOf` names. -/
def HasStack (t : Tenancy) (p : PcbRef) : Prop := p ≠ 0 → (t.os.kernel.pcbs p).hasStack = true

theorem HasStack.base (hp : t.HasStack p) (h0 : p ≠ 0) :
    (t.os.kernel.pcbs p).stackBase ∈ t.os.kernel.stackBases ++ t.clients :=
  List.mem_append_left _ (mem_holdings.mpr ⟨p, List.mem_finRange p, hp h0, rfl⟩)

/-- The stack of a process is below the kernel's end or a frame of its own. -/
theorem Inv.stackOf_cases (h : t.Inv image.toBoot) (hp : t.HasStack p) :
    (p = 0 ∧ image.stackOf t.os.kernel p = ⟨image.stackBottom.toNat, 16384⟩) ∨
      ∃ f, f < 32768 ∧ p ≠ 0 ∧ (t.os.kernel.pcbs p).stackBase = Pmm.frameAddr f ∧
        image.kernelEnd.toNat ≤ f * 4096 ∧ image.stackOf t.os.kernel p = ⟨f * 4096, 4096⟩ := by
  by_cases h0 : p = 0
  · exact .inl ⟨h0, if_pos h0⟩
  · obtain ⟨f, hf, hbase, hend⟩ := held_frame h.lent (hp.base h0)
    refine .inr ⟨f, hf, h0, hbase, hend, ?_⟩
    rw [Image.stackOf, if_neg h0, hbase, Pmm.frameAddr_toNat hf]

theorem Inv.stackOf_bound (h : t.Inv image.toBoot) (hp : t.HasStack p) :
    (image.stackOf t.os.kernel p).start + (image.stackOf t.os.kernel p).size < 2 ^ 32 := by
  have hlinked := image.linked
  have hfits := image.fits
  rcases h.stackOf_cases hp with ⟨_, he⟩ | ⟨f, hf, _, _, _, he⟩ <;> rw [he]
  · show image.stackBottom.toNat + 16384 < 2 ^ 32
    omega
  · show f * 4096 + 4096 < 2 ^ 32
    omega

theorem frames_apart {f g : Nat} (h : f ≠ g) : Extent.Apart ⟨f * 4096, 4096⟩ ⟨g * 4096, 4096⟩ := by
  intro x hx hy
  simp only [Extent.Has] at hx hy
  omega

theorem shell_apart {f : Nat} (h : image.kernelEnd.toNat ≤ f * 4096) :
    Extent.Apart ⟨image.stackBottom.toNat, 16384⟩ ⟨f * 4096, 4096⟩ := by
  have hlinked := image.linked
  intro x hx hy
  simp only [Extent.Has] at hx hy
  omega

theorem Inv.stackOf_apart (h : t.Inv image.toBoot) (hp : t.HasStack p) (hq : t.HasStack q)
    (hne : p ≠ q) : (image.stackOf t.os.kernel p).Apart (image.stackOf t.os.kernel q) := by
  rcases h.stackOf_cases hp with ⟨hp0, he⟩ | ⟨f, hf, hp0, hb, hend, he⟩ <;>
    rcases h.stackOf_cases hq with ⟨hq0, he'⟩ | ⟨g, hg, hq0, hb', hend', he'⟩ <;> rw [he, he']
  · exact absurd (hp0.trans hq0.symm) hne
  · exact shell_apart hend'
  · exact (shell_apart hend).symm
  · apply frames_apart
    rintro rfl
    exact hne (h.owned.distinct p q (hp hp0) (hq hq0) (hb.trans hb'.symm))

/-- A frame that the allocator hands out is apart from every stack. -/
theorem Inv.new_apart (h : t.Inv image.toBoot) (hp : t.HasStack p)
    (hz : t.os.kernel.pmm.pmmAllocFrame.1 ≠ 0#32) : (image.stackOf t.os.kernel p).Apart
      ⟨t.os.kernel.pmm.pmmAllocFrame.1.toNat, 4096⟩ := by
  have hl := h.allocates hz
  obtain ⟨g, hg, hframe, hend'⟩ := held_frame hl List.mem_cons_self
  rw [hframe, Pmm.frameAddr_toNat hg]
  rcases h.stackOf_cases hp with ⟨_, he⟩ | ⟨f, hf, h0, hb, hend, he⟩ <;> rw [he]
  · exact shell_apart hend'
  · apply frames_apart
    rintro rfl
    have hin := hp.base h0
    rw [hb, ← hframe] at hin
    exact (List.nodup_cons.mp hl.nodup).1 hin

theorem Inv.new_range (h : t.Inv image.toBoot) (hz : t.os.kernel.pmm.pmmAllocFrame.1 ≠ 0#32) :
    t.os.kernel.pmm.pmmAllocFrame.1.toNat + 4096 < 2 ^ 32 := by
  obtain ⟨g, hg, hframe, _⟩ := held_frame (h.allocates hz) List.mem_cons_self
  rw [hframe, Pmm.frameAddr_toNat hg]
  omega

/-! ## Lives and stacks -/

section
variable {a : Action}

theorem stackOf_sameLife {k k' : Kernel} (h : (k.pcbs p).SameLife (k'.pcbs p))
    (hp : p ≠ 0 → (k.pcbs p).hasStack = true) : image.stackOf k' p = image.stackOf k p := by
  unfold Image.stackOf
  split
  · rfl
  · rename_i h0
    rw [(h.stack (hp h0)).1]

/-- A process that an action does not end lives on, on the same stack. -/
theorem survives (hs : t.os.ShellInv) (he : OsState.lateMachine.enabled t.os a)
    (hp : (t.os.kernel.pcbs p).state ≠ .terminated) (hl : t.os.kernel.slotLeft a ≠ some p) :
    (t.os.kernel.pcbs p).SameLife ((t.next (.os a)).os.kernel.pcbs p) := by
  cases OsState.next_lives hs a he with
  | rests taken left same total pmm => exact same p
  | born q taken left free same ready frame stack total pmm =>
    exact same p (by rintro rfl; exact hp free.1)
  | stillborn q taken left free same ready frame stack total pmm =>
    exact same p (by rintro rfl; exact hp free.1)
  | ended q taken left same terminated stack total pmm =>
    exact same p (by rintro rfl; exact hl left)

/-- A process that is new in its slot. -/
structure Fresh (t t' : Tenancy) (a : Action) (p : PcbRef) : Prop where
  taken : t.os.kernel.slotTaken a = some p
  free : (t.os.kernel.pcbs p).state = .terminated
  frame : t.os.kernel.pmm.pmmAllocFrame.1 ≠ 0#32
  hasStack : (t'.os.kernel.pcbs p).hasStack = true
  stackBase : (t'.os.kernel.pcbs p).stackBase = t.os.kernel.pmm.pmmAllocFrame.1

/-- Who lives after an action has lived before or is new. -/
theorem lived (hs : t.os.ShellInv) (he : OsState.lateMachine.enabled t.os a)
    (hframe : ∀ q, t.os.kernel.slotTaken a = some q → t.os.kernel.pmm.pmmAllocFrame.1 ≠ 0#32)
    (hp : ((t.next (.os a)).os.kernel.pcbs p).state ≠ .terminated) :
    ((t.os.kernel.pcbs p).state ≠ .terminated ∧ t.os.kernel.slotLeft a ≠ some p) ∨
      Fresh t (t.next (.os a)) a p := by
  cases OsState.next_lives hs a he with
  | rests taken left same total pmm =>
    rw [left]
    exact .inl ⟨fun ht => hp ((same p).terminated.mpr ht), (Option.some_ne_none p).symm⟩
  | born q taken left free same ready frame stack total pmm =>
    rw [left]
    by_cases hq : p = q
    · subst hq
      exact .inr ⟨taken, free.1, frame, stack.1, stack.2.1⟩
    · exact .inl ⟨fun ht => hp ((same p hq).terminated.mpr ht), (Option.some_ne_none p).symm⟩
  | stillborn q taken left free same ready frame stack total pmm => exact absurd frame (hframe q taken)
  | ended q taken left same terminated stack total pmm =>
    have hq : p ≠ q := by
      rintro rfl
      exact hp terminated
    rw [left]
    exact .inl ⟨fun ht => hp ((same p hq).terminated.mpr ht), fun he => hq (Option.some.inj he).symm⟩

end

end Tenancy

namespace Computer

variable {image : Image} {c : Computer} {p : PcbRef}

/-- The saved registers lie on the stack. -/
def Framed (s : Extent) (sp : Word) : Prop := s.start ≤ sp.toNat ∧ sp.toNat + 44 ≤ s.start + s.size

/-- The processes have stacks of their own with their registers on them, and the stack that
the CPU is on is none of the others. -/
structure Inv (image : Image) (c : Computer) : Prop where
  tenancy : c.tenancy.Inv image.toBoot
  stacked : ∀ p, c.Alive p → c.tenancy.HasStack p
  shell : (c.kernel.pcbs 0).hasStack = false
  own : c.Alive c.kernel.current → c.stack = image.stackOf c.kernel c.kernel.current
  apart : ∀ p, p ≠ c.kernel.current → c.Alive p → c.stack.Apart (image.stackOf c.kernel p)
  framed : ∀ p, p ≠ c.kernel.current → c.Alive p →
    Framed (image.stackOf c.kernel p) (c.kernel.pcbs p).esp
  bound : c.stack.start + c.stack.size < 2 ^ 32

/-- Events that leave the process table alone. -/
theorem Inv.of_table {c' : Computer} (h : c.Inv image) (ht : c'.tenancy.Inv image.toBoot)
    (hp : c'.kernel.pcbs = c.kernel.pcbs) (hc : c'.kernel.current = c.kernel.current)
    (hs : c'.stack = c.stack) : c'.Inv image := by
  have hstack (q : PcbRef) : image.stackOf c'.kernel q = image.stackOf c.kernel q := by
    rw [Image.stackOf, hp, Image.stackOf]
  have halive (q : PcbRef) : c'.Alive q ↔ c.Alive q := by rw [Alive, hp, Alive]
  refine ⟨ht, fun q hq h0 => ?_, ?_, fun hq => ?_, fun q hne hq => ?_, fun q hne hq => ?_, ?_⟩
  · show (c'.kernel.pcbs q).hasStack = true
    rw [hp]
    exact h.stacked q ((halive q).mp hq) h0
  · rw [hp]
    exact h.shell
  · rw [hs, hc, hstack]
    exact h.own ((halive _).mp (hc ▸ hq))
  · rw [hs, hstack]
    exact h.apart q (hc ▸ hne) ((halive q).mp hq)
  · rw [hp, hstack]
    exact h.framed q (hc ▸ hne) ((halive q).mp hq)
  · rw [hs]
    exact h.bound

theorem boot_inv (image : Image) (regs : Registers) : (boot image regs).Inv image := by
  have hdead (q : PcbRef) (h0 : q ≠ 0) : ¬ (boot image regs).Alive q := by
    intro hq
    apply hq
    show ((Kernel.schedulerInit _ _ _ _).pcbs q).state = .terminated
    simp [Kernel.schedulerInit, h0, Kernel.emptyPcb]
  have hlinked := image.linked
  have hfits := image.fits
  refine ⟨Tenancy.boot_inv _, fun q hq h0 => absurd hq (hdead q h0), rfl, fun _ => rfl,
    fun q hne hq => absurd hq (hdead q hne), fun q hne hq => absurd hq (hdead q hne), ?_⟩
  show image.stackBottom.toNat + 16384 < 2 ^ 32
  omega

/-! ## Calls -/

/-- The calls that `MayCall` allows are steps of the system, and no interrupts. -/
theorem mayCall_os {a : Action} (he : c.tenancy.MayCall (.os a)) :
    (c.tenancy.os.Enabled a ∨ a = .exit) ∧ OsState.lateMachine.enabled c.tenancy.os a ∧
      (∀ sp, a ≠ .fork sp) ∧ (∀ sp, a ≠ .tick sp) ∧ (∀ sp, a ≠ .yield sp) ∧ ∀ sp pid, a ≠ .kill sp pid := by
  cases a with
  | fork sp => exact he.elim
  | tick sp => exact he.elim
  | yield sp => exact he.elim
  | kill sp pid => exact he.elim
  | exit => exact ⟨.inr rfl, he, by simp⟩
  | _ => exact ⟨.inl he, .inl he, by simp⟩

/-- A process that the one on the CPU has created, with its first context at the end of its
stack. -/
structure Newborn (c : Computer) (p : PcbRef) (k' : Kernel) : Prop where
  creator : c.Alive c.kernel.current
  other : p ≠ c.kernel.current
  ready : (k'.pcbs p).state = .ready
  esp : (k'.pcbs p).esp = c.kernel.pmm.pmmAllocFrame.1 + 4096#32 - 44#32
  mem : k'.mem = c.kernel.createMem

theorem Newborn.of_created {entry : Word} {created : Option PcbRef × Kernel}
    (ht : c.kernel.createTarget entry = some p) (hidle : c.tenancy.os.Idle)
    (hz : c.kernel.pmm.pmmAllocFrame.1 ≠ 0#32) (hc : Kernel.Created c.kernel p created.2)
    (hmem : created.2.mem = c.kernel.createMem) :
    Newborn c p (c.tenancy.os.creating entry created).kernel := by
  have hstate : (c.kernel.pcbs c.kernel.current).state = .running := hidle.1
  have hfree := (Kernel.freeSlot_some (Kernel.createTarget_some ht).2).2.1
  have hother : p ≠ c.kernel.current := by
    rintro rfl
    rw [hfree] at hstate
    cases hstate
  rw [OsState.creating_kernel]
  exact ⟨by rw [Alive, hstate]; decide, hother, hc.ready, (hc.stack hz).2.2.2, hmem⟩

theorem newborn {a : Action} (he : c.tenancy.MayCall (.os a))
    (ht : c.kernel.slotTaken a = some p) (hz : c.kernel.pmm.pmmAllocFrame.1 ≠ 0#32) :
    Newborn c p (c.tenancy.os.next a).kernel := by
  cases a with
  | create entry name =>
    exact .of_created ht he hz (Kernel.processCreateNamed_spec ht name).1
      (Kernel.processCreateNamed_mem ht name)
  | threadCreate entry arg name =>
    exact .of_created ht he hz (Kernel.threadCreateNamed_spec ht arg name).1
      (Kernel.threadCreateNamed_mem ht arg name)
  | fork sp => exact he.elim
  | _ => cases ht

theorem polite_frame {a : Action} (he : c.tenancy.MayCall (.os a))
    (hp : c.tenancy.os.FrameAvailable a) {q : PcbRef} (ht : c.kernel.slotTaken a = some q) :
    c.kernel.pmm.pmmAllocFrame.1 ≠ 0#32 := by
  cases a with
  | create entry name => exact hp
  | threadCreate entry arg name => exact hp
  | fork sp => exact he.elim
  | _ => cases ht

/-- The stack of a process that has got a frame. -/
theorem fresh_stackOf {t' : Tenancy} {a : Action} (hs : c.tenancy.os.ShellInv)
    (hf : Tenancy.Fresh c.tenancy t' a p) :
    p ≠ 0 ∧ image.stackOf t'.os.kernel p = ⟨c.kernel.pmm.pmmAllocFrame.1.toNat, 4096⟩ := by
  have h0 : p ≠ 0 := by
    rintro rfl
    exact hs.ready.not_terminated hf.free
  refine ⟨h0, ?_⟩
  rw [Image.stackOf, if_neg h0, hf.stackBase]
  rfl

/-- Nothing ends the shell or puts a new process into its slot. -/
theorem shell_stays {t : Tenancy} {a : Action} (hs : t.os.ShellInv)
    (he : OsState.lateMachine.enabled t.os a) (h0 : (t.os.kernel.pcbs 0).hasStack = false) :
    ((t.next (.os a)).os.kernel.pcbs 0).hasStack = (t.os.kernel.pcbs 0).hasStack := by
  have halive := hs.ready.not_terminated
  cases OsState.next_lives hs a he with
  | rests taken left same total pmm => exact (same 0).hasStack
  | born q taken left free same ready frame stack total pmm =>
    exact (same 0 (by rintro rfl; exact halive free.1)).hasStack
  | stillborn q taken left free same ready frame stack total pmm =>
    exact (same 0 (by rintro rfl; exact halive free.1)).hasStack
  | ended q taken left same terminated stack total pmm =>
    by_cases hq : q = 0
    · subst hq
      exact stack.trans h0.symm
    · exact (same 0 (Ne.symm hq)).hasStack

theorem Inv.call (h : c.Inv image) (u : FrameUse) (he : c.tenancy.MayCall u)
    (hp : c.Polite image (.call u)) : (c.next image (.call u)).Inv image := by
  cases u with
  | alloc => exact h.of_table (h.tenancy.next .alloc trivial) rfl rfl rfl
  | free addr => exact h.of_table (h.tenancy.next (.free addr) he.2) rfl rfl rfl
  | os a =>
    obtain ⟨hstep, hlate, hno⟩ := mayCall_os he
    have hs := h.tenancy.shell
    have hcalls := OsState.calls hs hstep hno
    have ht := h.tenancy.os a hlate
    have hlived {q : PcbRef} (hq : (c.next image (.call (.os a))).Alive q) :=
      Tenancy.lived hs hlate (fun q hq => polite_frame he hp hq) hq
    have hcur : (c.next image (.call (.os a))).kernel.current = c.kernel.current := hcalls.current
    have hstack {q : PcbRef} (hq : c.Alive q) (hl : c.kernel.slotLeft a ≠ some q) :
        image.stackOf (c.next image (.call (.os a))).kernel q = image.stackOf c.kernel q :=
      Tenancy.stackOf_sameLife (Tenancy.survives hs hlate hq hl) (h.stacked q hq)
    have hfresh {q : PcbRef} (hf : c.tenancy.Fresh (c.tenancy.next (.os a)) a q) :
        image.stackOf (c.next image (.call (.os a))).kernel q =
          ⟨c.kernel.pmm.pmmAllocFrame.1.toNat, 4096⟩ := (fresh_stackOf hs hf).2
    have hesp (q : PcbRef) : ((c.next image (.call (.os a))).kernel.pcbs q).esp =
        ((c.tenancy.os.next a).kernel.pcbs q).esp := rfl
    constructor
    case tenancy => exact ht
    case stacked =>
      intro q hq h0
      rcases hlived hq with ⟨hold, hl⟩ | hf
      · exact (Tenancy.survives hs hlate hold hl).hasStack.trans (h.stacked q hold h0)
      · exact hf.hasStack
    case shell => exact (shell_stays hs hlate h.shell).trans h.shell
    case own =>
      intro hq
      rw [hcur] at hq ⊢
      rcases hlived hq with ⟨hold, hl⟩ | hf
      · rw [hstack hold hl]
        exact h.own hold
      · exact absurd hf.free (newborn he hf.taken hf.frame).creator
    case apart =>
      intro q hne hq
      rw [hcur] at hne
      rcases hlived hq with ⟨hold, hl⟩ | hf
      · rw [hstack hold hl]
        exact h.apart q hne hold
      · have hrun := (newborn he hf.taken hf.frame).creator
        have hown := h.own hrun
        rw [hfresh hf]
        show c.stack.Apart _
        rw [hown]
        exact h.tenancy.new_apart (h.stacked _ hrun) hf.frame
    case framed =>
      intro q hne hq
      rw [hcur] at hne
      rcases hlived hq with ⟨hold, hl⟩ | hf
      · rw [hstack hold hl, hesp, hcalls.esp q hold hl]
        exact h.framed q hne hold
      · have hrange : c.kernel.pmm.pmmAllocFrame.1.toNat + 4096 < 2 ^ 32 := h.tenancy.new_range hf.frame
        rw [hfresh hf, hesp, (newborn he hf.taken hf.frame).esp]
        constructor
        · show c.kernel.pmm.pmmAllocFrame.1.toNat ≤ _
          bv_omega
        · show _ ≤ c.kernel.pmm.pmmAllocFrame.1.toNat + 4096
          bv_omega
    case bound => exact h.bound

/-! ## Interrupts -/

section
variable {i : Interrupt} {before after : Memory}

theorem entered_enabled (he : c.Enabled (.interrupt i before after)) :
    (c.entered image before).os.Enabled (i.action c.regs.contextEsp c.killArg) := by
  cases i <;> exact he

theorem taken_int31 {sp eax : Word} {k : Kernel} (ht : k.slotTaken (i.action sp eax) = some p) :
    i = .int31 ∧ k.forkTarget = some p := by
  cases i with
  | int31 => exact ⟨rfl, ht⟩
  | _ => cases ht

/-- Where the interrupt frame lies when the process has not overrun its stack. -/
structure Roomy (image : Image) (c : Computer) : Prop where
  low : c.stack.start + image.depth ≤ c.regs.contextEsp.toNat
  high : c.regs.contextEsp.toNat + 44 = c.regs.esp.toNat
  top : c.regs.esp.toNat ≤ c.stack.start + c.stack.size

theorem Polite.roomy (hp : c.Polite image (.interrupt i before after)) : c.Roomy image := by
  obtain ⟨hlow, htop⟩ := hp
  have hsp := Registers.contextEsp_toNat (r := c.regs) (by omega)
  exact ⟨by omega, by omega, htop⟩

/-- The stacks of a fork. -/
theorem Inv.forks (h : c.Inv image) (hr : c.Roomy image) (hc : c.kernel.forkTarget = some p) :
    c.Alive c.kernel.current → Kernel.StacksApart c.kernel.cur.stackBase
      c.kernel.pmm.pmmAllocFrame.1 c.regs.contextEsp := by
  intro halive
  have hstack := (Kernel.forkTarget_some hc).1
  have h0 : c.kernel.current ≠ 0 := by
    intro h0
    rw [Kernel.cur, h0, h.shell] at hstack
    cases hstack
  have hown := h.own halive
  rw [Image.stackOf, if_neg h0] at hown
  obtain ⟨hlow, hhigh, htop⟩ := hr
  rw [hown] at hlow htop
  apply h.tenancy.apart hc
  · exact Nat.le_of_add_right_le hlow
  · rw [hhigh]
    exact htop

/-- What the C function does, on the process table as the interrupt finds it. -/
theorem handled_handles (h : c.Inv image) (he : c.Enabled (.interrupt i before after)) :
    Kernel.Handles c.kernel c.regs.contextEsp
      (c.kernel.slotLeft (i.action c.regs.contextEsp c.killArg))
      (c.handled image i before).os.kernel (c.handled image i before).os.esp := by
  have h₀ : (c.entered image before).Inv image.toBoot := h.tenancy.withMem_inv _
  have hh := OsState.handles h₀.shell i (entered_enabled he)
  have hleft : (c.entered image before).os.kernel.slotLeft (i.action c.regs.contextEsp c.killArg) =
      c.kernel.slotLeft (i.action c.regs.contextEsp c.killArg) := by
    cases i <;> rfl
  rw [hleft] at hh
  exact ⟨hh.others, hh.own, hh.returned, hh.next⟩

/-- Who lives after an interrupt, and where. -/
structure Survivors (image : Image) (c : Computer) (a : Action) (t : Tenancy) : Prop where
  lived : ∀ q, (t.os.kernel.pcbs q).state ≠ .terminated →
    (c.Alive q ∧ c.kernel.slotLeft a ≠ some q) ∨
      (c.kernel.forkTarget = some q ∧ a = .fork c.regs.contextEsp ∧ ¬ c.Alive q)
  stackOf : ∀ q, c.Alive q → c.kernel.slotLeft a ≠ some q →
    (t.os.kernel.pcbs q).state ≠ .terminated ∧ image.stackOf t.os.kernel q = image.stackOf c.kernel q
  stacked : ∀ q, (t.os.kernel.pcbs q).state ≠ .terminated → t.HasStack q
  shell : (t.os.kernel.pcbs 0).hasStack = false

theorem handled_survivors (h : c.Inv image) (he : c.Enabled (.interrupt i before after)) :
    Survivors image c (i.action c.regs.contextEsp c.killArg) (c.handled image i before) := by
  have h₀ : (c.entered image before).Inv image.toBoot := h.tenancy.withMem_inv _
  have he₀ : OsState.lateMachine.enabled (c.entered image before).os
      (i.action c.regs.contextEsp c.killArg) := .inl (entered_enabled he)
  have hleft : (c.entered image before).os.kernel.slotLeft (i.action c.regs.contextEsp c.killArg) =
      c.kernel.slotLeft (i.action c.regs.contextEsp c.killArg) := by
    cases i <;> rfl
  have htaken : ∀ q, (c.entered image before).os.kernel.slotTaken
        (i.action c.regs.contextEsp c.killArg) = some q →
      (c.entered image before).os.kernel.pmm.pmmAllocFrame.1 ≠ 0#32 := by
    intro q hq
    exact (Kernel.forkTarget_some (taken_int31 hq).2).2.1
  have hlives (q : PcbRef) (hq : ((c.handled image i before).os.kernel.pcbs q).state ≠ .terminated) :=
    Tenancy.lived h₀.shell he₀ htaken hq
  have hsurvives (q : PcbRef) (hq : c.Alive q)
      (hl : c.kernel.slotLeft (i.action c.regs.contextEsp c.killArg) ≠ some q) :=
    Tenancy.survives h₀.shell he₀ hq (by rw [hleft]; exact hl)
  constructor
  case lived =>
    intro q hq
    rcases hlives q hq with ⟨hold, hl⟩ | hf
    · rw [hleft] at hl
      exact .inl ⟨hold, hl⟩
    · obtain ⟨rfl, hchild⟩ := taken_int31 hf.taken
      exact .inr ⟨hchild, rfl, fun ha => ha hf.free⟩
  case stackOf =>
    intro q hq hl
    have hs := hsurvives q hq hl
    exact ⟨fun ht => hq (hs.terminated.mp ht), Tenancy.stackOf_sameLife hs (h.stacked q hq)⟩
  case stacked =>
    intro q hq h0
    rcases hlives q hq with ⟨hold, hl⟩ | hf
    · rw [hleft] at hl
      exact (hsurvives q hold hl).hasStack.trans (h.stacked q hold h0)
    · exact hf.hasStack
  case shell => exact (shell_stays h₀.shell he₀ h.shell).trans h.shell

/-- The stack of a forked child. -/
theorem forked_stack (image : Image) (before : Memory) (hc : c.kernel.forkTarget = some p) :
    image.stackOf (c.handled image .int31 before).os.kernel p =
        ⟨c.kernel.pmm.pmmAllocFrame.1.toNat, 4096⟩ ∧
      (c.handled image .int31 before).os.kernel.current = c.kernel.current ∧
      ((c.handled image .int31 before).os.kernel.pcbs p).esp =
        c.regs.contextEsp + (c.kernel.pmm.pmmAllocFrame.1 - c.kernel.cur.stackBase) := by
  have hf := Kernel.schedulerFork_spec (k := (c.entered image before).os.kernel) hc c.regs.contextEsp
  have hk : (c.handled image .int31 before).os.kernel =
      ((c.entered image before).os.kernel.schedulerFork c.regs.contextEsp).2 :=
    OsState.next_fork_kernel _
  rw [hk]
  refine ⟨?_, hf.current, hf.stack.2.2.2⟩
  rw [Image.stackOf, if_neg (Kernel.freeSlot_some (Kernel.forkTarget_some hc).2.2).1, hf.stack.2.1]
  rfl

theorem Inv.interrupt (h : c.Inv image) (he : c.Enabled (.interrupt i before after))
    (hp : c.Polite image (.interrupt i before after)) :
    (c.next image (.interrupt i before after)).Inv image := by
  have hr := hp.roomy
  have hh := handled_handles h he
  have hs := handled_survivors h he
  have h₀ : (c.entered image before).Inv image.toBoot := h.tenancy.withMem_inv _
  have ht : (c.handled image i before).Inv image.toBoot := h₀.os _ (.inl (entered_enabled he))
  have hforked (q : PcbRef) (hc : c.kernel.forkTarget = some q)
      (hi : i.action c.regs.contextEsp c.killArg = .fork c.regs.contextEsp) :
      i = .int31 ∧ c.Alive c.kernel.current := by
    cases i with
    | int31 =>
      have hrun : (c.kernel.pcbs c.kernel.current).state = .running := he.2.1
      exact ⟨rfl, by rw [Alive, hrun]; decide⟩
    | _ => cases hi
  have hstay : (c.handled image i before).os.kernel.current = c.kernel.current →
      (c.next image (.interrupt i before after)).stack = c.stack := fun hc => if_pos hc
  have hswitch : (c.handled image i before).os.kernel.current ≠ c.kernel.current →
      (c.next image (.interrupt i before after)).stack = image.stackOf
        (c.handled image i before).os.kernel (c.handled image i before).os.kernel.current :=
    fun hc => if_neg hc
  constructor
  case tenancy => exact ht.withMem_inv _
  case stacked => exact hs.stacked
  case shell => exact hs.shell
  case own =>
    intro hq
    change ((c.handled image i before).os.kernel.pcbs
      (c.handled image i before).os.kernel.current).state ≠ .terminated at hq
    show _ = image.stackOf (c.handled image i before).os.kernel
      (c.handled image i before).os.kernel.current
    by_cases hc : (c.handled image i before).os.kernel.current = c.kernel.current
    · rw [hstay hc]
      rcases hs.lived _ hq with ⟨hold, hl⟩ | ⟨hchild, hi, hfree⟩
      · have hsame := (hs.stackOf _ hold hl).2
        rw [hc] at hold
        refine (h.own hold).trans ?_
        rw [← hc]
        exact hsame.symm
      · have halive := (hforked _ hchild hi).2
        rw [← hc] at halive
        exact absurd halive hfree
    · exact hswitch hc
  case apart =>
    intro q hne hq
    show Extent.Apart _ (image.stackOf (c.handled image i before).os.kernel q)
    by_cases hc : (c.handled image i before).os.kernel.current = c.kernel.current
    · rw [hstay hc]
      rcases hs.lived q hq with ⟨hold, hl⟩ | ⟨hchild, hi, hfree⟩
      · rw [(hs.stackOf q hold hl).2]
        exact h.apart q (fun he => hne (he.trans hc.symm)) hold
      · obtain ⟨rfl, halive⟩ := hforked q hchild hi
        rw [(forked_stack image before hchild).1, h.own halive]
        exact h.tenancy.new_apart (h.stacked _ halive) (Kernel.forkTarget_some hchild).2.1
    · rw [hswitch hc]
      obtain ⟨hold, hl⟩ := hh.next hc
      have hnext := hs.stacked _ (hs.stackOf _ hold hl).1
      exact ht.stackOf_apart hnext (hs.stacked q hq) (Ne.symm hne)
  case framed =>
    intro q hne hq
    show Framed (image.stackOf (c.handled image i before).os.kernel q)
      ((c.handled image i before).os.kernel.pcbs q).esp
    rcases hs.lived q hq with ⟨hold, hl⟩ | ⟨hchild, hi, hfree⟩
    · rw [(hs.stackOf q hold hl).2]
      by_cases hc : q = c.kernel.current
      · subst hc
        rw [hh.own (Ne.symm hne) hold hl, ← h.own hold]
        exact ⟨Nat.le_of_add_right_le hr.low, by rw [hr.high]; exact hr.top⟩
      · rw [hh.others q hc hold hl]
        exact h.framed q hc hold
    · obtain ⟨rfl, halive⟩ := hforked q hchild hi
      have hapart := h.forks hr hchild halive
      obtain ⟨hstack, _, hesp⟩ := forked_stack image before hchild
      rw [hstack, hesp]
      have hctx := hapart.childCtx
      obtain ⟨_, _, _, hlow, hhigh⟩ := hapart
      constructor <;> simp only [hctx] <;> omega
  case bound =>
    by_cases hc : (c.handled image i before).os.kernel.current = c.kernel.current
    · rw [hstay hc]
      exact h.bound
    · rw [hswitch hc]
      obtain ⟨hold, hl⟩ := hh.next hc
      exact ht.stackOf_bound (hs.stacked _ (hs.stackOf _ hold hl).1)

end

end Computer

end SengOS
