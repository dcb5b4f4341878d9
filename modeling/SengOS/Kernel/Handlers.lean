import SengOS.Kernel.Computer

/-!
# What the calls do to the saved registers

Both kinds of entries into the kernel, seen from the stacks: the C functions behind the
interrupts save and return stack pointers and write results into the caller's frame, and the
other calls write only the first context of a new process.
-/

namespace SengOS

namespace Kernel

/-- What a C function that was called with the frame at `contextEsp` does to the stack
pointers; it ends the process in slot `left`. -/
structure Handles (k : Kernel) (contextEsp : Word) (left : Option PcbRef) (k' : Kernel) (esp : Word) :
    Prop where
  others : ∀ p, p ≠ k.current → (k.pcbs p).state ≠ .terminated → left ≠ some p →
    (k'.pcbs p).esp = (k.pcbs p).esp
  own : k'.current ≠ k.current → k.cur.state ≠ .terminated → left ≠ some k.current →
    (k'.pcbs k.current).esp = contextEsp
  returned : esp = if k'.current = k.current then contextEsp else (k'.pcbs k'.current).esp
  next : k'.current ≠ k.current → (k.pcbs k'.current).state ≠ .terminated ∧ left ≠ some k'.current

section
variable {k k' : Kernel} {contextEsp esp : Word}

theorem Dispatched.handles {woken : List PcbRef} (h : Dispatched k contextEsp esp k' woken) :
    Handles k contextEsp none k' esp := by
  have halive : (k.pcbs k'.current).state ≠ .terminated := by
    rw [Ne, ← h.terminated, h.current_running]
    decide
  constructor
  case others =>
    intro p hp _ _
    rw [h.esp_eq, if_neg fun hc => hp hc.1]
  case own =>
    intro _ hc _
    rw [h.esp_eq, if_pos ⟨rfl, hc⟩]
  case returned =>
    rw [h.returned]
    split
    · rename_i hc
      rw [h.esp_eq, if_pos ⟨hc, halive⟩]
    · rfl
  case next => exact fun _ => ⟨halive, Option.some_ne_none _ |>.symm⟩

/-- The function returns to the process that called it. -/
theorem Handles.stays {left : Option PcbRef} (hc : k'.current = k.current)
    (hesp : ∀ p, (k.pcbs p).state ≠ .terminated → left ≠ some p → (k'.pcbs p).esp = (k.pcbs p).esp) :
    Handles k contextEsp left k' contextEsp :=
  ⟨fun p _ => hesp p, fun hne => absurd hc hne, (if_pos hc).symm, fun hne => absurd hc hne⟩

theorem schedulerFork_esp (k : Kernel) (contextEsp : Word) : (k.schedulerFork contextEsp).1 = contextEsp := by
  unfold schedulerFork
  split
  · rfl
  · split
    · rfl
    · dsimp only
      split <;> rfl

theorem schedulerFork_handles (k : Kernel) (contextEsp : Word) :
    Handles k contextEsp none (k.schedulerFork contextEsp).2 (k.schedulerFork contextEsp).1 := by
  rw [schedulerFork_esp]
  cases hc : k.forkTarget with
  | none =>
    have hr := schedulerFork_refused hc contextEsp
    refine .stays hr.current fun p hp _ => ?_
    rcases hr.pcbs p with he | ⟨ht, _⟩
    · rw [he]
    · exact absurd ht hp
  | some child =>
    have hf := schedulerFork_spec hc contextEsp
    have hfree := (freeSlot_some (forkTarget_some hc).2.2).2.1
    refine .stays hf.current fun p hp _ => ?_
    have hne : p ≠ child := by
      rintro rfl
      exact hp hfree
    rw [hf.others p hne]

end

/-- What a call without an interrupt does to the stack pointers. -/
structure Calls (k : Kernel) (left : Option PcbRef) (k' : Kernel) : Prop where
  current : k'.current = k.current
  esp : ∀ p, (k.pcbs p).state ≠ .terminated → left ≠ some p → (k'.pcbs p).esp = (k.pcbs p).esp

theorem Calls.of_frame {k k' : Kernel} (h : LockFrame k k') (left : Option PcbRef) : Calls k left k' :=
  ⟨h.current, fun p _ _ => (h.pcbs p).esp⟩

end Kernel

namespace OsState

variable {s : OsState} {contextEsp eax : Word}

theorem kill_handles (h : s.ShellInv) (hctx : contextEsp ≠ 0#32) (pid : Word) :
    Kernel.Handles s.kernel contextEsp (s.kernel.slotLeft (.kill contextEsp pid))
      (s.kernel.schedulerKill contextEsp pid).2 (s.kernel.schedulerKill contextEsp pid).1 := by
  rcases Kernel.schedulerKill_cases s.kernel contextEsp pid with ⟨_, hk⟩ | ⟨p, hp, hz, hcase⟩
  · rw [hk]
    exact .stays rfl fun _ _ _ => rfl
  · have hleft : s.kernel.slotLeft (.kill contextEsp pid) = some p := by
      rw [Kernel.slotLeft, if_neg hz, hp]
    have hends := (Kernel.killTarget_spec s.kernel p).1.setEax contextEsp 0#32
    rw [hleft]
    rcases hcase with ⟨_, hk⟩ | ⟨hc, hk⟩ <;> rw [hk]
    · refine .stays hends.current fun q _ hq => ?_
      rw [hends.others q fun he => hq (congrArg some he.symm)]
    · obtain ⟨woken, hd⟩ := Kernel.dispatch_spec (h.killed hp hz contextEsp).ready hctx false
      have hh := hd.handles
      have hcur := hends.current
      constructor
      case others =>
        intro q hq ht hl
        have hqp : q ≠ p := fun he => hl (congrArg some he.symm)
        have hother := hends.others q hqp
        have hesp := hh.others q (by rw [hcur]; exact hq) (by rw [hother]; exact ht)
          (Option.some_ne_none q).symm
        rw [hesp, hother]
      case own => exact fun _ _ hl => absurd (congrArg some hc) hl
      case returned =>
        have hret := hh.returned
        rwa [hcur] at hret
      case next =>
        intro hne
        have hnext := (hh.next (by rw [hcur]; exact hne)).1
        have hnp : _ ≠ p := fun he => hne (he.trans hc)
        rw [hends.others _ hnp] at hnext
        exact ⟨hnext, fun he => hnp (Option.some.inj he).symm⟩

/-- The four interrupts. -/
theorem handles (h : s.ShellInv) (i : Interrupt) (he : s.Enabled (i.action contextEsp eax)) :
    Kernel.Handles s.kernel contextEsp (s.kernel.slotLeft (i.action contextEsp eax))
      (s.next (i.action contextEsp eax)).kernel (s.next (i.action contextEsp eax)).esp := by
  cases i with
  | irq0 =>
    obtain ⟨woken, hd⟩ := Kernel.dispatch_spec h.ready he true
    simp only [Interrupt.action, next, Kernel.schedulerTick]
    cases s.kernel.timerStarted with
    | false => exact .stays rfl fun _ _ _ => rfl
    | true => exact hd.handles
  | int30 =>
    obtain ⟨woken, hd⟩ := Kernel.dispatch_spec h.ready he.1 false
    exact hd.handles
  | int31 =>
    have hf := Kernel.schedulerFork_handles s.kernel contextEsp
    simp only [Interrupt.action, next]
    cases s.kernel.forkTarget <;> exact hf
  | int32 => exact kill_handles h he.1 eax

/-- Calls leave the stack pointers of the processes that they do not end. -/
theorem calls (h : s.ShellInv) {a : Action} (he : s.Enabled a ∨ a = .exit)
    (hno : (∀ c, a ≠ .fork c) ∧ (∀ c, a ≠ .tick c) ∧ (∀ c, a ≠ .yield c) ∧ ∀ c pid, a ≠ .kill c pid) :
    Kernel.Calls s.kernel (s.kernel.slotLeft a) (s.next a).kernel := by
  have hcreating {entry : Word} {created : Option PcbRef × Kernel} {left : Option PcbRef}
      (hnone : s.kernel.createTarget entry = none → created.2 = s.kernel)
      (hsome : ∀ p, s.kernel.createTarget entry = some p → Kernel.Created s.kernel p created.2) :
      Kernel.Calls s.kernel left created.2 := by
    cases hp : s.kernel.createTarget entry with
    | none =>
      rw [hnone hp]
      exact ⟨rfl, fun _ _ _ => rfl⟩
    | some p =>
      have hc := hsome p hp
      have hfree := (Kernel.freeSlot_some (Kernel.createTarget_some hp).2).2.1
      refine ⟨hc.current, fun q hq _ => ?_⟩
      have hne : q ≠ p := by
        rintro rfl
        exact hq hfree
      rw [hc.others q hne]
  cases a with
  | create entry name =>
    simp only [next, creating_kernel]
    refine hcreating (fun hn => ?_) fun p hp => (Kernel.processCreateNamed_spec hp name).1
    rw [Kernel.processCreateNamed_none hn]
  | threadCreate entry arg name =>
    simp only [next, creating_kernel]
    refine hcreating (fun hn => ?_) fun p hp => (Kernel.threadCreateNamed_spec hp arg name).1
    rw [Kernel.threadCreateNamed_none hn]
  | fork contextEsp => exact absurd rfl (hno.1 _)
  | tick contextEsp => exact absurd rfl (hno.2.1 _)
  | yield contextEsp => exact absurd rfl (hno.2.2.1 _)
  | kill contextEsp pid => exact absurd rfl (hno.2.2.2 _ _)
  | start => exact ⟨rfl, fun _ _ _ => rfl⟩
  | sleep ms =>
    have he := he.resolve_right (Action.noConfusion ·)
    have hk := Kernel.sleep_keeps (show s.kernel.cur.state ≠ .terminated by rw [he.1]; decide) ms
    exact ⟨Kernel.sleep_current _ _, fun p _ _ => (hk p).esp⟩
  | blockForever =>
    have he := he.resolve_right (Action.noConfusion ·)
    exact .of_frame (Kernel.blockForever_frame _ (by rw [he.1]; decide)) _
  | wake p =>
    cases p with
    | none => exact ⟨rfl, fun _ _ _ => rfl⟩
    | some p => exact .of_frame (Kernel.wake_frame _ p) _
  | exit =>
    simp only [next]
    by_cases hp : s.kernel.cur.pid = 0#32
    · rw [Kernel.processExit, if_pos hp]
      exact ⟨rfl, fun _ _ _ => rfl⟩
    · have hends := (Kernel.processExit_spec _ hp).1
      refine ⟨hends.current, fun q _ hq => ?_⟩
      rw [Kernel.slotLeft, if_neg hp] at hq
      rw [hends.others q fun he => hq (congrArg some he.symm)]
  | mutexInit m => exact .of_frame (Kernel.lazyInit_frame _ (.mutex m)) _
  | semInit i initialCount => exact .of_frame (Kernel.setSem_frame _ _ _) _
  | rwlockInit r => exact .of_frame (Kernel.setRwlock_frame _ _ _) _
  | acquire l => exact .of_frame (.refl _) _
  | unlock l => exact .of_frame (.refl _) _
  | proceed =>
    have he := he.resolve_right (Action.noConfusion ·)
    exact .of_frame (h.advance_frame he.1) _

/-! ## Memory -/

/-- Outside the saved EAX and a new child's stack the C functions write no memory. -/
theorem handler_mem (i : Interrupt) (hctx : contextEsp ≠ 0#32) (hfits : contextEsp.toNat + 32 ≤ 2 ^ 32)
    {a : Word} (ha : a.toNat < contextEsp.toNat + 28 ∨ contextEsp.toNat + 32 ≤ a.toNat)
    (hnew : ∀ child, i = .int31 → s.kernel.forkTarget = some child →
      Kernel.StacksApart s.kernel.cur.stackBase s.kernel.pmm.pmmAllocFrame.1 contextEsp ∧
        ¬ Extent.Has ⟨s.kernel.pmm.pmmAllocFrame.1.toNat, 4096⟩ a.toNat) :
    (s.next (i.action contextEsp eax)).kernel.mem a = s.kernel.mem a := by
  have hslot (w : Word) (m : Memory) : m.storeWord (contextEsp + 28#32) w a = m a := by
    apply Memory.storeWord_ne <;> bv_omega
  cases i with
  | irq0 => rw [Interrupt.action, next_mem _ rfl]
  | int30 => rw [Interrupt.action, next_mem _ rfl]
  | int31 =>
    rw [Interrupt.action, next_fork_kernel]
    cases hc : s.kernel.forkTarget with
    | none => rw [Kernel.schedulerFork_refused_mem hc hctx, hslot]
    | some child =>
      obtain ⟨hapart, hout⟩ := hnew child rfl hc
      rw [Kernel.schedulerFork_mem hc, hslot, Kernel.forkMem_elsewhere hapart]
      simp only [Extent.Has] at hout
      omega
  | int32 =>
    have hmem : (s.next (.kill contextEsp eax)).kernel.mem =
        (s.kernel.schedulerKill contextEsp eax).2.mem := rfl
    rw [Interrupt.action, hmem, Kernel.schedulerKill_mem, hslot]

/-- A call writes memory only on the stack of a new process. -/
theorem call_mem {a : Action} (hno : (∀ c, a ≠ .fork c) ∧ ∀ c pid, a ≠ .kill c pid) {x : Word}
    (hnew : ∀ p, s.kernel.slotTaken a = some p → s.kernel.pmm.pmmAllocFrame.1 ≠ 0#32 →
      s.kernel.pmm.pmmAllocFrame.1.toNat + 4096 < 2 ^ 32 ∧
        ¬ Extent.Has ⟨s.kernel.pmm.pmmAllocFrame.1.toNat, 4096⟩ x.toNat) :
    (s.next a).kernel.mem x = s.kernel.mem x := by
  have hcreating {entry : Word} (ht : s.kernel.slotTaken a = s.kernel.createTarget entry)
      {created : Option PcbRef × Kernel}
      (hnone : s.kernel.createTarget entry = none → created.2 = s.kernel)
      (hsome : ∀ p, s.kernel.createTarget entry = some p → created.2.mem = s.kernel.createMem) :
      (s.creating entry created).kernel.mem x = s.kernel.mem x := by
    rw [creating_mem hnone hsome]
    split
    · rfl
    · rename_i hs
      obtain ⟨p, hp⟩ := Option.ne_none_iff_exists'.mp hs
      unfold Kernel.createMem
      split
      · rfl
      · rename_i hz
        obtain ⟨hfits, hout⟩ := hnew p (ht.trans hp) hz
        simp only [Extent.Has] at hout
        have htop : 4 * (Kernel.initialFrame s.kernel.bootstrap).length = 44 := rfl
        apply Kernel.pushes_ne <;> rw [htop] <;> bv_omega
  cases a with
  | create entry name =>
    refine hcreating rfl (fun hn => ?_) fun p hp => Kernel.processCreateNamed_mem hp name
    rw [Kernel.processCreateNamed_none hn]
  | threadCreate entry arg name =>
    refine hcreating rfl (fun hn => ?_) fun p hp => Kernel.threadCreateNamed_mem hp arg name
    rw [Kernel.threadCreateNamed_none hn]
  | fork contextEsp => exact absurd rfl (hno.1 _)
  | kill contextEsp pid => exact absurd rfl (hno.2 _ _)
  | _ => rw [next_mem _ rfl]

end OsState

end SengOS
