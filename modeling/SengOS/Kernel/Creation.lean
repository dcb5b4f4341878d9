import SengOS.Kernel.Integrity

/-!
# Creations that fail

`scheduler_fork` asks for the child's frame before it makes the child READY.
`process_create_named` and `thread_create_named` do it the other way round, and
leave a READY process without a stack when memory runs out. Every other failed
creation changes nothing, and in runs without such a failure every process that
can run has a stack and a stack pointer on it.
-/

namespace SengOS

/-- The calls that create a process. -/
inductive CreateCall
  | process (entry : Word) (name : Option CStr)
  | thread (entry arg : Word) (name : Option CStr)
  | fork (contextEsp : Word)

namespace CreateCall

def run (k : Kernel) : CreateCall → Kernel
  | .process entry name => (k.processCreateNamed entry name).2
  | .thread entry arg name => (k.threadCreateNamed entry arg name).2
  | .fork contextEsp => (k.schedulerFork contextEsp).2

/-- The call returns NULL; a fork refuses because the caller has no stack of its
own, or for want of a slot or of a frame. -/
def Fails (k : Kernel) : CreateCall → Prop
  | .process entry name => (k.processCreateNamed entry name).1 = none
  | .thread entry arg name => (k.threadCreateNamed entry arg name).1 = none
  | .fork _ => k.forkTarget = none

instance (k : Kernel) : (c : CreateCall) → Decidable (c.Fails k)
  | .process _ _ => inferInstanceAs (Decidable (_ = _))
  | .thread _ _ _ => inferInstanceAs (Decidable (_ = _))
  | .fork _ => inferInstanceAs (Decidable (_ = _))

/-- A creation that has found a slot. -/
def FindsSlot (k : Kernel) : CreateCall → Prop
  | .process entry _ | .thread entry _ _ => entry ≠ 0#32 ∧ k.freeSlot ≠ none
  | .fork _ => False

end CreateCall

/-- Nothing that could run, nor the memory it would need, has changed. -/
structure Kernel.Untouched (k k' : Kernel) : Prop where
  live : ∀ p, (k'.pcbs p).state = .terminated ↔ (k.pcbs p).state = .terminated
  pcbs : ∀ p, (k.pcbs p).state ≠ .terminated → (k'.pcbs p).state = (k.pcbs p).state ∧
    (k'.pcbs p).hasStack = (k.pcbs p).hasStack ∧ (k'.pcbs p).stackBase = (k.pcbs p).stackBase ∧
    (k'.pcbs p).stackTop = (k.pcbs p).stackTop ∧ (k'.pcbs p).esp = (k.pcbs p).esp ∧
    (k'.pcbs p).eip = (k.pcbs p).eip
  processTotal : k'.processTotal = k.processTotal
  pmm : k'.pmm = k.pmm

theorem Memory.loadWord_storeWord (m : Memory) (a w : Word) : (m.storeWord a w).loadWord a = w := by
  have h1 : a + 1#32 ≠ a := by bv_omega
  have h2 : a + 2#32 ≠ a ∧ a + 2#32 ≠ a + 1#32 := by constructor <;> bv_omega
  have h3 : a + 3#32 ≠ a ∧ a + 3#32 ≠ a + 1#32 ∧ a + 3#32 ≠ a + 2#32 := by
    refine ⟨?_, ?_, ?_⟩ <;> bv_omega
  simp only [loadWord, storeWord, if_neg h1, if_neg h2.1, if_neg h2.2, if_neg h3.1, if_neg h3.2.1,
    if_neg h3.2.2, if_true]
  exact Buf.word_split w

namespace Kernel

theorem setEax_eax (k : Kernel) (contextEsp v : Word) :
    (k.setEax contextEsp v).frameWord contextEsp 7 = v :=
  Memory.loadWord_storeWord _ _ _

/-- What the caller of `fork` finds in EAX. -/
theorem schedulerFork_eax (k : Kernel) {contextEsp : Word} (hctx : contextEsp ≠ 0#32) :
    (k.schedulerFork contextEsp).2.frameWord contextEsp 7 =
      if k.forkTarget = none then -1#32 else k.nextPid := by
  by_cases hs : k.cur.hasStack = true
  · cases hf : k.freeSlot with
    | none =>
      simp [schedulerFork, forkTarget, hs, hf, setEax_eax]
    | some child =>
      by_cases hz : k.pmm.pmmAllocFrame.1 = 0#32
      · simp [schedulerFork, forkTarget, hs, hf, hz, setEax_eax]
      · have ht : k.forkTarget ≠ none := by simp [forkTarget, hs, hf, hz]
        simp only [schedulerFork, hs, hf, Bool.not_true, Bool.false_eq_true, if_false, if_neg hz,
          if_neg ht, forkInto, setEax_eax]
        rfl
  · simp [schedulerFork, forkTarget, hs, hctx, setEax_eax]

theorem Untouched.refl (k : Kernel) : k.Untouched k :=
  ⟨fun _ => .rfl, fun _ _ => ⟨rfl, rfl, rfl, rfl, rfl, rfl⟩, rfl, rfl⟩

/-- The slot of a creation that fails behind the search is READY. -/
theorem Created.not_untouched {k k' : Kernel} {p : PcbRef} (h : Created k p k')
    (hp : k.freeSlot = some p) : ¬ k.Untouched k' := by
  intro hu
  have ht := (hu.live p).mpr (freeSlot_some hp).2.1
  rw [h.ready] at ht
  cases ht

theorem ForkRefused.untouched {k k' : Kernel} (h : ForkRefused k k') (hk : k.pmm.Ok) :
    k.Untouched k' := by
  refine ⟨fun p => ?_, fun p hp => ?_, h.processTotal, ?_⟩
  · rcases h.pcbs p with hq | ⟨_, _, hq⟩ <;> rw [hq]
  · rcases h.pcbs p with hq | ⟨ht, _, _⟩
    · rw [hq]
      exact ⟨rfl, rfl, rfl, rfl, rfl, rfl⟩
    · exact absurd ht hp
  · rcases h.pmm with he | ⟨hz, he⟩
    · exact he
    · rw [he]
      exact Pmm.pmmAllocFrame_failed hk hz

theorem findsSlot_iff (k : Kernel) (entry : Word) :
    (entry ≠ 0#32 ∧ k.freeSlot ≠ none) ↔ k.createTarget entry ≠ none := by
  unfold createTarget
  split <;> simp_all

/-- The two creating calls share their answer to a failure. -/
theorem creation_untouched_iff {k k' : Kernel} {entry : Word}
    (hnone : k.createTarget entry = none → k' = k)
    (hsome : ∀ p, k.createTarget entry = some p → Created k p k') :
    k.Untouched k' ↔ ¬ (entry ≠ 0#32 ∧ k.freeSlot ≠ none) := by
  rw [findsSlot_iff, not_not]
  cases ht : k.createTarget entry with
  | none =>
    rw [hnone ht]
    exact ⟨fun _ => rfl, fun _ => .refl k⟩
  | some p =>
    have hp := (createTarget_some ht).2
    exact ⟨fun hu => absurd hu ((hsome p ht).not_untouched hp), fun he => by cases he⟩

/-- A failed creation touches nothing exactly when it is not one that found a slot. -/
theorem failed_untouched_iff {k : Kernel} (hk : k.pmm.Ok) {c : CreateCall} (hf : c.Fails k) :
    k.Untouched (c.run k) ↔ ¬ c.FindsSlot k := by
  cases c with
  | process entry name =>
    refine creation_untouched_iff (fun hn => ?_) (fun p hp => (processCreateNamed_spec hp name).1)
    rw [CreateCall.run, processCreateNamed_none hn]
  | thread entry arg name =>
    refine creation_untouched_iff (fun hn => ?_) (fun p hp => (threadCreateNamed_spec hp arg name).1)
    rw [CreateCall.run, threadCreateNamed_none hn]
  | fork contextEsp =>
    exact ⟨fun _ => id, fun _ => (schedulerFork_refused hf contextEsp).untouched hk⟩

/-! ## The frames -/

theorem Ended.pmm_ok {k k' : Kernel} {p : PcbRef} (h : Ended k p k') (hk : k.pmm.Ok) :
    k'.pmm.Ok := by
  rcases h.pmm with he | he
  · rw [he]
    exact hk
  · rw [he]
    exact Pmm.pmmFreeFrame_ok hk _

theorem sleep_pmm (k : Kernel) (ms : Word) : (k.sleep ms).pmm = k.pmm := by
  rcases k.sleep_cases ms with hk | ⟨_, _, _, hk, _⟩ <;> rw [hk]
  rfl

end Kernel

namespace OsState

theorem step_pmm {s : OsState} (h : s.kernel.pmm.Ok) (hs : s.ShellInv) (a : Action)
    (he : s.Enabled a) : (s.next a).kernel.pmm.Ok := by
  have halloc := Pmm.pmmAllocFrame_ok h
  cases a with
  | start => exact h
  | create entry name =>
    simp only [next, creating]
    split
    · rename_i hn
      rw [Kernel.processCreateNamed_none hn]
      exact h
    · rename_i p hp
      simp only [(Kernel.processCreateNamed_spec hp name).1.pmm]
      exact halloc
  | threadCreate entry arg name =>
    simp only [next, creating]
    split
    · rename_i hn
      rw [Kernel.threadCreateNamed_none hn]
      exact h
    · rename_i p hp
      simp only [(Kernel.threadCreateNamed_spec hp arg name).1.pmm]
      exact halloc
  | fork contextEsp =>
    simp only [next]
    split
    · rename_i hn
      rcases (Kernel.schedulerFork_refused hn contextEsp).pmm with hp | ⟨_, hp⟩
      · simp only [hp]
        exact h
      · simp only [hp]
        exact halloc
    · rename_i child hc
      simp only [(Kernel.schedulerFork_spec hc contextEsp).pmm]
      exact halloc
  | tick contextEsp =>
    simp only [next, Kernel.schedulerTick]
    obtain ⟨woken, hd⟩ := Kernel.dispatch_spec hs.ready he true
    cases s.kernel.timerStarted with
    | false => exact h
    | true =>
      simp only [Bool.not_true, Bool.false_eq_true, if_false, hd.pmm]
      exact h
  | yield contextEsp =>
    obtain ⟨woken, hd⟩ := Kernel.dispatch_spec hs.ready he.1 false
    simp only [next, Kernel.schedulerYield, hd.pmm]
    exact h
  | sleep ms =>
    simp only [next, Kernel.sleep_pmm]
    exact h
  | blockForever =>
    simp only [next, (Kernel.blockForever_frame s.kernel (by rw [he.1]; decide)).pmm]
    exact h
  | wake p =>
    cases p with
    | none => exact h
    | some p =>
      simp only [next, (Kernel.wake_frame s.kernel p).pmm]
      exact h
  | kill contextEsp pid =>
    simp only [next]
    rcases Kernel.schedulerKill_cases s.kernel contextEsp pid with ⟨_, hk⟩ | ⟨p, hp, hz, hcase⟩
    · rw [hk]
      exact h
    · have hends := (Kernel.killTarget_spec s.kernel p).1.pmm_ok h
      rcases hcase with ⟨_, hk⟩ | ⟨_, hk⟩
      · rw [hk]
        exact hends
      · obtain ⟨woken, hd⟩ := Kernel.dispatch_spec (hs.killed hp hz contextEsp).ready he.1 false
        rw [hk, hd.pmm]
        exact hends
  | exit =>
    simp only [next]
    by_cases hp : s.kernel.cur.pid = 0#32
    · rw [Kernel.processExit, if_pos hp]
      exact h
    · exact (Kernel.processExit_spec _ hp).1.pmm_ok h
  | mutexInit m =>
    have hk := (Kernel.lazyInit_frame s.kernel (.mutex m)).pmm
    exact hk ▸ h
  | semInit i initialCount => exact h
  | rwlockInit r => exact h
  | acquire l => exact h
  | unlock l => exact h
  | proceed =>
    simp only [next, (hs.advance_frame he.1).pmm]
    exact h

theorem Reached.pmm {P : OsState → Action → Prop} {s : OsState} (h : Reached P s) :
    s.kernel.pmm.Ok := by
  obtain ⟨b, h⟩ := h
  exact (h.invariant (I := fun s => s.ShellInv ∧ s.kernel.pmm.Ok)
    ⟨boot_shell b, Pmm.pmmInit_ok _ _⟩
    fun s a hi he _ => ⟨step_shell hi.1 a he, step_pmm hi.2 hi.1 a he⟩).2

/-! ## Stacks -/

/-- The process has a stack and its stack pointer is on it. -/
structure OnStack (q : Pcb) : Prop where
  hasStack : q.hasStack = true
  lower : q.stackBase ≤ q.esp
  upper : q.esp < q.stackTop
  top : q.stackTop = q.stackBase + 4096#32
  bound : q.stackBase.toNat + 4096 < 2 ^ 32

structure Stacks (s : OsState) : Prop where
  shell : (s.kernel.pcbs 0).hasStack = false
  live : ∀ p, p ≠ 0 → (s.kernel.pcbs p).state ≠ .terminated → OnStack (s.kernel.pcbs p)

/-- An interrupt finds the stack pointer on the stack of the process it interrupts. -/
def Interrupts (s : OsState) (contextEsp : Word) : Prop :=
  s.kernel.current ≠ 0 → s.kernel.cur.state ≠ .terminated →
    s.kernel.cur.stackBase ≤ contextEsp ∧ contextEsp < s.kernel.cur.stackTop

/-- No creation runs out of frames behind its search for a slot, and interrupts
arrive on the stack of the current process. -/
def FramesSuffice (s : OsState) : Action → Prop
  | .create entry _ | .threadCreate entry _ _ =>
    entry ≠ 0#32 ∧ s.kernel.freeSlot ≠ none → s.kernel.pmm.pmmAllocFrame.1 ≠ 0#32
  | .fork contextEsp | .tick contextEsp | .yield contextEsp | .kill contextEsp _ =>
    s.Interrupts contextEsp
  | _ => True

instance (s : OsState) (contextEsp : Word) : Decidable (s.Interrupts contextEsp) :=
  inferInstanceAs (Decidable (_ → _ → _ ∧ _))

instance (s : OsState) (a : Action) : Decidable (s.FramesSuffice a) := by
  apply Action.casesOn (motive := fun a => Decidable (s.FramesSuffice a)) a <;> intros <;>
    unfold FramesSuffice <;> infer_instance

/-- Code that keeps the stacks of the processes and brings none to life. -/
theorem Stacks.of_same {s s' : OsState} (h : s.Stacks)
    (hshell : (s'.kernel.pcbs 0).hasStack = (s.kernel.pcbs 0).hasStack)
    (hsame : ∀ p, p ≠ 0 → (s'.kernel.pcbs p).state ≠ .terminated →
      (s.kernel.pcbs p).state ≠ .terminated ∧
      (s'.kernel.pcbs p).hasStack = (s.kernel.pcbs p).hasStack ∧
      (s'.kernel.pcbs p).stackBase = (s.kernel.pcbs p).stackBase ∧
      (s'.kernel.pcbs p).stackTop = (s.kernel.pcbs p).stackTop ∧
      (s'.kernel.pcbs p).esp = (s.kernel.pcbs p).esp) : s'.Stacks := by
  refine ⟨hshell.trans h.shell, fun p h0 hp => ?_⟩
  obtain ⟨ht, hh, hb, htop, hesp⟩ := hsame p h0 hp
  have := h.live p h0 ht
  exact ⟨hh.trans this.hasStack, by rw [hb, hesp]; exact this.lower,
    by rw [htop, hesp]; exact this.upper, by rw [htop, hb]; exact this.top,
    by rw [hb]; exact this.bound⟩

theorem Stacks.of_keeps {s s' : OsState} (h : s.Stacks)
    (hk : ∀ p, (s.kernel.pcbs p).Keeps (s'.kernel.pcbs p)) : s'.Stacks :=
  h.of_same (hk 0).hasStack fun p _ hp => ⟨fun ht => hp ((hk p).terminated.mpr ht),
    (hk p).hasStack, (hk p).stackBase, (hk p).stackTop, (hk p).esp⟩

theorem Stacks.ended {s s' : OsState} (h : s.Stacks) {p : PcbRef} (h0 : p ≠ 0)
    (he : Kernel.Ended s.kernel p s'.kernel) : s'.Stacks := by
  refine h.of_same (by rw [he.others 0 h0.symm]) fun q _ hq => ?_
  have hqp : q ≠ p := by
    rintro rfl
    exact hq he.terminated
  rw [he.others q hqp] at hq ⊢
  exact ⟨hq, rfl, rfl, rfl, rfl⟩

theorem Stacks.dispatched {s s' : OsState} (h : s.Stacks) {contextEsp esp : Word}
    {woken : List PcbRef} (hd : Kernel.Dispatched s.kernel contextEsp esp s'.kernel woken)
    (hi : s.Interrupts contextEsp) : s'.Stacks := by
  refine ⟨(hd.body 0).hasStack.trans h.shell, fun p h0 hp => ?_⟩
  have ht : (s.kernel.pcbs p).state ≠ .terminated := fun ht => hp ((hd.terminated p).mpr ht)
  have hstack := h.live p h0 ht
  have hb := hd.body p
  refine ⟨hb.hasStack.trans hstack.hasStack, ?_, ?_, by rw [hb.stackTop, hb.stackBase]; exact hstack.top,
    by rw [hb.stackBase]; exact hstack.bound⟩
  all_goals
    rw [hd.esp_eq p]
    split
    · rename_i hc
      obtain ⟨rfl, _⟩ := hc
      have := hi h0 ht
      first
      | rw [hb.stackBase]; exact this.1
      | rw [hb.stackTop]; exact this.2
    · first
      | rw [hb.stackBase]; exact hstack.lower
      | rw [hb.stackTop]; exact hstack.upper

/-- A new process on a frame of its own. -/
theorem Stacks.born {s s' : OsState} (h : s.Stacks) {p : PcbRef} (h0 : p ≠ 0)
    (hothers : ∀ q, q ≠ p → s'.kernel.pcbs q = { s.kernel.pcbs q with pid := (s'.kernel.pcbs q).pid })
    (hp : OnStack (s'.kernel.pcbs p)) : s'.Stacks := by
  refine ⟨by rw [hothers 0 h0.symm]; exact h.shell, fun q hq0 hq => ?_⟩
  by_cases he : q = p
  · rw [he]
    exact hp
  · rw [hothers q he] at hq ⊢
    have := h.live q hq0 hq
    exact ⟨this.hasStack, this.lower, this.upper, this.top, this.bound⟩

theorem relocated_bounds {frame base contextEsp : Word} (hb : base.toNat + 4096 < 2 ^ 32)
    (hf : frame.toNat + 4096 < 2 ^ 32) (hl : base ≤ contextEsp) (hu : contextEsp < base + 4096#32) :
    frame ≤ contextEsp + (frame - base) ∧ contextEsp + (frame - base) < frame + 4096#32 := by
  constructor <;> bv_omega

theorem Created.onStack {k k' : Kernel} {p : PcbRef} (h : Kernel.Created k p k') (hk : k.pmm.Ok)
    (hf : k.pmm.pmmAllocFrame.1 ≠ 0#32) : OnStack (k'.pcbs p) := by
  have hr := Pmm.pmmAllocFrame_range hk hf
  obtain ⟨hh, hb, ht, he⟩ := h.stack hf
  refine ⟨hh, ?_, ?_, by rw [ht, hb], by rw [hb]; exact hr⟩
  · rw [hb, he]
    bv_omega
  · rw [ht, he]
    bv_omega

theorem Forked.onStack {k k' : Kernel} {contextEsp : Word} {child : PcbRef}
    (h : Kernel.Forked k contextEsp child k') (hk : k.pmm.Ok) (hf : k.pmm.pmmAllocFrame.1 ≠ 0#32)
    (hp : OnStack k.cur) (hl : k.cur.stackBase ≤ contextEsp) (hu : contextEsp < k.cur.stackTop) :
    OnStack (k'.pcbs child) := by
  have hr := Pmm.pmmAllocFrame_range hk hf
  obtain ⟨hh, hb, ht, he⟩ := h.stack
  rw [hp.top] at hu
  have hbounds := relocated_bounds hp.bound hr hl hu
  exact ⟨hh, by rw [hb, he]; exact hbounds.1, by rw [ht, he]; exact hbounds.2, by rw [ht, hb],
    by rw [hb]; exact hr⟩

theorem Stacks.creating {s : OsState} (h : s.Stacks) (hk : s.kernel.pmm.Ok) {entry : Word}
    {created : Option PcbRef × Kernel}
    (hf : entry ≠ 0#32 ∧ s.kernel.freeSlot ≠ none → s.kernel.pmm.pmmAllocFrame.1 ≠ 0#32)
    (hnone : s.kernel.createTarget entry = none → created.2 = s.kernel)
    (hsome : ∀ p, s.kernel.createTarget entry = some p → Kernel.Created s.kernel p created.2) :
    (s.creating entry created).Stacks := by
  unfold OsState.creating
  split
  · rename_i hn
    rw [hnone hn]
    exact h
  · rename_i p hp
    have hc := hsome p hp
    have hslot := (Kernel.createTarget_some hp).2
    have hne : s.kernel.createTarget entry ≠ none := by rw [hp]; exact Option.some_ne_none p
    refine h.born (Kernel.freeSlot_some hslot).1 (fun q hq => ?_)
      (Created.onStack hc hk (hf ((Kernel.findsSlot_iff _ _).mpr hne)))
    rw [hc.others q hq]

theorem Stacks.fork {s : OsState} (h : s.Stacks) (hk : s.kernel.pmm.Ok)
    (hr : s.kernel.cur.state = .running) {contextEsp : Word} (hi : s.Interrupts contextEsp) :
    (s.next (.fork contextEsp)).Stacks := by
  simp only [next]
  split
  · rename_i hn
    have hu := Kernel.schedulerFork_refused hn contextEsp
    refine h.of_same ?_ fun p _ hp => ?_
    · rcases hu.pcbs 0 with hq | ⟨_, h0, _⟩
      · rw [hq]
      · exact absurd rfl h0
    · rcases hu.pcbs p with hq | ⟨ht, _, hq⟩
      · rw [hq] at hp ⊢
        exact ⟨hp, rfl, rfl, rfl, rfl⟩
      · rw [hq] at hp
        exact absurd ht hp
  · rename_i child hc
    obtain ⟨hs, hz, hslot⟩ := Kernel.forkTarget_some hc
    have hf := Kernel.schedulerFork_spec hc contextEsp
    have hcur : s.kernel.current ≠ 0 := by
      intro h0
      rw [Kernel.cur, h0, h.shell] at hs
      cases hs
    have ht : s.kernel.cur.state ≠ .terminated := by rw [hr]; decide
    have hstack := hi hcur ht
    exact h.born (Kernel.freeSlot_some hslot).1 hf.others
      (Forked.onStack hf hk hz (h.live _ hcur ht) hstack.1 hstack.2)

theorem Stacks.kill {s : OsState} (h : s.Stacks) (hs : s.ShellInv) {contextEsp : Word}
    (hctx : contextEsp ≠ 0#32) (pid : Word) : (s.next (.kill contextEsp pid)).Stacks := by
  simp only [next]
  rcases Kernel.schedulerKill_cases s.kernel contextEsp pid with ⟨_, he⟩ | ⟨p, hp, hz, hcase⟩
  · rw [he]
    exact ⟨h.shell, h.live⟩
  · have hends := (Kernel.killTarget_spec s.kernel p).1
    have h0 : p ≠ 0 := by
      rintro rfl
      exact hz ((Kernel.processGet_some hp).1.symm.trans hs.ready.pid)
    have hk : ({ s with kernel := (s.kernel.killTarget p).setEax contextEsp 0#32 } : OsState).Stacks :=
      h.ended h0 (hends.setEax contextEsp 0#32)
    rcases hcase with ⟨_, he⟩ | ⟨hc, he⟩
    · rw [he]
      exact ⟨hk.shell, hk.live⟩
    · rw [he]
      obtain ⟨woken, hd⟩ := Kernel.dispatch_spec (hs.killed hp hz contextEsp).ready hctx false
      subst hc
      exact hk.dispatched hd fun _ ht => absurd (hends.setEax contextEsp 0#32).cur_terminated ht

theorem step_stacks {s : OsState} (h : s.Stacks) (hs : s.ShellInv) (hk : s.kernel.pmm.Ok)
    (a : Action) (he : s.Enabled a) (hf : s.FramesSuffice a) : (s.next a).Stacks := by
  cases a with
  | start => exact ⟨h.shell, h.live⟩
  | create entry name =>
    refine h.creating hk hf (fun hn => ?_) (fun p hp => (Kernel.processCreateNamed_spec hp name).1)
    rw [Kernel.processCreateNamed_none hn]
  | threadCreate entry arg name =>
    refine h.creating hk hf (fun hn => ?_) (fun p hp => (Kernel.threadCreateNamed_spec hp arg name).1)
    rw [Kernel.threadCreateNamed_none hn]
  | fork contextEsp => exact h.fork hk he.2.1 hf
  | tick contextEsp =>
    obtain ⟨woken, hd⟩ := Kernel.dispatch_spec hs.ready he true
    simp only [next, Kernel.schedulerTick]
    cases s.kernel.timerStarted with
    | false => exact ⟨h.shell, h.live⟩
    | true => exact h.dispatched hd hf
  | yield contextEsp =>
    obtain ⟨woken, hd⟩ := Kernel.dispatch_spec hs.ready he.1 false
    exact h.dispatched hd hf
  | sleep ms => exact h.of_keeps (Kernel.sleep_keeps (by rw [he.1]; decide) ms)
  | blockForever =>
    exact h.of_keeps (Kernel.blockForever_frame _ (by rw [he.1]; decide)).pcbs
  | wake p =>
    cases p with
    | none => exact h
    | some p => exact h.of_keeps (Kernel.wake_frame _ p).pcbs
  | kill contextEsp pid => exact h.kill hs he.1 pid
  | exit =>
    simp only [next]
    by_cases hp : s.kernel.cur.pid = 0#32
    · rw [Kernel.processExit, if_pos hp]
      exact h
    · exact h.ended (hs.current_ne hp) (Kernel.processExit_spec _ hp).1
  | mutexInit m => exact h.of_keeps (Kernel.lazyInit_frame _ (.mutex m)).pcbs
  | semInit i initialCount => exact ⟨h.shell, h.live⟩
  | rwlockInit r => exact ⟨h.shell, h.live⟩
  | acquire l => exact ⟨h.shell, h.live⟩
  | unlock l => exact ⟨h.shell, h.live⟩
  | proceed => exact h.of_keeps (hs.advance_frame he.1).pcbs

theorem boot_stacks (b : Boot) : (boot b).Stacks := by
  refine ⟨rfl, fun p h0 hp => ?_⟩
  simp [boot, Kernel.schedulerInit, h0, Kernel.emptyPcb] at hp

theorem Reached.stacks {s : OsState} (h : Reached FramesSuffice s) : s.Stacks := by
  obtain ⟨b, h⟩ := h
  exact (h.invariant (I := fun s => (s.ShellInv ∧ s.kernel.pmm.Ok) ∧ s.Stacks)
    ⟨⟨boot_shell b, Pmm.pmmInit_ok _ _⟩, boot_stacks b⟩
    fun s a hi he hf => ⟨⟨step_shell hi.1.1 a he, step_pmm hi.1.2 hi.1.1 a he⟩,
      step_stacks hi.2 hi.1.1 hi.1.2 a he hf⟩).2

/-- In every reachable state a creation that fails leaves everything as it was
exactly when it is not one of a process or a thread that has found a slot; and
in every run without such failures, every process that can run is on a stack of
its own. -/
theorem failed_creation_iff (s : OsState) :
    (Reached Any s → ∀ c : CreateCall, c.Fails s.kernel →
      (s.kernel.Untouched (c.run s.kernel) ↔ ¬ c.FindsSlot s.kernel)) ∧
    (Reached FramesSuffice s → ∀ p, p ≠ 0 →
      ((s.kernel.pcbs p).state = .ready ∨ (s.kernel.pcbs p).state = .running) →
      (s.kernel.pcbs p).hasStack = true ∧ (s.kernel.pcbs p).stackBase ≤ (s.kernel.pcbs p).esp ∧
        (s.kernel.pcbs p).esp < (s.kernel.pcbs p).stackTop) := by
  refine ⟨fun h c hf => Kernel.failed_untouched_iff h.pmm hf, fun h p h0 hp => ?_⟩
  have ht : (s.kernel.pcbs p).state ≠ .terminated := by
    rcases hp with hp | hp <;> rw [hp] <;> decide
  have hstack := h.stacks.live p h0 ht
  exact ⟨hstack.hasStack, hstack.lower, hstack.upper⟩

/-- Memory for one stack. -/
def oneFrame : Boot :=
  ⟨[⟨0x100000#64, 0x1000#64, 1#32⟩], 0x20000#32, fun _ => 0#8, 0x10000#32, 0#8⟩

theorem sleepRun_on_stack :
    (machine.Accepts Any (boot oneFrame) [.create 0x11000#32 none] ∧
      (let k := (machine.after (boot oneFrame) [.create 0x11000#32 none]).kernel
       k.forkTarget = none ∧ k.Untouched ((CreateCall.fork 0x90000#32).run k))) ∧
    machine.Accepts FramesSuffice (boot smallBoot) sleepRun ∧
      (let s := machine.after (boot smallBoot) [.create 0x11000#32 none, .start]
       (s.kernel.pcbs 1).state = .ready ∧ (s.kernel.pcbs 1).hasStack = true) := by
  have hone : machine.Accepts Any (boot oneFrame) [.create 0x11000#32 none] := by
    decide +kernel
  have hfork : (machine.after (boot oneFrame) [.create 0x11000#32 none]).kernel.forkTarget = none := by
    decide +kernel
  have hrun : machine.Accepts FramesSuffice (boot smallBoot) sleepRun := by decide +kernel
  have hshort : machine.Accepts FramesSuffice (boot smallBoot) [.create 0x11000#32 none, .start] := by
    decide +kernel
  have hready : ((machine.after (boot smallBoot) [.create 0x11000#32 none, .start]).kernel.pcbs 1).state
      = .ready := by decide +kernel
  refine ⟨⟨hone, hfork, ?_⟩, hrun, hready, ?_⟩
  · exact ((failed_creation_iff _).1 ⟨oneFrame, .accepts .start hone⟩ (.fork 0x90000#32) hfork).mpr id
  · exact ((failed_creation_iff _).2 ⟨smallBoot, .accepts .start hshort⟩ 1 (by decide)
      (.inl hready)).1

/-- With memory for one stack the second creation returns NULL and leaves a
READY process that has none. -/
theorem exhausted_creation_left_ready :
    (let s := machine.after (boot oneFrame) [.create 0x11000#32 none]
     Reached Any s ∧ (CreateCall.process 0x11000#32 none).Fails s.kernel ∧
       ¬ s.kernel.Untouched ((CreateCall.process 0x11000#32 none).run s.kernel)) ∧
    (let s := machine.after (boot oneFrame) [.create 0x11000#32 none, .create 0x11000#32 none]
     Reached Any s ∧ (s.kernel.pcbs 2).state = .ready ∧
       (s.kernel.pcbs 2).hasStack = false ∧ (s.kernel.pcbs 2).esp = 0#32) := by
  refine ⟨⟨⟨oneFrame, ?_⟩, by decide +kernel, fun h => ?_⟩, ⟨oneFrame, ?_⟩, by decide +kernel,
    by decide +kernel, by decide +kernel⟩
  · exact .accepts .start (by decide +kernel)
  · exact absurd (h.live 2) (by decide +kernel)
  · exact .accepts .start (by decide +kernel)

end OsState

end SengOS
