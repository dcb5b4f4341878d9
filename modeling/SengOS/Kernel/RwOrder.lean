import SengOS.Kernel.RwProtocol

/-!
# Writers and later readers

A queued writer holds the readers back that call after it. The queue alone does
that: `rwlock_read_unlock` takes the writer out of the queue and wakes it, and
until the writer has run its loop again nothing in the lock shows that it waits.
-/

namespace SengOS

/-- The notes of a reader-writer lock with, for every writer that was put in the
queue and has not acquired the lock since, the number of the next call at that
moment; and the readers that were let in before a writer that had queued first. -/
structure OrderLog extends RwLog where
  since : PcbRef → Option Nat
  overtakes : List (PcbRef × PcbRef)

def OrderLog.empty : OrderLog := ⟨RwLog.empty, fun _ => none, []⟩

namespace OsState

/-- The processes that an action lets into the read section. -/
def admitted (r : Nat) (s : OsState) : Action → List PcbRef
  | .proceed =>
    if s.here = .attempt (.read r) then
      if (s.kernel.readAttempt r).1 = .got then [s.kernel.current] else []
    else if s.here = .release (.write r) then
      s.kernel.leaving (s.kernel.writeRelease r) (.read r)
    else []
  | _ => []

/-- The last call of `p` started after writer `w` was put in the queue. -/
def overtaken (s : OsState) (since : PcbRef → Option Nat) (p w : PcbRef) : Bool :=
  (since w).any (· ≤ s.call p)

/-- The writers that wait for the lock after an action. -/
def noteSince (r : Nat) (s : OsState) (a : Action) (since : PcbRef → Option Nat) :
    PcbRef → Option Nat :=
  match a with
  | .proceed =>
    if s.here = .attempt (.write r) then
      Function.update since s.kernel.current
        (if (s.kernel.writeAttempt r).1 = .got then none
        else (since s.kernel.current).or (some s.nextCall))
    else if s.here = .release (.write r) then
      fun w => if w ∈ s.kernel.leaving (s.kernel.writeRelease r) (.write r) then none else since w
    else since
  | _ => since

def noteOrder (r : Nat) (s : OsState) (a : Action) (log : OrderLog) : OrderLog where
  toRwLog := noteRw r s a log.toRwLog
  since := noteSince r s a log.since
  overtakes := log.overtakes ++
    ((s.admitted r a).product (List.finRange 16)).filter fun x => s.overtaken log.since x.1 x.2

/-- No reader goes in past a writer that was woken and has not tried again, if
that writer had queued before the reader called. -/
def OrderRun (r : Nat) (x : OsState × OrderLog) (a : Action) : Prop :=
  x.1.CallRun a ∧
    match a with
    | .proceed =>
      (x.1.here = .attempt (.read r) → (x.1.kernel.rwlocks r).writer = none →
        (x.1.kernel.rwlocks r).writerWaiters = [] →
          ∀ w ∈ x.2.woken, x.1.overtaken x.2.since x.1.kernel.current w = false) ∧
      (x.1.here = .release (.write r) → (x.1.kernel.rwlocks r).writerWaiters = [] →
        ∀ p ∈ (x.1.kernel.rwlocks r).readerWaiters, ∀ w ∈ x.2.woken,
          x.1.overtaken x.2.since p w = false)
    | _ => True

structure OrderInv (r : Nat) (x : OsState × OrderLog) : Prop where
  shell : x.1.ShellInv
  wait : x.1.WaitInv
  waiting : ∀ w, x.2.since w ≠ none → w ∈ x.1.kernel.waiters (.write r) ∨ w ∈ x.2.woken
  order : x.2.overtakes = []

section
variable {r : Nat} {x : OsState × OrderLog}

theorem overtaken_none {s : OsState} {since : PcbRef → Option Nat} {p w : PcbRef}
    (h : since w = none) : s.overtaken since p w = false := by
  rw [overtaken, h]
  rfl

/-- Readers go in only at an empty writers' queue. -/
theorem OrderInv.admits (h : OrderInv r x) (hrun : OrderRun r x .proceed)
    {p : PcbRef} (hp : p ∈ x.1.admitted r .proceed) (w : PcbRef) :
    x.1.overtaken x.2.since p w = false := by
  by_cases hs : x.2.since w = none
  · exact overtaken_none hs
  · have hwaits := h.waiting w hs
    simp only [admitted] at hp
    split at hp
    · rename_i here
      split at hp
      · rename_i got
        obtain rfl := List.mem_singleton.mp hp
        obtain ⟨free, nobody, _⟩ := Kernel.readAttempt_got got
        have hw : w ∈ x.2.woken := by
          refine hwaits.resolve_left fun hq => ?_
          rw [show x.1.kernel.waiters (.write r) = [] from nobody] at hq
          cases hq
        exact hrun.2.1 here free nobody w hw
      · cases hp
    · split at hp
      · rename_i here
        rcases Kernel.writeRelease_wakes (k := x.1.kernel) r with ⟨_, hwakes⟩ | ⟨nobody, hwakes⟩
        · rw [hwakes.leaving_beside (.read r) nofun] at hp
          cases hp
        · rw [hwakes.leaving (h.wait.nodup _)] at hp
          have hw : w ∈ x.2.woken := by
            refine hwaits.resolve_left fun hq => ?_
            rw [show x.1.kernel.waiters (.write r) = [] from nobody] at hq
            cases hq
          exact hrun.2.2 here nobody p hp w hw
      · cases hp

theorem noteSince_rests {s : OsState} (since : PcbRef → Option Nat)
    (h : s.here ≠ .attempt (.write r) ∧ s.here ≠ .release (.write r)) :
    noteSince r s .proceed since = since := by
  simp only [noteSince, h.1, h.2, if_false]

/-- The sections that leave the queue of the writers alone. -/
theorem Proceeds.writers {s : OsState} {result : Point × Kernel} (h : Proceeds s result)
    (hrun : s.CallRun .proceed)
    (hne : s.here ≠ .attempt (.write r) ∧ s.here ≠ .release (.write r))
    (hread : s.here ≠ .release (.read r)) :
    result.2.waiters (.write r) = s.kernel.waiters (.write r) := by
  cases h with
  | init l here => exact congrFun (lazyInit_waiters (hrun.2.1 l here)) _
  | signalInit i here => exact congrFun (semaphoreInit_waiters (hrun.2.2 i here) _) _
  | got l here got rests =>
    apply rests.beside
    rintro rfl
    exact hne.1 here
  | waits l here waits joins =>
    apply joins.beside
    rintro rfl
    exact hne.1 here
  | returns l here granted => exact congrFun (Kernel.waiters_of_locks (Kernel.settle_locks _ l)) _
  | retries l here granted => rfl
  | release l here =>
    apply congrArg Rwlock.writerWaiters
    apply (Kernel.release_only s.kernel l).rwlocks r
    · rintro rfl
      exact hread here
    · rintro rfl
      exact hne.2 here

/-- A writer that has not acquired the lock waits in the queue or was woken; `k` is the kernel
after the section. -/
def StillWaits (r : Nat) (x : OsState × OrderLog) (k : Kernel) (w : PcbRef) : Prop :=
  noteSince r x.1 .proceed x.2.since w ≠ none →
    w ∈ k.waiters (.write r) ∨ w ∈ (noteRw r x.1 .proceed x.2.toRwLog).woken

/-- Sections that keep the queue and the notes. -/
theorem OrderInv.rests (h : OrderInv r x) {k : Kernel}
    (hne : x.1.here ≠ .attempt (.write r) ∧ x.1.here ≠ .release (.write r))
    (hread : x.1.here ≠ .release (.read r))
    (hq : k.waiters (.write r) = x.1.kernel.waiters (.write r)) (w : PcbRef) :
    StillWaits r x k w := by
  intro hs
  rw [noteSince_rests _ hne] at hs
  have hwoken : (noteRw r x.1 .proceed x.2.toRwLog).woken = x.2.woken := by
    simp only [noteRw, hne.1, hne.2, hread, if_false]
    split
    · split <;> rfl
    · rfl
  rw [hq, hwoken]
  exact h.waiting w hs

/-- The section of `rwlock_write_lock` that takes the lock. -/
theorem OrderInv.takes (h : OrderInv r x) (here : x.1.here = .attempt (.write r)) {k : Kernel}
    (got : (x.1.kernel.writeAttempt r).1 = .got)
    (hq : k.waiters (.write r) = x.1.kernel.waiters (.write r)) (w : PcbRef) :
    StillWaits r x k w := by
  intro hs
  have hnote : noteSince r x.1 .proceed x.2.since =
      Function.update x.2.since x.1.kernel.current none := by
    simp [noteSince, here, got]
  rw [hnote] at hs
  have hwc : w ≠ x.1.kernel.current := by
    rintro rfl
    exact hs (Function.update_self _ _ _)
  rw [Function.update_of_ne hwc] at hs
  rw [hq]
  refine (h.waiting w hs).imp_right fun hw => ?_
  simp [noteRw, here, hw, hwc]

/-- The section of `rwlock_write_lock` that joins the queue. -/
theorem OrderInv.queues (h : OrderInv r x) (here : x.1.here = .attempt (.write r)) {k : Kernel}
    (hq : k.waiters (.write r) = x.1.kernel.waiters (.write r) ++ [x.1.kernel.current])
    (w : PcbRef) : StillWaits r x k w := by
  intro hs
  rw [hq]
  by_cases hwc : w = x.1.kernel.current
  · rw [hwc]
    exact .inl (List.mem_append_right _ List.mem_cons_self)
  · have hold : x.2.since w ≠ none := by
      simpa [noteSince, here, Function.update_of_ne hwc] using hs
    refine (h.waiting w hold).imp (List.mem_append_left _) fun hw => ?_
    simp [noteRw, here, hw, hwc]

/-- `rwlock_read_unlock` notes the writer that it wakes. -/
theorem OrderInv.readLeaves (h : OrderInv r x) (here : x.1.here = .release (.read r)) (w : PcbRef) :
    StillWaits r x (x.1.kernel.readRelease r) w := by
  intro hs
  have hwakes := Kernel.readRelease_wakes (k := x.1.kernel) r
  have hold : x.2.since w ≠ none := by
    rwa [noteSince_rests _ (by rw [here]; exact ⟨nofun, nofun⟩)] at hs
  have hwoken : (noteRw r x.1 .proceed x.2.toRwLog).woken =
      x.2.woken ++ x.1.kernel.leaving (x.1.kernel.readRelease r) (.write r) := by
    simp [noteRw, here]
  rw [hwoken, hwakes.leaving (h.wait.nodup _)]
  rcases h.waiting w hold with hq | hw
  · rw [hwakes.queue] at hq
    exact (List.mem_append.mp hq).symm.imp_right (List.mem_append_right _)
  · exact .inr (List.mem_append_left _ hw)

/-- `rwlock_write_unlock` gives the lock to the writer that leaves the queue. -/
theorem OrderInv.writeLeaves (h : OrderInv r x) (here : x.1.here = .release (.write r)) (w : PcbRef) :
    StillWaits r x (x.1.kernel.writeRelease r) w := by
  intro hs
  have hwoken : (noteRw r x.1 .proceed x.2.toRwLog).woken = x.2.woken := by
    simp [noteRw, here]
  have hnote : noteSince r x.1 .proceed x.2.since w =
      if w ∈ x.1.kernel.leaving (x.1.kernel.writeRelease r) (.write r) then none
      else x.2.since w := by
    simp [noteSince, here]
  rw [hnote] at hs
  split at hs
  · exact absurd rfl hs
  · rename_i hout
    rw [hwoken]
    refine (h.waiting w hs).imp_left fun hq => ?_
    by_contra hnot
    exact hout (List.mem_filter.mpr ⟨hq, decide_eq_true hnot⟩)

theorem OrderInv.waits (h : OrderInv r x) (he : x.1.Enabled .proceed)
    (hrun : OrderRun r x .proceed) (w : PcbRef) :
    StillWaits r x (x.1.kernel.advance x.1.here).2 w := by
  have hproc := h.wait.proceeds h.shell he hrun.1
  have hwriters := hproc.writers (r := r) hrun.1
  by_cases hattempt : x.1.here = .attempt (.write r)
  · generalize x.1.kernel.advance x.1.here = result at hproc
    cases hproc with
    | got l here got rests =>
      obtain rfl : l = .write r := Point.attempt.inj (here.symm.trans hattempt)
      exact h.takes hattempt got rests.queue.symm w
    | waits l here waits joins =>
      obtain rfl : l = .write r := Point.attempt.inj (here.symm.trans hattempt)
      exact h.queues hattempt joins.queue w
    | init l here | signalInit i here | returns l here granted | retries l here granted
    | release l here =>
      rw [hattempt] at here
      cases here
  · by_cases hwrite : x.1.here = .release (.write r)
    · rw [hwrite]
      exact h.writeLeaves hwrite w
    · by_cases hread : x.1.here = .release (.read r)
      · rw [hread]
        exact h.readLeaves hread w
      · exact h.rests ⟨hattempt, hwrite⟩ hread (hwriters ⟨hattempt, hwrite⟩ hread) w

theorem OrderInv.next (h : OrderInv r x) (a : Action) (he : x.1.Enabled a) (hrun : OrderRun r x a) :
    OrderInv r ((machine.watched (noteOrder r)).next x a) := by
  refine ⟨step_shell h.shell a he, h.wait.next h.shell he hrun.1, ?_, ?_⟩
  · show ∀ w, noteSince r x.1 a x.2.since w ≠ none →
      w ∈ (x.1.next a).kernel.waiters (.write r) ∨ w ∈ (noteRw r x.1 a x.2.toRwLog).woken
    by_cases ha : a = .proceed
    · subst ha
      exact h.waits he hrun
    · rw [h.wait.waiters_next h.shell he hrun.1 ha]
      cases a with
      | proceed => exact absurd rfl ha
      | _ => exact h.waiting
  · show x.2.overtakes ++ ((x.1.admitted r a).product (List.finRange 16)).filter
      (fun y => x.1.overtaken x.2.since y.1 y.2) = []
    rw [h.order, List.nil_append, List.filter_eq_nil_iff]
    rintro ⟨p, w⟩ hpw
    have hp : p ∈ x.1.admitted r a := (List.pair_mem_product.mp hpw).1
    cases a with
    | proceed => simp [h.admits hrun hp w]
    | _ => cases hp

/-- In every run in which no reader goes in past a woken writer, no writer is
overtaken by a reader that called after it had queued. -/
theorem reachable_order {b : Boot}
    (h : (machine.watched (noteOrder r)).Reach (OrderRun r) (boot b, OrderLog.empty) x) :
    x.2.overtakes = [] := by
  have hinv : OrderInv r x := by
    refine h.invariant ⟨boot_shell b, boot_wait b, fun w hw => absurd rfl hw, rfl⟩ ?_
    exact fun x a hx he hrun => hx.next a he hrun
  exact hinv.order

end

/-- Steps of `RwRun` that let no reader in while a woken writer is on its way. -/
def orderStep (r : Nat) (x : OsState × OrderLog) (a : Action) : Bool :=
  rwStep r (x.1, x.2.toRwLog) a && match a with
    | .proceed => x.1.here != .attempt (.read r) && x.1.here != .release (.write r) ||
        x.2.woken.isEmpty
    | _ => true

theorem orderStep_orderRun {r : Nat} {x : OsState × OrderLog} {a : Action}
    (h : orderStep r x a = true) : OrderRun r x a := by
  simp only [orderStep, Bool.and_eq_true] at h
  refine ⟨(rwStep_rwRun h.1).1, ?_⟩
  cases a with
  | proceed =>
    have ho := h.2
    simp only [Bool.or_eq_true, Bool.and_eq_true, bne_iff_ne, List.isEmpty_iff] at ho
    refine ⟨fun here _ _ w hw => ?_, fun here _ p _ w hw => ?_⟩
    · rcases ho with ⟨hne, _⟩ | ho
      · exact absurd here hne
      · rw [ho] at hw
        cases hw
    · rcases ho with ⟨_, hne⟩ | ho
      · exact absurd here hne
      · rw [ho] at hw
        cases hw
  | _ => trivial

/-- A reader is in the lock and a writer is queued; the reader leaves, and
another process calls `rwlock_read_lock` before the writer is on the CPU. -/
def passRun : List Action :=
  [.create 0x11000#32 none, .create 0x12000#32 none, .create 0x13000#32 none, .rwlockInit 0,
    .yield 0x90000#32, .acquire (.read 0), .proceed, .yield 0x100F00#32, .yield 0x101F00#32,
    .acquire (.write 0), .proceed, .yield 0x102F00#32, .yield 0x90000#32, .unlock (.read 0), .proceed,
    .yield 0x100F00#32, .acquire (.read 0), .proceed]

/-- The run before the section of the second reader. -/
theorem passRun_ordered :
    (machine.watched (noteOrder 0)).Accepts (fun x a => orderStep 0 x a = true)
        (boot smallBoot, OrderLog.empty) (passRun.take 17) ∧
      (let x := (machine.watched (noteOrder 0)).after (boot smallBoot, OrderLog.empty) (passRun.take 17)
       x.1.here = .attempt (.read 0) ∧ x.2.woken = [3] ∧ x.2.overtakes = []) := by
  have hrun : (machine.watched (noteOrder 0)).Accepts (fun x a => orderStep 0 x a = true)
        (boot smallBoot, OrderLog.empty) (passRun.take 17) ∧
      (let x := (machine.watched (noteOrder 0)).after (boot smallBoot, OrderLog.empty) (passRun.take 17)
       x.1.here = .attempt (.read 0) ∧ x.2.woken = [3]) := by
    decide +kernel
  have hreach : (machine.watched (noteOrder 0)).Reach (OrderRun 0) (boot smallBoot, OrderLog.empty)
      ((machine.watched (noteOrder 0)).after (boot smallBoot, OrderLog.empty) (passRun.take 17)) :=
    .mono (fun _ _ => orderStep_orderRun) (.accepts .start hrun.1)
  exact ⟨hrun.1, hrun.2.1, hrun.2.2, reachable_order hreach⟩

/-- The writer in slot 3 is overtaken by the reader in slot 2. -/
theorem queued_writer_overtaken :
    ∃ x, (machine.watched (noteOrder 0)).Reach (fun x a => RwRun 0 (x.1, x.2.toRwLog) a)
        (boot smallBoot, OrderLog.empty) x ∧
      x.2.overtakes = [(2, 3)] ∧ (x.1.kernel.rwlocks 0).readers = 1#32 ∧
      (x.1.kernel.rwlocks 0).writer = none ∧ (x.1.kernel.pcbs 3).state = .ready := by
  have hrun : (machine.watched (noteOrder 0)).Accepts (fun x a => rwStep 0 (x.1, x.2.toRwLog) a = true)
        (boot smallBoot, OrderLog.empty) passRun ∧
      (let x := (machine.watched (noteOrder 0)).after (boot smallBoot, OrderLog.empty) passRun
       x.2.overtakes = [(2, 3)] ∧ (x.1.kernel.rwlocks 0).readers = 1#32 ∧
         (x.1.kernel.rwlocks 0).writer = none ∧ (x.1.kernel.pcbs 3).state = .ready) := by
    decide +kernel
  exact ⟨_, .mono (fun _ _ => rwStep_rwRun) (.accepts .start hrun.1), hrun.2⟩

end OsState

end SengOS
