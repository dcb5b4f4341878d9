import SengOS.Lib.Inheritance
import SengOS.Kernel.MutexSections

/-!
# What the kernel does to the levels

The owner of a mutex is to be at least as urgent as everybody in its queue. The
section of `mutex_lock` sees to that for every chain of waiting owners. What can
undo it is a hand-off to a waiter less urgent than one behind it, an unlocking
owner that looks only at the mutexes of its list, and a dispatch that demotes an
owner.
-/

namespace SengOS

namespace Kernel

/-- The level of a process in the feedback queue; the lower, the more urgent. -/
def level (k : Kernel) (p : PcbRef) : Nat := (k.pcbs p).priority.toNat

/-- Process `w` is in the queue of a mutex that `o` owns. -/
def WaitsFor (k : Kernel) (w o : PcbRef) : Prop :=
  ∃ m, (k.mutexes m).owner = some o ∧ w ∈ (k.mutexes m).waiters

/-- The owner of the mutex that the PCB of `p` points to. -/
def holder (k : Kernel) (p : PcbRef) : Option PcbRef :=
  (k.pcbs p).waitingMutex.bind fun m => (k.mutexes m).owner

/-- Nobody waits for an owner less urgent than itself. -/
def Inherits (k : Kernel) : Prop := Inherited k.WaitsFor k.level

section
variable {k k' : Kernel}

theorem waitsFor_of_mutexes (h : k'.mutexes = k.mutexes) : k'.WaitsFor = k.WaitsFor := by
  unfold WaitsFor
  rw [h]

theorem holder_congr (hw : SameWaits k k') (hm : k'.mutexes = k.mutexes) : k'.holder = k.holder := by
  funext p
  unfold holder
  rw [(hw p).2, hm]

theorem modify_level {p : PcbRef} {f : Pcb → Pcb}
    (h : (f (k.pcbs p)).priority = (k.pcbs p).priority) : (k.modify p f).level = k.level := by
  funext q
  unfold level
  rw [modify_pcbs]
  split
  · rename_i hq
    rw [h, hq]
  · rfl

theorem ownerAdd_level (k : Kernel) (p : PcbRef) (m : Nat) : (k.ownerAdd p m).level = k.level := by
  apply modify_level
  split <;> rfl

theorem blockForever_level (k : Kernel) : k.schedulerBlockForever.level = k.level := by
  unfold schedulerBlockForever
  split
  · rfl
  · exact modify_level rfl

theorem wake_level (k : Kernel) (p : PcbRef) : (k.schedulerWake p).level = k.level := by
  unfold schedulerWake
  split
  · rfl
  · exact modify_level rfl

/-! ## The boost -/

theorem raiseTo_level (p w : PcbRef) (k : Kernel) :
    (raiseTo p k w).level = Function.update k.level p (min (k.level p) (k.level w)) := by
  funext q
  unfold raiseTo level
  by_cases hq : q = p
  · subst hq
    rw [Function.update_self]
    split
    · rename_i hlt
      rw [modify_pcbs_self]
      exact (min_eq_right (BitVec.le_of_lt hlt)).symm
    · rename_i hle
      exact (min_eq_left (BitVec.not_lt.mp hle)).symm
  · rw [Function.update_of_ne hq]
    split
    · rw [modify_pcbs_ne _ _ _ hq]
    · rfl

theorem raiseTo_holder (p w : PcbRef) (k : Kernel) : (raiseTo p k w).holder = k.holder :=
  holder_congr (raiseTo_sameWaits k p w) (mutexes_of_locks (raiseTo_locks k p w))

theorem propagatePriority_succ (k : Kernel) (guard : Nat) (p : PcbRef) :
    k.propagatePriority (guard + 1) p =
      match k.holder p with
      | none => k
      | some owner =>
        if k.level owner ≤ k.level p then k
        else (raiseTo owner k p).propagatePriority guard owner := rfl

/-- `propagate_priority` hands the level down the chain of the owners. -/
theorem propagatePriority_level (k : Kernel) (guard : Nat) (p : PcbRef) :
    (k.propagatePriority guard p).level = propagate k.holder k.level guard p := by
  induction guard generalizing k p with
  | zero => rfl
  | succ guard ih =>
    rw [propagatePriority_succ]
    unfold propagate
    cases k.holder p with
    | none => rfl
    | some owner =>
      dsimp only
      split
      · rfl
      · rename_i hlt
        rw [ih, raiseTo_holder, raiseTo_level, min_eq_right (Nat.le_of_not_le hlt)]

/-- The boost is the first turn of the loop. -/
theorem boostOwner_eq {m : Nat} (h : k.cur.waitingMutex = some m) :
    k.boostOwner m = k.propagatePriority 17 k.current := by
  have hholder : k.holder k.current = (k.mutexes m).owner := by
    unfold holder
    rw [show (k.pcbs k.current).waitingMutex = some m from h]
    rfl
  rw [propagatePriority_succ, hholder]
  unfold boostOwner
  cases (k.mutexes m).owner with
  | none => rfl
  | some owner =>
    dsimp only
    by_cases hle : k.level owner ≤ k.level k.current
    · rw [if_pos hle]
      exact if_neg (Nat.not_lt.mpr hle)
    · rw [if_neg hle]
      exact if_pos (Nat.lt_of_not_le hle)

/-- There are not more than sixteen processes in a chain. -/
theorem boostOwner_inherits {m : Nat} (hw : k.cur.waitingMutex = some m)
    (hqueued : ∀ m w, w ∈ (k.mutexes m).waiters → (k.pcbs w).waitingMutex = some m)
    (h : Inherited (fun w o => w ≠ k.current ∧ k.WaitsFor w o) k.level) :
    (k.boostOwner m).Inherits := by
  unfold Inherits
  rw [boostOwner_eq hw, waitsFor_of_mutexes (mutexes_of_locks (propagatePriority_locks k _ _)),
    propagatePriority_level]
  apply h.propagate
  · rintro w o ⟨n, ho, hn⟩
    unfold holder
    rw [hqueued n w hn]
    exact ho
  · exact (Finset.card_le_univ _).trans (by decide)

/-- The running process joins the queue and boosts every owner in the chain. -/
theorem queued_inherits {m : Nat} {q : List PcbRef} (h : k.Inherits)
    (hqueued : ∀ m w, w ∈ (k.mutexes m).waiters → (k.pcbs w).waitingMutex = some m)
    (hcur : ∀ m, k.current ∉ (k.mutexes m).waiters)
    (hq : waitqAdd (k.mutexes m).waiters k.current = some q) :
    (((k.setMutex m { k.mutexes m with waiters := q }).modify k.current fun q =>
      { q with waitingMutex := some m }).boostOwner m).Inherits := by
  generalize hk₁ : (k.setMutex m { k.mutexes m with waiters := q }).modify k.current
    (fun q => { q with waitingMutex := some m }) = k₁
  have hcurrent : k₁.current = k.current := by rw [← hk₁]; rfl
  have hlevel : k₁.level = k.level := by
    rw [← hk₁]
    exact modify_level rfl
  have hself : k₁.cur.waitingMutex = some m := by
    rw [cur, hcurrent, ← hk₁, modify_pcbs_self]
  have hothers : ∀ p, p ≠ k.current → k₁.pcbs p = k.pcbs p := by
    intro p hp
    rw [← hk₁, modify_pcbs_ne _ _ _ hp]
    rfl
  have howner : ∀ n, (k₁.mutexes n).owner = (k.mutexes n).owner := by
    intro n
    rw [← hk₁]
    by_cases hn : n = m
    · rw [hn]
      simp [setMutex]
    · simp [setMutex, hn]
  have hwaiters : ∀ n w, w ∈ (k₁.mutexes n).waiters →
      w ∈ (k.mutexes n).waiters ∨ (w = k.current ∧ n = m) := by
    intro n w hw
    rw [← hk₁] at hw
    by_cases hn : n = m
    · subst hn
      have hw : w ∈ q := by simpa [setMutex] using hw
      exact (mem_waitqAdd hq hw).imp_right fun he => ⟨he, rfl⟩
    · exact .inl (by simpa [setMutex, hn] using hw)
  apply boostOwner_inherits hself
  · intro n w hw
    rcases hwaiters n w hw with hw | ⟨hw, hn⟩
    · rw [hothers w (fun he => hcur n (he ▸ hw))]
      exact hqueued n w hw
    · rw [hw, hn, ← hcurrent]
      exact hself
  · rintro w o ⟨hwc, n, ho, hw⟩
    rw [hcurrent] at hwc
    rw [hlevel]
    rw [howner] at ho
    exact h w o ⟨n, ho, (hwaiters n w hw).resolve_right fun he => hwc he.1⟩

theorem mutexAttempt_inherits {m : Nat} (h : k.Inherits)
    (hqueued : ∀ m w, w ∈ (k.mutexes m).waiters → (k.pcbs w).waitingMutex = some m)
    (hcur : ∀ m, k.current ∉ (k.mutexes m).waiters)
    (hfree : (k.mutexes m).locked = false → (k.mutexes m).waiters = []) :
    (k.mutexAttempt m).2.Inherits := by
  unfold mutexAttempt
  dsimp only
  split
  · rename_i hl
    have hempty := hfree (by simpa using hl)
    apply Inherited.congr h
    · rintro w o ⟨n, ho, hw⟩
      by_cases hn : n = m
      · rw [hn] at hw
        simp [ownerAdd, setMutex, hempty] at hw
      · simp only [ownerAdd, modify_mutexes, setMutex, Function.update_of_ne hn] at ho hw
        exact ⟨n, ho, hw⟩
    · intro w o _
      rw [ownerAdd_level]
      exact ⟨rfl, rfl⟩
  · split
    · exact h
    · rename_i q hq
      unfold Inherits
      rw [waitsFor_of_mutexes (mutexes_of_locks (blockForever_locks _)), blockForever_level]
      exact queued_inherits h hqueued hcur hq

/-! ## The release -/

/-- A chain of `raise_to` brings `p` to the level of the most urgent of the waiters. -/
theorem raiseAll_level (p : PcbRef) (ws : List PcbRef) (k : Kernel) :
    (∀ q, q ≠ p → (ws.foldl (raiseTo p) k).level q = k.level q) ∧
      (ws.foldl (raiseTo p) k).level p ≤ k.level p ∧
      ∀ w ∈ ws, (ws.foldl (raiseTo p) k).level p ≤ k.level w := by
  induction ws generalizing k with
  | nil => exact ⟨fun _ _ => rfl, Nat.le_refl _, by nofun⟩
  | cons w ws ih =>
    obtain ⟨hothers, hle, hws⟩ := ih (raiseTo p k w)
    have hlevel := raiseTo_level p w k
    have hself : (raiseTo p k w).level p = min (k.level p) (k.level w) := by
      rw [hlevel, Function.update_self]
    have hsame : ∀ q, (raiseTo p k w).level q ≤ k.level q := by
      intro q
      by_cases hq : q = p
      · rw [hq, hself]
        exact min_le_left _ _
      · rw [hlevel, Function.update_of_ne hq]
    rw [List.foldl_cons]
    refine ⟨fun q hq => ?_, hle.trans (hsame p), fun v hv => ?_⟩
    · rw [hothers q hq, hlevel, Function.update_of_ne hq]
    · rcases List.mem_cons.mp hv with rfl | hv
      · rw [hself] at hle
        exact hle.trans (min_le_right _ _)
      · exact (hws v hv).trans (hsame v)

/-- `recompute_priority` looks at the base priority and at the queues of the mutexes in the list. -/
theorem recomputePriority_level (k : Kernel) (p : PcbRef) :
    (∀ q, q ≠ p → (k.recomputePriority p).level q = k.level q) ∧
      (k.recomputePriority p).level p ≤ (k.pcbs p).basePriority.toNat ∧
      ∀ m ∈ (k.pcbs p).ownedMutexList, ∀ w ∈ (k.mutexes m).waiters, w ≠ p →
        (k.recomputePriority p).level p ≤ k.level w := by
  generalize hk₁ : k.modify p (fun q => { q with priority := q.basePriority }) = k₁
  have hself : k₁.pcbs p = { k.pcbs p with priority := (k.pcbs p).basePriority } := by
    rw [← hk₁, modify_pcbs_self]
  have hlevel : ∀ q, q ≠ p → k₁.level q = k.level q := by
    intro q hq
    unfold level
    rw [← hk₁, modify_pcbs_ne _ _ _ hq]
  have hmutexes : k₁.mutexes = k.mutexes := by rw [← hk₁]; rfl
  have hunfold : k.recomputePriority p =
      ((k₁.pcbs p).ownedMutexList.flatMap fun m => (k₁.mutexes m).waiters).foldl (raiseTo p) k₁ := by
    rw [← hk₁]
    rfl
  rw [hunfold, hself, hmutexes]
  obtain ⟨hothers, hle, hws⟩ :=
    raiseAll_level p ((k.pcbs p).ownedMutexList.flatMap fun m => (k.mutexes m).waiters) k₁
  refine ⟨fun q hq => (hothers q hq).trans (hlevel q hq), hle.trans ?_, fun m hm w hw hwp => ?_⟩
  · unfold level
    rw [hself]
  · rw [← hlevel w hwp]
    exact hws w (List.mem_flatMap.mpr ⟨m, hm, hw⟩)

/-- A waiter `w` is taken into account when `p` recomputes its priority: it is in the queue of a
listed mutex, or no more urgent than the base priority or than somebody in such a queue. -/
def Counted (k : Kernel) (p : PcbRef) (listed : List Nat) (w : PcbRef) : Prop :=
  (k.pcbs p).basePriority.toNat ≤ k.level w ∨
    ∃ m ∈ listed, ∃ v ∈ (k.mutexes m).waiters, k.level v ≤ k.level w

theorem recomputePriority_inherits {p : PcbRef} (hp : ∀ m, p ∉ (k.mutexes m).waiters)
    (h : ∀ w o, k.WaitsFor w o → o ≠ p → k.level o ≤ k.level w)
    (hcounted : ∀ w, k.WaitsFor w p → k.Counted p (k.pcbs p).ownedMutexList w) :
    (k.recomputePriority p).Inherits := by
  obtain ⟨hothers, hbase, hlisted⟩ := recomputePriority_level k p
  unfold Inherits
  rw [waitsFor_of_mutexes (mutexes_of_locks (recomputePriority_locks k p))]
  intro w o hwo
  have hw : w ≠ p := by
    rintro rfl
    obtain ⟨m, _, hm⟩ := hwo
    exact hp m hm
  rw [hothers w hw]
  by_cases ho : o = p
  · rw [ho] at hwo ⊢
    rcases hcounted w hwo with hb | ⟨m, hm, v, hv, hle⟩
    · exact hbase.trans hb
    · have hvp : v ≠ p := by
        rintro rfl
        exact hp m hv
      exact (hlisted m hm v hv hvp).trans hle
  · rw [hothers o ho]
    exact h w o hwo ho

/-- The release of `m` leaves everybody at least as urgent as those who wait for it. -/
structure PassesOn (k : Kernel) (m : Nat) : Prop where
  next : ∀ next rest, (k.mutexes m).waiters = next :: rest → ∀ w ∈ rest, k.level next ≤ k.level w
  unlisted : ∀ n, n ≠ m → (k.mutexes n).owner = some k.current → n ∉ k.cur.ownedMutexList →
    ∀ w ∈ (k.mutexes n).waiters, k.Counted k.current (k.cur.ownedMutexList.filter (· ≠ m)) w

/-- The end of the section of `mutex_unlock`: `k₁` is the kernel in which `m` has changed hands. -/
theorem PassesOn.recomputes {m : Nat} {k₁ : Kernel} (hpass : k.PassesOn m) (h : k.Inherits)
    (hcur : ∀ n, k.current ∉ (k.mutexes n).waiters) (hlevel : k₁.level = k.level)
    (hbase : (k₁.pcbs k.current).basePriority = k.cur.basePriority)
    (hlist : (k₁.pcbs k.current).ownedMutexList = k.cur.ownedMutexList.erase m)
    (hmutexes : ∀ n, n ≠ m → k₁.mutexes n = k.mutexes n)
    (hqueue : ∀ w ∈ (k₁.mutexes m).waiters, w ∈ (k.mutexes m).waiters)
    (hnext : ∀ w o, (k₁.mutexes m).owner = some o → w ∈ (k₁.mutexes m).waiters →
      o ≠ k.current ∧ k.level o ≤ k.level w) : (k₁.recomputePriority k.current).Inherits := by
  have hwaiters : ∀ n w, w ∈ (k₁.mutexes n).waiters → w ∈ (k.mutexes n).waiters := by
    intro n w hw
    by_cases hn : n = m
    · rw [hn] at hw ⊢
      exact hqueue w hw
    · rwa [hmutexes n hn] at hw
  have hlisted : ∀ n ∈ k.cur.ownedMutexList, n ≠ m → ∀ v ∈ (k.mutexes n).waiters,
      n ∈ (k₁.pcbs k.current).ownedMutexList ∧ v ∈ (k₁.mutexes n).waiters := by
    intro n hin hn v hv
    rw [hlist, hmutexes n hn]
    exact ⟨(List.mem_erase_of_ne hn).mpr hin, hv⟩
  apply recomputePriority_inherits
  · exact fun n hw => hcur n (hwaiters n _ hw)
  · rintro w o ⟨n, ho, hw⟩ hoc
    rw [hlevel]
    by_cases hn : n = m
    · rw [hn] at ho hw
      exact (hnext w o ho hw).2
    · rw [hmutexes n hn] at ho hw
      exact h w o ⟨n, ho, hw⟩
  · rintro w ⟨n, ho, hw⟩
    have hn : n ≠ m := by
      rintro rfl
      exact (hnext w _ ho hw).1 rfl
    rw [hmutexes n hn] at ho hw
    unfold Counted
    rw [hlevel, hbase]
    by_cases hin : n ∈ k.cur.ownedMutexList
    · obtain ⟨hn₁, hw₁⟩ := hlisted n hin hn w hw
      exact .inr ⟨n, hn₁, w, hw₁, Nat.le_refl _⟩
    · rcases hpass.unlisted n hn ho hin w hw with hb | ⟨n', hn', v, hv, hle⟩
      · exact .inl hb
      · have hn' := List.mem_filter.mp hn'
        obtain ⟨hn₁, hv₁⟩ := hlisted n' hn'.1 (by simpa using hn'.2) v hv
        exact .inr ⟨n', hn₁, v, hv₁, hle⟩

theorem mutexRelease_inherits {m : Nat} (h : k.Inherits)
    (hcur : ∀ n, k.current ∉ (k.mutexes n).waiters) (hpass : k.PassesOn m) :
    (k.mutexRelease m).Inherits := by
  have hremoved : (k.ownerRemove k.current m).level = k.level := modify_level rfl
  have hself : (k.ownerRemove k.current m).pcbs k.current =
      { k.cur with ownedMutexList := k.cur.ownedMutexList.erase m } := modify_pcbs_self _ _ _
  unfold mutexRelease
  dsimp only
  split
  · rename_i hq
    apply hpass.recomputes h hcur
    · exact hremoved
    · exact (congrArg Pcb.basePriority hself :)
    · exact (congrArg Pcb.ownedMutexList hself :)
    · intro n hn
      exact Function.update_of_ne hn _ _
    · simp [setMutex, hq]
    · simp [setMutex]
  · rename_i next rest hq
    have hne : k.current ≠ next := by
      rintro he
      apply hcur m
      rw [hq, he]
      exact List.mem_cons_self
    generalize hk₁ : (((k.ownerRemove k.current m).setMutex m
      { k.mutexes m with locked := true, owner := some next, waiters := rest }).modify next
        fun q => { q with waitingMutex := none }) = k₁
    have hpcb : ((k₁.ownerAdd next m).schedulerWake next).pcbs k.current =
        { k.cur with ownedMutexList := k.cur.ownedMutexList.erase m } := by
      rw [wake_others _ hne, ownerAdd, modify_pcbs_ne _ _ _ hne, ← hk₁, modify_pcbs_ne _ _ _ hne]
      exact hself
    have hmutexes : ((k₁.ownerAdd next m).schedulerWake next).mutexes = Function.update k.mutexes m
        { k.mutexes m with locked := true, owner := some next, waiters := rest } := by
      rw [mutexes_of_locks (wake_locks _ _), ← hk₁]
      rfl
    apply hpass.recomputes h hcur
    · rw [wake_level, ownerAdd_level, ← hk₁, modify_level rfl]
      exact hremoved
    · rw [hpcb]
    · rw [hpcb]
    · intro n hn
      rw [hmutexes, Function.update_of_ne hn]
    · intro w hw
      rw [hmutexes, Function.update_self] at hw
      rw [hq]
      exact List.mem_cons_of_mem _ hw
    · intro w o ho hw
      rw [hmutexes, Function.update_self] at ho hw
      obtain rfl := Option.some.inj ho
      exact ⟨hne.symm, hpass.next next rest hq w hw⟩

/-! ## The dispatch -/

/-- A tick uses up the quantum of the running process, and there is a lower level for it. -/
def Demotes (k : Kernel) : Prop :=
  k.cur.state = .running ∧ k.cur.pid ≠ 0#32 ∧ k.cur.quantumTicks ≤ k.cur.ticksUsed + 1#8 ∧
    k.level k.current + 1 < 3

theorem charge_priority (countTick : Bool) (q : Pcb) :
    (charge countTick q).priority.toNat ≤ q.priority.toNat ∨
      (countTick = true ∧ q.pid ≠ 0#32 ∧ q.quantumTicks ≤ q.ticksUsed + 1#8 ∧
        q.priority.toNat + 1 < 3 ∧ (charge countTick q).priority.toNat = q.priority.toNat + 1) := by
  unfold charge
  split
  · exact .inl (Nat.zero_le _)
  · rename_i hp
    dsimp only
    split
    · rename_i hc
      simp only [Bool.and_eq_true, decide_eq_true_eq] at hc
      split
      · rename_i hl
        refine .inr ⟨hc.1, hp, hc.2, hl, ?_⟩
        have hone : (1#8).toNat = 1 := rfl
        rw [BitVec.toNat_add, hone]
        exact Nat.mod_eq_of_lt (by omega)
      · exact .inl (Nat.le_refl _)
    · exact .inl (Nat.le_refl _)

theorem suspend_priority (contextEsp eip : Word) (countTick : Bool) (q : Pcb) :
    (suspend contextEsp eip countTick q).priority.toNat ≤ q.priority.toNat ∨
      (countTick = true ∧ q.state = .running ∧ q.pid ≠ 0#32 ∧
        q.quantumTicks ≤ q.ticksUsed + 1#8 ∧ q.priority.toNat + 1 < 3 ∧
        (suspend contextEsp eip countTick q).priority.toNat = q.priority.toNat + 1) := by
  unfold suspend
  dsimp only
  generalize hq' : (if q.state ≠ .terminated then { q with esp := contextEsp, eip := eip } else q) = q'
  have hsame : q'.state = q.state ∧ q'.pid = q.pid ∧ q'.quantumTicks = q.quantumTicks ∧
      q'.ticksUsed = q.ticksUsed ∧ q'.priority = q.priority := by
    rw [← hq']
    split <;> exact ⟨rfl, rfl, rfl, rfl, rfl⟩
  obtain ⟨hs, hp, hqt, htu, hpr⟩ := hsame
  split
  · rename_i hr
    have hc := charge_priority countTick q'
    rw [hp, hqt, htu, hpr] at hc
    exact hc.imp_right fun hc => ⟨hc.1, by rw [← hs]; exact hr, hc.2⟩
  · exact .inl (by rw [hpr])

theorem suspended_level (k : Kernel) (contextEsp eip : Word) (countTick : Bool)
    (woken : List PcbRef) (p : PcbRef) :
    (k.suspended contextEsp eip countTick woken p).priority.toNat ≤ k.level p ∨
      (countTick = true ∧ p = k.current ∧ k.Demotes ∧
        (k.suspended contextEsp eip countTick woken p).priority.toNat = k.level p + 1) := by
  have hwake : (wakeUp (k.pcbs p)).priority.toNat ≤ k.level p := by
    unfold wakeUp
    split
    · exact Nat.zero_le _
    · exact Nat.le_refl _
  unfold suspended
  dsimp only
  by_cases hp : p = k.current
  · rw [if_pos hp]
    by_cases hw : p ∈ woken
    · rw [if_pos hw]
      rcases suspend_priority contextEsp eip countTick (wakeUp (k.pcbs p)) with hle | ⟨hc, hs, hrest⟩
      · exact .inl (hle.trans hwake)
      · have hid : wakeUp (k.pcbs p) = k.pcbs p := by
          apply wakeUp_of_not_blocked
          intro hb
          rw [wakeUp_state, if_pos hb] at hs
          cases hs
        rw [hid] at hs hrest ⊢
        obtain ⟨hpid, hqt, hl, he⟩ := hrest
        subst hp
        exact .inr ⟨hc, rfl, ⟨hs, hpid, hqt, hl⟩, he⟩
    · rw [if_neg hw]
      rcases suspend_priority contextEsp eip countTick (k.pcbs p) with hle | ⟨hc, hs, hpid, hqt, hl, he⟩
      · exact .inl hle
      · subst hp
        exact .inr ⟨hc, rfl, ⟨hs, hpid, hqt, hl⟩, he⟩
  · rw [if_neg hp]
    split
    · exact .inl hwake
    · exact .inl (Nat.le_refl _)

/-- Nobody touches a process that is blocked and not asleep. -/
theorem suspended_blocked (k : Kernel) (contextEsp eip : Word) (countTick : Bool)
    {woken : List PcbRef} {p : PcbRef} (hb : (k.pcbs p).state = .blocked) (hw : p ∉ woken) :
    (k.suspended contextEsp eip countTick woken p).priority = (k.pcbs p).priority := by
  have hrun : ¬ (ProcState.blocked = .running) := by decide
  unfold suspended suspend
  dsimp only
  rw [if_neg hw]
  split
  · split
    · rw [if_neg (by rw [hb]; exact hrun)]
    · rw [if_neg (by rw [hb]; exact hrun)]
  · rfl

theorem dispatch_level (h : k.ShellReady) {contextEsp : Word} (hctx : contextEsp ≠ 0#32)
    (countTick : Bool) :
    ∃ woken rest, k.sleepQueue = woken ++ rest ∧
      ∀ p, (k.dispatch contextEsp countTick).2.level p =
        (k.suspended contextEsp (k.frameWord contextEsp 8) countTick woken p).priority.toNat := by
  obtain ⟨woken, rest, next, hw, -, -, hd⟩ := dispatch_switched h hctx countTick
  refine ⟨woken, rest, hw.queue, fun p => ?_⟩
  rw [hd]
  rfl

/-- A dispatch keeps the inheritance unless it demotes an owner. -/
theorem dispatch_inherits (hs : k.ShellReady) {contextEsp : Word} (hctx : contextEsp ≠ 0#32)
    (countTick : Bool) (h : k.Inherits)
    (hwaiter : ∀ m, ∀ w ∈ (k.mutexes m).waiters, (k.pcbs w).state = .blocked ∧ w ∉ k.sleepQueue)
    (hdemotes : countTick = true → k.Demotes →
      ∀ w, k.WaitsFor w k.current → k.level k.current < k.level w) :
    (k.dispatch contextEsp countTick).2.Inherits := by
  obtain ⟨woken, rest, hq, hlevel⟩ := dispatch_level hs hctx countTick
  obtain ⟨_, hd⟩ := dispatch_spec hs hctx countTick
  unfold Inherits
  rw [waitsFor_of_mutexes (mutexes_of_locks hd.locks)]
  intro w o hwo
  have hsame : (k.dispatch contextEsp countTick).2.level w = k.level w := by
    obtain ⟨m, _, hw⟩ := hwo
    obtain ⟨hb, hns⟩ := hwaiter m w hw
    rw [hlevel, suspended_blocked k _ _ _ hb]
    · rfl
    · intro hin
      apply hns
      rw [hq]
      exact List.mem_append_left _ hin
  rw [hsame, hlevel]
  rcases suspended_level k contextEsp (k.frameWord contextEsp 8) countTick woken o with
    hle | ⟨hc, rfl, hdem, heq⟩
  · exact hle.trans (h w o hwo)
  · rw [heq]
    exact hdemotes hc hdem w hwo

end

end Kernel

end SengOS
