import SengOS.Kernel.System
import Mathlib.Data.Fintype.Card
import Mathlib.Logic.Relation

/-!
# The deadlock detector

`deadlock.c`. The outer loop follows an edge from a waiter to the owner it waits
for, but `dfs` goes on from an owner to its waiters, against the edges. The
first step of the search therefore leads straight back to where it came from,
unless the owner is marked done already: plain contention is reported as soon
as a live waiter stands before its owner in the table.
-/

namespace SengOS

namespace Kernel

structure Marks where
  visiting : PcbRef → Bool
  done : PcbRef → Bool

/-- The waiters that `dfs` goes through at `node`: those of the registered mutexes it owns. -/
def heldBy (k : Kernel) (node : PcbRef) : List PcbRef :=
  k.mutexRegistry.flatMap fun m =>
    if (k.mutexes m).owner = some node then (k.mutexes m).waiters else []

/-- The owners that the outer loop goes through at `i`, one for each place it has in a queue. -/
def waitsFor (k : Kernel) (i : PcbRef) : List PcbRef :=
  k.mutexRegistry.flatMap fun m =>
    match (k.mutexes m).owner with
    | none => []
    | some owner => ((k.mutexes m).waiters.filter (· = i)).map fun _ => owner

/-- A loop that stops at the first visit that answers 1. -/
def search (visit : PcbRef → Marks → Option (Bool × Marks)) :
    List PcbRef → Marks → Option (Bool × Marks)
  | [], v => some (false, v)
  | w :: ws, v =>
    match visit w v with
    | some (false, v) => search visit ws v
    | r => r

/-- `dfs` with the depth of calls that it may reach. -/
def dfs (k : Kernel) : Nat → PcbRef → Marks → Option (Bool × Marks)
  | 0, _, _ => none
  | depth + 1, node, v =>
    if v.visiting node then some (true, v)
    else if v.done node then some (false, v)
    else
      match search (k.dfs depth) (k.heldBy node)
          { v with visiting := Function.update v.visiting node true } with
      | some (false, v) =>
        some (false, ⟨Function.update v.visiting node false, Function.update v.done node true⟩)
      | r => r

/-- The loop of `deadlock_detect` over the table. -/
def detectLoop (k : Kernel) : List PcbRef → Marks → Option Bool
  | [], _ => some false
  | i :: is, v =>
    if (k.pcbs i).state = .terminated then k.detectLoop is v
    else if v.visiting i || v.done i then k.detectLoop is v
    else
      match search (k.dfs 17) (k.waitsFor i)
          { v with visiting := Function.update v.visiting i true } with
      | some (false, v) =>
        k.detectLoop is ⟨Function.update v.visiting i false, Function.update v.done i true⟩
      | some (true, _) => some true
      | none => none

def deadlockDetect (k : Kernel) : Option Bool :=
  k.detectLoop (List.finRange 16) ⟨fun _ => false, fun _ => false⟩

/-! ## The wait-for graph -/

/-- `a` is in the queue of a registered mutex that `b` owns. -/
def WaitsOn (k : Kernel) (a b : PcbRef) : Prop :=
  ∃ m ∈ k.mutexRegistry, a ∈ (k.mutexes m).waiters ∧ (k.mutexes m).owner = some b

def Live (k : Kernel) (p : PcbRef) : Prop := (k.pcbs p).state ≠ .terminated

def Cyclic (k : Kernel) : Prop := ∃ p, Relation.TransGen k.WaitsOn p p

/-- A live process waits for one that is not a live process in front of it. -/
def Ascends (k : Kernel) : Prop :=
  ∃ a b, k.WaitsOn a b ∧ k.Live a ∧ ¬ (b < a ∧ k.Live b)

/-- `deadlock_detect` returns 1 if the graph has a cycle, and 0 if it has none. -/
def DetectorExact (k : Kernel) : Prop :=
  (k.Cyclic → k.deadlockDetect = some true) ∧ (¬ k.Cyclic → k.deadlockDetect = some false)

theorem mem_heldBy {k : Kernel} {a b : PcbRef} : a ∈ k.heldBy b ↔ k.WaitsOn a b := by
  unfold heldBy WaitsOn
  rw [List.mem_flatMap]
  apply exists_congr
  intro m
  apply and_congr_right
  intro _
  by_cases ho : (k.mutexes m).owner = some b
  · simp [ho]
  · simp [ho]

theorem mem_waitsFor {k : Kernel} {a b : PcbRef} : b ∈ k.waitsFor a ↔ k.WaitsOn a b := by
  unfold waitsFor WaitsOn
  rw [List.mem_flatMap]
  apply exists_congr
  intro m
  apply and_congr_right
  intro _
  cases ho : (k.mutexes m).owner with
  | none => simp
  | some owner =>
    simp only [List.mem_map, List.mem_filter, decide_eq_true_eq, Option.some.injEq]
    constructor
    · rintro ⟨w, ⟨hw, rfl⟩, he⟩
      exact ⟨hw, he⟩
    · rintro ⟨hw, he⟩
      exact ⟨a, ⟨hw, rfl⟩, he⟩

/-! ## The search -/

/-- The processes that a search may still go into. -/
def Marks.fresh (v : Marks) : Finset PcbRef :=
  Finset.univ.filter fun p => v.visiting p = false ∧ v.done p = false

/-- What a visit that answers 0 leaves of the marks. -/
structure Marks.Settles (v v' : Marks) : Prop where
  visiting : v'.visiting = v.visiting
  done : ∀ p, v.done p = true → v'.done p = true

theorem Marks.Settles.refl (v : Marks) : v.Settles v := ⟨rfl, fun _ => id⟩

theorem Marks.Settles.trans {a b c : Marks} (h : a.Settles b) (h' : b.Settles c) : a.Settles c :=
  ⟨h'.visiting.trans h.visiting, fun p hp => h'.done p (h.done p hp)⟩

theorem Marks.Settles.fresh {v v' : Marks} (h : v.Settles v') : v'.fresh ⊆ v.fresh := by
  intro p hp
  simp only [Marks.fresh, Finset.mem_filter, Finset.mem_univ, true_and] at hp ⊢
  refine ⟨by rw [← h.visiting]; exact hp.1, ?_⟩
  by_contra hd
  rw [h.done p (by simpa using hd)] at hp
  exact absurd hp.2 (by decide)

/-- A visit ends, and leaves the marks settled if it answers 0. -/
def Ends (visit : PcbRef → Marks → Option (Bool × Marks)) (bound : Nat) : Prop :=
  ∀ node v, v.fresh.card < bound →
    ∃ r v', visit node v = some (r, v') ∧ (r = false → v.Settles v')

theorem search_ends {visit : PcbRef → Marks → Option (Bool × Marks)} {bound : Nat}
    (h : Ends visit bound) (ws : List PcbRef) (v : Marks) (hv : v.fresh.card < bound) :
    ∃ r v', search visit ws v = some (r, v') ∧ (r = false → v.Settles v') := by
  induction ws generalizing v with
  | nil => exact ⟨false, v, rfl, fun _ => .refl v⟩
  | cons w ws ih =>
    obtain ⟨r, v₁, hr, hs⟩ := h w v hv
    cases r with
    | true => exact ⟨true, v₁, by simp [search, hr], by nofun⟩
    | false =>
      have hs := hs rfl
      obtain ⟨r, v₂, hr₂, hs₂⟩ := ih v₁ ((Finset.card_le_card hs.fresh).trans_lt hv)
      exact ⟨r, v₂, by simp [search, hr, hr₂], fun hf => hs.trans (hs₂ hf)⟩

theorem fresh_visiting (v : Marks) (node : PcbRef) :
    Marks.fresh { v with visiting := Function.update v.visiting node true } = v.fresh.erase node := by
  ext p
  simp only [Marks.fresh, Finset.mem_filter, Finset.mem_univ, true_and, Finset.mem_erase,
    Function.update_apply]
  by_cases hp : p = node
  · simp [hp]
  · simp [hp]

/-- The marks after a visit of `node` that answers 0. -/
theorem settles_visited {v v' : Marks} {node : PcbRef} (hv : v.visiting node = false)
    (h : Marks.Settles { v with visiting := Function.update v.visiting node true } v') :
    v.Settles ⟨Function.update v'.visiting node false, Function.update v'.done node true⟩ := by
  constructor
  · funext p
    have := congrFun h.visiting p
    by_cases hp : p = node
    · simp [hp, hv]
    · simpa [hp] using this
  · intro p hp
    by_cases hpn : p = node
    · simp [hpn]
    · simpa [hpn] using h.done p hp

/-- Every call of `dfs` marks a process that was fresh, so the calls nest at
most as deep as there are fresh processes. -/
theorem dfs_ends (k : Kernel) (depth : Nat) : Ends (k.dfs depth) depth := by
  induction depth with
  | zero =>
    intro node v hv
    exact absurd hv (Nat.not_lt_zero _)
  | succ depth ih =>
    intro node v hv
    unfold dfs
    cases hvis : v.visiting node with
    | true => exact ⟨true, v, by simp, by nofun⟩
    | false =>
      cases hdone : v.done node with
      | true => exact ⟨false, v, by simp, fun _ => .refl v⟩
      | false =>
        have hmem : node ∈ v.fresh := by simp [Marks.fresh, hvis, hdone]
        have hlt : (v.fresh.erase node).card < depth := by
          have hpos : 0 < v.fresh.card := Finset.card_pos.mpr ⟨node, hmem⟩
          rw [Finset.card_erase_of_mem hmem]
          omega
        obtain ⟨r, v', hr, hs⟩ := search_ends ih (k.heldBy node) _
          (by rw [fresh_visiting]; exact hlt)
        cases r with
        | true => exact ⟨true, v', by simp [hr], by nofun⟩
        | false => exact ⟨false, _, by simp [hr], fun _ => settles_visited hvis (hs rfl)⟩

theorem search_false {visit : PcbRef → Marks → Option (Bool × Marks)} {bound : Nat}
    (h : Ends visit bound) {ws : List PcbRef} {v v' : Marks} (hv : v.fresh.card < bound)
    (hs : search visit ws v = some (false, v')) {w : PcbRef} (hw : w ∈ ws) :
    ∃ v₁ v₂, v.Settles v₁ ∧ visit w v₁ = some (false, v₂) := by
  induction ws generalizing v with
  | nil => cases hw
  | cons u ws ih =>
    obtain ⟨r, v₁, hr, hset⟩ := h u v hv
    cases r with
    | true => simp [search, hr] at hs
    | false =>
      have hset := hset rfl
      simp only [search, hr] at hs
      rcases List.mem_cons.mp hw with rfl | hw
      · exact ⟨v, v₁, .refl v, hr⟩
      · obtain ⟨v₂, v₃, h₂, h₃⟩ := ih ((Finset.card_le_card hset.fresh).trans_lt hv) hs hw
        exact ⟨v₂, v₃, hset.trans h₂, h₃⟩

/-- A visit of an owner comes back to a waiter that is being visited. -/
theorem dfs_back {k : Kernel} {depth : Nat} {node i : PcbRef} {v v' : Marks}
    (hv : v.fresh.card < depth) (hi : v.visiting i = true) (hw : k.WaitsOn i node)
    (h : k.dfs depth node v = some (false, v')) : v.done node = true := by
  cases depth with
  | zero => exact absurd hv (Nat.not_lt_zero _)
  | succ depth =>
    unfold dfs at h
    cases hvis : v.visiting node with
    | true => simp [hvis] at h
    | false =>
      cases hdone : v.done node with
      | true => rfl
      | false =>
        have hmem : node ∈ v.fresh := by simp [Marks.fresh, hvis, hdone]
        have hlt : Finset.card (Marks.fresh
            { v with visiting := Function.update v.visiting node true }) < depth := by
          have hpos : 0 < v.fresh.card := Finset.card_pos.mpr ⟨node, hmem⟩
          rw [fresh_visiting, Finset.card_erase_of_mem hmem]
          omega
        obtain ⟨r, v₁, hr, _⟩ := search_ends (dfs_ends k depth) (k.heldBy node) _ hlt
        cases r with
        | true => simp [hvis, hdone, hr] at h
        | false =>
          obtain ⟨v₂, v₃, hset, hback⟩ :=
            search_false (dfs_ends k depth) hlt hr (mem_heldBy.mpr hw)
          have hvi : v₂.visiting i = true := by
            rw [hset.visiting]
            by_cases hin : i = node
            · simp [hin]
            · simpa [hin] using hi
          cases depth with
          | zero => cases hback
          | succ depth => simp [dfs, hvi] at hback

/-! ## The loop over the table -/

/-- Between two turns nothing is being visited, and the live processes in front are done. -/
def passed (k : Kernel) (front : List PcbRef) : Marks :=
  ⟨fun _ => false, fun p => decide (p ∈ front ∧ (k.pcbs p).state ≠ .terminated)⟩

theorem fresh_card_lt (v : Marks) : v.fresh.card < 17 := by
  have := Finset.card_le_univ v.fresh
  rw [Fintype.card_fin] at this
  omega

/-- One turn at a live process: it answers 1 exactly if one of the owners is not done. -/
theorem search_waitsFor (k : Kernel) {v : Marks} {i : PcbRef} (hi : v.visiting i = true)
    (owners : List PcbRef) (ho : ∀ b ∈ owners, k.WaitsOn i b) :
    (∃ b ∈ owners, ¬ (v.visiting b = false ∧ v.done b = true)) ∧
        (∃ v', search (k.dfs 17) owners v = some (true, v')) ∨
      (∀ b ∈ owners, v.visiting b = false ∧ v.done b = true) ∧
        search (k.dfs 17) owners v = some (false, v) := by
  induction owners with
  | nil => exact .inr ⟨by nofun, rfl⟩
  | cons b owners ih =>
    have ih := ih fun c hc => ho c (List.mem_cons_of_mem _ hc)
    by_cases hb : v.visiting b = false ∧ v.done b = true
    · have hdfs : k.dfs 17 b v = some (false, v) := by simp [dfs, hb.1, hb.2]
      rcases ih with ⟨⟨c, hc, hnot⟩, v', hs⟩ | ⟨hall, hs⟩
      · exact .inl ⟨⟨c, List.mem_cons_of_mem _ hc, hnot⟩, v', by simp [search, hdfs, hs]⟩
      · refine .inr ⟨fun c hc => ?_, by simp [search, hdfs, hs]⟩
        rcases List.mem_cons.mp hc with rfl | hc
        · exact hb
        · exact hall c hc
    · refine .inl ⟨⟨b, List.mem_cons_self, hb⟩, ?_⟩
      obtain ⟨r, v', hr, _⟩ := dfs_ends k 17 b v (fresh_card_lt v)
      cases r with
      | true => exact ⟨v', by simp [search, hr]⟩
      | false =>
        -- The visit would have come back to `i`, so `b` was done before.
        have hdone := dfs_back (fresh_card_lt v) hi (ho b List.mem_cons_self) hr
        have hvis : v.visiting b = true := by
          by_contra hvis
          exact hb ⟨by simpa using hvis, hdone⟩
        simp [dfs, hvis] at hr

/-- An ascending edge of the graph that starts at a process of the list. -/
def AscendsFrom (k : Kernel) (is : List PcbRef) : Prop :=
  ∃ a ∈ is, ∃ b, k.WaitsOn a b ∧ k.Live a ∧ ¬ (b < a ∧ k.Live b)

theorem passed_terminated (k : Kernel) (front : List PcbRef) {i : PcbRef}
    (h : (k.pcbs i).state = .terminated) : k.passed (front ++ [i]) = k.passed front := by
  simp only [passed, Marks.mk.injEq, true_and]
  funext p
  by_cases hp : p = i
  · simp [hp, h]
  · simp [hp]

theorem passed_live (k : Kernel) (front : List PcbRef) {i : PcbRef}
    (h : (k.pcbs i).state ≠ .terminated) :
    (⟨Function.update (Function.update (k.passed front).visiting i true) i false,
      Function.update (k.passed front).done i true⟩ : Marks) = k.passed (front ++ [i]) := by
  simp only [passed, Marks.mk.injEq]
  constructor
  · funext p
    by_cases hp : p = i <;> simp [hp]
  · funext p
    by_cases hp : p = i
    · simp [hp, h]
    · simp [hp]

theorem detectLoop_passed (k : Kernel) (front is : List PcbRef) (h : front ++ is = List.finRange 16) :
    (k.AscendsFrom is ∧ k.detectLoop is (k.passed front) = some true) ∨
      (¬ k.AscendsFrom is ∧ k.detectLoop is (k.passed front) = some false) := by
  induction is generalizing front with
  | nil => exact .inr ⟨fun ⟨a, ha, _⟩ => List.not_mem_nil ha, rfl⟩
  | cons i is ih =>
    have ih := ih (front ++ [i]) (by simpa using h)
    -- The front of the sorted table are the slots below `i`.
    have hfront : ∀ p, p ∈ front ↔ p < i := by
      intro p
      have hsorted : (front ++ i :: is).Pairwise (· < ·) := by
        rw [h]
        exact List.pairwise_lt_finRange 16
      obtain ⟨_, htail, hcross⟩ := List.pairwise_append.mp hsorted
      constructor
      · exact fun hp => hcross p hp i List.mem_cons_self
      · intro hp
        have hmem : p ∈ front ++ i :: is := by rw [h]; exact List.mem_finRange p
        rcases List.mem_append.mp hmem with hm | hm
        · exact hm
        · rcases List.mem_cons.mp hm with rfl | hm
          · exact absurd hp (lt_irrefl _)
          · exact absurd hp (lt_asymm ((List.pairwise_cons.mp htail).1 p hm))
    by_cases ht : (k.pcbs i).state = .terminated
    · have hloop : k.detectLoop (i :: is) (k.passed front) = k.detectLoop is (k.passed front) := by
        rw [detectLoop, if_pos ht]
      have hiff : k.AscendsFrom (i :: is) ↔ k.AscendsFrom is := by
        constructor
        · rintro ⟨a, ha, b, hw, hl, hn⟩
          rcases List.mem_cons.mp ha with rfl | ha
          · exact absurd ht hl
          · exact ⟨a, ha, b, hw, hl, hn⟩
        · rintro ⟨a, ha, he⟩
          exact ⟨a, List.mem_cons_of_mem _ ha, he⟩
      rw [hloop, hiff, ← passed_terminated k front ht]
      exact ih
    · have hvis : ((k.passed front).visiting i || (k.passed front).done i) = false := by
        simp [passed, (hfront i).not.mpr (lt_irrefl i)]
      generalize hv : ({ k.passed front with
        visiting := Function.update (k.passed front).visiting i true } : Marks) = v
      have hseen : ∀ b, (v.visiting b = false ∧ v.done b = true) ↔ (b < i ∧ k.Live b) := by
        intro b
        rw [← hv]
        by_cases hb : b = i
        · simp [hb, passed]
        · simp [hb, passed, hfront, Live]
      have hi : v.visiting i = true := by rw [← hv]; simp
      rcases search_waitsFor k hi (k.waitsFor i) (fun b hb => mem_waitsFor.mp hb) with
        ⟨⟨b, hb, hnot⟩, v', hs⟩ | ⟨hall, hs⟩
      · left
        refine ⟨⟨i, List.mem_cons_self, b, mem_waitsFor.mp hb, ht, ?_⟩, ?_⟩
        · rwa [← hseen]
        · simp only [detectLoop, if_neg ht, hvis, Bool.false_eq_true, if_false, hv, hs]
      · have hloop : k.detectLoop (i :: is) (k.passed front) =
            k.detectLoop is (k.passed (front ++ [i])) := by
          simp only [detectLoop, if_neg ht, hvis, Bool.false_eq_true, if_false, hv, hs]
          rw [← hv, passed_live k front ht]
        have hiff : k.AscendsFrom (i :: is) ↔ k.AscendsFrom is := by
          constructor
          · rintro ⟨a, ha, b, hw, hl, hn⟩
            rcases List.mem_cons.mp ha with rfl | ha
            · exact absurd ((hseen b).mp (hall b (mem_waitsFor.mpr hw))) hn
            · exact ⟨a, ha, b, hw, hl, hn⟩
          · rintro ⟨a, ha, he⟩
            exact ⟨a, List.mem_cons_of_mem _ ha, he⟩
        rw [hloop, hiff]
        exact ih

/-- The answer of the detector, in terms of the graph. -/
theorem deadlockDetect_eq (k : Kernel) :
    (k.Ascends ∧ k.deadlockDetect = some true) ∨ (¬ k.Ascends ∧ k.deadlockDetect = some false) := by
  have hpassed : k.passed [] = ⟨fun _ => false, fun _ => false⟩ := by simp [passed]
  have hiff : k.AscendsFrom (List.finRange 16) ↔ k.Ascends :=
    ⟨fun ⟨a, _, he⟩ => ⟨a, he⟩, fun ⟨a, he⟩ => ⟨a, List.mem_finRange a, he⟩⟩
  have h := detectLoop_passed k [] (List.finRange 16) rfl
  rwa [hpassed, hiff] at h

/-- A cycle with a live process on it goes up somewhere. -/
theorem cycle_ascends {k : Kernel} {p : PcbRef} (hp : k.Live p)
    (hc : Relation.TransGen k.WaitsOn p p) : k.Ascends := by
  by_contra hnot
  have hdown : ∀ a b, k.WaitsOn a b → k.Live a → b < a ∧ k.Live b := by
    intro a b hw hl
    by_contra hn
    exact hnot ⟨a, b, hw, hl, hn⟩
  have hall : ∀ q, Relation.TransGen k.WaitsOn p q → q < p ∧ k.Live q := by
    intro q hq
    induction hq with
    | single hw => exact hdown _ _ hw hp
    | tail _ hw ih =>
      have := hdown _ _ hw ih.2
      exact ⟨this.1.trans ih.1, this.2⟩
  exact lt_irrefl p (hall p hc).1

/-- When the detector is right: if there is a cycle, some live process must wait
for one that is not a live process in a lower slot, which a cycle with a live
process on it ensures; if there is none, no live process may do so. -/
theorem detectorExact_iff (k : Kernel) :
    (k.DetectorExact ↔ (k.Cyclic ∧ k.Ascends) ∨ (¬ k.Cyclic ∧ ¬ k.Ascends)) ∧
      ((∃ p, k.Live p ∧ Relation.TransGen k.WaitsOn p p) → k.DetectorExact) := by
  have hiff : k.DetectorExact ↔ (k.Cyclic ∧ k.Ascends) ∨ (¬ k.Cyclic ∧ ¬ k.Ascends) := by
    unfold DetectorExact
    rcases deadlockDetect_eq k with ⟨ha, hd⟩ | ⟨ha, hd⟩
    · by_cases hc : k.Cyclic <;> simp [ha, hd, hc]
    · by_cases hc : k.Cyclic <;> simp [ha, hd, hc]
  refine ⟨hiff, ?_⟩
  rintro ⟨p, hp, hc⟩
  exact hiff.mpr (.inl ⟨⟨p, hc⟩, cycle_ascends hp hc⟩)

end Kernel

namespace OsState

/-- The second process locks mutex 0 and the first one waits for it. -/
def contentionRun : List Action :=
  [.create 0x11000#32 none, .create 0x12000#32 none, .yield 0x90000#32, .yield 0x100F00#32,
    .acquire (.mutex 0), .proceed, .proceed, .yield 0x101F00#32, .yield 0x90000#32,
    .acquire (.mutex 0), .proceed]

/-- Plain contention is reported as a deadlock. -/
theorem contention_reported :
    let s := machine.after (boot smallBoot) contentionRun
    Reached Any s ∧ s.kernel.deadlockDetect = some true ∧ ¬ s.kernel.Cyclic := by
  have hregistry : (machine.after (boot smallBoot) contentionRun).kernel.mutexRegistry = [0] := by
    decide +kernel
  have hwaiters : ((machine.after (boot smallBoot) contentionRun).kernel.mutexes 0).waiters = [1] := by
    decide +kernel
  have howner : ((machine.after (boot smallBoot) contentionRun).kernel.mutexes 0).owner = some 2 := by
    decide +kernel
  refine ⟨⟨smallBoot, .accepts .start (by decide +kernel)⟩, by decide +kernel, ?_⟩
  rintro ⟨p, hp⟩
  have hedge : ∀ a b, (machine.after (boot smallBoot) contentionRun).kernel.WaitsOn a b →
      a = 1 ∧ b = 2 := by
    rintro a b ⟨m, hm, ha, hb⟩
    rw [hregistry] at hm
    rw [List.mem_singleton.mp hm] at ha hb
    rw [hwaiters] at ha
    rw [howner] at hb
    exact ⟨List.mem_singleton.mp ha, (Option.some.inj hb).symm⟩
  have hends : ∀ q r, Relation.TransGen
      (machine.after (boot smallBoot) contentionRun).kernel.WaitsOn q r → q = 1 ∧ r = 2 := by
    intro q r hqr
    induction hqr with
    | single hw => exact hedge _ _ hw
    | tail _ hw ih => exact ⟨ih.1, (hedge _ _ hw).2⟩
  obtain ⟨h1, h2⟩ := hends p p hp
  rw [h1] at h2
  exact absurd h2 (by decide)

end OsState

end SengOS
