import Mathlib.Data.Fintype.Card
import Mathlib.Order.Defs.LinearOrder

/-!
# Priority inheritance

Clients wait for one another, and each has an urgency: the smaller, the more
urgent. Urgencies are inherited when nobody waits for a less urgent client. A
client that starts to wait hands its urgency down the chain of those it waits
for, until it meets one that is as urgent; there are not more turns than less
urgent clients.
-/

namespace SengOS

variable {α π : Type} [LinearOrder π]

/-- Nobody waits for a client less urgent than itself; `waits w o` says that `w` waits for `o`. -/
def Inherited (waits : α → α → Prop) (urgency : α → π) : Prop :=
  ∀ w o, waits w o → urgency o ≤ urgency w

namespace Inherited

variable {waits waits' : α → α → Prop} {urgency urgency' : α → π}

/-- Those who are waited for may become more urgent, and those who wait less urgent. -/
theorem mono (h : Inherited waits urgency) (hw : ∀ w o, waits' w o → waits w o)
    (ho : ∀ w o, waits' w o → urgency' o ≤ urgency o)
    (hu : ∀ w o, waits' w o → urgency w ≤ urgency' w) : Inherited waits' urgency' := by
  intro w o hwo
  exact (ho w o hwo).trans ((h w o (hw w o hwo)).trans (hu w o hwo))

/-- Only the clients that wait or are waited for matter. -/
theorem congr (h : Inherited waits urgency) (hw : ∀ w o, waits' w o → waits w o)
    (hu : ∀ w o, waits w o → urgency' w = urgency w ∧ urgency' o = urgency o) :
    Inherited waits' urgency' :=
  h.mono hw (fun w o hwo => (hu w o (hw w o hwo)).2.le) fun w o hwo => (hu w o (hw w o hwo)).1.ge

end Inherited

variable [DecidableEq α]

/-- The urgency of `p` goes down the chain of those it waits for, in at most the given number of turns. -/
def propagate (next : α → Option α) (urgency : α → π) : Nat → α → α → π
  | 0, _ => urgency
  | turns + 1, p =>
    match next p with
    | none => urgency
    | some o =>
      if urgency o ≤ urgency p then urgency
      else propagate next (Function.update urgency o (urgency p)) turns o

section Propagate
variable {next : α → Option α} {urgency : α → π} {waits : α → α → Prop}

/-- One turn repairs the client that is waited for and leaves only its own wait to look at. -/
theorem Inherited.turn {p o : α} (hnext : ∀ w o, waits w o → next w = some o)
    (h : Inherited (fun w o => w ≠ p ∧ waits w o) urgency) (ho : next p = some o)
    (hlt : urgency p < urgency o) :
    Inherited (fun w q => w ≠ o ∧ waits w q) (Function.update urgency o (urgency p)) := by
  rintro w q ⟨hwo, hw⟩
  have hle : Function.update urgency o (urgency p) q ≤ urgency q := by
    by_cases hq : q = o
    · rw [hq, Function.update_self]
      exact hlt.le
    · rw [Function.update_of_ne hq]
  rw [Function.update_of_ne hwo]
  by_cases hwp : w = p
  · have hq : q = o := by
      apply Option.some.inj
      rw [← hnext w q hw, hwp, ho]
    rw [hq, hwp, Function.update_self]
  · exact hle.trans (h w q ⟨hwp, hw⟩)

/-- The wait of `p` itself is the last one to look at. -/
theorem Inherited.last {p : α} (hnext : ∀ w o, waits w o → next w = some o)
    (h : Inherited (fun w o => w ≠ p ∧ waits w o) urgency)
    (hp : ∀ o, next p = some o → urgency o ≤ urgency p) : Inherited waits urgency := by
  intro w o hw
  by_cases hwp : w = p
  · rw [hwp]
    exact hp o (hwp ▸ hnext w o hw)
  · exact h w o ⟨hwp, hw⟩

variable [Fintype α]

/-- The clients that are less urgent than `u`. -/
def lessUrgent (urgency : α → π) (u : π) : Finset α := Finset.univ.filter fun q => u < urgency q

omit [DecidableEq α] in
theorem mem_lessUrgent {u : π} {q : α} : q ∈ lessUrgent urgency u ↔ u < urgency q := by
  simp [lessUrgent]

/-- A client that gets the urgency `u` is no longer among the less urgent ones. -/
theorem lessUrgent_update {u : π} {o : α} (h : u < urgency o) :
    lessUrgent (Function.update urgency o u) u ⊂ lessUrgent urgency u := by
  have hsub : lessUrgent (Function.update urgency o u) u ⊆ lessUrgent urgency u := by
    intro q hq
    rw [mem_lessUrgent] at hq ⊢
    by_cases hqo : q = o
    · rw [hqo]
      exact h
    · rwa [Function.update_of_ne hqo] at hq
  apply (Finset.ssubset_iff_of_subset hsub).mpr
  refine ⟨o, mem_lessUrgent.mpr h, fun ho => ?_⟩
  rw [mem_lessUrgent, Function.update_self] at ho
  exact lt_irrefl u ho

/-- If `p` is the only one that may wait for a less urgent client, its urgency is inherited when
the turns are enough. -/
theorem Inherited.propagate {turns : Nat} {p : α} (hnext : ∀ w o, waits w o → next w = some o)
    (h : Inherited (fun w o => w ≠ p ∧ waits w o) urgency)
    (hturns : (lessUrgent urgency (urgency p)).card ≤ turns) :
    Inherited waits (propagate next urgency turns p) := by
  induction turns generalizing urgency p with
  | zero =>
    apply h.last hnext
    intro o _
    have hempty := Finset.card_eq_zero.mp (Nat.le_zero.mp hturns)
    apply not_lt.mp
    intro hlt
    have ho := mem_lessUrgent.mpr hlt
    rw [hempty] at ho
    cases ho
  | succ turns ih =>
    unfold SengOS.propagate
    split
    · rename_i hp
      apply h.last hnext
      intro o ho
      rw [hp] at ho
      cases ho
    · rename_i o ho
      split
      · rename_i hle
        apply h.last hnext
        intro q hq
        rw [ho] at hq
        obtain rfl := Option.some.inj hq
        exact hle
      · rename_i hlt
        have hlt := not_le.mp hlt
        apply ih (h.turn hnext ho hlt)
        rw [Function.update_self]
        have hfewer := Finset.card_lt_card (lessUrgent_update hlt)
        omega

end Propagate

end SengOS
