import Mathlib.Tactic.Common

/-!
# Machines and their runs

A machine takes named actions from a state, each one under a guard. A run may
be held to a further condition `P` on the state before each action; what every
such action keeps holds in every state the run reaches. A machine may be watched:
a record beside its state takes notes of the actions and changes none of them.
-/

namespace SengOS

structure Machine (σ α : Type) where
  enabled : σ → α → Prop
  next : σ → α → σ

namespace Machine

variable {σ α : Type} (M : Machine σ α) (P : σ → α → Prop)

/-- The states that runs from `s₀` reach when every action meets `P`. -/
inductive Reach (s₀ : σ) : σ → Prop
  | start : Reach s₀ s₀
  | step {s : σ} (a : α) : Reach s₀ s → M.enabled s a → P s a → Reach s₀ (M.next s a)

/-- A run given by its list of actions. -/
def Accepts (s : σ) : List α → Prop
  | [] => True
  | a :: as => M.enabled s a ∧ P s a ∧ Accepts (M.next s a) as

def after (s : σ) (as : List α) : σ := as.foldl M.next s

variable {M P}

theorem after_cons (s : σ) (a : α) (as : List α) : M.after s (a :: as) = M.after (M.next s a) as := rfl

theorem after_append (s : σ) (as bs : List α) : M.after s (as ++ bs) = M.after (M.after s as) bs :=
  List.foldl_append

/-- The invariant rule. -/
theorem Reach.invariant {I : σ → Prop} {s₀ s : σ} (h : M.Reach P s₀ s) (start : I s₀)
    (step : ∀ s a, I s → M.enabled s a → P s a → I (M.next s a)) : I s := by
  induction h with
  | start => exact start
  | step a _ he hp ih => exact step _ a ih he hp

theorem Reach.mono {Q : σ → α → Prop} (hPQ : ∀ s a, P s a → Q s a) {s₀ s : σ}
    (h : M.Reach P s₀ s) : M.Reach Q s₀ s := by
  induction h with
  | start => exact .start
  | step a _ he hp ih => exact .step a ih he (hPQ _ _ hp)

theorem Reach.accepts {s₀ s : σ} (h : M.Reach P s₀ s) {as : List α} (ha : M.Accepts P s as) :
    M.Reach P s₀ (M.after s as) := by
  induction as generalizing s with
  | nil => exact h
  | cons a as ih => exact ih (.step a h ha.1 ha.2.1) ha.2.2

theorem Accepts.mono {Q : σ → α → Prop} (hPQ : ∀ s a, P s a → Q s a) {s : σ} {as : List α}
    (h : M.Accepts P s as) : M.Accepts Q s as := by
  induction as generalizing s with
  | nil => trivial
  | cons a as ih => exact ⟨h.1, hPQ s a h.2.1, ih h.2.2⟩

/-- A condition that the actions of the list meet in every state. -/
theorem Accepts.of_forall {Q : σ → α → Prop} {s : σ} {as : List α} (h : M.Accepts P s as)
    (hq : ∀ a ∈ as, ∀ s, Q s a) : M.Accepts Q s as := by
  induction as generalizing s with
  | nil => trivial
  | cons a as ih =>
    exact ⟨h.1, hq a List.mem_cons_self s,
      ih h.2.2 fun b hb => hq b (List.mem_cons_of_mem _ hb)⟩

section Watched
variable {η : Type}

/-- A machine beside a record of its run: each action notes what it does in the state it is taken. -/
def watched (M : Machine σ α) (note : σ → α → η → η) : Machine (σ × η) α where
  enabled s a := M.enabled s.1 a
  next s a := (M.next s.1 a, note s.1 a s.2)

instance decidableWatched [∀ s a, Decidable (M.enabled s a)] (note : σ → α → η → η) (s : σ × η)
    (a : α) : Decidable ((M.watched note).enabled s a) := inferInstanceAs (Decidable (M.enabled s.1 a))

end Watched

instance decidableAccepts [∀ s a, Decidable (M.enabled s a)] [∀ s a, Decidable (P s a)] (s : σ) :
    (as : List α) → Decidable (M.Accepts P s as)
  | [] => .isTrue trivial
  | a :: as =>
    have : Decidable (M.Accepts P (M.next s a) as) := decidableAccepts _ as
    inferInstanceAs (Decidable (_ ∧ _ ∧ _))

end Machine

end SengOS
