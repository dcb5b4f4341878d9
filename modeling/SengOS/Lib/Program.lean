import Mathlib.Tactic.Common

/-!
# Programs over an interface

A program makes calls and goes on with what they return. `run` executes it on a machine that
answers the calls. `wp` speaks of an interface instead, which says what calls may be made and
what they may answer: it is what must hold before a program that makes only permitted calls
and ends as wanted whatever they answer. What is shown with `wp` holds on every machine that
implements the interface.
-/

namespace SengOS

inductive Program (C : Type) (R : C → Type) (α : Type) where
  | done (a : α)
  | call (c : C) (k : R c → Program C R α)

/-- `permits m c`: the call may be made. `answers m c r m'`: it may return `r` and leave `m'`. -/
structure Interface (C : Type) (R : C → Type) (M : Type) where
  permits : M → C → Prop
  answers : M → (c : C) → R c → M → Prop

namespace Program

variable {C : Type} {R : C → Type} {α β : Type}

def bind (p : Program C R α) (f : α → Program C R β) : Program C R β :=
  match p with
  | done a => f a
  | call c k => call c fun r => (k r).bind f

instance : Monad (Program C R) where
  pure := done
  bind := bind

def invoke (c : C) : Program C R (R c) := call c done

/-- A loop that ends when its body has a result. `none` is a loop that has not ended yet. -/
def loop (body : Program C R (Option α)) : Nat → Program C R (Option α)
  | 0 => done none
  | turns + 1 => body.bind fun
    | some a => done (some a)
    | none => loop body turns

/-! ## Machines -/

section
variable {S : Type} (exec : S → (c : C) → R c × S)

def run (s : S) : Program C R α → α × S
  | done a => (a, s)
  | call c k => run (exec s c).2 (k (exec s c).1)

end

/-! ## Preconditions -/

section
variable {M : Type} (I : Interface C R M)

def wp : Program C R α → (α → M → Prop) → M → Prop
  | done a, Q, m => Q a m
  | call c k, Q, m => I.permits m c ∧ ∀ r m', I.answers m c r m' → (k r).wp Q m'

variable {I}

theorem wp_mono {Q Q' : α → M → Prop} (hQ : ∀ a m, Q a m → Q' a m) {p : Program C R α} {m : M}
    (h : p.wp I Q m) : p.wp I Q' m := by
  induction p generalizing m with
  | done a => exact hQ a m h
  | call c k ih => exact ⟨h.1, fun r m' ha => ih r (h.2 r m' ha)⟩

theorem wp_bind {Q : β → M → Prop} {p : Program C R α} {f : α → Program C R β} {m : M} :
    (p.bind f).wp I Q m ↔ p.wp I (fun a m' => (f a).wp I Q m') m := by
  induction p generalizing m with
  | done a => exact Iff.rfl
  | call c k ih => exact and_congr_right fun _ => forall₂_congr fun r m' => imp_congr_right fun _ => ih r

theorem wp_do {Q : β → M → Prop} {p : Program C R α} {f : α → Program C R β} {m : M} :
    (p >>= f).wp I Q m ↔ p.wp I (fun a m' => (f a).wp I Q m') m := wp_bind

theorem wp_map {Q : β → M → Prop} {f : α → β} {p : Program C R α} {m : M} :
    (f <$> p).wp I Q m ↔ p.wp I (fun a => Q (f a)) m := wp_bind

theorem wp_pure {Q : α → M → Prop} {a : α} {m : M} :
    (Pure.pure a : Program C R α).wp I Q m ↔ Q a m := Iff.rfl

theorem wp_invoke {c : C} {Q : R c → M → Prop} {m : M} :
    (invoke c : Program C R (R c)).wp I Q m ↔
      I.permits m c ∧ ∀ r m', I.answers m c r m' → Q r m' := Iff.rfl

/-- The loop rule. Each turn ends the loop or makes `left` smaller. -/
theorem wp_loop {body : Program C R (Option α)} {Q : Option α → M → Prop} (Inv : Nat → M → Prop)
    (turn : ∀ left m, Inv left m → body.wp I (fun r m' => match r with
      | some a => Q (some a) m'
      | none => ∃ l, l < left ∧ Inv l m') m)
    {turns left : Nat} (ht : left < turns) {m : M} (h : Inv left m) : (loop body turns).wp I Q m := by
  induction turns generalizing left m with
  | zero => exact absurd ht (Nat.not_lt_zero _)
  | succ turns ih =>
    refine wp_bind.mpr (wp_mono (fun r m' hr => ?_) (turn left m h))
    cases r with
    | some a => exact hr
    | none =>
      obtain ⟨l, hl, hinv⟩ := hr
      exact ih (Nat.lt_of_lt_of_le hl (Nat.le_of_lt_succ ht)) hinv

end

end Program

/-! ## Implementations -/

/-- On states that are in order, the machine answers permitted calls as the interface says of
what `abs` shows of them. -/
structure Implements {C : Type} {R : C → Type} {S M : Type} (I : Interface C R M)
    (exec : S → (c : C) → R c × S) (Inv : S → Prop) (abs : S → M) : Prop where
  keeps : ∀ s c, Inv s → I.permits (abs s) c → Inv (exec s c).2
  answers : ∀ s c, Inv s → I.permits (abs s) c → I.answers (abs s) c (exec s c).1 (abs (exec s c).2)

theorem Implements.run {C : Type} {R : C → Type} {S M α : Type} {I : Interface C R M}
    {exec : S → (c : C) → R c × S} {Inv : S → Prop} {abs : S → M} (h : Implements I exec Inv abs)
    {p : Program C R α} {Q : α → M → Prop} {s : S} (hs : Inv s) (hp : p.wp I Q (abs s)) :
    Inv (p.run exec s).2 ∧ Q (p.run exec s).1 (abs (p.run exec s).2) := by
  induction p generalizing s with
  | done a => exact ⟨hs, hp⟩
  | call c k ih => exact ih _ (h.keeps s c hs hp.1) (hp.2 _ _ (h.answers s c hs hp.1))

end SengOS
