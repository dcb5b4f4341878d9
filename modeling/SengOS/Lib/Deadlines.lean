import Mathlib.Data.List.Sort

/-!
# Queues ordered by a deadline

Entries are queued by the value of a key, equal ones in the order in which they
came: a new entry moves from the end to the front past every later one. Whoever
takes entries from the front while they are due, and stops at the first that is
not, has taken all that are due.
-/

namespace SengOS

variable {α : Type}

/-- The queue is in the order of its keys. -/
def ByKey (key : α → Nat) (q : List α) : Prop := q.Pairwise fun a b => key a ≤ key b

/-- Insertion from the end. -/
def insertByKey (key : α → Nat) (a : α) (q : List α) : List α :=
  (q.reverse.orderedInsert (fun a b => key b ≤ key a) a).reverse

section
variable {key : α → Nat} {q : List α}

theorem insertByKey_perm (key : α → Nat) (a : α) (q : List α) :
    (insertByKey key a q).Perm (a :: q) :=
  (List.reverse_perm _).trans ((List.perm_orderedInsert _ _ _).trans ((List.reverse_perm q).cons a))

theorem ByKey.insert (h : ByKey key q) (a : α) : ByKey key (insertByKey key a q) := by
  have total : Std.Total fun a b : α => key b ≤ key a := ⟨fun a b => Nat.le_total _ _⟩
  have trans : IsTrans α fun a b => key b ≤ key a := ⟨fun a b c hab hbc => Nat.le_trans hbc hab⟩
  unfold ByKey insertByKey
  rw [List.pairwise_reverse]
  apply List.Pairwise.orderedInsert
  rw [List.pairwise_reverse]
  exact h

/-- Only the keys of the entries matter. -/
theorem ByKey.congr {key' : α → Nat} (h : ByKey key q) (same : ∀ a ∈ q, key' a = key a) :
    ByKey key' q := by
  apply List.Pairwise.imp_of_mem _ h
  intro a b ha hb hab
  rw [same a ha, same b hb]
  exact hab

theorem ByKey.erase [DecidableEq α] (h : ByKey key q) (a : α) : ByKey key (q.erase a) :=
  h.sublist List.erase_sublist

/-- Behind an entry that is not due nobody is. -/
theorem ByKey.not_due (h : ByKey key q) {t : Nat} (first : ∀ a ∈ q.head?, t < key a) :
    ∀ a ∈ q, t < key a := by
  cases q with
  | nil => simp
  | cons b q =>
    have hb : t < key b := first b rfl
    intro a ha
    rcases List.mem_cons.mp ha with rfl | ha
    · exact hb
    · exact Nat.lt_of_lt_of_le hb (List.rel_of_pairwise_cons h ha)

end

end SengOS
