import Mathlib.Tactic.Common

/-!
# Links

A list that is threaded through its own nodes: each node holds a link to the
next one, and the last one links to `nil`. Such a list has no cycle and is
determined by its head.
-/

namespace SengOS

variable {α : Type} {next next' : α → α} {nil head : α} {as : List α}

/-- `as` are the nodes from `head` on. -/
def Links (next : α → α) (nil : α) : α → List α → Prop
  | head, [] => head = nil
  | head, a :: as => head = a ∧ a ≠ nil ∧ Links next nil (next a) as

namespace Links

/-- Only the links of the nodes matter. -/
theorem congr (h : Links next nil head as) (same : ∀ a ∈ as, next' a = next a) :
    Links next' nil head as := by
  induction as generalizing head with
  | nil => exact h
  | cons a as ih =>
    obtain ⟨hhead, hne, htail⟩ := h
    refine ⟨hhead, hne, ?_⟩
    rw [same a List.mem_cons_self]
    exact ih htail fun b hb => same b (List.mem_cons_of_mem _ hb)

theorem push (h : Links next nil head as) {a : α} (hne : a ≠ nil) (hlink : next' a = head)
    (same : ∀ b ∈ as, next' b = next b) : Links next' nil a (a :: as) := by
  refine ⟨rfl, hne, ?_⟩
  rw [hlink]
  exact h.congr same

theorem pop (h : Links next nil head as) (hne : head ≠ nil) :
    ∃ rest, as = head :: rest ∧ Links next nil (next head) rest := by
  cases as with
  | nil => exact absurd h hne
  | cons a rest =>
    obtain ⟨rfl, -, htail⟩ := h
    exact ⟨rest, rfl, htail⟩

theorem eq_nil (h : Links next nil nil as) : as = [] := by
  cases as with
  | nil => rfl
  | cons a rest => exact absurd h.1.symm h.2.1

theorem unique {bs : List α} (h : Links next nil head as) (h' : Links next nil head bs) : as = bs := by
  induction as generalizing head bs with
  | nil =>
    have hnil : head = nil := h
    rw [hnil] at h'
    exact h'.eq_nil.symm
  | cons a as ih =>
    obtain ⟨rfl, hne, htail⟩ := h
    obtain ⟨rest, rfl, htail'⟩ := h'.pop hne
    rw [ih htail htail']

theorem suffix {bs : List α} {b : α} (h : Links next nil head (as ++ b :: bs)) :
    Links next nil b (b :: bs) := by
  induction as generalizing head with
  | nil =>
    obtain ⟨-, hne, htail⟩ := h
    exact ⟨rfl, hne, htail⟩
  | cons a as ih => exact ih h.2.2

/-- A node that came up again would have to link to a shorter list. -/
theorem nodup (h : Links next nil head as) : as.Nodup := by
  induction as generalizing head with
  | nil => exact List.nodup_nil
  | cons a as ih =>
    refine List.nodup_cons.mpr ⟨fun hmem => ?_, ih h.2.2⟩
    obtain ⟨front, back, rfl⟩ := List.append_of_mem hmem
    have hfirst : Links next nil a (a :: (front ++ a :: back)) := ⟨rfl, h.2⟩
    have hagain : Links next nil a (a :: back) := h.2.2.suffix
    have hlen := congrArg List.length (hfirst.unique hagain)
    simp at hlen
    omega

end Links

end SengOS
