import Mathlib.Data.List.Nodup

/-!
# Readers and writers

The protocol of a reader-writer lock over any kind of client. A writer that
leaves hands the lock on; the last reader that leaves only wakes a writer, which
has to try again against everybody else. Waiting readers are let in by a leaving
writer and by nobody else, so they depend on a writer that is still to come.
-/

namespace SengOS

structure ReadersWriters (α : Type) where
  writer : Option α
  /-- The clients in the read section. -/
  inside : List α
  readers : List α
  writers : List α
  /-- Writers that were woken without the lock and have not tried again. -/
  woken : List α

namespace ReadersWriters

variable {α : Type} {x y : ReadersWriters α}

/-- A writer that is still to come: the one that holds the lock, one that waits, or one that was
woken. -/
def Covered (x : ReadersWriters α) : Prop := x.writer ≠ none ∨ x.writers ≠ [] ∨ x.woken ≠ []

structure Inv (x : ReadersWriters α) : Prop where
  exclusive : x.writer ≠ none → x.inside = []
  nodup : (x.inside ++ x.readers).Nodup
  readers : x.readers ≠ [] → x.Covered
  writers : x.writers ≠ [] → x.writer ≠ none ∨ x.inside ≠ [] ∨ x.woken ≠ []

/-- Nobody is left behind: at a free lock somebody waits only while a woken writer is on its way. -/
theorem Inv.woken (h : x.Inv) (free : x.writer = none) (empty : x.inside = [])
    (waits : x.readers ≠ [] ∨ x.writers ≠ []) : x.woken ≠ [] := by
  have hwriters : x.writers ≠ [] → x.woken ≠ [] := fun hw =>
    ((h.writers hw).resolve_left fun he => he free).resolve_left fun he => he empty
  rcases waits with hr | hw
  · rcases (h.readers hr).resolve_left fun he => he free with hw | hw
    · exact hwriters hw
    · exact hw
  · exact hwriters hw

variable [DecidableEq α]

inductive Step (x : ReadersWriters α) : ReadersWriters α → Prop
  | join (p : α) (free : x.writer = none) (nobody : x.writers = []) (out : p ∉ x.inside ++ x.readers) :
      Step x { x with inside := x.inside ++ [p] }
  | queueReader (p : α) (held : x.writer ≠ none ∨ x.writers ≠ []) (out : p ∉ x.inside ++ x.readers) :
      Step x { x with readers := x.readers ++ [p] }
  | take (p : α) (free : x.writer = none) (empty : x.inside = []) :
      Step x { x with writer := some p, woken := x.woken.filter (· ≠ p) }
  | queueWriter (p : α) (held : x.writer ≠ none ∨ x.inside ≠ []) :
      Step x { x with writers := x.writers ++ [p], woken := x.woken.filter (· ≠ p) }
  | leave (p : α) (more : x.inside.erase p ≠ []) : Step x { x with inside := x.inside.erase p }
  | leaveLast (p : α) (reads : p ∈ x.inside) (last : x.inside.erase p = []) :
      Step x { x with
        inside := []
        writers := x.writers.drop 1
        woken := x.woken ++ x.writers.take 1 }
  | hand (next : α) (rest : List α) (writes : x.writer ≠ none) (first : x.writers = next :: rest) :
      Step x { x with writer := some next, writers := rest }
  | letIn (writes : x.writer ≠ none) (nobody : x.writers = []) :
      Step x { x with writer := none, inside := x.readers, readers := [] }

theorem Inv.step (h : x.Inv) (hs : Step x y) : y.Inv := by
  cases hs with
  | join p free nobody out =>
    constructor
    case exclusive => exact fun hw => absurd free hw
    case nodup =>
      have hperm : (x.inside ++ [p] ++ x.readers).Perm (p :: (x.inside ++ x.readers)) := by
        rw [List.append_assoc]
        exact List.perm_middle
      exact hperm.nodup_iff.mpr (List.nodup_cons.mpr ⟨out, h.nodup⟩)
    case readers => exact h.readers
    case writers => exact fun hw => absurd nobody hw
  | queueReader p held out =>
    constructor
    case exclusive => exact h.exclusive
    case nodup =>
      have hperm : (x.inside ++ (x.readers ++ [p])).Perm (p :: (x.inside ++ x.readers)) := by
        rw [← List.append_assoc]
        exact List.perm_append_singleton p _
      exact hperm.nodup_iff.mpr (List.nodup_cons.mpr ⟨out, h.nodup⟩)
    case readers => exact fun _ => held.imp_right .inl
    case writers => exact h.writers
  | take p free empty =>
    constructor
    case exclusive => exact fun _ => empty
    case nodup => exact h.nodup
    case readers => exact fun _ => .inl nofun
    case writers => exact fun _ => .inl nofun
  | queueWriter p held =>
    constructor
    case exclusive => exact h.exclusive
    case nodup => exact h.nodup
    case readers => exact fun _ => .inr (.inl (List.append_ne_nil_of_right_ne_nil _ nofun))
    case writers => exact fun _ => held.imp_right .inl
  | leave p more =>
    have hin : x.inside ≠ [] := by
      intro he
      rw [he] at more
      exact more rfl
    constructor
    case exclusive => exact fun hw => absurd (h.exclusive hw) hin
    case nodup => exact h.nodup.sublist ((List.erase_sublist).append_right _)
    case readers => exact h.readers
    case writers => exact fun _ => .inr (.inl more)
  | leaveLast p reads last =>
    have hfree : x.writer = none := by
      by_contra hw
      rw [h.exclusive hw] at reads
      cases reads
    constructor
    case exclusive => exact fun _ => rfl
    case nodup => exact h.nodup.of_append_right
    case readers =>
      intro hr
      -- A waiting writer is woken, and without one the readers were covered by a woken one before.
      cases hq : x.writers with
      | nil =>
        have hwoken := ((h.readers hr).resolve_left fun hw => hw hfree).resolve_left fun hw => hw hq
        exact .inr (.inr (List.append_ne_nil_of_left_ne_nil hwoken _))
      | cons next rest => exact .inr (.inr (List.append_ne_nil_of_right_ne_nil _ nofun))
    case writers =>
      intro hw
      have hq : x.writers.take 1 ≠ [] := by
        intro he
        rcases List.take_eq_nil_iff.mp he with h1 | h1
        · cases h1
        · exact hw (by rw [show x.writers = [] from h1]; rfl)
      exact .inr (.inr (List.append_ne_nil_of_right_ne_nil _ hq))
  | hand next rest writes first =>
    constructor
    case exclusive => exact fun _ => h.exclusive writes
    case nodup => exact h.nodup
    case readers => exact fun _ => .inl nofun
    case writers => exact fun _ => .inl nofun
  | letIn writes nobody =>
    constructor
    case exclusive => exact fun hw => absurd rfl hw
    case nodup =>
      rw [List.append_nil]
      exact h.nodup.of_append_right
    case readers => exact fun hr => absurd rfl hr
    case writers => exact fun hw => absurd nobody hw

end ReadersWriters

end SengOS
