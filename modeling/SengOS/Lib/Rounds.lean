import Mathlib.Algebra.Group.Fin.Basic
import Mathlib.Data.ZMod.Defs
import Mathlib.Data.List.Nodup

/-!
# Round robin

Slots in a circle take turns: the next turn goes to the first eligible slot behind
the one that has it. If a turn changes nobody's eligibility, except perhaps that of a
slot that had the turn without being eligible, then as many turns as there are eligible
slots go once around the circle.
-/

namespace SengOS

open Fin.CommRing

variable {m : Nat}

/-- `n` slots of the circle from `s` on. -/
def stretch (s : Fin (m + 1)) : Nat → List (Fin (m + 1))
  | 0 => []
  | n + 1 => s :: stretch (s + 1) n

theorem stretch_add (s : Fin (m + 1)) (a b : Nat) :
    stretch s (a + b) = stretch s a ++ stretch (s + (a : Fin (m + 1))) b := by
  induction a generalizing s with
  | zero => simp [stretch]
  | succ a ih =>
    have hnext : s + 1 + (a : Fin (m + 1)) = s + ((a + 1 : Nat) : Fin (m + 1)) := by
      push_cast
      rw [add_assoc, add_comm 1]
    rw [Nat.add_right_comm, stretch, stretch, ih, hnext, List.cons_append]

theorem mem_stretch {s p : Fin (m + 1)} {n : Nat} :
    p ∈ stretch s n ↔ ∃ i < n, p = s + (i : Fin (m + 1)) := by
  induction n generalizing s with
  | zero => simp [stretch]
  | succ n ih =>
    rw [stretch, List.mem_cons, ih]
    constructor
    · rintro (rfl | ⟨i, hi, rfl⟩)
      · exact ⟨0, Nat.succ_pos n, by simp⟩
      · refine ⟨i + 1, Nat.succ_lt_succ hi, ?_⟩
        push_cast
        rw [add_assoc, add_comm 1]
    · rintro ⟨i, hi, rfl⟩
      cases i with
      | zero => exact .inl (by simp)
      | succ i =>
        refine .inr ⟨i, Nat.lt_of_succ_lt_succ hi, ?_⟩
        push_cast
        rw [add_assoc, add_comm 1]

theorem natCast_ne_zero {i : Nat} (hpos : 0 < i) (hi : i < m + 1) : (i : Fin (m + 1)) ≠ 0 := by
  intro hz
  have hval := congrArg Fin.val hz
  rw [Fin.val_natCast, Nat.mod_eq_of_lt hi] at hval
  exact absurd hval (Nat.ne_of_gt hpos)

theorem stretch_nodup (s : Fin (m + 1)) {n : Nat} (h : n ≤ m + 1) : (stretch s n).Nodup := by
  induction n generalizing s with
  | zero => exact List.nodup_nil
  | succ n ih =>
    refine List.nodup_cons.mpr ⟨fun hin => ?_, ih (s + 1) (Nat.le_of_succ_le h)⟩
    obtain ⟨i, hi, hs⟩ := mem_stretch.mp hin
    apply natCast_ne_zero (m := m) (Nat.succ_pos i) (by omega)
    rw [add_assoc, left_eq_add] at hs
    push_cast
    exact (add_comm _ _).trans hs

/-- A stretch of full length comes past every slot. -/
theorem mem_circle (s p : Fin (m + 1)) : p ∈ stretch s (m + 1) := by
  refine mem_stretch.mpr ⟨(p - s).val, (p - s).isLt, ?_⟩
  rw [Fin.cast_val_eq_self, add_sub_cancel]

/-- The circle behind a slot ends with the slot. -/
theorem circle_last (s : Fin (m + 1)) : stretch (s + 1) (m + 1) = stretch (s + 1) m ++ [s] := by
  have hback : s + 1 + (m : Fin (m + 1)) = s := by
    have hround : ((m + 1 : Nat) : Fin (m + 1)) = 0 := Fin.natCast_self (m + 1)
    push_cast at hround
    rw [add_assoc, add_comm 1, hround, add_zero]
  rw [stretch_add, hback]
  rfl

theorem not_mem_behind (s : Fin (m + 1)) : s ∉ stretch (s + 1) m := by
  have hnodup := stretch_nodup (s + 1) (Nat.le_refl (m + 1))
  rw [circle_last] at hnodup
  exact fun hin => List.disjoint_of_nodup_append hnodup hin (List.mem_singleton_self s)

/-- The first slot of a stretch that satisfies `P`, and what is left of the stretch. -/
theorem find_stretch {P : Fin (m + 1) → Bool} {s z : Fin (m + 1)} {n : Nat} {zs : List (Fin (m + 1))}
    (h : (stretch s n).filter P = z :: zs) :
    (stretch s n).find? P = some z ∧ ∃ n' < n, zs = (stretch (z + 1) n').filter P ∧
      ∀ p ∈ stretch (z + 1) n', p ∈ stretch s n := by
  induction n generalizing s with
  | zero => cases h
  | succ n ih =>
    rw [stretch] at h ⊢
    cases hs : P s with
    | true =>
      rw [List.filter_cons_of_pos hs] at h
      obtain ⟨rfl, rfl⟩ := List.cons.inj h
      rw [List.find?_cons_of_pos hs]
      exact ⟨rfl, n, Nat.lt_succ_self n, rfl, fun p hp => List.mem_cons_of_mem _ hp⟩
    | false =>
      have hs' : ¬ P s = true := by
        rw [hs]
        exact Bool.false_ne_true
      rw [List.filter_cons_of_neg hs'] at h
      rw [List.find?_cons_of_neg hs']
      obtain ⟨hfind, n', hn', hzs, hmem⟩ := ih h
      exact ⟨hfind, n', Nat.lt_succ_of_lt hn', hzs, fun p hp => List.mem_cons_of_mem _ (hmem p hp)⟩

/-! ## Turns -/

/-- The slots that get the next turns: `turn` says who has it, `next` takes it on. -/
def turns {σ κ : Type} (turn : σ → Fin (m + 1)) (next : σ → κ → σ) (s : σ) : List κ → List (Fin (m + 1))
  | [] => []
  | c :: cs => turn (next s c) :: turns turn next (next s c) cs

/-- The next turn goes to the first eligible slot behind the present one, and changes nobody's
eligibility, except perhaps that of a slot which had the turn without being eligible. -/
structure RoundRobin {σ κ : Type} (inv : σ → Prop) (ok : κ → Prop) (turn : σ → Fin (m + 1))
    (eligible : σ → Fin (m + 1) → Bool) (next : σ → κ → σ) : Prop where
  keeps : ∀ s c, inv s → ok c → inv (next s c)
  first : ∀ s c, inv s → ok c →
    (stretch (turn s + 1) (m + 1)).find? (eligible s) = some (turn (next s c))
  same : ∀ s c p, inv s → ok c → p ≠ turn s ∨ eligible s (turn s) = true →
    eligible (next s c) p = eligible s p

section
variable {σ κ : Type} {inv : σ → Prop} {ok : κ → Prop} {turn : σ → Fin (m + 1)}
  {eligible : σ → Fin (m + 1) → Bool} {next : σ → κ → σ}

/-- On a stretch behind the present slot on which `P` says who is eligible, the turns go to the
slots that satisfy `P`, in the order of the stretch. -/
theorem RoundRobin.turns_stretch (h : RoundRobin inv ok turn eligible next) {P : Fin (m + 1) → Bool}
    {n : Nat} (hn : n ≤ m + 1) {s : σ} (hs : inv s)
    (hP : ∀ p ∈ stretch (turn s + 1) n, eligible s p = P p)
    (hturn : eligible s (turn s) = true ∨ turn s ∉ stretch (turn s + 1) n) {cs : List κ}
    (hok : ∀ c ∈ cs, ok c) (hlen : cs.length = ((stretch (turn s + 1) n).filter P).length) :
    turns turn next s cs = (stretch (turn s + 1) n).filter P := by
  induction cs generalizing s n with
  | nil => exact (List.length_eq_zero_iff.mp hlen.symm).symm
  | cons c cs ih =>
    obtain ⟨hc, hcs⟩ := List.forall_mem_cons.mp hok
    cases hfilter : (stretch (turn s + 1) n).filter P with
    | nil =>
      rw [hfilter] at hlen
      cases hlen
    | cons z zs =>
      obtain ⟨hfind, n', hn', hzs, hmem⟩ := find_stretch hfilter
      have hz : z ∈ stretch (turn s + 1) n := List.mem_of_find?_eq_some hfind
      have hzP : P z = true := List.find?_some hfind
      -- The first eligible slot of the whole circle is the first one of the stretch.
      have hnext : turn (next s c) = z := by
        have hcircle := h.first s c hs hc
        have heligible : (stretch (turn s + 1) n).filter (eligible s) = z :: zs := by
          rw [List.filter_congr hP, hfilter]
        have hsplit : stretch (turn s + 1) (m + 1) = stretch (turn s + 1) n ++
            stretch (turn s + 1 + (n : Fin (m + 1))) (m + 1 - n) := by
          rw [← stretch_add, Nat.add_sub_cancel' hn]
        rw [hsplit, List.find?_append, (find_stretch heligible).1, Option.some_or] at hcircle
        exact (Option.some.inj hcircle).symm
      have hsame : ∀ p ∈ stretch (turn s + 1) n, eligible (next s c) p = eligible s p := by
        intro p hp
        apply h.same s c p hs hc
        by_cases he : p = turn s
        · subst he
          exact .inr (hturn.resolve_right fun hout => hout hp)
        · exact .inl he
      have hrest := ih (n := n') (s := next s c) (by omega) (h.keeps s c hs hc)
      rw [hnext] at hrest
      rw [turns, hnext, hrest, hzs]
      · intro p hp
        rw [hsame p (hmem p hp), hP p (hmem p hp)]
      · left
        rw [hsame z hz, hP z hz, hzP]
      · exact hcs
      · rw [hfilter, List.length_cons, hzs] at hlen
        exact Nat.succ.inj hlen

/-- **One round.** As many turns as there are eligible slots go to each of them once, in the order
of the circle behind the slot that has the turn. -/
theorem RoundRobin.round (h : RoundRobin inv ok turn eligible next) {s : σ} (hs : inv s) {cs : List κ}
    (hok : ∀ c ∈ cs, ok c)
    (hlen : cs.length = ((stretch (turn s + 1) (m + 1)).filter (eligible s)).length) :
    turns turn next s cs = (stretch (turn s + 1) (m + 1)).filter (eligible s) := by
  cases hturn : eligible s (turn s) with
  | true => exact h.turns_stretch (Nat.le_refl _) hs (fun _ _ => rfl) (.inl hturn) hok hlen
  | false =>
    have hlast : (stretch (turn s + 1) (m + 1)).filter (eligible s) =
        (stretch (turn s + 1) m).filter (eligible s) := by
      rw [circle_last, List.filter_append, List.filter_cons_of_neg (by rw [hturn]; exact Bool.false_ne_true),
        List.filter_nil, List.append_nil]
    rw [hlast] at hlen ⊢
    exact h.turns_stretch (Nat.le_succ m) hs (fun _ _ => rfl) (.inr (not_mem_behind _)) hok hlen

end

end SengOS
