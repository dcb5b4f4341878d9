import Mathlib.Tactic.Common
import Mathlib.Logic.Function.Basic

/-!
# Rings of numbered lines

A buffer with `n` slots keeps a window of consecutively numbered lines, line `L` in slot
`L % n`. As long as the window has at most `n` lines, each has a slot of its own: a store
to one line leaves the others alone, and a line that enters takes the slot of one that
has left.
-/

namespace SengOS

namespace Ring

variable {α : Type*} {n first last L : Int} {buf : Int → α} {v : α} {P Q : Int → α → Prop}

/-- Each line of the window has something in its slot that `P` allows for it. -/
def Holds (n : Int) (buf : Int → α) (first last : Int) (P : Int → α → Prop) : Prop :=
  ∀ L, first ≤ L → L ≤ last → P L (buf (L % n))

theorem slot_ne {M : Int} (hne : M ≠ L) (hlo : L < M + n) (hhi : M < L + n) : M % n ≠ L % n := by
  intro heq
  apply hne
  have hdvd : n ∣ M - L :=
    Int.dvd_of_emod_eq_zero (Int.emod_eq_emod_iff_emod_sub_eq_zero.mp heq)
  have hzero : M - L = 0 := Int.eq_zero_of_dvd_of_natAbs_lt_natAbs hdvd (by omega)
  omega

theorem Holds.mono (h : Holds n buf first last P)
    (hPQ : ∀ L v, first ≤ L → L ≤ last → P L v → Q L v) : Holds n buf first last Q :=
  fun L hlo hhi => hPQ L _ hlo hhi (h L hlo hhi)

/-- Lines that leave at the lower end. -/
theorem Holds.drop {first' : Int} (h : Holds n buf first last P) (hfirst : first ≤ first') :
    Holds n buf first' last P :=
  fun L hlo hhi => h L (Int.le_trans hfirst hlo) hhi

/-- A store to a line of the window. -/
theorem Holds.write (h : Holds n buf first last P) (hsize : last < first + n) (hlo : first ≤ L)
    (hhi : L ≤ last) (hv : Q L v)
    (hPQ : ∀ M w, first ≤ M → M ≤ last → M ≠ L → P M w → Q M w) :
    Holds n (Function.update buf (L % n) v) first last Q := by
  intro M hM hM'
  by_cases hML : M = L
  · rw [hML, Function.update_self]
    exact hv
  · rw [Function.update_of_ne (slot_ne hML (by omega) (by omega))]
    exact hPQ M _ hM hM' hML (h M hM hM')

/-- A line enters at the upper end, with what is stored for it. -/
theorem Holds.push (h : Holds n buf first last P) (hsize : last + 1 < first + n)
    (hv : P (last + 1) v) : Holds n (Function.update buf ((last + 1) % n) v) first (last + 1) P := by
  intro M hM hM'
  by_cases hML : M = last + 1
  · rw [hML, Function.update_self]
    exact hv
  · rw [Function.update_of_ne (slot_ne hML (by omega) (by omega))]
    exact h M hM (by omega)

end Ring

end SengOS
