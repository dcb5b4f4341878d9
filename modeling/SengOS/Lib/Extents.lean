import Mathlib.Tactic.Common
import Mathlib.Algebra.GroupWithZero.Nat

/-!
# Extents

Runs of addresses, as an allocator cuts a pool into pieces. Cutting a piece in
two and joining two neighbours keep the pieces apart and keep their total size;
pieces that are dropped keep the rest apart.
-/

namespace SengOS

/-- The `size` addresses from `start` on. -/
structure Extent where
  start : Nat
  size : Nat

namespace Extent

def Has (e : Extent) (x : Nat) : Prop := e.start ≤ x ∧ x < e.start + e.size

def Apart (e f : Extent) : Prop := ∀ x, e.Has x → ¬ f.Has x

theorem Apart.symm {e f : Extent} (h : e.Apart f) : f.Apart e := fun x hf he => h x he hf

/-- Pieces of the pool between `lo` and `hi`, no two of which overlap. -/
structure Packed (lo hi : Nat) (es : List Extent) : Prop where
  inside : ∀ e ∈ es, lo ≤ e.start ∧ e.start + e.size ≤ hi
  apart : es.Pairwise Apart

def total (es : List Extent) : Nat := (es.map size).sum

@[simp] theorem total_cons (e : Extent) (es : List Extent) : total (e :: es) = e.size + total es := by
  simp [total]

@[simp] theorem total_append (es fs : List Extent) : total (es ++ fs) = total es + total fs := by
  simp [total]

theorem total_perm {es fs : List Extent} (h : es.Perm fs) : total es = total fs :=
  (h.map size).sum_nat

theorem Packed.perm {lo hi : Nat} {es fs : List Extent} (h : Packed lo hi es) (hp : es.Perm fs) :
    Packed lo hi fs :=
  ⟨fun e he => h.inside e (hp.mem_iff.mpr he), hp.pairwise h.apart Apart.symm⟩

theorem Packed.sublist {lo hi : Nat} {es fs : List Extent} (h : Packed lo hi es)
    (hs : fs.Sublist es) : Packed lo hi fs :=
  ⟨fun e he => h.inside e (hs.mem he), h.apart.sublist hs⟩

/-- The pieces of `es` cut and joined anew. -/
inductive Recut : List Extent → List Extent → Prop
  | perm {es fs : List Extent} : es.Perm fs → Recut es fs
  | split (a m n : Nat) (es : List Extent) : Recut (⟨a, m + n⟩ :: es) (⟨a, m⟩ :: ⟨a + m, n⟩ :: es)
  | join (a m n : Nat) (es : List Extent) : Recut (⟨a, m⟩ :: ⟨a + m, n⟩ :: es) (⟨a, m + n⟩ :: es)
  | trans {es fs gs : List Extent} : Recut es fs → Recut fs gs → Recut es gs

theorem Recut.refl (es : List Extent) : Recut es es := .perm (List.Perm.refl es)

theorem Recut.append {es fs : List Extent} (h : Recut es fs) (gs : List Extent) :
    Recut (es ++ gs) (fs ++ gs) := by
  induction h with
  | perm hp => exact .perm (hp.append_right gs)
  | split a m n es => exact .split a m n (es ++ gs)
  | join a m n es => exact .join a m n (es ++ gs)
  | trans _ _ ih₁ ih₂ => exact ih₁.trans ih₂

theorem Recut.total_eq {es fs : List Extent} (h : Recut es fs) : total es = total fs := by
  induction h with
  | perm hp => exact total_perm hp
  | split a m n es => simp only [total_cons]; omega
  | join a m n es => simp only [total_cons]; omega
  | trans _ _ ih₁ ih₂ => exact ih₁.trans ih₂

theorem has_split (a m n x : Nat) :
    Has ⟨a, m + n⟩ x ↔ Has ⟨a, m⟩ x ∨ Has ⟨a + m, n⟩ x := by
  simp only [Has]
  omega

theorem Packed.split {lo hi a m n : Nat} {es : List Extent} (h : Packed lo hi (⟨a, m + n⟩ :: es)) :
    Packed lo hi (⟨a, m⟩ :: ⟨a + m, n⟩ :: es) := by
  obtain ⟨hhead, htail⟩ := List.pairwise_cons.mp h.apart
  have hin := h.inside _ List.mem_cons_self
  dsimp only at hin
  constructor
  · intro e he
    simp only [List.mem_cons] at he
    obtain rfl | rfl | he := he
    · exact ⟨hin.1, by dsimp only; omega⟩
    · exact ⟨by dsimp only; omega, by dsimp only; omega⟩
    · exact h.inside e (List.mem_cons_of_mem _ he)
  · apply List.Pairwise.cons
    · intro e he x hx
      rcases List.mem_cons.mp he with rfl | he
      · simp only [Has] at hx ⊢
        omega
      · exact hhead e he x ((has_split a m n x).mpr (.inl hx))
    · apply List.Pairwise.cons
      · intro e he x hx
        exact hhead e he x ((has_split a m n x).mpr (.inr hx))
      · exact htail

theorem Packed.join {lo hi a m n : Nat} {es : List Extent}
    (h : Packed lo hi (⟨a, m⟩ :: ⟨a + m, n⟩ :: es)) : Packed lo hi (⟨a, m + n⟩ :: es) := by
  obtain ⟨hfst, hrest⟩ := List.pairwise_cons.mp h.apart
  obtain ⟨hsnd, htail⟩ := List.pairwise_cons.mp hrest
  have hin₁ := h.inside _ List.mem_cons_self
  have hin₂ := h.inside _ (List.mem_cons_of_mem _ List.mem_cons_self)
  dsimp only at hin₁ hin₂
  constructor
  · intro e he
    rcases List.mem_cons.mp he with rfl | he
    · exact ⟨hin₁.1, by dsimp only; omega⟩
    · exact h.inside e (List.mem_cons_of_mem _ (List.mem_cons_of_mem _ he))
  · apply List.Pairwise.cons
    · intro e he x hx
      rcases (has_split a m n x).mp hx with hx | hx
      · exact hfst e (List.mem_cons_of_mem _ he) x hx
      · exact hsnd e he x hx
    · exact htail

theorem Recut.packed {lo hi : Nat} {es fs : List Extent} (h : Recut es fs) (hp : Packed lo hi es) :
    Packed lo hi fs := by
  induction h with
  | perm hperm => exact hp.perm hperm
  | split a m n es => exact hp.split
  | join a m n es => exact hp.join
  | trans _ _ ih₁ ih₂ => exact ih₂ (ih₁ hp)

end Extent

end SengOS
