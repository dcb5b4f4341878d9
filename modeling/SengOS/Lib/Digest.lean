import Mathlib.Tactic.Common
import Mathlib.Logic.Function.Basic

/-!
# Rolling digests

A digest takes its input in symbol by symbol. When one more symbol keeps different states
apart, and different symbols lead to different states, a word with one symbol changed has
another digest, whatever follows the change.
-/

namespace SengOS

namespace Digest

variable {σ α ι : Type*} {step : σ → α → σ}

structure Sharp (step : σ → α → σ) : Prop where
  states : ∀ a, Function.Injective fun s => step s a
  symbols : ∀ s, Function.Injective (step s)

/-- The same symbols keep different states apart. -/
theorem Sharp.foldl_injective (h : Sharp step) (as : List α) :
    Function.Injective fun s => as.foldl step s := by
  induction as with
  | nil => exact fun _ _ heq => heq
  | cons a as ih =>
    intro s s' heq
    apply h.states a
    exact ih heq

/-- Two words that differ in the symbol of one place. -/
theorem Sharp.foldl_ne (h : Sharp step) {l : List ι} (hl : l.Nodup) {f g : ι → α} {i : ι} (hi : i ∈ l)
    (hdiff : f i ≠ g i) (hsame : ∀ j ∈ l, j ≠ i → f j = g j) (s : σ) :
    l.foldl (fun s j => step s (f j)) s ≠ l.foldl (fun s j => step s (g j)) s := by
  induction l generalizing s with
  | nil => cases hi
  | cons j l ih =>
    obtain ⟨hj, hl⟩ := List.nodup_cons.mp hl
    rw [List.foldl_cons, List.foldl_cons]
    by_cases hji : j = i
    · subst hji
      have hrest : l.map f = l.map g := by
        apply List.map_congr_left
        intro k hk
        exact hsame k (List.mem_cons_of_mem j hk) fun heq => hj (heq ▸ hk)
      have hmap (k : ι → α) (s : σ) : l.foldl (fun s j => step s (k j)) s = (l.map k).foldl step s :=
        List.foldl_map.symm
      rw [hmap f, hmap g, hrest]
      intro heq
      exact hdiff (h.symbols s (h.foldl_injective _ heq))
    · rw [hsame j List.mem_cons_self hji]
      have hin : i ∈ l := (List.mem_cons.mp hi).resolve_left (Ne.symm hji)
      exact ih hl hin (fun k hk => hsame k (List.mem_cons_of_mem j hk)) _

end Digest

end SengOS
