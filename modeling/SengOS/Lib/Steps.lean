import Mathlib.Tactic.Common

/-!
# Programs that can stop after any store

A program is the list of its stores in program order, each one indivisible.
`stopAfter k` is the state a stop after `k` stores leaves behind.
-/

namespace SengOS

variable {σ : Type}

def runSteps (ps : List (σ → σ)) (s : σ) : σ := ps.foldl (fun s f => f s) s

def stopAfter (k : Nat) (ps : List (σ → σ)) (s : σ) : σ := runSteps (ps.take k) s

@[simp] theorem runSteps_nil (s : σ) : runSteps [] s = s := rfl

@[simp] theorem runSteps_cons (f : σ → σ) (ps : List (σ → σ)) (s : σ) :
    runSteps (f :: ps) s = runSteps ps (f s) := rfl

theorem runSteps_append (ps qs : List (σ → σ)) (s : σ) :
    runSteps (ps ++ qs) s = runSteps qs (runSteps ps s) := by
  simp [runSteps]

@[simp] theorem stopAfter_nil (k : Nat) (s : σ) : stopAfter k [] s = s := by
  simp [stopAfter]

theorem stopAfter_zero (ps : List (σ → σ)) (s : σ) : stopAfter 0 ps s = s := by
  simp [stopAfter]

theorem stopAfter_succ_cons (k : Nat) (f : σ → σ) (ps : List (σ → σ)) (s : σ) :
    stopAfter (k + 1) (f :: ps) s = stopAfter k ps (f s) := by
  simp [stopAfter]

theorem stopAfter_length {k : Nat} {ps : List (σ → σ)} (h : ps.length ≤ k) (s : σ) :
    stopAfter k ps s = runSteps ps s := by
  simp [stopAfter, List.take_of_length_le h]

/-- A stop falls in the first part of a sequence, or in the second part with
the first one complete. -/
theorem stopAfter_append (k : Nat) (ps qs : List (σ → σ)) (s : σ) :
    stopAfter k (ps ++ qs) s =
      if k ≤ ps.length then stopAfter k ps s
      else stopAfter (k - ps.length) qs (runSteps ps s) := by
  unfold stopAfter
  rw [List.take_append, runSteps_append]
  split
  · rename_i h
    rw [Nat.sub_eq_zero_of_le h]
    simp
  · rename_i h
    rw [List.take_of_length_le (show ps.length ≤ k by omega)]

/-- What every store keeps, a stop anywhere keeps. -/
theorem stopAfter_keeps {P : σ → Prop} {ps : List (σ → σ)} (h : ∀ f ∈ ps, ∀ s, P s → P (f s))
    (k : Nat) {s : σ} (hs : P s) : P (stopAfter k ps s) := by
  induction ps generalizing s k with
  | nil => simpa using hs
  | cons f ps ih =>
    cases k with
    | zero => simpa [stopAfter_zero] using hs
    | succ k =>
      rw [stopAfter_succ_cons]
      exact ih (fun g hg => h g (List.mem_cons_of_mem _ hg)) k (h f List.mem_cons_self s hs)

/-- A loop of `n` stores, stopped after `k` of them. -/
theorem stopAfter_loop (k n : Nat) (f : Nat → σ → σ) (s : σ) :
    stopAfter k ((List.range n).map f) s = runSteps ((List.range (min k n)).map f) s := by
  rw [stopAfter, ← List.map_take, List.take_range]

/-- The loop invariant rule for a loop of stores. -/
theorem runSteps_loop {P : Nat → σ → Prop} (n : Nat) (f : Nat → σ → σ)
    (step : ∀ i s, i < n → P i s → P (i + 1) (f i s)) {s : σ} (h0 : P 0 s) :
    P n (runSteps ((List.range n).map f) s) := by
  induction n with
  | zero => simpa using h0
  | succ n ih =>
    rw [List.range_succ, List.map_append, runSteps_append]
    exact step n _ (by omega) (ih (fun i s hi => step i s (by omega)))

end SengOS
