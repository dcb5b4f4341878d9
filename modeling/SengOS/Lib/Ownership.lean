import Mathlib.Tactic.Common

/-!
# Ownership of a pool

Objects `ι` hold units of a pool through pointer slots `σ`; 0 is the null
pointer. `Ownership` says that no two slots hold the same unit and that the
used marks of the pool `[lo, hi)` are exactly the units held. The three
update rules are the only ways the file system changes who holds what.
-/

namespace SengOS

variable {ι σ : Type}

/-- `fixed` are the pointers that lead outside the pool. -/
structure Ownership (live : ι → Prop) (ptr : ι → σ → Nat) (used : Nat → Prop) (lo hi : Nat)
    (fixed : ι → σ → Nat → Prop) : Prop where
  range : ∀ i s, live i → ptr i s ≠ 0 → (lo ≤ ptr i s ∧ ptr i s < hi) ∨ fixed i s (ptr i s)
  inj : ∀ i s j t, live i → live j → ptr i s ≠ 0 → ptr i s = ptr j t → i = j ∧ s = t
  used_iff : ∀ b, lo ≤ b → b < hi → (used b ↔ ∃ i s, live i ∧ ptr i s = b)

namespace Ownership

variable {live live' : ι → Prop} {ptr ptr' : ι → σ → Nat} {used used' : Nat → Prop} {lo hi : Nat}
  {fixed : ι → σ → Nat → Prop}

theorem free_not_held (h : Ownership live ptr used lo hi fixed) {b : Nat} (hl : lo ≤ b) (hh : b < hi)
    (hf : ¬ used b) {i : ι} (hi : live i) (s : σ) : ptr i s ≠ b :=
  fun e => hf ((h.used_iff b hl hh).mpr ⟨i, s, hi, e⟩)

theorem held_used (h : Ownership live ptr used lo hi fixed) {i : ι} {s : σ} (hi' : live i)
    (hl : lo ≤ ptr i s) (hh : ptr i s < hi) : used (ptr i s) :=
  (h.used_iff _ hl hh).mpr ⟨i, s, hi', rfl⟩

/-- Who holds what determines the marks. -/
theorem used_unique {fixed' : ι → σ → Nat → Prop} (h : Ownership live ptr used lo hi fixed)
    (h' : Ownership live' ptr' used' lo hi fixed') (hl : ∀ i, live' i ↔ live i)
    (hp : ∀ i s, live i → ptr' i s = ptr i s) {b : Nat} (hlo : lo ≤ b) (hhi : b < hi) :
    used' b ↔ used b := by
  rw [h.used_iff b hlo hhi, h'.used_iff b hlo hhi]
  constructor
  · rintro ⟨i, s, hi, rfl⟩
    exact ⟨i, s, (hl i).mp hi, (hp i s ((hl i).mp hi)).symm⟩
  · rintro ⟨i, s, hi, rfl⟩
    exact ⟨i, s, (hl i).mpr hi, hp i s hi⟩

/-- Nobody's pointers change. -/
theorem congr (h : Ownership live ptr used lo hi fixed)
    (new : ∀ i s, live' i → ptr' i s ≠ 0 → live i ∧ ptr' i s = ptr i s)
    (old : ∀ i s, live i → ptr i s ≠ 0 → live' i ∧ ptr' i s = ptr i s)
    (lo_pos : 0 < lo) (hu : ∀ b, lo ≤ b → b < hi → (used' b ↔ used b)) :
    Ownership live' ptr' used' lo hi fixed := by
  constructor
  · intro i s hi hne
    obtain ⟨hl, he⟩ := new i s hi hne
    rw [he] at hne ⊢
    exact h.range i s hl hne
  · intro i s j t hi hj hne heq
    obtain ⟨hi, he⟩ := new i s hi hne
    obtain ⟨hj, he'⟩ := new j t hj (heq ▸ hne)
    exact h.inj i s j t hi hj (he ▸ hne) (by rw [← he, ← he', heq])
  · intro b hlo hhi
    rw [hu b hlo hhi, h.used_iff b hlo hhi]
    constructor
    · rintro ⟨i, s, hi, rfl⟩
      obtain ⟨hi', he⟩ := old i s hi (by omega)
      exact ⟨i, s, hi', he⟩
    · rintro ⟨i, s, hi, rfl⟩
      obtain ⟨hi', he⟩ := new i s hi (by omega)
      exact ⟨i, s, hi', he.symm⟩

/-- One slot takes a free unit; its object may be a new one. -/
theorem grow (h : Ownership live ptr used lo hi fixed) (i₀ : ι) (s₀ : σ) {b : Nat}
    (hlo : lo ≤ b) (hhi : b < hi) (lo_pos : 0 < lo) (free : ¬ used b)
    (new : ∀ i s, live' i → ptr' i s ≠ 0 → (i = i₀ ∧ s = s₀) ∨ (live i ∧ ptr' i s = ptr i s))
    (old : ∀ i s, live i → ptr i s ≠ 0 → live' i ∧ ptr' i s = ptr i s)
    (taken : live' i₀ ∧ ptr' i₀ s₀ = b)
    (hu : ∀ c, lo ≤ c → c < hi → (used' c ↔ used c ∨ c = b)) :
    Ownership live' ptr' used' lo hi fixed := by
  have fresh {i : ι} {s : σ} (hi : live i) : ptr i s ≠ b := h.free_not_held hlo hhi free hi s
  constructor
  · intro i s hi hne
    rcases new i s hi hne with ⟨rfl, rfl⟩ | ⟨hl, he⟩
    · rw [taken.2]; exact Or.inl ⟨hlo, hhi⟩
    · rw [he] at hne ⊢
      exact h.range i s hl hne
  · intro i s j t hi hj hne heq
    rcases new i s hi hne with ⟨rfl, rfl⟩ | ⟨hl, he⟩
    · rcases new j t hj (heq ▸ hne) with ⟨rfl, rfl⟩ | ⟨hl', he'⟩
      · exact ⟨rfl, rfl⟩
      · exact absurd (by rw [← he', ← heq, taken.2]) (fresh hl' (s := t))
    · rcases new j t hj (heq ▸ hne) with ⟨rfl, rfl⟩ | ⟨hl', he'⟩
      · exact absurd (by rw [← he, heq, taken.2]) (fresh hl (s := s))
      · exact h.inj i s j t hl hl' (he ▸ hne) (by rw [← he, ← he', heq])
  · intro c hlc hhc
    rw [hu c hlc hhc, h.used_iff c hlc hhc]
    constructor
    · rintro (⟨i, s, hi, rfl⟩ | rfl)
      · obtain ⟨hi', he⟩ := old i s hi (by omega)
        exact ⟨i, s, hi', he⟩
      · exact ⟨i₀, s₀, taken⟩
    · rintro ⟨i, s, hi, rfl⟩
      rcases new i s hi (by omega) with ⟨rfl, rfl⟩ | ⟨hl, he⟩
      · exact Or.inr taken.2
      · exact Or.inl ⟨i, s, hl, he.symm⟩

/-- One object gives back everything it holds. -/
theorem release (h : Ownership live ptr used lo hi fixed) {i₀ : ι} (live₀ : live i₀)
    (lo_pos : 0 < lo)
    (new : ∀ i s, live' i → ptr' i s ≠ 0 → i ≠ i₀ ∧ live i ∧ ptr' i s = ptr i s)
    (old : ∀ i s, live i → i ≠ i₀ → ptr i s ≠ 0 → live' i ∧ ptr' i s = ptr i s)
    (hu : ∀ c, lo ≤ c → c < hi → (used' c ↔ used c ∧ ∀ s, ptr i₀ s ≠ c)) :
    Ownership live' ptr' used' lo hi fixed := by
  constructor
  · intro i s hi hne
    obtain ⟨-, hl, he⟩ := new i s hi hne
    rw [he] at hne ⊢
    exact h.range i s hl hne
  · intro i s j t hi hj hne heq
    obtain ⟨-, hl, he⟩ := new i s hi hne
    obtain ⟨-, hl', he'⟩ := new j t hj (heq ▸ hne)
    exact h.inj i s j t hl hl' (he ▸ hne) (by rw [← he, ← he', heq])
  · intro c hlc hhc
    rw [hu c hlc hhc, h.used_iff c hlc hhc]
    constructor
    · rintro ⟨⟨i, s, hi, rfl⟩, hn⟩
      have hne : i ≠ i₀ := fun e => hn s (by rw [e])
      obtain ⟨hi', he⟩ := old i s hi hne (by omega)
      exact ⟨i, s, hi', he⟩
    · rintro ⟨i, s, hi, rfl⟩
      obtain ⟨hne, hl, he⟩ := new i s hi (by omega)
      refine ⟨⟨i, s, hl, he.symm⟩, fun t e => hne ?_⟩
      exact ((h.inj i₀ t i s live₀ hl (by omega) (e.trans he)).1).symm

end Ownership

end SengOS
