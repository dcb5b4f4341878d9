import Mathlib.Data.List.Nodup

/-!
# Tables of slots

A table has a fixed set of slots, some of them full. When one slot is filled,
what the full slots hold together gains what that slot holds; the rest of the
table counts as before.
-/

namespace SengOS

variable {ι β : Type} {slots : List ι} {full full' : ι → Bool} {content content' : ι → β} {p : ι}

/-- What the full slots hold. -/
def holdings (slots : List ι) (full : ι → Bool) (content : ι → β) : List β :=
  (slots.filter full).map content

theorem mem_holdings {b : β} :
    b ∈ holdings slots full content ↔ ∃ i ∈ slots, full i = true ∧ content i = b := by
  simp only [holdings, List.mem_map, List.mem_filter, and_assoc]

theorem holdings_congr (h : ∀ i, full' i = full i ∧ (full i = true → content' i = content i)) :
    holdings slots full' content' = holdings slots full content := by
  have hfull : full' = full := funext fun i => (h i).1
  rw [holdings, hfull]
  exact List.map_congr_left fun i hi => (h i).2 (List.mem_filter.mp hi).2

/-- One slot is filled. -/
theorem holdings_fill (hs : slots.Nodup) (hp : p ∈ slots) (empty : full p = false)
    (taken : full' p = true)
    (others : ∀ i, i ≠ p → full' i = full i ∧ (full i = true → content' i = content i)) :
    (holdings slots full' content').Perm (content' p :: holdings slots full content) := by
  have hout : p ∉ slots.filter full := by
    intro hin
    rw [(List.mem_filter.mp hin).2] at empty
    cases empty
  have hperm : (slots.filter full').Perm (p :: slots.filter full) := by
    apply (List.perm_ext_iff_of_nodup (hs.filter _) (List.nodup_cons.mpr ⟨hout, hs.filter _⟩)).mpr
    intro i
    rw [List.mem_cons, List.mem_filter, List.mem_filter]
    by_cases hi : i = p
    · simp [hi, hp, taken]
    · simp [hi, (others i hi).1]
  have hsame : (slots.filter full).map content' = holdings slots full content := by
    refine List.map_congr_left fun i hi => (others i ?_).2 (List.mem_filter.mp hi).2
    rintro rfl
    exact hout hi
  rw [← hsame]
  exact hperm.map content'

/-- One slot is emptied. -/
theorem holdings_clear (hs : slots.Nodup) (hp : p ∈ slots) (was : full p = true)
    (now : full' p = false)
    (others : ∀ i, i ≠ p → full' i = full i ∧ (full i = true → content' i = content i)) :
    (holdings slots full content).Perm (content p :: holdings slots full' content') := by
  apply holdings_fill hs hp now was
  intro i hi
  obtain ⟨hfull, hcontent⟩ := others i hi
  exact ⟨hfull.symm, fun hf => (hcontent (hfull ▸ hf)).symm⟩

theorem holdings_length : (holdings slots full content).length = (slots.filter full).length := by
  rw [holdings, List.length_map]

end SengOS
