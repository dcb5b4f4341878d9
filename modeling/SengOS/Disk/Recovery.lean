import Mathlib.Logic.Function.Iterate
import SengOS.Disk.Crash

/-!
# Recovery that is itself interrupted

`journal_recover` reads its whole decision from the header and the before-image
and clears the magic number before any other field. So an attempt that stops
anywhere leaves either the same decision to the next one, or nothing to do.
-/

namespace SengOS

/-! ## What recovery reads -/

theorem restores_congr {d e : Disk} (hh : e 254 = d 254) (hi : e 255 = d 255) (t : Nat) :
    Restores e t ↔ Restores d t := by
  have one {d e : Disk} (hh : e 254 = d 254) (hi : e 255 = d 255) (h : Restores d t) :
      Restores e t := by
    refine ⟨?_, ?_, h.range, ?_, ?_⟩
    · rw [Disk.magic, hh]; exact h.magic
    · rw [Disk.targetBlock, hh]; exact h.target
    · rw [hi, Disk.checksum, hh]; exact h.checksum
    · rw [Disk.committed, hh]; exact h.open_
  exact ⟨one hh.symm hi.symm, one hh hi⟩

/-- The list of stores by cases, as `journalRecover_cases` has the result. -/
theorem recoverSteps_cases (d : Disk) :
    (Idle d ∧ recoverSteps d = []) ∨
    (d.headerUsable = true ∧ (∀ t, ¬ Restores d t) ∧ recoverSteps d = clearSteps) ∨
    (∃ t, Restores d t ∧ recoverSteps d = copyBytes t 255 ++ clearSteps) := by
  cases hu : d.headerUsable with
  | false => exact Or.inl ⟨hu, by simp [recoverSteps, hu]⟩
  | true =>
    obtain ⟨hm, ha⟩ := (headerUsable_iff d).mp hu
    by_cases hc : checksum32 (d 255) 4096 = d.checksum
    · by_cases ho : d.committed = 0#32
      · exact Or.inr (Or.inr ⟨_, ⟨hm, rfl, ha, hc, ho⟩, by simp [recoverSteps, hu, hc, ho]⟩)
      · exact Or.inr (Or.inl ⟨rfl, fun t h => ho h.open_, by simp [recoverSteps, hu, hc, ho]⟩)
    · exact Or.inr (Or.inl ⟨rfl, fun t h => hc h.checksum, by simp [recoverSteps, hu, hc]⟩)

theorem Restores.usable {d : Disk} {t : Nat} (h : Restores d t) : d.headerUsable = true :=
  (headerUsable_iff d).mpr ⟨h.magic, h.target ▸ h.range⟩

/-! ## One attempt -/

/-- What the attempts made so far on `d` have left behind. -/
inductive Recovering (d e : Disk) : Prop
  | pending (header : e 254 = d 254) (image : e 255 = d 255)
      (frame : ∀ c, c ≠ 254 → ¬ Restores d c → e c = d c)
  | finished (idle : Idle e) (done : ∀ c, c ≠ 254 → e c = journalRecover d c)

/-- Any stop inside `journal_clear` but one before its first store has taken
the magic number away, and no block outside the header is touched. -/
theorem clearSteps_recovering {d e : Disk} (he : ∀ c, c ≠ 254 → e c = journalRecover d c)
    (h0 : Recovering d e) (k : Nat) : Recovering d (stopAfter k clearSteps e) := by
  cases k with
  | zero => rw [stopAfter_zero]; exact h0
  | succ k =>
    have keeps : (stopAfter (k + 1) clearSteps e).magic = 0 ∧
        ∀ c, c ≠ 254 → stopAfter (k + 1) clearSteps e c = journalRecover d c := by
      rw [clearSteps, stopAfter_succ_cons]
      refine stopAfter_keeps
        (P := fun x : Disk => x.magic = 0 ∧ ∀ c, c ≠ 254 → x c = journalRecover d c) ?_ k
        ⟨setHeader_word_self _ (by decide), fun c hc => (setHeader_ne hc _ _ _).trans (he c hc)⟩
      rintro f hf x ⟨hm, hx⟩
      simp only [List.mem_cons, List.not_mem_nil, or_false] at hf
      rcases hf with rfl | rfl | rfl
      all_goals
        exact ⟨(setHeader_word _ (by omega)).trans hm,
          fun c hc => (setHeader_ne hc _ _ _).trans (hx c hc)⟩
    apply Recovering.finished
    · apply idle_of_magic
      rw [keeps.1]
      decide
    · exact keeps.2

/-- An attempt on a disk that still has the header and the before-image of `d`
does what one on `d` would do. -/
theorem attempt_pending {d e : Disk} (header : e 254 = d 254) (image : e 255 = d 255)
    (frame : ∀ c, c ≠ 254 → ¬ Restores d c → e c = d c) (k : Nat) :
    Recovering d (stopAfter k (recoverSteps e) e) := by
  have h0 : Recovering d e := .pending header image frame
  rcases recoverSteps_cases e with ⟨_, hs⟩ | ⟨_, hn, hs⟩ | ⟨t, hr, hs⟩
  · rw [hs, stopAfter_nil]
    exact h0
  · rw [hs]
    apply clearSteps_recovering _ h0
    intro c hc
    have hnc : ¬ Restores d c := fun h => hn c ((restores_congr header image c).mpr h)
    rw [recover_kept hc hnc, frame c hc hnc]
  · have ht : 255 ≠ t := hr.range.2.2.symm
    have hd : Restores d t := (restores_congr header image t).mp hr
    have only {c : Nat} (h : Restores d c) : c = t := h.target.symm.trans hd.target
    have other {c : Nat} (h : ¬ Restores d c) : c ≠ t := fun e => h (e ▸ hd)
    rw [hs, stopAfter_append]
    split
    · -- Stopped among the copied bytes: header and before-image are still there.
      rw [copyBytes_stopped ht]
      apply Recovering.pending
      · rw [Disk.put_ne hr.range.2.1.symm, header]
      · rw [Disk.put_ne ht, image]
      · intro c hc hnc
        rw [Disk.put_ne (other hnc), frame c hc hnc]
    · rw [copyBytes_all ht]
      apply clearSteps_recovering
      · intro c hc
        by_cases hrc : Restores d c
        · obtain rfl := only hrc
          rw [Disk.put_self, recover_restored hrc, image]
        · rw [Disk.put_ne (other hrc), recover_kept hc hrc, frame c hc hrc]
      · apply Recovering.pending
        · rw [Disk.put_ne hr.range.2.1.symm, header]
        · rw [Disk.put_ne ht, image]
        · intro c hc hnc
          rw [Disk.put_ne (other hnc), frame c hc hnc]

theorem attempt_recovering {d e : Disk} (h : Recovering d e) (k : Nat) :
    Recovering d (stopAfter k (recoverSteps e) e) := by
  cases h with
  | pending header image frame => exact attempt_pending header image frame k
  | finished idle done =>
    have hs : recoverSteps e = [] := by
      unfold recoverSteps
      rw [show e.headerUsable = false from idle]
      rfl
    rw [hs, stopAfter_nil]
    exact .finished idle done

/-! ## Any number of attempts -/

theorem recoverAttempts_recovering (ks : List Nat) {d e : Disk} (h : Recovering d e) :
    Recovering d (recoverAttempts ks e) := by
  induction ks generalizing e with
  | nil => exact h
  | cons k ks ih => exact ih (attempt_recovering h k)

theorem journalRecover_recovering {d e : Disk} (h : Recovering d e) (n : Nat) :
    Recovering d (journalRecover^[n] e) := by
  induction n generalizing e with
  | zero => exact h
  | succ n ih =>
    rw [Function.iterate_succ_apply]
    apply ih
    rw [← runSteps_recoverSteps, ← stopAfter_length (Nat.le_refl _)]
    exact attempt_recovering h _

theorem Recovering.recover {d e : Disk} (h : Recovering d e) {c : Nat} (hc : c ≠ 254) :
    journalRecover e c = journalRecover d c := by
  cases h with
  | pending header image frame =>
    by_cases hr : Restores d c
    · rw [recover_restored ((restores_congr header image c).mpr hr), recover_restored hr, image]
    · have hre : ¬ Restores e c := fun h => hr ((restores_congr header image c).mp h)
      rw [recover_kept hc hre, recover_kept hc hr, frame c hc hr]
  | finished idle done =>
    have hre : ¬ Restores e c := by
      intro h
      have := h.usable
      rw [idle] at this
      cases this
    rw [recover_kept hc hre, done c hc]

/-- A store that changes nothing but block `t` and the four header fields,
whatever the disk holds. -/
def StoresOnly (t : Nat) (f : Disk → Disk) : Prop :=
  ∀ x : Disk, (∀ c, c ≠ t → c ≠ 254 → f x c = x c) ∧ ∀ i, 16 ≤ i → (f x 254).get i = (x 254).get i

theorem setHeader_storesOnly {o : Nat} (h : o + 4 ≤ 16) (t : Nat) (w : Word) :
    StoresOnly t (·.setHeader o w) := by
  intro x
  constructor
  · intro c _ hc
    exact setHeader_ne hc x o w
  · intro i hi
    change (x.setHeader o w 254).get i = _
    rw [Disk.setHeader, Disk.put_self, Buf.get_setWord_ne (by omega)]

theorem clearSteps_storesOnly (t : Nat) : ∀ f ∈ clearSteps, StoresOnly t f := by
  intro f hf
  simp only [clearSteps, List.mem_cons, List.not_mem_nil, or_false] at hf
  rcases hf with rfl | rfl | rfl | rfl
  all_goals exact setHeader_storesOnly (by decide) t _

theorem copyBytes_storesOnly {t : Nat} (ht : t ≠ 254) : ∀ f ∈ copyBytes t 255, StoresOnly t f := by
  intro f hf
  obtain ⟨i, -, rfl⟩ := List.mem_map.mp hf
  intro x
  constructor
  · intro c hc _
    exact Disk.put_ne hc _
  · intro j _
    change (x.setByte t i _ 254).get j = _
    rw [Disk.setByte, Disk.put_ne ht.symm]

/-- As long as an attempt has anything to store, its target is the one of the
first header. -/
theorem Recovering.storesOnly {d e : Disk} (h : Recovering d e) :
    ∀ f ∈ recoverSteps e, StoresOnly d.targetBlock.toNat f := by
  rcases recoverSteps_cases e with ⟨_, hs⟩ | ⟨_, _, hs⟩ | ⟨t, hr, hs⟩
  · simp [hs]
  · rw [hs]
    exact clearSteps_storesOnly _
  · cases h with
    | pending header image frame =>
      have hd : Restores d t := (restores_congr header image t).mp hr
      rw [hs, hd.target]
      intro f hf
      rcases List.mem_append.mp hf with hf | hf
      · exact copyBytes_storesOnly hr.range.2.1 f hf
      · exact clearSteps_storesOnly t f hf
    | finished idle done =>
      have := hr.usable
      rw [idle] at this
      cases this

/-- **Recovery can be stopped and started again.** On any disk whatsoever,
attempts stopped after `ks` stores each and then one or more complete ones give
every block outside the journal the content one uninterrupted recovery gives
it, and no store of any of them falls outside the first header's target block
and the header fields. -/
theorem recovery_restartable (d : Disk) (ks : List Nat) (n : Nat) :
    (∀ c, c ≠ 254 → c ≠ 255 →
      journalRecover^[n + 1] (recoverAttempts ks d) c = journalRecover d c) ∧
    ∀ f ∈ recoverSteps (journalRecover^[n] (recoverAttempts ks d)),
      StoresOnly d.targetBlock.toNat f := by
  have start : Recovering d d := .pending rfl rfl fun _ _ _ => rfl
  have after := journalRecover_recovering (recoverAttempts_recovering ks start) n
  constructor
  · intro c hj _
    rw [Function.iterate_succ_apply']
    exact after.recover hj
  · exact after.storesOnly

end SengOS
