import SengOS.Disk.Ramdisk

/-!
# Stops inside a journalled block write

A stop after any store of `ramdisk_write_block`, followed by `ramdisk_init`.
The header is set field by field with the magic number first, so for one store
it mixes the new magic number with the fields the last transaction left there.
-/

namespace SengOS

/-- Recovery would copy the before-image over block `t`. -/
structure Restores (d : Disk) (t : Nat) : Prop where
  magic : d.magic = journalMagic
  target : d.targetBlock.toNat = t
  range : Accepted t
  checksum : checksum32 (d 255) 4096 = d.checksum
  open_ : d.committed = 0#32

theorem headerUsable_iff (d : Disk) :
    d.headerUsable = true ↔ d.magic = journalMagic ∧ Accepted d.targetBlock.toNat := by
  simp [Disk.headerUsable, Accepted, and_assoc]

theorem headerUsable_congr {d e : Disk} (h : d 254 = e 254) : d.headerUsable = e.headerUsable := by
  apply Bool.eq_iff_iff.mpr
  rw [headerUsable_iff, headerUsable_iff, Disk.magic, Disk.targetBlock, h]
  rfl

/-- Recovery by cases: nothing, a cleared header, or a restored block. -/
theorem journalRecover_cases (d : Disk) :
    (d.headerUsable = false ∧ journalRecover d = d) ∨
    (d.headerUsable = true ∧ (∀ t, ¬ Restores d t) ∧ journalRecover d = journalClear d) ∨
    (∃ t, Restores d t ∧ journalRecover d = journalClear (d.put t (d 255))) := by
  cases hu : d.headerUsable with
  | false => exact Or.inl ⟨rfl, by simp [journalRecover, hu]⟩
  | true =>
    obtain ⟨hm, ha⟩ := (headerUsable_iff d).mp hu
    by_cases hc : checksum32 (d 255) 4096 = d.checksum
    · by_cases ho : d.committed = 0#32
      · exact Or.inr (Or.inr ⟨_, ⟨hm, rfl, ha, hc, ho⟩, by simp [journalRecover, hu, hc, ho]⟩)
      · exact Or.inr (Or.inl ⟨rfl, fun t h => ho h.open_, by simp [journalRecover, hu, hc, ho]⟩)
    · exact Or.inr (Or.inl ⟨rfl, fun t h => hc h.checksum, by simp [journalRecover, hu, hc]⟩)

theorem recover_restored {d : Disk} {t : Nat} (h : Restores d t) :
    journalRecover d t = d 255 := by
  rcases journalRecover_cases d with ⟨hu, _⟩ | ⟨_, hn, _⟩ | ⟨u, hr, he⟩
  · have := (headerUsable_iff d).mpr ⟨h.magic, h.target ▸ h.range⟩
    simp [hu] at this
  · exact absurd h (hn t)
  · have : u = t := hr.target.symm.trans h.target
    subst this
    rw [he, journalClear_ne h.range.2.1, Disk.put_self]

theorem recover_kept {d : Disk} {c : Nat} (hc : c ≠ 254) (h : ¬ Restores d c) :
    journalRecover d c = d c := by
  rcases journalRecover_cases d with ⟨_, he⟩ | ⟨_, _, he⟩ | ⟨u, hr, he⟩
  · rw [he]
  · rw [he, journalClear_ne hc]
  · have : c ≠ u := fun e => h (e ▸ hr)
    rw [he, journalClear_ne hc, Disk.put_ne this]

/-! ## Idle journals -/

/-- The header describes no transaction: what `ramdisk_init` and every
completed write leave behind. -/
def Idle (d : Disk) : Prop := d.headerUsable = false

theorem setHeader_word {d : Disk} {o p : Nat} (w : Word) (h : p + 4 ≤ o ∨ o + 4 ≤ p) :
    (d.setHeader o w 254).word p = (d 254).word p := by
  rw [Disk.setHeader, Disk.put_self, Buf.word_setWord_ne h]

theorem setHeader_word_self {d : Disk} {o : Nat} (w : Word) (h : o + 4 ≤ 4096) :
    (d.setHeader o w 254).word o = w := by
  rw [Disk.setHeader, Disk.put_self, Buf.word_setWord_self h]

theorem journalClear_magic (d : Disk) : (journalClear d).magic = 0 := by
  unfold journalClear Disk.magic
  rw [setHeader_word _ (by omega), setHeader_word _ (by omega), setHeader_word _ (by omega),
    setHeader_word_self _ (by decide)]

theorem idle_of_magic {d : Disk} (h : d.magic ≠ journalMagic) : Idle d := by
  unfold Idle
  rw [← Bool.not_eq_true, headerUsable_iff]
  exact fun hu => h hu.1

theorem journalClear_idle (d : Disk) : Idle (journalClear d) := by
  apply idle_of_magic
  rw [journalClear_magic]
  decide

theorem journalRecover_idle (d : Disk) : Idle (journalRecover d) := by
  rcases journalRecover_cases d with ⟨hu, he⟩ | ⟨_, _, he⟩ | ⟨_, _, he⟩
  · rw [he]; exact hu
  · rw [he]; exact journalClear_idle d
  · rw [he]; exact journalClear_idle _

theorem ramdiskInit_idle {d : Disk} (h : Idle d) : ramdiskInit d = d := by
  have hu : d.headerUsable = false := h
  simp [ramdiskInit, journalRecover, hu]

theorem write_idle {block : Nat} (h : Accepted block) (d : Disk) (buf : Block) :
    Idle (ramdiskWriteBlock d block buf).2 := by
  simp only [ramdiskWriteBlock, h, ↓reduceIte]
  exact journalClear_idle _

/-- Recovery attempts that are themselves stopped, after `ks` stores each. -/
def recoverAttempts (ks : List Nat) (d : Disk) : Disk :=
  ks.foldl (fun d k => stopAfter k (recoverSteps d) d) d

/-- Disks reached by completed writes and by writes that stopped anywhere,
each followed by any number of stopped recoveries and one complete one. -/
inductive Disk.Reachable : Disk → Prop
  | blank : Disk.Reachable Disk.blank
  | write {d : Disk} {block : Nat} (h : Accepted block) (buf : Block) :
      Disk.Reachable d → Disk.Reachable (ramdiskWriteBlock d block buf).2
  | crash {d : Disk} {block : Nat} (h : Accepted block) (buf : Block) (k : Nat) (ks : List Nat) :
      Disk.Reachable d →
      Disk.Reachable (ramdiskInit (recoverAttempts ks (stopAfter k (writeBlockSteps block buf) d)))

theorem Disk.Reachable.idle {d : Disk} (h : Disk.Reachable d) : Idle d := by
  cases h with
  | blank =>
    apply idle_of_magic
    rw [Disk.magic, Disk.blank, Buf.word_zero]
    decide
  | write h buf _ => exact write_idle h _ buf
  | crash h buf k ks _ => exact journalRecover_idle _

/-! ## Every point at which a write can stop -/

/-- A stop after `k` stores, then recovery: the target is old or new as a
whole, and every other block outside the journal is untouched. -/
def AtomicAt (d : Disk) (block : Nat) (buf : Block) (k : Nat) : Prop :=
  let r := ramdiskInit (stopAfter k (writeBlockSteps block buf) d)
  (r block = d block ∨ r block = buf) ∧
  ∀ c, c < 256 → c ≠ 254 → c ≠ 255 → c ≠ block → r c = d c

/-- The fields left in an idle header would pass for a transaction on another
block as soon as the magic number is back and `block`'s content is the
before-image: for the cleared header, `block` is not 0, hashes to 0 and
differs from block 0. -/
structure StaleHeader (d : Disk) (block : Nat) : Prop where
  range : Accepted d.targetBlock.toNat
  other : d.targetBlock.toNat ≠ block
  checksum : checksum32 (d block) 4096 = d.checksum
  open_ : d.committed = 0#32
  differs : d d.targetBlock.toNat ≠ d block

/-- The disk while the header is being written: before-image complete, target
still old. -/
structure Logged (d : Disk) (block : Nat) (x : Disk) : Prop where
  image : x 255 = d block
  frame : ∀ c, c ≠ 254 → c ≠ 255 → x c = d c

theorem Logged.setHeader {d x : Disk} {block : Nat} (h : Logged d block x) (o : Nat) (w : Word) :
    Logged d block (x.setHeader o w) := by
  constructor
  · rw [setHeader_ne (by decide), h.image]
  · intro c hj hd
    rw [setHeader_ne hj, h.frame c hj hd]

theorem logged_copied (d : Disk) (block : Nat) :
    Logged d block (d.put 255 (d block)) := by
  constructor
  · simp
  · intro c _ hd
    rw [Disk.put_ne hd]

/-- While the target is old, a stop is harmless if whatever would be restored
holds the before-image already. -/
theorem Logged.atomic {d x : Disk} {block : Nat} (hb : Accepted block) (h : Logged d block x)
    (harmless : ∀ t, Restores x t → d t = d block) (buf : Block) :
    (journalRecover x block = d block ∨ journalRecover x block = buf) ∧
    ∀ c, c < 256 → c ≠ 254 → c ≠ 255 → c ≠ block → journalRecover x c = d c := by
  constructor
  · left
    by_cases hr : Restores x block
    · rw [recover_restored hr, h.image]
    · rw [recover_kept hb.2.1 hr, h.frame block hb.2.1 hb.2.2]
  · intro c _ hj hd _
    by_cases hr : Restores x c
    · rw [recover_restored hr, h.image, harmless c hr]
    · rw [recover_kept hj hr, h.frame c hj hd]

/-- The header once all four stores are done, over the copied before-image. -/
def logged (d : Disk) (block : Nat) : Disk :=
  runSteps (headerSteps block) (d.put 255 (d block))

theorem logged_logged (d : Disk) (block : Nat) : Logged d block (logged d block) := by
  simp only [logged, headerSteps, runSteps_cons, runSteps_nil]
  exact ((((logged_copied d block).setHeader _ _).setHeader _ _).setHeader _ _).setHeader _ _

theorem toNat_ofNat_accepted {block : Nat} (h : Accepted block) :
    (BitVec.ofNat 32 block).toNat = block := by
  have := h.1
  simp only [BitVec.toNat_ofNat]
  omega

theorem logged_restores {block : Nat} (h : Accepted block) (d : Disk) :
    Restores (logged d block) block := by
  constructor
  · simp only [logged, headerSteps, runSteps_cons, runSteps_nil, Disk.magic]
    rw [setHeader_word _ (by omega), setHeader_word _ (by omega), setHeader_word _ (by omega),
      setHeader_word_self _ (by decide)]
  · simp only [logged, headerSteps, runSteps_cons, runSteps_nil, Disk.targetBlock]
    rw [setHeader_word _ (by omega), setHeader_word _ (by omega),
      setHeader_word_self _ (by decide), toNat_ofNat_accepted h]
  · exact h
  · rw [(logged_logged d block).image]
    simp only [logged, headerSteps, runSteps_cons, runSteps_nil, Disk.checksum]
    rw [setHeader_word _ (by omega), setHeader_word_self _ (by decide), setHeader_ne (by decide),
      setHeader_ne (by decide), Disk.put_self]
  · simp only [logged, headerSteps, runSteps_cons, runSteps_nil, Disk.committed]
    exact setHeader_word_self _ (by decide)

/-- The four parts of a write a stop can fall in. -/
theorem stop_phases {block : Nat} (h : Accepted block) (buf : Block) (k : Nat) (d : Disk) :
    (k ≤ 4096 ∧ stopAfter k (writeBlockSteps block buf) d =
      d.put 255 (Buf.overlay k (d block) (d 255))) ∨
    (∃ j, k = 4096 + (j + 1) ∧ j < 4 ∧ stopAfter k (writeBlockSteps block buf) d =
      stopAfter (j + 1) (headerSteps block) (d.put 255 (d block))) ∨
    (∃ j, k = 4096 + 4 + (j + 1) ∧ stopAfter k (writeBlockSteps block buf) d =
      (logged d block).put block (Buf.overlay (j + 1) buf (d block))) ∨
    (∃ j, stopAfter k (writeBlockSteps block buf) d =
      stopAfter (j + 1) ((·.setHeader 12 1) :: clearSteps) ((logged d block).put block buf)) := by
  have hc : (copyBytes 255 block).length = 4096 := by simp [copyBytes]
  have hs : (storeBytes block buf).length = 4096 := by simp [storeBytes]
  have hh : (headerSteps block).length = 4 := rfl
  have hold : logged d block block = d block := (logged_logged d block).frame block h.2.1 h.2.2
  unfold writeBlockSteps
  rw [stopAfter_append, hc]
  by_cases h1 : k ≤ 4096
  · left
    rw [if_pos h1, copyBytes_stopped h.2.2, Nat.min_eq_left h1]
    exact ⟨h1, rfl⟩
  right
  rw [if_neg h1, copyBytes_all h.2.2, stopAfter_append, hh]
  by_cases h2 : k - 4096 ≤ 4
  · left
    refine ⟨k - 4096 - 1, by omega, by omega, ?_⟩
    rw [if_pos h2, show k - 4096 - 1 + 1 = k - 4096 by omega]
  right
  rw [if_neg h2, stopAfter_append, hs]
  by_cases h3 : k - 4096 - 4 ≤ 4096
  · left
    refine ⟨k - 4096 - 4 - 1, by omega, ?_⟩
    rw [if_pos h3, storeBytes_prefix, show k - 4096 - 4 - 1 + 1 = k - 4096 - 4 by omega,
      Nat.min_eq_left h3]
    change (logged d block).put block (Buf.overlay _ buf (logged d block block)) = _
    rw [hold]
  · right
    refine ⟨k - 4096 - 4 - 4096 - 1, ?_⟩
    rw [if_neg h3, storeBytes_all]
    rw [show k - 4096 - 4 - 4096 - 1 + 1 = k - 4096 - 4 - 4096 by omega]
    rfl

theorem headerSteps_logged {d y : Disk} {block : Nat} (h : Logged d block y) (k : Nat) :
    Logged d block (stopAfter k (headerSteps block) y) := by
  refine stopAfter_keeps ?_ k h
  intro f hf x hx
  simp only [headerSteps, List.mem_cons, List.not_mem_nil, or_false] at hf
  rcases hf with rfl | rfl | rfl | rfl
  all_goals exact hx.setHeader _ _

/-- Only the magic number is new: recovery reads the old target, checksum and
commit flag against the new before-image. -/
theorem restores_magic {d : Disk} {block t : Nat} :
    Restores ((d.put 255 (d block)).setHeader 0 journalMagic) t ↔
      d.targetBlock.toNat = t ∧ Accepted t ∧ checksum32 (d block) 4096 = d.checksum ∧
        d.committed = 0#32 := by
  have field (o : Nat) (h : 4 ≤ o) :
      ((d.put 255 (d block)).setHeader 0 journalMagic 254).word o = (d 254).word o := by
    rw [setHeader_word _ (by omega), Disk.put_ne (by decide)]
  have image : (d.put 255 (d block)).setHeader 0 journalMagic 255 = d block := by
    rw [setHeader_ne (by decide), Disk.put_self]
  constructor
  · rintro ⟨_, ht, ha, hc, ho⟩
    rw [Disk.targetBlock, field 4 (by omega)] at ht
    rw [image, Disk.checksum, field 8 (by omega)] at hc
    rw [Disk.committed, field 12 (by omega)] at ho
    exact ⟨ht, ha, hc, ho⟩
  · rintro ⟨ht, ha, hc, ho⟩
    refine ⟨setHeader_word_self _ (by decide), ?_, ha, ?_, ?_⟩
    · rw [Disk.targetBlock, field 4 (by omega)]; exact ht
    · rw [image, Disk.checksum, field 8 (by omega)]; exact hc
    · rw [Disk.committed, field 12 (by omega)]; exact ho

theorem targetBlock_headerSteps {y : Disk} {block : Nat} (h : Accepted block) {j : Nat}
    (h1 : 1 ≤ j) (h4 : j < 4) :
    (stopAfter (j + 1) (headerSteps block) y).targetBlock.toNat = block := by
  obtain rfl | rfl | rfl : j = 1 ∨ j = 2 ∨ j = 3 := by omega
  all_goals
    simp only [headerSteps, stopAfter_succ_cons, stopAfter_zero, Disk.targetBlock]
  · rw [setHeader_word_self _ (by decide), toNat_ofNat_accepted h]
  · rw [setHeader_word _ (by omega), setHeader_word_self _ (by decide), toNat_ofNat_accepted h]
  · rw [setHeader_word _ (by omega), setHeader_word _ (by omega),
      setHeader_word_self _ (by decide), toNat_ofNat_accepted h]

theorem stop_after_magic {block : Nat} (h : Accepted block) (buf : Block) (d : Disk) :
    stopAfter 4097 (writeBlockSteps block buf) d =
      (d.put 255 (d block)).setHeader 0 journalMagic := by
  have hc : (copyBytes 255 block).length = 4096 := by simp [copyBytes]
  rw [writeBlockSteps, stopAfter_append, hc, if_neg (by decide), copyBytes_all h.2.2]
  rfl

/-- The store of the magic number alone can turn stale header fields into a
transaction on a block this write has nothing to do with. -/
theorem stale_not_atomic {d : Disk} {block : Nat} (hb : Accepted block) (h : StaleHeader d block)
    (buf : Block) : ¬ AtomicAt d block buf 4097 := by
  rintro ⟨-, frame⟩
  have hr := restores_magic.mpr ⟨rfl, h.range, h.checksum, h.open_⟩
  have := frame d.targetBlock.toNat h.range.1 h.range.2.1 h.range.2.2 h.other
  rw [stop_after_magic hb, ramdiskInit, recover_restored hr, setHeader_ne (by decide),
    Disk.put_self] at this
  exact h.differs this.symm

/-- A stop in the middle of the target: recovery puts the before-image back. -/
theorem stored_restores {block : Nat} (h : Accepted block) (d : Disk) (x : Block) :
    Restores ((logged d block).put block x) block := by
  have hr := logged_restores h d
  have h254 : (logged d block).put block x 254 = logged d block 254 := Disk.put_ne h.2.1.symm _
  have h255 : (logged d block).put block x 255 = logged d block 255 := Disk.put_ne h.2.2.symm _
  constructor
  · rw [Disk.magic, h254]; exact hr.magic
  · rw [Disk.targetBlock, h254]; exact hr.target
  · exact h
  · rw [h255, Disk.checksum, h254]; exact hr.checksum
  · rw [Disk.committed, h254]; exact hr.open_

/-- From the commit flag on recovery leaves every block alone. -/
theorem committed_not_restores (y : Disk) (j t : Nat) :
    ¬ Restores (stopAfter (j + 1) ((·.setHeader 12 1) :: clearSteps) y) t := by
  intro hr
  rw [stopAfter_succ_cons] at hr
  obtain rfl | ⟨j, rfl⟩ : j = 0 ∨ ∃ i, j = i + 1 := by cases j <;> simp
  · have := hr.open_
    rw [stopAfter_zero, Disk.committed, setHeader_word_self _ (by decide)] at this
    exact absurd this (by decide)
  · have keeps : (stopAfter (j + 1) clearSteps (y.setHeader 12 1)).magic = 0 := by
      rw [clearSteps, stopAfter_succ_cons]
      refine stopAfter_keeps (P := fun x : Disk => x.magic = 0) ?_ j (setHeader_word_self _ (by decide))
      intro f hf x hx
      simp only [List.mem_cons, List.not_mem_nil, or_false] at hf
      rcases hf with rfl | rfl | rfl
      all_goals exact (setHeader_word _ (by omega)).trans hx
    have := hr.magic
    rw [keeps] at this
    exact absurd this (by decide)

theorem committed_frame (y : Disk) (k c : Nat) (hc : c ≠ 254) :
    stopAfter k ((·.setHeader 12 1) :: clearSteps) y c = y c := by
  refine stopAfter_keeps (P := fun x : Disk => x c = y c) ?_ k rfl
  intro f hf x hx
  simp only [clearSteps, List.mem_cons, List.not_mem_nil, or_false] at hf
  rcases hf with rfl | rfl | rfl | rfl | rfl
  all_goals exact (setHeader_ne hc _ _ _).trans hx

theorem atomicAt_of_not_stale {d : Disk} (hi : Idle d) {block : Nat} (hb : Accepted block)
    (buf : Block) (k : Nat) (hk : ¬ (k = 4097 ∧ StaleHeader d block)) :
    AtomicAt d block buf k := by
  unfold AtomicAt ramdiskInit
  rcases stop_phases hb buf k d with ⟨hle, hx⟩ | ⟨j, hj, h4, hx⟩ | ⟨j, hj, hx⟩ | ⟨j, hx⟩
  · -- Only the before-image has been touched and the header still describes nothing.
    have hn : ∀ c, ¬ Restores (stopAfter k (writeBlockSteps block buf) d) c := by
      intro c hr
      have hm := hr.magic
      have hrange := hr.range
      rw [← hr.target] at hrange
      have hu := (headerUsable_iff _).mpr ⟨hm, hrange⟩
      have same : (stopAfter k (writeBlockSteps block buf) d).headerUsable = d.headerUsable := by
        rw [hx]
        exact headerUsable_congr (Disk.put_ne (by decide) _)
      rw [same, hi] at hu
      cases hu
    constructor
    · left
      rw [recover_kept hb.2.1 (hn _), hx, Disk.put_ne hb.2.2]
    · intro c _ hj hd _
      rw [recover_kept hj (hn _), hx, Disk.put_ne hd]
  · rw [hx]
    refine (headerSteps_logged (logged_copied d block) (j + 1)).atomic hb ?_ buf
    intro t hr
    by_cases h0 : j = 0
    · subst h0
      obtain ⟨rfl, ha, hc, ho⟩ := restores_magic.mp hr
      by_contra hne
      exact hk ⟨hj, ha, fun e => hne (by rw [e]), hc, ho, hne⟩
    · rw [← hr.target, targetBlock_headerSteps hb (by omega) h4]
  · have hr := stored_restores hb d (Buf.overlay (j + 1) buf (d block))
    have hl := logged_logged d block
    rw [hx]
    constructor
    · left
      rw [recover_restored hr, Disk.put_ne hb.2.2.symm, hl.image]
    · intro c _ hj hd hne
      have hn : ¬ Restores ((logged d block).put block (Buf.overlay (j + 1) buf (d block))) c :=
        fun h => hne (h.target.symm.trans hr.target)
      rw [recover_kept hj hn, Disk.put_ne hne, hl.frame c hj hd]
  · rw [hx]
    have hn := committed_not_restores ((logged d block).put block buf) j
    constructor
    · right
      rw [recover_kept hb.2.1 (hn _), committed_frame _ _ _ hb.2.1, Disk.put_self]
    · intro c _ hj hd hne
      rw [recover_kept hj (hn _), committed_frame _ _ _ hj, Disk.put_ne hne,
        (logged_logged d block).frame c hj hd]

/-- **A block write is atomic except at one store.** On every reachable disk
a stop after any store but that of the magic number is recovered to the old or
the new block with everything else in place; a stop there is, unless the stale
header fields happen to match the block being written. -/
theorem write_atomic_iff {d : Disk} (hd : Disk.Reachable d) {block : Nat} (hb : Accepted block)
    (buf : Block) (k : Nat) :
    AtomicAt d block buf k ↔ ¬ (k = 4097 ∧ StaleHeader d block) := by
  constructor
  · rintro h ⟨rfl, hs⟩
    exact stale_not_atomic hb hs buf h
  · exact atomicAt_of_not_stale hd.idle hb buf k

theorem write_atomic_blank :
    AtomicAt Disk.blank 6 Buf.zero 4097 ↔ ¬ (4097 = 4097 ∧ StaleHeader Disk.blank 6) :=
  write_atomic_iff Disk.Reachable.blank (by decide) Buf.zero 4097

/-- Four bytes that bring FNV-1a to 0, where zero bytes keep it. -/
def zeroSumBlock : Block := Buf.zero.setWord 0 0xC43124CC#32

theorem checksum32_zeroSumBlock : checksum32 zeroSumBlock 4096 = 0 := by
  have rest (i : Nat) : zeroSumBlock.get (4 + i) = 0#8 := by
    rw [zeroSumBlock, Buf.get_setWord_ne (by omega), Buf.get_zero]
  have stays (l : List Nat) : l.foldl (fun h i =>
      (h ^^^ (zeroSumBlock.get (4 + i)).setWidth 32) * 16777619#32) 0#32 = 0#32 := by
    induction l with
    | nil => rfl
    | cons i l ih => simpa [rest] using ih
  have split : List.range 4096 = List.range 4 ++ (List.range 4092).map (4 + ·) :=
    (congrArg List.range (show 4096 = 4 + 4092 from rfl)).trans List.range_add
  rw [checksum32, split, List.foldl_append, List.foldl_map]
  exact stays _

theorem clear_fields (d : Disk) : (journalClear d).targetBlock = 0 ∧ (journalClear d).checksum = 0 ∧
    (journalClear d).committed = 0 := by
  unfold journalClear Disk.targetBlock Disk.checksum Disk.committed
  refine ⟨?_, ?_, setHeader_word_self _ (by decide)⟩
  · rw [setHeader_word _ (by omega), setHeader_word _ (by omega), setHeader_word_self _ (by decide)]
  · rw [setHeader_word _ (by omega), setHeader_word_self _ (by decide)]

theorem write_fields {block : Nat} (h : Accepted block) (d : Disk) (buf : Block) :
    (ramdiskWriteBlock d block buf).2.targetBlock = 0 ∧
    (ramdiskWriteBlock d block buf).2.checksum = 0 ∧
    (ramdiskWriteBlock d block buf).2.committed = 0 := by
  simp only [ramdiskWriteBlock, h, ↓reduceIte]
  exact clear_fields _

theorem stale_of_zeroSum {d : Disk} (ht : d.targetBlock = 0) (hc : d.checksum = 0)
    (ho : d.committed = 0) (h6 : d 6 = zeroSumBlock) (h0 : d 0 = Buf.zero) : StaleHeader d 6 := by
  refine ⟨?_, ?_, ?_, ho, ?_⟩
  · rw [ht]; decide
  · rw [ht]; decide
  · rw [h6, hc, checksum32_zeroSumBlock]
  · rw [ht, h6]
    intro e
    have e' : (Buf.zero : Block).get 0 = zeroSumBlock.get 0 := by
      rw [← h0, ← e]
      rfl
    exact absurd e' (by decide)

/-- Block 6 holds a content that hashes to 0. Stopping the next write to it
right after the magic number makes recovery overwrite the superblock. -/
theorem write_not_atomic :
    Disk.Reachable (ramdiskWriteBlock Disk.blank 6 zeroSumBlock).2 ∧ Accepted 6 ∧
      ¬ AtomicAt (ramdiskWriteBlock Disk.blank 6 zeroSumBlock).2 6 Buf.zero 4097 := by
  have hr : Disk.Reachable (ramdiskWriteBlock Disk.blank 6 zeroSumBlock).2 :=
    .write (by decide) _ .blank
  have h6 := write_self (show Accepted 6 by decide) Disk.blank zeroSumBlock
  have h0 := write_ne (show 0 ≠ 6 by decide) (by decide) (by decide) Disk.blank zeroSumBlock
  have hf := write_fields (show Accepted 6 by decide) Disk.blank zeroSumBlock
  generalize (ramdiskWriteBlock Disk.blank 6 zeroSumBlock).2 = d at *
  exact ⟨hr, by decide, stale_not_atomic (by decide)
    (stale_of_zeroSum hf.1 hf.2.1 hf.2.2 h6 h0) _⟩

end SengOS
