import Mathlib.Data.List.Nodup
import Mathlib.Data.List.Perm.Subperm
import SengOS.Kernel.Buddy

/-!
# Frames marked, taken and given back

The exact map that `pmm_init` leaves behind; runs of allocations from any state
of the allocator and what giving the frames back does; and the run of 256
allocations behind the buddy pool, which is undone when it meets a gap.
-/

namespace SengOS

namespace Pmm

/-- `pmm_total_frames`. -/
def pmmTotalFrames (p : Pmm) : Word := BitVec.ofNat 32 p.totalFramesCount

/-! ## What pmm_init marks -/

/-- Frame `f` lies wholly inside the part of a usable entry below 128 MiB. -/
def InEntry (e : E820Entry) (f : Nat) : Prop :=
  e.type = 1#32 ∧ e.base.toNat ≤ f * 4096 ∧
    (f + 1) * 4096 ≤ min (e.base.toNat + e.length.toNat) 0x08000000

instance (e : E820Entry) (f : Nat) : Decidable (InEntry e f) := inferInstanceAs (Decidable (_ ∧ _))

/-- One of the entries that `pmm_init` looks at holds the frame. -/
def Usable (entries : List E820Entry) (f : Nat) : Prop := ∃ e ∈ entries.take 128, InEntry e f

instance (entries : List E820Entry) (f : Nat) : Decidable (Usable entries f) :=
  inferInstanceAs (Decidable (∃ e ∈ entries.take 128, InEntry e f))

/-- The bitmap and the counters say which frames are usable and above the first
MiB and the kernel, whose end is rounded up to a page. -/
structure Marks (entries : List E820Entry) (kernelEndSym : Word) (p : Pmm) : Prop where
  clear : ∀ f, f < maxFrames → (p.bitTest f = false ↔ 0x00100000 ≤ f * 4096 ∧
    (kernelEndSym.toNat + 4095) / 4096 * 4096 ≤ f * 4096 ∧ Usable entries f)
  below : ∀ f, f < maxFrames → p.bitTest f = false → f < p.frameCount
  total : p.pmmTotalFrames.toNat = (List.range maxFrames).countP fun f => decide (Usable entries f)
  free : p.pmmFreeFrames.toNat = (List.range maxFrames).countP fun f => !p.bitTest f

theorem usable_iff {entries : List E820Entry}
    (hend : ∀ e ∈ entries, e.base.toNat + e.length.toNat < 2 ^ 64) {f : Nat} (hf : f < maxFrames) :
    Usable entries f ↔ ∃ e ∈ entries.take 128, e.Covers f := by
  have one (e : E820Entry) (he : e ∈ entries.take 128) : InEntry e f ↔ e.Covers f := by
    have hlt := hend e (List.mem_of_mem_take he)
    have hsum : (e.base + e.length).toNat = e.base.toNat + e.length.toNat := by
      rw [BitVec.toNat_add, Nat.mod_eq_of_lt hlt]
    unfold InEntry E820Entry.Covers
    unfold maxFrames at hf
    rw [hsum]
    constructor
    · rintro ⟨ht, hlo, hhi⟩
      exact ⟨ht, hlo, by omega⟩
    · rintro ⟨ht, hlo, hhi⟩
      exact ⟨ht, hlo, by omega⟩
  constructor
  · rintro ⟨e, he, hin⟩
    exact ⟨e, he, (one e he).mp hin⟩
  · rintro ⟨e, he, hc⟩
    exact ⟨e, he, (one e he).mpr hc⟩

/-- Above the last page the kernel end is rounded up to address 0. -/
theorem alignUpPage_wraps {v : Word} (h : 0xFFFFF000 < v.toNat) : alignUpPage v = 0#32 := by
  apply BitVec.eq_of_toNat_eq
  have hadd : (v + 4095#32).toNat = v.toNat + 4095 - 2 ^ 32 := by
    have := v.isLt
    rw [BitVec.toNat_add, BitVec.toNat_ofNat]
    omega
  have := v.isLt
  rw [alignUpPage, and_not_page, hadd, BitVec.toNat_ofNat]
  omega

/-- `pmm_init` leaves the usable frames free that it does not reserve. -/
theorem pmmInit_usable {entries : List E820Entry}
    (hend : ∀ e ∈ entries, e.base.toNat + e.length.toNat < 2 ^ 64) (kernelEndSym : Word) {f : Nat}
    (hf : f < maxFrames) : (pmmInit entries kernelEndSym).bitTest f = false ↔
      Usable entries f ∧ ¬ Low (alignUpPage kernelEndSym) f := by
  rw [usable_iff hend hf]
  exact pmmInit_clear entries kernelEndSym hf

theorem pmmInit_total {entries : List E820Entry}
    (hend : ∀ e ∈ entries, e.base.toNat + e.length.toNat < 2 ^ 64) (kernelEndSym : Word) :
    (pmmInit entries kernelEndSym).pmmTotalFrames.toNat =
      (List.range maxFrames).countP fun f => decide (Usable entries f) := by
  have hscan := scan_ok (entries.take 128)
  have hcount : (pmmInit entries kernelEndSym).totalFramesCount =
      (scanTable entries).bitmap.clearBits maxFrames := hscan.usable
  have hsmall : (pmmInit entries kernelEndSym).totalFramesCount < 2 ^ 32 :=
    Nat.lt_of_le_of_lt (pmmInit_ready entries kernelEndSym).total (by decide)
  rw [pmmTotalFrames, BitVec.toNat_ofNat, Nat.mod_eq_of_lt hsmall, hcount]
  unfold Buf.clearBits
  apply List.countP_congr
  intro f hf
  have hf := List.mem_range.mp hf
  rw [Bool.not_eq_true', decide_eq_true_eq, usable_iff hend hf]
  exact hscan.clear f hf

theorem Ready.freeFrames {p : Pmm} (h : p.Ready) :
    p.pmmFreeFrames.toNat = p.frameBitmap.clearBits maxFrames := by
  have hcount := h.count
  have htotal := h.total
  unfold maxFrames at htotal
  rw [pmmFreeFrames, BitVec.toNat_sub, BitVec.toNat_ofNat, BitVec.toNat_ofNat]
  omega

/-- `pmm_init` marks exactly the usable frames, unless the kernel ends in the
last page of the address space and there is a frame to be marked wrongly. -/
theorem pmmInit_marks_iff (entries : List E820Entry)
    (hend : ∀ e ∈ entries, e.base.toNat + e.length.toNat < 2 ^ 64) (kernelEndSym : Word) :
    Marks entries kernelEndSym (pmmInit entries kernelEndSym) ↔
      kernelEndSym.toNat ≤ 0xFFFFF000 ∨ ∀ f, f < maxFrames → 0x00100000 ≤ f * 4096 → ¬ Usable entries f := by
  have ready := pmmInit_ready entries kernelEndSym
  constructor
  · intro marks
    by_contra hno
    simp only [not_or, Nat.not_le, not_forall, not_not] at hno
    obtain ⟨hbig, f, hf, hhigh, husable⟩ := hno
    have hfree : (pmmInit entries kernelEndSym).bitTest f = false := by
      rw [pmmInit_usable hend kernelEndSym hf, alignUpPage_wraps hbig]
      refine ⟨husable, ?_⟩
      rintro (hlow | hlow)
      · exact Nat.not_lt_zero _ hlow
      · omega
    have := ((marks.clear f hf).mp hfree).2.1
    unfold maxFrames at hf
    omega
  · intro hok
    constructor
    case clear =>
      intro f hf
      rw [pmmInit_usable hend kernelEndSym hf]
      rcases hok with hle | hnone
      · simp only [Low, alignUpPage_toNat (show kernelEndSym.toNat + 4095 < 2 ^ 32 by omega), not_or,
          Nat.not_lt]
        constructor
        · rintro ⟨husable, hk, hl⟩
          exact ⟨hl, hk, husable⟩
        · rintro ⟨hl, hk, husable⟩
          exact ⟨husable, hk, hl⟩
      · constructor
        · rintro ⟨husable, hlow⟩
          simp only [Low, not_or, Nat.not_lt] at hlow
          exact absurd husable (hnone f hf hlow.2)
        · rintro ⟨hl, -, husable⟩
          exact absurd husable (hnone f hf hl)
    case below => exact fun f hf hb => (ready.free f hf hb).1
    case total => exact pmmInit_total hend kernelEndSym
    case free => exact ready.freeFrames

theorem sideBySide_marks : Frames.sideBySide.length = 2 ∧
    Marks Frames.sideBySide 0x00010000#32 (pmmInit Frames.sideBySide 0x00010000#32) :=
  ⟨rfl, (pmmInit_marks_iff _ (by decide) _).mpr (Or.inl (by decide))⟩

/-- One usable frame, and a kernel that ends one byte into the last page: the
frame is left free although it lies below the kernel's end. -/
theorem kernelEnd_wraps :
    (pmmInit [⟨0x00100000#64, 0x1000#64, 1#32⟩] 0xFFFFF001#32).bitTest 256 = false ∧
      ¬ Marks [⟨0x00100000#64, 0x1000#64, 1#32⟩] 0xFFFFF001#32
        (pmmInit [⟨0x00100000#64, 0x1000#64, 1#32⟩] 0xFFFFF001#32) := by
  have hfree : (pmmInit [⟨0x00100000#64, 0x1000#64, 1#32⟩] 0xFFFFF001#32).bitTest 256 = false := by
    decide +kernel
  refine ⟨hfree, fun marks => ?_⟩
  have := ((marks.clear 256 (by decide)).mp hfree).2.1
  exact absurd this (by decide)

/-! ## Any state of the allocator -/

/-- What every caller leaves in place, whatever it gives back: only frames that
`pmm_free_frame` would let through are free. -/
structure Steady (p : Pmm) : Prop where
  bounded : p.frameCount ≤ maxFrames
  free : ∀ f, f < maxFrames → p.bitTest f = false →
    f < p.frameCount ∧ p.reservedEnd.toNat ≤ f * 4096 ∧ 0x00100000 ≤ f * 4096

theorem Ready.steady {p : Pmm} (h : p.Ready) : p.Steady := ⟨h.bounded, h.free⟩

theorem Steady.alloc {p : Pmm} (h : p.Steady) : p.pmmAllocFrame.2.Steady := by
  have hbound := h.bounded
  unfold pmmAllocFrame
  cases hfind : (List.range p.frameCount).find? (fun i => !p.bitTest i) with
  | none => exact h
  | some i =>
    have hi := List.mem_range.mp (List.mem_of_find?_eq_some hfind)
    refine ⟨hbound, fun f hf hb => h.free f hf ?_⟩
    simp only [bitTest] at hb ⊢
    rw [Buf.bit_setBit _ _ _ _ (by unfold maxFrames at hbound; omega)] at hb
    split at hb
    · cases hb
    · exact hb

theorem Steady.release {p : Pmm} (h : p.Steady) (addr : Word) : (p.pmmFreeFrame addr).Steady := by
  have hbound := h.bounded
  rcases pmmFreeFrame_eq p addr with ⟨⟨hcount, hpage, hend, hhigh, -⟩, he⟩ | ⟨-, he⟩
  · rw [he]
    have hend := BitVec.le_def.mp hend
    have hhigh := BitVec.le_def.mp hhigh
    simp only [BitVec.toNat_ofNat] at hhigh
    refine ⟨hbound, fun f hf hb => ?_⟩
    simp only [bitTest] at hb
    rw [Buf.bit_setBit _ _ _ _ (by unfold maxFrames at hbound; omega)] at hb
    by_cases hfa : f = addr.toNat / 4096
    · subst hfa
      dsimp only
      exact ⟨hcount, by omega, by omega⟩
    · rw [if_neg hfa] at hb
      exact h.free f hf hb
  · rw [he]
    exact h

/-- The frames in `fs` have been taken from `p₀`, and nothing else has changed. -/
structure Taken (p₀ p : Pmm) (fs : List Nat) : Prop where
  frameCount : p.frameCount = p₀.frameCount
  reservedEnd : p.reservedEnd = p₀.reservedEnd
  total : p.totalFramesCount = p₀.totalFramesCount
  used : p.usedFramesCount = p₀.usedFramesCount + fs.length
  bit : ∀ f, f < maxFrames → (p.bitTest f = false ↔ p₀.bitTest f = false ∧ f ∉ fs)
  free : ∀ f ∈ fs, f < maxFrames ∧ p₀.bitTest f = false
  nodup : fs.Nodup

theorem Taken.start (p : Pmm) : Taken p p [] :=
  ⟨rfl, rfl, rfl, rfl, fun f _ => by simp, by simp, .nil⟩

/-- With nothing taken the allocator is the same to the bit. -/
theorem Taken.eq {p₀ p : Pmm} (h : Taken p₀ p []) : p = p₀ := by
  have hbits : p.frameBitmap = p₀.frameBitmap := by
    apply Buf.ext_bits
    intro k hk
    have hb := h.bit k hk
    simp only [List.not_mem_nil, not_false_eq_true, and_true] at hb
    change p.bitTest k = p₀.bitTest k
    cases h₀ : p₀.bitTest k with
    | false => exact hb.mpr h₀
    | true =>
      rw [h₀] at hb
      simpa using hb
  obtain ⟨b, c, t, u, r⟩ := p
  obtain ⟨b₀, c₀, t₀, u₀, r₀⟩ := p₀
  obtain ⟨rfl, rfl, rfl, rfl, -, -, -⟩ := h
  cases hbits
  rfl

section
variable {p₀ p : Pmm} {fs : List Nat}

/-- The frame an allocation takes. -/
theorem Taken.alloc (h₀ : p₀.Steady) (h : Taken p₀ p fs) :
    p.pmmAllocFrame = (0#32, p) ∨
      ∃ f, f ∉ fs ∧ f < maxFrames ∧ p.pmmAllocFrame.1 = frameAddr f ∧ frameAddr f ≠ 0#32 ∧
        Taken p₀ p.pmmAllocFrame.2 (f :: fs) := by
  have hbound := h₀.bounded
  unfold pmmAllocFrame
  cases hfind : (List.range p.frameCount).find? (fun i => !p.bitTest i) with
  | none => exact .inl rfl
  | some f =>
    have hf : f < maxFrames := by
      have := List.mem_range.mp (List.mem_of_find?_eq_some hfind)
      rw [h.frameCount] at this
      omega
    have hclear : p.bitTest f = false := by simpa using List.find?_some hfind
    obtain ⟨hfree, hnot⟩ := (h.bit f hf).mp hclear
    obtain ⟨_, _, hhigh⟩ := h₀.free f hf hfree
    have hbit := fun k => Buf.bit_setBit p.frameBitmap f k true (by unfold maxFrames at hf; omega)
    refine .inr ⟨f, hnot, hf, rfl, fun hz => ?_, ⟨h.frameCount, h.reservedEnd, h.total, ?_, ?_, ?_,
      List.nodup_cons.mpr ⟨hnot, h.nodup⟩⟩⟩
    · have := congrArg BitVec.toNat hz
      rw [frameAddr_toNat hf] at this
      simp only [BitVec.toNat_ofNat] at this
      omega
    · have := h.used
      simp only [List.length_cons]
      omega
    · intro g hg
      simp only [bitTest, hbit, List.mem_cons, not_or]
      by_cases hgf : g = f
      · simp [hgf]
      · simp only [hgf, if_false, not_false_eq_true, true_and]
        exact h.bit g hg
    · intro g hg
      rcases List.mem_cons.mp hg with rfl | hg
      · exact ⟨hf, hfree⟩
      · exact h.free g hg

/-- A frame that was taken passes the checks of `pmm_free_frame`. -/
theorem Taken.frees (h₀ : p₀.Steady) (h : Taken p₀ p fs) {f : Nat} (hf : f ∈ fs) :
    p.Frees (frameAddr f) := by
  obtain ⟨hlt, hfree⟩ := h.free f hf
  apply frees_frameAddr hlt
  · rw [h.frameCount, h.reservedEnd]
    exact h₀.free f hlt hfree
  · by_contra hb
    exact ((h.bit f hlt).mp (by simpa using hb)).2 hf

theorem Taken.release (h₀ : p₀.Steady) (h : Taken p₀ p fs) {f : Nat} (hf : f ∈ fs) :
    Taken p₀ (p.pmmFreeFrame (frameAddr f)) (fs.erase f) := by
  rcases pmmFreeFrame_eq p (frameAddr f) with ⟨-, he⟩ | ⟨hn, -⟩
  · obtain ⟨hlt, hfree⟩ := h.free f hf
    have hdiv := frameAddr_div hlt
    have hbit := fun k => Buf.bit_setBit p.frameBitmap f k false (by unfold maxFrames at hlt; omega)
    have hlen := List.length_erase_of_mem hf
    have hpos := List.length_pos_of_mem hf
    have hused := h.used
    rw [hdiv] at he
    rw [he]
    refine ⟨h.frameCount, h.reservedEnd, h.total, ?_, ?_, ?_, h.nodup.erase _⟩
    · dsimp only
      omega
    · intro g hg
      simp only [bitTest, hbit, h.nodup.mem_erase_iff]
      by_cases hgf : g = f
      · subst hgf
        have hfree : p₀.frameBitmap.bit g = false := hfree
        simpa using hfree
      · simp only [hgf, if_false, ne_eq, not_false_eq_true, true_and]
        exact h.bit g hg
    · exact fun g hg => h.free g (List.mem_of_mem_erase hg)
  · exact absurd (h.frees h₀ hf) hn

/-- A frame that is free already is not given back again. -/
theorem Taken.again (h : Taken p₀ p fs) {f : Nat} (hlt : f < maxFrames) (hfree : p₀.bitTest f = false)
    (hf : f ∉ fs) : p.pmmFreeFrame (frameAddr f) = p := by
  rcases pmmFreeFrame_eq p (frameAddr f) with ⟨hfrees, -⟩ | ⟨-, he⟩
  · have hset := hfrees.2.2.2.2
    have hdiv := frameAddr_div hlt
    rw [hdiv, (h.bit f hlt).mpr ⟨hfree, hf⟩] at hset
    cases hset
  · exact he

end

/-! ## Taking and giving back -/

/-- `n` calls of `pmm_alloc_frame` in a row: what they return, and the allocator. -/
def allocFrames : Nat → Pmm → List Word × Pmm
  | 0, p => ([], p)
  | n + 1, p =>
    let r := allocFrames n p.pmmAllocFrame.2
    (p.pmmAllocFrame.1 :: r.1, r.2)

def freeFrames (p : Pmm) (as : List Word) : Pmm := as.foldl pmmFreeFrame p

/-- `n` allocations and the frees that follow cancel out. -/
structure Cancels (p : Pmm) (n : Nat) : Prop where
  distinct : (allocFrames n p).1.Nodup
  dropped : (allocFrames n p).2.pmmFreeFrames.toNat + n = p.pmmFreeFrames.toNat
  restored : ∀ as, as.Perm (allocFrames n p).1 → (allocFrames n p).2.freeFrames as = p
  again : ∀ front back a, (front ++ back).Perm (allocFrames n p).1 → a ∈ front →
    ((allocFrames n p).2.freeFrames front).pmmFreeFrame a = (allocFrames n p).2.freeFrames front

section
variable {p₀ p : Pmm} {fs : List Nat}

/-- Successful allocations take as many frames, all different. -/
theorem Taken.allocFrames (h₀ : p₀.Steady) (h : Taken p₀ p fs) (n : Nat)
    (hok : ∀ a ∈ (Pmm.allocFrames n p).1, a ≠ 0#32) :
    ∃ gs : List Nat, (Pmm.allocFrames n p).1 = gs.map frameAddr ∧ gs.length = n ∧
      Taken p₀ (Pmm.allocFrames n p).2 (gs.reverse ++ fs) := by
  induction n generalizing p fs with
  | zero => exact ⟨[], rfl, rfl, h⟩
  | succ n ih =>
    have hhead := hok p.pmmAllocFrame.1 List.mem_cons_self
    rcases h.alloc h₀ with he | ⟨f, -, -, ha, -, h'⟩
    · rw [he] at hhead
      exact absurd rfl hhead
    · obtain ⟨gs, hgs, hlen, hrest⟩ := ih h' fun a hm => hok a (List.mem_cons_of_mem _ hm)
      refine ⟨f :: gs, ?_, ?_, ?_⟩
      · change p.pmmAllocFrame.1 :: (Pmm.allocFrames n p.pmmAllocFrame.2).1 = _
        rw [hgs, ha]
        rfl
      · rw [List.length_cons, hlen]
      · rw [List.reverse_cons, List.append_assoc]
        exact hrest

/-- Giving back some of the frames, in any order. -/
theorem Taken.freeFrames (h₀ : p₀.Steady) (gs rest : List Nat) (h : Taken p₀ p fs)
    (hp : fs.Perm (gs ++ rest)) : Taken p₀ (Pmm.freeFrames p (gs.map frameAddr)) rest := by
  induction gs generalizing p fs with
  | nil =>
    have hp : fs.Perm rest := hp
    change Taken p₀ p rest
    exact ⟨h.frameCount, h.reservedEnd, h.total, by rw [← hp.length_eq]; exact h.used,
      fun f hf => by rw [h.bit f hf, hp.mem_iff], fun f hf => h.free f (hp.mem_iff.mpr hf),
      hp.nodup_iff.mp h.nodup⟩
  | cons g gs ih =>
    have hg : g ∈ fs := hp.mem_iff.mpr (by simp)
    have hrest : (fs.erase g).Perm (gs ++ rest) := by
      have := hp.erase g
      rwa [List.cons_append, List.erase_cons_head] at this
    exact ih (h.release h₀ hg) hrest

/-- The frames of a list of addresses. -/
theorem frames_of_perm {as : List Word} (h : as.Perm (fs.map frameAddr)) :
    ∃ gs : List Nat, as = gs.map frameAddr ∧ gs.Perm fs := by
  induction as generalizing fs with
  | nil =>
    have := List.nil_perm.mp h
    exact ⟨[], rfl, by rw [List.map_eq_nil_iff.mp this]⟩
  | cons a as ih =>
    obtain ⟨f, hf, rfl⟩ := List.mem_map.mp (h.mem_iff.mp List.mem_cons_self)
    have hp := List.perm_cons_erase hf
    have hrest : as.Perm ((fs.erase f).map frameAddr) :=
      (List.perm_cons _).mp (h.trans (hp.map frameAddr))
    obtain ⟨gs, rfl, hgs⟩ := ih hrest
    exact ⟨f :: gs, rfl, (hgs.cons f).trans hp.symm⟩

end

/-- Every part of the cancellation holds in every state, except that the count
of free frames drops below zero when more frames are free than it says. -/
theorem Steady.cancels_iff {p : Pmm} (h : p.Steady) {n : Nat}
    (hok : ∀ a ∈ (allocFrames n p).1, a ≠ 0#32) : Cancels p n ↔ n ≤ p.pmmFreeFrames.toNat := by
  obtain ⟨gs, hgs, hlen, taken⟩ := (Taken.start p).allocFrames h n hok
  rw [List.append_nil] at taken
  have hnodup : gs.Nodup := List.nodup_reverse.mp taken.nodup
  have hlt : ∀ f ∈ gs, f < maxFrames := fun f hf => (taken.free f (List.mem_reverse.mpr hf)).1
  have hn : n ≤ maxFrames := by
    have hsub : gs.Subperm (List.range maxFrames) :=
      List.subperm_of_subset hnodup fun f hf => List.mem_range.mpr (hlt f hf)
    have := hsub.length_le
    rwa [hlen, List.length_range] at this
  have hfree : (Pmm.allocFrames n p).2.pmmFreeFrames = p.pmmFreeFrames - BitVec.ofNat 32 n := by
    rw [pmmFreeFrames, pmmFreeFrames, taken.total, taken.used, List.length_reverse, hlen, BitVec.ofNat_add,
      BitVec.sub_sub]
  constructor
  · intro c
    have := c.dropped
    omega
  · intro hle
    refine ⟨?_, ?_, fun as has => ?_, fun front back a hperm ha => ?_⟩
    · rw [hgs]
      apply List.Nodup.map_on _ hnodup
      intro f hf g hg e
      exact frameAddr_inj (hlt f hf) (hlt g hg) e
    · unfold maxFrames at hn
      rw [hfree, BitVec.toNat_sub, BitVec.toNat_ofNat]
      have := p.pmmFreeFrames.isLt
      omega
    · rw [hgs] at has
      obtain ⟨fs, rfl, hp⟩ := frames_of_perm has
      have hall : gs.reverse.Perm (fs ++ []) := by
        rw [List.append_nil]
        exact (List.reverse_perm gs).trans hp.symm
      exact (taken.freeFrames h fs [] hall).eq
    · rw [hgs] at hperm
      obtain ⟨fs, hfs, hp⟩ := frames_of_perm hperm
      obtain ⟨us, vs, rfl, rfl, rfl⟩ := List.append_eq_map_iff.mp hfs
      have part := taken.freeFrames h us vs ((List.reverse_perm gs).trans hp.symm)
      obtain ⟨f, hf, rfl⟩ := List.mem_map.mp ha
      have hgs : f ∈ gs := hp.mem_iff.mp (List.mem_append_left _ hf)
      have hout : f ∉ vs := fun hv =>
        (List.nodup_append.mp (hp.nodup_iff.mpr hnodup)).2.2 f hf f hv rfl
      exact part.again (hlt f hgs) (taken.free f (List.mem_reverse.mpr hgs)).2 hout

end Pmm

namespace Frames

variable {entries : List E820Entry} {kernelEndSym : Word} {s : Frames}

theorem reach_steady (h : calls.Reach (fun _ _ => True) (boot entries kernelEndSym) s) : s.pmm.Steady := by
  apply h.invariant (I := fun s => s.pmm.Steady)
  · exact (Pmm.pmmInit_ready entries kernelEndSym).steady
  · intro s c hs _ _
    cases c with
    | alloc => exact hs.alloc
    | free addr => exact hs.release addr

/-- In every state that callers can bring about, allocations and the frees that
follow cancel out exactly if the count of free frames covers them. -/
theorem reach_cancels_iff (h : calls.Reach (fun _ _ => True) (boot entries kernelEndSym) s) {n : Nat}
    (hok : ∀ a ∈ (Pmm.allocFrames n s.pmm).1, a ≠ 0#32) :
    s.pmm.Cancels n ↔ n ≤ s.pmm.pmmFreeFrames.toNat := (reach_steady h).cancels_iff hok

theorem sideBySide_cancels : (boot sideBySide 0x00010000#32).pmm.pmmFreeFrames = 2#32 ∧
    (boot sideBySide 0x00010000#32).pmm.Cancels 2 := by
  have run : (boot sideBySide 0x00010000#32).pmm.pmmFreeFrames = 2#32 ∧
      (Pmm.allocFrames 2 (boot sideBySide 0x00010000#32).pmm).1 = [0x00100000#32, 0x00101000#32] := by
    decide +kernel
  obtain ⟨free, addrs⟩ := run
  have hok : ∀ a ∈ (Pmm.allocFrames 2 (boot sideBySide 0x00010000#32).pmm).1, a ≠ 0#32 :=
    (congrArg (fun as => ∀ a ∈ as, a ≠ 0#32) addrs).mpr (by simp)
  have hle : 2 ≤ (boot sideBySide 0x00010000#32).pmm.pmmFreeFrames.toNat := by
    rw [free]
    decide
  exact ⟨free, (reach_cancels_iff .start hok).mpr hle⟩

/-- A frame of the hole is given back while no frame is counted as used. -/
def holeFreed : Frames := calls.after (boot holed 0x00010000#32) [.free 0x00101000#32]

/-- Three allocations succeed, and the count of free frames goes from 2 to 0xFFFFFFFF. -/
theorem hole_not_cancelled : calls.Reach (fun _ _ => True) (boot holed 0x00010000#32) holeFreed ∧
    (∀ a ∈ (Pmm.allocFrames 3 holeFreed.pmm).1, a ≠ 0#32) ∧ holeFreed.pmm.pmmFreeFrames = 2#32 ∧
    (Pmm.allocFrames 3 holeFreed.pmm).2.pmmFreeFrames = 0xFFFFFFFF#32 ∧ ¬ holeFreed.pmm.Cancels 3 := by
  have run : (Pmm.allocFrames 3 holeFreed.pmm).1 = [0x00100000#32, 0x00101000#32, 0x00103000#32] ∧
      holeFreed.pmm.pmmFreeFrames = 2#32 ∧
      (Pmm.allocFrames 3 holeFreed.pmm).2.pmmFreeFrames = 0xFFFFFFFF#32 := by
    decide +kernel
  obtain ⟨addrs, before, after⟩ := run
  have hok : ∀ a ∈ (Pmm.allocFrames 3 holeFreed.pmm).1, a ≠ 0#32 :=
    (congrArg (fun as => ∀ a ∈ as, a ≠ 0#32) addrs).mpr (by simp)
  have free : calls.Accepts (fun _ _ => True) (boot holed 0x00010000#32) [.free 0x00101000#32] :=
    ⟨trivial, trivial, trivial⟩
  refine ⟨Machine.Reach.start.accepts free, hok, before, after, fun c => ?_⟩
  have dropped := c.dropped
  rw [before, after] at dropped
  simp at dropped

end Frames

/-! ## The pool of the buddy allocator -/

namespace Buddy

open Pmm (Steady Taken frameAddr maxFrames)

/-- Exactly the 256 frames from `base` on have gone from free to used. -/
structure Reserved (p p' : Pmm) (base : Word) : Prop where
  page : base.toNat % 4096 = 0
  taken : ∀ i, i < 256 → base.toNat / 4096 + i < p.frameCount ∧
    p.bitTest (base.toNat / 4096 + i) = false ∧ p'.bitTest (base.toNat / 4096 + i) = true
  others : ∀ f, f < maxFrames → (f < base.toNat / 4096 ∨ base.toNat / 4096 + 256 ≤ f) →
    p'.bitTest f = p.bitTest f
  used : p'.usedFramesCount = p.usedFramesCount + 256
  total : p'.totalFramesCount = p.totalFramesCount
  frameCount : p'.frameCount = p.frameCount
  reservedEnd : p'.reservedEnd = p.reservedEnd

/-- The undo loop gives the frames back in the order in which they were taken. -/
theorem undo_eq (p : Pmm) (a : Nat) {i : Nat} (hi : 0 < i) :
    (List.range' 1 (i - 1)).foldl (fun p j => p.pmmFreeFrame (frameAddr a + BitVec.ofNat 32 j * 4096#32))
      (p.pmmFreeFrame (frameAddr a)) = p.freeFrames ((List.range' a i).map frameAddr) := by
  obtain ⟨k, rfl⟩ : ∃ k, i = k + 1 := ⟨i - 1, by omega⟩
  have hshift : List.range' (a + 1) k = (List.range' 1 k).map (a + ·) := (List.map_add_range' ..).symm
  rw [List.range'_succ, List.map_cons, Pmm.freeFrames, List.foldl_cons, List.foldl_map, hshift,
    List.foldl_map]
  simp only [Pmm.frameAddr_add, Nat.add_sub_cancel]

section
variable {p₀ p : Pmm}

/-- The run of allocations ends with the 256 frames or with nothing. -/
theorem takeRun_spec (h₀ : p₀.Steady) {a : Nat} (n i : Nat) (hi : 0 < i) (hn : i + n = 256)
    (h : Taken p₀ p (List.range' a i).reverse) :
    ((takeRun (frameAddr a) i n p).1 = true ∧
      Taken p₀ (takeRun (frameAddr a) i n p).2 (List.range' a 256).reverse) ∨
    ((takeRun (frameAddr a) i n p).1 = false ∧ (takeRun (frameAddr a) i n p).2 = p₀) := by
  induction n generalizing i p with
  | zero =>
    obtain rfl : i = 256 := hn
    exact Or.inl ⟨rfl, h⟩
  | succ n ih =>
    have ha : a < maxFrames := (h.free a (by simp [hi])).1
    have hexpect := Pmm.frameAddr_add a i
    have hnext : (frameAddr (a + i)).toNat = (a + i) * 4096 := by
      unfold Pmm.maxFrames at ha
      rw [Pmm.frameAddr, BitVec.toNat_ofNat]
      omega
    have hne : frameAddr (a + i) ≠ 0#32 := by
      intro e
      rw [e] at hnext
      simp only [BitVec.toNat_ofNat] at hnext
      omega
    have undone {q : Pmm} {fs rest : List Nat} (ht : Taken p₀ q fs)
        (hp : fs.Perm (List.range' a i ++ rest)) :
        Taken p₀ (q.freeFrames ((List.range' a i).map frameAddr)) rest := ht.freeFrames h₀ _ _ hp
    rw [takeRun, hexpect]
    dsimp only
    rcases h.alloc h₀ with he | ⟨f, hf, hlt, haddr, hfne, h'⟩
    · -- memory is exhausted
      right
      rw [he]
      dsimp only
      rw [if_pos hne.symm, undo_eq p a hi, if_neg (not_not.mpr rfl)]
      have hp : (List.range' a i).reverse.Perm (List.range' a i ++ []) := by
        rw [List.append_nil]
        exact List.reverse_perm _
      exact ⟨rfl, (undone h hp).eq⟩
    · rw [haddr]
      by_cases hfa : frameAddr f = frameAddr (a + i)
      · rw [if_neg (not_not.mpr hfa)]
        have hfi : f = a + i := by
          have := congrArg BitVec.toNat hfa
          rw [hnext, Pmm.frameAddr_toNat hlt] at this
          omega
        apply ih (i + 1) (by omega) (by omega)
        rw [List.range'_concat, List.reverse_append, Nat.one_mul, ← hfi]
        exact h'
      · -- the next free frame is not the next frame
        right
        rw [if_pos hfa, undo_eq _ a hi, if_pos hfne]
        have hp : (f :: (List.range' a i).reverse).Perm (List.range' a i ++ [f]) :=
          (List.perm_append_singleton f _).symm.trans ((List.reverse_perm _).append_right [f])
        have last := (undone h' hp).release h₀ (List.mem_singleton_self f)
        rw [List.erase_cons_head] at last
        exact ⟨rfl, last.eq⟩

theorem findContiguousPool_spec (h₀ : p₀.Steady) :
    ((findContiguousPool p₀).1 ≠ 0#32 ∧
      Reserved p₀ (findContiguousPool p₀).2 (findContiguousPool p₀).1) ∨
    ((findContiguousPool p₀).1 = 0#32 ∧ (findContiguousPool p₀).2 = p₀) := by
  unfold findContiguousPool
  rcases (Taken.start p₀).alloc h₀ with he | ⟨a, -, hlt, haddr, hne, h⟩
  · rw [he]
    exact Or.inr ⟨rfl, rfl⟩
  · dsimp only
    rw [haddr, if_neg hne]
    rcases takeRun_spec h₀ 255 1 (by decide) rfl h with ⟨hok, ht⟩ | ⟨hok, ht⟩
    · left
      rw [hok, if_pos rfl]
      have hdiv := Pmm.frameAddr_div hlt
      have hmem (f : Nat) : f ∈ (List.range' a 256).reverse ↔ a ≤ f ∧ f < a + 256 := by
        rw [List.mem_reverse, List.mem_range'_1]
      refine ⟨hne, ⟨?_, fun i hi => ?_, fun f hf hout => ?_, ?_, ht.total, ht.frameCount, ht.reservedEnd⟩⟩
      · rw [Pmm.frameAddr_toNat hlt]
        omega
      · rw [hdiv]
        have hin := (hmem (a + i)).mpr ⟨by omega, by omega⟩
        obtain ⟨hmax, hfree⟩ := ht.free _ hin
        refine ⟨(h₀.free _ hmax hfree).1, hfree, ?_⟩
        by_contra hb
        exact ((ht.bit _ hmax).mp (by simpa using hb)).2 hin
      · rw [hdiv] at hout
        have hnot : f ∉ (List.range' a 256).reverse := by
          rw [hmem]
          omega
        have hbit := ht.bit f hf
        simp only [hnot, not_false_eq_true, and_true] at hbit
        exact Bool.eq_iff_iff.mpr (by rw [← Bool.not_eq_false, ← Bool.not_eq_false, hbit])
      · rw [ht.used, List.length_reverse, List.length_range']
    · right
      rw [hok]
      exact ⟨rfl, ht⟩

end

/-- Whatever callers have done to the frame allocator, the pool is reserved in
one piece or the allocator is left as it was. -/
theorem reach_pool_all_or_nothing {entries : List E820Entry} {kernelEndSym : Word} {s : Frames}
    (h : Frames.calls.Reach (fun _ _ => True) (Frames.boot entries kernelEndSym) s) :
    ((findContiguousPool s.pmm).1 ≠ 0#32 ∧
      Reserved s.pmm (findContiguousPool s.pmm).2 (findContiguousPool s.pmm).1) ∨
    ((findContiguousPool s.pmm).1 = 0#32 ∧ (findContiguousPool s.pmm).2 = s.pmm) :=
  findContiguousPool_spec (Frames.reach_steady h)

/-- Two frames beside each other are not enough. -/
theorem sideBySide_no_pool :
    (findContiguousPool (Frames.boot Frames.sideBySide 0x00010000#32).pmm).2 =
      (Frames.boot Frames.sideBySide 0x00010000#32).pmm := by
  have hzero : (findContiguousPool (Frames.boot Frames.sideBySide 0x00010000#32).pmm).1 = 0#32 := by
    decide +kernel
  have reach : Frames.calls.Reach (fun _ _ => True) (Frames.boot Frames.sideBySide 0x00010000#32)
      (Frames.boot Frames.sideBySide 0x00010000#32) := .start
  rcases reach_pool_all_or_nothing reach with ⟨hne, -⟩ | ⟨-, same⟩
  · exact absurd hzero hne
  · exact same

end Buddy

end SengOS
