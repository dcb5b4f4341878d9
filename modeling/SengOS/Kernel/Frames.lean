import SengOS.Kernel.Pmm
import SengOS.Lib.Machine

/-!
# Frames that are lent out

What `pmm_init` leaves free is RAM: every free frame lies in a usable range of
the E820 table, above the first MiB and above the kernel. From there on a frame
is free or it is held by somebody, as long as nobody gives back a frame that
was never lent: the bitmap cannot tell such a frame from one in use.
-/

namespace SengOS

namespace E820Entry

/-- Frame `f` lies in the usable range, as far as the code sees its end: a range
that runs past the last address is empty. -/
def Covers (e : E820Entry) (f : Nat) : Prop :=
  e.type = 1#32 ∧ e.base.toNat ≤ f * 4096 ∧ (f + 1) * 4096 ≤ (e.base + e.length).toNat

/-- The page at `a` lies in the range of the entry. -/
def Holds (e : E820Entry) (a : Nat) : Prop :=
  e.base.toNat ≤ a ∧ a + 4096 ≤ e.base.toNat + e.length.toNat

/-- The page at `a` and the range of the entry have an address in common. -/
def Meets (e : E820Entry) (a : Nat) : Prop :=
  ∃ x, a ≤ x ∧ x < a + 4096 ∧ e.base.toNat ≤ x ∧ x < e.base.toNat + e.length.toNat

theorem Covers.holds {e : E820Entry} {f : Nat} (h : e.Covers f) : e.Holds (f * 4096) := by
  obtain ⟨_, hlo, hhi⟩ := h
  rw [BitVec.toNat_add] at hhi
  have := Nat.mod_le (e.base.toNat + e.length.toNat) (2 ^ 64)
  exact ⟨hlo, by omega⟩

end E820Entry

namespace Pmm

theorem and_not_page (x : Word) : (x &&& ~~~4095#32).toNat = x.toNat / 4096 * 4096 := by
  have hmask : ∀ i : Fin 32, (~~~4095#32).getLsbD i = decide (12 ≤ i.val) := by decide
  have hshift : x &&& ~~~4095#32 = (x >>> 12) <<< 12 := by
    ext i hi
    rw [BitVec.getElem_and, BitVec.getElem_shiftLeft, ← BitVec.getLsbD_eq_getElem (x := ~~~4095#32),
      hmask ⟨i, hi⟩]
    by_cases hlt : i < 12
    · simp [hlt]
    · simp [hlt, show 12 ≤ i by omega, show 12 + (i - 12) = i by omega, BitVec.getLsbD_eq_getElem hi]
  rw [hshift, BitVec.toNat_shiftLeft, BitVec.toNat_ushiftRight, Nat.shiftRight_eq_div_pow,
    Nat.shiftLeft_eq]
  have := x.isLt
  omega

theorem alignUpPage_toNat {v : Word} (h : v.toNat + 4095 < 2 ^ 32) :
    (alignUpPage v).toNat = (v.toNat + 4095) / 4096 * 4096 := by
  have hadd : (v + 4095#32).toNat = v.toNat + 4095 := by
    rw [BitVec.toNat_add, BitVec.toNat_ofNat]
    omega
  rw [alignUpPage, and_not_page, hadd]

/-- `PMM_MAX_FRAMES`. -/
def maxFrames : Nat := 32768

/-! ## What pmm_init leaves free -/

theorem release_bit (acc : Buf 4096 × Nat) {i f : Nat} (hi : i < 32768) :
    (release acc i).1.bit f = false ↔ acc.1.bit f = false ∨ f = i := by
  unfold release
  split
  · rename_i hb
    rw [Buf.bit_setBit _ _ _ _ (by omega)]
    by_cases hf : f = i <;> simp [hf]
  · rename_i hb
    constructor
    · exact .inl
    · rintro (h | rfl)
      · exact h
      · simpa using hb

theorem release_count (acc : Buf 4096 × Nat) {i : Nat} (hi : i < 32768) :
    (release acc i).2 + acc.1.clearBits maxFrames = acc.2 + (release acc i).1.clearBits maxFrames := by
  unfold release
  split
  · rename_i hb
    have hbit := fun k => Buf.bit_setBit acc.1 i k false (by omega)
    have hstep := Buf.clearBits_step (a := acc.1.setBit i false) (show i < maxFrames from hi)
      (by simp [hbit]) hb
      fun k hk => by simp [hbit, hk]
    dsimp only
    omega
  · rfl

theorem releaseAll (acc : Buf 4096 × Nat) (fs : List Nat) (hfs : ∀ f ∈ fs, f < 32768) :
    (∀ f, (fs.foldl release acc).1.bit f = false ↔ acc.1.bit f = false ∨ f ∈ fs) ∧
      (fs.foldl release acc).2 + acc.1.clearBits maxFrames =
        acc.2 + (fs.foldl release acc).1.clearBits maxFrames := by
  induction fs generalizing acc with
  | nil => exact ⟨fun f => by simp, rfl⟩
  | cons i fs ih =>
    have hi := hfs i List.mem_cons_self
    have ih := ih (release acc i) fun f hf => hfs f (List.mem_cons_of_mem _ hf)
    have hcount := release_count acc hi
    refine ⟨fun f => ?_, ?_⟩
    · rw [List.foldl_cons, ih.1, release_bit _ hi, List.mem_cons, or_assoc]
    · rw [List.foldl_cons]
      have := ih.2
      omega

structure ScanOk (table : List E820Entry) (acc : Scan) : Prop where
  clear : ∀ f, f < 32768 → (acc.bitmap.bit f = false ↔ ∃ e ∈ table, e.Covers f)
  usable : acc.usable = acc.bitmap.clearBits maxFrames
  below : ∀ f, f < 32768 → acc.bitmap.bit f = false → (f + 1) * 4096 ≤ acc.maxEnd.toNat

theorem scanOk_start : ScanOk [] ⟨fun _ => 0xFF#8, 0#32, 0⟩ := by
  have hones : ∀ (b : Buf 4096), (∀ i, b i = 0xFF#8) → ∀ f, f < maxFrames → b.bit f = true := by
    intro b hb f hf
    have hget : b.get (f / 8) = 0xFF#8 := by
      unfold Buf.get
      rw [dif_pos (show f / 8 < 4096 by unfold maxFrames at hf; omega), hb]
    have hall : ∀ i : Fin 8, (0xFF#8).getLsbD i = true := by decide
    rw [Buf.bit_eq, hget]
    exact hall ⟨f % 8, Nat.mod_lt _ (by decide)⟩
  have hset := hones (fun _ => 0xFF#8) fun _ => rfl
  refine ⟨fun f hf => ?_, ?_, fun f hf hb => ?_⟩
  · simp [hset f hf]
  · symm
    unfold Buf.clearBits
    rw [List.countP_eq_zero]
    intro f hf
    simp [hset f (List.mem_range.mp hf)]
  · rw [hset f hf] at hb
    cases hb

/-- The end of a usable range as the code narrows it. -/
theorem clamped_end_toNat (end64 : BitVec 64) :
    ((if 0x08000000#64 < end64 then 0x08000000#64 else end64).setWidth 32).toNat =
      min 0x08000000 end64.toNat := by
  split <;> rename_i hlt
  · have := BitVec.lt_def.mp hlt
    simp only [BitVec.toNat_ofNat] at this
    rw [BitVec.toNat_setWidth, BitVec.toNat_ofNat]
    omega
  · have := BitVec.le_def.mp (BitVec.not_lt.mp hlt)
    simp only [BitVec.toNat_ofNat] at this
    rw [BitVec.toNat_setWidth]
    omega

/-- The frames of a usable range, with its ends as the code computes them. -/
theorem mem_usable {e : E820Entry} (ht : e.type = 1#32) (hb : e.base.toNat < 0x08000000)
    {f : Nat} (hf : f < 32768) (end32 : Word)
    (hend : end32.toNat = min 0x08000000 (e.base + e.length).toNat) :
    f ∈ List.range' ((alignUpPage (e.base.setWidth 32)).toNat / 4096)
        ((end32 &&& ~~~4095#32).toNat / 4096 - (alignUpPage (e.base.setWidth 32)).toNat / 4096) ↔
      e.Covers f := by
  have hstart : (e.base.setWidth 32).toNat = e.base.toNat := by
    rw [BitVec.toNat_setWidth]
    omega
  rw [alignUpPage_toNat (by omega), and_not_page, hstart, hend, List.mem_range'_1, E820Entry.Covers]
  constructor
  · rintro ⟨hlo, hhi⟩
    exact ⟨ht, by omega, by omega⟩
  · rintro ⟨_, hlo, hhi⟩
    exact ⟨by omega, by omega⟩

theorem covered_append {table : List E820Entry} {e : E820Entry} {f : Nat} :
    (∃ e' ∈ table ++ [e], e'.Covers f) ↔ (∃ e' ∈ table, e'.Covers f) ∨ e.Covers f := by
  simp only [List.mem_append, List.mem_singleton, or_and_right, exists_or, exists_eq_left]

/-- The scan keeps the larger of two ends. -/
theorem later_end (a b : Word) :
    a.toNat ≤ (if a < b then b else a).toNat ∧ b.toNat ≤ (if a < b then b else a).toNat := by
  split <;> rename_i hlt
  · have := BitVec.lt_def.mp hlt
    omega
  · have := BitVec.le_def.mp (BitVec.not_lt.mp hlt)
    omega

theorem ScanOk.entry {table : List E820Entry} {acc : Scan} (h : ScanOk table acc) (e : E820Entry) :
    ScanOk (table ++ [e]) (scanEntry acc e) := by
  have hskip : (∀ f, f < 32768 → ¬ e.Covers f) → ScanOk (table ++ [e]) acc := by
    intro hno
    refine ⟨fun f hf => ?_, h.usable, h.below⟩
    rw [h.clear f hf, covered_append]
    exact (or_iff_left (hno f hf)).symm
  unfold scanEntry
  dsimp only
  split
  · rename_i hcond
    apply hskip
    rintro f hf ⟨ht, hlo, hhi⟩
    rcases hcond with hcond | hcond | hcond
    · exact hcond ht
    · rw [hcond, BitVec.add_zero] at hhi
      omega
    · have := BitVec.le_def.mp hcond
      simp only [BitVec.toNat_ofNat] at this
      omega
  · rename_i hcond
    simp only [not_or, not_not] at hcond
    obtain ⟨ht, _, hb⟩ := hcond
    have hb : e.base.toNat < 0x08000000 := by
      have := BitVec.lt_def.mp (BitVec.not_le.mp hb)
      simpa using this
    have hend := clamped_end_toNat (e.base + e.length)
    generalize BitVec.setWidth 32 (if _ < e.base + e.length then _ else _) = end32 at hend ⊢
    have hmem := fun f hf => mem_usable ht hb (f := f) hf end32 hend
    split
    · rename_i hle
      apply hskip
      intro f hf hc
      have hle := BitVec.le_def.mp hle
      rw [BitVec.toNat_setWidth] at hle
      have := hc.2
      omega
    · have hrange : ∀ f ∈ List.range' ((alignUpPage (e.base.setWidth 32)).toNat / 4096)
          ((end32 &&& ~~~4095#32).toNat / 4096 - (alignUpPage (e.base.setWidth 32)).toNat / 4096),
          f < 32768 := by
        intro f hf
        rw [List.mem_range'_1, and_not_page] at hf
        omega
      obtain ⟨hbits, hcount⟩ := releaseAll (acc.bitmap, acc.usable) _ hrange
      refine ⟨fun f hf => ?_, ?_, fun f hf hclear => ?_⟩
      · rw [hbits, h.clear f hf, hmem f hf, covered_append]
      · have := h.usable
        dsimp only at hcount ⊢
        omega
      · rw [hbits] at hclear
        have hmax := later_end acc.maxEnd end32
        dsimp only
        rcases hclear with hclear | hclear
        · have := h.below f hf hclear
          omega
        · have := ((hmem f hf).mp hclear).2
          omega

theorem scan_ok (table : List E820Entry) :
    ScanOk table (table.foldl scanEntry ⟨fun _ => 0xFF#8, 0#32, 0⟩) := by
  have hall : ∀ (rest front : List E820Entry) (acc : Scan), ScanOk front acc →
      ScanOk (front ++ rest) (rest.foldl scanEntry acc) := by
    intro rest
    induction rest with
    | nil => intro front acc h; simpa using h
    | cons e rest ih =>
      intro front acc h
      have := ih (front ++ [e]) _ (h.entry e)
      rwa [List.append_assoc] at this
  simpa using hall table [] _ scanOk_start

/-- Low memory and the kernel's own pages. -/
def Low (kernelEnd : Word) (f : Nat) : Prop := f * 4096 < kernelEnd.toNat ∨ f * 4096 < 0x00100000

instance (kernelEnd : Word) (f : Nat) : Decidable (Low kernelEnd f) := inferInstanceAs (Decidable (_ ∨ _))

theorem reserve_clear (kernelEnd : Word) (acc : Buf 4096 × Nat) {i f : Nat} (hi : i < 32768) :
    (reserve kernelEnd acc i).1.bit f = false ↔ acc.1.bit f = false ∧ ¬ (f = i ∧ Low kernelEnd i) := by
  unfold reserve Low
  dsimp only
  split
  · rename_i hc
    simp only [Bool.and_eq_true, Bool.not_eq_true', Bool.or_eq_true, decide_eq_true_eq] at hc
    rw [Buf.bit_setBit _ _ _ _ (by omega)]
    by_cases hf : f = i
    · simp [hf, hc.2]
    · simp [hf]
  · rename_i hc
    simp only [Bool.and_eq_true, Bool.not_eq_true', Bool.or_eq_true, decide_eq_true_eq, not_and] at hc
    constructor
    · intro hb
      refine ⟨hb, ?_⟩
      rintro ⟨rfl, hl⟩
      exact hc hb hl
    · exact fun h => h.1

theorem reserve_count (kernelEnd : Word) (acc : Buf 4096 × Nat) {i : Nat} (hi : i < 32768) :
    (reserve kernelEnd acc i).2 + (reserve kernelEnd acc i).1.clearBits maxFrames =
      acc.2 + acc.1.clearBits maxFrames := by
  unfold reserve
  dsimp only
  split
  · rename_i hc
    simp only [Bool.and_eq_true, Bool.not_eq_true'] at hc
    have hbit := fun k => Buf.bit_setBit acc.1 i k true (by omega)
    have hstep := Buf.clearBits_step (b := acc.1.setBit i true) (show i < maxFrames from hi) hc.1
      (by simp [hbit]) fun k hk => by simp [hbit, hk]
    dsimp only
    omega
  · rfl

theorem reserveAll (kernelEnd : Word) (acc : Buf 4096 × Nat) (is : List Nat)
    (his : ∀ i ∈ is, i < 32768) :
    (∀ f, (is.foldl (reserve kernelEnd) acc).1.bit f = false ↔
        acc.1.bit f = false ∧ ¬ (f ∈ is ∧ Low kernelEnd f)) ∧
      (is.foldl (reserve kernelEnd) acc).2 + (is.foldl (reserve kernelEnd) acc).1.clearBits maxFrames =
        acc.2 + acc.1.clearBits maxFrames := by
  induction is generalizing acc with
  | nil => exact ⟨fun f => by simp, rfl⟩
  | cons i is ih =>
    have hi := his i List.mem_cons_self
    have ih := ih (reserve kernelEnd acc i) fun f hf => his f (List.mem_cons_of_mem _ hf)
    have hcount := reserve_count kernelEnd acc hi
    refine ⟨fun f => ?_, ?_⟩
    · rw [List.foldl_cons, ih.1, reserve_clear _ _ hi, List.mem_cons, and_assoc]
      apply and_congr_right
      intro _
      by_cases hf : f = i
      · by_cases hl : Low kernelEnd i <;> simp [hf, hl]
      · simp [hf]
    · rw [List.foldl_cons]
      have := ih.2
      omega

/-- The frames that `pmm_init` leaves free. -/
structure Ready (p : Pmm) : Prop where
  bounded : p.frameCount ≤ 32768
  free : ∀ f, f < 32768 → p.bitTest f = false →
    f < p.frameCount ∧ p.reservedEnd.toNat ≤ f * 4096 ∧ 0x00100000 ≤ f * 4096
  count : p.totalFramesCount = p.usedFramesCount + p.frameBitmap.clearBits maxFrames
  total : p.totalFramesCount ≤ maxFrames

/-- The table as the first loop of `pmm_init` reads it. -/
def scanTable (entries : List E820Entry) : Scan :=
  (entries.take 128).foldl scanEntry ⟨fun _ => 0xFF#8, 0#32, 0⟩

theorem pmmInit_reserved (entries : List E820Entry) (kernelEndSym : Word) :
    (∀ f, (pmmInit entries kernelEndSym).bitTest f = false ↔
        (scanTable entries).bitmap.bit f = false ∧
          ¬ (f < (pmmInit entries kernelEndSym).frameCount ∧ Low (alignUpPage kernelEndSym) f)) ∧
      (pmmInit entries kernelEndSym).usedFramesCount +
          (pmmInit entries kernelEndSym).frameBitmap.clearBits maxFrames =
        (scanTable entries).bitmap.clearBits maxFrames := by
  have hbound := (pmmInit_ok entries kernelEndSym).bounded
  obtain ⟨hbits, hcount⟩ := reserveAll (alignUpPage kernelEndSym) ((scanTable entries).bitmap, 0)
    (List.range (pmmInit entries kernelEndSym).frameCount) fun i hi =>
      Nat.lt_of_lt_of_le (List.mem_range.mp hi) hbound
  rw [Nat.zero_add] at hcount
  refine ⟨fun f => ?_, hcount⟩
  rw [← List.mem_range]
  exact hbits f

theorem scanTable_below {entries : List E820Entry} (kernelEndSym : Word) {f : Nat} (hf : f < 32768)
    (hc : (scanTable entries).bitmap.bit f = false) :
    f < (pmmInit entries kernelEndSym).frameCount := by
  have hbelow := (scan_ok (entries.take 128)).below f hf hc
  show f < (scanTable entries).maxEnd.toNat / 4096
  unfold scanTable
  omega

theorem pmmInit_clear (entries : List E820Entry) (kernelEndSym : Word) {f : Nat} (hf : f < 32768) :
    (pmmInit entries kernelEndSym).bitTest f = false ↔
      (∃ e ∈ entries.take 128, e.Covers f) ∧ ¬ Low (alignUpPage kernelEndSym) f := by
  have hclear : (scanTable entries).bitmap.bit f = false ↔ ∃ e ∈ entries.take 128, e.Covers f :=
    (scan_ok (entries.take 128)).clear f hf
  rw [(pmmInit_reserved entries kernelEndSym).1 f, ← hclear]
  apply and_congr_right
  intro hc
  simp [scanTable_below kernelEndSym hf hc]

theorem pmmInit_ready (entries : List E820Entry) (kernelEndSym : Word) :
    (pmmInit entries kernelEndSym).Ready := by
  obtain ⟨hbits, hcount⟩ := pmmInit_reserved entries kernelEndSym
  have husable : (pmmInit entries kernelEndSym).totalFramesCount =
      (scanTable entries).bitmap.clearBits maxFrames := (scan_ok (entries.take 128)).usable
  refine ⟨(pmmInit_ok entries kernelEndSym).bounded, fun f hf hclear => ?_, ?_, ?_⟩
  · obtain ⟨_, hlow⟩ := (pmmInit_clear entries kernelEndSym hf).mp hclear
    simp only [Low, not_or, Nat.not_lt] at hlow
    exact ⟨scanTable_below kernelEndSym hf ((hbits f).mp hclear).1, hlow⟩
  · rw [hcount]
    exact husable
  · rw [husable]
    exact Buf.clearBits_bound _ _

/-! ## Lending -/

/-- The address of a frame. -/
def frameAddr (f : Nat) : Word := BitVec.ofNat 32 (f * 4096)

theorem frameAddr_toNat {f : Nat} (hf : f < 32768) : (frameAddr f).toNat = f * 4096 := by
  rw [frameAddr, BitVec.toNat_ofNat]
  omega

theorem frameAddr_div {f : Nat} (hf : f < 32768) : (frameAddr f).toNat / 4096 = f := by
  rw [frameAddr_toNat hf]
  omega

theorem frameAddr_add (a i : Nat) : frameAddr a + BitVec.ofNat 32 i * 4096#32 = frameAddr (a + i) := by
  rw [frameAddr, frameAddr, Nat.add_mul, BitVec.ofNat_add, BitVec.ofNat_mul i]

theorem frameAddr_inj {f g : Nat} (hf : f < 32768) (hg : g < 32768) (h : frameAddr f = frameAddr g) :
    f = g := by
  have := congrArg BitVec.toNat h
  rw [frameAddr_toNat hf, frameAddr_toNat hg] at this
  omega

/-- The frames in `held` are lent out and all others are as `p₀` has them. -/
structure Lent (p₀ p : Pmm) (held : List Word) : Prop where
  frameCount : p.frameCount = p₀.frameCount
  reservedEnd : p.reservedEnd = p₀.reservedEnd
  clear : ∀ f, f < 32768 → (p.bitTest f = false ↔ p₀.bitTest f = false ∧ frameAddr f ∉ held)
  held_free : ∀ a ∈ held, ∃ f, f < 32768 ∧ a = frameAddr f ∧ p₀.bitTest f = false
  nodup : held.Nodup
  count : p.totalFramesCount = p.usedFramesCount + p.frameBitmap.clearBits maxFrames
  used : held.length ≤ p.usedFramesCount
  total : p.totalFramesCount = p₀.totalFramesCount

theorem Ready.lent {p : Pmm} (h : p.Ready) : Lent p p [] :=
  ⟨rfl, rfl, fun f _ => by simp, by nofun, .nil, h.count, Nat.zero_le _, rfl⟩

theorem Lent.perm {p₀ p : Pmm} {held held' : List Word} (h : Lent p₀ p held)
    (hp : held.Perm held') : Lent p₀ p held' :=
  ⟨h.frameCount, h.reservedEnd, fun f hf => by rw [h.clear f hf, hp.mem_iff],
    fun a ha => h.held_free a (hp.mem_iff.mpr ha), hp.nodup_iff.mp h.nodup, h.count,
    by rw [← hp.length_eq]; exact h.used, h.total⟩

/-- An allocation lends a frame that was free and held by nobody, or fails. -/
theorem Lent.alloc {p₀ p : Pmm} {held : List Word} (h₀ : p₀.Ready) (h : Lent p₀ p held) :
    (p.pmmAllocFrame = (0#32, p) ∧ ∀ f, f < p₀.frameCount → p.bitTest f = true) ∨
      ∃ f, f < p₀.frameCount ∧ p₀.bitTest f = false ∧ p.pmmAllocFrame.1 = frameAddr f ∧
        frameAddr f ≠ 0#32 ∧ frameAddr f ∉ held ∧ Lent p₀ p.pmmAllocFrame.2 (frameAddr f :: held) := by
  have hbound := h₀.bounded
  unfold pmmAllocFrame
  cases hfind : (List.range p.frameCount).find? (fun i => !p.bitTest i) with
  | none =>
    refine .inl ⟨rfl, fun f hf => ?_⟩
    have := List.find?_eq_none.mp hfind f (List.mem_range.mpr (by rw [h.frameCount]; exact hf))
    simpa using this
  | some f =>
    have hf : f < p₀.frameCount := by
      rw [← h.frameCount]
      exact List.mem_range.mp (List.mem_of_find?_eq_some hfind)
    have hclear : p.bitTest f = false := by simpa using List.find?_some hfind
    have hlt : f < 32768 := by omega
    obtain ⟨hfree, hnot⟩ := (h.clear f hlt).mp hclear
    obtain ⟨_, _, hhigh⟩ := h₀.free f hlt hfree
    have hbit := fun k => Buf.bit_setBit p.frameBitmap f k true (by omega)
    refine .inr ⟨f, hf, hfree, rfl, fun hz => ?_, hnot, ⟨h.frameCount, h.reservedEnd, fun g hg => ?_,
      fun a ha => ?_, List.nodup_cons.mpr ⟨hnot, h.nodup⟩, ?_, ?_, h.total⟩⟩
    · have := congrArg BitVec.toNat hz
      rw [frameAddr_toNat hlt] at this
      simp only [BitVec.toNat_ofNat] at this
      omega
    · simp only [bitTest, hbit, List.mem_cons, not_or]
      by_cases hgf : g = f
      · simp [hgf]
      · have hne : frameAddr g ≠ frameAddr f := fun he => hgf (frameAddr_inj hg hlt he)
        simp only [hgf, if_false, hne, not_false_eq_true, true_and]
        exact h.clear g hg
    · rcases List.mem_cons.mp ha with rfl | ha
      · exact ⟨f, hlt, rfl, hfree⟩
      · exact h.held_free a ha
    · have hstep := Buf.clearBits_step (b := p.frameBitmap.setBit f true)
        (show f < maxFrames from hlt) hclear (by simp [hbit]) fun k hk => by simp [hbit, hk]
      have := h.count
      dsimp only
      omega
    · have := h.used
      simp only [List.length_cons]
      omega

/-- The checks of `pmm_free_frame` let the address through. -/
def Frees (p : Pmm) (addr : Word) : Prop :=
  addr.toNat / 4096 < p.frameCount ∧ addr.toNat % 4096 = 0 ∧ p.reservedEnd ≤ addr ∧
    0x00100000#32 ≤ addr ∧ p.bitTest (addr.toNat / 4096) = true

instance (p : Pmm) (addr : Word) : Decidable (p.Frees addr) := inferInstanceAs (Decidable (_ ∧ _))

theorem pmmFreeFrame_eq (p : Pmm) (addr : Word) :
    (p.Frees addr ∧ p.pmmFreeFrame addr =
        { p with
          frameBitmap := p.frameBitmap.setBit (addr.toNat / 4096) false
          usedFramesCount := p.usedFramesCount - 1 }) ∨
      (¬ p.Frees addr ∧ p.pmmFreeFrame addr = p) := by
  unfold pmmFreeFrame Frees
  dsimp only
  split
  · rename_i hc
    refine .inr ⟨fun hf => ?_, rfl⟩
    rcases hc with hc | hc
    · exact absurd hf.1 (Nat.not_lt.mpr hc)
    · exact hc hf.2.1
  · rename_i hc
    simp only [not_or, Nat.not_le, not_not] at hc
    split
    · rename_i hl
      refine .inr ⟨fun hf => ?_, rfl⟩
      rcases hl with hl | hl
      · exact BitVec.not_le.mpr hl hf.2.2.1
      · exact BitVec.not_le.mpr hl hf.2.2.2.1
    · rename_i hl
      simp only [not_or, BitVec.not_lt] at hl
      split
      · rename_i hb
        refine .inr ⟨fun hf => ?_, rfl⟩
        rw [hf.2.2.2.2] at hb
        cases hb
      · rename_i hb
        exact .inl ⟨⟨hc.1, hc.2, hl.1, hl.2, by simpa using hb⟩, rfl⟩

/-- A frame in use, outside what is reserved, passes the checks. -/
theorem frees_frameAddr {p : Pmm} {f : Nat} (hf : f < 32768)
    (hframe : f < p.frameCount ∧ p.reservedEnd.toNat ≤ f * 4096 ∧ 0x00100000 ≤ f * 4096)
    (hset : p.bitTest f = true) : p.Frees (frameAddr f) := by
  obtain ⟨hlt, hend, hhigh⟩ := hframe
  have hnat := frameAddr_toNat hf
  have hdiv := frameAddr_div hf
  refine ⟨by rw [hdiv]; exact hlt, by omega, ?_, ?_, by rw [hdiv]; exact hset⟩
  · rw [BitVec.le_def, hnat]
    exact hend
  · rw [BitVec.le_def, hnat]
    simpa using hhigh

/-- A held frame passes the checks. -/
theorem Lent.frees {p₀ p : Pmm} {held : List Word} (h₀ : p₀.Ready) (h : Lent p₀ p held) {a : Word}
    (ha : a ∈ held) : p.Frees a := by
  obtain ⟨f, hf, rfl, hfree⟩ := h.held_free a ha
  apply frees_frameAddr hf
  · rw [h.frameCount, h.reservedEnd]
    exact h₀.free f hf hfree
  · by_contra hb
    exact ((h.clear f hf).mp (by simpa using hb)).2 ha

theorem Lent.free {p₀ p : Pmm} {held : List Word} (h₀ : p₀.Ready) (h : Lent p₀ p held) {a : Word}
    (ha : a ∈ held) : Lent p₀ (p.pmmFreeFrame a) (held.erase a) := by
  rcases pmmFreeFrame_eq p a with ⟨_, he⟩ | ⟨hn, _⟩
  · obtain ⟨f, hf, rfl, hfree⟩ := h.held_free a ha
    have hdiv := frameAddr_div hf
    have hset : p.bitTest f = true := by
      have := (h.frees h₀ ha).2.2.2.2
      rwa [hdiv] at this
    rw [hdiv] at he
    rw [he]
    have hbit := fun k => Buf.bit_setBit p.frameBitmap f k false (by omega)
    have hlen := List.length_erase_of_mem ha
    have hpos := List.length_pos_of_mem ha
    have hused := h.used
    refine ⟨h.frameCount, h.reservedEnd, fun g hg => ?_, fun b hb => ?_, h.nodup.erase _, ?_, ?_,
      h.total⟩
    · simp only [bitTest, hbit, h.nodup.mem_erase_iff]
      by_cases hgf : g = f
      · subst hgf
        have hfree : p₀.frameBitmap.bit g = false := hfree
        simpa using hfree
      · have hne : frameAddr g ≠ frameAddr f := fun he => hgf (frameAddr_inj hg hf he)
        simp only [hgf, if_false, hne, ne_eq, not_false_eq_true, true_and]
        exact h.clear g hg
    · exact h.held_free b (List.mem_of_mem_erase hb)
    · have hstep := Buf.clearBits_step (a := p.frameBitmap.setBit f false)
        (show f < maxFrames from hf) (by simp [hbit]) hset fun k hk => by simp [hbit, hk]
      have := h.count
      dsimp only
      omega
    · dsimp only
      omega
  · exact absurd (h.frees h₀ ha) hn

/-- `pmm_free_frames`. -/
def pmmFreeFrames (p : Pmm) : Word :=
  BitVec.ofNat 32 p.totalFramesCount - BitVec.ofNat 32 p.usedFramesCount

/-- How many frames `pmm_alloc_frame` can still find. -/
def allocatable (p : Pmm) : Nat := (List.range p.frameCount).countP fun f => !p.bitTest f

theorem Lent.freeFrames {p₀ p : Pmm} {held : List Word} (h₀ : p₀.Ready) (h : Lent p₀ p held) :
    p.pmmFreeFrames.toNat = p.allocatable := by
  have hbound := h₀.bounded
  have hclear : p.frameBitmap.clearBits maxFrames = p.allocatable := by
    apply Buf.clearBits_le
    · rw [h.frameCount]
      exact hbound
    · intro f hf hb
      rw [h.frameCount]
      exact (h₀.free f hf ((h.clear f hf).mp hb).1).1
  have hcount := h.count
  have hsmall : p.totalFramesCount ≤ 32768 := by
    rw [h.total]
    exact h₀.total
  rw [pmmFreeFrames, BitVec.toNat_sub, BitVec.toNat_ofNat, BitVec.toNat_ofNat, ← hclear]
  omega

end Pmm

/-! ## Runs of the allocator -/

/-- The allocator beside the frames that are out: allocated and not freed since. -/
structure Frames where
  pmm : Pmm
  held : List Word

inductive FrameCall
  | alloc
  | free (addr : Word)

namespace Frames

def next (s : Frames) : FrameCall → Frames
  | .alloc =>
    let (addr, pmm) := s.pmm.pmmAllocFrame
    ⟨pmm, if addr = 0#32 then s.held else addr :: s.held⟩
  | .free addr => ⟨s.pmm.pmmFreeFrame addr, s.held.filter (· != addr)⟩

/-- Any caller may call at any time, with any address. -/
def calls : Machine Frames FrameCall := ⟨fun _ _ => True, next⟩

def boot (entries : List E820Entry) (kernelEndSym : Word) : Frames :=
  ⟨Pmm.pmmInit entries kernelEndSym, []⟩

/-- An address that `pmm_free_frame` lets through is that of a frame that is out. -/
def FreesHeld (s : Frames) : FrameCall → Prop
  | .alloc => True
  | .free addr => s.pmm.Frees addr → addr ∈ s.held

instance (s : Frames) : (c : FrameCall) → Decidable (s.FreesHeld c)
  | .alloc => .isTrue trivial
  | .free addr => inferInstanceAs (Decidable (s.pmm.Frees addr → addr ∈ s.held))

/-- The frames of the usable ranges, above the first MiB and the kernel, meet no range of another type. -/
def Clean (entries : List E820Entry) (kernelEndSym : Word) : Prop :=
  ∀ f, f < 32768 → (∃ e ∈ entries, e.Covers f) → ¬ Pmm.Low (Pmm.alignUpPage kernelEndSym) f →
    ∀ e ∈ entries, e.type ≠ 1#32 → ¬ e.Meets (f * 4096)

/-- The page at `a` is RAM that nobody uses. -/
structure FreeRam (entries : List E820Entry) (kernelEndSym : Word) (held : List Word) (a : Word) :
    Prop where
  aligned : a.toNat % 4096 = 0
  above_low : 0x00100000 ≤ a.toNat
  above_kernel : (kernelEndSym.toNat + 4095) / 4096 * 4096 ≤ a.toNat
  usable : ∃ e ∈ entries, e.type = 1#32 ∧ e.Holds a.toNat
  no_other : ∀ e ∈ entries, e.type ≠ 1#32 → ¬ e.Meets a.toNat
  not_held : a ∉ held

/-- The next frame is RAM that nobody uses, and the count of free frames is right. -/
def Sound (entries : List E820Entry) (kernelEndSym : Word) (s : Frames) : Prop :=
  (s.pmm.pmmAllocFrame.1 ≠ 0#32 → FreeRam entries kernelEndSym s.held s.pmm.pmmAllocFrame.1) ∧
    s.pmm.pmmFreeFrames.toNat = s.pmm.allocatable

theorem next_lent {p₀ : Pmm} (h₀ : p₀.Ready) (s : Frames) (c : FrameCall)
    (h : Pmm.Lent p₀ s.pmm s.held) (hc : s.FreesHeld c) :
    Pmm.Lent p₀ (s.next c).pmm (s.next c).held := by
  cases c with
  | alloc =>
    rcases h.alloc h₀ with ⟨he, _⟩ | ⟨f, _, _, he, hne, _, hl⟩
    · simpa [next, he] using h
    · simpa [next, he, hne] using hl
  | free addr =>
    simp only [next]
    rw [← h.nodup.erase_eq_filter]
    rcases Pmm.pmmFreeFrame_eq s.pmm addr with ⟨hf, _⟩ | ⟨hf, he⟩
    · exact h.free h₀ (hc hf)
    · -- An address that the checks turn away is not that of a frame in use.
      have hout : addr ∉ s.held := fun ha => hf (h.frees h₀ ha)
      rw [he, List.erase_of_not_mem hout]
      exact h

theorem reach_lent {entries : List E820Entry} {kernelEndSym : Word} {s : Frames}
    (h : calls.Reach FreesHeld (boot entries kernelEndSym) s) :
    Pmm.Lent (Pmm.pmmInit entries kernelEndSym) s.pmm s.held := by
  have h₀ := Pmm.pmmInit_ready entries kernelEndSym
  apply h.invariant (I := fun s => Pmm.Lent (Pmm.pmmInit entries kernelEndSym) s.pmm s.held)
  · exact h₀.lent
  · intro s c hl _ hc
    exact next_lent h₀ s c hl hc

theorem reach_sound {entries : List E820Entry} {kernelEndSym : Word} (hlen : entries.length ≤ 128)
    (hend : kernelEndSym.toNat ≤ 0xFFFFF000) (hclean : Clean entries kernelEndSym) {s : Frames}
    (h : calls.Reach FreesHeld (boot entries kernelEndSym) s) : s.Sound entries kernelEndSym := by
  have h₀ := Pmm.pmmInit_ready entries kernelEndSym
  have hl := reach_lent h
  refine ⟨fun hne => ?_, hl.freeFrames h₀⟩
  rcases hl.alloc h₀ with ⟨he, _⟩ | ⟨f, hf, hfree, he, _, hout, _⟩
  · rw [he] at hne
    exact absurd rfl hne
  · have hlt : f < 32768 := Nat.lt_of_lt_of_le hf h₀.bounded
    obtain ⟨⟨e, hmem, hcov⟩, hlow⟩ := (Pmm.pmmInit_clear entries kernelEndSym hlt).mp hfree
    rw [List.take_of_length_le hlen] at hmem
    have hno := hclean f hlt ⟨e, hmem, hcov⟩ hlow
    have hnat := Pmm.frameAddr_toNat hlt
    simp only [Pmm.Low, Pmm.alignUpPage_toNat (show kernelEndSym.toNat + 4095 < 2 ^ 32 by omega),
      not_or, Nat.not_lt] at hlow
    rw [he]
    constructor
    · omega
    · omega
    · omega
    · rw [hnat]
      exact ⟨e, hmem, hcov.1, hcov.holds⟩
    · rw [hnat]
      exact hno
    · exact hout

/-- A usable range and a reserved one side by side. -/
def sideBySide : List E820Entry :=
  [⟨0x00100000#64, 0x2000#64, 1#32⟩, ⟨0x00102000#64, 0x1000#64, 2#32⟩]

theorem sideBySide_clean : Clean sideBySide 0x00010000#32 := by
  rintro f _ ⟨e, he, hcov⟩ _ e' he' ht ⟨x, _, _, _, _⟩
  simp only [sideBySide, List.mem_cons, List.not_mem_nil, or_false] at he he'
  obtain rfl | rfl := he
  · obtain rfl | rfl := he'
    · exact ht rfl
    · obtain ⟨_, hlo, hhi⟩ := hcov
      simp at *
      omega
  · exact absurd hcov.1 (by decide)

theorem sideBySide_sound :
    ∃ s, calls.Reach FreesHeld (boot sideBySide 0x00010000#32) s ∧ s.held = [0x00100000#32] ∧
      s.pmm.pmmAllocFrame.1 = 0x00101000#32 ∧ s.Sound sideBySide 0x00010000#32 := by
  have hrun : calls.Accepts FreesHeld (boot sideBySide 0x00010000#32)
      [.alloc, .alloc, .free 0x00101000#32, .free 0x00102000#32] := by
    refine ⟨trivial, ?_, trivial, ?_, trivial, ?_, trivial, ?_, trivial⟩ <;> decide +kernel
  have hreach := Machine.Reach.start.accepts hrun
  refine ⟨_, hreach, ?_, ?_, reach_sound (by decide) (by decide) sideBySide_clean hreach⟩
  · decide +kernel
  · decide +kernel

/-- Two usable ranges with a hole between them. -/
def holed : List E820Entry :=
  [⟨0x00100000#64, 0x1000#64, 1#32⟩, ⟨0x00103000#64, 0x1000#64, 1#32⟩]

/-- A frame of the hole is given back, and the allocator hands it out. -/
theorem hole_handed_out :
    ∃ s, calls.Reach (fun _ _ => True) (boot holed 0x00010000#32) s ∧
      s.pmm.pmmAllocFrame.1 = 0x00101000#32 ∧ ¬ s.Sound holed 0x00010000#32 := by
  have hrun : calls.Accepts (fun _ _ => True) (boot holed 0x00010000#32)
      [.free 0x00101000#32, .alloc] := ⟨trivial, trivial, trivial, trivial, trivial⟩
  have hnext : (calls.after (boot holed 0x00010000#32)
      [.free 0x00101000#32, .alloc]).pmm.pmmAllocFrame.1 = 0x00101000#32 := by decide +kernel
  refine ⟨_, Machine.Reach.start.accepts hrun, hnext, fun hs => ?_⟩
  obtain ⟨e, he, _, hlo, hhi⟩ := (hs.1 (by rw [hnext]; decide)).usable
  rw [hnext] at hlo hhi
  simp only [holed, List.mem_cons, List.not_mem_nil, or_false] at he
  obtain rfl | rfl := he
  · simp at hhi
  · simp at hlo

end Frames

end SengOS
