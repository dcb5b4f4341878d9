import SengOS.Lib.Bytes

/-!
# Physical frames

`pmm.c`: one bit for each 4 KiB frame below 128 MiB, set while the frame is in
use. `pmmInit` clears the bits of the usable ranges of the E820 table and takes
low memory and the kernel's own pages back.
-/

namespace SengOS

structure E820Entry where
  base : BitVec 64
  length : BitVec 64
  type : Word

structure Pmm where
  frameBitmap : Buf 4096
  frameCount : Nat
  totalFramesCount : Nat
  usedFramesCount : Nat
  reservedEnd : Word

namespace Pmm

def alignUpPage (value : Word) : Word := (value + 4095#32) &&& ~~~4095#32

def bitTest (p : Pmm) (frame : Nat) : Bool := p.frameBitmap.bit frame

/-- The inner loop of `pmm_init`: it frees one frame and counts it if it was not free yet. -/
def release (acc : Buf 4096 × Nat) (f : Nat) : Buf 4096 × Nat :=
  if acc.1.bit f then (acc.1.setBit f false, acc.2 + 1) else acc

structure Scan where
  bitmap : Buf 4096
  maxEnd : Word
  usable : Nat

/-- One turn of the loop of `pmm_init` over the E820 table. -/
def scanEntry (acc : Scan) (e : E820Entry) : Scan :=
  let end64 := e.base + e.length
  if e.type ≠ 1#32 ∨ e.length = 0#64 ∨ 0x08000000#64 ≤ e.base then acc
  else
    let end64 := if 0x08000000#64 < end64 then 0x08000000#64 else end64
    let start32 := e.base.setWidth 32
    let end32 := end64.setWidth 32
    if end32 ≤ start32 then acc
    else
      let maxEnd := if acc.maxEnd < end32 then end32 else acc.maxEnd
      let first := (alignUpPage start32).toNat / 4096
      let last := (end32 &&& ~~~4095#32).toNat / 4096
      let freed := (List.range' first (last - first)).foldl release (acc.bitmap, acc.usable)
      ⟨freed.1, maxEnd, freed.2⟩

/-- The last loop of `pmm_init`: low memory and the kernel's pages are in use. -/
def reserve (kernelEnd : Word) (acc : Buf 4096 × Nat) (i : Nat) : Buf 4096 × Nat :=
  let addr := i * 4096
  if !acc.1.bit i && (addr < kernelEnd.toNat || addr < 0x00100000) then
    (acc.1.setBit i true, acc.2 + 1)
  else acc

/-- `pmm_init` with the E820 table at its fixed address and the linker's `_kernel_end`. -/
def pmmInit (entries : List E820Entry) (kernelEndSym : Word) : Pmm :=
  let kernelEnd := alignUpPage kernelEndSym
  let scan := (entries.take 128).foldl scanEntry ⟨fun _ => 0xFF#8, 0#32, 0⟩
  let frameCount := scan.maxEnd.toNat / 4096
  let reserved := (List.range frameCount).foldl (reserve kernelEnd) (scan.bitmap, 0)
  ⟨reserved.1, frameCount, scan.usable, reserved.2, kernelEnd⟩

/-- `pmm_alloc_frame`: the address of the first free frame, 0 if there is none. -/
def pmmAllocFrame (p : Pmm) : Word × Pmm :=
  match (List.range p.frameCount).find? (fun i => !p.bitTest i) with
  | some i => (BitVec.ofNat 32 (i * 4096),
      { p with frameBitmap := p.frameBitmap.setBit i true, usedFramesCount := p.usedFramesCount + 1 })
  | none => (0#32, p)

/-- `pmm_free_frame`. -/
def pmmFreeFrame (p : Pmm) (addr : Word) : Pmm :=
  let frame := addr.toNat / 4096
  if p.frameCount ≤ frame ∨ addr.toNat % 4096 ≠ 0 then p
  else if addr < p.reservedEnd ∨ addr < 0x00100000#32 then p
  else if !p.bitTest frame then p
  else
    { p with
      frameBitmap := p.frameBitmap.setBit frame false
      usedFramesCount := p.usedFramesCount - 1 }

/-! ## What the frames in use promise -/

/-- Frame 0 is never free, so that the address 0 means failure only. -/
structure Ok (p : Pmm) : Prop where
  bounded : p.frameCount ≤ 32768
  zero_used : 0 < p.frameCount → p.bitTest 0 = true

/-- The end of a range is cut at 128 MiB before it is narrowed to 32 bits. -/
theorem clamped_end_le (end64 : BitVec 64) :
    (if 0x08000000#64 < end64 then 0x08000000#64 else end64).setWidth 32 ≤ 0x08000000#32 := by
  split <;> rename_i hlt
  · decide
  · rw [BitVec.le_def, BitVec.toNat_setWidth]
    have := BitVec.le_def.mp (BitVec.not_lt.mp hlt)
    simp only [BitVec.toNat_ofNat] at this ⊢
    omega

theorem scanEntry_maxEnd (acc : Scan) (e : E820Entry) (h : acc.maxEnd ≤ 0x08000000#32) :
    (scanEntry acc e).maxEnd ≤ 0x08000000#32 := by
  have hend := clamped_end_le (e.base + e.length)
  unfold scanEntry
  dsimp only
  generalize BitVec.setWidth 32 (if _ < e.base + e.length then _ else _) = end32 at hend ⊢
  split
  · exact h
  · split
    · exact h
    · dsimp only
      split
      · exact hend
      · exact h

theorem scan_maxEnd (entries : List E820Entry) (acc : Scan) (h : acc.maxEnd ≤ 0x08000000#32) :
    (entries.foldl scanEntry acc).maxEnd ≤ 0x08000000#32 := by
  induction entries generalizing acc with
  | nil => exact h
  | cons e entries ih => exact ih _ (scanEntry_maxEnd acc e h)

/-- A frame that the last loop of `pmm_init` has passed stays in use. -/
theorem reserve_bit {kernelEnd : Word} {acc : Buf 4096 × Nat} {i j : Nat} (hi : i / 8 < 4096)
    (h : acc.1.bit j = true) : (reserve kernelEnd acc i).1.bit j = true := by
  unfold reserve
  dsimp only
  split
  · rw [Buf.bit_setBit _ _ _ _ hi]
    split
    · rfl
    · exact h
  · exact h

theorem reserve_bit_low {kernelEnd : Word} {acc : Buf 4096 × Nat} :
    (reserve kernelEnd acc 0).1.bit 0 = true := by
  unfold reserve
  cases hb : acc.1.bit 0 with
  | true => simp [hb]
  | false => simp [Buf.bit_setBit]

theorem pmmInit_ok (entries : List E820Entry) (kernelEndSym : Word) :
    (pmmInit entries kernelEndSym).Ok := by
  have hmax := scan_maxEnd (entries.take 128) ⟨fun _ => 0xFF#8, 0#32, 0⟩ (by decide)
  have hbound : (pmmInit entries kernelEndSym).frameCount ≤ 32768 := by
    have := BitVec.le_def.mp hmax
    simp only [BitVec.toNat_ofNat] at this
    simp only [pmmInit]
    omega
  refine ⟨hbound, fun hpos => ?_⟩
  obtain ⟨n, hn⟩ : ∃ n, (pmmInit entries kernelEndSym).frameCount = n + 1 :=
    ⟨_, (Nat.succ_pred_eq_of_pos hpos).symm⟩
  rw [hn] at hbound
  simp only [pmmInit] at hn
  simp only [pmmInit, bitTest, hn]
  -- The first turn of the loop reserves frame 0, the later ones keep it.
  rw [List.range_succ_eq_map, List.foldl_cons, List.foldl_map]
  generalize hacc : reserve (alignUpPage kernelEndSym) _ 0 = acc
  have hacc0 : acc.1.bit 0 = true := by rw [← hacc]; exact reserve_bit_low
  have keeps : ∀ (is : List Nat) (acc : Buf 4096 × Nat), (∀ i ∈ is, (i + 1) / 8 < 4096) →
      acc.1.bit 0 = true →
      (is.foldl (fun x y => reserve (alignUpPage kernelEndSym) x (Nat.succ y)) acc).1.bit 0
        = true := by
    intro is
    induction is with
    | nil => exact fun _ _ h => h
    | cons i is ih =>
      intro acc his h
      exact ih _ (fun j hj => his j (List.mem_cons_of_mem _ hj))
        (reserve_bit (his i List.mem_cons_self) h)
  refine keeps _ _ (fun i hi => ?_) hacc0
  have := List.mem_range.mp hi
  omega

/-- The outcomes of an allocation: a free frame below the limit, or nothing at all. -/
theorem pmmAllocFrame_cases {p : Pmm} (h : p.Ok) :
    (p.pmmAllocFrame = (0#32, p)) ∨
      ∃ i, 0 < i ∧ i < p.frameCount ∧ p.bitTest i = false ∧
        p.pmmAllocFrame = (BitVec.ofNat 32 (i * 4096),
          { p with
            frameBitmap := p.frameBitmap.setBit i true
            usedFramesCount := p.usedFramesCount + 1 }) := by
  unfold pmmAllocFrame
  cases hf : (List.range p.frameCount).find? (fun i => !p.bitTest i) with
  | none => exact .inl rfl
  | some i =>
    have hi := List.mem_range.mp (List.mem_of_find?_eq_some hf)
    have hb : p.bitTest i = false := by simpa using List.find?_some hf
    refine .inr ⟨i, ?_, hi, hb, rfl⟩
    rcases Nat.eq_zero_or_pos i with rfl | hpos
    · rw [h.zero_used hi] at hb
      cases hb
    · exact hpos

theorem pmmAllocFrame_ok {p : Pmm} (h : p.Ok) : p.pmmAllocFrame.2.Ok := by
  rcases pmmAllocFrame_cases h with he | ⟨i, _, hi, _, he⟩
  · rw [he]; exact h
  · rw [he]
    have hb := h.bounded
    refine ⟨hb, fun hpos => ?_⟩
    simp only [bitTest]
    rw [Buf.bit_setBit _ _ _ _ (by omega)]
    split
    · rfl
    · exact h.zero_used hpos

theorem pmmFreeFrame_ok {p : Pmm} (h : p.Ok) (addr : Word) : (p.pmmFreeFrame addr).Ok := by
  unfold pmmFreeFrame
  dsimp only
  split
  · exact h
  · split
    · exact h
    · split
      · exact h
      · rename_i hf hlow _
        have hlow := BitVec.le_def.mp (BitVec.not_lt.mp (not_or.mp hlow).2)
        have hb := h.bounded
        simp only [not_or, Nat.not_le, BitVec.toNat_ofNat] at hf hlow
        refine ⟨hb, fun hpos => ?_⟩
        simp only [bitTest]
        rw [Buf.bit_setBit _ _ _ _ (by omega), if_neg (by omega)]
        exact h.zero_used hpos

/-- A non-zero address is a page whose end does not wrap. -/
theorem pmmAllocFrame_range {p : Pmm} (h : p.Ok) (hne : p.pmmAllocFrame.1 ≠ 0#32) :
    p.pmmAllocFrame.1.toNat + 4096 < 2 ^ 32 := by
  rcases pmmAllocFrame_cases h with he | ⟨i, _, hi, _, he⟩
  · rw [he] at hne
    exact absurd rfl hne
  · have hb := h.bounded
    rw [he]
    simp only [BitVec.toNat_ofNat]
    omega

/-- An allocation that fails changes nothing. -/
theorem pmmAllocFrame_failed {p : Pmm} (h : p.Ok) (hz : p.pmmAllocFrame.1 = 0#32) :
    p.pmmAllocFrame.2 = p := by
  rcases pmmAllocFrame_cases h with he | ⟨i, hpos, hi, _, he⟩
  · rw [he]
  · have hb := h.bounded
    rw [he] at hz
    have := congrArg BitVec.toNat hz
    simp only [BitVec.toNat_ofNat] at this
    omega

end Pmm

end SengOS
