import SengOS.Kernel.Frames
import SengOS.Lib.Buddies

/-!
# The buddy allocator

`buddy.c`: a pool of 256 frames, taken from the frame allocator in one piece,
is cut in halves on demand. The table of blocks only ever grows: an allocated
or merged block leaves its entry behind, and after 1024 entries a half that is
cut off or a block that is given back is lost.
-/

namespace SengOS

structure BuddyBlock where
  addr : Word
  order : Nat
  free : Bool
  deriving DecidableEq

/-- The blocks in the order of the table: `block_count` of them. -/
structure Buddy where
  blocks : List BuddyBlock
  poolBase : Word
  initialized : Bool
  deriving DecidableEq

namespace Buddy

/-- `block_size`. -/
def blockSize (order : Nat) : Word := 4096#32 <<< order

/-- `BUDDY_POOL_SIZE`. -/
def poolSize : Word := 0x00100000#32

/-- `find_free_block`. -/
def findFreeBlock (bs : List BuddyBlock) (addr : Word) (order : Nat) : Option Nat :=
  bs.findIdx? fun b => b.free && b.addr == addr && b.order == order

/-- `add_block`: nothing when the table is full. -/
def addBlock (bs : List BuddyBlock) (addr : Word) (order : Nat) : Option (List BuddyBlock) :=
  if 1024 ≤ bs.length then none else some (bs ++ [⟨addr, order, true⟩])

def blockAt (bs : List BuddyBlock) (i : Nat) : BuddyBlock := bs.getD i ⟨0#32, 0, false⟩

/-- `blocks[i].free = 0`. -/
def take (bs : List BuddyBlock) (i : Nat) : List BuddyBlock := bs.modify i ({ · with free := false })

/-- The loop of `find_contiguous_pool`: `n` more frames, from the `i`th on. A
frame that does not follow the last one gives all of them back. -/
def takeRun (first : Word) : Nat → Nat → Pmm → Bool × Pmm
  | _, 0, p => (true, p)
  | i, n + 1, p =>
    let (addr, p) := p.pmmAllocFrame
    if addr ≠ first + BitVec.ofNat 32 i * 4096#32 then
      let p := p.pmmFreeFrame first
      let p := (List.range' 1 (i - 1)).foldl
        (fun p j => p.pmmFreeFrame (first + BitVec.ofNat 32 j * 4096#32)) p
      (false, if addr ≠ 0#32 then p.pmmFreeFrame addr else p)
    else takeRun first (i + 1) n p

/-- `find_contiguous_pool`. -/
def findContiguousPool (p : Pmm) : Word × Pmm :=
  let (first, p) := p.pmmAllocFrame
  if first = 0#32 then (0#32, p)
  else
    let (ok, p) := takeRun first 1 255 p
    (if ok then first else 0#32, p)

/-- `buddy_init`. -/
def buddyInit (p : Pmm) : Buddy × Pmm :=
  let (poolBase, p) := findContiguousPool p
  if poolBase = 0#32 then (⟨[], 0#32, false⟩, p)
  else (⟨(addBlock [] poolBase 8).getD [], poolBase, true⟩, p)

/-- The loop of `buddy_alloc`: block `i` is cut in halves down to `order`. Each
turn lowers its order, so that the order it starts with bounds the turns. -/
def splitLoop (order i : Nat) : Nat → List BuddyBlock → Bool × List BuddyBlock
  | 0, bs => (true, bs)
  | n + 1, bs =>
    let b := blockAt bs i
    if order < b.order then
      let secondAddr := b.addr + blockSize (b.order - 1)
      let bs := bs.modify i ({ · with order := b.order - 1 })
      match addBlock bs secondAddr (b.order - 1) with
      | none => (false, bs)
      | some bs => splitLoop order i n bs
    else (true, bs)

/-- `buddy_alloc`: the address, 0 for a failure. -/
def buddyAlloc (b : Buddy) (order : Nat) : Word × Buddy :=
  if !b.initialized || 8 < order then (0#32, b)
  else
    match b.blocks.findIdx? (fun e => e.free && order ≤ e.order) with
    | none => (0#32, b)
    | some i =>
      let (ok, bs) := splitLoop order i (blockAt b.blocks i).order b.blocks
      if ok then ((blockAt bs i).addr, { b with blocks := take bs i })
      else (0#32, { b with blocks := bs })

/-- The loop of `buddy_free`: a block grows while its partner is free. -/
def mergeLoop (poolBase : Word) : Nat → List BuddyBlock → Word → Nat → List BuddyBlock × Word × Nat
  | 0, bs, addr, order => (bs, addr, order)
  | n + 1, bs, addr, order =>
    if order < 8 then
      let buddyAddr := addr ^^^ blockSize order
      if buddyAddr < poolBase ∨ poolBase + poolSize ≤ buddyAddr then (bs, addr, order)
      else
        match findFreeBlock bs buddyAddr order with
        | none => (bs, addr, order)
        | some index =>
          mergeLoop poolBase n (take bs index) (if buddyAddr < addr then buddyAddr else addr)
            (order + 1)
    else (bs, addr, order)

/-- `buddy_free`. -/
def buddyFree (b : Buddy) (addr : Word) (order : Nat) : Buddy :=
  if !b.initialized ∨ addr < b.poolBase ∨ b.poolBase + poolSize ≤ addr ∨ 8 < order then b
  else
    let (bs, addr, order) := mergeLoop b.poolBase 8 b.blocks addr order
    { b with blocks := (addBlock bs addr order).getD bs }

/-! ## The blocks as pieces of the pool -/

def extent (addr : Word) (order : Nat) : Extent := ⟨addr.toNat, 4096 * 2 ^ order⟩

/-- The entries with `free = 1`. -/
def freeExtents (bs : List BuddyBlock) : List Extent :=
  (bs.filter (·.free)).map fun b => extent b.addr b.order

theorem freeExtents_append (bs cs : List BuddyBlock) :
    freeExtents (bs ++ cs) = freeExtents bs ++ freeExtents cs := by
  simp [freeExtents]

theorem blockAt_modify {bs : List BuddyBlock} {i : Nat} (hi : i < bs.length) (f : BuddyBlock → BuddyBlock) :
    blockAt (bs.modify i f) i = f (blockAt bs i) := by
  simp [blockAt, List.getD_eq_getElem?_getD, hi]

/-- A free block and the other free ones, whatever its entry becomes. -/
theorem blockAt_append {bs : List BuddyBlock} {i : Nat} (hi : i < bs.length) (b : BuddyBlock) :
    blockAt (bs ++ [b]) i = blockAt bs i := by
  simp [blockAt, List.getD_eq_getElem?_getD, List.getElem?_append_left hi]

theorem freeExtents_modify {bs : List BuddyBlock} {i : Nat} (hi : i < bs.length)
    (hfree : (blockAt bs i).free = true) (f : BuddyBlock → BuddyBlock) :
    ∃ rest, (freeExtents bs).Perm (extent (blockAt bs i).addr (blockAt bs i).order :: rest) ∧
      (freeExtents (bs.modify i f)).Perm (freeExtents [f (blockAt bs i)] ++ rest) := by
  induction bs generalizing i with
  | nil => exact absurd hi (Nat.not_lt_zero i)
  | cons b bs ih =>
    cases i with
    | zero =>
      have hb : b.free = true := hfree
      refine ⟨freeExtents bs, ?_, ?_⟩
      · simp [freeExtents, blockAt, hb]
      · rw [List.modify_zero_cons, ← freeExtents_append]
        exact List.Perm.refl _
    | succ i =>
      obtain ⟨rest, hp, hq⟩ := ih (Nat.lt_of_succ_lt_succ hi) hfree
      refine ⟨freeExtents [b] ++ rest, ?_, ?_⟩
      · rw [show b :: bs = [b] ++ bs from rfl, freeExtents_append]
        exact (hp.append_left _).trans List.perm_middle
      · rw [List.modify_succ_cons, show b :: bs.modify i f = [b] ++ bs.modify i f from rfl,
          freeExtents_append]
        refine (hq.append_left _).trans ?_
        rw [← List.append_assoc, ← List.append_assoc]
        exact List.perm_append_comm.append_right rest

theorem freeExtents_take {bs : List BuddyBlock} {i : Nat} (hi : i < bs.length)
    (hfree : (blockAt bs i).free = true) :
    (freeExtents bs).Perm
      (extent (blockAt bs i).addr (blockAt bs i).order :: freeExtents (take bs i)) := by
  obtain ⟨rest, hp, hq⟩ := freeExtents_modify hi hfree ({ · with free := false })
  exact hp.trans (hq.symm.cons _)

theorem size_eq (order : Nat) : 4096 * 2 ^ order = 2 ^ (12 + order) := by rw [Nat.pow_add]

theorem blockSize_toNat {order : Nat} (h : order ≤ 8) : (blockSize order).toNat = 4096 * 2 ^ order := by
  have hpow : 2 ^ order ≤ 2 ^ 8 := Nat.pow_le_pow_right (by decide) h
  rw [blockSize, BitVec.toNat_shiftLeft, BitVec.toNat_ofNat, Nat.shiftLeft_eq]
  omega

theorem extent_double (addr : Word) (k : Nat) :
    extent addr (k + 1) = ⟨addr.toNat, 4096 * 2 ^ k + 4096 * 2 ^ k⟩ := by
  have hpow : 4096 * 2 ^ (k + 1) = 4096 * 2 ^ k + 4096 * 2 ^ k := by
    rw [Nat.pow_succ]
    omega
  rw [extent, hpow]

theorem extent_upper {addr : Word} {k : Nat} (hk : k < 8)
    (hfit : addr.toNat + 4096 * 2 ^ (k + 1) ≤ 2 ^ 32) :
    extent (addr + blockSize k) k = ⟨addr.toNat + 4096 * 2 ^ k, 4096 * 2 ^ k⟩ := by
  have hpos := Nat.two_pow_pos k
  rw [Nat.pow_succ] at hfit
  rw [extent, BitVec.toNat_add, blockSize_toNat (by omega), Nat.mod_eq_of_lt (by omega)]

theorem extent_halves {addr : Word} {order : Nat} (hpos : 0 < order) (hle : order ≤ 8)
    (hfit : addr.toNat + 4096 * 2 ^ order ≤ 2 ^ 32) :
    Extent.Recut [extent addr order]
      [extent (addr + blockSize (order - 1)) (order - 1), extent addr (order - 1)] := by
  obtain ⟨k, rfl⟩ : ∃ k, order = k + 1 := ⟨order - 1, by omega⟩
  rw [Nat.add_sub_cancel, extent_upper (by omega) hfit, extent_double]
  exact (Extent.Recut.split _ _ _ []).trans (.perm (List.Perm.swap _ _ _))

/-- One turn of the split loop: the second half is cut off block `i`. -/
theorem recut_halve {bs : List BuddyBlock} {i : Nat} (hi : i < bs.length)
    (hfree : (blockAt bs i).free = true) (hpos : 0 < (blockAt bs i).order)
    (hle : (blockAt bs i).order ≤ 8)
    (hfit : (blockAt bs i).addr.toNat + 4096 * 2 ^ (blockAt bs i).order ≤ 2 ^ 32) :
    Extent.Recut (freeExtents bs)
      (extent ((blockAt bs i).addr + blockSize ((blockAt bs i).order - 1)) ((blockAt bs i).order - 1) ::
        freeExtents (bs.modify i ({ · with order := (blockAt bs i).order - 1 }))) := by
  obtain ⟨rest, hp, hq⟩ := freeExtents_modify hi hfree
    ({ · with order := (blockAt bs i).order - 1 })
  have hcut := (extent_halves hpos hle hfit).append rest
  have hone : freeExtents [{ blockAt bs i with order := (blockAt bs i).order - 1 }] =
      [extent (blockAt bs i).addr ((blockAt bs i).order - 1)] := by
    simp [freeExtents, hfree]
  rw [hone] at hq
  exact (Extent.Recut.perm hp).trans (hcut.trans (.perm (hq.symm.cons _)))

theorem splitLoop_spec (order i : Nat) (n : Nat) (bs : List BuddyBlock) (hi : i < bs.length)
    (hfree : (blockAt bs i).free = true) (hn : (blockAt bs i).order ≤ n)
    (horder : order ≤ (blockAt bs i).order) (hle : (blockAt bs i).order ≤ 8)
    (hfit : (blockAt bs i).addr.toNat + 4096 * 2 ^ (blockAt bs i).order ≤ 2 ^ 32) :
    i < (splitLoop order i n bs).2.length ∧
      (blockAt (splitLoop order i n bs).2 i).free = true ∧
      (((splitLoop order i n bs).1 = true ∧ (blockAt (splitLoop order i n bs).2 i).order = order ∧
          Extent.Recut (freeExtents bs) (freeExtents (splitLoop order i n bs).2)) ∨
        ((splitLoop order i n bs).1 = false ∧ 1024 < bs.length + ((blockAt bs i).order - order) ∧
          ∃ lost, Extent.Recut (freeExtents bs) (lost :: freeExtents (splitLoop order i n bs).2))) := by
  induction n generalizing bs with
  | zero => exact ⟨hi, hfree, .inl ⟨rfl, by simp only [splitLoop]; omega, .refl _⟩⟩
  | succ n ih =>
    simp only [splitLoop]
    by_cases hlt : order < (blockAt bs i).order
    · have hcut := recut_halve hi hfree (by omega) hle hfit
      have hat := blockAt_modify hi ({ · with order := (blockAt bs i).order - 1 })
      have hlen : (bs.modify i ({ · with order := (blockAt bs i).order - 1 })).length = bs.length :=
        List.length_modify ..
      generalize hbs₁ : bs.modify i ({ · with order := (blockAt bs i).order - 1 }) = bs₁
        at hcut hat hlen ⊢
      rw [if_pos hlt]
      by_cases hfull : 1024 ≤ bs₁.length
      · simp only [addBlock, if_pos hfull]
        refine ⟨by omega, by rw [hat]; exact hfree, .inr ⟨trivial, by omega, _, hcut⟩⟩
      · simp only [addBlock, if_neg hfull]
        generalize hnew : (⟨_, (blockAt bs i).order - 1, true⟩ : BuddyBlock) = new
        have hat₂ : blockAt (bs₁ ++ [new]) i = blockAt bs₁ i := blockAt_append (by omega) new
        have hpow : 2 ^ ((blockAt bs i).order - 1) ≤ 2 ^ (blockAt bs i).order :=
          Nat.pow_le_pow_right (by decide) (by omega)
        have hsplit : Extent.Recut (freeExtents bs) (freeExtents (bs₁ ++ [new])) := by
          refine hcut.trans (.perm ?_)
          rw [freeExtents_append, ← hnew]
          exact (List.perm_append_singleton _ _).symm
        obtain ⟨hlast, hfr, hout⟩ := ih (bs₁ ++ [new]) (by simp; omega) (by rw [hat₂, hat]; exact hfree)
          (by rw [hat₂, hat]; dsimp only; omega) (by rw [hat₂, hat]; dsimp only; omega)
          (by rw [hat₂, hat]; dsimp only; omega) (by rw [hat₂, hat]; dsimp only; omega)
        refine ⟨hlast, hfr, ?_⟩
        rcases hout with ⟨hok, ho, hr⟩ | ⟨hok, hmany, lost, hr⟩
        · exact .inl ⟨hok, ho, hsplit.trans hr⟩
        · refine .inr ⟨hok, ?_, lost, hsplit.trans hr⟩
          rw [hat₂, hat] at hmany
          simp only [List.length_append, List.length_singleton] at hmany
          omega
    · rw [if_neg hlt]
      exact ⟨hi, hfree, .inl ⟨rfl, by dsimp only; omega, .refl _⟩⟩

/-- A block and its partner make one block of the next order. -/
theorem recut_merge {addr : Word} {order : Nat} (h : order < 8) (rest : List Extent) :
    Extent.Recut (extent addr order :: extent (addr ^^^ blockSize order) order :: rest)
      (extent (if addr ^^^ blockSize order < addr then addr ^^^ blockSize order else addr)
        (order + 1) :: rest) := by
  have hsize := size_eq order
  have hxor : (addr ^^^ blockSize order).toNat = addr.toNat ^^^ 2 ^ (12 + order) := by
    rw [BitVec.toNat_xor, blockSize_toNat (by omega), hsize]
  have hpos := Nat.two_pow_pos order
  rcases Extent.xor_two_pow addr.toNat (12 + order) with ⟨-, hup⟩ | ⟨-, hge, hdown⟩
  · have hbuddy : (addr ^^^ blockSize order).toNat = addr.toNat + 4096 * 2 ^ order := by
      rw [hxor, hup, hsize]
    rw [if_neg (by rw [BitVec.lt_def]; omega)]
    rw [extent_double]
    simp only [extent, hbuddy]
    exact .join _ _ _ rest
  · have hbuddy : addr.toNat = (addr ^^^ blockSize order).toNat + 4096 * 2 ^ order := by
      rw [hxor, hdown, hsize]
      omega
    rw [if_pos (by rw [BitVec.lt_def]; omega)]
    generalize addr ^^^ blockSize order = buddyAddr at hbuddy ⊢
    rw [extent_double]
    simp only [extent, hbuddy]
    exact (Extent.Recut.perm (List.Perm.swap _ _ rest)).trans (.join _ _ _ rest)

theorem findFreeBlock_some {bs : List BuddyBlock} {addr : Word} {order i : Nat}
    (h : findFreeBlock bs addr order = some i) :
    i < bs.length ∧ (blockAt bs i).free = true ∧ (blockAt bs i).addr = addr ∧
      (blockAt bs i).order = order := by
  obtain ⟨hi, hp, _⟩ := List.findIdx?_eq_some_iff_getElem.mp h
  have hat : blockAt bs i = bs[i] := by simp [blockAt, List.getD_eq_getElem?_getD, hi]
  rw [hat]
  simpa [and_assoc] using And.intro hi hp

theorem mergeLoop_spec (poolBase : Word) (n : Nat) (bs : List BuddyBlock) (addr : Word) (order : Nat) :
    (mergeLoop poolBase n bs addr order).1.length = bs.length ∧
      Extent.Recut (extent addr order :: freeExtents bs)
        (extent (mergeLoop poolBase n bs addr order).2.1 (mergeLoop poolBase n bs addr order).2.2 ::
          freeExtents (mergeLoop poolBase n bs addr order).1) := by
  induction n generalizing bs addr order with
  | zero => exact ⟨rfl, .refl _⟩
  | succ n ih =>
    simp only [mergeLoop]
    split
    · rename_i hlt
      split
      · exact ⟨rfl, .refl _⟩
      · split
        · exact ⟨rfl, .refl _⟩
        · rename_i j hj
          obtain ⟨hi, hfree, haddr, horder⟩ := findFreeBlock_some hj
          have hp := freeExtents_take hi hfree
          rw [haddr, horder] at hp
          obtain ⟨hlen, hr⟩ := ih (take bs j)
            (if addr ^^^ blockSize order < addr then addr ^^^ blockSize order else addr) (order + 1)
          refine ⟨by rw [hlen]; exact List.length_modify .., ?_⟩
          exact (Extent.Recut.perm (hp.cons _)).trans ((recut_merge hlt _).trans hr)
    · exact ⟨rfl, .refl _⟩

/-- Block `i` is the first free one of the order or more. -/
structure Found (bs : List BuddyBlock) (order i : Nat) : Prop where
  first : bs.findIdx? (fun e => e.free && order ≤ e.order) = some i
  lt : i < bs.length
  free : (blockAt bs i).free = true
  large : order ≤ (blockAt bs i).order

theorem found {bs : List BuddyBlock} {order i : Nat}
    (h : bs.findIdx? (fun e => e.free && order ≤ e.order) = some i) : Found bs order i := by
  obtain ⟨hi, hp, _⟩ := List.findIdx?_eq_some_iff_getElem.mp h
  have hat : blockAt bs i = bs[i] := by simp [blockAt, List.getD_eq_getElem?_getD, hi]
  rw [← hat] at hp
  simp only [Bool.and_eq_true, decide_eq_true_eq] at hp
  exact ⟨h, hi, hp.1, hp.2⟩

/-- `buddy_alloc` refuses, or cuts the first block that is large enough. -/
theorem buddyAlloc_cases (b : Buddy) (order : Nat) :
    b.buddyAlloc order = (0#32, b) ∨
      ∃ i, Found b.blocks order i ∧ b.buddyAlloc order =
        (let r := splitLoop order i (blockAt b.blocks i).order b.blocks
        if r.1 then ((blockAt r.2 i).addr, { b with blocks := take r.2 i })
        else (0#32, { b with blocks := r.2 })) := by
  unfold buddyAlloc
  split
  · exact .inl rfl
  · cases hfind : b.blocks.findIdx? (fun e => e.free && order ≤ e.order) with
    | none => exact .inl rfl
    | some i => exact .inr ⟨i, found hfind, rfl⟩

end Buddy

/-! ## Runs of the allocator -/

/-- The allocator beside the blocks that are out, each with its own order. -/
structure Pool where
  buddy : Buddy
  out : List (Word × Nat)

inductive PoolCall
  | alloc (order : Nat)
  | free (addr : Word) (order : Nat)

namespace Pmm

/-- The free frames are those from `a` on below `b`. -/
structure Fresh (p : Pmm) (a b : Nat) : Prop where
  bounded : p.frameCount ≤ 32768
  below : b ≤ p.frameCount
  clear : ∀ f, f < 32768 → (p.bitTest f = false ↔ a ≤ f ∧ f < b)

theorem Fresh.alloc {p : Pmm} {a b : Nat} (h : p.Fresh a b) (hab : a < b) :
    p.pmmAllocFrame.1 = frameAddr a ∧ p.pmmAllocFrame.2.Fresh (a + 1) b := by
  have hbound := h.bounded
  have hbelow := h.below
  have hfind : (List.range p.frameCount).find? (fun i => !p.bitTest i) = some a := by
    rw [List.find?_range_eq_some]
    refine ⟨?_, List.mem_range.mpr (by omega), fun j hj => ?_⟩
    · simp [(h.clear a (by omega)).mpr ⟨Nat.le_refl a, hab⟩]
    · cases hb : p.bitTest j with
      | true => rfl
      | false => exact absurd ((h.clear j (by omega)).mp hb).1 (by omega)
  rw [pmmAllocFrame, hfind]
  refine ⟨rfl, hbound, hbelow, fun f hf => ?_⟩
  have hbit := Buf.bit_setBit p.frameBitmap a f true (by omega)
  have hclear := h.clear f hf
  simp only [bitTest] at hclear ⊢
  rw [hbit]
  by_cases hfa : f = a
  · simp [hfa]
  · rw [if_neg hfa, hclear]
    omega

end Pmm

namespace Pool

open Buddy

def next (s : Pool) : PoolCall → Pool
  | .alloc order =>
    let (addr, buddy) := s.buddy.buddyAlloc order
    ⟨buddy, if addr = 0#32 then s.out else (addr, order) :: s.out⟩
  | .free addr order => ⟨s.buddy.buddyFree addr order, s.out.erase (addr, order)⟩

/-- What is given back is out, and goes back with its own order. -/
def Returns (s : Pool) : PoolCall → Prop
  | .alloc _ => True
  | .free addr order => (addr, order) ∈ s.out

def calls : Machine Pool PoolCall := ⟨Returns, next⟩

def boot (p : Pmm) : Pool := ⟨(buddyInit p).1, []⟩

def outExtents (out : List (Word × Nat)) : List Extent := out.map fun o => extent o.1 o.2

/-- The free blocks and those that are out. -/
def live (s : Pool) : List Extent := freeExtents s.buddy.blocks ++ outExtents s.out

structure Sound (base : Word) (s : Pool) : Prop where
  initialized : s.buddy.initialized = true
  poolBase : s.buddy.poolBase = base
  packed : Extent.Packed base.toNat (base.toNat + 0x00100000) s.live

/-- The table has room for the entries that the call adds. -/
def Room (s : Pool) : PoolCall → Prop
  | .alloc order =>
    ∀ i ∈ s.buddy.blocks.findIdx? (fun e => e.free && order ≤ e.order),
      s.buddy.blocks.length + ((blockAt s.buddy.blocks i).order - order) ≤ 1024
  | .free _ _ => s.buddy.blocks.length < 1024

instance (s : Pool) : (c : PoolCall) → Decidable (s.Returns c)
  | .alloc _ => .isTrue trivial
  | .free addr order => inferInstanceAs (Decidable ((addr, order) ∈ s.out))

instance (s : Pool) (c : PoolCall) : Decidable (calls.enabled s c) :=
  inferInstanceAs (Decidable (s.Returns c))

instance (s : Pool) : (c : PoolCall) → Decidable (s.Room c)
  | .alloc order =>
    inferInstanceAs (Decidable (∀ i ∈ s.buddy.blocks.findIdx? (fun e => e.free && order ≤ e.order),
      s.buddy.blocks.length + ((blockAt s.buddy.blocks i).order - order) ≤ 1024))
  | .free _ _ => inferInstanceAs (Decidable (s.buddy.blocks.length < 1024))

variable {base : Word} {s : Pool}

theorem order_le {order : Nat} (h : 4096 * 2 ^ order ≤ 0x00100000) : order ≤ 8 := by
  by_contra hlt
  have : 2 ^ 9 ≤ 2 ^ order := Nat.pow_le_pow_right (by decide) (by omega)
  omega

/-- A block that is free or out is not larger than the pool. -/
theorem Sound.order_le (h : Sound base s) {addr : Word} {order : Nat}
    (hmem : extent addr order ∈ s.live) : order ≤ 8 := by
  have hin := h.packed.inside _ hmem
  simp only [extent] at hin
  exact Pool.order_le (by omega)

theorem mem_freeExtents {bs : List BuddyBlock} {i : Nat} (hi : i < bs.length)
    (hfree : (blockAt bs i).free = true) :
    extent (blockAt bs i).addr (blockAt bs i).order ∈ freeExtents bs :=
  (freeExtents_take hi hfree).mem_iff.mpr List.mem_cons_self

/-- The outcomes of `buddy_alloc`: nothing, a block, or half a block lost with the table full. -/
theorem Sound.alloc_cases (hbase : 0 < base.toNat) (htop : base.toNat + 0x00100000 < 2 ^ 32)
    (h : Sound base s) (order : Nat) :
    s.buddy.buddyAlloc order = (0#32, s.buddy) ∨
      (∃ addr bs, s.buddy.buddyAlloc order = (addr, { s.buddy with blocks := bs }) ∧ addr ≠ 0#32 ∧
        Extent.Recut (freeExtents s.buddy.blocks) (extent addr order :: freeExtents bs)) ∨
      (∃ bs lost, s.buddy.buddyAlloc order = (0#32, { s.buddy with blocks := bs }) ∧
        Extent.Recut (freeExtents s.buddy.blocks) (lost :: freeExtents bs) ∧ ¬ s.Room (.alloc order)) := by
  rcases buddyAlloc_cases s.buddy order with hz | ⟨i, found, he⟩
  · exact .inl hz
  · right
    have hmem : extent _ _ ∈ s.live := List.mem_append_left _ (mem_freeExtents found.lt found.free)
    have hin := h.packed.inside _ hmem
    simp only [extent] at hin
    obtain ⟨hlast, hfree, hout⟩ := splitLoop_spec order i (blockAt s.buddy.blocks i).order
      s.buddy.blocks found.lt found.free (Nat.le_refl _) found.large (h.order_le hmem) (by omega)
    generalize splitLoop order i (blockAt s.buddy.blocks i).order s.buddy.blocks = r
      at he hlast hfree hout
    obtain ⟨ok, bs⟩ := r
    dsimp only at he hlast hfree hout
    rw [he]
    rcases hout with ⟨rfl, horder, hr⟩ | ⟨rfl, hmany, lost, hr⟩
    · left
      have hin' := ((hr.append _).packed h.packed).inside _
        (List.mem_append_left _ (mem_freeExtents hlast hfree))
      simp only [extent] at hin'
      refine ⟨_, _, if_pos rfl, ?_, ?_⟩
      · intro hz
        rw [hz] at hin'
        simp at hin'
        omega
      · have hp' := freeExtents_take hlast hfree
        rw [horder] at hp'
        exact hr.trans (.perm hp')
    · right
      exact ⟨bs, lost, rfl, hr, fun hroom => absurd (hroom i found.first) (by omega)⟩

theorem Sound.alloc (hbase : 0 < base.toNat) (htop : base.toNat + 0x00100000 < 2 ^ 32)
    (h : Sound base s) (order : Nat) :
    Sound base (s.next (.alloc order)) ∧
      (s.Room (.alloc order) → Extent.total (s.next (.alloc order)).live = Extent.total s.live) := by
  rcases h.alloc_cases hbase htop order with he | ⟨addr, bs, he, hne, hr⟩ | ⟨bs, lost, he, hr, hfull⟩
  · have hs : s.next (.alloc order) = s := by simp [next, he]
    rw [hs]
    exact ⟨h, fun _ => rfl⟩
  · have hs : s.next (.alloc order) = ⟨{ s.buddy with blocks := bs }, (addr, order) :: s.out⟩ := by
      simp [next, he, hne]
    rw [hs]
    have hlive : Extent.Recut s.live
        (live ⟨{ s.buddy with blocks := bs }, (addr, order) :: s.out⟩) :=
      (hr.append _).trans (.perm List.perm_middle.symm)
    exact ⟨⟨h.initialized, h.poolBase, hlive.packed h.packed⟩, fun _ => hlive.total_eq.symm⟩
  · have hs : s.next (.alloc order) = ⟨{ s.buddy with blocks := bs }, s.out⟩ := by
      simp [next, he]
    rw [hs]
    refine ⟨⟨h.initialized, h.poolBase, ?_⟩, fun hroom => absurd hroom hfull⟩
    exact ((hr.append _).packed h.packed).sublist (List.sublist_cons_self _ _)

/-- A block that is out passes the checks of `buddy_free`. -/
theorem Sound.free_eq (htop : base.toNat + 0x00100000 < 2 ^ 32) (h : Sound base s) {addr : Word}
    {order : Nat} (hmem : (addr, order) ∈ s.out) :
    s.next (.free addr order) =
      ⟨{ s.buddy with
          blocks :=
            let r := mergeLoop base 8 s.buddy.blocks addr order
            (addBlock r.1 r.2.1 r.2.2).getD r.1 },
        s.out.erase (addr, order)⟩ := by
  have hout : extent addr order ∈ s.live :=
    List.mem_append_right _ (List.mem_map.mpr ⟨(addr, order), hmem, rfl⟩)
  have horder := h.order_le hout
  have hin := h.packed.inside _ hout
  have hpos := Nat.two_pow_pos order
  simp only [extent] at hin
  have hend : (base + poolSize).toNat = base.toNat + 0x00100000 := by
    rw [BitVec.toNat_add, poolSize, BitVec.toNat_ofNat]
    omega
  have hpass : ¬ (!s.buddy.initialized ∨ addr < s.buddy.poolBase ∨
      s.buddy.poolBase + poolSize ≤ addr ∨ 8 < order) := by
    rw [h.initialized, h.poolBase, BitVec.lt_def, BitVec.le_def, hend]
    simp only [Bool.not_true, Bool.false_eq_true, false_or]
    omega
  simp only [next, buddyFree]
  rw [if_neg hpass, h.poolBase]

/-- A block that is out beside all the others. -/
theorem live_perm {addr : Word} {order : Nat} (hmem : (addr, order) ∈ s.out) :
    s.live.Perm ((extent addr order :: freeExtents s.buddy.blocks) ++
      outExtents (s.out.erase (addr, order))) := by
  have hperm := (List.perm_cons_erase hmem).map fun o => extent o.1 o.2
  exact (hperm.append_left _).trans List.perm_middle

theorem Sound.free (htop : base.toNat + 0x00100000 < 2 ^ 32) (h : Sound base s) {addr : Word}
    {order : Nat} (hmem : (addr, order) ∈ s.out) :
    Sound base (s.next (.free addr order)) ∧
      (s.Room (.free addr order) →
        Extent.total (s.next (.free addr order)).live = Extent.total s.live) := by
  have hlive := live_perm hmem
  obtain ⟨hlen, hr⟩ := mergeLoop_spec base 8 s.buddy.blocks addr order
  rw [h.free_eq htop hmem]
  generalize mergeLoop base 8 s.buddy.blocks addr order = r at hlen hr ⊢
  obtain ⟨bs, addr', order'⟩ := r
  dsimp only at hlen hr ⊢
  have hcut := (Extent.Recut.perm hlive).trans (hr.append _)
  by_cases hfull : 1024 ≤ bs.length
  · simp only [addBlock, if_pos hfull, Option.getD_none]
    refine ⟨⟨h.initialized, h.poolBase, ?_⟩, fun hroom => ?_⟩
    · exact (hcut.packed h.packed).sublist (List.sublist_cons_self _ _)
    · simp only [Room] at hroom
      omega
  · simp only [addBlock, if_neg hfull, Option.getD_some]
    have hadd : Extent.Recut s.live (live ⟨{ s.buddy with blocks := bs ++ [⟨addr', order', true⟩] },
        s.out.erase (addr, order)⟩) := by
      refine hcut.trans (.perm (List.Perm.append_right _ ?_))
      rw [freeExtents_append]
      exact (List.perm_append_singleton _ _).symm
    exact ⟨⟨h.initialized, h.poolBase, hadd.packed h.packed⟩, fun _ => hadd.total_eq.symm⟩

/-- What one call keeps. -/
theorem Sound.next (hbase : 0 < base.toNat) (htop : base.toNat + 0x00100000 < 2 ^ 32)
    (h : Sound base s) (c : PoolCall) (hc : s.Returns c) :
    Sound base (s.next c) ∧ (s.Room c → Extent.total (s.next c).live = Extent.total s.live) := by
  cases c with
  | alloc order => exact h.alloc hbase htop order
  | free addr order => exact h.free htop hc

/-- The pool that `buddy_init` obtains: page-aligned, and its end does not wrap. -/
theorem buddyInit_cases {p : Pmm} (hp : p.Ok) (hinit : (buddyInit p).1.initialized = true) :
    ∃ base : Word, 0 < base.toNat ∧ base.toNat % 4096 = 0 ∧ base.toNat + 0x00100000 < 2 ^ 32 ∧
      (buddyInit p).1 = ⟨[⟨base, 8, true⟩], base, true⟩ := by
  unfold buddyInit at hinit ⊢
  by_cases hz : (findContiguousPool p).1 = 0#32
  · simp [hz] at hinit
  · have hfirst : (findContiguousPool p).1 = p.pmmAllocFrame.1 := by
      unfold findContiguousPool at hz ⊢
      by_cases hf : p.pmmAllocFrame.1 = 0#32
      · simp [hf] at hz
      · simp only [hf, if_false] at hz ⊢
        split at hz
        · rename_i hok
          rw [if_pos hok]
        · exact absurd rfl hz
    simp only [hz, if_false]
    rcases Pmm.pmmAllocFrame_cases hp with he | ⟨i, hpos, hi, _, he⟩
    · rw [hfirst, he] at hz
      exact absurd rfl hz
    · have hbound := hp.bounded
      refine ⟨(findContiguousPool p).1, ?_, ?_, ?_, rfl⟩ <;>
        · rw [hfirst, he, BitVec.toNat_ofNat]
          omega

theorem Sound.start {p : Pmm} {base : Word} (he : (buddyInit p).1 = ⟨[⟨base, 8, true⟩], base, true⟩) :
    Sound base (boot p) ∧ Extent.total (boot p).live = 2 ^ 8 * 4096 := by
  have hb : boot p = ⟨⟨[⟨base, 8, true⟩], base, true⟩, []⟩ := by rw [boot, he]
  rw [hb]
  refine ⟨⟨rfl, rfl, ?_⟩, rfl⟩
  constructor
  · intro e hmem
    rw [List.mem_singleton.mp hmem]
    exact ⟨Nat.le_refl _, Nat.le_refl _⟩
  · exact List.pairwise_singleton _ _

theorem takeRun_fresh {a b : Nat} (n i : Nat) (p : Pmm) (h : p.Fresh (a + i) b)
    (hn : a + i + n ≤ b) : (takeRun (Pmm.frameAddr a) i n p).1 = true := by
  induction n generalizing i p with
  | zero => rfl
  | succ n ih =>
    obtain ⟨haddr, hnext⟩ := h.alloc (by omega)
    have hexpect := Pmm.frameAddr_add a i
    simp only [takeRun, haddr, hexpect, ne_eq, not_true_eq_false, if_false]
    exact ih (i + 1) _ hnext (by omega)

/-- 256 free frames in a row are a pool. -/
theorem buddyInit_fresh {p : Pmm} {a b : Nat} (h : p.Fresh a b) (ha : 0 < a) (hn : a + 256 ≤ b) :
    (buddyInit p).1 = ⟨[⟨Pmm.frameAddr a, 8, true⟩], Pmm.frameAddr a, true⟩ := by
  obtain ⟨haddr, hnext⟩ := h.alloc (by omega)
  have hne : Pmm.frameAddr a ≠ 0#32 := by
    intro hz
    have := congrArg BitVec.toNat hz
    have hbound := h.bounded
    have hbelow := h.below
    rw [Pmm.frameAddr_toNat (by omega)] at this
    simp only [BitVec.toNat_ofNat] at this
    omega
  have hrun := takeRun_fresh 255 1 _ hnext (by omega)
  simp only [buddyInit, findContiguousPool, haddr, hne, hrun, if_false, if_true]
  rfl

/-- The frame allocator as any run of its callers leaves it. -/
theorem frames_ok {entries : List E820Entry} {kernelEndSym : Word} {f : Frames}
    (h : Frames.calls.Reach (fun _ _ => True) (Frames.boot entries kernelEndSym) f) : f.pmm.Ok := by
  apply h.invariant (I := fun f => f.pmm.Ok)
  · exact Pmm.pmmInit_ok entries kernelEndSym
  · intro f c hok _ _
    cases c with
    | alloc => exact Pmm.pmmAllocFrame_ok hok
    | free addr => exact Pmm.pmmFreeFrame_ok hok addr

section Runs

variable {entries : List E820Entry} {kernelEndSym : Word} {f : Frames} {P : Pool → PoolCall → Prop}

theorem reach_inv (hf : Frames.calls.Reach (fun _ _ => True) (Frames.boot entries kernelEndSym) f)
    (hinit : (buddyInit f.pmm).1.initialized = true) (h : calls.Reach P (boot f.pmm) s) :
    Sound (buddyInit f.pmm).1.poolBase s := by
  obtain ⟨base, hpos, _, htop, he⟩ := buddyInit_cases (frames_ok hf) hinit
  rw [he]
  apply h.invariant (I := Sound base)
  · exact (Sound.start he).1
  · intro s c hs hc _
    exact (hs.next hpos htop c hc).1

/-- Blocks never overlap, for any base of the pool and however full the table is. -/
theorem reach_packed (hf : Frames.calls.Reach (fun _ _ => True) (Frames.boot entries kernelEndSym) f)
    (hinit : (buddyInit f.pmm).1.initialized = true)
    (h : calls.Reach (fun _ _ => True) (boot f.pmm) s) :
    Extent.Packed (buddyInit f.pmm).1.poolBase.toNat
      ((buddyInit f.pmm).1.poolBase.toNat + 0x00100000) s.live :=
  (reach_inv hf hinit h).packed

/-- The pool is all there, and an allocation that fails changes nothing. -/
theorem reach_conserved
    (hf : Frames.calls.Reach (fun _ _ => True) (Frames.boot entries kernelEndSym) f)
    (hinit : (buddyInit f.pmm).1.initialized = true) (h : calls.Reach Room (boot f.pmm) s) :
    Extent.total (freeExtents s.buddy.blocks) + Extent.total (outExtents s.out) = 2 ^ 8 * 4096 ∧
      ∀ order, s.Room (.alloc order) → (s.buddy.buddyAlloc order).1 = 0#32 →
        s.next (.alloc order) = s := by
  obtain ⟨base, hpos, _, htop, he⟩ := buddyInit_cases (frames_ok hf) hinit
  have hinv : Sound base s ∧ Extent.total s.live = 2 ^ 8 * 4096 := by
    apply h.invariant (I := fun s => Sound base s ∧ Extent.total s.live = 2 ^ 8 * 4096)
    · exact Sound.start he
    · rintro s c ⟨hs, htotal⟩ hc hroom
      obtain ⟨hs', hsame⟩ := hs.next hpos htop c hc
      exact ⟨hs', (hsame hroom).trans htotal⟩
  constructor
  · rw [← Extent.total_append]
    exact hinv.2
  · intro order hroom hzero
    rcases hinv.1.alloc_cases hpos htop order with ha | ⟨addr, bs, ha, hne, _⟩ | ⟨bs, lost, ha, _, hfull⟩
    · simp [Pool.next, ha]
    · rw [ha] at hzero
      exact absurd hzero hne
    · exact absurd hroom hfull

end Runs

/-- The map has one entry, above the kernel: its frames are free and no others. -/
theorem alone_fresh {e : E820Entry} {a b : Nat} (ha : 256 ≤ a)
    (hcount : (Pmm.pmmInit [e] 0x00010000#32).frameCount = b) (hb : b ≤ 32768)
    (hentry : ∀ f, e.Covers f ↔ a ≤ f ∧ f < b) : (Frames.boot [e] 0x00010000#32).pmm.Fresh a b := by
  have hlow : (Pmm.alignUpPage 0x00010000#32).toNat = 0x10000 := by decide
  have hcover (f : Nat) : (∃ e' ∈ [e].take 128, e'.Covers f) ↔ a ≤ f ∧ f < b := by
    rw [← hentry]
    simp
  constructor
  · rw [Frames.boot, hcount]
    exact hb
  · rw [Frames.boot, hcount]
  · intro f hf
    rw [Frames.boot, Pmm.pmmInit_clear _ _ hf, hcover]
    simp only [Pmm.Low, hlow]
    omega

/-- One megabyte of RAM, above the kernel and not aligned to its size. -/
def oneMegabyte : List E820Entry := [⟨0x00103000#64, 0x00100000#64, 1#32⟩]

theorem oneMegabyte_fresh : (Frames.boot oneMegabyte 0x00010000#32).pmm.Fresh 259 515 := by
  apply alone_fresh (by decide) (by decide +kernel) (by decide)
  intro f
  simp only [E820Entry.Covers]
  simp
  omega

theorem oneMegabyte_init : (buddyInit (Frames.boot oneMegabyte 0x00010000#32).pmm).1 =
    ⟨[⟨0x00103000#32, 8, true⟩], 0x00103000#32, true⟩ := by
  rw [buddyInit_fresh oneMegabyte_fresh (by decide) (by decide)]
  rfl

theorem oneMegabyte_pool : boot (Frames.boot oneMegabyte 0x00010000#32).pmm =
    ⟨⟨[⟨0x00103000#32, 8, true⟩], 0x00103000#32, true⟩, []⟩ := by
  rw [boot, oneMegabyte_init]

/-- Two blocks are cut off and one of them is given back. -/
def cutAndReturn : List PoolCall := [.alloc 0, .alloc 2, .free 0x00103000#32 0]

theorem oneMegabyte_packed :
    ∃ s, calls.Reach (fun _ _ => True) (boot (Frames.boot oneMegabyte 0x00010000#32).pmm) s ∧
      s.out = [(0x00183000#32, 2)] ∧ Extent.Packed 0x00103000 0x00203000 s.live := by
  have hpool := oneMegabyte_pool
  have hrun : calls.Accepts (fun _ _ => True) (boot (Frames.boot oneMegabyte 0x00010000#32).pmm)
      cutAndReturn := by
    rw [hpool]
    decide +kernel
  have hreach := Machine.Reach.start.accepts hrun
  have hpacked := reach_packed .start (by rw [oneMegabyte_init]) hreach
  rw [oneMegabyte_init] at hpacked
  refine ⟨_, hreach, ?_, hpacked⟩
  rw [hpool]
  decide +kernel

theorem oneMegabyte_conserved :
    ∃ s, calls.Reach Room (boot (Frames.boot oneMegabyte 0x00010000#32).pmm) s ∧
      s.out = [(0x00183000#32, 2)] ∧
      Extent.total (freeExtents s.buddy.blocks) + Extent.total (outExtents s.out) = 2 ^ 8 * 4096 := by
  have hpool := oneMegabyte_pool
  have hrun : calls.Accepts Room (boot (Frames.boot oneMegabyte 0x00010000#32).pmm)
      cutAndReturn := by
    rw [hpool]
    decide +kernel
  have hreach := Machine.Reach.start.accepts hrun
  refine ⟨_, hreach, ?_, (reach_conserved .start (by rw [oneMegabyte_init]) hreach).1⟩
  rw [hpool]
  decide +kernel

/-- A table of `n` entries of allocations that are over, and the whole pool free. -/
def worn (base : Word) (n : Nat) : Pool :=
  ⟨⟨List.replicate n ⟨base, 8, false⟩ ++ [⟨base, 8, true⟩], base, true⟩, []⟩

theorem findIdx?_worn (base : Word) (n order : Nat) (h : order ≤ 8) :
    (worn base n).buddy.blocks.findIdx? (fun e => e.free && order ≤ e.order) = some n := by
  simp only [worn]
  induction n with
  | zero => simp [List.findIdx?_cons, h]
  | succ n ih => simp [List.replicate_succ, List.findIdx?_cons, ih]

theorem blockAt_worn (base : Word) (n : Nat) :
    blockAt (worn base n).buddy.blocks n = ⟨base, 8, true⟩ := by
  simp [worn, blockAt, List.getD_eq_getElem?_getD]

theorem alloc_worn {base : Word} (hne : base ≠ 0#32) (n : Nat) :
    (worn base n).next (.alloc 8) =
      ⟨⟨List.replicate (n + 1) ⟨base, 8, false⟩, base, true⟩, [(base, 8)]⟩ := by
  have hfind := findIdx?_worn base n 8 (Nat.le_refl 8)
  have hat := blockAt_worn base n
  have hsplit : splitLoop 8 n 8 (worn base n).buddy.blocks = (true, (worn base n).buddy.blocks) := by
    simp [splitLoop, hat]
  have htake : take (worn base n).buddy.blocks n = List.replicate (n + 1) ⟨base, 8, false⟩ := by
    rw [List.replicate_succ', take, worn]
    simp [List.modify_eq_take_cons_drop]
  have halloc : (worn base n).buddy.buddyAlloc 8 =
      (base, { (worn base n).buddy with blocks := List.replicate (n + 1) ⟨base, 8, false⟩ }) := by
    simp only [buddyAlloc, hfind, hat, hsplit, htake, if_true]
    rfl
  simp only [next, halloc, hne, if_false]
  rfl

theorem free_worn {base : Word} (htop : base.toNat + 0x00100000 < 2 ^ 32) {n : Nat}
    (hn : n + 1 < 1024) :
    (Pool.next ⟨⟨List.replicate (n + 1) ⟨base, 8, false⟩, base, true⟩, [(base, 8)]⟩ (.free base 8)) =
      worn base (n + 1) := by
  have hend : ¬ base + poolSize ≤ base := by
    rw [BitVec.le_def, BitVec.toNat_add, poolSize, BitVec.toNat_ofNat]
    omega
  have hroom : ¬ 1024 ≤ n + 1 := by omega
  simp [next, buddyFree, mergeLoop, addBlock, hend, hroom, worn]

theorem reach_alloc {s₀ s : Pool} (h : calls.Reach (fun _ _ => True) s₀ s) (order : Nat) :
    calls.Reach (fun _ _ => True) s₀ (s.next (.alloc order)) := by
  have henabled : calls.enabled s (.alloc order) := trivial
  exact .step _ h henabled trivial

/-- The pool is allocated whole and given back: the table grows by one entry. -/
theorem reach_worn {base : Word} (hne : base ≠ 0#32) (htop : base.toNat + 0x00100000 < 2 ^ 32)
    (n : Nat) (hn : n < 1024) : calls.Reach (fun _ _ => True) (worn base 0) (worn base n) := by
  induction n with
  | zero => exact .start
  | succ n ih =>
    have halloc := reach_alloc (ih (by omega)) 8
    rw [alloc_worn hne n] at halloc
    have hfree := Machine.Reach.step (PoolCall.free base 8) halloc List.mem_cons_self trivial
    have hs' : calls.next _ (.free base 8) = _ := free_worn htop hn
    rwa [hs'] at hfree

/-- With the table full, cutting the pool in two loses one half. -/
theorem half_lost :
    ∃ s, calls.Reach (fun _ _ => True) (boot (Frames.boot oneMegabyte 0x00010000#32).pmm) s ∧
      (s.buddy.buddyAlloc 0).1 = 0#32 ∧
      calls.Reach (fun _ _ => True) (boot (Frames.boot oneMegabyte 0x00010000#32).pmm)
        (s.next (.alloc 0)) ∧
      Extent.total (freeExtents (s.next (.alloc 0)).buddy.blocks) +
        Extent.total (outExtents (s.next (.alloc 0)).out) = 2 ^ 7 * 4096 := by
  have hreach : calls.Reach (fun _ _ => True) (boot (Frames.boot oneMegabyte 0x00010000#32).pmm)
      (worn 0x00103000#32 1023) := by
    rw [oneMegabyte_pool]
    exact reach_worn (by decide) (by decide) 1023 (by decide)
  refine ⟨_, hreach, ?_, reach_alloc hreach 0, ?_⟩
  · decide +kernel
  · decide +kernel

end Pool

end SengOS
