import Mathlib.Data.List.FinRange
import SengOS.Fs.Invariant

/-!
# Allocation and release

One specification for each function that touches a bitmap, in terms of the
view of the disk.
-/

namespace SengOS

/-! ## Blocks -/

/-- No data block is free. -/
def View.full (v : View) : Prop := ∀ b, 6 ≤ b → b < 254 → v.bbit b = true

/-- The device after block `b` has been taken: marked, then zeroed. -/
def takeBlock (v : Dev) (b : Nat) : Dev := (bitmapSet v 2 b true).zeroBlock b

theorem allocBlock_cases (v : Dev) :
    (allocBlock v = (none, v) ∧ (view v.disk).full) ∨
    ∃ b, allocBlock v = (some b, takeBlock v b) ∧ 6 ≤ b ∧ b < 254 ∧ (view v.disk).bbit b = false := by
  unfold allocBlock
  cases h : (List.range' 6 248).find? (fun b => !bitmapGet v.disk 2 b) with
  | none =>
    left
    refine ⟨rfl, fun b h6 h254 => ?_⟩
    have := List.find?_eq_none.mp h b (List.mem_range'_1.mpr (by omega))
    simpa [view_bbit] using this
  | some b =>
    right
    have hm := List.mem_range'_1.mp (List.mem_of_find?_eq_some h)
    have hp := List.find?_some h
    rw [view_bbit] at hp
    exact ⟨b, rfl, by omega, by omega, by simpa using hp⟩

theorem takeBlock_writes (v : Dev) {b : Nat} (h : 6 ≤ b) : v.Writes (takeBlock v b) :=
  (bitmapSet_writes (by decide) v b true).trans (.single _ _ (by omega))

theorem view_takeBlock {v : Dev} {b : Nat} (h6 : 6 ≤ b) (h254 : b < 254) :
    view (takeBlock v b).disk = ((view v.disk).setBbit b true).setData b Buf.zero := by
  rw [takeBlock, Dev.zeroBlock, view_write (Or.inr ⟨h6, h254⟩), view_bitmapSet_block (by omega)]

/-! ## Inodes -/

theorem allocInode_cases (v : Dev) :
    (allocInode v = (none, v) ∧ ∀ i, i < 64 → (view v.disk).ibit i = true) ∨
    ∃ i, allocInode v = (some i, bitmapSet v 3 i true) ∧ i < 64 ∧ (view v.disk).ibit i = false := by
  unfold allocInode
  cases h : (List.range 64).find? (fun i => !bitmapGet v.disk 3 i) with
  | none =>
    left
    refine ⟨rfl, fun i hi => ?_⟩
    have := List.find?_eq_none.mp h i (List.mem_range.mpr hi)
    simpa [view_ibit] using this
  | some i =>
    right
    have hm := List.mem_range.mp (List.mem_of_find?_eq_some h)
    have hp := List.find?_some h
    rw [view_ibit] at hp
    exact ⟨i, rfl, hm, by simpa using hp⟩

theorem freeInode_writes (v : Dev) (i : Nat) : v.Writes (freeInode v i) := by
  unfold freeInode
  split
  · exact bitmapSet_writes (by decide) v i false
  · exact .refl

theorem view_freeInode {i : Nat} (h : i < 64) (v : Dev) :
    view (freeInode v i).disk = (view v.disk).setIbit i false := by
  rw [freeInode, if_pos h, view_bitmapSet_inode h]

theorem freeBlock_writes (v : Dev) (b : Nat) : v.Writes (freeBlock v b) := by
  unfold freeBlock
  split
  · exact bitmapSet_writes (by decide) v b false
  · exact .refl

theorem view_freeBlock {b : Nat} (h6 : 6 ≤ b) (h254 : b < 254) (v : Dev) :
    view (freeBlock v b).disk = (view v.disk).setBbit b false := by
  rw [freeBlock, if_pos ⟨h6, h254⟩, view_bitmapSet_block (by omega)]

/-! ## Releasing a list of pointers -/

/-- The bits of the pool blocks among `ws` cleared. -/
def View.freed (v : View) (ws : List Word) : View :=
  { v with bbit := fun c => if 6 ≤ c ∧ c < 254 ∧ ∃ w ∈ ws, w.toNat = c then false else v.bbit c }

theorem View.freed_iff (v : View) (ws : List Word) (c : Nat) :
    (v.freed ws).bbit c = true ↔ v.bbit c = true ∧ (6 ≤ c → c < 254 → ∀ w ∈ ws, w.toNat ≠ c) := by
  by_cases hc : 6 ≤ c ∧ c < 254 ∧ ∃ w ∈ ws, w.toNat = c
  · obtain ⟨h6, h254, w, hw, e⟩ := hc
    have hex : ∃ w ∈ ws, w.toNat = c := ⟨w, hw, e⟩
    have off : (v.freed ws).bbit c = false := if_pos ⟨h6, h254, hex⟩
    rw [off]
    exact ⟨fun h => absurd h (by decide), fun h => absurd e (h.2 h6 h254 w hw)⟩
  · simp only [View.freed, hc, ↓reduceIte]
    exact ⟨fun hb => ⟨hb, fun h6 h254 w hw e => hc ⟨h6, h254, w, hw, e⟩⟩, And.left⟩

theorem View.freed_nil (v : View) : v.freed [] = v := by
  simp [View.freed]

theorem View.freed_freed (v : View) (ws us : List Word) : (v.freed ws).freed us = v.freed (ws ++ us) := by
  apply View.ext
  · funext c
    simp only [View.freed, List.mem_append, or_and_right, exists_or]
    by_cases hr : 6 ≤ c ∧ c < 254
    · by_cases hw : ∃ w ∈ ws, w.toNat = c <;> by_cases hu : ∃ w ∈ us, w.toNat = c <;>
        simp [hr, hw, hu]
    · simp [hr, ← and_assoc]
  all_goals rfl

theorem freePointer_writes (v : Dev) (w : Word) : v.Writes (freePointer v w) := by
  unfold freePointer
  split
  · exact freeBlock_writes v _
  · exact .refl

theorem view_freePointer (v : Dev) (w : Word) :
    view (freePointer v w).disk = (view v.disk).freed [w] := by
  have hbit (c : Nat) : ((view v.disk).freed [w]).bbit c =
      if 6 ≤ c ∧ c < 254 ∧ w.toNat = c then false else (view v.disk).bbit c := by
    simp [View.freed]
  by_cases hr : 6 ≤ w.toNat ∧ w.toNat < 254
  · have hw : w ≠ 0#32 := by
      rintro rfl
      exact absurd hr.1 (by decide)
    rw [freePointer, if_pos hw, view_freeBlock hr.1 hr.2]
    apply View.ext
    · funext c
      rw [hbit, View.setBbit_bbit, Function.update_apply]
      by_cases hc : c = w.toNat
      · simp [hc, hr]
      · simp [hc, Ne.symm hc]
    all_goals rfl
  · have hn : freePointer v w = v := by
      unfold freePointer
      split
      · rw [freeBlock, if_neg hr]
      · rfl
    rw [hn]
    apply View.ext
    · funext c
      rw [hbit, if_neg]
      rintro ⟨h1, h2, rfl⟩
      exact hr ⟨h1, h2⟩
    all_goals rfl

theorem freePointers_writes (ws : List Word) (v : Dev) : v.Writes (ws.foldl freePointer v) := by
  induction ws generalizing v with
  | nil => exact .refl
  | cons w ws ih => exact (freePointer_writes v w).trans (ih _)

theorem view_freePointers (ws : List Word) (v : Dev) :
    view (ws.foldl freePointer v).disk = (view v.disk).freed ws := by
  induction ws generalizing v with
  | nil => exact (View.freed_nil _).symm
  | cons w ws ih => rw [List.foldl_cons, ih, view_freePointer, View.freed_freed]; rfl

/-- All pointers of an inode in the order `release_inode_blocks` visits them. -/
def Inode.pointers (n : Inode) (data : Nat → Block) : List Word :=
  List.ofFn n.direct ++
    if n.indirect = 0#32 then []
    else (List.range 1024).map (fun i => (data n.indirect.toNat).word (4 * i)) ++ [n.indirect]

theorem Inode.mem_pointers (n : Inode) (data : Nat → Block) {c : Nat} (hc : c ≠ 0) :
    (∃ w ∈ n.pointers data, w.toNat = c) ↔ ∃ s, n.ptr data s = c := by
  unfold Inode.pointers
  constructor
  · rintro ⟨w, hw, rfl⟩
    rcases List.mem_append.mp hw with hw | hw
    · obtain ⟨k, rfl⟩ := List.mem_ofFn.mp hw
      exact ⟨.direct k, rfl⟩
    · split at hw
      · cases hw
      · rename_i hz
        rcases List.mem_append.mp hw with hw | hw
        · obtain ⟨i, hi, rfl⟩ := List.mem_map.mp hw
          exact ⟨.entry ⟨i, List.mem_range.mp hi⟩, by simp [Inode.ptr, hz]⟩
        · rw [List.mem_singleton.mp hw]
          exact ⟨.indirect, rfl⟩
  · rintro ⟨s, rfl⟩
    cases s with
    | direct k => exact ⟨n.direct k, List.mem_append_left _ (List.mem_ofFn.mpr ⟨k, rfl⟩), rfl⟩
    | indirect =>
      have hz : n.indirect ≠ 0#32 := fun e => hc (by rw [Inode.ptr, e]; rfl)
      exact ⟨n.indirect, by simp [hz], rfl⟩
    | entry j =>
      have hz : n.indirect ≠ 0#32 := fun e => hc (by simp [Inode.ptr, e])
      refine ⟨(data n.indirect.toNat).word (4 * j.val), ?_, by simp [Inode.ptr, hz]⟩
      simp only [hz, ↓reduceIte, List.mem_append, List.mem_map, List.mem_range]
      exact Or.inr (Or.inl ⟨j.val, j.isLt, rfl⟩)

/-- `release_inode_blocks` frees the pointers of the inode one by one. -/
theorem releaseInodeBlocks_eq {v : Dev} {n : Inode}
    (h : n.indirect ≠ 0#32 → IsData n.indirect.toNat) :
    releaseInodeBlocks v n = ({ n with direct := fun _ => 0#32, indirect := 0#32 },
      (n.pointers (view v.disk).data).foldl freePointer v) := by
  have hd : (List.finRange 8).foldl (fun v k => freePointer v (n.direct k)) v =
      (List.ofFn n.direct).foldl freePointer v := by
    rw [List.ofFn_eq_map, List.foldl_map]
  unfold releaseInodeBlocks Inode.pointers
  rw [List.foldl_append, hd]
  by_cases hz : n.indirect = 0#32
  · simp [hz]
  · have hdata := h hz
    have hblk : readBlock ((List.ofFn n.direct).foldl freePointer v).disk n.indirect.toNat =
        (view v.disk).data n.indirect.toNat := by
      rw [readBlock_data hdata, view_freePointers]
      rfl
    have hlast (u : Dev) : freeBlock u n.indirect.toNat = freePointer u n.indirect := by
      rw [freePointer, if_pos hz]
    simp only [ne_eq, hz, not_false_eq_true, ↓reduceIte, hblk, hlast, List.foldl_append,
      List.foldl_map, List.foldl_cons, List.foldl_nil]

end SengOS
