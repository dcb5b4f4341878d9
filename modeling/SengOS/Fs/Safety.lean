import SengOS.Fs.Content

/-!
# Disks that are safe to mount

After a crash the bitmaps may mark too much, but never too little: whatever the
root still reaches is marked and held once. `Covers` compares the disk found
after a crash with a consistent view; `Through` says something about every disk
a sequence of block writes leaves behind on its way.
-/

namespace SengOS

namespace View

/-- Inodes that the root directory leads to. -/
inductive Reach (v : View) : Nat → Prop
  | root : Reach v 0
  | entry {d s i : Nat} {x : List Byte} : Reach v d → (v.inode d).mode = inodeDir → s < 128 →
      v.entry d s = some (x, i) → Reach v i

/-- No block of a reachable file can be handed out again. -/
structure Safe (v : View) : Prop where
  live : ∀ i, v.Reach i → v.live i
  marked : ∀ i s, v.Reach i → v.ptr i s ≠ 0 → v.bbit (v.ptr i s) = true
  single : ∀ i s j t, v.Reach i → v.Reach j → v.ptr i s ≠ 0 → v.ptr i s = v.ptr j t → i = j ∧ s = t

/-- What `u` holds is marked in `v`, and `v` holds no more than `u`. -/
structure Covers (u v : View) : Prop where
  bbit : ∀ b, u.bbit b = true → v.bbit b = true
  ibit : ∀ i, u.live i → v.ibit i = true
  mode : ∀ i, u.live i → (v.inode i).mode = (u.inode i).mode
  ptr : ∀ i s, u.live i → v.ptr i s = u.ptr i s ∨ v.ptr i s = 0
  entry : ∀ i s, u.isDir i → s < 128 → v.entry i s = u.entry i s

namespace Covers

variable {u v : View}

theorem refl (u : View) : u.Covers u :=
  ⟨fun _ h => h, fun _ h => h.2, fun _ _ => rfl, fun _ _ _ => Or.inl rfl, fun _ _ _ _ => rfl⟩

theorem reach_live (h : u.Covers v) (hu : FsInv u) {i : Nat} (hr : v.Reach i) : u.live i := by
  induction hr with
  | root => exact hu.root_dir.1
  | entry _ hm hs he ih =>
    have hd : u.isDir _ := ⟨ih, (h.mode _ ih) ▸ hm⟩
    rw [h.entry _ _ hd hs] at he
    exact hu.entry_live hd hs he

theorem ptr_eq (h : u.Covers v) {i : Nat} {s : Slot} (hl : u.live i) (hne : v.ptr i s ≠ 0) :
    v.ptr i s = u.ptr i s := (h.ptr i s hl).resolve_right hne

theorem safe (h : u.Covers v) (hu : FsInv u) : v.Safe := by
  constructor
  · intro i hr
    have hl := h.reach_live hu hr
    exact ⟨hl.1, h.ibit i hl⟩
  · intro i s hr hne
    have hl := h.reach_live hu hr
    have he := h.ptr_eq hl hne
    rw [he] at hne ⊢
    apply h.bbit
    rcases hu.own.range i s hl hne with ⟨h6, h254⟩ | ⟨-, -, h1⟩
    · exact hu.own.held_used hl h6 h254
    · rw [h1]
      exact hu.root_bit
  · intro i s j t hr hr' hne heq
    have hl := h.reach_live hu hr
    have hl' := h.reach_live hu hr'
    have he := h.ptr_eq hl hne
    have he' := h.ptr_eq hl' (heq ▸ hne)
    exact hu.own.inj i s j t hl hl' (he ▸ hne) (by rw [← he, ← he', heq])

theorem mark (h : u.Covers v) (b : Nat) : u.Covers (v.setBbit b true) := by
  refine ⟨fun c hc => ?_, h.ibit, h.mode, h.ptr, h.entry⟩
  rw [View.setBbit_bbit, Function.update_apply]
  split
  · rfl
  · exact h.bbit c hc

/-- A block that `u` does not hold may be overwritten. -/
theorem setData (h : u.Covers v) {b : Nat} (hb : ∀ i s, u.live i → u.ptr i s ≠ b) (hb0 : b ≠ 0)
    (blk : Block) : u.Covers (v.setData b blk) := by
  have away {i : Nat} {s : Slot} (hl : u.live i) : v.ptr i s ≠ b := by
    rcases h.ptr i s hl with e | e
    · rw [e]
      exact hb i s hl
    · rw [e]
      exact hb0.symm
  refine ⟨h.bbit, h.ibit, h.mode, fun i s hl => ?_, fun i s hd hs => ?_⟩
  · have hp : (v.setData b blk).ptr i s = v.ptr i s := by
      cases s with
      | direct k => rfl
      | indirect => rfl
      | entry j =>
        have hne : (v.inode i).indirect.toNat ≠ b := away (s := .indirect) hl
        simp only [View.ptr, Inode.ptr, View.setData_inode, View.setData_data,
          Function.update_of_ne hne]
    rw [hp]
    exact h.ptr i s hl
  · have hne : ((v.inode i).direct 0).toNat ≠ b := away (s := .direct 0) hd.1
    rw [← h.entry i s hd hs]
    simp only [View.entry, View.dirBlock, View.setData_inode, View.setData_data]
    rw [Function.update_of_ne hne]

end Covers

/-- The part of `u` that is live is still there in `v`. -/
structure Keeps (u v : View) : Prop where
  bbit : ∀ b, u.bbit b = true → v.bbit b = true
  ibit : ∀ i, u.live i → v.ibit i = true
  inode : ∀ i, u.live i → v.inode i = u.inode i
  data : ∀ b, u.structural b → v.data b = u.data b

namespace Keeps

variable {u v : View}

theorem refl (u : View) : u.Keeps u := ⟨fun _ h => h, fun _ h => h.2, fun _ _ => rfl, fun _ _ => rfl⟩

theorem covers (h : u.Keeps v) : u.Covers v := by
  refine ⟨h.bbit, h.ibit, fun i hl => by rw [h.inode i hl], fun i s hl => Or.inl ?_, ?_⟩
  · unfold View.ptr
    rw [h.inode i hl]
    cases s with
    | direct k => rfl
    | indirect => rfl
    | entry j =>
      simp only [Inode.ptr]
      by_cases hz : (u.inode i).indirect = 0#32
      · simp [hz]
      · rw [h.data _ (Or.inr ⟨i, hl, hz, rfl⟩)]
  · intro i s hd _
    rw [View.entry, View.entry, View.dirBlock, h.inode i hd.1]
    exact congrArg (dirent · s) (h.data _ (Or.inl ⟨i, hd, rfl⟩))

theorem mark (h : u.Keeps v) (b : Nat) : u.Keeps (v.setBbit b true) := by
  refine ⟨fun c hc => ?_, h.ibit, h.inode, h.data⟩
  rw [View.setBbit_bbit, Function.update_apply]
  split
  · rfl
  · exact h.bbit c hc

theorem unmark (h : u.Keeps v) {b : Nat} (hb : u.bbit b = false) : u.Keeps (v.setBbit b false) := by
  refine ⟨fun c hc => ?_, h.ibit, h.inode, h.data⟩
  have hne : c ≠ b := by
    rintro rfl
    rw [hb] at hc
    cases hc
  rw [View.setBbit_bbit, Function.update_of_ne hne]
  exact h.bbit c hc

theorem markInode (h : u.Keeps v) (i : Nat) : u.Keeps (v.setIbit i true) := by
  refine ⟨h.bbit, fun j hj => ?_, h.inode, h.data⟩
  rw [View.setIbit_ibit, Function.update_apply]
  split
  · rfl
  · exact h.ibit j hj

theorem unmarkInode (h : u.Keeps v) {i : Nat} (hi : ¬ u.live i) : u.Keeps (v.setIbit i false) := by
  refine ⟨h.bbit, fun j hj => ?_, h.inode, h.data⟩
  have hne : j ≠ i := by
    rintro rfl
    exact hi hj
  rw [View.setIbit_ibit, Function.update_of_ne hne]
  exact h.ibit j hj

theorem setInode (h : u.Keeps v) {i : Nat} (hi : ¬ u.live i) (n : Inode) : u.Keeps (v.setInode i n) := by
  refine ⟨h.bbit, h.ibit, fun j hj => ?_, h.data⟩
  have hne : j ≠ i := by
    rintro rfl
    exact hi hj
  rw [View.setInode_inode, Function.update_of_ne hne]
  exact h.inode j hj

theorem setData (h : u.Keeps v) {b : Nat} (hb : ¬ u.structural b) (blk : Block) :
    u.Keeps (v.setData b blk) := by
  refine ⟨h.bbit, h.ibit, h.inode, fun c hc => ?_⟩
  have hne : c ≠ b := by
    rintro rfl
    exact hb hc
  rw [View.setData_data, Function.update_of_ne hne]
  exact h.data c hc

end Keeps

end View

/-- A free block carries no structure. -/
theorem BlockInv.free_not_structural {v : View} (h : BlockInv v) {b : Nat} (h6 : 6 ≤ b) (h254 : b < 254)
    (free : v.bbit b = false) : ¬ v.structural b := by
  rintro (⟨i, hd, e⟩ | ⟨i, hl, -, e⟩)
  · exact h.own.free_not_held h6 h254 (by simp [free]) hd.1 (.direct 0) e
  · exact h.own.free_not_held h6 h254 (by simp [free]) hl .indirect e

/-! ## Disks on the way -/

/-- Every disk the block writes from `v` to `w` leave behind satisfies `P`. -/
def Dev.Through (P : Disk → Prop) (v w : Dev) : Prop :=
  ∃ new, w.hist = v.hist ++ new ∧ ∀ d ∈ new, P d

namespace Dev.Through

variable {P Q : Disk → Prop} {u v w : Dev}

theorem refl (P : Disk → Prop) (v : Dev) : v.Through P v := ⟨[], by simp, by simp⟩

theorem trans (h : u.Through P v) (h' : v.Through P w) : u.Through P w := by
  obtain ⟨xs, hx, px⟩ := h
  obtain ⟨ys, hy, py⟩ := h'
  refine ⟨xs ++ ys, by rw [hy, hx, List.append_assoc], fun d hd => ?_⟩
  exact (List.mem_append.mp hd).elim (px d) (py d)

theorem imp (h : u.Through P v) (hpq : ∀ d, P d → Q d) : u.Through Q v := by
  obtain ⟨xs, hx, px⟩ := h
  exact ⟨xs, hx, fun d hd => hpq d (px d hd)⟩

theorem and (h : u.Through P v) (h' : u.Through Q v) : u.Through (fun d => P d ∧ Q d) v := by
  obtain ⟨xs, hx, px⟩ := h
  obtain ⟨ys, hy, py⟩ := h'
  have : ys = xs := List.append_cancel_left (hy.symm.trans hx)
  subst this
  exact ⟨ys, hx, fun d hd => ⟨px d hd, py d hd⟩⟩

theorem write (v : Dev) {b : Nat} {blk : Block} (hb : Accepted b) (hp : P (v.write b blk).2.disk) :
    v.Through P (v.write b blk).2 :=
  ⟨[(v.write b blk).2.disk], Dev.write_hist hb v blk, fun d hd => by
    rw [List.mem_singleton.mp hd]
    exact hp⟩

theorem inodeWrite (v : Dev) {i : Nat} (hi : i < 64) {n : Inode} (hp : P (inodeWrite v i n).disk) :
    v.Through P (inodeWrite v i n) :=
  .write v (by rw [(inode_place hi).1]; decide) hp

theorem bitmapSet (v : Dev) {block bit : Nat} {x : Bool} (hb : Accepted block)
    (hp : P (bitmapSet v block bit x).disk) : v.Through P (bitmapSet v block bit x) :=
  .write v hb hp

/-- A block is marked, then zeroed. -/
theorem takeBlock (v : Dev) {b : Nat} (h6 : 6 ≤ b) (h254 : b < 254)
    (hp : ∀ d, view d = (view v.disk).setBbit b true → P d)
    (hq : ∀ d, view d = ((view v.disk).setBbit b true).setData b Buf.zero → P d) :
    v.Through P (takeBlock v b) := by
  have hb : Accepted b := IsData.accepted (Or.inr ⟨h6, h254⟩)
  refine (bitmapSet v (by decide : Accepted 2) (hp (SengOS.bitmapSet v 2 b true).disk ?_)).trans
    (write _ hb (hq _ ?_))
  · exact view_bitmapSet_block (by omega) v true
  · exact view_takeBlock h6 h254

/-- Every disk on the way can be mounted. -/
theorem of_writes (h : v.Writes w) (hv : Mounted v.disk) : v.Through Mounted w := by
  induction h with
  | refl => exact refl _ _
  | write b blk hb hw ih =>
    refine ih.trans ?_
    by_cases ha : Accepted b
    · exact .write _ ha ((hv.writes hw).write hb blk)
    · rw [Dev.write_rejected ha]
      exact refl _ _

end Dev.Through

end SengOS
