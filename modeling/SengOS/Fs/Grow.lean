import SengOS.Fs.Safety

/-!
# Blocks on demand

`block_for_inode` with `allocate` set, seen through the view in which the
file's inode is the copy the caller holds in memory. Each allocation hands one
zeroed block to one empty slot of that file.
-/

namespace SengOS

/-- A file may change its own pointers as long as ownership still holds. -/
theorem BlockInv.of_frame {u v : View} {ino : Nat} (h : BlockInv u) (hf : u.isFile ino)
    (fr : u.Frame ino v) (own : v.Owned) : BlockInv v := by
  have ne {j : Nat} (hd : u.isDir j) : j ≠ ino := by
    rintro rfl
    exact h.file_not_dir hf hd
  constructor
  · exact own
  · intro i hl
    exact (h.mode i ((fr.live i).mp hl)).imp (fr.isFile i).mpr (fr.isDir i).mpr
  · intro i hd
    have hd' := (fr.isDir i).mp hd
    obtain ⟨h1, h2⟩ := h.shape i hd'
    have hp (s : Slot) := fr.ptr hd'.1 (ne hd') s
    refine ⟨?_, fun s hs => ?_⟩
    · exact (hp (.direct 0)).trans_ne h1
    · rw [hp s, h2 s hs]
  · exact (fr.isDir 0).mpr h.root_dir
  · exact (fr.ptr h.root_dir.1 (ne h.root_dir) (.direct 0)).trans h.root

/-- What one file does to its blocks leaves the tree alone. -/
theorem FsInv.of_frame {u v : View} {ino : Nat} (h : FsInv u) (hf : u.isFile ino)
    (fr : u.Frame ino v) (hb : v.bbit 1 = true) (hv : BlockInv v) : FsInv v := by
  have entry {j : Nat} (hd : u.isDir j) (s : Nat) : v.entry j s = u.entry j s := by
    refine fr.entry h.toBlockInv hd ?_ s
    rintro rfl
    exact h.file_not_dir hf hd
  refine ⟨hv, hb, ?_, ?_⟩
  · exact h.tree.congr (by decide) fr.live fr.isDir fun d s hd _ => entry hd s
  · intro i s x j hd hs he
    have hd' := (fr.isDir i).mp hd
    rw [entry hd'] at he
    exact h.name i s x j hd' hs he

/-- Slot `s₀` of file `ino` takes the fresh zeroed block `b`. -/
structure View.Grows (ino : Nat) (s₀ : Slot) (b : Nat) (v v' : View) : Prop where
  ibit : v'.ibit = v.ibit
  inode : ∀ j, j ≠ ino → v'.inode j = v.inode j
  size : (v'.inode ino).size = (v.inode ino).size
  mode : (v'.inode ino).mode = (v.inode ino).mode
  bbit : v'.bbit = Function.update v.bbit b true
  ptr : ∀ s, v'.ptr ino s = if s = s₀ then b else v.ptr ino s
  zero : v'.data b = Buf.zero
  data : ∀ c, c ≠ b → c ≠ v.ptr ino .indirect → v'.data c = v.data c

/-- The file may have gained blocks; no byte of it has changed. -/
structure View.Extends (ino : Nat) (v v' : View) : Prop where
  inv : BlockInv v'
  frame : v.Frame ino v'
  size : (v'.inode ino).size = (v.inode ino).size
  keep : ∀ s, v.ptr ino s ≠ 0 → v'.ptr ino s = v.ptr ino s
  bbit : ∀ b, v.bbit b = true → v'.bbit b = true
  byte : ∀ p, v'.byteAt ino p = v.byteAt ino p

theorem View.Extends.refl {ino : Nat} {v : View} (h : BlockInv v) : v.Extends ino v :=
  ⟨h, .refl ino v, rfl, fun _ _ => rfl, fun _ hb => hb, fun _ => rfl⟩

theorem View.Extends.trans {ino : Nat} {u v w : View} (h : u.Extends ino v) (h' : v.Extends ino w) :
    u.Extends ino w := by
  refine ⟨h'.inv, h.frame.trans h'.frame, h'.size.trans h.size, ?_, fun b hb => h'.bbit b (h.bbit b hb),
    fun p => (h'.byte p).trans (h.byte p)⟩
  intro s hs
  have hk := h.keep s hs
  rw [h'.keep s (hk ▸ hs), hk]

namespace View.Grows

variable {ino b : Nat} {s₀ : Slot} {v v' : View}

theorem frame (g : v.Grows ino s₀ b v') (h : BlockInv v) (hf : v.isFile ino) (h6 : 6 ≤ b) (h254 : b < 254)
    (free : v.bbit b = false) : v.Frame ino v' := by
  refine ⟨g.ibit, g.inode, g.mode, fun j s hl hj hs => g.data _ ?_ ?_⟩
  · exact h.own.free_not_held h6 h254 (by simp [free]) hl s
  · intro e
    exact hj (h.own.inj j s ino .indirect hl hf.1 hs e).1

theorem inv (g : v.Grows ino s₀ b v') (h : BlockInv v) (hf : v.isFile ino) (h6 : 6 ≤ b) (h254 : b < 254)
    (free : v.bbit b = false) (empty : v.ptr ino s₀ = 0) : BlockInv v' := by
  have fr := g.frame h hf h6 h254 free
  refine h.of_frame hf fr ?_
  refine h.own.grow ino s₀ h6 h254 (by decide) (by simp [free]) ?_ ?_ ?_ ?_
  · intro i s hl hs
    have hl' := (fr.live i).mp hl
    by_cases hi : i = ino
    · subst hi
      by_cases he : s = s₀
      · exact Or.inl ⟨rfl, he⟩
      · exact Or.inr ⟨hl', by rw [g.ptr s, if_neg he]⟩
    · exact Or.inr ⟨hl', fr.ptr hl' hi s⟩
  · intro i s hl hs
    refine ⟨(fr.live i).mpr hl, ?_⟩
    by_cases hi : i = ino
    · subst hi
      rw [g.ptr s, if_neg]
      rintro rfl
      exact hs empty
    · exact fr.ptr hl hi s
  · exact ⟨(fr.live ino).mpr hf.1, by rw [g.ptr, if_pos rfl]⟩
  · intro c _ _
    rw [g.bbit, Function.update_apply]
    by_cases hc : c = b <;> simp [hc]

theorem byteAt (g : v.Grows ino s₀ b v') (h : BlockInv v) (hf : v.isFile ino) (h6 : 6 ≤ b) (h254 : b < 254)
    (free : v.bbit b = false) (empty : v.ptr ino s₀ = 0) (p : Nat) :
    v'.byteAt ino p = v.byteAt ino p := by
  unfold View.byteAt
  cases hs : Slot.ofLogical (p / 4096) with
  | none => rfl
  | some s =>
    simp only [g.ptr s]
    by_cases he : s = s₀
    · subst he
      simp [empty, g.zero]
    · simp only [he, ↓reduceIte]
      by_cases hz : v.ptr ino s = 0
      · simp [hz]
      · have hne : v.ptr ino s ≠ v.ptr ino .indirect := by
          intro e
          have := (h.own.inj ino s ino .indirect hf.1 hf.1 hz e).2
          rw [this] at hs
          exact Slot.ofLogical_ne_indirect hs
        simp only [hz, ↓reduceIte]
        rw [g.data _ (h.own.free_not_held h6 h254 (by simp [free]) hf.1 s) hne]

theorem grown (g : v.Grows ino s₀ b v') (h : BlockInv v) (hf : v.isFile ino) (h6 : 6 ≤ b)
    (h254 : b < 254) (free : v.bbit b = false) (empty : v.ptr ino s₀ = 0) : v.Extends ino v' := by
  refine ⟨g.inv h hf h6 h254 free empty, g.frame h hf h6 h254 free, g.size, ?_, ?_,
    g.byteAt h hf h6 h254 free empty⟩
  · intro s hs
    rw [g.ptr s, if_neg]
    rintro rfl
    exact hs empty
  · intro c hc
    rw [g.bbit, Function.update_apply]
    split
    · rfl
    · exact hc

end View.Grows

/-! ## The in-memory inode -/

/-- The disk as the caller sees it, with its own copy of the inode. -/
def virtualView (v : Dev) (ino : Nat) (n : Inode) : View := (view v.disk).setInode ino n

theorem virtualView_inode (v : Dev) (ino : Nat) (n : Inode) : (virtualView v ino n).inode ino = n := by
  simp [virtualView]

theorem virtualView_ptr (v : Dev) (ino : Nat) (n : Inode) (s : Slot) :
    (virtualView v ino n).ptr ino s = n.ptr (view v.disk).data s := by
  simp [virtualView, View.ptr]

theorem toNat_ofNat_small {b : Nat} (h : b < 254) : (BitVec.ofNat 32 b).toNat = b := by
  simp only [BitVec.toNat_ofNat]
  omega

theorem ofNat_ne_zero {b : Nat} (h6 : 6 ≤ b) (h : b < 254) : BitVec.ofNat 32 b ≠ 0#32 := by
  intro e
  have := congrArg BitVec.toNat e
  rw [toNat_ofNat_small h] at this
  simp at this
  omega

/-- The part of a `Grows` fact that does not depend on the slot. -/
theorem grows_virtual {v v' : Dev} {n n' : Inode} {ino b : Nat} {s₀ : Slot}
    (hview : view v'.disk = ((view v.disk).setBbit b true).setData b Buf.zero)
    (hs : n'.size = n.size) (hm : n'.mode = n.mode)
    (hp : ∀ s, n'.ptr (view v'.disk).data s = if s = s₀ then b else n.ptr (view v.disk).data s) :
    (virtualView v ino n).Grows ino s₀ b (virtualView v' ino n') := by
  constructor
  · simp [virtualView, hview]
  · intro j hj
    simp [virtualView, hview, Function.update_of_ne hj]
  · rw [virtualView_inode, virtualView_inode, hs]
  · rw [virtualView_inode, virtualView_inode, hm]
  · simp [virtualView, hview]
  · intro s
    rw [virtualView_ptr, virtualView_ptr, hp s]
  · simp [virtualView, hview]
  · intro c hc _
    simp [virtualView, hview, Function.update_of_ne hc]

theorem grows_direct (v : Dev) {n : Inode} (ino : Nat) {b : Nat} (k : Fin 8) (h6 : 6 ≤ b) (h254 : b < 254)
    (hne : n.indirect.toNat ≠ b) :
    (virtualView v ino n).Grows ino (.direct k) b (virtualView (takeBlock v b) ino
      { n with direct := Function.update n.direct k (BitVec.ofNat 32 b) }) := by
  refine grows_virtual (view_takeBlock h6 h254) rfl rfl fun s => ?_
  rw [view_takeBlock h6 h254]
  cases s with
  | direct j =>
    simp only [Inode.ptr, Slot.direct.injEq, Function.update_apply]
    by_cases hj : j = k
    · simp [hj, toNat_ofNat_small h254]
    · simp [hj]
  | indirect => simp [Inode.ptr]
  | entry j =>
    simp only [Inode.ptr, View.setData_data, View.setBbit_data, reduceCtorEq, ↓reduceIte,
      Function.update_of_ne hne]

theorem grows_indirect (v : Dev) {n : Inode} (ino : Nat) {b : Nat} (h6 : 6 ≤ b) (h254 : b < 254)
    (hz : n.indirect = 0#32) :
    (virtualView v ino n).Grows ino .indirect b (virtualView (takeBlock v b) ino
      { n with indirect := BitVec.ofNat 32 b }) := by
  refine grows_virtual (view_takeBlock h6 h254) rfl rfl fun s => ?_
  rw [view_takeBlock h6 h254]
  cases s with
  | direct j => simp [Inode.ptr]
  | indirect => simp [Inode.ptr, toNat_ofNat_small h254]
  | entry j =>
    simp only [Inode.ptr, toNat_ofNat_small h254, hz, View.setData_data, Function.update_self,
      Buf.word_zero, ofNat_ne_zero h6 h254, ↓reduceIte, reduceCtorEq]
    rfl

/-- A pointer is stored in the indirect block, on disk at once. -/
theorem grows_entry (v : Dev) {n : Inode} (ino : Nat) {b : Nat} (j : Fin 1024) (h6 : 6 ≤ b) (h254 : b < 254)
    (hz : n.indirect ≠ 0#32) (hdata : IsData n.indirect.toNat) (hne : n.indirect.toNat ≠ b) :
    (virtualView v ino n).Grows ino (.entry j) b
      (virtualView ((takeBlock v b).write n.indirect.toNat
        (((view v.disk).data n.indirect.toNat).setWord (4 * j.val) (BitVec.ofNat 32 b))).2 ino n) := by
  have hview := view_write hdata (takeBlock v b)
    (((view v.disk).data n.indirect.toNat).setWord (4 * j.val) (BitVec.ofNat 32 b))
  rw [view_takeBlock h6 h254] at hview
  constructor
  · simp [virtualView, hview]
  · intro i hi
    simp [virtualView, hview, Function.update_of_ne hi]
  · rw [virtualView_inode, virtualView_inode]
  · rw [virtualView_inode, virtualView_inode]
  · simp [virtualView, hview]
  · intro s
    rw [virtualView_ptr, virtualView_ptr, hview]
    cases s with
    | direct k => simp [Inode.ptr]
    | indirect => simp [Inode.ptr]
    | entry k =>
      have hk : 4 * j.val + 4 ≤ 4096 := by omega
      simp only [Inode.ptr, hz, ↓reduceIte, View.setData_data, Function.update_self,
        Slot.entry.injEq]
      by_cases he : k = j
      · subst he
        rw [Buf.word_setWord_self hk, if_pos rfl, toNat_ofNat_small h254]
      · have hv : k.val ≠ j.val := fun e => he (Fin.ext e)
        rw [Buf.word_setWord_ne (by omega), if_neg he]
  · simp [virtualView, hview, Function.update_of_ne (Ne.symm hne)]
  · intro c hc hi
    have hi' : c ≠ n.indirect.toNat := by
      rw [virtualView_ptr] at hi
      exact hi
    simp [virtualView, hview, Function.update_of_ne hi', Function.update_of_ne hc]

/-- The inode on disk while the caller has added pointers to its copy `n`. -/
structure Inode.Behind (n₀ n : Inode) : Prop where
  mode : n₀.mode = n.mode
  direct : ∀ k, n₀.direct k = n.direct k ∨ n₀.direct k = 0#32
  indirect : n₀.indirect = n.indirect ∨ n₀.indirect = 0#32

theorem virtual_covers {v : Dev} {ino : Nat} {n : Inode} (h : BlockInv (virtualView v ino n))
    (hf : (virtualView v ino n).isFile ino) (hb : ((view v.disk).inode ino).Behind n) :
    (virtualView v ino n).Covers (view v.disk) := by
  have other {i : Nat} (hi : i ≠ ino) : (virtualView v ino n).inode i = (view v.disk).inode i := by
    simp [virtualView, Function.update_of_ne hi]
  refine ⟨fun _ h => h, fun _ h => h.2, fun i _ => ?_, fun i s _ => ?_, fun i s hd _ => ?_⟩
  · by_cases hi : i = ino
    · rw [hi, virtualView_inode, hb.mode]
    · rw [other hi]
  · by_cases hi : i = ino
    · subst hi
      rw [virtualView_ptr]
      cases s with
      | direct k => exact (hb.direct k).imp (congrArg BitVec.toNat) (congrArg BitVec.toNat)
      | indirect => exact hb.indirect.imp (congrArg BitVec.toNat) (congrArg BitVec.toNat)
      | entry j =>
        simp only [View.ptr, Inode.ptr]
        rcases hb.indirect with e | e
        · exact Or.inl (by rw [e])
        · exact Or.inr (by rw [if_pos e])
    · rw [View.ptr, View.ptr, other hi]
      exact Or.inl rfl
  · have hi : i ≠ ino := by
      rintro rfl
      exact h.file_not_dir hf hd
    rw [View.entry, View.entry, View.dirBlock, View.dirBlock, other hi]
    rfl

/-- A disk that some stage of an operation on file `ino` covers. -/
def Trails (u : View) (ino : Nat) (d : Disk) : Prop :=
  ∃ v, BlockInv v ∧ u.Frame ino v ∧ (∀ b, u.bbit b = true → v.bbit b = true) ∧ v.Covers (view d)

theorem Trails.safe {u : View} {ino : Nat} {d : Disk} (h : Trails u ino d) (hu : FsInv u)
    (hf : u.isFile ino) : (view d).Safe := by
  obtain ⟨v, hv, fr, hb, hc⟩ := h
  exact hc.safe (hu.of_frame hf fr (hb 1 hu.root_bit) hv)

theorem View.Extends.trails {u v : View} {ino : Nat} {d : Disk} (h : u.Extends ino v)
    (hd : Trails v ino d) : Trails u ino d := by
  obtain ⟨w, hw, fr, hb, hc⟩ := hd
  exact ⟨w, hw, h.frame.trans fr, fun b hu => hb b (h.bbit b hu), hc⟩

/-! ## `block_for_inode` with allocation -/

/-- What a call on behalf of slot `s` returns: a block that is in the slot
afterwards, or nothing, and then the disk is full. -/
structure Supplied (v : Dev) (ino : Nat) (n : Inode) (s : Slot) (r : Int × Inode × Dev) : Prop where
  ext : (virtualView v ino n).Extends ino (virtualView r.2.2 ino r.2.1)
  writes : v.Writes r.2.2
  behind : ((view r.2.2.disk).inode ino).Behind r.2.1
  through : v.Through (Trails (virtualView v ino n) ino) r.2.2
  result : (r.1 ≤ 0 ∧ (virtualView r.2.2 ino r.2.1).full) ∨
    (r.1 = ((virtualView r.2.2 ino r.2.1).ptr ino s : Int) ∧
      (virtualView r.2.2 ino r.2.1).ptr ino s ≠ 0)

section
variable {v : Dev} {ino : Nat} {n : Inode}

theorem ptr_indirect_ne {b : Nat} (h : BlockInv (virtualView v ino n)) (hf : (virtualView v ino n).isFile ino)
    (h6 : 6 ≤ b) (h254 : b < 254) (free : (view v.disk).bbit b = false) : n.indirect.toNat ≠ b := by
  have := h.own.free_not_held h6 h254 (by simp [virtualView, free]) hf.1 .indirect
  rwa [virtualView_ptr] at this

theorem virtual_tame (h : BlockInv (virtualView v ino n)) (hf : (virtualView v ino n).isFile ino) :
    n.Tame (view v.disk).data := by
  have := h.tame hf.1
  rwa [virtualView_inode] at this

theorem View.Extends.trails_self {v' : Dev} {n' : Inode} (hf : (virtualView v ino n).isFile ino)
    (ext : (virtualView v ino n).Extends ino (virtualView v' ino n'))
    (hb : ((view v'.disk).inode ino).Behind n') : Trails (virtualView v ino n) ino v'.disk :=
  ⟨_, ext.inv, ext.frame, ext.bbit, virtual_covers ext.inv ((ext.frame.isFile ino).mpr hf) hb⟩

/-- Marking and zeroing a free block, and zeroing it again, spoils nothing. -/
theorem free_trails {b : Nat} {d : Disk} (h : BlockInv (virtualView v ino n))
    (hf : (virtualView v ino n).isFile ino) (hb : ((view v.disk).inode ino).Behind n) (h6 : 6 ≤ b)
    (h254 : b < 254) (free : (view v.disk).bbit b = false)
    (hd : view d = ((view v.disk).setBbit b true).setData b Buf.zero) :
    Trails (virtualView v ino n) ino d := by
  refine ⟨_, h, .refl _ _, fun _ hc => hc, ?_⟩
  rw [hd]
  refine ((virtual_covers h hf hb).mark b).setData (fun i s hl => ?_) (by omega) _
  exact h.own.free_not_held h6 h254 (by simp [virtualView, free]) hl s

theorem take_through {b : Nat} (h : BlockInv (virtualView v ino n))
    (hf : (virtualView v ino n).isFile ino) (hb : ((view v.disk).inode ino).Behind n) (h6 : 6 ≤ b)
    (h254 : b < 254) (free : (view v.disk).bbit b = false) :
    v.Through (Trails (virtualView v ino n) ino) (takeBlock v b) := by
  refine .takeBlock v h6 h254 (fun d hd => ?_) (fun d hd => free_trails h hf hb h6 h254 free hd)
  exact ⟨_, h, .refl _ _, fun _ hc => hc, hd ▸ (virtual_covers h hf hb).mark b⟩

theorem take_inode {b : Nat} (h6 : 6 ≤ b) (h254 : b < 254) (i : Nat) :
    (view (takeBlock v b).disk).inode i = (view v.disk).inode i := by
  rw [view_takeBlock h6 h254]
  rfl

/-- The slot is filled already. -/
theorem supplied_present {s : Slot} {w : Word} (h : BlockInv (virtualView v ino n))
    (hf : (virtualView v ino n).isFile ino) (hb : ((view v.disk).inode ino).Behind n)
    (hp : n.ptr (view v.disk).data s = w.toNat) (hw : w ≠ 0#32) :
    Supplied v ino n s (w.toInt, n, v) := by
  have hlt : w.toNat < 256 := hp ▸ (virtual_tame h hf).lt s
  refine ⟨.refl h, .refl, hb, .refl _ _, Or.inr ⟨?_, ?_⟩⟩
  · rw [virtualView_ptr, hp, toInt_of_lt hlt]
  · rw [virtualView_ptr, hp]
    exact fun e => hw (BitVec.eq_of_toNat_eq e)

/-- No block is left. -/
theorem supplied_full {s : Slot} (h : BlockInv (virtualView v ino n))
    (hb : ((view v.disk).inode ino).Behind n) (full : (view v.disk).full) :
    Supplied v ino n s (-1, n, v) :=
  ⟨.refl h, .refl, hb, .refl _ _, Or.inl ⟨by simp, full⟩⟩

theorem indirectEntry_alloc (h : BlockInv (virtualView v ino n)) (hf : (virtualView v ino n).isFile ino)
    (hb : ((view v.disk).inode ino).Behind n) (hz : n.indirect ≠ 0#32) (j : Fin 1024) :
    Supplied v ino n (.entry j) (indirectEntry v n j.val true) := by
  have hdata := (virtual_tame h hf).indirect hz
  have hptr : n.ptr (view v.disk).data (.entry j) =
      (((view v.disk).data n.indirect.toNat).word (4 * j.val)).toNat := by
    simp [Inode.ptr, hz]
  unfold indirectEntry
  rw [readBlock_data hdata]
  by_cases hw : ((view v.disk).data n.indirect.toNat).word (4 * j.val) = 0#32
  · simp only [hw, and_self, ↓reduceIte]
    rcases allocBlock_cases v with ⟨ha, full⟩ | ⟨b, ha, h6, h254, free⟩
    · rw [ha]
      exact supplied_full h hb full
    · have hne := ptr_indirect_ne h hf h6 h254 free
      have empty : (virtualView v ino n).ptr ino (.entry j) = 0 := by
        rw [virtualView_ptr, hptr, hw]
        rfl
      have g := grows_entry v ino j h6 h254 hz hdata hne
      have ext := g.grown h hf h6 h254 (by simpa [virtualView] using free) empty
      have behind : ((view ((takeBlock v b).write n.indirect.toNat
          (((view v.disk).data n.indirect.toNat).setWord (4 * j.val) (BitVec.ofNat 32 b))).2.disk).inode
            ino).Behind n := by
        rw [view_write hdata, View.setData_inode, take_inode h6 h254]
        exact hb
      have hrc := Dev.write_rc hdata.accepted (takeBlock v b)
        (((view v.disk).data n.indirect.toNat).setWord (4 * j.val) (BitVec.ofNat 32 b))
      rw [ha]
      simp only [hrc, Int.lt_irrefl, ↓reduceIte]
      refine ⟨ext, (takeBlock_writes v h6).trans (.single _ _ ?_), behind,
        (take_through h hf hb h6 h254 free).trans (.write _ hdata.accepted (ext.trails_self hf behind)),
        Or.inr ?_⟩
      · exact fun e => hz (BitVec.eq_of_toNat_eq e)
      · rw [g.ptr, if_pos rfl, Buf.word_setWord_self (by omega),
          toInt_of_lt (by rw [toNat_ofNat_small h254]; omega), toNat_ofNat_small h254]
        exact ⟨rfl, by omega⟩
  · simp only [hw, false_and, ↓reduceIte]
    exact supplied_present h hf hb hptr hw

/-- Taking a block for the indirect block, and zeroing it once more. -/
theorem indirect_taken {b : Nat} (h : BlockInv (virtualView v ino n))
    (hf : (virtualView v ino n).isFile ino) (hb : ((view v.disk).inode ino).Behind n)
    (hz : n.indirect = 0#32) (h6 : 6 ≤ b) (h254 : b < 254) (free : (view v.disk).bbit b = false) :
    let v' := ((takeBlock v b).write b Buf.zero).2
    let n' := { n with indirect := BitVec.ofNat 32 b }
    (virtualView v ino n).Extends ino (virtualView v' ino n') ∧
      ((view v'.disk).inode ino).Behind n' ∧ v.Through (Trails (virtualView v ino n) ino) v' := by
  have hd : IsData b := Or.inr ⟨h6, h254⟩
  have hview : view ((takeBlock v b).write b Buf.zero).2.disk =
      ((view v.disk).setBbit b true).setData b Buf.zero := by
    rw [view_write hd, view_takeBlock h6 h254]
    simp [View.setData]
  have hsame : virtualView ((takeBlock v b).write b Buf.zero).2 ino { n with indirect := BitVec.ofNat 32 b } =
      virtualView (takeBlock v b) ino { n with indirect := BitVec.ofNat 32 b } := by
    rw [virtualView, hview, virtualView, view_takeBlock h6 h254]
  have g := grows_indirect v ino h6 h254 hz
  refine ⟨?_, ?_, ?_⟩
  · rw [hsame]
    refine g.grown h hf h6 h254 (by simpa [virtualView] using free) ?_
    rw [virtualView_ptr, Inode.ptr, hz]
    rfl
  · rw [hview]
    -- the inode on disk had no indirect block, as its newer copy had none
    exact ⟨hb.mode, hb.direct, Or.inr (hb.indirect.elim (fun e => e.trans hz) id)⟩
  · exact (take_through h hf hb h6 h254 free).trans
      (.write _ hd.accepted (free_trails h hf hb h6 h254 free hview))

theorem direct_taken {b : Nat} (h : BlockInv (virtualView v ino n))
    (hf : (virtualView v ino n).isFile ino) (hb : ((view v.disk).inode ino).Behind n) (k : Fin 8)
    (hz : n.direct k = 0#32) (h6 : 6 ≤ b) (h254 : b < 254) (free : (view v.disk).bbit b = false) :
    Supplied v ino n (.direct k) ((BitVec.ofNat 32 b).toInt,
      { n with direct := Function.update n.direct k (BitVec.ofNat 32 b) }, takeBlock v b) := by
  have g := grows_direct v ino k h6 h254 (ptr_indirect_ne h hf h6 h254 free)
  refine ⟨g.grown h hf h6 h254 (by simpa [virtualView] using free) ?_, takeBlock_writes v h6, ?_,
    take_through h hf hb h6 h254 free, Or.inr ?_⟩
  · rw [virtualView_ptr, Inode.ptr, hz]
    rfl
  · rw [take_inode h6 h254]
    refine ⟨hb.mode, fun j => ?_, hb.indirect⟩
    by_cases hj : j = k
    · subst hj
      exact Or.inr ((hb.direct j).elim (fun e => e.trans hz) id)
    · dsimp only
      rw [Function.update_of_ne hj]
      exact hb.direct j
  · rw [g.ptr, if_pos rfl, toInt_of_lt (by rw [toNat_ofNat_small h254]; omega),
      toNat_ofNat_small h254]
    exact ⟨rfl, by omega⟩

theorem blockForInode_alloc (h : BlockInv (virtualView v ino n)) (hf : (virtualView v ino n).isFile ino)
    (hb : ((view v.disk).inode ino).Behind n) {l : Nat} {s : Slot} (hs : Slot.ofLogical l = some s) :
    Supplied v ino n s (blockForInode v n l true) := by
  unfold Slot.ofLogical at hs
  unfold blockForInode
  by_cases h8 : l < 8
  · simp only [h8, ↓reduceDIte, Option.some.injEq] at hs ⊢
    subst hs
    by_cases hw : n.direct ⟨l, h8⟩ = 0#32
    · simp only [hw, and_self, ↓reduceIte]
      rcases allocBlock_cases v with ⟨ha, full⟩ | ⟨b, ha, h6, h254, free⟩
      · rw [ha]
        exact supplied_full h hb full
      · rw [ha]
        exact direct_taken h hf hb ⟨l, h8⟩ hw h6 h254 free
    · simp only [hw, false_and, ↓reduceIte]
      exact supplied_present h hf hb rfl hw
  · by_cases h1024 : l - 8 < 1024
    · simp only [h8, h1024, ↓reduceDIte, Option.some.injEq] at hs
      subst hs
      simp only [h8, ↓reduceDIte, show ¬ 1024 ≤ l - 8 by omega, ↓reduceIte]
      by_cases hz : n.indirect = 0#32
      · simp only [hz, ↓reduceIte]
        rcases allocBlock_cases v with ⟨ha, full⟩ | ⟨b, ha, h6, h254, free⟩
        · rw [ha]
          exact supplied_full h hb full
        · obtain ⟨ext, behind, through⟩ := indirect_taken h hf hb hz h6 h254 free
          have hrc := Dev.write_rc (IsData.accepted (Or.inr ⟨h6, h254⟩)) (takeBlock v b) Buf.zero
          have sup := indirectEntry_alloc ext.inv ((ext.frame.isFile ino).mpr hf) behind
            (ofNat_ne_zero h6 h254) ⟨l - 8, h1024⟩
          rw [ha]
          simp only [hrc, Int.lt_irrefl, ↓reduceIte]
          exact ⟨ext.trans sup.ext,
            ((takeBlock_writes v h6).trans (.single _ _ (by omega))).trans sup.writes, sup.behind,
            through.trans (sup.through.imp fun d hd => ext.trails hd), sup.result⟩
      · simp only [hz, ↓reduceIte]
        exact indirectEntry_alloc h hf hb hz ⟨l - 8, h1024⟩
    · simp [h8, h1024] at hs

/-! ## The bitmap outside the pool -/

/-- Only marks of pool blocks have changed. -/
def PoolOnly (v v' : Dev) : Prop :=
  ∀ c, ¬ (6 ≤ c ∧ c < 254) → (view v'.disk).bbit c = (view v.disk).bbit c

theorem PoolOnly.refl (v : Dev) : PoolOnly v v := fun _ _ => rfl

theorem PoolOnly.trans {u v w : Dev} (h : PoolOnly u v) (h' : PoolOnly v w) : PoolOnly u w :=
  fun c hc => (h' c hc).trans (h c hc)

theorem PoolOnly.take {b : Nat} (h6 : 6 ≤ b) (h254 : b < 254) : PoolOnly v (takeBlock v b) := by
  intro c hc
  have hne : c ≠ b := by omega
  rw [view_takeBlock h6 h254, View.setData_bbit, View.setBbit_bbit, Function.update_of_ne hne]

theorem PoolOnly.write {b : Nat} (hd : IsData b) (blk : Block) : PoolOnly v (v.write b blk).2 := by
  intro c _
  rw [view_write hd, View.setData_bbit]

theorem indirectEntry_pool (hd : IsData n.indirect.toNat) (l : Nat) (allocate : Bool) :
    PoolOnly v (indirectEntry v n l allocate).2.2 := by
  unfold indirectEntry
  dsimp only
  split
  · rcases allocBlock_cases v with ⟨ha, -⟩ | ⟨b, ha, h6, h254, -⟩
    · rw [ha]
      exact .refl v
    · rw [ha]
      dsimp only
      split
      · exact (PoolOnly.take h6 h254).trans (.write hd _)
      · exact (PoolOnly.take h6 h254).trans (.write hd _)
  · exact .refl v

theorem blockForInode_pool (h : n.indirect ≠ 0#32 → IsData n.indirect.toNat) (l : Nat) (allocate : Bool) :
    PoolOnly v (blockForInode v n l allocate).2.2 := by
  unfold blockForInode
  split
  · split
    · rcases allocBlock_cases v with ⟨ha, -⟩ | ⟨b, ha, h6, h254, -⟩
      · rw [ha]
        exact .refl v
      · rw [ha]
        exact .take h6 h254
    · exact .refl v
  · split
    · exact .refl v
    · split
      · split
        · rcases allocBlock_cases v with ⟨ha, -⟩ | ⟨b, ha, h6, h254, -⟩
          · rw [ha]
            exact .refl v
          · have taken : PoolOnly v ((takeBlock v b).write b Buf.zero).2 :=
              (PoolOnly.take h6 h254).trans (.write (Or.inr ⟨h6, h254⟩) _)
            rw [ha]
            dsimp only
            split
            · exact taken
            · apply taken.trans
              apply indirectEntry_pool
              dsimp only
              rw [toNat_ofNat_small h254]
              exact Or.inr ⟨h6, h254⟩
        · exact .refl v
      · rename_i hz
        exact indirectEntry_pool (h hz) _ _

end

end SengOS
