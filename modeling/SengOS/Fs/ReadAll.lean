import SengOS.Fs.Isolation

/-!
# Reads deliver what the size promises

`fs_read` stops at the first logical block that is missing, and `fs_write` sets
the size from the offset of its descriptor without looking below it. A file is
solid if no block below its size is missing. Every call keeps its files solid
but one: a write at an offset that a truncation through another descriptor has
left beyond the blocks of the file.
-/

namespace SengOS

/-- `block_for_inode(in, l, 0)` finds a block. -/
def hasBlock (d : Disk) (ino l : Nat) : Prop :=
  0 < (blockForInode ⟨d, []⟩ (inodeRead d ino) l false).1

instance (d : Disk) (ino l : Nat) : Decidable (hasBlock d ino l) := inferInstanceAs (Decidable (0 < _))

namespace View

variable (v : View)

/-- Logical block `l` of inode `i` is there. -/
def allocated (i l : Nat) : Prop := ∃ s, Slot.ofLogical l = some s ∧ v.ptr i s ≠ 0

/-- No block below the size is missing. -/
def Solid (i : Nat) : Prop := ∀ l, 4096 * l < (v.inode i).size.toNat → v.allocated i l

end View

theorem hasBlock_iff {d : Disk} (h : BlockInv (view d)) {i : Nat} (hl : (view d).live i) (l : Nat) :
    hasBlock d i l ↔ (view d).allocated i l := by
  have tame := h.tame_read hl
  unfold hasBlock View.allocated
  rw [blockForInode_read (v := ⟨d, []⟩) tame, view_inode hl.1]
  cases Slot.ofLogical l with
  | none => simp
  | some s =>
    change (0 : Int) < ((view d).ptr i s : Int) ↔ _
    constructor
    · exact fun hp => ⟨s, rfl, by omega⟩
    · rintro ⟨t, ht, hne⟩
      cases ht
      omega

/-! ## Calls that leave a file alone -/

section
variable {u v : View}

theorem View.Solid.congr {i : Nat} (h : u.Solid i) (hn : v.inode i = u.inode i)
    (hp : ∀ s, v.ptr i s = u.ptr i s) : v.Solid i := by
  intro l hl
  rw [hn] at hl
  obtain ⟨s, hs, hne⟩ := h l hl
  exact ⟨s, hs, by rwa [hp s]⟩

theorem View.Solid.agrees {i : Nat} (h : u.Solid i) (ha : u.Agrees v i) : v.Solid i :=
  h.congr ha.inode ha.ptr

/-- A file without bytes is solid. -/
theorem View.solid_empty {i : Nat} (h : (v.inode i).size = 0#32) : v.Solid i := by
  intro l hl
  rw [h] at hl
  exact absurd hl (Nat.not_lt_zero _)

/-- Every file is solid. -/
def View.AllSolid (v : View) : Prop := ∀ i, v.isFile i → v.Solid i

theorem View.Untouched.solid (h : u.Untouched v) (hu : BlockInv u) (hs : u.AllSolid) : v.AllSolid := by
  intro i hf
  have hf' := ((h.same hu).isFile i).mp hf
  exact (hs i hf').agrees (h.agrees i hf'.1)

theorem View.Created.solid {q slot ino b : Nat} {x : List Byte} {mode : Word}
    (c : u.Created v q slot ino b x mode) (hu : BlockInv u) (hs : u.AllSolid) : v.AllSolid := by
  intro i hf
  rcases (c.isFile i).mp hf with hf' | ⟨rfl, -⟩
  · exact (hs i hf').congr (c.inode_old hf'.1) (c.ptr_old hu hf'.1)
  · exact View.solid_empty (by rw [c.inode_new]; rfl)

theorem View.Removed.solid {q slot ino : Nat} {x : List Byte} (r : u.Removed v q slot ino x)
    (hu : BlockInv u) (hs : u.AllSolid) : v.AllSolid := by
  intro i hf
  obtain ⟨hf', hne⟩ := (r.isFile i).mp hf
  exact (hs i hf').congr (r.inode_old hne) (r.ptr_old hu hf'.1 hne)

/-- What happens inside one file matters to that file only. -/
theorem View.Frame.solid {ino : Nat} (fr : u.Frame ino v) (hs : u.AllSolid) (hino : v.Solid ino) :
    v.AllSolid := by
  intro i hf
  by_cases hi : i = ino
  · exact hi ▸ hino
  · have hf' := (fr.isFile i).mp hf
    exact (hs i hf').agrees (fr.agrees hf'.1 hi)

end

namespace FsState

/-! ## `fs_write` -/

/-- What the loop of `fs_write` keeps: the slots that were filled are filled,
and so are those of the bytes written so far. -/
structure Filled (u : View) (ino o : Nat) (w : WriteState) : Prop where
  keep : ∀ t, u.ptr ino t ≠ 0 → (w.view ino).ptr ino t ≠ 0
  new : ∀ p, o ≤ p → p < o + w.done → (w.view ino).allocated ino (p / 4096)
  below : w.done ≠ 0 → o / 4096 < 248

theorem filled_turn {u : View} {v₀ : Dev} {ino o : Nat} {buf : Nat → Byte} (hf : u.isFile ino) :
    TurnKeeps u v₀ ino o buf (Filled u ino o) := by
  constructor
  · intro w s _ hp _ sup
    have grown (t : Slot) (ht : (w.view ino).ptr ino t ≠ 0) :
        (virtualView (blockForInode w.dev w.inode (w.offset.toNat / 4096) true).2.2 ino
          (blockForInode w.dev w.inode (w.offset.toNat / 4096) true).2.1).ptr ino t ≠ 0 := by
      rw [sup.ext.keep t ht]
      exact ht
    refine ⟨fun t ht => grown t (hp.keep t ht), fun p h1 h2 => ?_, hp.below⟩
    obtain ⟨t, hs, ht⟩ := hp.new p h1 h2
    exact ⟨t, hs, grown t ht⟩
  · intro w s b take hw hp hs hb hb0 hfit hlim
    have file := (hw.frame.isFile ino).mpr hf
    have hpos : (w.view ino).ptr ino s ≠ 0 := by rwa [hb]
    have data : IsData b := hb ▸ hw.inv.ptr_data file.1 hpos
    have hsi : s ≠ .indirect := by
      rintro rfl
      exact Slot.ofLogical_ne_indirect hs
    have same (t : Slot) : ((w.advance b buf take).view ino).ptr ino t = (w.view ino).ptr ino t := by
      rw [WriteState.advance_view buf take hb data]
      exact (View.putBlock_same hw.inv file hsi hpos _ _).ptr file.1 t
    have hoff := hw.offset
    refine ⟨fun t ht => ?_, fun p h1 h2 => ?_, fun _ => by omega⟩
    · rw [same]
      exact hp.keep t ht
    · change p < o + (w.done + take) at h2
      by_cases hlt : p < o + w.done
      · obtain ⟨t, ht, hne⟩ := hp.new p h1 hlt
        exact ⟨t, ht, by rwa [same]⟩
      · have hdiv : p / 4096 = w.offset.toNat / 4096 := by omega
        exact ⟨s, by rw [hdiv]; exact hs, by rwa [same]⟩

/-- A byte would be stored at an offset with a logical block missing below it. -/
def SkipsBlock (s : FsState) : FsOp → Prop
  | .write fd (some _) count => ∃ i, s.fdIndex fd = some i ∧ (s.fds i).flags &&& 3#32 ≠ 0#32 ∧
      count ≠ 0#32 ∧ (s.fds i).offset.toNat / 4096 < 248 ∧
      ∃ l, l < (s.fds i).offset.toNat / 4096 ∧ ¬ hasBlock s.dev.disk (s.fds i).inode.toNat l
  | _ => False

theorem fsWrite_solid {s : FsState} (h : s.Inv) (hs : (view s.dev.disk).AllSolid) {fd : Int}
    {buf : Option (Nat → Byte)} {count : Word} (hn : ¬ s.SkipsBlock (.write fd buf count)) :
    (view (s.fsWrite fd buf count).2.dev.disk).AllSolid := by
  rcases h.fsWrite_guards fd buf count with hw | ⟨i, d, hi, rfl, hm, hf⟩
  · rw [hw]
    exact hs
  · have hb := h.fs.toBlockInv
    have hn₀ := view_inode hf.1.1 s.dev.disk
    have start : Filled (view s.dev.disk) (s.fds i).inode.toNat (s.fds i).offset.toNat
        ⟨s.dev, inodeRead s.dev.disk (s.fds i).inode.toNat, 0, (s.fds i).offset⟩ := by
      refine ⟨fun t ht => ?_, fun p h1 h2 => ?_, fun hne => absurd rfl hne⟩
      · rw [WriteState.view, virtualView_ptr, hn₀]
        exact ht
      · change p < (s.fds i).offset.toNat + 0 at h2
        omega
    obtain ⟨w, done, filled, hw⟩ := fsWrite_loop hi hm hb hf d count (filled_turn hf) start
    have hv := done.view_stored hf.1.1
    rw [hw]
    dsimp only
    rw [hv]
    refine done.frame.solid hs fun l hl => ?_
    have kept (hold : (view s.dev.disk).allocated (s.fds i).inode.toNat l) :
        (w.view (s.fds i).inode.toNat).allocated (s.fds i).inode.toNat l := by
      obtain ⟨t, ht, hne⟩ := hold
      exact ⟨t, ht, filled.keep t hne⟩
    rw [WriteState.view, virtualView_inode, done.size] at hl
    by_cases hold : 4096 * l < ((view s.dev.disk).inode (s.fds i).inode.toNat).size.toNat
    · exact kept (hs _ hf l hold)
    · have hk : w.done ≠ 0 := by
        intro e
        rw [if_pos e] at hl
        exact hold hl
      rw [if_neg hk] at hl
      have hle := done.le
      by_cases hlow : l < (s.fds i).offset.toNat / 4096
      · apply kept
        rw [← hasBlock_iff hb hf.1]
        by_contra hmiss
        refine hn ⟨i, hi, hm, ?_, filled.below hk, l, hlow, hmiss⟩
        rintro rfl
        exact hk (Nat.le_zero.mp hle)
      · have hp := filled.new (max (s.fds i).offset.toNat (4096 * l)) (by omega) (by omega)
        have hdiv : max (s.fds i).offset.toNat (4096 * l) / 4096 = l := by omega
        rwa [hdiv] at hp

/-! ## The other calls -/

section
variable {s : FsState}

theorem openInode_solid (h : s.Inv) (hs : (view s.dev.disk).AllSolid) {ino : Nat}
    (hl : (view s.dev.disk).live ino) (flags : Word) :
    (view (s.openInode ino flags).2.dev.disk).AllSolid := by
  have trunc (hm : (inodeRead s.dev.disk ino).mode = inodeFile) :
      (view (s.truncated ino flags).dev.disk).AllSolid := by
    rw [view_inode hl.1] at hm
    unfold truncated
    split
    · dsimp only
      rw [view_truncate h.fs.toBlockInv ⟨hl, hm⟩]
      apply (View.emptied_frame _ _).solid hs
      apply View.solid_empty
      rw [View.emptied, View.setInode_inode, Function.update_self]
      rfl
    · exact hs
  rcases s.openInode_cases ino flags with ⟨-, ho⟩ | ⟨hm, ⟨ho, -⟩ | ⟨i, offset, -, -, ho⟩⟩
  · rw [ho]
    exact hs
  · rw [ho]
    exact trunc hm
  · rw [ho]
    exact trunc hm

theorem fsOpen_solid (h : s.Inv) (hs : (view s.dev.disk).AllSolid) (path : Option CStr) (flags : Word) :
    (view (s.fsOpen path flags).2.dev.disk).AllSolid := by
  have hb := h.fs.toBlockInv
  rcases h.fsOpen_cases path flags with ⟨rc, -, ho⟩ | ⟨p, ino, -, -, hl, ho⟩ |
    ⟨p, q, x, -, -, -, -, hord, c, ho⟩
  · rw [ho]
    exact hs
  · rw [ho]
    exact openInode_solid h hs hl flags
  · rw [ho]
    rcases hmade : createInode s.dev q x inodeFile with ⟨rc | ino, v⟩
    · exact (createInode_untouched hb hmade).solid hb hs
    · rw [hmade] at c
      cases c with
      | created c hw _ =>
        exact openInode_solid (h.created c hord hw) (c.solid hb hs) ((c.live ino).mpr (Or.inr rfl)) flags

theorem fsMkdir_solid (h : s.Inv) (hs : (view s.dev.disk).AllSolid) (path : Option CStr) :
    (view (s.fsMkdir path).2.dev.disk).AllSolid := by
  have hb := h.fs.toBlockInv
  rcases h.fsMkdir_cases path with ⟨rc, -, hm⟩ | ⟨p, q, x, -, -, -, c, hm, -⟩
  · rw [hm]
    exact hs
  · rw [hm]
    rcases hmade : createInode s.dev q x inodeDir with ⟨rc | ino, v⟩
    · exact (createInode_untouched hb hmade).solid hb hs
    · rw [hmade] at c
      cases c with
      | created c _ _ => exact c.solid hb hs

theorem fsUnlink_solid (h : s.Inv) (hs : (view s.dev.disk).AllSolid) (path : Option CStr) :
    (view (s.fsUnlink path).2.dev.disk).AllSolid := by
  rcases h.fsUnlink_cases path with ⟨rc, -, hu⟩ | ⟨p, q, slot, ino, x, -, un, hu⟩
  · rw [hu]
    exact hs
  · rw [hu]
    exact (un.removed h).solid h.fs.toBlockInv hs

theorem step_solid (h : s.Inv) (hs : (view s.dev.disk).AllSolid) {op : FsOp} (hn : ¬ s.SkipsBlock op) :
    (view (s.step op).dev.disk).AllSolid := by
  cases op with
  | «open» path flags => exact fsOpen_solid h hs path flags
  | read fd buf count =>
    rw [step, fsRead_dev]
    exact hs
  | write fd buf count => exact fsWrite_solid h hs hn
  | close fd =>
    rw [step, fsClose_dev]
    exact hs
  | unlink path => exact fsUnlink_solid h hs path
  | mkdir path => exact fsMkdir_solid h hs path
  | chdir path =>
    rw [step, fsChdir_dev]
    exact hs

end

/-- A run in which no open file is unlinked and no write skips a block. -/
inductive SolidRun : FsState → Prop
  | init : SolidRun (fsInit boot)
  | step {s : FsState} (op : FsOp) : SolidRun s → s.Allowed op → ¬ s.SkipsBlock op → SolidRun (s.step op)

theorem SolidRun.inv {s : FsState} (h : SolidRun s) : s.Inv ∧ (view s.dev.disk).AllSolid := by
  induction h with
  | init =>
    refine ⟨fsInit_blank_inv, fun i hf => ?_⟩
    rw [fsInit_blank_view] at hf
    exact absurd ((emptyView_isDir i).mpr ((emptyView_live i).mp hf.1))
      (emptyView_inv.file_not_dir hf)
  | step op _ ha hn ih => exact ⟨step_inv ih.1 op ha, step_solid ih.1 ih.2 hn⟩

/-! ## `fs_read` -/

/-- Bytes `o`, `o + 1`, .. of a file. -/
def fileBytes (d : Disk) (ino o n : Nat) : List Byte := (List.range n).map fun k => fileByte d ino (o + k)

theorem fileBytes_append (d : Disk) (ino o m n : Nat) :
    fileBytes d ino o (m + n) = fileBytes d ino o m ++ fileBytes d ino (o + m) n := by
  simp only [fileBytes, List.range_add, List.map_append, List.map_map, Function.comp_def, Nat.add_assoc]

/-- In a solid file the loop of `fs_read` is not cut short. -/
theorem readLoop_solid {v : Dev} (h : BlockInv (view v.disk)) {ino : Nat} (hl : (view v.disk).live ino)
    (hs : (view v.disk).Solid ino) (fuel left : Nat) (offset : Word) (hfuel : left ≤ fuel)
    (hle : offset.toNat + left ≤ ((view v.disk).inode ino).size.toNat) :
    (readLoop v (inodeRead v.disk ino) fuel left offset).1.length = left ∧
      (readLoop v (inodeRead v.disk ino) fuel left offset).2.toNat = offset.toNat + left := by
  have tame := h.tame_read hl
  have hsize := ((view v.disk).inode ino).size.isLt
  induction fuel generalizing left offset with
  | zero =>
    obtain rfl : left = 0 := by omega
    exact ⟨rfl, rfl⟩
  | succ fuel ih =>
    rw [readLoop]
    by_cases h0 : left = 0
    · rw [if_pos h0, h0]
      exact ⟨rfl, rfl⟩
    obtain ⟨t, ht, hne⟩ := hs (offset.toNat / 4096) (by omega)
    have hptr : (inodeRead v.disk ino).ptr (view v.disk).data t = (view v.disk).ptr ino t := by
      rw [view_inode hl.1]
      rfl
    rw [if_neg h0, blockForInode_read tame, ht]
    dsimp only
    rw [hptr, if_neg (by omega)]
    have hoff : (offset + BitVec.ofNat 32 (min (4096 - offset.toNat % 4096) left)).toNat =
        offset.toNat + min (4096 - offset.toNat % 4096) left := by
      rw [BitVec.toNat_add, BitVec.toNat_ofNat]
      omega
    obtain ⟨len, off⟩ := ih (left - min (4096 - offset.toNat % 4096) left)
      (offset + BitVec.ofNat 32 (min (4096 - offset.toNat % 4096) left)) (by omega) (by rw [hoff]; omega)
    rw [List.length_append, List.length_map, List.length_range, len, off, hoff]
    omega

section
variable {s : FsState} {i : Nat}

/-- A read before the end of a solid file delivers all it can. -/
theorem fsRead_solid (h : s.Inv) (hs : (view s.dev.disk).AllSolid) (hi : i < 16)
    (hu : (s.fds i).used = true) (count : Word) {size n : Nat}
    (hsize : (inodeRead s.dev.disk (s.fds i).inode.toNat).size.toNat = size)
    (ho : (s.fds i).offset.toNat < size) (hn : n = min count.toNat (size - (s.fds i).offset.toNat)) :
    ∃ o, s.fsRead i true count = ((n : Int),
        fileBytes s.dev.disk (s.fds i).inode.toNat (s.fds i).offset.toNat n,
        { s with fds := Function.update s.fds i { s.fds i with offset := o } }) ∧
      o.toNat = (s.fds i).offset.toNat + n := by
  have hb := h.fs.toBlockInv
  have hf := h.fds i hi hu
  have hmode := mode_of_isFile hf
  have hview : ((view s.dev.disk).inode (s.fds i).inode.toNat).size.toNat = size := by
    rw [← view_inode hf.1.1]
    exact hsize
  obtain ⟨len, off⟩ := readLoop_solid hb hf.1 (hs _ hf) n n (s.fds i).offset (Nat.le_refl n)
    (by rw [hview]; omega)
  have bytes : (readLoop s.dev (inodeRead s.dev.disk (s.fds i).inode.toNat) n n (s.fds i).offset).1 =
      fileBytes s.dev.disk (s.fds i).inode.toNat (s.fds i).offset.toNat n := by
    apply List.ext_getElem?
    intro k
    have hlt := ((view s.dev.disk).inode (s.fds i).inode.toNat).size.isLt
    by_cases hk : k < n
    · rw [readLoop_bytes hb hf.1 n n _ (by omega) k (by rw [len]; exact hk), fileBytes,
        List.getElem?_map, List.getElem?_range hk]
      rfl
    · rw [List.getElem?_eq_none (by rw [len]; omega), List.getElem?_eq_none (by simp [fileBytes]; omega)]
  refine ⟨_, ?_, off⟩
  simp only [fsRead, fdIndex_used hi hu, hmode, Bool.not_true, Bool.false_eq_true, ne_eq,
    not_true_eq_false, ↓reduceIte, hsize, Nat.not_le.mpr ho]
  rw [← hn, len, bytes]

theorem fsRead_end (h : s.Inv) (hi : i < 16) (hu : (s.fds i).used = true) (count : Word)
    (ho : (inodeRead s.dev.disk (s.fds i).inode.toNat).size.toNat ≤ (s.fds i).offset.toNat) :
    s.fsRead i true count = (0, [], s) := by
  have hf := h.fds i hi hu
  have hmode := mode_of_isFile hf
  simp only [fsRead, fdIndex_used hi hu, hmode, Bool.not_true, Bool.false_eq_true, ne_eq,
    not_true_eq_false, ↓reduceIte, ho]

end

/-- The loop of `cmd_cat`, with a count of its own at every turn: what is read
until `fs_read` returns 0. It is `none` after a read error. -/
def readUntilZero (fd : Int) (counts : Nat → Word) : Nat → FsState → Option (List Byte × FsState)
  | 0, _ => none
  | fuel + 1, s =>
    match s.fsRead fd true (counts fuel) with
    | (n, bytes, s) =>
      if n < 0 then none
      else if n = 0 then some ([], s)
      else (readUntilZero fd counts fuel s).map fun r => (bytes ++ r.1, r.2)

theorem readUntilZero_solid {s : FsState} (h : s.Inv) (hs : (view s.dev.disk).AllSolid) {i : Nat}
    (hi : i < 16) (hu : (s.fds i).used = true) {counts : Nat → Word} (hc : ∀ k, 0 < (counts k).toNat)
    {size : Nat} (hsize : (inodeRead s.dev.disk (s.fds i).inode.toNat).size.toNat = size) (fuel : Nat)
    (hfuel : size - (s.fds i).offset.toNat < fuel) :
    ∃ t, readUntilZero i counts fuel s = some (fileBytes s.dev.disk (s.fds i).inode.toNat
      (s.fds i).offset.toNat (size - (s.fds i).offset.toNat), t) := by
  induction fuel generalizing s with
  | zero => omega
  | succ fuel ih =>
    rw [readUntilZero]
    by_cases ho : (s.fds i).offset.toNat < size
    · have hpos := hc fuel
      obtain ⟨n, hn⟩ : ∃ n, n = min (counts fuel).toNat (size - (s.fds i).offset.toNat) := ⟨_, rfl⟩
      obtain ⟨o, hr, hoff⟩ := fsRead_solid h hs hi hu (counts fuel) hsize ho hn
      have inv := fsRead_inv h i true (counts fuel)
      rw [hr] at inv ⊢
      have fd : Function.update s.fds i { s.fds i with offset := o } i = { s.fds i with offset := o } :=
        Function.update_self ..
      obtain ⟨t, ht⟩ := ih inv hs (by dsimp only; rw [fd]; exact hu) (by dsimp only; rw [fd]; exact hsize)
        (by dsimp only; rw [fd]; dsimp only; omega)
      dsimp only at ht ⊢
      rw [fd] at ht
      dsimp only at ht
      refine ⟨t, ?_⟩
      rw [if_neg (by omega), if_neg (by omega), ht, Option.map_some, hoff, ← fileBytes_append]
      congr 3
      omega
    · have hz : size - (s.fds i).offset.toNat = 0 := by omega
      rw [fsRead_end h hi hu _ (by omega), hz]
      exact ⟨s, rfl⟩

/-- In a run that skips no block, reads deliver what the size promises. -/
theorem solidRun_reads {s : FsState} (h : SolidRun s) {fd : Nat} (hfd : fd < 16)
    (hu : (s.fds fd).used = true) :
    let ino := (s.fds fd).inode.toNat
    let size := (inodeRead s.dev.disk ino).size.toNat
    let o := (s.fds fd).offset.toNat
    (∀ n : Word, o < size → (s.fsRead fd true n).1 = min n.toNat (size - o)) ∧
    ∀ counts : Nat → Word, (∀ k, 0 < (counts k).toNat) → ∀ fuel, size - o < fuel →
      ∃ bytes t, readUntilZero fd counts fuel s = some (bytes, t) ∧ bytes.length = size - o ∧
        bytes = fileBytes s.dev.disk ino o (size - o) := by
  obtain ⟨inv, solid⟩ := h.inv
  refine ⟨fun n ho => ?_, fun counts hc fuel hfuel => ?_⟩
  · obtain ⟨o, hr, -⟩ := fsRead_solid inv solid hfd hu n rfl ho rfl
    rw [hr]
  · obtain ⟨t, ht⟩ := readUntilZero_solid inv solid hfd hu hc rfl fuel hfuel
    exact ⟨_, t, ht, by rw [fileBytes, List.length_map, List.length_range], rfl⟩

/-- Three bytes are in "d", and descriptor 1 is at its start. -/
def reopenedD : FsState :=
  (openedD.step (.write 0 (some fun _ => 0x58#8) 3#32)).step (.open (some nameD) 0#32)

theorem reopenedD_run : SolidRun reopenedD := by
  refine .step _ (.step _ (.step (.open (some nameD) 0x102#32) .init trivial id) trivial ?_) trivial id
  rintro ⟨i, hi, -, -, -, l, hl, -⟩
  have first : openedD.fdIndex 0 = some 0 := fdIndex_used (i := 0) (by decide) openedD_used.1
  have same : openedD.fdIndex 0 = some i := hi
  rw [first] at same
  cases same
  have zero : (openedD.fds 0).offset = 0#32 := openedD_used.2.2
  change l < (openedD.fds 0).offset.toNat / 4096 at hl
  rw [zero] at hl
  exact absurd hl (Nat.not_lt_zero l)

theorem reopenedD_facts : (reopenedD.fds 1).used = true ∧ (reopenedD.fds 1).offset = 0#32 ∧
    (inodeRead reopenedD.dev.disk (reopenedD.fds 1).inode.toNat).size = 3#32 := by
  decide +kernel

/-- Reading two bytes gives two, and the loop of `cmd_cat` gives three. -/
theorem reopenedD_reads : (reopenedD.fsRead 1 true 2#32).1 = 2 ∧
    ∃ bytes t, readUntilZero 1 (fun _ => 127#32) 4 reopenedD = some (bytes, t) ∧ bytes.length = 3 := by
  obtain ⟨used, offset, size⟩ := reopenedD_facts
  have reads := solidRun_reads reopenedD_run (show 1 < 16 by decide) used
  dsimp only at reads
  rw [offset, size] at reads
  refine ⟨reads.1 2#32 (by decide), ?_⟩
  obtain ⟨bytes, t, hr, len, -⟩ := reads.2 (fun _ => 127#32) (fun _ => by decide) 4 (by decide)
  exact ⟨bytes, t, hr, len⟩

/-- "d" gets 4096 bytes through descriptor 0, is truncated through descriptor 1,
and gets one more byte through descriptor 0, whose offset is still 4096. -/
def skippedD : FsState :=
  ((openedD.step (.write 0 (some fun _ => 0x58#8) 4096#32)).step (.open (some nameD) 0x202#32)).step
    (.write 0 (some fun _ => 0x59#8) 1#32)

/-- The size is 4097, and a read of one byte from the start gives nothing. -/
theorem skippedD_read : Reachable skippedD ∧ (skippedD.fds 1).used = true ∧
    (skippedD.fds 1).offset.toNat < (inodeRead skippedD.dev.disk (skippedD.fds 1).inode.toNat).size.toNat ∧
    (skippedD.fsRead 1 true 1#32).1 ≠ min (1#32).toNat
      ((inodeRead skippedD.dev.disk (skippedD.fds 1).inode.toNat).size.toNat -
        (skippedD.fds 1).offset.toNat) := by
  have run : (skippedD.fds 1).used = true ∧ (skippedD.fds 1).offset = 0#32 ∧
      (inodeRead skippedD.dev.disk (skippedD.fds 1).inode.toNat).size = 4097#32 ∧
      (skippedD.fsRead 1 true 1#32).1 = 0 := by
    decide +kernel
  obtain ⟨used, offset, size, read⟩ := run
  rw [offset, size, read]
  refine ⟨?_, used, by decide, by decide⟩
  exact .step _ (.step _ (.step _ (.step (.open (some nameD) 0x102#32) .init trivial) trivial) trivial) trivial

end FsState

end SengOS
