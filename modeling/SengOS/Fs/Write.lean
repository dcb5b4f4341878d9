import SengOS.Fs.Grow

/-!
# Writing a file

The loop of `fs_write` against the byte-array meaning of a file. Between two
turns of the loop the caller's copy of the inode is ahead of the disk, so the
loop invariant is about the virtual view; `inode_write` at the end makes the
virtual view the real one.
-/

namespace SengOS

/-! ## One block of one file -/

/-- The contents block in slot `s` is replaced and the size of the file set. -/
def View.putBlock (v : View) (ino : Nat) (s : Slot) (blk : Block) (size : Word) : View :=
  (v.setData (v.ptr ino s) blk).setInode ino { v.inode ino with size := size }

section
variable {v : View} {ino : Nat} {s : Slot}

/-- A contents block is neither a directory nor a pointer block. -/
theorem BlockInv.content_not_structural (h : BlockInv v) (hf : v.isFile ino) (hs : s ≠ .indirect)
    (hp : v.ptr ino s ≠ 0) : ¬ v.structural (v.ptr ino s) := by
  rintro (⟨i, hd, e⟩ | ⟨i, hl, -, e⟩)
  · have hi := (h.own.inj ino s i (.direct 0) hf.1 hd.1 hp e.symm).1
    subst hi
    exact h.file_not_dir hf hd
  · exact hs (h.own.inj ino s i .indirect hf.1 hl hp e.symm).2

theorem View.putBlock_same (h : BlockInv v) (hf : v.isFile ino) (hs : s ≠ .indirect)
    (hp : v.ptr ino s ≠ 0) (blk : Block) (size : Word) : v.Same (v.putBlock ino s blk size) := by
  have inode (i : Nat) : (v.putBlock ino s blk size).inode i =
      if i = ino then { v.inode ino with size := size } else v.inode i := by
    simp [View.putBlock, Function.update_apply]
  refine ⟨fun _ => rfl, fun _ => Iff.rfl, ?_, ?_, ?_, ?_⟩
  · intro i _
    rw [inode i]
    split <;> simp_all
  · intro i _
    rw [inode i]
    split <;> simp_all
  · intro i _
    rw [inode i]
    split <;> simp_all
  · intro b hb
    have hne : b ≠ v.ptr ino s := by
      rintro rfl
      exact h.content_not_structural hf hs hp hb
    simp [View.putBlock, Function.update_of_ne hne]

theorem View.putBlock_frame (h : BlockInv v) (hf : v.isFile ino) (blk : Block) (size : Word) :
    v.Frame ino (v.putBlock ino s blk size) := by
  refine ⟨rfl, ?_, ?_, ?_⟩
  · intro j hj
    simp [View.putBlock, Function.update_of_ne hj]
  · simp [View.putBlock]
  · intro j t hl hj ht
    have hne : v.ptr j t ≠ v.ptr ino s := fun e => hj (h.own.inj j t ino s hl hf.1 ht e).1
    simp [View.putBlock, Function.update_of_ne hne]

theorem View.putBlock_byteAt (h : BlockInv v) (hf : v.isFile ino) (hp : v.ptr ino s ≠ 0) {l : Nat}
    (hl : Slot.ofLogical l = some s) (blk : Block) (size : Word) (p : Nat) :
    (v.putBlock ino s blk size).byteAt ino p =
      if p / 4096 = l then blk.get (p % 4096) else v.byteAt ino p := by
  have hs : s ≠ .indirect := by
    rintro rfl
    exact Slot.ofLogical_ne_indirect hl
  have same := View.putBlock_same h hf hs hp blk size
  unfold View.byteAt
  cases ht : Slot.ofLogical (p / 4096) with
  | none =>
    have hne : p / 4096 ≠ l := by
      rintro rfl
      rw [hl] at ht
      cases ht
    simp [hne]
  | some t =>
    simp only [same.ptr hf.1]
    by_cases he : p / 4096 = l
    · rw [he, hl] at ht
      cases ht
      simp [he, hp, View.putBlock]
    · have hts : t ≠ s := by
        rintro rfl
        exact he (Slot.ofLogical_inj ht hl)
      simp only [he, ↓reduceIte]
      split
      · rfl
      · rename_i hz
        have hne : v.ptr ino t ≠ v.ptr ino s := fun e =>
          hts (h.own.inj ino t ino s hf.1 hf.1 hz e).2
        simp [View.putBlock, Function.update_of_ne hne]

end

namespace FsState

theorem get_patch (blk : Block) (off take j : Nat) (src : Nat → Byte) (hj : j < 4096) :
    (patch blk off take src).get j = if off ≤ j ∧ j < off + take then src (j - off) else blk.get j := by
  simp [patch, Buf.get, hj]

/-! ## The loop -/

/-- The file as the loop sees it. -/
def WriteState.view (w : WriteState) (ino : Nat) : View := virtualView w.dev ino w.inode

/-- After `w.done` bytes from `buf` at offset `o`, starting from view `u`. -/
structure Written (u : View) (v₀ : Dev) (ino o : Nat) (buf : Nat → Byte) (w : WriteState) : Prop where
  inv : BlockInv (w.view ino)
  frame : u.Frame ino (w.view ino)
  bbit : ∀ b, u.bbit b = true → (w.view ino).bbit b = true
  writes : v₀.Writes w.dev
  behind : ((SengOS.view w.dev.disk).inode ino).Behind w.inode
  through : v₀.Through (Trails u ino) w.dev
  offset : w.offset.toNat = o + w.done
  size : w.inode.size.toNat =
    if w.done = 0 then (u.inode ino).size.toNat else max (u.inode ino).size.toNat (o + w.done)
  byte : ∀ p, (w.view ino).byteAt ino p =
    if o ≤ p ∧ p < o + w.done then buf (p - o) else u.byteAt ino p

section
variable {u : View} {v₀ : Dev} {ino o : Nat} {buf : Nat → Byte} {w : WriteState}

theorem Written.trails (h : Written u v₀ ino o buf w) {d : Disk} (hd : Trails (w.view ino) ino d) :
    Trails u ino d := by
  obtain ⟨v, hv, fr, hb, hc⟩ := hd
  exact ⟨v, hv, h.frame.trans fr, fun b hu => hb b (h.bbit b hu), hc⟩

/-- An allocation on behalf of the file, whether it succeeds or not. -/
theorem Written.supplied (h : Written u v₀ ino o buf w) {s : Slot} {r : Int × Inode × Dev}
    (sup : Supplied w.dev ino w.inode s r) :
    Written u v₀ ino o buf { w with dev := r.2.2, inode := r.2.1 } := by
  have hsize : r.2.1.size = w.inode.size := by
    have := sup.ext.size
    rwa [virtualView_inode, virtualView_inode] at this
  refine ⟨sup.ext.inv, h.frame.trans sup.ext.frame, fun b hb => sup.ext.bbit b (h.bbit b hb),
    h.writes.trans sup.writes, sup.behind, h.through.trans (sup.through.imp fun d hd => h.trails hd),
    h.offset, ?_, ?_⟩
  · rw [hsize]
    exact h.size
  · intro p
    exact (sup.ext.byte p).trans (h.byte p)

/-- The state after a turn of the loop that wrote `take` bytes into block `b`. -/
def WriteState.advance (w : WriteState) (b : Nat) (buf : Nat → Byte) (take : Nat) : WriteState :=
  let offset := w.offset + BitVec.ofNat 32 take
  { dev := (w.dev.write b (patch (readBlock w.dev.disk b) (w.offset.toNat % 4096) take
      (fun i => buf (w.done + i)))).2
    inode := if w.inode.size.toNat < offset.toNat then { w.inode with size := offset } else w.inode
    done := w.done + take
    offset := offset }

theorem WriteState.advance_view (buf : Nat → Byte) (take : Nat) {s : Slot} {b : Nat}
    (hb : (w.view ino).ptr ino s = b)
    (hd : IsData b) :
    (w.advance b buf take).view ino = (w.view ino).putBlock ino s
      (patch ((w.view ino).data b) (w.offset.toNat % 4096) take (fun i => buf (w.done + i)))
      (w.advance b buf take).inode.size := by
  have hinode : (w.advance b buf take).inode =
      { w.inode with size := (w.advance b buf take).inode.size } := by
    unfold WriteState.advance
    dsimp only
    split <;> rfl
  have hdata : (w.view ino).data b = readBlock w.dev.disk b := (readBlock_data hd _).symm
  rw [WriteState.view, virtualView, View.putBlock, hb, hdata, hinode]
  change (SengOS.view (w.dev.write b _).2.disk).setInode ino _ = _
  rw [view_write hd]
  simp [WriteState.view, virtualView, View.setInode, View.setData]

theorem WriteState.advance_size (b : Nat) (buf : Nat → Byte) {take : Nat}
    (hoff : (w.offset + BitVec.ofNat 32 take).toNat = w.offset.toNat + take) :
    (w.advance b buf take).inode.size.toNat = max w.inode.size.toNat (w.offset.toNat + take) := by
  unfold WriteState.advance
  simp only [hoff]
  split
  · rw [hoff]
    omega
  · omega

/-- The bytes of the file after the turn: those of the block are patched, the others stay. -/
theorem Written.advance_byte (h : Written u v₀ ino o buf w) (hf : (w.view ino).isFile ino) {s : Slot}
    {b take : Nat} (hs : Slot.ofLogical (w.offset.toNat / 4096) = some s)
    (hb : (w.view ino).ptr ino s = b) (hb0 : b ≠ 0) (htake : w.offset.toNat % 4096 + take ≤ 4096)
    (p : Nat) : ((w.advance b buf take).view ino).byteAt ino p =
      if o ≤ p ∧ p < o + (w.done + take) then buf (p - o) else u.byteAt ino p := by
  have hp : (w.view ino).ptr ino s ≠ 0 := hb ▸ hb0
  have hd : IsData b := hb ▸ h.inv.ptr_data hf.1 hp
  have hw := h.offset
  have hold := h.byte p
  rw [WriteState.advance_view buf take hb hd, View.putBlock_byteAt h.inv hf hp hs]
  by_cases hl : p / 4096 = w.offset.toNat / 4096
  · have hread : ((w.view ino).data b).get (p % 4096) = (w.view ino).byteAt ino p := by
      simp only [View.byteAt, hl, hs, hb, hb0, ↓reduceIte]
    rw [if_pos hl, get_patch _ _ _ _ _ (Nat.mod_lt _ (by decide)), hread]
    by_cases hin : w.offset.toNat % 4096 ≤ p % 4096 ∧ p % 4096 < w.offset.toNat % 4096 + take
    · have : o ≤ p ∧ p < o + (w.done + take) := by omega
      rw [if_pos hin, if_pos this]
      congr 1
      omega
    · rw [if_neg hin, hold]
      by_cases hin' : o ≤ p ∧ p < o + w.done
      · rw [if_pos hin', if_pos (by omega)]
      · rw [if_neg hin', if_neg (by omega)]
  · rw [if_neg hl, hold]
    by_cases hin' : o ≤ p ∧ p < o + w.done
    · rw [if_pos hin', if_pos (by omega)]
    · rw [if_neg hin', if_neg (by omega)]

theorem Written.advance (h : Written u v₀ ino o buf w) (hf : u.isFile ino) {s : Slot} {b take : Nat}
    (hs : Slot.ofLogical (w.offset.toNat / 4096) = some s) (hb : (w.view ino).ptr ino s = b)
    (hb0 : b ≠ 0) (hpos : 0 < take) (htake : w.offset.toNat % 4096 + take ≤ 4096)
    (hlim : w.offset.toNat / 4096 < 248) : Written u v₀ ino o buf (w.advance b buf take) := by
  have hf' : (w.view ino).isFile ino := (h.frame.isFile ino).mpr hf
  have hp : (w.view ino).ptr ino s ≠ 0 := hb ▸ hb0
  have hd : IsData b := hb ▸ h.inv.ptr_data hf'.1 hp
  have hsi : s ≠ .indirect := by
    rintro rfl
    exact Slot.ofLogical_ne_indirect hs
  have hview := WriteState.advance_view buf take hb hd
  have hoff : (w.offset + BitVec.ofNat 32 take).toNat = w.offset.toNat + take := by
    rw [BitVec.toNat_add, BitVec.toNat_ofNat]
    omega
  have hw := h.offset
  have inv' : BlockInv ((w.advance b buf take).view ino) := by
    rw [hview]
    exact (View.putBlock_same h.inv hf' hsi hp _ _).blocks h.inv
  have frame' : u.Frame ino ((w.advance b buf take).view ino) := by
    rw [hview]
    exact h.frame.trans (View.putBlock_frame h.inv hf' _ _)
  have bbit' : ∀ c, u.bbit c = true → ((w.advance b buf take).view ino).bbit c = true := by
    rw [hview]
    exact h.bbit
  have behind' : ((SengOS.view (w.advance b buf take).dev.disk).inode ino).Behind
      (w.advance b buf take).inode := by
    have hn : ((SengOS.view (w.advance b buf take).dev.disk).inode ino) =
        (SengOS.view w.dev.disk).inode ino := by
      rw [WriteState.advance, view_write hd]
      rfl
    rw [hn]
    unfold WriteState.advance
    dsimp only
    split
    · exact ⟨h.behind.mode, h.behind.direct, h.behind.indirect⟩
    · exact h.behind
  constructor
  · exact inv'
  · exact frame'
  · exact bbit'
  · exact h.writes.trans (.single _ _ hb0)
  · exact behind'
  · exact h.through.trans (.write _ hd.accepted
      ⟨_, inv', frame', bbit', virtual_covers inv' ((frame'.isFile ino).mpr hf) behind'⟩)
  · change (w.offset + BitVec.ofNat 32 take).toNat = o + (w.done + take)
    rw [hoff]
    omega
  · have hdone : (w.advance b buf take).done = w.done + take := rfl
    rw [WriteState.advance_size b buf hoff, hdone, if_neg (by omega : w.done + take ≠ 0), h.size]
    split <;> omega
  · exact h.advance_byte hf' hs hb hb0 htake

/-- The loop runs to the end of the buffer, of the largest file or of the disk. -/
structure LoopDone (u : View) (v₀ : Dev) (ino o : Nat) (buf : Nat → Byte) (count : Nat) (w : WriteState) :
    Prop extends Written u v₀ ino o buf w where
  le : w.done ≤ count
  stop : w.done < count → 248 * 4096 ≤ o + w.done ∨ (w.view ino).full

/-- A property that no turn of the loop destroys: neither the allocation at its
start nor the store of the block at its end. -/
structure TurnKeeps (u : View) (v₀ : Dev) (ino o : Nat) (buf : Nat → Byte) (P : WriteState → Prop) :
    Prop where
  supplied : ∀ {w : WriteState} {s : Slot}, Written u v₀ ino o buf w → P w →
    Slot.ofLogical (w.offset.toNat / 4096) = some s →
    Supplied w.dev ino w.inode s (blockForInode w.dev w.inode (w.offset.toNat / 4096) true) →
    P { w with
      dev := (blockForInode w.dev w.inode (w.offset.toNat / 4096) true).2.2
      inode := (blockForInode w.dev w.inode (w.offset.toNat / 4096) true).2.1 }
  advance : ∀ {w : WriteState} {s : Slot} {b take : Nat}, Written u v₀ ino o buf w → P w →
    Slot.ofLogical (w.offset.toNat / 4096) = some s → (w.view ino).ptr ino s = b → b ≠ 0 →
    w.offset.toNat % 4096 + take ≤ 4096 → w.offset.toNat / 4096 < 248 → P (w.advance b buf take)

/-- The loop ends as `LoopDone` says and keeps what its turns keep. -/
theorem writeLoop_spec {P : WriteState → Prop} (keeps : TurnKeeps u v₀ ino o buf P) (hf : u.isFile ino)
    (count fuel : Nat) (h : Written u v₀ ino o buf w) (hP : P w) (hle : w.done ≤ count)
    (hfuel : count ≤ w.done + fuel) :
    LoopDone u v₀ ino o buf count (writeLoop buf count fuel w) ∧ P (writeLoop buf count fuel w) := by
  induction fuel generalizing w with
  | zero =>
    rw [writeLoop]
    exact ⟨⟨h, hle, fun hlt => by omega⟩, hP⟩
  | succ fuel ih =>
    have hw := h.offset
    rw [writeLoop]
    by_cases hc : count ≤ w.done
    · rw [if_pos hc]
      exact ⟨⟨h, hle, fun hlt => by omega⟩, hP⟩
    rw [if_neg hc]
    by_cases hlim : 248 ≤ w.offset.toNat / 4096
    · rw [if_pos hlim]
      exact ⟨⟨h, hle, fun _ => Or.inl (by omega)⟩, hP⟩
    rw [if_neg hlim]
    obtain ⟨s, hs⟩ : ∃ s, Slot.ofLogical (w.offset.toNat / 4096) = some s := by
      unfold Slot.ofLogical
      by_cases h8 : w.offset.toNat / 4096 < 8
      · simp [h8]
      · simp [h8, show w.offset.toNat / 4096 - 8 < 1024 by omega]
    have hf' : (w.view ino).isFile ino := (h.frame.isFile ino).mpr hf
    have sup := blockForInode_alloc h.inv hf' h.behind hs
    have h' := h.supplied sup
    have hP' := keeps.supplied h hP hs sup
    generalize blockForInode w.dev w.inode (w.offset.toNat / 4096) true = r at sup h' hP'
    obtain ⟨b, n, v⟩ := r
    dsimp only at sup h' hP' ⊢
    rcases sup.result with ⟨hb, full⟩ | ⟨hb, hb0⟩
    · rw [if_pos hb]
      exact ⟨⟨h', hle, fun _ => Or.inr full⟩, hP'⟩
    · dsimp only at hb hb0
      have hbn : b.toNat = (virtualView v ino n).ptr ino s := by omega
      have hd : IsData b.toNat := by
        rw [hbn]
        exact h'.inv.ptr_data ((h'.frame.isFile ino).mpr hf).1 hb0
      rw [if_neg (by omega), Dev.write_rc hd.accepted]
      simp only [Int.lt_irrefl, ↓reduceIte]
      have hmod : w.offset.toNat % 4096 < 4096 := Nat.mod_lt _ (by decide)
      have fits : w.offset.toNat % 4096 + min (4096 - w.offset.toNat % 4096) (count - w.done) ≤ 4096 := by
        omega
      have below : w.offset.toNat / 4096 < 248 := Nat.not_le.mp hlim
      have adv : Written u v₀ ino o buf (WriteState.advance ⟨v, n, w.done, w.offset⟩ b.toNat buf
          (min (4096 - w.offset.toNat % 4096) (count - w.done))) := by
        refine h'.advance hf hs hbn.symm ?_ ?_ fits below
        · omega
        · omega
      have hadv : P (WriteState.advance ⟨v, n, w.done, w.offset⟩ b.toNat buf
          (min (4096 - w.offset.toNat % 4096) (count - w.done))) :=
        keeps.advance h' hP' hs hbn.symm (by omega) fits below
      refine ih adv hadv ?_ ?_
      · change w.done + min (4096 - w.offset.toNat % 4096) (count - w.done) ≤ count
        omega
      · change count ≤ w.done + min (4096 - w.offset.toNat % 4096) (count - w.done) + fuel
        omega

end

/-! ## The call -/

section
variable {s : FsState}

theorem fdIndex_used {i : Nat} (hi : i < 16) (hu : (s.fds i).used = true) : s.fdIndex i = some i := by
  have : ¬ ((i : Int) < 0 ∨ 16 ≤ (i : Int)) := by omega
  rw [fdIndex, if_neg this, Int.toNat_natCast, if_pos hu]

theorem fdIndex_some {fd : Int} {i : Nat} (h : s.fdIndex fd = some i) :
    i < 16 ∧ (s.fds i).used = true := by
  unfold fdIndex at h
  split at h
  · cases h
  · split at h
    · cases h
      exact ⟨by omega, by assumption⟩
    · cases h

/-- `fs_write` on a file is the loop, then the store of the inode. -/
theorem fsWrite_loop {fd : Int} {i : Nat} (hi : s.fdIndex fd = some i)
    (hm : (s.fds i).flags &&& 3#32 ≠ 0#32) (h : BlockInv (view s.dev.disk))
    (hf : (view s.dev.disk).isFile (s.fds i).inode.toNat) (buf : Nat → Byte) (count : Word)
    {P : WriteState → Prop}
    (keeps : TurnKeeps (view s.dev.disk) s.dev (s.fds i).inode.toNat (s.fds i).offset.toNat buf P)
    (hP : P ⟨s.dev, inodeRead s.dev.disk (s.fds i).inode.toNat, 0, (s.fds i).offset⟩) :
    ∃ w, LoopDone (view s.dev.disk) s.dev (s.fds i).inode.toNat (s.fds i).offset.toNat buf count.toNat w ∧
      P w ∧ s.fsWrite fd (some buf) count = ((w.done : Int), { s with
        dev := inodeWrite w.dev (s.fds i).inode.toNat w.inode
        fds := Function.update s.fds i { s.fds i with offset := w.offset } }) := by
  have hn := view_inode hf.1.1 s.dev.disk
  have hself : virtualView s.dev (s.fds i).inode.toNat (inodeRead s.dev.disk (s.fds i).inode.toNat) =
      view s.dev.disk := by
    rw [hn]
    simp [virtualView, View.setInode]
  have start : Written (view s.dev.disk) s.dev (s.fds i).inode.toNat (s.fds i).offset.toNat buf
      ⟨s.dev, inodeRead s.dev.disk (s.fds i).inode.toNat, 0, (s.fds i).offset⟩ := by
    constructor
    · rw [WriteState.view, hself]
      exact h
    · rw [WriteState.view, hself]
      exact .refl _ _
    · rw [WriteState.view, hself]
      exact fun _ hb => hb
    · exact .refl
    · rw [hn]
      exact ⟨rfl, fun _ => Or.inl rfl, Or.inl rfl⟩
    · exact .refl _ _
    · rfl
    · rw [hn]
      rfl
    · intro p
      rw [WriteState.view, hself, if_neg (by simp)]
  obtain ⟨done, hP'⟩ :=
    writeLoop_spec keeps hf count.toNat count.toNat start hP (Nat.zero_le _) (by simp)
  refine ⟨_, done, hP', ?_⟩
  simp only [fsWrite, hi, hm, ↓reduceIte, hn, hf.2, ne_eq, not_true_eq_false]

theorem fsWrite_file {fd : Int} {i : Nat} (hi : s.fdIndex fd = some i)
    (hm : (s.fds i).flags &&& 3#32 ≠ 0#32) (h : BlockInv (view s.dev.disk))
    (hf : (view s.dev.disk).isFile (s.fds i).inode.toNat) (buf : Nat → Byte) (count : Word) :
    ∃ w, LoopDone (view s.dev.disk) s.dev (s.fds i).inode.toNat (s.fds i).offset.toNat buf count.toNat w ∧
      s.fsWrite fd (some buf) count = ((w.done : Int), { s with
        dev := inodeWrite w.dev (s.fds i).inode.toNat w.inode
        fds := Function.update s.fds i { s.fds i with offset := w.offset } }) := by
  have any : TurnKeeps (view s.dev.disk) s.dev (s.fds i).inode.toNat (s.fds i).offset.toNat buf
      fun _ => True := ⟨fun _ _ _ _ => trivial, fun _ _ _ _ _ _ _ => trivial⟩
  obtain ⟨w, done, -, hw⟩ := fsWrite_loop hi hm h hf buf count any trivial
  exact ⟨w, done, hw⟩

/-- The stored inode makes the virtual view the real one. -/
theorem LoopDone.view_stored {u : View} {v₀ : Dev} {ino o count : Nat} {buf : Nat → Byte}
    {w : WriteState} (_h : LoopDone u v₀ ino o buf count w) (hi : ino < 64) :
    SengOS.view (inodeWrite w.dev ino w.inode).disk = w.view ino := by
  rw [view_inodeWrite hi]
  rfl

end

end FsState

end SengOS
