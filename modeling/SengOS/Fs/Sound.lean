import SengOS.Fs.Changes

/-!
# Sound states

What runs keep that unlink no open file and skip no block: besides `Inv`, no block below the
size of a file is missing, and a descriptor beyond the end of its file sees only zeroes there.
-/

namespace SengOS

/-- Beyond its end the file has only zeroes. -/
def View.ZeroTail (v : View) (i : Nat) : Prop := ∀ p, (v.inode i).size.toNat ≤ p → v.byteAt i p = 0#8

theorem View.emptied_zeroTail (u : View) (ino : Nat) : (u.emptied ino).ZeroTail ino := by
  intro p _
  unfold View.byteAt
  split
  · rfl
  · rw [if_pos (View.emptied_ptr _)]

namespace FsState

section
variable {s t : FsState}

/-- No descriptor is beyond the end of the file. -/
def Within (s : FsState) (i : Nat) : Prop :=
  ∀ k, k < 16 → (s.fds k).used = true → (s.fds k).inode.toNat = i →
    (s.fds k).offset.toNat ≤ ((view s.dev.disk).inode i).size.toNat

structure Sound (s : FsState) : Prop extends Inv s where
  solid : (view s.dev.disk).AllSolid
  tail : ∀ i, (view s.dev.disk).isFile i → (view s.dev.disk).ZeroTail i ∨ s.Within i

/-- The disk changes; a file that stays keeps its bytes or has no others behind its end. -/
theorem Sound.change (h : s.Sound) (inv : t.Inv) (solid : (view t.dev.disk).AllSolid)
    (hfds : t.fds = s.fds)
    (files : ∀ i, (view t.dev.disk).isFile i → (view s.dev.disk).isFile i →
      (view s.dev.disk).Agrees (view t.dev.disk) i ∨ (view t.dev.disk).ZeroTail i) : t.Sound := by
  refine ⟨inv, solid, fun i hf => ?_⟩
  by_cases hold : (view s.dev.disk).isFile i
  · rcases files i hf hold with same | zero
    · refine (h.tail i hold).imp (fun ht p hp => ?_) fun hw k hk hu hi => ?_
      · rw [same.byteAt]
        exact ht p (same.inode ▸ hp)
      · rw [same.inode, hfds]
        rw [hfds] at hu hi
        exact hw k hk hu hi
    · exact .inl zero
  · -- no descriptor is on a new file
    refine .inr fun k hk hu hi => absurd ?_ hold
    rw [hfds] at hu hi
    exact hi ▸ h.fds k hk hu

/-- A descriptor is set up or moved, not beyond the end of its file. -/
theorem Sound.setFd (h : s.Sound) (k : Nat) {f : FileDesc}
    (hf : f.used = true → (view s.dev.disk).isFile f.inode.toNat ∧
      f.offset.toNat ≤ ((view s.dev.disk).inode f.inode.toNat).size.toNat) :
    Sound { s with fds := Function.update s.fds k f } := by
  refine ⟨h.toInv.setFd k fun hu => (hf hu).1, h.solid, fun i hi => ?_⟩
  refine (h.tail i hi).imp_right fun hw j hj hu hij => ?_
  dsimp only at hu hij ⊢
  by_cases hjk : j = k
  · rw [hjk, Function.update_self] at hu hij ⊢
    rw [← hij]
    exact (hf hu).2
  · rw [Function.update_of_ne hjk] at hu hij ⊢
    exact hw j hj hu hij

/-! ## `fs_open` -/

/-- The last part of `fs_open`, with the descriptor that it takes. -/
theorem openInode_eq {ino : Nat} (hi : ino < 64) (hm : (inodeRead s.dev.disk ino).mode = inodeFile)
    (flags : Word) : s.openInode ino flags =
      match (List.range 16).find? (fun i => !(s.fds i).used) with
      | some i => ((i : Int), { s.truncated ino flags with
          fds := Function.update s.fds i ⟨BitVec.ofNat 32 ino,
            if flags &&& oAppend ≠ 0#32 then (inodeRead (s.truncated ino flags).dev.disk ino).size
            else 0#32, flags, true⟩ })
      | none => (-6, s.truncated ino flags) := by
  unfold openInode truncated
  simp only [hm, ne_eq, not_true_eq_false, ↓reduceIte]
  by_cases ht : flags &&& oTrunc = 0#32
  · simp only [ht, not_true_eq_false, ↓reduceIte]
    all_goals rfl
  · have hsize : (inodeRead (truncate s.dev ino).disk ino).size = 0#32 := by
      rw [truncate, inodeRead_inodeWrite hi hi, if_pos rfl]
    simp only [ht, not_false_eq_true, ↓reduceIte, hsize]
    all_goals rfl

theorem truncated_sound (h : s.Sound) {ino : Nat} (hf : (view s.dev.disk).isFile ino) (flags : Word) :
    (s.truncated ino flags).Sound := by
  obtain ⟨inv, -, hfds⟩ := truncated_inv h.toInv hf flags
  unfold truncated at inv hfds ⊢
  split
  · rename_i ht
    rw [if_pos ht] at inv hfds
    have hv := view_truncate h.fs.toBlockInv hf
    have frame := View.emptied_frame (view s.dev.disk) ino
    rw [← hv] at frame
    refine h.change inv ?_ rfl fun i _ hold => ?_
    · apply frame.solid h.solid
      apply View.solid_empty
      rw [hv, View.emptied, View.setInode_inode, Function.update_self]
      rfl
    · by_cases hi : i = ino
      · right
        dsimp only
        rw [hv, hi]
        exact View.emptied_zeroTail _ _
      · exact .inl (frame.agrees hold.1 hi)
  · exact h

theorem openInode_sound (h : s.Sound) {ino : Nat} (hl : (view s.dev.disk).live ino) (flags : Word) :
    (s.openInode ino flags).2.Sound := by
  by_cases hm : (inodeRead s.dev.disk ino).mode = inodeFile
  · have hf : (view s.dev.disk).isFile ino := ⟨hl, by rw [← view_inode hl.1]; exact hm⟩
    have ht := truncated_sound h hf flags
    obtain ⟨-, hf', hfds⟩ := truncated_inv h.toInv hf flags
    rw [openInode_eq hl.1 hm flags]
    split
    · rw [← hfds]
      refine ht.setFd _ fun _ => ?_
      dsimp only
      rw [toNat_ofNat_word hl.1]
      refine ⟨hf', ?_⟩
      split
      · rw [view_inode hl.1]
      · exact Nat.zero_le _
    · exact ht
  · have : s.openInode ino flags = (-5, s) := by simp [openInode, hm]
    rw [this]
    exact h

/-- After a creation, also one that has failed. -/
theorem created_sound (h : s.Sound) {q : Nat} {x : List Byte} {mode : Word}
    {r : Except Int Nat × Dev} (hr : createInode s.dev q x mode = r)
    (c : CreateResult s.dev q x mode r) (hx : Ordinary x) (hm : mode = inodeFile ∨ mode = inodeDir) :
    Sound { s with dev := r.2 } := by
  have hb := h.fs.toBlockInv
  have k := createResult_keeps c h.fs hx hm
  have inv : Inv { s with dev := r.2 } := h.setDev k.writes k.fs k.isDir k.isFile
  cases c with
  | failed _ _ _ =>
    have hu := createInode_untouched hb hr
    exact h.change inv (hu.solid hb h.solid) rfl fun i _ hold => .inl (hu.agrees i hold.1)
  | created c _ _ => exact h.change inv (c.solid hb h.solid) rfl fun i _ hold => .inl (c.agrees hb hold)

theorem fsOpen_sound (h : s.Sound) (path : Option CStr) (flags : Word) : (s.fsOpen path flags).2.Sound := by
  rcases h.fsOpen_cases path flags with ⟨rc, -, ho⟩ | ⟨p, ino, -, -, hl, ho⟩ |
    ⟨p, q, x, -, -, -, -, hord, c, ho⟩
  · rw [ho]
    exact h
  · rw [ho]
    exact openInode_sound h hl flags
  · rw [ho]
    have hs := created_sound h rfl c hord (.inl rfl)
    rcases hmade : createInode s.dev q x inodeFile with ⟨rc | ino, v⟩
    · rw [hmade] at hs
      exact hs
    · rw [hmade] at hs c
      cases c with
      | created c _ _ => exact openInode_sound hs ((c.live ino).mpr (.inr rfl)) flags

/-! ## The other calls -/

theorem fsMkdir_sound (h : s.Sound) (path : Option CStr) : (s.fsMkdir path).2.Sound := by
  rcases h.fsMkdir_cases path with ⟨rc, -, hm⟩ | ⟨p, q, x, -, -, hord, c, hm, -⟩
  · rw [hm]
    exact h
  · rw [hm]
    exact created_sound h rfl c hord (.inr rfl)

theorem fsUnlink_sound (h : s.Sound) {path : Option CStr} (ha : s.Allowed (.unlink path)) :
    (s.fsUnlink path).2.Sound := by
  have inv := step_inv h.toInv (.unlink path) ha
  rw [step] at inv
  rcases h.fsUnlink_cases path with ⟨rc, -, hu⟩ | ⟨p, q, slot, ino, x, -, un, hu⟩
  · rw [hu]
    exact h
  · have r := un.removed h.toInv
    rw [hu] at inv ⊢
    refine h.change inv (r.solid h.fs.toBlockInv h.solid) rfl fun i hf hold => .inl ?_
    exact r.agrees h.fs.toBlockInv hold ((r.isFile i).mp hf).2

theorem fsRead_sound (h : s.Sound) (fd : Int) (buf : Bool) (count : Word) :
    (s.fsRead fd buf count).2.2.Sound := by
  cases hi : s.fdIndex fd with
  | none =>
    have : s.fsRead fd buf count = (-1, [], s) := by simp [fsRead, hi]
    rw [this]
    exact h
  | some i =>
    obtain ⟨hlt, hu⟩ := fdIndex_some hi
    have hfd : s.fsRead fd buf count = s.fsRead i buf count := by
      simp only [fsRead, hi, fdIndex_used hlt hu]
    rw [hfd]
    cases buf with
    | false =>
      have : s.fsRead i false count = (-1, [], s) := by simp [fsRead, fdIndex_used hlt hu]
      rw [this]
      exact h
    | true =>
      have hf := h.fds i hlt hu
      rcases Nat.lt_or_ge (s.fds i).offset.toNat
        (inodeRead s.dev.disk (s.fds i).inode.toNat).size.toNat with ho | ho
      · obtain ⟨o, hr, hoff⟩ := fsRead_solid h.toInv h.solid hlt hu count rfl ho rfl
        rw [hr]
        refine h.setFd i fun _ => ⟨hf, ?_⟩
        dsimp only
        rw [← view_inode hf.1.1, hoff]
        omega
      · rw [fsRead_end h.toInv hlt hu count ho]
        exact h

theorem fsWrite_sound (h : s.Sound) {fd : Int} {buf : Option (Nat → Byte)} {count : Word}
    (hn : ¬ s.SkipsBlock (.write fd buf count)) : (s.fsWrite fd buf count).2.Sound := by
  have inv := fsWrite_inv h.toInv fd buf count
  have solid := fsWrite_solid h.toInv h.solid hn
  rcases h.fsWrite_cases fd buf count with hw | ⟨i, d, w, hi, done, hw⟩
  · rw [hw]
    exact h
  · obtain ⟨hlt, hu⟩ := fdIndex_some hi
    have file := h.fds i hlt hu
    have hv := done.view_stored file.1.1
    have offset := done.offset
    have hsize : ((w.view (s.fds i).inode.toNat).inode (s.fds i).inode.toNat).size.toNat = _ :=
      (congrArg (fun n => n.size.toNat) (virtualView_inode _ _ _)).trans done.size
    rw [hw] at inv solid ⊢
    refine ⟨inv, solid, fun j hj => ?_⟩
    dsimp only at hj ⊢
    rw [hv] at hj ⊢
    by_cases hji : j = (s.fds i).inode.toNat
    · subst hji
      refine (h.tail _ file).imp (fun ht p hp => ?_) fun hin k hk hku hki => ?_
      · rw [hsize] at hp
        rw [done.byte, if_neg (by split at hp <;> omega)]
        exact ht p (by split at hp <;> omega)
      · dsimp only at hku hki ⊢
        rw [hv, hsize]
        by_cases hik : k = i
        · have := hin i hlt hu rfl
          rw [hik, Function.update_self]
          dsimp only
          split <;> omega
        · rw [Function.update_of_ne hik] at hku hki ⊢
          have := hin k hk hku hki
          split <;> omega
    · have hold := (done.frame.isFile j).mp hj
      have same := done.frame.agrees hold.1 hji
      refine (h.tail j hold).imp (fun ht p hp => ?_) fun hin k hk hku hki => ?_
      · rw [same.byteAt]
        exact ht p (same.inode ▸ hp)
      · dsimp only at hku hki ⊢
        rw [hv, same.inode]
        have hik : k ≠ i := by
          rintro rfl
          rw [Function.update_self] at hki
          exact hji hki.symm
        rw [Function.update_of_ne hik] at hku hki ⊢
        exact hin k hk hku hki

theorem Sound.step (h : s.Sound) {op : FsOp} (ha : s.Allowed op) (hn : ¬ s.SkipsBlock op) :
    (s.step op).Sound := by
  cases op with
  | «open» path flags => exact fsOpen_sound h path flags
  | read fd buf count => exact fsRead_sound h fd buf count
  | write fd buf count => exact fsWrite_sound h hn
  | close fd =>
    rw [FsState.step]
    unfold fsClose
    split
    · exact h
    · exact h.setFd _ fun hu => absurd hu (by simp)
  | unlink path => exact fsUnlink_sound h ha
  | mkdir path => exact fsMkdir_sound h path
  | chdir path =>
    have inv := fsChdir_inv h.toInv path
    have hdev := s.fsChdir_dev path
    have hfds : (s.fsChdir path).2.fds = s.fds := fsChdir_fds path
    rw [FsState.step]
    refine h.change inv (by rw [hdev]; exact h.solid) hfds fun i _ _ => .inl ?_
    rw [hdev]
    exact ⟨rfl, fun _ _ => rfl⟩

end

/-! ## Mounting -/

theorem fsInit_sound : (fsInit boot).Sound := by
  refine ⟨fsInit_blank_inv, (SolidRun.inv .init).2, fun i hf => .inr fun k _ hu => ?_⟩
  rw [fsInit_blank] at hu
  cases hu

/-- The kernel starts again with the disk that it left. -/
def reboot (s : FsState) : FsState := fsInit { boot with dev := s.dev }

theorem Inv.reboot_eq {s : FsState} (h : s.Inv) :
    s.reboot = ⟨s.dev, fun _ => FileDesc.zero, 0#32, true⟩ :=
  fsInit_mounted (s := { boot with dev := s.dev }) h.mounted

theorem Sound.reboot {s : FsState} (h : s.Sound) : s.reboot.Sound := by
  rw [h.toInv.reboot_eq]
  exact ⟨⟨rfl, h.mounted, h.fs, h.fs.root_dir, fun _ _ hu => absurd hu Bool.false_ne_true⟩, h.solid,
    fun _ _ => .inr fun _ _ hu => absurd hu Bool.false_ne_true⟩

end FsState

end SengOS
