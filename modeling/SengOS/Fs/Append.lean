import SengOS.Fs.ReadAll
import SengOS.Lib.Machine

/-!
# Descriptors opened for appending

`fs_open` puts an appending descriptor at the end the file has at that moment;
`fs_write` does not look for the end again. Runs of the calls on one file
through such descriptors, and when what they write ends up one after the other.
-/

namespace SengOS

/-- The bytes of a file up to its size. -/
def contentOf (d : Disk) (ino : Nat) : List Byte :=
  FsState.fileBytes d ino 0 (inodeRead d ino).size.toNat

/-- Calls on one file through descriptors that append to it. -/
inductive AppendCall where
  | open (path : CStr) (flags : Word)
  | write (fd : Nat) (buf : Nat → Byte) (count : Word)
  | close (fd : Nat)

/-- The state, the descriptors the run has opened on the file and not closed,
and the bytes of the buffers written so far. -/
structure Appending where
  st : FsState
  opened : List Nat
  written : List Byte

namespace Appending

def start (s : FsState) : Appending := ⟨s, [], []⟩

def next (a : Appending) : AppendCall → Appending
  | .open path flags =>
    let r := a.st.fsOpen (some path) flags
    ⟨r.2, if r.1 < 0 then a.opened else r.1.toNat :: a.opened, a.written⟩
  | .write fd buf count =>
    ⟨(a.st.fsWrite fd (some buf) count).2, a.opened, a.written ++ (List.range count.toNat).map buf⟩
  | .close fd => ⟨(a.st.fsClose fd).2, a.opened.filter (· ≠ fd), a.written⟩

/-- The file is opened with `FS_O_APPEND` in a writable mode, and every write
through a descriptor opened so writes its full count. -/
def Valid (ino : Nat) (a : Appending) : AppendCall → Prop
  | .open path flags => a.st.resolve path.bytes = some ino ∧ flags &&& oAppend ≠ 0#32 ∧ flags &&& 3#32 ≠ 0#32
  | .write fd buf count => fd ∈ a.opened ∧ (a.st.fsWrite fd (some buf) count).1 = count.toNat
  | .close fd => fd ∈ a.opened

def calls (ino : Nat) : Machine Appending AppendCall := ⟨Valid ino, next⟩

/-- No descriptor is opened with `FS_O_TRUNC`. -/
def Keeping (_ : Appending) : AppendCall → Prop
  | .open _ flags => flags &&& oTrunc = 0#32
  | _ => True

/-- Bytes are only written through a descriptor that stands at the end of the file. -/
def AtEnd (ino : Nat) (a : Appending) : AppendCall → Prop
  | .write fd _ count => count = 0#32 ∨ (a.st.fds fd).offset = (inodeRead a.st.dev.disk ino).size
  | _ => True

instance decidableValid (ino : Nat) (a : Appending) : (c : AppendCall) → Decidable (Valid ino a c)
  | .open _ _ => inferInstanceAs (Decidable (_ ∧ _ ∧ _))
  | .write _ _ _ => inferInstanceAs (Decidable (_ ∧ _))
  | .close fd => inferInstanceAs (Decidable (fd ∈ a.opened))

instance decidableKeeping (a : Appending) : (c : AppendCall) → Decidable (Keeping a c)
  | .open _ flags => inferInstanceAs (Decidable (flags &&& oTrunc = 0#32))
  | .write _ _ _ => .isTrue trivial
  | .close _ => .isTrue trivial

instance decidableAtEnd (ino : Nat) (a : Appending) : (c : AppendCall) → Decidable (AtEnd ino a c)
  | .open _ _ => .isTrue trivial
  | .write _ _ _ => inferInstanceAs (Decidable (_ ∨ _))
  | .close _ => .isTrue trivial

instance decidableEnabled (ino : Nat) (a : Appending) (c : AppendCall) :
    Decidable ((calls ino).enabled a c) := decidableValid ino a c

/-! ## One call -/

/-- Every descriptor of the run is on the file, writable, and not beyond its end. -/
structure Open (ino : Nat) (a : Appending) : Prop where
  inv : a.st.Inv
  file : (view a.st.dev.disk).isFile ino
  fds : ∀ fd ∈ a.opened, fd < 16 ∧ (a.st.fds fd).used = true ∧ (a.st.fds fd).inode.toNat = ino ∧
    (a.st.fds fd).flags &&& 3#32 ≠ 0#32 ∧
    (a.st.fds fd).offset.toNat ≤ (inodeRead a.st.dev.disk ino).size.toNat

/-- What a call adds to the bytes written, and what becomes of the file. -/
structure Adds (ino : Nat) (a b : Appending) (c : AppendCall) (bs : List Byte) : Prop where
  written : b.written = a.written ++ bs
  size : (inodeRead b.st.dev.disk ino).size.toNat ≤ (inodeRead a.st.dev.disk ino).size.toNat + bs.length
  exact : (inodeRead b.st.dev.disk ino).size.toNat = (inodeRead a.st.dev.disk ino).size.toNat + bs.length →
    AtEnd ino a c
  content : AtEnd ino a c → contentOf b.st.dev.disk ino = contentOf a.st.dev.disk ino ++ bs

/-- A call that leaves the disk alone adds nothing. -/
theorem Adds.same {ino : Nat} {a b : Appending} {c : AppendCall} (hd : b.st.dev = a.st.dev)
    (hw : b.written = a.written) (hc : AtEnd ino a c) : Adds ino a b c [] := by
  refine ⟨by rw [hw, List.append_nil], ?_, fun _ => hc, fun _ => ?_⟩
  · rw [hd]
    exact Nat.le_refl _
  · rw [hd, List.append_nil]

section
variable {ino : Nat} {a : Appending}

/-- Opening a file for appending, without truncation. -/
theorem openInode_append {s : FsState} (hm : (inodeRead s.dev.disk ino).mode = inodeFile) {flags : Word}
    (ha : flags &&& oAppend ≠ 0#32) (ht : flags &&& oTrunc = 0#32) :
    s.openInode ino flags = (-6, s) ∨
      ∃ i : Nat, i < 16 ∧ (s.fds i).used = false ∧ s.openInode ino flags = ((i : Int), { s with
        fds := Function.update s.fds i
          ⟨BitVec.ofNat 32 ino, (inodeRead s.dev.disk ino).size, flags, true⟩ }) := by
  unfold FsState.openInode
  simp only [hm, ne_eq, not_true_eq_false, ↓reduceIte, ht, ha, not_false_eq_true]
  cases hi : (List.range 16).find? (fun i => !(s.fds i).used) with
  | none => exact Or.inl rfl
  | some i =>
    have hlt := List.mem_range.mp (List.mem_of_find?_eq_some hi)
    have hfree := List.find?_some hi
    exact Or.inr ⟨i, hlt, by simpa using hfree, rfl⟩

theorem Open.opens (h : Open ino a) {path : CStr} {flags : Word} (hv : Valid ino a (.open path flags))
    (ht : flags &&& oTrunc = 0#32) :
    Open ino (a.next (.open path flags)) ∧ Adds ino a (a.next (.open path flags)) (.open path flags) [] := by
  obtain ⟨hr, happ, hwr⟩ := hv
  have hmode := mode_of_isFile h.file
  have hopen : a.st.fsOpen (some path) flags = a.st.openInode ino flags := by
    simp [FsState.fsOpen, h.inv.ready, hr]
  have inv' := FsState.fsOpen_inv h.inv (some path) flags
  rcases openInode_append hmode happ ht with ho | ⟨i, hi, hfree, ho⟩
  · rw [← hopen] at ho
    have hst : (a.next (.open path flags)).st = a.st := by simp [next, ho]
    have hfd : (a.next (.open path flags)).opened = a.opened := by simp [next, ho]
    refine ⟨⟨hst ▸ h.inv, hst ▸ h.file, fun fd hm => ?_⟩, .same (by rw [hst]) rfl trivial⟩
    rw [hst]
    exact h.fds fd (hfd ▸ hm)
  · rw [← hopen] at ho
    rw [ho] at inv'
    have hino : (BitVec.ofNat 32 ino).toNat = ino := by
      have := h.file.1.1
      rw [BitVec.toNat_ofNat, Nat.mod_eq_of_lt (by omega)]
    have hfd : (a.next (.open path flags)).opened = i :: a.opened := by simp [next, ho]
    have hst : (a.next (.open path flags)).st = { a.st with
        fds := Function.update a.st.fds i
          ⟨BitVec.ofNat 32 ino, (inodeRead a.st.dev.disk ino).size, flags, true⟩ } := by simp [next, ho]
    refine ⟨⟨hst ▸ inv', by rw [hst]; exact h.file, fun fd hm => ?_⟩, .same (by rw [hst]) rfl trivial⟩
    rw [hfd] at hm
    rw [hst]
    dsimp only
    by_cases he : fd = i
    · subst he
      rw [Function.update_self]
      exact ⟨hi, rfl, hino, hwr, Nat.le_refl _⟩
    · rw [Function.update_of_ne he]
      exact h.fds fd ((List.mem_cons.mp hm).resolve_left he)

theorem Open.closes (h : Open ino a) {fd : Nat} (hv : Valid ino a (.close fd)) :
    Open ino (a.next (.close fd)) ∧ Adds ino a (a.next (.close fd)) (.close fd) [] := by
  obtain ⟨hlt, hu, -⟩ := h.fds fd hv
  have hst : (a.next (.close fd)).st =
      { a.st with fds := Function.update a.st.fds fd { a.st.fds fd with used := false } } := by
    simp [next, FsState.fsClose, FsState.fdIndex_used hlt hu]
  have inv' : (a.next (.close fd)).st.Inv := FsState.fsClose_inv h.inv fd
  refine ⟨⟨inv', by rw [hst]; exact h.file, fun k hk => ?_⟩, .same (by rw [hst]) rfl trivial⟩
  obtain ⟨hk, hne⟩ := List.mem_filter.mp hk
  have hne : k ≠ fd := by simpa using hne
  rw [hst]
  dsimp only
  rw [Function.update_of_ne hne]
  exact h.fds k hk

/-- Bytes that go on from the end of a file are appended to its content. -/
theorem contentOf_append {d d' : Disk} {ino off n : Nat} {buf : Nat → Byte}
    (hsize : (inodeRead d' ino).size.toNat = (inodeRead d ino).size.toNat + n)
    (hoff : 0 < n → off = (inodeRead d ino).size.toNat)
    (hin : ∀ p, off ≤ p → p < off + n → fileByte d' ino p = buf (p - off))
    (hout : ∀ p, ¬ (off ≤ p ∧ p < off + n) → fileByte d' ino p = fileByte d ino p) :
    contentOf d' ino = contentOf d ino ++ (List.range n).map buf := by
  have old : FsState.fileBytes d' ino 0 (inodeRead d ino).size.toNat = contentOf d ino := by
    apply List.map_congr_left
    intro p hp
    have hp := List.mem_range.mp hp
    exact hout _ (by omega)
  have new : FsState.fileBytes d' ino (0 + (inodeRead d ino).size.toNat) n = (List.range n).map buf := by
    apply List.map_congr_left
    intro p hp
    have hp := List.mem_range.mp hp
    have hoff := hoff (by omega)
    rw [hin _ (by omega) (by omega)]
    exact congrArg buf (by omega)
  rw [contentOf, hsize, FsState.fileBytes_append, old, new]

/-- A write that stays within the file or goes on from its end. -/
theorem Open.writes (h : Open ino a) {fd : Nat} {buf : Nat → Byte} {count : Word}
    (hv : Valid ino a (.write fd buf count)) :
    Open ino (a.next (.write fd buf count)) ∧
      Adds ino a (a.next (.write fd buf count)) (.write fd buf count) ((List.range count.toNat).map buf) := by
  obtain ⟨hmem, hfull⟩ := hv
  obtain ⟨hlt, hu, hino, hwr, hoff⟩ := h.fds fd hmem
  have hfile : (view a.st.dev.disk).isFile (a.st.fds fd).inode.toNat := hino ▸ h.file
  have inv' : (a.next (.write fd buf count)).st.Inv := FsState.fsWrite_inv h.inv fd (some buf) count
  obtain ⟨k, hk, -, hin, hout, hsize, hoff', hfds, -, -⟩ :=
    FsState.fsWrite_bytes h.inv.fs.toBlockInv hlt hu hwr hfile buf count
  dsimp only at hin hout hsize hoff' hfds
  rw [hino] at hin hout hsize
  obtain rfl : k = count.toNat := by
    rw [hfull] at hk
    exact_mod_cast hk.symm
  generalize hb : a.next (.write fd buf count) = b at inv' ⊢
  have hst : (a.st.fsWrite fd (some buf) count).2 = b.st := by rw [← hb]; rfl
  have hopened : b.opened = a.opened := by rw [← hb]; rfl
  have hwritten : b.written = a.written ++ (List.range count.toNat).map buf := by rw [← hb]; rfl
  rw [hst] at hin hout hsize hoff' hfds
  have hsame : (b.st.fds fd).inode = (a.st.fds fd).inode ∧ (b.st.fds fd).used = true ∧
      (b.st.fds fd).flags = (a.st.fds fd).flags := by
    rw [hfds, Function.update_self]
    exact ⟨rfl, hu, rfl⟩
  have hlen : ((List.range count.toNat).map buf).length = count.toNat := by
    rw [List.length_map, List.length_range]
  -- the size is the larger of the old one and the offset behind the last byte
  have hgrow : (inodeRead b.st.dev.disk ino).size.toNat =
      max (inodeRead a.st.dev.disk ino).size.toNat ((a.st.fds fd).offset.toNat + count.toNat) := by
    rw [hsize]
    split <;> omega
  refine ⟨⟨inv', ?_, fun j hj => ?_⟩, ⟨hwritten, ?_, fun e => ?_, fun hend => ?_⟩⟩
  · have := inv'.fds fd hlt hsame.2.1
    rwa [hsame.1, hino] at this
  · rw [hopened] at hj
    by_cases he : j = fd
    · subst he
      refine ⟨hlt, hsame.2.1, by rw [hsame.1, hino], hsame.2.2 ▸ hwr, ?_⟩
      rw [hoff', hgrow]
      exact Nat.le_max_right _ _
    · obtain ⟨h1, h2, h3, h4, h5⟩ := h.fds j hj
      rw [hfds, Function.update_of_ne he]
      exact ⟨h1, h2, h3, h4, by omega⟩
  · rw [hlen]
    omega
  · rw [hlen, hgrow] at e
    by_cases h0 : count = 0#32
    · exact Or.inl h0
    · have hpos : 0 < count.toNat := Nat.pos_of_ne_zero fun e => h0 (BitVec.eq_of_toNat_eq e)
      exact Or.inr (BitVec.eq_of_toNat_eq (by omega))
  · have hsum : (inodeRead b.st.dev.disk ino).size.toNat =
        (inodeRead a.st.dev.disk ino).size.toNat + count.toNat := by
      rcases hend with rfl | e
      · rw [hgrow]
        change max _ (_ + 0) = _ + 0
        omega
      · rw [hgrow, e]
        omega
    have hat : 0 < count.toNat →
        (a.st.fds fd).offset.toNat = (inodeRead a.st.dev.disk ino).size.toNat := by
      intro hpos
      rcases hend with rfl | e
      · exact absurd hpos (by decide)
      · rw [e]
    exact contentOf_append hsum hat hin hout

/-! ## Runs -/

theorem Open.call (h : Open ino a) {c : AppendCall} (hv : Valid ino a c) (hk : Keeping a c) :
    Open ino (a.next c) ∧ ∃ bs, Adds ino a (a.next c) c bs := by
  cases c with
  | «open» path flags =>
    obtain ⟨h', adds⟩ := h.opens hv hk
    exact ⟨h', _, adds⟩
  | write fd buf count =>
    obtain ⟨h', adds⟩ := h.writes hv
    exact ⟨h', _, adds⟩
  | close fd =>
    obtain ⟨h', adds⟩ := h.closes hv
    exact ⟨h', _, adds⟩

/-- The sizes add up exactly when every byte was written at the end, and then
so do the contents. -/
theorem Open.run (h : Open ino a) (cs : List AppendCall) (hr : (calls ino).Accepts Keeping a cs) :
    ∃ bs, ((calls ino).after a cs).written = a.written ++ bs ∧
      (inodeRead ((calls ino).after a cs).st.dev.disk ino).size.toNat ≤
        (inodeRead a.st.dev.disk ino).size.toNat + bs.length ∧
      ((inodeRead ((calls ino).after a cs).st.dev.disk ino).size.toNat =
        (inodeRead a.st.dev.disk ino).size.toNat + bs.length → (calls ino).Accepts (AtEnd ino) a cs) ∧
      ((calls ino).Accepts (AtEnd ino) a cs →
        contentOf ((calls ino).after a cs).st.dev.disk ino = contentOf a.st.dev.disk ino ++ bs) := by
  induction cs generalizing a with
  | nil =>
    exact ⟨[], by simp [Machine.after], Nat.le_refl _, fun _ => trivial, fun _ => by simp [Machine.after]⟩
  | cons c cs ih =>
    obtain ⟨hv, hk, hrest⟩ := hr
    obtain ⟨h', bs, adds⟩ := h.call hv hk
    obtain ⟨bs', hw, hle, hexact, hcontent⟩ := ih h' hrest
    have hstep : (calls ino).after a (c :: cs) = (calls ino).after (a.next c) cs := rfl
    have hsize := adds.size
    rw [hstep]
    refine ⟨bs ++ bs', ?_, ?_, fun e => ⟨hv, ?_, ?_⟩, fun hend => ?_⟩
    · rw [hw, adds.written, List.append_assoc]
    · rw [List.length_append]
      exact Nat.le_trans hle (by omega)
    · rw [List.length_append] at e
      exact adds.exact (by omega)
    · rw [List.length_append] at e
      exact hexact (by omega)
    · rw [hcontent hend.2.2, adds.content hend.2.1, List.append_assoc]

end

end Appending

open Appending in
/-- Through descriptors opened without truncation the buffers follow the old
content exactly when no byte is written before the end. -/
theorem append_content_iff {s : FsState} (h : s.Inv) {ino : Nat} (hf : (view s.dev.disk).isFile ino)
    (cs : List AppendCall) (hr : (calls ino).Accepts Keeping (start s) cs) :
    contentOf ((calls ino).after (start s) cs).st.dev.disk ino =
        contentOf s.dev.disk ino ++ ((calls ino).after (start s) cs).written ↔
      (calls ino).Accepts (AtEnd ino) (start s) cs := by
  have first : Open ino (start s) := ⟨h, hf, fun fd hm => by cases hm⟩
  obtain ⟨bs, hw, -, hexact, hcontent⟩ := first.run cs hr
  rw [hw]
  change _ = _ ++ ([] ++ bs) ↔ _
  rw [List.nil_append]
  constructor
  · intro e
    have hlen (d : Disk) : (contentOf d ino).length = (inodeRead d ino).size.toNat := by
      rw [contentOf, FsState.fileBytes, List.length_map, List.length_range]
    have := congrArg List.length e
    rw [List.length_append, hlen, hlen] at this
    exact hexact this
  · exact hcontent

open Appending FsState

/-- One descriptor, two buffers. -/
def oneAppender : List AppendCall :=
  [.open nameD 0x401#32, .write 1 (fun _ => 0x58#8) 1#32, .write 1 (fun _ => 0x59#8) 1#32]

/-- Two descriptors, both opened before either writes. -/
def twoAppenders : List AppendCall :=
  [.open nameD 0x401#32, .open nameD 0x401#32, .write 1 (fun _ => 0x58#8) 1#32,
    .write 2 (fun _ => 0x59#8) 1#32]

theorem openedD_file : openedD.Inv ∧ (view openedD.dev.disk).isFile 1 := by
  have inv : openedD.Inv := fsOpen_inv fsInit_blank_inv _ _
  have ino : (openedD.fds 0).inode = 1#32 := by decide +kernel
  have file := inv.fds 0 (by decide) openedD_used.1
  rw [ino] at file
  exact ⟨inv, file⟩

theorem append_once : contentOf ((calls 1).after (start openedD) oneAppender).st.dev.disk 1 =
    contentOf openedD.dev.disk 1 ++ [0x58#8, 0x59#8] := by
  obtain ⟨inv, file⟩ := openedD_file
  have run : (calls 1).Accepts Keeping (start openedD) oneAppender ∧
      (calls 1).Accepts (AtEnd 1) (start openedD) oneAppender ∧
      ((calls 1).after (start openedD) oneAppender).written = [0x58#8, 0x59#8] := by
    decide +kernel
  obtain ⟨keeping, atEnd, written⟩ := run
  have := (append_content_iff inv file _ keeping).mpr atEnd
  rwa [written] at this

/-- The second write lands on the first one. -/
theorem append_overwrites : openedD.Inv ∧ (view openedD.dev.disk).isFile 1 ∧
    (calls 1).Accepts Keeping (start openedD) twoAppenders ∧
    contentOf ((calls 1).after (start openedD) twoAppenders).st.dev.disk 1 ≠
      contentOf openedD.dev.disk 1 ++ ((calls 1).after (start openedD) twoAppenders).written := by
  obtain ⟨inv, file⟩ := openedD_file
  have run : (calls 1).Accepts Keeping (start openedD) twoAppenders ∧
      contentOf ((calls 1).after (start openedD) twoAppenders).st.dev.disk 1 ≠
        contentOf openedD.dev.disk 1 ++ ((calls 1).after (start openedD) twoAppenders).written := by
    decide +kernel
  exact ⟨inv, file, run⟩

end SengOS
