import Mathlib.Data.List.Find
import SengOS.Fs.Files
import SengOS.Fs.Append

/-!
# The files of a state

`FsState.files` reads the file tree off the disk. Paths lead to the same objects there as
`resolve_path` and `split_parent` find on the disk, and what creations, removals and changes
of one file do to the disk are the operations on trees.
-/

namespace SengOS

instance (x : List Byte) : Decidable (GoodName x) :=
  decidable_of_iff (x ≠ [] ∧ x.length ≤ 27 ∧ 0#8 ∉ x ∧ slash ∉ x)
    ⟨fun h => ⟨h.1, h.2.1, h.2.2.1, h.2.2.2⟩, fun h => ⟨h.1, h.2, h.3, h.4⟩⟩

instance (d : Disk) (i : Nat) : Decidable (inUse d i) := inferInstanceAs (Decidable (_ ∧ _))

/-- What `dir_find` finds in a directory, by name. -/
def namesOf (d : Disk) (i : Nat) (x : List Byte) : Option Nat := if GoodName x then lookup d i x else none

def treeOf (d : Disk) : FileTree Nat (List Byte) Byte := fun i =>
  if inUse d i then
    some (if (inodeRead d i).mode = inodeDir then .dir (namesOf d i) else .file (contentOf d i))
  else none

namespace FsState

def openFile (s : FsState) (i : Nat) : Option OpenFile :=
  if i < 16 ∧ (s.fds i).used = true then
    some ⟨(s.fds i).inode.toNat, (s.fds i).offset.toNat, (s.fds i).flags &&& 3#32 ≠ 0#32⟩
  else none

def files (s : FsState) : Files := ⟨treeOf s.dev.disk, s.openFile, s.cwdInode.toNat⟩

def shortage (s : FsState) : Shortage where
  blocks := ∀ b, 6 ≤ b → b < 254 → bitmapGet s.dev.disk 2 b = true
  entries q := ∀ k, k < 128 → entryAt s.dev.disk q k ≠ none

end FsState

/-! ## Objects -/

section
variable {d : Disk} {i : Nat}

theorem treeOf_none (hl : ¬ (view d).live i) : treeOf d i = none :=
  if_neg fun hu => hl ((inUse_iff i).mp hu)

theorem treeOf_dir (hd : (view d).isDir i) : treeOf d i = some (.dir (namesOf d i)) := by
  rw [treeOf, if_pos ((inUse_iff i).mpr hd.1), view_inode hd.1.1, if_pos hd.2]

theorem treeOf_file (hf : (view d).isFile i) : treeOf d i = some (.file (contentOf d i)) := by
  have hm : ((view d).inode i).mode ≠ inodeDir := by
    rw [hf.2]
    decide
  rw [treeOf, if_pos ((inUse_iff i).mpr hf.1), view_inode hf.1.1, if_neg hm]

theorem treeOf_isNone : (treeOf d i).isNone = true ↔ ¬ (view d).live i := by
  unfold treeOf
  rw [← inUse_iff]
  split <;> simp [*]

theorem treeOf_isDir (h : BlockInv (view d)) : (treeOf d).IsDir i ↔ (view d).isDir i := by
  constructor
  · rintro ⟨names, hn⟩
    by_cases hl : (view d).live i
    · refine (h.mode i hl).resolve_left fun hf => ?_
      rw [treeOf_file hf] at hn
      cases hn
    · rw [treeOf_none hl] at hn
      cases hn
  · exact fun hd => ⟨_, treeOf_dir hd⟩

theorem treeOf_find (h : FsInv (view d)) (hl : (view d).live i) {x : List Byte} (hx : GoodName x) :
    (treeOf d).find i x = lookup d i x := by
  by_cases hd : (view d).isDir i
  · rw [FileTree.find_dir (treeOf_dir hd), namesOf, if_pos hx]
  · rw [FileTree.find_of_not_dir (fun hn => hd ((treeOf_isDir h.toBlockInv).mp hn)), lookup,
      dirFind_not_dir hl hd]
    rfl

theorem contentOf_eq (h : BlockInv (view d)) (hl : (view d).live i) :
    contentOf d i = (List.range ((view d).inode i).size.toNat).map ((view d).byteAt i) := by
  rw [contentOf, FsState.fileBytes, view_inode hl.1]
  refine List.map_congr_left fun p _ => ?_
  rw [Nat.zero_add, fileByte_eq h hl]

theorem contentOf_length : (contentOf d i).length = (inodeRead d i).size.toNat := by
  rw [contentOf, FsState.fileBytes, List.length_map, List.length_range]

end

/-! ## Paths -/

section
variable {find find' : Nat → List Byte → Option Nat} {Live : Nat → Prop}

/-- Two lookups that agree on live objects lead to the same place. -/
theorem walk_agree (hf : ∀ i x j, Live i → GoodName x → find i x = some j → Live j)
    (heq : ∀ i x, Live i → GoodName x → find' i x = find i x) {cs : List (List Byte)}
    (hcs : ∀ c ∈ cs, c.length ≤ 27 → GoodName c) {cur : Nat} (hl : Live cur) :
    walk find' cur cs = walk find cur cs := by
  induction cs generalizing cur with
  | nil => rfl
  | cons c cs ih =>
    have hcs' : ∀ d ∈ cs, d.length ≤ 27 → GoodName d := fun d hd => hcs d (List.mem_cons_of_mem _ hd)
    rw [walk, walk]
    by_cases hlen : 27 < c.length
    · rw [if_pos hlen, if_pos hlen]
    have good := hcs c List.mem_cons_self (by omega)
    rw [if_neg hlen, if_neg hlen, heq cur c hl good, ih hcs' hl]
    split
    · rfl
    · cases hc : find cur c with
      | none => rfl
      | some child => exact ih hcs' (hf cur c child hl good hc)

theorem splitWalk_agree (hf : ∀ i x j, Live i → GoodName x → find i x = some j → Live j)
    (heq : ∀ i x, Live i → GoodName x → find' i x = find i x) {cs : List (List Byte)}
    (hcs : ∀ c ∈ cs, c.length ≤ 27 → GoodName c) {cur : Nat} (hl : Live cur) :
    splitWalk find' cur cs = splitWalk find cur cs := by
  induction cs generalizing cur with
  | nil => rfl
  | cons c cs ih =>
    have hcs' : ∀ d ∈ cs, d.length ≤ 27 → GoodName d := fun d hd => hcs d (List.mem_cons_of_mem _ hd)
    rw [splitWalk, splitWalk]
    by_cases hlen : 27 < c.length
    · rw [if_pos hlen, if_pos hlen]
    have good := hcs c List.mem_cons_self (by omega)
    have below : ((find cur c).bind fun child => splitWalk find' child cs) =
        (find cur c).bind fun child => splitWalk find child cs := by
      cases hc : find cur c with
      | none => rfl
      | some child => exact ih hcs' (hf cur c child hl good hc)
    rw [if_neg hlen, if_neg hlen, heq cur c hl good, ih hcs' hl, below]

end

namespace FsState

section
variable {s : FsState}

theorem Inv.find_files (h : s.Inv) {i : Nat} {x : List Byte} (hl : (view s.dev.disk).live i)
    (hx : GoodName x) : s.files.tree.find i x = lookup s.dev.disk i x := treeOf_find h.fs hl hx

theorem Inv.resolve_files (h : s.Inv) (path : CStr) :
    s.files.resolve path.bytes = s.resolve path.bytes := by
  unfold Files.resolve
  split
  · rename_i hp
    rw [hp]
    rfl
  · rename_i hp
    rw [s.resolve_eq hp]
    exact walk_agree h.find_live (fun i x hl hx => h.find_files hl hx)
      (fun c hc => goodName_component path.no_nul hc) (h.start_live _)

theorem Inv.split_files (h : s.Inv) (path : CStr) : s.files.split path.bytes = s.split path.bytes := by
  unfold Files.split
  by_cases hp : path.bytes = []
  · rw [if_pos (.inl hp), hp]
    rfl
  by_cases hlen : 255 < path.bytes.length
  · rw [if_pos (.inr hlen), split, splitParent, if_neg hp, if_pos hlen]
  rw [if_neg (not_or.mpr ⟨hp, hlen⟩), s.split_eq hp (by omega)]
  exact splitWalk_agree h.find_live (fun i x hl hx => h.find_files hl hx)
    (fun c hc => goodName_component path.no_nul hc) (h.start_live _)

theorem fresh_files (s : FsState) :
    s.files.fresh = (List.range 64).find? fun i => !bitmapGet s.dev.disk 3 i := by
  refine List.find?_congr fun i hi => ?_
  rw [Bool.eq_iff_iff]
  refine treeOf_isNone.trans ?_
  rw [View.live, ← view_ibit]
  simp [List.mem_range.mp hi]

theorem openFile_used {i : Nat} (hi : i < 16) (hu : (s.fds i).used = true) : s.openFile i =
    some ⟨(s.fds i).inode.toNat, (s.fds i).offset.toNat, (s.fds i).flags &&& 3#32 ≠ 0#32⟩ :=
  if_pos ⟨hi, hu⟩

/-- A descriptor that passes the checks of the calls. -/
theorem handle_some {fd : Int} {i : Nat} (hi : s.fdIndex fd = some i) : s.files.handle fd =
    some (i, ⟨(s.fds i).inode.toNat, (s.fds i).offset.toNat, (s.fds i).flags &&& 3#32 ≠ 0#32⟩) := by
  obtain ⟨hlt, hu⟩ := fdIndex_some hi
  unfold fdIndex at hi
  unfold Files.handle
  split at hi
  · cases hi
  · rename_i hfd
    rw [if_neg hfd]
    split at hi
    · cases hi
      exact congrArg (Option.map _) (openFile_used hlt hu)
    · cases hi

theorem handle_none {fd : Int} (hi : s.fdIndex fd = none) : s.files.handle fd = none := by
  unfold fdIndex at hi
  unfold Files.handle
  split at hi
  · rename_i hfd
    exact if_pos hfd
  · rename_i hfd
    rw [if_neg hfd]
    split at hi
    · cases hi
    · rename_i hu
      have hno : s.files.fds fd.toNat = none := if_neg fun hlt => hu hlt.2
      rw [hno]
      rfl

/-- One entry of the descriptor table changes. -/
theorem openFile_update {k : Nat} (hk : k < 16) (f : FileDesc) :
    FsState.openFile { s with fds := Function.update s.fds k f } =
      Function.update s.openFile k (if f.used = true then
        some ⟨f.inode.toNat, f.offset.toNat, f.flags &&& 3#32 ≠ 0#32⟩ else none) := by
  funext i
  by_cases hi : i = k
  · subst hi
    simp [openFile, hk]
  · simp [openFile, Function.update_of_ne hi]

end

end FsState

end SengOS
