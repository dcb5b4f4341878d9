import SengOS.Fs.View

/-!
# Directory blocks

A directory block read as 128 optional entries, and what the stores of
`dir_add`, `dir_remove` and `create_inode` do to them.
-/

namespace SengOS

/-- Entry `s` of a directory block: name and inode number. -/
def dirent (b : Block) (s : Nat) : Option (List Byte × Nat) :=
  if direntInode b s = invalidInode then none
  else some (b.cstrAt (32 * s) 28, (direntInode b s).toNat)

/-- A name `split_parent` can return. -/
structure GoodName (x : List Byte) : Prop where
  ne_nil : x ≠ []
  length : x.length ≤ 27
  no_nul : 0#8 ∉ x
  no_slash : slash ∉ x

theorem goodName_dot : GoodName dotName := by
  constructor <;> decide

theorem goodName_dotdot : GoodName dotdotName := by
  constructor <;> decide

theorem dirent_congr {a b : Block} {s : Nat} (h : ∀ i, 32 * s ≤ i → i < 32 * s + 32 → a.get i = b.get i) :
    dirent a s = dirent b s := by
  have hi : direntInode a s = direntInode b s :=
    Buf.word_congr fun i hi hi' => h i (by omega) (by omega)
  have hn : a.cstrAt (32 * s) 28 = b.cstrAt (32 * s) 28 :=
    Buf.cstrAt_congr fun i hi hi' => h i (by omega) (by omega)
  rw [dirent, dirent, hi, hn]

/-! ## Stores -/

theorem dirent_name_inode {b : Block} {s : Nat} (hs : s < 128) {x : List Byte} (hx : GoodName x)
    {w : Word} (hw : w ≠ invalidInode) :
    dirent ((b.strCopyN (32 * s) x 28).setWord (32 * s + 28) w) s = some (x, w.toNat) := by
  have hi : direntInode ((b.strCopyN (32 * s) x 28).setWord (32 * s + 28) w) s = w :=
    Buf.word_setWord_self (by omega) w
  have hn : ((b.strCopyN (32 * s) x 28).setWord (32 * s + 28) w).cstrAt (32 * s) 28 = x := by
    have hc := Buf.cstrAt_strCopyN b hx.no_nul (by have := hx.length; omega : x.length < 28)
      (by omega : 32 * s + 28 ≤ 4096)
    refine (Buf.cstrAt_congr fun i _ hi => ?_).trans hc
    exact Buf.get_setWord_ne (by omega) w
  rw [dirent, hi, if_neg hw, hn]

theorem get_name_inode_ne {b : Block} {s i : Nat} (h : i < 32 * s ∨ 32 * s + 32 ≤ i) (x : List Byte)
    (w : Word) : ((b.strCopyN (32 * s) x 28).setWord (32 * s + 28) w).get i = b.get i := by
  rw [Buf.get_setWord_ne (by omega), Buf.get_strCopyN_ne _ _ _ (by omega)]

/-- `dir_add` fills its slot and no other one. -/
theorem dirent_store {b : Block} {s t : Nat} (hs : s < 128) {x : List Byte} (hx : GoodName x)
    {w : Word} (hw : w ≠ invalidInode) :
    dirent (direntStore b s x w) t = if t = s then some (x, w.toNat) else dirent b t := by
  unfold direntStore
  by_cases h : t = s
  · subst h
    rw [dirent_name_inode hs hx hw, if_pos rfl]
  · rw [if_neg h]
    apply dirent_congr
    intro i hi hi'
    rw [get_name_inode_ne (by omega), Buf.get_memZero, if_neg (by omega)]

/-- `dir_remove` frees its slot and no other one. -/
theorem dirent_clear {b : Block} {s t : Nat} (hs : s < 128) :
    dirent (direntClear b s) t = if t = s then none else dirent b t := by
  unfold direntClear
  by_cases h : t = s
  · subst h
    have : direntInode ((b.setWord (32 * t + 28) invalidInode).set (32 * t) 0#8) t = invalidInode := by
      rw [direntInode, Buf.word_set_ne (by omega), Buf.word_setWord_self (by omega)]
    rw [dirent, if_pos this, if_pos rfl]
  · rw [if_neg h]
    apply dirent_congr
    intro i hi hi'
    rw [Buf.get_set_ne (by omega), Buf.get_setWord_ne (by omega)]

theorem dirent_free {s : Nat} (hs : s < 128) : dirent freeDirents s = none := by
  have byte (k : Nat) (h1 : 28 ≤ k) (h2 : k < 32) : freeDirents.get (32 * s + k) = 0xFF#8 := by
    rw [freeDirents, Buf.get_ofFn (by omega), if_pos (by omega)]
  have : direntInode freeDirents s = invalidInode := by
    unfold direntInode Buf.word
    rw [byte 28 (by omega) (by omega), show 32 * s + 28 + 1 = 32 * s + 29 by rfl,
      show 32 * s + 28 + 2 = 32 * s + 30 by rfl, show 32 * s + 28 + 3 = 32 * s + 31 by rfl,
      byte 29 (by omega) (by omega), byte 30 (by omega) (by omega), byte 31 (by omega) (by omega)]
    decide
  rw [dirent, if_pos this]

/-- A new directory holds its two links and nothing else. -/
theorem dirent_dots {self parent : Word} (h1 : self ≠ invalidInode) (h2 : parent ≠ invalidInode) :
    dirent (dotDirents self parent) 0 = some (dotName, self.toNat) ∧
    dirent (dotDirents self parent) 1 = some (dotdotName, parent.toNat) ∧
    ∀ s, 2 ≤ s → s < 128 → dirent (dotDirents self parent) s = none := by
  have other (b : Block) (s t : Nat) (x : List Byte) (w : Word) (h : t ≠ s) :
      dirent ((b.strCopyN (32 * s) x 28).setWord (32 * s + 28) w) t = dirent b t :=
    dirent_congr fun i hi hi' => get_name_inode_ne (by omega) x w
  unfold dotDirents
  refine ⟨?_, ?_, ?_⟩
  · have := other ((freeDirents.strCopyN 0 dotName 28).setWord 28 self) 1 0 dotdotName parent (by decide)
    exact this.trans (dirent_name_inode (s := 0) (by decide) goodName_dot h1)
  · exact dirent_name_inode (s := 1) (by decide) goodName_dotdot h2
  · intro s hs hs'
    have e1 := other ((freeDirents.strCopyN 0 dotName 28).setWord 28 self) 1 s dotdotName parent (by omega)
    have e0 := other freeDirents 0 s dotName self (by omega)
    exact e1.trans (e0.trans (dirent_free hs'))

/-! ## Search -/

theorem direntFind_some {b : Block} {x : List Byte} (hx : GoodName x) {s : Nat} {w : Word}
    (h : direntFind b x = some (s, w)) :
    s < 128 ∧ dirent b s = some (x, w.toNat) ∧ w = direntInode b s := by
  unfold direntFind at h
  obtain ⟨i, hi, hf⟩ := List.exists_of_findSome?_eq_some h
  have hi' := List.mem_range.mp hi
  split at hf
  · rename_i hc
    cases hf
    have hn := (Buf.strEqAt_iff b hx.no_nul (by have := hx.length; omega : x.length < 28)).mp hc.2
    exact ⟨hi', by rw [dirent, if_neg hc.1, hn], rfl⟩
  · cases hf

theorem direntFind_none {b : Block} {x : List Byte} (hx : GoodName x) :
    direntFind b x = none ↔ ∀ s i, s < 128 → dirent b s ≠ some (x, i) := by
  unfold direntFind
  rw [List.findSome?_eq_none_iff]
  constructor
  · intro h s i hs he
    have hc := h s (List.mem_range.mpr hs)
    unfold dirent at he
    split at he
    · cases he
    · rename_i hv
      cases he
      have heq := (Buf.strEqAt_iff b hx.no_nul (by have := hx.length; omega : _ < 28)).mpr
        (show b.cstrAt (32 * s) 28 = b.cstrAt (32 * s) 28 from rfl)
      rw [if_pos ⟨hv, heq⟩] at hc
      cases hc
  · intro h s hs
    rw [if_neg]
    rintro ⟨hv, heq⟩
    have hn := (Buf.strEqAt_iff b hx.no_nul (by have := hx.length; omega : x.length < 28)).mp heq
    exact h s _ (List.mem_range.mp hs) (by rw [dirent, if_neg hv, hn])

theorem freeSlot_some {b : Block} {s : Nat}
    (h : (List.range 128).find? (fun i => direntInode b i = invalidInode) = some s) :
    s < 128 ∧ dirent b s = none := by
  have hm := List.mem_range.mp (List.mem_of_find?_eq_some h)
  have hp := List.find?_some h
  simp only [decide_eq_true_eq] at hp
  exact ⟨hm, by rw [dirent, if_pos hp]⟩

theorem freeSlot_none {b : Block} :
    (List.range 128).find? (fun i => direntInode b i = invalidInode) = none ↔
      ∀ s, s < 128 → dirent b s ≠ none := by
  rw [List.find?_eq_none]
  constructor
  · intro h s hs
    have := h s (List.mem_range.mpr hs)
    simp only [decide_eq_true_eq] at this
    simp [dirent, this]
  · intro h s hs
    have := h s (List.mem_range.mp hs)
    simp only [decide_eq_true_eq]
    intro e
    exact this (by rw [dirent, if_pos e])

theorem dirNonEmpty_iff {b : Block} :
    FsState.dirNonEmpty b = true ↔ ∃ s, 2 ≤ s ∧ s < 128 ∧ dirent b s ≠ none := by
  unfold FsState.dirNonEmpty
  rw [List.any_eq_true]
  constructor
  · rintro ⟨s, hs, hv⟩
    have := List.mem_range'_1.mp hs
    simp only [ne_eq, decide_not, Bool.not_eq_true', decide_eq_false_iff_not] at hv
    exact ⟨s, by omega, by omega, by simp [dirent, hv]⟩
  · rintro ⟨s, h2, hs, hv⟩
    refine ⟨s, List.mem_range'_1.mpr (by omega), ?_⟩
    simp only [ne_eq, decide_not, Bool.not_eq_true', decide_eq_false_iff_not]
    intro e
    exact hv (by rw [dirent, if_pos e])

end SengOS
