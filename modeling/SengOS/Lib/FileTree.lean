import Mathlib.Tactic.Common
import Mathlib.Logic.Function.Basic

/-!
# File trees

Objects under numbers. A directory leads from names to objects, a file holds a list of
symbols. What a write at an offset makes of the content of a file, and the changes of one
object that file systems are made of.
-/

namespace SengOS

/-- `new` replaces what stands from `o` on; a gap before it is filled with `pad`. -/
def overwrite {β : Type*} (pad : β) (old : List β) (o : Nat) (new : List β) : List β :=
  if new.isEmpty then old
  else old.take o ++ List.replicate (o - old.length) pad ++ new ++ old.drop (o + new.length)

section
variable {β : Type*} (pad : β)

/-- A write at the end appends. -/
theorem overwrite_end (old new : List β) : overwrite pad old old.length new = old ++ new := by
  unfold overwrite
  split
  · rename_i he
    rw [List.isEmpty_iff.mp he, List.append_nil]
  · simp

theorem getElem?_gap {old : List β} {o p : Nat} (hp : p < o) :
    (old.take o ++ List.replicate (o - old.length) pad)[p]? = some (old[p]?.getD pad) := by
  by_cases hlen : p < old.length
  · rw [List.getElem?_append_left (by rw [List.length_take]; omega), List.getElem?_take_of_lt hp,
      List.getElem?_eq_getElem hlen]
    rfl
  · rw [List.getElem?_append_right (by rw [List.length_take]; omega), List.getElem?_replicate,
      if_pos (by rw [List.length_take]; omega), List.getElem?_eq_none (by omega)]
    rfl

/-- The content as a list of the values at the positions below `n`. -/
theorem overwrite_range {f g : Nat → β} {n o k : Nat} (hpad : ∀ p, n ≤ p → p < o → f p = pad) :
    overwrite pad ((List.range n).map f) o ((List.range k).map g) =
      (List.range (if k = 0 then n else max n (o + k))).map fun p =>
        if o ≤ p ∧ p < o + k then g (p - o) else f p := by
  unfold overwrite
  by_cases hk : k = 0
  · have hout (p : Nat) : ¬ (o ≤ p ∧ p < o + 0) := by omega
    simp only [hk, hout, List.range_zero, List.map_nil, List.isEmpty_nil, ↓reduceIte]
  have hne : ((List.range k).map g).isEmpty = false := by simpa using hk
  simp only [hne, Bool.false_eq_true, ↓reduceIte, hk, List.length_map, List.length_range]
  apply List.ext_getElem?
  intro p
  have hgap : ((List.range n).map f).take o ++ List.replicate (o - n) pad =
      ((List.range n).map f).take o ++ List.replicate (o - ((List.range n).map f).length) pad := by
    rw [List.length_map, List.length_range]
  have hlen : (((List.range n).map f).take o ++ List.replicate (o - n) pad).length = o := by
    rw [List.length_append, List.length_take, List.length_map, List.length_range,
      List.length_replicate]
    omega
  rcases Nat.lt_or_ge p o with hp | hp
  · -- before the write
    rw [List.append_assoc, List.getElem?_append_left (by omega), hgap, getElem?_gap pad hp,
      List.getElem?_map (f := fun p => if o ≤ p ∧ p < o + k then g (p - o) else f p),
      List.getElem?_range (by omega), Option.map_some, if_neg (by omega)]
    rcases Nat.lt_or_ge p n with hn | hn
    · rw [List.getElem?_map, List.getElem?_range hn]
      rfl
    · rw [List.getElem?_eq_none (by simpa using hn), hpad p hn hp]
      rfl
  rcases Nat.lt_or_ge p (o + k) with hp' | hp'
  · -- what was written
    rw [List.append_assoc, List.getElem?_append_right (by omega), hlen,
      List.getElem?_append_left (by simp only [List.length_map, List.length_range]; omega),
      List.getElem?_map, List.getElem?_range (by omega),
      List.getElem?_map, List.getElem?_range (by omega), Option.map_some, Option.map_some,
      if_pos ⟨hp, hp'⟩]
  · -- behind the write
    rw [List.getElem?_append_right
        (by rw [List.length_append, hlen, List.length_map, List.length_range]; omega),
      List.length_append, hlen, List.length_map, List.length_range, List.getElem?_drop,
      List.getElem?_map, List.getElem?_map, show o + k + (p - (o + k)) = p by omega]
    rcases Nat.lt_or_ge p n with hn | hn
    · rw [List.getElem?_range hn, List.getElem?_range (by omega), Option.map_some, Option.map_some,
        if_neg (by omega)]
    · rw [List.getElem?_eq_none (by simpa using hn), List.getElem?_eq_none (by simp; omega)]
      rfl

end

/-! ## Trees -/

inductive FileNode (ι κ β : Type*) where
  | dir (names : κ → Option ι)
  | file (content : List β)

abbrev FileTree (ι κ β : Type*) := ι → Option (FileNode ι κ β)

namespace FileTree

variable {ι κ β : Type*} (t : FileTree ι κ β)

/-- The object that a directory has under a name. -/
def find (d : ι) (x : κ) : Option ι :=
  match t d with
  | some (.dir names) => names x
  | _ => none

def IsDir (i : ι) : Prop := ∃ names, t i = some (.dir names)

theorem find_dir {t : FileTree ι κ β} {d : ι} {names : κ → Option ι} (h : t d = some (.dir names))
    (x : κ) : t.find d x = names x := by
  unfold find
  rw [h]

theorem find_of_not_dir {t : FileTree ι κ β} {d : ι} (h : ¬ t.IsDir d) (x : κ) : t.find d x = none := by
  unfold find
  split
  · rename_i names hd
    exact absurd ⟨names, hd⟩ h
  · rfl

section
variable [DecidableEq ι]

/-- The content of a file is replaced. -/
def put (i : ι) (content : List β) : FileTree ι κ β := Function.update t i (some (.file content))

theorem put_self {t : FileTree ι κ β} {i : ι} {content : List β} (h : t i = some (.file content)) :
    t.put i content = t := by
  rw [put, ← h]
  exact Function.update_eq_self i t

@[simp] theorem put_idem (i : ι) (a b : List β) : (t.put i a).put i b = t.put i b :=
  Function.update_idem ..

@[simp] theorem put_apply_self (i : ι) (content : List β) :
    t.put i content i = some (.file content) := Function.update_self ..

theorem put_find {t : FileTree ι κ β} {i : ι} {old content : List β} (h : t i = some (.file old)) :
    (t.put i content).find = t.find := by
  funext e y
  unfold find put
  by_cases he : e = i
  · rw [he, Function.update_self, h]
  · rw [Function.update_of_ne he]

variable [DecidableEq κ]

/-- A directory leads somewhere else under one name, or nowhere. -/
def setName (d : ι) (x : κ) (o : Option ι) : FileTree ι κ β :=
  match t d with
  | some (.dir names) => Function.update t d (some (.dir (Function.update names x o)))
  | _ => t

/-- A new object under a name. -/
def link (d : ι) (x : κ) (i : ι) (n : FileNode ι κ β) : FileTree ι κ β :=
  Function.update (t.setName d x (some i)) i (some n)

/-- The object and its name are gone. -/
def unlink (d : ι) (x : κ) (i : ι) : FileTree ι κ β :=
  Function.update (t.setName d x none) i none

variable {t} {t' : FileTree ι κ β} {d i j : ι} {x : κ} {names : κ → Option ι} {content : List β}

theorem setName_dir (h : t d = some (.dir names)) (o : Option ι) :
    t.setName d x o = Function.update t d (some (.dir (Function.update names x o))) := by
  unfold setName
  rw [h]

/-- A tree in which one object is new, and named by `d`, and the rest is as before. -/
theorem eq_link {n : FileNode ι κ β} (hd : t d = some (.dir names))
    (new : t' i = some n) (named : t' d = some (.dir (Function.update names x (some i))))
    (others : ∀ j, j ≠ i → j ≠ d → t' j = t j) : t' = t.link d x i n := by
  funext j
  rw [link, setName_dir hd]
  by_cases hi : j = i
  · rw [hi, Function.update_self, new]
  rw [Function.update_of_ne hi]
  by_cases hj : j = d
  · rw [hj, Function.update_self, named]
  · rw [Function.update_of_ne hj, others j hi hj]

theorem eq_unlink (hd : t d = some (.dir names)) (gone : t' i = none)
    (unnamed : t' d = some (.dir (Function.update names x none)))
    (others : ∀ j, j ≠ i → j ≠ d → t' j = t j) : t' = t.unlink d x i := by
  funext j
  rw [unlink, setName_dir hd]
  by_cases hi : j = i
  · rw [hi, Function.update_self, gone]
  rw [Function.update_of_ne hi]
  by_cases hj : j = d
  · rw [hj, Function.update_self, unnamed]
  · rw [Function.update_of_ne hj, others j hi hj]

/-- Files are not changed through their directories. -/
theorem setName_of_file (o : Option ι) (h : t i = some (.file content)) :
    t.setName d x o i = some (.file content) := by
  unfold setName
  cases hd : t d with
  | none => exact h
  | some n =>
    cases n with
    | file c => exact h
    | dir names =>
      have hne : i ≠ d := by
        rintro rfl
        rw [hd] at h
        cases h
      exact (Function.update_of_ne hne _ _).trans h

theorem link_of_file (n : FileNode ι κ β) (h : t i = some (.file content)) (hne : i ≠ j) :
    t.link d x j n i = some (.file content) :=
  (Function.update_of_ne hne _ _).trans (setName_of_file _ h)

theorem unlink_of_file (h : t i = some (.file content)) (hne : i ≠ j) :
    t.unlink d x j i = some (.file content) :=
  (Function.update_of_ne hne _ _).trans (setName_of_file _ h)

theorem link_find {n : FileNode ι κ β} {e k : ι} {y : κ}
    (free : t.find d x = none) (hj : t j = none) (h : t.find e y = some k) :
    (t.link d x j n).find e y = some k := by
  have he : e ≠ j := by
    rintro rfl
    rw [find_of_not_dir (fun ⟨names, hd⟩ => by rw [hj] at hd; cases hd)] at h
    cases h
  unfold find link
  rw [Function.update_of_ne he]
  unfold setName
  cases hd : t d with
  | none => exact h
  | some node =>
    cases node with
    | file c => exact h
    | dir names =>
      by_cases hed : e = d
      · subst hed
        rw [find_dir hd] at h free
        simp only [Function.update_self]
        by_cases hy : y = x
        · rw [hy, free] at h
          cases h
        · rw [Function.update_of_ne hy]
          exact h
      · simp only [Function.update_of_ne hed]
        exact h

end

end FileTree

end SengOS
