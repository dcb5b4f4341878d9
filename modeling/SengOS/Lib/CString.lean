import SengOS.Lib.Bytes

/-!
# C strings in buffers

Strings are the bytes before the NUL. `CStr` is what a `const char *` argument
can denote; inside a buffer a string starts at an offset and is compared and
copied byte by byte.
-/

namespace SengOS

/-- The bytes of a NUL-terminated string. -/
structure CStr where
  bytes : List Byte
  no_nul : 0#8 ∉ bytes

namespace Buf

variable {n : Nat}

/-- `str_eq` of the string at offset `o` with `s`. -/
def strEqAt (b : Buf n) (o : Nat) : List Byte → Bool
  | [] => b.get o == 0#8
  | c :: cs => b.get o == c && strEqAt b (o + 1) cs

/-- `str_copy_n`: at most `max - 1` bytes and a NUL. -/
def strCopyN (b : Buf n) (o : Nat) : List Byte → Nat → Buf n
  | _, 0 => b
  | [], _ + 1 => b.set o 0#8
  | _ :: _, 1 => b.set o 0#8
  | c :: cs, max + 2 => strCopyN (b.set o c) (o + 1) cs (max + 1)

/-- `mem_zero` of `m` bytes. -/
def memZero (b : Buf n) (o m : Nat) : Buf n := fun j => if o ≤ j.val ∧ j.val < o + m then 0#8 else b j

/-- The string at offset `o` of a field of `m` bytes. -/
def cstrAt (b : Buf n) (o : Nat) : Nat → List Byte
  | 0 => []
  | m + 1 => if b.get o = 0#8 then [] else b.get o :: cstrAt b (o + 1) m

/-- `mem_copy` of a record made of 32-bit fields. -/
def setWords (b : Buf n) (o : Nat) : List Word → Buf n
  | [] => b
  | w :: ws => setWords (b.setWord o w) (o + 4) ws

/-! ## Records of words -/

theorem get_setWords_ne {o j : Nat} (ws : List Word) (b : Buf n)
    (h : j < o ∨ o + 4 * ws.length ≤ j) : (b.setWords o ws).get j = b.get j := by
  induction ws generalizing b o with
  | nil => rfl
  | cons w ws ih =>
    simp only [List.length_cons] at h
    rw [setWords, ih _ (by omega), get_setWord_ne (by omega)]

theorem word_setWords_ne {o p : Nat} (ws : List Word) (b : Buf n)
    (h : p + 4 ≤ o ∨ o + 4 * ws.length ≤ p) : (b.setWords o ws).word p = b.word p := by
  apply word_congr
  intro i hi hi'
  exact get_setWords_ne ws b (by omega)

theorem word_setWords {o i : Nat} {ws : List Word} {w : Word} (b : Buf n)
    (hw : ws[i]? = some w) (h : o + 4 * ws.length ≤ n) : (b.setWords o ws).word (o + 4 * i) = w := by
  induction ws generalizing b o i with
  | nil => simp at hw
  | cons x ws ih =>
    simp only [List.length_cons] at h
    cases i with
    | zero =>
      simp only [List.getElem?_cons_zero, Option.some.injEq] at hw
      rw [setWords, Nat.mul_zero, word_setWords_ne _ _ (by omega), Nat.add_zero,
        word_setWord_self (by omega), hw]
    | succ i =>
      simp only [List.getElem?_cons_succ] at hw
      have := ih (b.setWord o x) hw (o := o + 4) (by omega)
      rw [setWords, show o + 4 * (i + 1) = o + 4 + 4 * i by omega, this]

/-! ## Strings -/

theorem get_memZero {b : Buf n} {o m i : Nat} :
    (b.memZero o m).get i = if o ≤ i ∧ i < o + m then 0#8 else b.get i := by
  unfold get memZero
  by_cases hi : i < n <;> simp [hi]

theorem get_strCopyN_ne {o i : Nat} (s : List Byte) (max : Nat) (b : Buf n)
    (h : i < o ∨ o + max ≤ i) : (b.strCopyN o s max).get i = b.get i := by
  induction max generalizing b o s with
  | zero => cases s <;> rfl
  | succ max ih =>
    cases s with
    | nil => rw [strCopyN]; exact get_set_ne (by omega) _
    | cons c cs =>
      cases max with
      | zero => rw [strCopyN]; exact get_set_ne (by omega) _
      | succ max =>
        rw [strCopyN, ih _ _ (by omega), get_set_ne (by omega)]

theorem cstrAt_congr {a b : Buf n} {o m : Nat} (h : ∀ i, o ≤ i → i < o + m → a.get i = b.get i) :
    a.cstrAt o m = b.cstrAt o m := by
  induction m generalizing o with
  | zero => rfl
  | succ m ih =>
    simp only [cstrAt, h o (by omega) (by omega)]
    rw [ih (fun i hi hi' => h i (by omega) (by omega))]

/-- A string copied into a field that has room for it is read back. -/
theorem cstrAt_strCopyN {o m : Nat} {s : List Byte} (b : Buf n) (h0 : 0#8 ∉ s)
    (hs : s.length < m) (hn : o + m ≤ n) : (b.strCopyN o s m).cstrAt o m = s := by
  induction s generalizing b o m with
  | nil =>
    obtain ⟨m, rfl⟩ : ∃ k, m = k + 1 := ⟨m - 1, by simp at hs; omega⟩
    rw [strCopyN, cstrAt, get_set_self (by omega)]
    simp
  | cons c cs ih =>
    obtain ⟨m, rfl⟩ : ∃ k, m = k + 2 := ⟨m - 2, by simp at hs; omega⟩
    simp only [List.mem_cons, not_or] at h0
    simp only [List.length_cons] at hs
    have hget : ((b.set o c).strCopyN (o + 1) cs (m + 1)).get o = c := by
      rw [get_strCopyN_ne _ _ _ (by omega), get_set_self (by omega)]
    have hrest := ih (o := o + 1) (m := m + 1) (b.set o c) h0.2 (by omega) (by omega)
    rw [strCopyN, cstrAt, hget, if_neg (Ne.symm h0.1), hrest]

/-- `str_eq` decides equality with the string the field holds. -/
theorem strEqAt_iff {o m : Nat} {s : List Byte} (b : Buf n) (h0 : 0#8 ∉ s)
    (hs : s.length < m) : b.strEqAt o s = true ↔ b.cstrAt o m = s := by
  induction s generalizing o m with
  | nil =>
    obtain ⟨m, rfl⟩ : ∃ k, m = k + 1 := ⟨m - 1, by simp at hs; omega⟩
    by_cases h : b.get o = 0#8 <;> simp [strEqAt, cstrAt, h]
  | cons c cs ih =>
    obtain ⟨m, rfl⟩ : ∃ k, m = k + 1 := ⟨m - 1, by simp at hs; omega⟩
    simp only [List.mem_cons, not_or] at h0
    simp only [List.length_cons] at hs
    have ih' := ih (o := o + 1) (m := m) h0.2 (by omega)
    simp only [strEqAt, cstrAt, Bool.and_eq_true, beq_iff_eq, ih']
    by_cases h : b.get o = 0#8
    · have : 0#8 ≠ c := h0.1
      simp [h, this]
    · simp [h]

theorem length_cstrAt_le (b : Buf n) (o m : Nat) : (b.cstrAt o m).length ≤ m := by
  induction m generalizing o with
  | zero => exact Nat.le_refl 0
  | succ m ih =>
    rw [cstrAt]
    split
    · exact Nat.zero_le _
    · exact Nat.succ_le_succ (ih (o + 1))

theorem nul_not_mem_cstrAt (b : Buf n) (o m : Nat) : 0#8 ∉ b.cstrAt o m := by
  induction m generalizing o with
  | zero => exact List.not_mem_nil
  | succ m ih =>
    rw [cstrAt]
    split
    · exact List.not_mem_nil
    · rename_i hne
      rw [List.mem_cons, not_or]
      exact ⟨Ne.symm hne, ih (o + 1)⟩

/-- A string ends in a NUL or at the end of its field. -/
theorem get_cstrAt_end {b : Buf n} {o m : Nat} (h : (b.cstrAt o m).length < m) :
    b.get (o + (b.cstrAt o m).length) = 0#8 := by
  induction m generalizing o with
  | zero => cases h
  | succ m ih =>
    rw [cstrAt] at h ⊢
    split
    · rename_i hz
      exact hz
    · rename_i hne
      rw [if_neg hne, List.length_cons] at h
      have hend := ih (o := o + 1) (by omega)
      rwa [List.length_cons, Nat.add_comm _ 1, ← Nat.add_assoc]

/-- A field with a NUL in it holds a string that is shorter than the field. -/
theorem length_cstrAt_lt {b : Buf n} {o m i : Nat} (hi : i < m) (hz : b.get (o + i) = 0#8) :
    (b.cstrAt o m).length < m := by
  induction m generalizing o i with
  | zero => cases hi
  | succ m ih =>
    rw [cstrAt]
    split
    · exact Nat.succ_pos m
    · rename_i hne
      cases i with
      | zero => exact absurd hz hne
      | succ i =>
        apply Nat.succ_lt_succ
        apply ih (Nat.lt_of_succ_lt_succ hi)
        rwa [Nat.add_right_comm]

theorem getD_cstrAt {b : Buf n} {o m i : Nat} (hi : i < (b.cstrAt o m).length) :
    (b.cstrAt o m).getD i 0#8 = b.get (o + i) := by
  induction m generalizing o i with
  | zero => cases hi
  | succ m ih =>
    rw [cstrAt] at hi ⊢
    split at hi
    · cases hi
    · rename_i hne
      rw [if_neg hne]
      cases i with
      | zero => rfl
      | succ i =>
        rw [List.getD_cons_succ, ih (Nat.lt_of_succ_lt_succ hi), Nat.add_assoc, Nat.add_comm 1]

theorem get_of_cstrAt {b : Buf n} {o m i : Nat} {c : Byte} (h : (b.cstrAt o m)[i]? = some c) :
    b.get (o + i) = c := by
  have hlt : i < (b.cstrAt o m).length := (List.getElem?_eq_some_iff.mp h).1
  rw [← getD_cstrAt hlt, List.getD_eq_getElem?_getD, h]
  rfl

/-- What a copy leaves in a field that has room for the string. -/
theorem get_strCopyN {b : Buf n} {o m i : Nat} {s : List Byte} (hs : s.length < m) (hi : i < n) :
    (b.strCopyN o s m).get i =
      if o ≤ i ∧ i ≤ o + s.length then (s ++ [0#8]).getD (i - o) 0#8 else b.get i := by
  induction s generalizing b o m with
  | nil =>
    obtain ⟨m, rfl⟩ : ∃ k, m = k + 1 := ⟨m - 1, by simp at hs; omega⟩
    rw [strCopyN, get_set]
    by_cases hio : i = o
    · subst hio
      simp [hi]
    · rw [if_neg fun h => hio h.1, if_neg]
      rw [List.length_nil]
      omega
  | cons c cs ih =>
    obtain ⟨m, rfl⟩ : ∃ k, m = k + 2 := ⟨m - 2, by simp at hs; omega⟩
    simp only [List.length_cons] at hs
    rw [strCopyN, ih (by omega), get_set]
    by_cases hio : i = o
    · subst hio
      rw [if_neg (by omega), if_pos ⟨rfl, hi⟩, if_pos (by simp), Nat.sub_self]
      rfl
    · rw [if_neg (show ¬ (i = o ∧ i < n) from fun h => hio h.1)]
      by_cases hin : o + 1 ≤ i ∧ i ≤ o + 1 + cs.length
      · rw [if_pos hin, if_pos (by rw [List.length_cons]; omega),
          show i - o = (i - (o + 1)) + 1 by omega]
        rfl
      · rw [if_neg hin, if_neg (by rw [List.length_cons]; omega)]

theorem cstrAt_nul {b : Buf n} {o : Nat} (h : b.get o = 0#8) (m : Nat) : b.cstrAt o m = [] := by
  cases m with
  | zero => rfl
  | succ m => exact if_pos h

/-- The bytes of a string and a NUL behind them. -/
theorem cstrAt_of_get {b : Buf n} {o m : Nat} {s : List Byte} (h0 : 0#8 ∉ s) (hs : s.length < m)
    (hbytes : ∀ i c, s[i]? = some c → b.get (o + i) = c) (hend : b.get (o + s.length) = 0#8) :
    b.cstrAt o m = s := by
  induction s generalizing o m with
  | nil => exact cstrAt_nul hend m
  | cons c cs ih =>
    obtain ⟨m, rfl⟩ : ∃ k, m = k + 1 := ⟨m - 1, by simp at hs; omega⟩
    rw [List.mem_cons, not_or] at h0
    rw [List.length_cons] at hs hend
    have hfirst : b.get o = c := hbytes 0 c rfl
    have hrest : b.cstrAt (o + 1) m = cs := by
      apply ih h0.2 (by omega)
      · intro i d hd
        rw [Nat.add_assoc, Nat.add_comm 1]
        exact hbytes (i + 1) d hd
      · rw [Nat.add_assoc, Nat.add_comm 1]
        exact hend
    rw [cstrAt, hfirst, if_neg (Ne.symm h0.1), hrest]

theorem cstrAt_eq_map (b : Buf n) (m : Nat) :
    b.cstrAt 0 m = (List.range (b.cstrAt 0 m).length).map b.get := by
  apply List.ext_getElem
  · rw [List.length_map, List.length_range]
  · intro i hi _
    have hget := get_of_cstrAt (List.getElem?_eq_getElem hi)
    rw [Nat.zero_add] at hget
    rw [List.getElem_map, List.getElem_range, hget]

/-- A NUL where the string ends already. -/
theorem cstrAt_set_end {b : Buf n} (hfits : (b.cstrAt 0 n).length < n) :
    (b.set (b.cstrAt 0 n).length 0#8).cstrAt 0 n = b.cstrAt 0 n := by
  have hend := get_cstrAt_end hfits
  rw [Nat.zero_add] at hend
  apply cstrAt_congr
  intro i _ _
  rw [get_set]
  split
  · rename_i hi
    rw [hi.1, hend]
  · rfl

/-- A byte more behind a string that has room for it. -/
theorem cstrAt_push {b : Buf n} (hfits : (b.cstrAt 0 n).length + 1 < n) {c : Byte} (hc : c ≠ 0#8) :
    ((b.set (b.cstrAt 0 n).length c).set ((b.cstrAt 0 n).length + 1) 0#8).cstrAt 0 n =
      b.cstrAt 0 n ++ [c] := by
  have hlen : (b.cstrAt 0 n ++ [c]).length = (b.cstrAt 0 n).length + 1 := List.length_append
  apply cstrAt_of_get
  · intro h
    rcases List.mem_append.mp h with h | h
    · exact nul_not_mem_cstrAt b 0 n h
    · exact hc (List.mem_singleton.mp h).symm
  · rw [hlen]
    exact hfits
  · intro i d hd
    have hi : i < (b.cstrAt 0 n).length + 1 := by
      rw [← hlen]
      exact (List.getElem?_eq_some_iff.mp hd).1
    rw [Nat.zero_add, get_set_ne (by omega)]
    by_cases hlast : i = (b.cstrAt 0 n).length
    · rw [hlast, List.getElem?_append_right (Nat.le_refl _), Nat.sub_self] at hd
      rw [hlast, get_set_self (by omega)]
      exact Option.some.inj hd
    · rw [List.getElem?_append_left (by omega)] at hd
      have hget := get_of_cstrAt hd
      rw [Nat.zero_add] at hget
      rw [get_set_ne hlast, hget]
  · rw [hlen, Nat.zero_add, get_set_self hfits]

/-- A NUL over the last byte of a string. -/
theorem cstrAt_pop {b : Buf n} (hfits : (b.cstrAt 0 n).length < n) :
    (b.set ((b.cstrAt 0 n).length - 1) 0#8).cstrAt 0 n = (b.cstrAt 0 n).dropLast := by
  have hlen : (b.cstrAt 0 n).dropLast.length = (b.cstrAt 0 n).length - 1 := List.length_dropLast
  apply cstrAt_of_get
  · exact fun h => nul_not_mem_cstrAt b 0 n (List.dropLast_subset _ h)
  · rw [hlen]
    omega
  · intro i d hd
    have hi : i < (b.cstrAt 0 n).length - 1 := by
      rw [← hlen]
      exact (List.getElem?_eq_some_iff.mp hd).1
    rw [List.getElem?_dropLast, if_pos hi] at hd
    rw [Nat.zero_add, get_set_ne (by omega)]
    have hget := get_of_cstrAt hd
    rwa [Nat.zero_add] at hget
  · rw [hlen, Nat.zero_add, get_set_self (by omega)]

theorem cstrAt_short (b : Buf n) {o m : Nat} (h : (b.cstrAt o (m + 1)).length ≤ m) :
    b.cstrAt o m = b.cstrAt o (m + 1) := by
  induction m generalizing o with
  | zero => exact (List.eq_nil_of_length_eq_zero (Nat.le_zero.mp h)).symm
  | succ m ih =>
    rw [cstrAt, cstrAt]
    rw [cstrAt] at h
    split
    · rfl
    · rename_i h0
      rw [if_neg h0, List.length_cons] at h
      rw [ih (by omega)]

/-- A buffer that keeps a string's bytes holds a string that goes on from it. -/
theorem cstrAt_prefix {a b : Buf n} {o m : Nat}
    (h : ∀ i, i < (a.cstrAt o m).length → b.get (o + i) = a.get (o + i)) :
    a.cstrAt o m <+: b.cstrAt o m := by
  induction m generalizing o with
  | zero => exact List.prefix_refl []
  | succ m ih =>
    by_cases hz : a.get o = 0#8
    · rw [cstrAt, if_pos hz]
      exact List.nil_prefix
    · rw [cstrAt, if_neg hz, List.length_cons] at h
      have hfirst : b.get o = a.get o := h 0 (Nat.succ_pos _)
      rw [cstrAt, cstrAt, if_neg hz, hfirst, if_neg hz, List.cons_prefix_cons]
      refine ⟨rfl, ih fun i hi => ?_⟩
      have hnext := h (i + 1) (Nat.succ_lt_succ hi)
      rwa [← Nat.add_assoc, Nat.add_right_comm] at hnext

/-! ## Single stores -/

/-- The stores, in order, of a copy loop and of the NUL behind it: index and byte. -/
def copyStores (o : Nat) (s : List Byte) : List (Nat × Byte) :=
  (s.zipIdx o).map Prod.swap ++ [(o + s.length, 0#8)]

def setAll (b : Buf n) (ws : List (Nat × Byte)) : Buf n := ws.foldl (fun b w => b.set w.1 w.2) b

theorem setAll_append (b : Buf n) (vs ws : List (Nat × Byte)) :
    b.setAll (vs ++ ws) = (b.setAll vs).setAll ws :=
  List.foldl_append

theorem copyStores_cons (o : Nat) (c : Byte) (cs : List Byte) :
    copyStores o (c :: cs) = (o, c) :: copyStores (o + 1) cs := by
  simp only [copyStores, List.zipIdx_cons, List.map_cons, List.length_cons, List.cons_append,
    Prod.swap_prod_mk]
  rw [Nat.add_right_comm, Nat.add_assoc]

theorem copyStores_le {o : Nat} {s : List Byte} {w : Nat × Byte} (hw : w ∈ copyStores o s) :
    w.1 ≤ o + s.length := by
  induction s generalizing o with
  | nil =>
    exact Nat.le_of_eq (congrArg Prod.fst (List.mem_singleton.mp hw))
  | cons c cs ih =>
    rw [copyStores_cons, List.mem_cons] at hw
    rw [List.length_cons]
    rcases hw with rfl | hw
    · exact Nat.le_add_right o _
    · have := ih hw
      omega

/-- A copy that has room for the string is these stores. -/
theorem strCopyN_eq_setAll {o m : Nat} {s : List Byte} (b : Buf n) (hs : s.length < m) :
    b.strCopyN o s m = b.setAll (copyStores o s) := by
  induction s generalizing b o m with
  | nil =>
    obtain ⟨m, rfl⟩ : ∃ k, m = k + 1 := ⟨m - 1, by simp at hs; omega⟩
    rfl
  | cons c cs ih =>
    obtain ⟨m, rfl⟩ : ∃ k, m = k + 2 := ⟨m - 2, by simp at hs; omega⟩
    simp only [List.length_cons] at hs
    rw [strCopyN, ih _ (by omega), copyStores_cons]
    rfl

end Buf

end SengOS
