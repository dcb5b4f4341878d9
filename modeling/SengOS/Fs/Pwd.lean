import SengOS.Fs.Runs

/-!
# Path names

`resolve_path` on paths joined from pieces, and `fs_pwd`, which climbs from
the current directory to the root and writes the names it finds on the way
back down.
-/

namespace SengOS

/-! ## Joining paths -/

/-- Resolution is compositional, and redundant slashes and dots do not count.
The empty string is refused everywhere, so it is not one of the paths. -/
theorem resolvePath_compositional (st : FsState) :
    (∀ (p q : List Byte) (s x : Nat), p ≠ [] → q ≠ [] → q.head? ≠ some slash →
      (resolvePath (lookup st.dev.disk) (p ++ slash :: q) s = some x ↔
        ∃ d, resolvePath (lookup st.dev.disk) p s = some d ∧
          resolvePath (lookup st.dev.disk) q d = some x)) ∧
    (∀ (u w : List Byte) (s : Nat), resolvePath (lookup st.dev.disk) (u ++ slash :: slash :: w) s =
      resolvePath (lookup st.dev.disk) (u ++ slash :: w) s) ∧
    (∀ (u w : List Byte) (s : Nat),
      resolvePath (lookup st.dev.disk) (u ++ slash :: (dotName ++ slash :: w)) s =
        resolvePath (lookup st.dev.disk) (u ++ slash :: w) s) ∧
    (∀ (q : List Byte) (s : Nat), q ≠ [] → q.head? ≠ some slash →
      resolvePath (lookup st.dev.disk) (dotName ++ slash :: q) s =
        resolvePath (lookup st.dev.disk) q s) := by
  have first (u w z : List Byte) :
      (u ++ slash :: w).head? = some slash ↔ (u ++ slash :: z).head? = some slash := by
    cases u <;> simp
  refine ⟨?_, ?_, ?_, ?_⟩
  · intro p q s x hp hq hrel
    rw [resolvePath_append hp hq hrel, Option.bind_eq_some_iff]
  · intro u w s
    apply resolvePath_congr (by simp) (by simp) (first _ _ _)
    intro cur
    rw [components_append, components_append, components_slash]
  · intro u w s
    apply resolvePath_congr (by simp) (by simp) (first _ _ _)
    intro cur
    rw [components_append, components_append u w, components_dot, walk_append, walk_append]
    simp only [walk_dot]
  · intro q s hq hrel
    apply resolvePath_congr (by simp [dotName]) hq
    · have hdot : (dotName ++ slash :: q).head? = some 0x2E#8 := rfl
      rw [hdot]
      exact ⟨fun e => absurd e (by decide), fun e => absurd e hrel⟩
    · intro cur
      rw [components_dot, walk_dot]

/-! ## `fs_pwd` -/

/-- The caller's buffer, with the indices that have been stored to. -/
structure CharBuf where
  bytes : Nat → Byte
  stored : List Nat

namespace CharBuf

def put (b : CharBuf) (i : Nat) (c : Byte) : CharBuf := ⟨Function.update b.bytes i c, i :: b.stored⟩

/-- `mem_copy` to `buf + i`. -/
def memCopy (b : CharBuf) (i : Nat) : List Byte → CharBuf
  | [] => b
  | c :: cs => (b.put i c).memCopy (i + 1) cs

/-- The buffer starts with the bytes `p`. -/
def Begins (b : CharBuf) (p : List Byte) : Prop := ∀ i c, p[i]? = some c → b.bytes i = c

/-- The buffer holds the string `p`. -/
def Holds (b : CharBuf) (p : List Byte) : Prop := b.Begins p ∧ b.bytes p.length = 0#8

end CharBuf

/-- The name of the first entry of the parent's block that is `ino` and neither
"." nor ".."; empty if there is none. -/
def nameInParent (b : Block) (ino : Nat) : List Byte :=
  match (List.range 128).find? fun i => (direntInode b i).toNat == ino &&
      !b.strEqAt (32 * i) dotName && !b.strEqAt (32 * i) dotdotName with
  | some i => b.cstrAt (32 * i) 27
  | none => []

/-- The last part of `pwd_rec`: the name goes behind the path of the parent. -/
def pwdAppend (len : Word) (name : List Byte) (buf : CharBuf) (pos : Word) : Int × CharBuf × Word :=
  let n := BitVec.ofNat 32 name.length
  if len ≤ pos + n + 1#32 then (-1, buf, pos)
  else
    let (buf, pos) := if 1#32 < pos then (buf.put pos.toNat slash, pos + 1#32) else (buf, pos)
    (0, (buf.memCopy pos.toNat name).put (pos + n).toNat 0#8, pos + n)

/-- `pwd_rec`: the return value, the buffer and `*pos`; `none` if the recursion
has not come to an end. -/
def pwdRec (d : Disk) (len : Word) : Nat → Nat → CharBuf → Word → Option (Int × CharBuf × Word)
  | 0, _, _, _ => none
  | fuel + 1, ino, buf, pos =>
    if ino = 0 then
      if len ≤ pos + 1#32 then some (-1, buf, pos)
      else some (0, (buf.put pos.toNat slash).put (pos + 1#32).toNat 0#8, pos + 1#32)
    else
      match lookup d ino dotdotName with
      | none => some (-1, buf, pos)
      | some parent =>
        if (dirFind d parent dotName).isNone then some (-1, buf, pos)
        else
          let pd := inodeRead d parent
          -- `block_buf` holds the inode table block here
          let b := ramdiskReadBlock d (pd.direct 0).toNat (readBlock d (inodeBlock parent))
          let name := nameInParent b ino
          if name = [] then some (-1, buf, pos)
          else
            match pwdRec d len fuel parent buf pos with
            | none => none
            | some (rc, buf, pos) =>
              if rc < 0 then some (-1, buf, pos) else some (pwdAppend len name buf pos)

/-- `fs_pwd`; a buffer that is not there is `none`. -/
def FsState.fsPwd (s : FsState) (fuel : Nat) (buf : Option CharBuf) (len : Word) :
    Option (Int × Option CharBuf) :=
  match buf with
  | none => some (-1, none)
  | some buf =>
    if len < 2#32 then some (-1, some buf)
    else
      (pwdRec s.dev.disk len fuel s.cwdInode.toNat (buf.put 0 0#8) 0#32).map
        fun r => (r.1, some r.2.1)

/-! ## The name of a directory -/

section
variable {d : Disk}

/-- No two entries of a directory lead to the same child. -/
theorem FsInv.slot_unique {v : View} (h : FsInv v) {p i s t : Nat} {x y : List Byte} (hp : v.isDir p)
    (h2 : 2 ≤ s) (hs : s < 128) (he : v.entry p s = some (x, i)) (ht : t < 128)
    (het : v.entry p t = some (y, i)) (hdot : y ≠ dotName) (hdotdot : y ≠ dotdotName) : t = s := by
  have ht2 : 2 ≤ t := by
    by_contra hlt
    obtain rfl | rfl : t = 0 ∨ t = 1 := by omega
    · rw [h.tree.self p hp] at het
      exact hdot (Prod.mk.inj (Option.some.inj het)).1.symm
    · obtain ⟨q, hq, -⟩ := h.tree.parent p hp
      rw [hq] at het
      exact hdotdot (Prod.mk.inj (Option.some.inj het)).1.symm
  exact (h.tree.once p p t s y x i hp hp ht2 ht h2 hs het he).2

theorem dirent_eq_some {b : Block} {s i : Nat} {x : List Byte} (hi : i < 64) :
    dirent b s = some (x, i) ↔ (direntInode b s).toNat = i ∧ b.cstrAt (32 * s) 28 = x := by
  unfold dirent
  split
  · rename_i hinvalid
    have hlarge : (direntInode b s).toNat = 0xFFFFFFFF := by rw [hinvalid]; rfl
    constructor
    · nofun
    · intro hstored
      omega
  · rw [Option.some.injEq, Prod.mk.injEq]
    exact and_comm

/-- The search in the parent finds the one entry that names the directory. -/
theorem nameInParent_entry (h : FsInv (view d)) {p i s : Nat} {x : List Byte} (hp : (view d).isDir p)
    (h2 : 2 ≤ s) (hs : s < 128) (he : (view d).entry p s = some (x, i)) :
    nameInParent ((view d).data ((view d).dirBlock p)) i = x := by
  have hi : i < 64 := (h.entry_live hp hs he).1
  have good := h.name p s x i hp hs he
  obtain ⟨-, -, hdot, hdotdot⟩ := h.tree.child p s x i hp h2 hs he
  generalize hb : (view d).data ((view d).dirBlock p) = b
  have hent (t : Nat) : (view d).entry p t = dirent b t := by rw [← hb]; rfl
  have heq (t : Nat) (y : List Byte) (hy : GoodName y) :
      b.strEqAt (32 * t) y = true ↔ b.cstrAt (32 * t) 28 = y :=
    Buf.strEqAt_iff b hy.no_nul (by have := hy.length; omega)
  have hstored : (direntInode b s).toNat = i ∧ b.cstrAt (32 * s) 28 = x :=
    (dirent_eq_some hi).mp ((hent s).symm.trans he)
  unfold nameInParent
  split
  · rename_i t hfind
    have htest := List.find?_some hfind
    have htn := List.mem_range.mp (List.mem_of_find?_eq_some hfind)
    simp only [Bool.and_eq_true, beq_iff_eq, Bool.not_eq_eq_eq_not, Bool.not_true] at htest
    obtain ⟨⟨ht, hnd⟩, hnd'⟩ := htest
    have hts : t = s := by
      have het : (view d).entry p t = some (b.cstrAt (32 * t) 28, i) :=
        (hent t).trans ((dirent_eq_some hi).mpr ⟨ht, rfl⟩)
      apply h.slot_unique hp h2 hs he htn het
      · intro e
        rw [(heq t _ goodName_dot).mpr e] at hnd
        cases hnd
      · intro e
        rw [(heq t _ goodName_dotdot).mpr e] at hnd'
        cases hnd'
    subst hts
    rw [Buf.cstrAt_short, hstored.2]
    rw [hstored.2]
    exact good.length
  · rename_i hfind
    have := List.find?_eq_none.mp hfind s (List.mem_range.mpr hs)
    have hnd : b.strEqAt (32 * s) dotName = false := by
      rw [Bool.eq_false_iff, ne_eq, heq s _ goodName_dot, hstored.2]
      exact hdot
    have hnd' : b.strEqAt (32 * s) dotdotName = false := by
      rw [Bool.eq_false_iff, ne_eq, heq s _ goodName_dotdot, hstored.2]
      exact hdotdot
    simp [hstored.1, hnd, hnd'] at this

/-! ## Climbing to the root -/

/-- The path of a directory, from the names on its trail. -/
def pathOf : List (List Byte) → List Byte
  | [] => [slash]
  | x :: xs => (x :: xs).flatMap (slash :: ·)

theorem pathOf_snoc (xs : List (List Byte)) (x : List Byte) :
    pathOf (xs ++ [x]) = (if xs = [] then [] else pathOf xs) ++ slash :: x := by
  cases xs with
  | nil => simp [pathOf]
  | cons y ys => simp [pathOf]

theorem pathOf_head (xs : List (List Byte)) : (pathOf xs).head? = some slash := by
  cases xs <;> simp [pathOf]

theorem components_pathOf {xs : List (List Byte)} (h : ∀ x ∈ xs, GoodName x) :
    components (pathOf xs) = xs := by
  have names (ys : List (List Byte)) (hy : ∀ x ∈ ys, GoodName x) :
      components (ys.flatMap (slash :: ·)) = ys := by
    induction ys with
    | nil => rfl
    | cons y ys ih =>
      have good := hy y List.mem_cons_self
      rw [List.flatMap_cons, List.cons_append, components_slash,
        components_name good.ne_nil good.no_slash, ih fun x hx => hy x (List.mem_cons_of_mem _ hx)]
      cases ys with
      | nil => exact Or.inl rfl
      | cons z zs => exact Or.inr rfl
  cases xs with
  | nil => rfl
  | cons x xs => exact names (x :: xs) h

theorem pathOf_length {xs : List (List Byte)} (h : ∀ x ∈ xs, GoodName x) :
    (xs = [] ↔ (pathOf xs).length ≤ 1) ∧ 0 < (pathOf xs).length ∧
      (pathOf xs).length ≤ 1 + 28 * xs.length := by
  induction xs using List.reverseRecOn with
  | nil => simp [pathOf]
  | append_singleton xs x ih =>
    have good := h x (by simp)
    have hpos := List.length_pos_iff.mpr good.ne_nil
    have hle := good.length
    obtain ⟨-, -, ih⟩ := ih fun y hy => h y (List.mem_append_left _ hy)
    have hlen : (pathOf (xs ++ [x])).length =
        (if xs = [] then 0 else (pathOf xs).length) + (1 + x.length) := by
      rw [pathOf_snoc, List.length_append, List.length_cons]
      split
      · rw [List.length_nil]
        omega
      · omega
    have hup : (if xs = [] then 0 else (pathOf xs).length) ≤ 1 + 28 * xs.length := by
      split <;> omega
    rw [List.length_append, List.length_singleton, hlen]
    refine ⟨⟨fun e => absurd e (by simp), fun hle' => ?_⟩, ?_, ?_⟩ <;> omega

/-! ## Stores into the caller's buffer -/

namespace CharBuf

theorem put_self (b : CharBuf) (i : Nat) (c : Byte) : (b.put i c).bytes i = c := Function.update_self ..

theorem put_ne (b : CharBuf) {i k : Nat} (c : Byte) (h : i ≠ k) : (b.put k c).bytes i = b.bytes i :=
  Function.update_of_ne h ..

theorem put_stored {b : CharBuf} {k : Nat} {c : Byte} {i : Nat} (h : i ∈ (b.put k c).stored) :
    i = k ∨ i ∈ b.stored := List.mem_cons.mp h

theorem memCopy_stored (b : CharBuf) (o : Nat) (cs : List Byte) {i : Nat}
    (h : i ∈ (b.memCopy o cs).stored) : i ∈ b.stored ∨ i < o + cs.length := by
  induction cs generalizing b o with
  | nil => exact Or.inl h
  | cons c cs ih =>
    rw [List.length_cons]
    rcases ih (b.put o c) (o + 1) h with hs | hlt
    · rcases put_stored hs with rfl | hs
      · exact Or.inr (by omega)
      · exact Or.inl hs
    · exact Or.inr (by omega)

theorem memCopy_bytes (b : CharBuf) (o : Nat) (cs : List Byte) (i : Nat) :
    (b.memCopy o cs).bytes i = if o ≤ i then (cs[i - o]?).getD (b.bytes i) else b.bytes i := by
  induction cs generalizing b o with
  | nil => simp [memCopy]
  | cons c cs ih =>
    rw [memCopy, ih]
    rcases Nat.lt_trichotomy i o with hlt | rfl | hgt
    · rw [if_neg (by omega), if_neg (by omega), put_ne _ _ (by omega)]
    · rw [if_neg (by omega), if_pos (Nat.le_refl _), Nat.sub_self, put_self]
      rfl
    · obtain ⟨k, rfl⟩ : ∃ k, i = o + 1 + k := ⟨i - (o + 1), by omega⟩
      rw [if_pos (by omega), if_pos (by omega), put_ne _ _ (by omega),
        show o + 1 + k - (o + 1) = k by omega, show o + 1 + k - o = k + 1 by omega,
        List.getElem?_cons_succ]

/-- A string grows by a piece and a new NUL. -/
theorem Begins.memCopy {b : CharBuf} {p cs : List Byte} (h : b.Begins p) :
    ((b.memCopy p.length cs).put (p.length + cs.length) 0#8).Holds (p ++ cs) := by
  refine ⟨fun i c hc => ?_, ?_⟩
  · have hi : i < p.length + cs.length := by
      rw [← List.length_append]
      exact (List.getElem?_eq_some_iff.mp hc).1
    rw [put_ne _ _ (by omega), memCopy_bytes]
    rcases Nat.lt_or_ge i p.length with hlt | hge
    · rw [List.getElem?_append_left hlt] at hc
      rw [if_neg (by omega)]
      exact h i c hc
    · rw [List.getElem?_append_right hge] at hc
      rw [if_pos hge, hc]
      rfl
  · rw [List.length_append, put_self]

/-- The slash before a name that is not the first one. -/
theorem Begins.slash {b : CharBuf} {p : List Byte} (h : b.Begins p) :
    (b.put p.length SengOS.slash).Begins (p ++ [SengOS.slash]) := by
  intro i c hc
  rcases Nat.lt_trichotomy i p.length with hlt | rfl | hgt
  · rw [List.getElem?_append_left hlt] at hc
    rw [put_ne _ _ (by omega)]
    exact h i c hc
  · rw [List.getElem?_append_right (Nat.le_refl _), Nat.sub_self] at hc
    rw [put_self]
    exact Option.some.inj hc
  · rw [List.getElem?_eq_none (by simp; omega)] at hc
    cases hc

end CharBuf

/-! ## The climb -/

/-- What `pwd_rec` leaves behind for a directory whose path is `p`. -/
structure PwdDone (len : Word) (p : List Byte) (buf : CharBuf) (r : Int × CharBuf × Word) : Prop where
  rc : r.1 = 0 ∨ r.1 = -1
  inside : ∀ i ∈ r.2.1.stored, i ∈ buf.stored ∨ i < len.toNat
  holds : r.1 = 0 → r.2.1.Holds p ∧ r.2.2.toNat = p.length ∧ p.length < len.toNat
  room : r.1 ≠ 0 → len.toNat < p.length + 2

/-- A failure before anything is stored at this level. -/
theorem PwdDone.fail {len : Word} {p : List Byte} {buf buf' : CharBuf} {pos : Word}
    (inside : ∀ i ∈ buf'.stored, i ∈ buf.stored ∨ i < len.toNat) (room : len.toNat < p.length + 2) :
    PwdDone len p buf (-1, buf', pos) :=
  ⟨Or.inr rfl, inside, fun e => absurd e (by simp), fun _ => room⟩

theorem pwdRec_root (len : Word) (buf : CharBuf) :
    ∃ r, (∀ k, pwdRec d len (k + 1) 0 buf 0#32 = some r) ∧ PwdDone len (pathOf []) buf r := by
  by_cases hl : len ≤ 0#32 + 1#32
  · refine ⟨(-1, buf, 0#32), fun k => by rw [pwdRec, if_pos rfl, if_pos hl], .fail (fun i => Or.inl) ?_⟩
    have : len.toNat ≤ 1 := hl
    simp only [pathOf, List.length_singleton]
    omega
  · have hlt : 1 < len.toNat := Nat.lt_of_not_le hl
    refine ⟨_, fun k => by rw [pwdRec, if_pos rfl, if_neg hl], ⟨Or.inl rfl, ?_, fun _ => ⟨?_, rfl, hlt⟩,
      fun e => absurd rfl e⟩⟩
    · intro i hi
      rcases CharBuf.put_stored hi with rfl | hi
      · exact Or.inr hlt
      · rcases CharBuf.put_stored hi with rfl | hi
        · exact Or.inr (Nat.lt_of_lt_of_le (by decide) hlt)
        · exact Or.inl hi
    · refine ⟨fun i c hc => ?_, CharBuf.put_self ..⟩
      cases i with
      | zero =>
        rw [CharBuf.put_ne _ _ (by decide)]
        exact (CharBuf.put_self ..).trans (Option.some.inj hc)
      | succ i => simp [pathOf] at hc

/-- The bytes before the next name, and the position of that name. -/
theorem pwdAppend_slash {xs : List (List Byte)} (hxs : ∀ y ∈ xs, GoodName y) (hshort : xs.length < 64)
    {buf : CharBuf} {pos : Word} (hb : buf.Begins (pathOf xs)) (hpos : pos.toNat = (pathOf xs).length) :
    ∃ b p q, (if 1#32 < pos then (buf.put pos.toNat slash, pos + 1#32) else (buf, pos)) = (b, p) ∧
      b.Begins q ∧ p.toNat = q.length ∧ (∀ x, pathOf (xs ++ [x]) = q ++ x) ∧
      (pathOf xs).length ≤ q.length ∧ q.length ≤ (pathOf xs).length + 1 ∧
      ∀ i ∈ b.stored, i ∈ buf.stored ∨ i < q.length := by
  obtain ⟨hone, -, hbound⟩ := pathOf_length hxs
  by_cases hx : xs = []
  · subst hx
    have hle : ¬ 1#32 < pos := by
      rw [BitVec.lt_def, hpos]
      decide
    exact ⟨buf, pos, pathOf [], if_neg hle, hb, hpos, fun x => pathOf_snoc [] x, Nat.le_refl _,
      Nat.le_succ _, fun i => Or.inl⟩
  · have hlt : 1#32 < pos := by
      rw [BitVec.lt_def, hpos]
      exact Nat.lt_of_not_le fun hle => hx (hone.mpr hle)
    have hlen : (pathOf xs ++ [slash]).length = (pathOf xs).length + 1 := by
      rw [List.length_append, List.length_singleton]
    refine ⟨_, _, pathOf xs ++ [slash], if_pos hlt, ?_, ?_, ?_, by omega, by omega, ?_⟩
    · rw [hpos]
      exact hb.slash
    · rw [BitVec.toNat_add, hpos, hlen, BitVec.toNat_ofNat]
      omega
    · intro x
      rw [pathOf_snoc, if_neg hx, List.append_assoc]
      rfl
    · intro i hi
      rcases CharBuf.put_stored hi with rfl | hi
      · exact Or.inr (by omega)
      · exact Or.inl hi

/-- The name of a directory goes behind the path of its parent. -/
theorem PwdDone.append {len : Word} {xs : List (List Byte)} {x : List Byte} {buf buf' : CharBuf} {pos : Word}
    (h : PwdDone len (pathOf xs) buf (0, buf', pos)) (hxs : ∀ y ∈ xs, GoodName y) (hx : GoodName x)
    (hshort : xs.length < 64) : PwdDone len (pathOf (xs ++ [x])) buf (pwdAppend len x buf' pos) := by
  obtain ⟨holds, hpos, -⟩ := h.holds rfl
  have hxl := hx.length
  obtain ⟨-, -, hbound⟩ := pathOf_length hxs
  obtain ⟨b, p, q, hslash, hb, hp, hpath, hq, hq', hstored⟩ := pwdAppend_slash hxs hshort holds.1 hpos
  dsimp only at hpos hslash hstored
  have hn : (BitVec.ofNat 32 x.length).toNat = x.length := by
    rw [BitVec.toNat_ofNat, Nat.mod_eq_of_lt (by omega)]
  have hsum : (pos + BitVec.ofNat 32 x.length + 1#32).toNat = (pathOf xs).length + x.length + 1 := by
    rw [BitVec.toNat_add, BitVec.toNat_add, hn, hpos, BitVec.toNat_ofNat]
    omega
  have hend : (p + BitVec.ofNat 32 x.length).toNat = q.length + x.length := by
    rw [BitVec.toNat_add, hn, hp]
    omega
  unfold pwdAppend
  rw [hslash, hpath x]
  dsimp only
  by_cases hl : len ≤ pos + BitVec.ofNat 32 x.length + 1#32
  · rw [if_pos hl]
    rw [BitVec.le_def, hsum] at hl
    apply PwdDone.fail h.inside
    rw [List.length_append]
    omega
  · rw [if_neg hl]
    rw [BitVec.le_def, hsum] at hl
    rw [hend, hp]
    refine ⟨Or.inl rfl, ?_, fun _ => ⟨hb.memCopy, ?_, ?_⟩, fun e => absurd rfl e⟩
    · intro i hi
      rcases CharBuf.put_stored hi with rfl | hi
      · exact Or.inr (by omega)
      rcases CharBuf.memCopy_stored _ _ _ hi with hi | hi
      · rcases hstored i hi with hi | hi
        · exact h.inside i hi
        · exact Or.inr (by omega)
      · exact Or.inr (by omega)
    · rw [List.length_append, hend]
    · rw [List.length_append]
      omega

/-- No directory is 64 levels down. -/
theorem trail_short (h : FsInv (view d)) {i : Nat} {xs : List (List Byte)}
    (ht : DirTrail 0 128 (view d).isDir (view d).entry i xs) : xs.length < 64 := by
  have := h.tree.trail_length (Finset.range 64) (fun j hj => Finset.mem_range.mpr hj.1) ht
  rwa [Finset.card_range] at this

/-- What the search in the parent reads is the block of its entries. -/
theorem read_dirBlock (h : FsInv (view d)) {p : Nat} (hp : (view d).isDir p) (old : Block) :
    ramdiskReadBlock d ((inodeRead d p).direct 0).toNat old = (view d).data ((view d).dirBlock p) := by
  have hb := h.dirBlock_data hp
  have hlt : ((view d).dirBlock p) < 256 := by have := hb.lt; omega
  rw [view_inode hp.1.1]
  change ramdiskReadBlock d ((view d).dirBlock p) _ = _
  rw [ramdiskReadBlock, if_pos hlt, view_data hb d]

/-- One turn of the recursion around the result for the parent. -/
theorem pwdRec_entry (h : FsInv (view d)) {p i s : Nat} {x : List Byte} (hp : (view d).isDir p)
    (hd : (view d).isDir i) (h2 : 2 ≤ s) (hs : s < 128) (he : (view d).entry p s = some (x, i)) (len : Word)
    (buf : CharBuf) {fuel : Nat} {r : Int × CharBuf × Word} (hr : pwdRec d len fuel p buf 0#32 = some r) :
    pwdRec d len (fuel + 1) i buf 0#32 =
      some (if r.1 < 0 then (-1, r.2.1, r.2.2) else pwdAppend len x r.2.1 r.2.2) := by
  have hx := h.name p s x i hp hs he
  have hne : i ≠ 0 := (h.tree.child p s x i hp h2 hs he).2.1
  have hup : lookup d i dotdotName = some p :=
    (lookup_iff h hd.1 goodName_dotdot).mpr
      ⟨hd, 1, by decide, h.tree.parent_of_entry hd hp h2 hs he⟩
  have hself : lookup d p dotName = some p :=
    (lookup_iff h hp.1 goodName_dot).mpr ⟨hp, 0, by decide, h.tree.self p hp⟩
  have hfound : (dirFind d p dotName).isNone = false := by
    cases hf : dirFind d p dotName with
    | none =>
      rw [lookup, hf] at hself
      cases hself
    | some r => rfl
  rw [pwdRec, if_neg hne, hup]
  dsimp only
  rw [hfound, read_dirBlock h hp, nameInParent_entry h hp h2 hs he, hr, if_neg Bool.false_ne_true,
    if_neg hx.ne_nil]
  dsimp only
  split <;> rfl

/-- The climb from a directory ends, for every buffer and every length. -/
theorem pwdRec_trail (h : FsInv (view d)) (len : Word) (buf : CharBuf) {i : Nat} {xs : List (List Byte)}
    (ht : DirTrail 0 128 (view d).isDir (view d).entry i xs) (hd : (view d).isDir i) :
    (∀ x ∈ xs, GoodName x) ∧
      ∃ r, (∀ fuel, xs.length < fuel → pwdRec d len fuel i buf 0#32 = some r) ∧
        PwdDone len (pathOf xs) buf r := by
  induction ht with
  | root =>
    obtain ⟨r, hr, done⟩ := pwdRec_root len buf (d := d)
    refine ⟨by simp, r, fun fuel hf => ?_, done⟩
    obtain ⟨k, rfl⟩ : ∃ k, fuel = k + 1 := ⟨fuel - 1, by simp at hf; omega⟩
    exact hr k
  | @entry p i s x xs ht hp h2 hs he ih =>
    obtain ⟨hxs, r, hr, done⟩ := ih hp
    have hx := h.name p s x i hp hs he
    have hshort := trail_short h ht
    refine ⟨?_, ?_⟩
    · intro y hy
      rcases List.mem_append.mp hy with hy | hy
      · exact hxs y hy
      · rw [List.mem_singleton.mp hy]
        exact hx
    have turn (fuel : Nat) (hf : (xs ++ [x]).length < fuel) : pwdRec d len fuel i buf 0#32 =
        some (if r.1 < 0 then (-1, r.2.1, r.2.2) else pwdAppend len x r.2.1 r.2.2) := by
      rw [List.length_append, List.length_singleton] at hf
      obtain ⟨k, rfl⟩ : ∃ k, fuel = k + 1 := ⟨fuel - 1, by omega⟩
      exact pwdRec_entry h hp hd h2 hs he len buf (hr k (by omega))
    refine ⟨_, turn, ?_⟩
    obtain ⟨rc, buf', pos⟩ := r
    rcases done.rc with rfl | rfl
    · exact done.append hxs hx hshort
    · apply PwdDone.fail done.inside
      have hroom := done.room (by simp)
      rw [pathOf_snoc, List.length_append, List.length_cons]
      by_cases hnil : xs = []
      · subst hnil
        simp only [pathOf, List.length_singleton] at hroom
        simp only [↓reduceIte, List.length_nil]
        omega
      · rw [if_neg hnil]
        omega

/-- The names on a trail lead down to its end. -/
theorem walk_trail (h : FsInv (view d)) {i : Nat} {xs : List (List Byte)}
    (ht : DirTrail 0 128 (view d).isDir (view d).entry i xs) : walk (lookup d) 0 xs = some i := by
  induction ht with
  | root => rfl
  | @entry p i s x xs ht hp h2 hs he ih =>
    have hx := h.name p s x i hp hs he
    have hxl := hx.length
    have hdot := (h.tree.child p s x i hp h2 hs he).2.2.1
    have hfind : lookup d p x = some i := (lookup_iff h hp.1 hx).mpr ⟨hp, s, hs, he⟩
    rw [walk_append, ih, Option.bind_some, walk, if_neg (by omega), if_neg hdot, hfind]
    rfl

theorem pathOf_no_nul {xs : List (List Byte)} (h : ∀ x ∈ xs, GoodName x) : 0#8 ∉ pathOf xs := by
  cases xs with
  | nil => decide
  | cons y ys =>
    intro hm
    obtain ⟨x, hx, hm⟩ := List.mem_flatMap.mp hm
    rcases List.mem_cons.mp hm with e | hm
    · exact absurd e (by decide)
    · exact (h x hx).no_nul hm

end

/-- `fs_pwd` ends within 64 levels, stores nothing outside the buffer, and
leaves the path of the current directory, which leads back there from every
start; it fails only for want of room. -/
theorem fsPwd_names_cwd {s : FsState} (h : s.Inv) : ∃ (names : List (List Byte)) (full : CStr),
    DirTrail 0 128 (view s.dev.disk).isDir (view s.dev.disk).entry s.cwdInode.toNat names ∧
    full.bytes = pathOf names ∧ full.bytes.head? = some slash ∧
    (∀ start, resolvePath (lookup s.dev.disk) full.bytes start = some s.cwdInode.toNat) ∧
    s.fsChdir (some full) = (0, s) ∧
    ∀ (bytes : Nat → Byte) (len : Word), ∃ (rc : Int) (buf : CharBuf),
      (∀ fuel, 64 ≤ fuel → s.fsPwd fuel (some ⟨bytes, []⟩) len = some (rc, some buf)) ∧
      (∀ i ∈ buf.stored, i < len.toNat) ∧ (rc = 0 → buf.Holds full.bytes) ∧
      (rc ≠ 0 → rc < 0 ∧ (len.toNat < 2 ∨ len.toNat < full.bytes.length + 2)) := by
  obtain ⟨names, ht⟩ := h.fs.tree.trail h.cwd.1
  have hshort := trail_short h.fs ht
  have good := (pwdRec_trail h.fs 0#32 ⟨fun _ => 0#8, []⟩ ht h.cwd).1
  have hhead := pathOf_head names
  have hne : pathOf names ≠ [] := fun e => by
    rw [e] at hhead
    cases hhead
  have hres (start : Nat) :
      resolvePath (lookup s.dev.disk) (pathOf names) start = some s.cwdInode.toNat := by
    rw [resolvePath_eq hne, if_pos hhead, components_pathOf good]
    exact walk_trail h.fs ht
  refine ⟨names, ⟨pathOf names, pathOf_no_nul good⟩, ht, rfl, hhead, hres, ?_, ?_⟩
  · have hmode : (inodeRead s.dev.disk s.cwdInode.toNat).mode = inodeDir := by
      rw [view_inode h.cwd.1.1]
      exact h.cwd.2
    have hcwd : s.resolve (pathOf names) = some s.cwdInode.toNat := hres _
    simp only [FsState.fsChdir, h.ready, hcwd, hmode, Bool.not_true, Bool.false_eq_true, ne_eq,
      not_true_eq_false, ↓reduceIte, BitVec.ofNat_toNat, BitVec.setWidth_eq]
    rw [← h.ready]
  · intro bytes len
    by_cases hl : len < 2#32
    · refine ⟨-1, ⟨bytes, []⟩, fun fuel _ => ?_, by simp, by simp, fun _ => ⟨by decide, Or.inl hl⟩⟩
      simp only [FsState.fsPwd, hl, ↓reduceIte]
    · have hlen : 2 ≤ len.toNat := Nat.le_of_not_lt hl
      obtain ⟨-, r, hr, done⟩ := pwdRec_trail h.fs len (CharBuf.put ⟨bytes, []⟩ 0 0#8) ht h.cwd
      refine ⟨r.1, r.2.1, fun fuel hf => ?_, ?_, fun e => (done.holds e).1, fun e => ⟨?_, ?_⟩⟩
      · rw [FsState.fsPwd]
        simp only [hl, ↓reduceIte, hr fuel (by omega), Option.map_some]
      · intro i hi
        rcases done.inside i hi with hi | hi
        · rcases CharBuf.put_stored hi with rfl | hi
          · omega
          · cases hi
        · exact hi
      · rw [done.rc.resolve_left e]
        decide
      · exact Or.inr (done.room e)

/-- The shell after "mkdir d" and "cd d". -/
def FsState.insideD : FsState :=
  (((fsInit boot).fsMkdir (some nameD)).2.fsChdir (some nameD)).2

/-- The buffer after `fs_pwd` with room for four bytes: "/d". -/
theorem fsPwd_insideD :
    (FsState.insideD.fsPwd 64 (some ⟨fun _ => 0xFF#8, []⟩) 4#32).map
      (fun r => (r.1, r.2.map fun b => (List.range 4).map b.bytes)) =
        some (0, some [slash, 0x64#8, 0#8, 0xFF#8]) ∧
    ∃ full : CStr, FsState.insideD.fsChdir (some full) = (0, FsState.insideD) ∧
      ∀ start, resolvePath (lookup FsState.insideD.dev.disk) full.bytes start =
        some FsState.insideD.cwdInode.toNat := by
  have inv : FsState.insideD.Inv :=
    FsState.fsChdir_inv (FsState.fsMkdir_inv fsInit_blank_inv _) _
  obtain ⟨-, full, -, -, -, back, stay, -⟩ := fsPwd_names_cwd inv
  exact ⟨by decide +kernel, full, stay, back⟩

end SengOS
