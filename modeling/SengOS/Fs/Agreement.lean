import SengOS.Fs.Runs

/-!
# Do the two path walkers agree?

`fs_unlink`, `fs_mkdir` and the creating part of `fs_open` go by what
`split_parent` returns, everything else by what `resolve_path` returns. They
agree on every path but one kind: an ordinary name followed by a component that
is too long, which the look-ahead of `split_parent` takes for the end.
-/

namespace SengOS

/-- A path with a component that is too long denotes nothing. -/
theorem walk_tooLong {find : Nat → List Byte → Option Nat} {cs : List (List Byte)} {c : List Byte}
    (hc : c ∈ cs) (hlen : 27 < c.length) (cur : Nat) : walk find cur cs = none := by
  induction cs generalizing cur with
  | nil => cases hc
  | cons d cs ih =>
    rw [walk]
    split
    · rfl
    · rename_i hd
      have hc' : c ∈ cs := (List.mem_cons.mp hc).resolve_left fun e => hd (e ▸ hlen)
      split
      · exact ih hc' cur
      · cases find cur d with
        | none => rfl
        | some child => exact ih hc' child

namespace FsState

/-- The path goes on after the ordinary name `x` in directory `q` with a
component that is too long; everything before `x` resolves. -/
def HiddenTail (s : FsState) (path : List Byte) (q : Nat) (x : List Byte) : Prop :=
  path.length ≤ 255 ∧ ∃ pre long post, components path = pre ++ x :: long :: post ∧
    (∀ c ∈ pre, c.length ≤ 27) ∧ x.length ≤ 27 ∧ Ordinary x ∧ 27 < long.length ∧
    walk (lookup s.dev.disk) (s.start path) pre = some q

/-- Where `split_parent` stops, the walk ends or a tail is hidden. -/
theorem split_cases {s : FsState} {path : List Byte} {q : Nat} {x : List Byte}
    (h : s.split path = some (q, x)) :
    (s.resolve path = lookup s.dev.disk q x ∧
      ∃ pre, Stops (lookup s.dev.disk) (s.start path) (components path) q x pre []) ∨
    (s.HiddenTail path q x ∧ s.resolve path = none) := by
  obtain ⟨hp, hl, pre, post, st⟩ := split_stops h
  rw [s.resolve_eq hp, st.walk]
  cases post with
  | nil => exact Or.inl ⟨rfl, pre, st⟩
  | cons long post =>
    have hlong : 27 < long.length := by simpa [followed] using st.last
    exact Or.inr ⟨⟨hl, pre, long, post, st.comps, st.short, st.name_short, st.ordinary, hlong, st.reach⟩, rfl⟩

theorem HiddenTail.ne_nil {s : FsState} {path : List Byte} {q : Nat} {x : List Byte}
    (h : s.HiddenTail path q x) : path ≠ [] := by
  rintro rfl
  obtain ⟨-, pre, long, post, hc, -⟩ := h
  cases pre <;> cases hc

theorem HiddenTail.split {s : FsState} {path : List Byte} {q : Nat} {x : List Byte}
    (h : s.HiddenTail path q x) : s.split path = some (q, x) := by
  have hp := h.ne_nil
  obtain ⟨hl, pre, long, post, hc, short, hx, ord, hlong, reach⟩ := h
  rw [s.split_eq hp hl]
  exact Stops.splitWalk ⟨hc, short, hx, ord, reach, by simpa [followed] using hlong⟩

/-- Nothing resolves a path with a hidden tail, in this state or in another one. -/
theorem HiddenTail.resolve {s : FsState} {path : List Byte} {q : Nat} {x : List Byte}
    (h : s.HiddenTail path q x) (t : FsState) : t.resolve path = none := by
  have hp := h.ne_nil
  obtain ⟨-, pre, long, post, hc, -, -, -, hlong, -⟩ := h
  rw [t.resolve_eq hp]
  exact walk_tooLong (c := long) (by rw [hc]; simp) hlong _

theorem split_resolve_iff (s : FsState) (path : List Byte) :
    (∀ q x, s.split path = some (q, x) → s.resolve path = lookup s.dev.disk q x) ↔
      ¬ ∃ q x, s.HiddenTail path q x ∧ lookup s.dev.disk q x ≠ none := by
  constructor
  · rintro h ⟨q, x, hid, hne⟩
    exact hne ((h q x hid.split).symm.trans (hid.resolve s))
  · intro h q x hs
    rcases split_cases hs with ⟨hr, -⟩ | ⟨hid, hr⟩
    · exact hr
    · rw [hr]
      by_contra hne
      exact h ⟨q, x, hid, Ne.symm hne⟩

/-! ## Resolving after a change -/

section
variable {d e : Disk} {q slot ino b i j : Nat} {x y : List Byte} {mode : Word}

/-- A creation disturbs no lookup that succeeded. -/
theorem lookup_created (h : FsInv (view d)) (fs : FsInv (view e))
    (c : (view d).Created (view e) q slot ino b x mode) (hl : (view d).live i) (hy : GoodName y)
    (hj : lookup d i y = some j) : lookup e i y = some j := by
  obtain ⟨hd, t, ht, he⟩ := (lookup_iff h hl hy).mp hj
  refine (lookup_iff fs ((c.live i).mpr (Or.inl hl)) hy).mpr ⟨(c.isDir i).mpr (Or.inl hd), t, ht, ?_⟩
  rw [c.entry_old h.toBlockInv hd, if_neg, he]
  rintro ⟨rfl, rfl⟩
  rw [c.slot_free] at he
  cases he

/-- Neither does what happens inside one file. -/
theorem lookup_frame (h : FsInv (view d)) (fs : FsInv (view e)) (frame : (view d).Frame ino (view e))
    (hf : (view d).isFile ino) (hl : (view d).live i) (hy : GoodName y)
    (hj : lookup d i y = some j) : lookup e i y = some j := by
  obtain ⟨hd, t, ht, he⟩ := (lookup_iff h hl hy).mp hj
  refine (lookup_iff fs ((frame.live i).mpr hl) hy).mpr ⟨(frame.isDir i).mpr hd, t, ht, ?_⟩
  rw [frame.entry h.toBlockInv hd ?_, he]
  rintro rfl
  exact h.file_not_dir hf hd

end

/-- Lookups that succeeded still succeed, so what resolved still resolves. -/
theorem Inv.walk_kept {s : FsState} (h : s.Inv) {d : Disk}
    (keep : ∀ i x j, (view s.dev.disk).live i → GoodName x → lookup s.dev.disk i x = some j →
      lookup d i x = some j)
    {path : CStr} {cs : List (List Byte)} (hcs : ∀ c ∈ cs, c ∈ components path.bytes) {j : Nat}
    (hw : walk (lookup s.dev.disk) (s.start path.bytes) cs = some j) :
    walk (lookup d) (s.start path.bytes) cs = some j :=
  walk_congr h.find_live keep (fun c hc => goodName_component path.no_nul (hcs c hc))
    (h.start_live _) hw

theorem Inv.resolve_kept {s t : FsState} (h : s.Inv) (hc : t.cwdInode = s.cwdInode)
    (keep : ∀ i x j, (view s.dev.disk).live i → GoodName x → lookup s.dev.disk i x = some j →
      lookup t.dev.disk i x = some j)
    {path : CStr} {j : Nat} (hr : s.resolve path.bytes = some j) : t.resolve path.bytes = some j := by
  have hp : path.bytes ≠ [] := by
    intro e
    rw [e] at hr
    cases hr
  have hstart : t.start path.bytes = s.start path.bytes := by rw [start, hc, start]
  rw [s.resolve_eq hp] at hr
  rw [t.resolve_eq hp, hstart]
  exact h.walk_kept keep (fun c hc => hc) hr

theorem Inv.split_kept {s t : FsState} (h : s.Inv) (hc : t.cwdInode = s.cwdInode)
    (keep : ∀ i x j, (view s.dev.disk).live i → GoodName x → lookup s.dev.disk i x = some j →
      lookup t.dev.disk i x = some j)
    {path : CStr} {q : Nat} {x : List Byte} (hs : s.split path.bytes = some (q, x)) :
    t.split path.bytes = some (q, x) := by
  obtain ⟨hp, hl, pre, post, st⟩ := split_stops hs
  have reach : walk (lookup t.dev.disk) (s.start path.bytes) pre = some q := by
    refine h.walk_kept keep (fun d hd => ?_) st.reach
    rw [st.comps]
    exact List.mem_append_left _ hd
  have hstart : t.start path.bytes = s.start path.bytes := by rw [start, hc, start]
  rw [t.split_eq hp hl, hstart]
  exact Stops.splitWalk ⟨st.comps, st.short, st.name_short, st.ordinary, reach, st.last⟩

/-- A created object is what its path denotes from then on. -/
theorem Inv.resolve_created {s : FsState} (h : s.Inv) {path : CStr} {q slot ino b : Nat} {x : List Byte}
    {mode : Word} {v : Dev} {pre : List (List Byte)}
    (st : Stops (lookup s.dev.disk) (s.start path.bytes) (components path.bytes) q x pre [])
    (hp : path.bytes ≠ []) (fs : FsInv (view v.disk))
    (c : (view s.dev.disk).Created (view v.disk) q slot ino b x mode) :
    FsState.resolve { s with dev := v } path.bytes = some ino := by
  have keep (i : Nat) (y : List Byte) (j : Nat) (hl : (view s.dev.disk).live i) (hy : GoodName y)
      (hj : lookup s.dev.disk i y = some j) : lookup v.disk i y = some j :=
    lookup_created h.fs fs c hl hy hj
  have st' : Stops (lookup v.disk) (s.start path.bytes) (components path.bytes) q x pre [] := by
    refine ⟨st.comps, st.short, st.name_short, st.ordinary, ?_, rfl⟩
    refine h.walk_kept keep (fun d hd => ?_) st.reach
    rw [st.comps]
    exact List.mem_append_left _ hd
  have hstart : FsState.start { s with dev := v } path.bytes = s.start path.bytes := rfl
  rw [resolve_eq _ hp, hstart, st'.walk, if_pos rfl]
  refine (lookup_iff fs ((c.live q).mpr (Or.inl c.parent_dir.1)) c.good).mpr
    ⟨(c.isDir q).mpr (Or.inl c.parent_dir), slot, c.slot_lt, ?_⟩
  rw [c.entry_old h.fs.toBlockInv c.parent_dir, if_pos ⟨rfl, rfl⟩]

/-- Truncating a file changes neither what is in use nor what resolves. -/
theorem truncate_kept {s : FsState} (h : s.Inv) {ino : Nat} (hf : (view s.dev.disk).isFile ino) :
    (∀ i, (view (truncate s.dev ino).disk).live i ↔ (view s.dev.disk).live i) ∧
      ∀ (path : CStr) j, s.resolve path.bytes = some j →
        FsState.resolve { s with dev := truncate s.dev ino } path.bytes = some j := by
  have hv := view_truncate h.fs.toBlockInv hf
  have frame : (view s.dev.disk).Frame ino (view (truncate s.dev ino).disk) := by
    rw [hv]
    exact View.emptied_frame _ _
  have fs : FsInv (view (truncate s.dev ino).disk) := by
    rw [hv]
    exact View.emptied_inv h.fs hf
  have keep (i : Nat) (x : List Byte) (j : Nat) (hl : (view s.dev.disk).live i) (hx : GoodName x)
      (hj : lookup s.dev.disk i x = some j) : lookup (truncate s.dev ino).disk i x = some j :=
    lookup_frame h.fs fs frame hf hl hx hj
  exact ⟨frame.live, fun path j hr =>
    h.resolve_kept (t := { s with dev := truncate s.dev ino }) rfl keep hr⟩

theorem openInode_kept {s : FsState} (h : s.Inv) {ino : Nat} (hl : (view s.dev.disk).live ino)
    (flags : Word) :
    (∀ i, (view (s.openInode ino flags).2.dev.disk).live i ↔ (view s.dev.disk).live i) ∧
      ∀ (path : CStr) j, s.resolve path.bytes = some j →
        (s.openInode ino flags).2.resolve path.bytes = some j := by
  have trunc (hm : (inodeRead s.dev.disk ino).mode = inodeFile) :
      (∀ i, (view (s.truncated ino flags).dev.disk).live i ↔ (view s.dev.disk).live i) ∧
      ∀ (path : CStr) j, s.resolve path.bytes = some j →
        (s.truncated ino flags).resolve path.bytes = some j := by
    rw [view_inode hl.1] at hm
    unfold truncated
    split
    · exact truncate_kept h ⟨hl, hm⟩
    · exact ⟨fun _ => Iff.rfl, fun _ _ hr => hr⟩
  rcases s.openInode_cases ino flags with ⟨-, ho⟩ | ⟨hm, ⟨ho, -⟩ | ⟨i, offset, -, -, ho⟩⟩
  · rw [ho]
    exact ⟨fun _ => Iff.rfl, fun _ _ hr => hr⟩
  · rw [ho]
    exact trunc hm
  · rw [ho]
    -- descriptors play no part in resolving a path
    exact trunc hm

/-! ## The calls -/

/-- The two walkers agree on a path, and the calls that change the name space
touch only what the path denotes. -/
structure WalkersAgree (s : FsState) (path : CStr) : Prop where
  split : ∀ q x, s.split path.bytes = some (q, x) → s.resolve path.bytes = lookup s.dev.disk q x
  unlink : ∀ i, inUse s.dev.disk i → ¬ inUse (s.fsUnlink (some path)).2.dev.disk i →
    s.resolve path.bytes = some i
  create : ∀ flags i, ¬ inUse s.dev.disk i → inUse (s.fsOpen (some path) flags).2.dev.disk i →
    (s.fsOpen (some path) flags).2.resolve path.bytes = some i
  mkdir : ∀ i, ¬ inUse s.dev.disk i → inUse (s.fsMkdir (some path)).2.dev.disk i →
    (s.fsMkdir (some path)).2.resolve path.bytes = some i

/-- A creation through `split_parent` makes its path resolve to the new object,
unless a tail is hidden. -/
theorem Inv.created_resolves {s : FsState} (h : s.Inv) {path : CStr} {q : Nat} {x : List Byte}
    (hs : s.split path.bytes = some (q, x)) (hord : Ordinary x) {mode : Word}
    (hm : mode = inodeFile ∨ mode = inodeDir)
    (hn : ¬ ∃ q x, s.HiddenTail path.bytes q x ∧
      (lookup s.dev.disk q x ≠ none ∨ (view s.dev.disk).Creatable q x))
    {slot ino b : Nat} {v : Dev}
    (c : (view s.dev.disk).Created (view v.disk) q slot ino b x mode) :
    FsState.resolve { s with dev := v } path.bytes = some ino := by
  have fs := c.inv h.fs hm hord.1 hord.2
  rcases split_cases hs with ⟨-, pre, st⟩ | ⟨hid, -⟩
  · exact h.resolve_created st (split_stops hs).1 fs c
  · exact absurd ⟨q, x, hid, Or.inr c.creatable⟩ hn

theorem Inv.walkersAgree {s : FsState} (h : s.Inv) {path : CStr}
    (hn : ¬ ∃ q x, s.HiddenTail path.bytes q x ∧
      (lookup s.dev.disk q x ≠ none ∨ (view s.dev.disk).Creatable q x)) : s.WalkersAgree path := by
  have agree := (split_resolve_iff s path.bytes).mpr
    fun ⟨q, x, hid, hne⟩ => hn ⟨q, x, hid, Or.inl hne⟩
  refine ⟨agree, ?_, ?_, ?_⟩
  · intro i hi hi'
    rcases h.fsUnlink_cases (some path) with ⟨rc, -, hu⟩ | ⟨p, q, slot, ino, x, hp, un, hu⟩
    · rw [hu] at hi'
      exact absurd hi hi'
    · cases hp
      rw [hu] at hi'
      rw [inUse_iff] at hi hi'
      have hlive := (un.removed h).live i
      have e : i = ino := by
        by_contra hne
        exact hi' (hlive.mpr ⟨hi, hne⟩)
      rw [agree q x un.split, un.found, e]
  · intro flags i hi hi'
    rw [inUse_iff] at hi hi'
    rcases h.fsOpen_cases (some path) flags with ⟨rc, -, ho⟩ | ⟨p, ino, -, -, hl, ho⟩ |
      ⟨p, q, x, hp, -, -, hs, hord, c, ho⟩
    · rw [ho] at hi'
      exact absurd hi' hi
    · rw [ho] at hi'
      exact absurd (((openInode_kept h hl flags).1 i).mp hi') hi
    · cases hp
      rw [ho] at hi' ⊢
      generalize createInode s.dev q x inodeFile = r at c hi'
      cases c with
      | failed _ undone _ => exact absurd ((undone.same.live i).mp hi') hi
      | @created ino b slot v c hw _ =>
        have kept := openInode_kept (h.created c hord hw) ((c.live ino).mpr (Or.inr rfl)) flags
        have e : i = ino := ((c.live i).mp ((kept.1 i).mp hi')).resolve_left hi
        rw [e]
        exact kept.2 path ino (h.created_resolves hs hord (Or.inl rfl) hn c)
  · intro i hi hi'
    rw [inUse_iff] at hi hi'
    rcases h.fsMkdir_cases (some path) with ⟨rc, -, hm⟩ | ⟨p, q, x, hp, hs, hord, c, hm, -⟩
    · rw [hm] at hi'
      exact absurd hi' hi
    · cases hp
      rw [hm] at hi' ⊢
      generalize createInode s.dev q x inodeDir = r at c hi'
      cases c with
      | failed _ undone _ => exact absurd ((undone.same.live i).mp hi') hi
      | @created ino b slot v c _ _ =>
        have e : i = ino := ((c.live i).mp hi').resolve_left hi
        rw [e]
        exact h.created_resolves hs hord (Or.inr rfl) hn c

theorem HiddenTail.disagree {s : FsState} (h : s.Inv) {path : CStr} {q : Nat} {x : List Byte}
    (hid : s.HiddenTail path.bytes q x)
    (hx : lookup s.dev.disk q x ≠ none ∨ (view s.dev.disk).Creatable q x) : ¬ s.WalkersAgree path := by
  intro agree
  rcases hx with hne | hc
  · exact hne ((agree.split q x hid.split).symm.trans (hid.resolve s))
  · obtain ⟨hq, good, hord⟩ := h.split_good hid.split
    have c := createInode_result h.fs hq good inodeDir
    have hm : (s.fsMkdir (some path)).2 = { s with dev := (createInode s.dev q x inodeDir).2 } := by
      rcases h.fsMkdir_cases (some path) with ⟨rc, hrc, hm⟩ | ⟨p, q', x', hp, hs, -, -, hm, -⟩
      · have hsplit := hid.split
        simp only [fsMkdir, h.ready, hsplit, hord.1, hord.2, Bool.not_true, Bool.false_eq_true, or_self,
          ↓reduceIte]
        rcases createInode s.dev q x inodeDir with ⟨rc | ino, v⟩ <;> rfl
      · cases hp
        rw [hid.split] at hs
        cases hs
        exact hm
    have hmk := agree.mkdir
    rw [hm] at hmk
    generalize createInode s.dev q x inodeDir = r at c hmk
    cases c with
    | failed _ _ hn => exact hn hc
    | @created ino b slot v c _ _ =>
      have hi : ¬ inUse s.dev.disk ino := by
        rw [inUse_iff]
        exact c.not_live
      have := hmk ino hi ((inUse_iff ino).mpr ((c.live ino).mpr (Or.inr rfl)))
      rw [hid.resolve] at this
      cases this

/-- The lookup of `split_parent` agrees with `resolve_path` in every state
unless a name that exists has a hidden tail; in a consistent state the calls go
wrong exactly on a hidden tail behind a name that exists or can be created. -/
theorem walkersAgree_iff (s : FsState) (path : CStr) :
    ((∀ q x, s.split path.bytes = some (q, x) → s.resolve path.bytes = lookup s.dev.disk q x) ↔
      ¬ ∃ q x, s.HiddenTail path.bytes q x ∧ lookup s.dev.disk q x ≠ none) ∧
    (s.Inv → (s.WalkersAgree path ↔ ¬ ∃ q x, s.HiddenTail path.bytes q x ∧
      (lookup s.dev.disk q x ≠ none ∨ (view s.dev.disk).Creatable q x))) := by
  refine ⟨split_resolve_iff s path.bytes, fun h => ⟨?_, h.walkersAgree⟩⟩
  rintro agree ⟨q, x, hid, hx⟩
  exact hid.disagree h hx agree

/-- A path of one component hides nothing. -/
theorem walkersAgree_nameD : (fsInit boot).WalkersAgree nameD := by
  refine ((walkersAgree_iff _ _).2 fsInit_blank_inv).mpr ?_
  rintro ⟨q, x, ⟨-, pre, long, post, hc, -⟩, -⟩
  have one : components nameD.bytes = [[0x64#8]] := by decide
  have := congrArg List.length (one.symm.trans hc)
  simp only [List.length_cons, List.length_nil, List.length_append] at this
  omega

/-- "d/xx...x" with 28 letters after the slash. -/
def longPath : CStr := ⟨0x64#8 :: slash :: List.replicate 28 0x78#8, by decide⟩

theorem longPath_facts : openedD.split longPath.bytes = some (0, nameD.bytes) ∧
    openedD.resolve longPath.bytes = none ∧ lookup openedD.dev.disk 0 nameD.bytes ≠ none ∧
    (openedD.fsUnlink (some longPath)).1 = 0 := by
  decide +kernel

/-- `fs_unlink` of a path that denotes nothing removes the file "d". -/
theorem longPath_disagree : openedD.Inv ∧ (openedD.fsUnlink (some longPath)).1 = 0 ∧
    ¬ openedD.WalkersAgree longPath := by
  obtain ⟨hs, hr, hl, hu⟩ := longPath_facts
  refine ⟨fsOpen_inv fsInit_blank_inv _ _, hu, fun agree => hl ?_⟩
  rw [← agree.split 0 nameD.bytes hs, hr]

end FsState

end SengOS
