import SengOS.Fs.Meaning

/-!
# Changes of the tree

What the changes of a disk are to its tree: nothing, the content of one file, a new object
with its name, or the end of both.
-/

namespace SengOS

section
variable {u v : View} {parent slot ino b : Nat} {name : List Byte} {mode : Word}

/-- A creation leaves the files alone that were there before. -/
theorem View.Created.agrees (c : u.Created v parent slot ino b name mode) (h : BlockInv u) {i : Nat}
    (hf : u.isFile i) : u.Agrees v i := by
  refine ⟨c.inode_old hf.1, fun s hs => c.data_other (c.ptr_ne h hf.1 s) fun e => ?_⟩
  obtain rfl := (h.own.inj i s parent (.direct 0) hf.1 c.parent_dir.1 hs e).1
  exact h.file_not_dir hf c.parent_dir

/-- So does a removal. -/
theorem View.Removed.agrees (r : u.Removed v parent slot ino name) (h : BlockInv u) {i : Nat}
    (hf : u.isFile i) (hi : i ≠ ino) : u.Agrees v i := by
  refine ⟨r.inode_old hi, fun s hs => ?_⟩
  rw [r.data, Function.update_of_ne]
  intro e
  obtain rfl := (h.own.inj i s parent (.direct 0) hf.1 r.parent_dir.1 hs e).1
  exact h.file_not_dir hf r.parent_dir

/-- A directory is not removed through its own entries. -/
theorem View.Removed.parent_ne (r : u.Removed v parent slot ino name) : parent ≠ ino := by
  rintro rfl
  have := r.empty r.parent_dir slot r.slot_ge r.slot_lt
  rw [r.named] at this
  cases this

end

section
variable {d e : Disk} {i : Nat}

/-! ## One object -/

theorem lookup_congr (h : FsInv (view d)) (h' : FsInv (view e)) (hd : (view d).isDir i)
    (hd' : (view e).isDir i) {x : List Byte} (hx : GoodName x)
    (same : ∀ j k, k < 128 →
      ((view e).entry i k = some (x, j) ↔ (view d).entry i k = some (x, j))) :
    lookup e i x = lookup d i x := by
  apply Option.ext
  intro j
  rw [lookup_iff h' hd'.1 hx, lookup_iff h hd.1 hx]
  constructor
  · rintro ⟨-, k, hk, he⟩
    exact ⟨hd, k, hk, (same j k hk).mp he⟩
  · rintro ⟨-, k, hk, he⟩
    exact ⟨hd', k, hk, (same j k hk).mpr he⟩

theorem namesOf_congr (h : FsInv (view d)) (h' : FsInv (view e)) (hd : (view d).isDir i)
    (hd' : (view e).isDir i) (same : ∀ k, (view e).entry i k = (view d).entry i k) :
    namesOf e i = namesOf d i := by
  funext x
  unfold namesOf
  split
  · rename_i hx
    exact lookup_congr h h' hd hd' hx fun j k _ => by rw [same k]
  · rfl

theorem contentOf_agrees (h : BlockInv (view d)) (h' : BlockInv (view e)) (hl : (view d).live i)
    (hl' : (view e).live i) (ha : (view d).Agrees (view e) i) : contentOf e i = contentOf d i := by
  rw [contentOf_eq h hl, contentOf_eq h' hl', ha.inode]
  exact List.map_congr_left fun p _ => ha.byteAt p

theorem treeOf_congr (h : BlockInv (view d)) (hl : (view e).live i → (view d).live i)
    (hd : (view d).isDir i → (view e).isDir i ∧ namesOf e i = namesOf d i)
    (hf : (view d).isFile i → (view e).isFile i ∧ contentOf e i = contentOf d i) :
    treeOf e i = treeOf d i := by
  by_cases live : (view d).live i
  · rcases h.mode i live with file | dir
    · obtain ⟨file', same⟩ := hf file
      rw [treeOf_file file, treeOf_file file', same]
    · obtain ⟨dir', same⟩ := hd dir
      rw [treeOf_dir dir, treeOf_dir dir', same]
  · rw [treeOf_none live, treeOf_none fun hl' => live (hl hl')]

/-- A directory with no names but its own and its parent's. -/
theorem namesOf_dots (h : FsInv (view d)) {q : Nat} (hd : (view d).isDir i)
    (dot : (view d).entry i 0 = some (dotName, i)) (dotdot : (view d).entry i 1 = some (dotdotName, q))
    (rest : ∀ k, 2 ≤ k → k < 128 → (view d).entry i k = none) :
    FileNode.dir (namesOf d i) = newDir q i := by
  have hdot : lookup d i dotName = some i :=
    (lookup_iff h hd.1 goodName_dot).mpr ⟨hd, 0, by decide, dot⟩
  have hdotdot : lookup d i dotdotName = some q :=
    (lookup_iff h hd.1 goodName_dotdot).mpr ⟨hd, 1, by decide, dotdot⟩
  refine congrArg FileNode.dir (funext fun y => ?_)
  unfold namesOf
  by_cases hy : y = dotName
  · rw [hy, if_pos goodName_dot, if_pos rfl, hdot]
  by_cases hyy : y = dotdotName
  · rw [hyy, if_pos goodName_dotdot, if_neg (by decide), if_pos rfl, hdotdot]
  rw [if_neg hy, if_neg hyy]
  split
  · rename_i good
    rw [Option.eq_none_iff_forall_ne_some]
    intro j hj
    obtain ⟨-, k, hk, he⟩ := (lookup_iff h hd.1 good).mp hj
    by_cases h0 : k = 0
    · rw [h0, dot] at he
      exact hy (Prod.ext_iff.mp (Option.some.inj he)).1.symm
    by_cases h1 : k = 1
    · rw [h1, dotdot] at he
      exact hyy (Prod.ext_iff.mp (Option.some.inj he)).1.symm
    rw [rest k (by omega) hk] at he
    cases he
  · rfl

/-! ## The tree -/

theorem treeOf_untouched (h : FsInv (view d)) (hu : (view d).Untouched (view e)) :
    treeOf e = treeOf d := by
  have same := hu.same h.toBlockInv
  funext i
  refine treeOf_congr h.toBlockInv (same.live i).mp (fun hd => ?_) fun hf => ?_
  · have hd' := (same.isDir i).mpr hd
    exact ⟨hd', namesOf_congr h (same.inv h) hd hd' (same.entry hd)⟩
  · have hf' := (same.isFile i).mpr hf
    exact ⟨hf', contentOf_agrees h.toBlockInv (same.blocks h.toBlockInv) hf.1 hf'.1 (hu.agrees i hf.1)⟩

/-- What happens inside one file. -/
theorem treeOf_frame {ino : Nat} (h : FsInv (view d)) (h' : FsInv (view e))
    (fr : (view d).Frame ino (view e)) (file : (view d).isFile ino) :
    treeOf e = (treeOf d).put ino (contentOf e ino) := by
  have hb := h.toBlockInv
  funext i
  by_cases hi : i = ino
  · rw [hi, FileTree.put_apply_self, treeOf_file ((fr.isFile ino).mpr file)]
  rw [FileTree.put, Function.update_of_ne hi]
  refine treeOf_congr hb (fr.live i).mp (fun hd => ?_) fun hf => ?_
  · have hd' := (fr.isDir i).mpr hd
    exact ⟨hd', namesOf_congr h h' hd hd' (fr.entry hb hd hi)⟩
  · have hf' := (fr.isFile i).mpr hf
    exact ⟨hf', contentOf_agrees hb h'.toBlockInv hf.1 hf'.1 (fr.agrees hf.1 hi)⟩

section
variable {q slot ino b : Nat} {x : List Byte} {mode : Word}

/-- A new object and its name. -/
theorem treeOf_created (h : FsInv (view d)) (h' : FsInv (view e))
    (c : (view d).Created (view e) q slot ino b x mode) (hm : mode = inodeFile ∨ mode = inodeDir) :
    treeOf e = (treeOf d).link q x ino (if mode = inodeDir then newDir q ino else .file []) := by
  have hb := h.toBlockInv
  have hq' : (view e).isDir q := (c.isDir q).mpr (.inl c.parent_dir)
  apply FileTree.eq_link (treeOf_dir c.parent_dir)
  · rcases hm with hm | hm
    · have hf' : (view e).isFile ino := (c.isFile ino).mpr (.inr ⟨rfl, hm⟩)
      have hsize : ((view e).inode ino).size = 0#32 := by
        rw [c.inode_new]
        rfl
      rw [treeOf_file hf', contentOf_eq h'.toBlockInv hf'.1, hsize, if_neg (by rw [hm]; decide)]
      rfl
    · have hd' : (view e).isDir ino := (c.isDir ino).mpr (.inr ⟨rfl, hm⟩)
      obtain ⟨dot, dotdot, rest⟩ := c.entry_new hb hm
      rw [treeOf_dir hd', namesOf_dots h' hd' dot dotdot rest, if_pos hm]
  · rw [treeOf_dir hq']
    refine congrArg (fun names => some (FileNode.dir names)) (funext fun y => ?_)
    by_cases hy : y = x
    · rw [hy, Function.update_self, namesOf, if_pos c.good]
      refine (lookup_iff h' hq'.1 c.good).mpr ⟨hq', slot, c.slot_lt, ?_⟩
      rw [c.entry_old hb c.parent_dir, if_pos ⟨rfl, rfl⟩]
    rw [Function.update_of_ne hy]
    unfold namesOf
    split
    · rename_i good
      refine lookup_congr h h' c.parent_dir hq' good fun j k _ => ?_
      rw [c.entry_old hb c.parent_dir]
      by_cases hk : k = slot
      · rw [if_pos ⟨rfl, hk⟩, hk, c.slot_free]
        constructor
        · rintro he
          cases he
          exact absurd rfl hy
        · exact fun he => absurd he (by simp)
      · rw [if_neg fun hn => hk hn.2]
    · rfl
  · intro j hj hq
    refine treeOf_congr hb (fun hl => ((c.live j).mp hl).resolve_right hj) (fun hd => ?_) fun hf => ?_
    · have hd' := (c.isDir j).mpr (.inl hd)
      refine ⟨hd', namesOf_congr h h' hd hd' fun k => ?_⟩
      rw [c.entry_old hb hd, if_neg fun hn => hq hn.1]
    · have hf' := (c.isFile j).mpr (.inl hf)
      exact ⟨hf', contentOf_agrees hb h'.toBlockInv hf.1 hf'.1 (c.agrees hb hf)⟩

/-- An object goes with its name. -/
theorem treeOf_removed (h : FsInv (view d)) (r : (view d).Removed (view e) q slot ino x) :
    treeOf e = (treeOf d).unlink q x ino := by
  have hb := h.toBlockInv
  have h' := r.inv h
  have hq' : (view e).isDir q := (r.isDir q).mpr ⟨r.parent_dir, r.parent_ne⟩
  have good := h.name q slot x ino r.parent_dir r.slot_lt r.named
  apply FileTree.eq_unlink (treeOf_dir r.parent_dir)
  · exact treeOf_none fun hl => ((r.live ino).mp hl).2 rfl
  · rw [treeOf_dir hq']
    refine congrArg (fun names => some (FileNode.dir names)) (funext fun y => ?_)
    by_cases hy : y = x
    · rw [hy, Function.update_self, namesOf, if_pos good, Option.eq_none_iff_forall_ne_some]
      intro j hj
      obtain ⟨-, k, hk, he⟩ := (lookup_iff h' hq'.1 good).mp hj
      rw [r.entry_old hb r.parent_dir r.parent_ne] at he
      split at he
      · cases he
      · rename_i hslot
        exact hslot ⟨rfl, h.tree.names q k slot x j ino r.parent_dir hk r.slot_lt he r.named⟩
    rw [Function.update_of_ne hy]
    unfold namesOf
    split
    · rename_i hgood
      refine lookup_congr h h' r.parent_dir hq' hgood fun j k _ => ?_
      rw [r.entry_old hb r.parent_dir r.parent_ne]
      by_cases hk : k = slot
      · rw [if_pos ⟨rfl, hk⟩, hk, r.named]
        constructor
        · exact fun he => absurd he (by simp)
        · rintro he
          cases he
          exact absurd rfl hy
      · rw [if_neg fun hn => hk hn.2]
    · rfl
  · intro j hj hq
    refine treeOf_congr hb (fun hl => ((r.live j).mp hl).1) (fun hd => ?_) fun hf => ?_
    · have hd' := (r.isDir j).mpr ⟨hd, hj⟩
      refine ⟨hd', namesOf_congr h h' hd hd' fun k => ?_⟩
      rw [r.entry_old hb hd hj, if_neg fun hn => hq hn.1]
    · have hf' := (r.isFile j).mpr ⟨hf, hj⟩
      exact ⟨hf', contentOf_agrees hb h'.toBlockInv hf.1 hf'.1 (r.agrees hb hf hj)⟩

end

end

end SengOS
