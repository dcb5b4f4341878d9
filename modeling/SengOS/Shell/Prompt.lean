import SengOS.Shell.Meaning

/-!
# Calls at the prompt

What the calls of a command do when no file was open before it: the command's file gets
descriptor 0, and closing it leaves the files as at the prompt.
-/

namespace SengOS

namespace FileTree

variable {ι κ β : Type*} [DecidableEq ι] {t : FileTree ι κ β} {d i j : ι} {x : κ} {content : List β}

theorem put_file {c : List β} (h : t.put i c j = some (.file content)) :
    (j = i ∧ c = content) ∨ t j = some (.file content) := by
  unfold put at h
  by_cases hj : j = i
  · rw [hj, Function.update_self] at h
    cases h
    exact .inl ⟨hj, rfl⟩
  · rw [Function.update_of_ne hj] at h
    exact .inr h

variable [DecidableEq κ]

theorem setName_file {o : Option ι} (h : t.setName d x o j = some (.file content)) :
    t j = some (.file content) := by
  unfold setName at h
  cases hd : t d with
  | none =>
    simp only [hd] at h
    exact h
  | some n =>
    cases n with
    | file c =>
      simp only [hd] at h
      exact h
    | dir names =>
      simp only [hd] at h
      by_cases hj : j = d
      · rw [hj, Function.update_self] at h
        cases h
      · rwa [Function.update_of_ne hj] at h

theorem link_file {n : FileNode ι κ β} (h : t.link d x i n j = some (.file content)) :
    (j = i ∧ n = .file content) ∨ t j = some (.file content) := by
  unfold link at h
  by_cases hj : j = i
  · rw [hj, Function.update_self] at h
    exact .inl ⟨hj, Option.some.inj h⟩
  · rw [Function.update_of_ne hj] at h
    exact .inr (setName_file h)

theorem unlink_file (h : t.unlink d x i j = some (.file content)) : t j = some (.file content) := by
  unfold unlink at h
  by_cases hj : j = i
  · rw [hj, Function.update_self] at h
    cases h
  · rw [Function.update_of_ne hj] at h
    exact setName_file h

end FileTree

namespace Files

variable {m m' : Files} {before after : Shortage}

/-! ## Creations -/

section
variable {q i : Nat} {x : List Byte} {n : Nat → FileNode Nat (List Byte) Byte}

theorem Creates.error {rc : Int} (h : m.Creates before q x n (.error rc) m') : m' = m ∧ rc < 0 := by
  cases h <;> exact ⟨rfl, by decide⟩

theorem Creates.ok (h : m.Creates before q x n (.ok i) m') :
    m' = { m with tree := m.tree.link q x i (n i) } := by
  cases h
  rfl

theorem Creates.atPrompt (h : m.Creates before q x n (.ok i) m') (hm : m.AtPrompt)
    (hn : ∀ content, n i = .file content → content = []) : m'.AtPrompt := by
  rw [h.ok]
  refine ⟨hm.closed, fun j content hj => ?_⟩
  rcases FileTree.link_file hj with ⟨-, new⟩ | old
  · rw [hn content new]
    exact ⟨List.not_mem_nil, Nat.zero_le _⟩
  · exact hm.texts j content old

theorem Creates.file (h : m.Creates before q x (fun _ => .file []) (.ok i) m') :
    m'.tree i = some (.file []) := by
  rw [h.ok]
  exact Function.update_self ..

end

theorem AtPrompt.put (h : m.AtPrompt) (i : Nat) {content : List Byte} (hnul : 0#8 ∉ content)
    (hlen : content.length ≤ 255) : AtPrompt { m with tree := m.tree.put i content } := by
  refine ⟨h.closed, fun j c hj => ?_⟩
  rcases FileTree.put_file hj with ⟨-, rfl⟩ | old
  · exact ⟨hnul, hlen⟩
  · exact h.texts j c old

/-! ## One open file -/

/-- File `i` is open under descriptor 0 and holds `content`. -/
def holding (m : Files) (i : Nat) (content : List Byte) (o : Nat) (w : Bool) : Files :=
  { m with tree := m.tree.put i content, fds := Function.update m.fds 0 (some ⟨i, o, w⟩) }

section
variable {i o : Nat} {content : List Byte} {w : Bool} {a : Answer}

theorem handle_holding : (m.holding i content o w).handle 0 = some (0, ⟨i, o, w⟩) := by
  simp [handle, holding]

theorem close_holding (hm : m.AtPrompt)
    (h : (m.holding i content o w).Step before after (.close 0) a m') :
    a = (0, []) ∧ m' = { m with tree := m.tree.put i content } := by
  cases h with
  | closeRefused hno =>
    rw [handle_holding] at hno
    cases hno
  | closes hf =>
    rw [handle_holding] at hf
    cases hf
    refine ⟨rfl, ?_⟩
    simp only [setFd, holding, Function.update_idem]
    rw [Function.update_eq_self_iff.mpr (hm.closed 0).symm]

theorem write_holding {buf : Nat → Byte} {count : Word}
    (h : (m.holding i [] 0 true).Step before after (.write 0 (some buf) count) a m') :
    ∃ n, n ≤ count.toNat ∧ (n < count.toNat → 248 * 4096 ≤ n ∨ after.blocks) ∧ a = ((n : Int), []) ∧
      m' = m.holding i ((List.range n).map buf) n true := by
  cases h with
  | writeRefused hno =>
    rcases hno with hno | hno | ⟨k, f, hf, hw⟩
    · rw [handle_holding] at hno
      cases hno
    · cases hno
    · rw [handle_holding] at hf
      cases hf
      cases hw
  | @writes _ _ _ k n f old hf hw ht hle hshort =>
    rw [handle_holding] at hf
    cases hf
    have hold : old = [] := by
      have : (m.holding i [] 0 true).tree i = some (.file []) := Function.update_self ..
      rw [this] at ht
      cases ht
      rfl
    subst hold
    refine ⟨n, hle, fun hlt => (hshort hlt).imp (fun hb => by simpa using hb) id, rfl, ?_⟩
    have hover := overwrite_end 0#8 [] ((List.range n).map buf)
    rw [List.length_nil, List.nil_append] at hover
    simp only [holding, setFd, hover, FileTree.put_idem, Function.update_idem, Nat.zero_add]

theorem read_holding {count : Word}
    (h : (m.holding i content o w).Step before after (.read 0 true count) a m') :
    a = ((((content.drop o).take count.toNat).length : Int), (content.drop o).take count.toNat) ∧
      m' = m.holding i content (o + ((content.drop o).take count.toNat).length) w := by
  cases h with
  | readRefused hno =>
    rcases hno with hno | hno
    · rw [handle_holding] at hno
      cases hno
    · cases hno
  | @reads _ _ k f old bytes hf ht hbytes =>
    rw [handle_holding] at hf
    cases hf
    have hold : (m.holding i content o w).tree i = some (.file content) := Function.update_self ..
    rw [hold] at ht
    cases ht
    subst hbytes
    refine ⟨rfl, ?_⟩
    simp only [holding, setFd, Function.update_idem]

end

/-! ## Opening -/

theorem opened_closed (hm : m.AtPrompt) {flags : Word} (ha : flags &&& oAppend = 0#32) {i : Nat}
    {old : List Byte} (ht : m.tree i = some (.file old)) : m.opened i flags =
      (0, m.holding i (if flags &&& oTrunc ≠ 0#32 then [] else old) 0 (flags &&& 3#32 ≠ 0#32)) := by
  have hfree : (List.range 16).find? (fun k => (m.fds k).isNone) = some 0 := by
    rw [show List.range 16 = 0 :: List.range' 1 15 from rfl,
      List.find?_cons_of_pos (by rw [hm.closed 0]; rfl)]
  unfold opened
  rw [ht]
  simp only [hfree, ha, ne_eq, not_true_eq_false, ↓reduceIte]
  rfl

/-- What `fs_open` can do at the prompt. -/
inductive Opened (before : Shortage) (m : Files) (path : List Byte) (flags : Word) :
    Answer → Files → Prop
  | fails {rc : Int} : rc < 0 → (∃ i, m.resolve path = some i ∧ ∀ old, m.tree i ≠ some (.file old)) ∨
      (m.resolve path = none ∧ (flags &&& oCreate ≠ 0#32 →
        m.CannotCreate before path fun _ _ => .file [])) → Opened before m path flags (rc, []) m
  | found {i : Nat} {old : List Byte} : m.resolve path = some i → m.tree i = some (.file old) →
      Opened before m path flags (0, []) (m.holding i
        (if flags &&& oTrunc ≠ 0#32 then [] else old) 0 (flags &&& 3#32 ≠ 0#32))
  | made {q i : Nat} {x : List Byte} {m' : Files} : m.resolve path = none →
      flags &&& oCreate ≠ 0#32 → m.split path = some (q, x) →
      m.Creates before q x (fun _ => .file []) (.ok i) m' →
      Opened before m path flags (0, []) (m'.holding i [] 0 (flags &&& 3#32 ≠ 0#32))

theorem Step.opened (hm : m.AtPrompt) {path : CStr} {flags : Word} (ha : flags &&& oAppend = 0#32)
    {a : Answer} (h : m.Step before after (.open (some path) flags) a m') :
    m.Opened before path.bytes flags a m' := by
  cases h with
  | @opens _ _ i hr =>
    by_cases hf : ∃ old, m.tree i = some (.file old)
    · obtain ⟨old, ht⟩ := hf
      rw [opened_closed hm ha ht]
      exact .found hr ht
    · have hno : m.opened i flags = (-5, m) := by
        unfold Files.opened
        split
        · rename_i old ht
          exact absurd ⟨old, ht⟩ hf
        · rfl
      rw [hno]
      exact .fails (show (-5 : Int) < 0 by decide) (.inl ⟨i, hr, fun old ht => hf ⟨old, ht⟩⟩)
  | openMissing hr hc => exact .fails (by decide) (.inr ⟨hr, fun hn => absurd hc hn⟩)
  | openNowhere hr hc hs => exact .fails (by decide) (.inr ⟨hr, fun _ => .nowhere hs⟩)
  | openFailed hr hc hs made =>
    obtain ⟨rfl, -⟩ := made.error
    exact .fails (by decide) (.inr ⟨hr, fun _ => .failed hs made⟩)
  | openCreated hr hc hs made =>
    have atPrompt := made.atPrompt hm fun content e => by cases e; rfl
    rw [opened_closed atPrompt ha made.file, ite_self]
    exact .made hr hc hs made

end Files

end SengOS
