import SengOS.Shell.Session

/-!
# Texts that stay

A text that `write` has stored is what `cat` prints later, after any lines and reboots, unless
one of them writes to that file or removes it.
-/

namespace SengOS

open Shell

namespace Files

variable {m m' : Files} {before after : Shortage} {i : Nat} {content : List Byte}

/-- The object of a creation is a new one. -/
theorem Creates.new {q : Nat} {x : List Byte} {n : Nat → FileNode Nat (List Byte) Byte}
    (h : m.Creates before q x n (.ok i) m') : m.tree i = none := by
  cases h with
  | made _ hf =>
    unfold Files.fresh at hf
    have free : (m.tree i).isNone = true := List.find?_some (p := fun i => (m.tree i).isNone) hf
    exact Option.isNone_iff_eq_none.mp free

theorem Creates.keeps {q j : Nat} {x : List Byte} {n : Nat → FileNode Nat (List Byte) Byte}
    (h : m.Creates before q x n (.ok j) m') (hi : m.tree i = some (.file content)) :
    i ≠ j ∧ m'.tree i = some (.file content) := by
  have hne : i ≠ j := by
    rintro rfl
    rw [h.new] at hi
    cases hi
  rw [h.ok]
  exact ⟨hne, FileTree.link_of_file _ hi hne⟩

/-- A path that led nowhere leads to the new object afterwards, if anywhere. -/
theorem Creates.resolve {q : Nat} {x path : List Byte} {c : List Byte}
    (h : m.Creates before q x (fun _ => .file c) (.ok i) m') (hs : m.split path = some (q, x)) {j : Nat}
    (hj : m'.resolve path = some j) : j = i := by
  have hnew := h.new
  obtain ⟨free, isDir⟩ : m.tree.find q x = none ∧ m.tree.IsDir q := by
    cases h with
    | made free _ _ hd => exact ⟨free, hd⟩
  rw [h.ok] at hj
  unfold split at hs
  split at hs
  · cases hs
  rename_i hpath
  obtain ⟨pre, post, st⟩ := splitWalk_stops _ _ hs
  have found : (m.tree.link q x i (.file c)).find q x = some i := by
    obtain ⟨names, hd⟩ := isDir
    have hne : q ≠ i := by
      rintro rfl
      rw [hnew] at hd
      cases hd
    unfold FileTree.find FileTree.link
    rw [Function.update_of_ne hne, FileTree.setName_dir hd, Function.update_self]
    exact Function.update_self ..
  have st' : Stops (m.tree.link q x i (.file c)).find (m.start path) (components path) q x pre post :=
    { st with
      reach := walk_mono (fun e y k hk => FileTree.link_find free hnew hk) st.reach }
  unfold Files.resolve at hj
  rw [if_neg fun e => hpath (.inl e)] at hj
  have hw : walk (m.tree.link q x i (.file c)).find (m.start path) (components path) = some j := hj
  rw [st'.walk, found] at hw
  split at hw
  · cases hw
    rfl
  · cases hw

end Files

/-- The line writes to object `i` or removes it. -/
def Line.Touches (l : Line) (m : Files) (i : Nat) : Prop :=
  (commandName l.cmd = Command.write.name ∧ m.resolve (word l.args) = some i) ∨
    (commandName l.cmd = Command.rm.name ∧
      ∃ q x, m.split (word l.args) = some (q, x) ∧ m.tree.find q x = some i)

theorem Command.name_inj {c d : Command} (h : c.name = d.name) : c = d := by
  revert h
  cases c <;> cases d <;> decide

namespace Files

variable {m m' : Files} {before after : Shortage} {i : Nat} {content text : List Byte} {l : Line}

theorem resolve_put {old : List Byte} (h : m.tree i = some (.file old)) (c path : List Byte) :
    Files.resolve { m with tree := m.tree.put i c } path = m.resolve path := by
  unfold Files.resolve
  rw [FileTree.put_find h]
  rfl

/-- A line leaves the files alone that it does not name. -/
theorem Obeys.keeps (h : m.Obeys before after l text m') (ht : ¬ l.Touches m i)
    (hi : m.tree i = some (.file content)) : m'.tree i = some (.file content) := by
  cases h with
  | blank => exact hi
  | unknown => exact hi
  | does hc hd =>
    cases hd with
    | touches _ _ _ made => exact (made.keeps hi).2
    | @writes _ name _ j _ hn _ hr =>
      have hne : i ≠ j := by
        rintro rfl
        exact ht (.inl ⟨hc, hn.1 ▸ hr⟩)
      exact (Function.update_of_ne hne _ _).trans hi
    | writesNew _ _ _ _ made =>
      obtain ⟨hne, hi⟩ := made.keeps hi
      exact (Function.update_of_ne hne _ _).trans hi
    | @removes _ name x q j hn hs hf =>
      refine FileTree.unlink_of_file hi ?_
      rintro rfl
      exact ht (.inr ⟨hc, q, x, hn.1 ▸ hs, hf⟩)
    | makes _ _ made => exact (made.keeps hi).2
    | changes => exact hi
    | _ => exact hi

theorem Obeys.of_name {c : Command} (h : m.Obeys before after l text m')
    (hc : commandName l.cmd = c.name) : m.Does before after c l.args text m' := by
  cases h with
  | blank hnil =>
    rw [hnil] at hc
    cases c <;> cases hc
  | unknown _ hno => exact absurd hc (hno c)
  | does hc' hd =>
    obtain rfl := Command.name_inj (hc'.symm.trans hc)
    exact hd

/-- A line for `write` that does not fail leaves its text in the file that the path leads to. -/
theorem Obeys.written (h : m.Obeys before after l text m') (hc : commandName l.cmd = Command.write.name)
    (hn : Names l.args (word l.args)) (hb : behind l.args ≠ [])
    (ht : text ≠ ascii "  write: unable to open file\n") (hspace : ¬ after.blocks) :
    ∃ i, m'.tree i = some (.file (behind l.args)) ∧ ∀ j, m'.resolve (word l.args) = some j → j = i := by
  have hd := h.of_name hc
  have all {n : Nat} (hle : n ≤ (behind l.args).length)
      (hshort : n < (behind l.args).length → after.blocks) : (behind l.args).take n = behind l.args :=
    List.take_of_length_le (Nat.le_of_not_lt fun hlt => hspace (hshort hlt))
  cases hd with
  | usage hno =>
    rcases hno with hno | ⟨-, hno⟩
    · exact absurd hn (hno _)
    · exact absurd hno hb
  | @writes _ name old i n hn' _ hr hf hle hshort =>
    rw [all hle hshort]
    refine ⟨i, Function.update_self .., fun j hj => ?_⟩
    rw [resolve_put hf, ← hn'.1, hr] at hj
    cases hj
    rfl
  | @writesNew _ name x q i n m₁ hn' _ hr hs made hle hshort =>
    rw [all hle hshort]
    refine ⟨i, Function.update_self .., fun j hj => ?_⟩
    rw [resolve_put made.file, ← hn'.1] at hj
    exact made.resolve hs hj
  | writeFails => exact absurd rfl ht

/-- A line for `cat` prints the whole file that its path leads to. -/
theorem Obeys.catted (h : m.Obeys before after l text m') (hc : commandName l.cmd = Command.cat.name)
    (hn : Names l.args (word l.args)) (hr : m.resolve (word l.args) = some i)
    (hi : m.tree i = some (.file content)) : text = ascii "  " ++ content ++ ascii "\n" := by
  have hd := h.of_name hc
  cases hd with
  | usage hno =>
    rcases hno with hno | ⟨hno, -⟩
    · exact absurd hn (hno _)
    · cases hno
  | cats hn' hr' hf =>
    rw [hn'.1, hr] at hr'
    cases hr'
    rw [hi] at hf
    cases hf
    rfl
  | catFails hn' hno =>
    rw [hn'.1] at hno
    exact absurd hi (hno i content hr)

end Files

namespace ShellState

variable {turns : Nat} {s : ShellState}

/-- No event of the list writes to object `i` or removes it. -/
def Spares (turns : Nat) (i : Nat) : ShellState → List ShellEvent → Prop
  | _, [] => True
  | s, e :: es => (∀ l, e = .line l → ¬ l.Touches s.fs.files i) ∧ Spares turns i (s.next turns e) es

theorem Ready.keeps (h : s.Ready) (hturns : 3 < turns) {i : Nat} {content : List Byte}
    (hi : s.fs.files.tree i = some (.file content)) {es : List ShellEvent} (hs : Spares turns i s es) :
    (s.after turns es).Ready ∧ (s.after turns es).fs.files.tree i = some (.file content) := by
  induction es generalizing s with
  | nil => exact ⟨h, hi⟩
  | cons e es ih =>
    obtain ⟨first, rest⟩ := hs
    rw [after_cons]
    cases e with
    | line l =>
      rw [next_line] at rest ⊢
      obtain ⟨-, ready, obeys⟩ := h.line hturns l
      exact ih ready (obeys.keeps (first l rfl) hi) rest
    | reboot =>
      have files : (s.next turns .reboot).fs.files = s.fs.files.rebooted :=
        FsState.reboot_files h.sound.toInv
      refine ih h.reboot ?_ rest
      rw [files]
      exact hi

theorem Ready.cat_prints (h : s.Ready) (hturns : 3 < turns) {i : Nat} {content : List Byte}
    (hi : s.fs.files.tree i = some (.file content)) {l : Line}
    (hc : commandName l.cmd = Command.cat.name) (hn : Names l.args (word l.args))
    (hr : s.fs.files.resolve (word l.args) = some i) :
    (s.record turns (.line l)).text = ascii "  " ++ content ++ ascii "\n" :=
  (h.line hturns l).2.2.catted hc hn hr hi

/-- What `write` has stored is what `cat` prints, after any lines and reboots that spare the file
and under every path that leads to it. -/
theorem cat_prints_written (hturns : 3 < turns) (es : List ShellEvent) (w : Line)
    (hw : commandName w.cmd = Command.write.name) (hn : Names w.args (word w.args))
    (hb : behind w.args ≠ [])
    (ht : ((boot.after turns es).record turns (.line w)).text ≠ ascii "  write: unable to open file\n")
    (hspace : ¬ ((boot.after turns es).record turns (.line w)).after.blocks) :
    ∃ i, (boot.after turns (es ++ [.line w])).fs.files.tree i = some (.file (behind w.args)) ∧
      (∀ j, (boot.after turns (es ++ [.line w])).fs.files.resolve (word w.args) = some j → j = i) ∧
      ∀ es', Spares turns i (boot.after turns (es ++ [.line w])) es' → ∀ c : Line,
        commandName c.cmd = Command.cat.name → Names c.args (word c.args) →
        (boot.after turns (es ++ [.line w] ++ es')).fs.files.resolve (word c.args) = some i →
        ((boot.after turns (es ++ [.line w] ++ es')).record turns (.line c)).text =
          ascii "  " ++ behind w.args ++ ascii "\n" := by
  have before := (boot_ready.session hturns es).2.1
  obtain ⟨-, ready, obeys⟩ := before.line hturns w
  obtain ⟨i, hi, only⟩ := obeys.written hw hn hb ht hspace
  have hafter : boot.after turns (es ++ [.line w]) = ((boot.after turns es).runs turns w).2 := by
    rw [after, after, List.foldl_append]
    rfl
  have hrest (es' : List ShellEvent) : boot.after turns (es ++ [.line w] ++ es') =
      ((boot.after turns es).runs turns w).2.after turns es' := by
    rw [← hafter, after, after, List.foldl_append]
    rfl
  rw [hafter]
  refine ⟨i, hi, only, fun es' hs c hc hnc hr => ?_⟩
  rw [hrest] at hr ⊢
  obtain ⟨ready', hi'⟩ := ready.keeps hturns hi hs
  exact ready'.cat_prints hturns hi' hc hnc hr

theorem helloWritten_printed :
    ((boot.after 4 [.line writeLine, .reboot]).record 4 (.line catLine)).text =
      ascii "  " ++ behind writeLine.args ++ ascii "\n" := by
  have failed : ((boot.after 4 []).record 4 (.line writeLine)).text ≠
      ascii "  write: unable to open file\n" := by decide +kernel
  have space : ¬ ((boot.after 4 []).record 4 (.line writeLine)).after.blocks := fun full =>
    absurd (full 200 (by decide) (by decide)) (by decide +kernel)
  obtain ⟨i, -, only, printed⟩ := cat_prints_written (by decide) [] writeLine (by decide)
    ⟨rfl, by decide, by decide⟩ (by decide) failed space
  have first : (boot.after 4 [.line writeLine]).fs.files.resolve (word writeLine.args) = some 1 := by
    decide +kernel
  obtain rfl := only 1 first
  have spared : Spares 4 1 (boot.after 4 [.line writeLine]) [.reboot] := ⟨fun _ => nofun, trivial⟩
  exact printed [.reboot] spared catLine (by decide) ⟨rfl, by decide, by decide⟩ (by decide +kernel)

end ShellState

end SengOS
