import SengOS.Shell.Desk

/-!
# What the commands mean

The commands for files as someone at the prompt sees them: no file is open, a command changes
the tree in one way or not at all, and prints a text. `Files.Does` says which, without
descriptors and loops.
-/

namespace SengOS

/-- What a call prints, without its colours. -/
def Print.text : Print → List Byte
  | .puts s => s.bytes
  | .putsColor s _ _ => s.bytes
  | .printf fmt args => ((formatText fmt.bytes args).getD []).flatMap fun
    | .char c => [c]
    | .str s => (s.map CStr.bytes).getD []

def Desk.text (m : Desk) : List Byte := m.out.flatMap Print.text

namespace Files

/-- Between two commands no file is open, and the files hold texts of one line. -/
structure AtPrompt (m : Files) : Prop where
  closed : ∀ k, m.fds k = none
  texts : ∀ i content, m.tree i = some (.file content) → 0#8 ∉ content ∧ content.length ≤ 255

/-- The path names a place for a new object, but none can be made there. -/
inductive CannotCreate (short : Shortage) (m : Files) (path : List Byte)
    (n : Nat → Nat → FileNode Nat (List Byte) Byte) : Prop
  | nowhere : m.split path = none → CannotCreate short m path n
  | failed {q : Nat} {x : List Byte} {rc : Int} : m.split path = some (q, x) →
      Creates short m q x (n q) (.error rc) m → CannotCreate short m path n

end Files

namespace Shell

/-- The first word of the arguments. -/
def word (args : List Byte) : List Byte := (kLtrim args).takeWhile (· ≠ 0x20#8)

/-- What is behind the first word. -/
def behind (args : List Byte) : List Byte := kLtrim ((kLtrim args).dropWhile (· ≠ 0x20#8))

/-- The arguments begin with a word that the commands take. -/
def Names (args name : List Byte) : Prop := name = word args ∧ name ≠ [] ∧ name.length ≤ 255

def Command.usage : Command → List Byte
  | .touch => ascii "  Usage: touch <file>\n"
  | .write => ascii "  Usage: write <file> <text>\n"
  | .cat => ascii "  Usage: cat <file>\n"
  | .rm => ascii "  Usage: rm <file>\n"
  | .mkdir => ascii "  Usage: mkdir <directory>\n"
  | .cd => ascii "  Usage: cd <directory>\n"

end Shell

open Shell

/-- A command with its arguments: the text that it prints and the files that it leaves. The disk
is short of `before` when it starts and of `after` when it ends. -/
inductive Files.Does (before after : Shortage) (m : Files) :
    Command → List Byte → List Byte → Files → Prop
  | usage {c : Command} {args : List Byte} : (∀ name, ¬ Names args name) ∨ (c = .write ∧ behind args = []) →
      Does before after m c args c.usage m
  | touches {args name x : List Byte} {q i : Nat} {m' : Files} : Names args name →
      m.resolve name = none → m.split name = some (q, x) →
      m.Creates before q x (fun _ => .file []) (.ok i) m' →
      Does before after m .touch args (ascii "  created: " ++ name ++ ascii "\n") m'
  | touchExists {args name : List Byte} : Names args name → m.resolve name ≠ none →
      Does before after m .touch args (ascii "  touch: file already exists\n") m
  | touchFails {args name : List Byte} : Names args name → m.resolve name = none →
      m.CannotCreate before name (fun _ _ => .file []) →
      Does before after m .touch args (ascii "  touch: unable to create file\n") m
  | writes {args name old : List Byte} {i n : Nat} : Names args name → behind args ≠ [] →
      m.resolve name = some i → m.tree i = some (.file old) → n ≤ (behind args).length →
      (n < (behind args).length → after.blocks) →
      Does before after m .write args
        (ascii "  wrote " ++ numeral 10 n ++ ascii " bytes to " ++ name ++ ascii "\n")
        { m with tree := m.tree.put i ((behind args).take n) }
  | writesNew {args name x : List Byte} {q i n : Nat} {m' : Files} : Names args name →
      behind args ≠ [] → m.resolve name = none → m.split name = some (q, x) →
      m.Creates before q x (fun _ => .file []) (.ok i) m' → n ≤ (behind args).length →
      (n < (behind args).length → after.blocks) →
      Does before after m .write args
        (ascii "  wrote " ++ numeral 10 n ++ ascii " bytes to " ++ name ++ ascii "\n")
        { m' with tree := m'.tree.put i ((behind args).take n) }
  | writeFails {args name : List Byte} : Names args name → behind args ≠ [] →
      (∃ i, m.resolve name = some i ∧ ∀ old, m.tree i ≠ some (.file old)) ∨
        (m.resolve name = none ∧ m.CannotCreate before name (fun _ _ => .file [])) →
      Does before after m .write args (ascii "  write: unable to open file\n") m
  | cats {args name content : List Byte} {i : Nat} : Names args name → m.resolve name = some i →
      m.tree i = some (.file content) →
      Does before after m .cat args (ascii "  " ++ content ++ ascii "\n") m
  | catFails {args name : List Byte} : Names args name →
      (∀ i content, m.resolve name = some i → m.tree i ≠ some (.file content)) →
      Does before after m .cat args (ascii "  cat: file not found\n") m
  | removes {args name x : List Byte} {q i : Nat} : Names args name → m.split name = some (q, x) →
      m.tree.find q x = some i → i ≠ 0 → ¬ m.Occupied i →
      Does before after m .rm args (ascii "  removed: " ++ name ++ ascii "\n")
        { m with tree := m.tree.unlink q x i, cwd := if m.cwd = i then 0 else m.cwd }
  | removeFails {args name : List Byte} : Names args name →
      (∀ q x i, m.split name = some (q, x) → m.tree.find q x = some i → i = 0 ∨ m.Occupied i) →
      Does before after m .rm args (ascii "  rm: unable to remove file/directory\n") m
  | makes {args name x : List Byte} {q i : Nat} {m' : Files} : Names args name →
      m.split name = some (q, x) → m.Creates before q x (newDir q) (.ok i) m' →
      Does before after m .mkdir args (ascii "  directory created: " ++ name ++ ascii "\n") m'
  | makeFails {args name : List Byte} : Names args name → m.CannotCreate before name newDir →
      Does before after m .mkdir args (ascii "  mkdir: unable to create directory\n") m
  | changes {args name : List Byte} {i : Nat} : Names args name → m.resolve name = some i →
      m.tree.IsDir i → Does before after m .cd args [] { m with cwd := i }
  | changeFails {args name : List Byte} : Names args name →
      (∀ i, m.resolve name = some i → ¬ m.tree.IsDir i) →
      Does before after m .cd args (ascii "  cd: directory not found\n") m

/-! ## Words -/

namespace Shell

theorem of_bytes {s : List Byte} (h : 0#8 ∉ s) : (CStr.of s).bytes = s := by
  refine List.takeWhile_eq_self_iff.mpr fun c hc => ?_
  simpa using fun e : c = 0#8 => h (e ▸ hc)

theorem wordLoop_eq (cap : Nat) (s : List Byte) (n : Nat) : wordLoop cap s n =
    if s.takeWhile (· ≠ 0x20#8) = [] ∨ n + (s.takeWhile (· ≠ 0x20#8)).length < cap then
      some (s.takeWhile (· ≠ 0x20#8), s.dropWhile (· ≠ 0x20#8))
    else none := by
  induction s generalizing n with
  | nil => rfl
  | cons c s ih =>
    rw [wordLoop]
    by_cases hc : c = 0x20#8
    · simp [hc]
    · rw [if_neg hc, ih, List.takeWhile_cons_of_pos (by simpa using hc),
        List.dropWhile_cons_of_pos (by simpa using hc), List.length_cons]
      by_cases hcap : cap ≤ n + 1
      · rw [if_pos hcap, if_neg (by simp; omega)]
      · rw [if_neg hcap]
        by_cases hlen : n + 1 + (s.takeWhile (· ≠ 0x20#8)).length < cap
        · rw [if_pos (.inr hlen), if_pos (.inr (by omega))]
          rfl
        · by_cases hnil : s.takeWhile (· ≠ 0x20#8) = []
          · rw [hnil] at hlen
            simp only [List.length_nil] at hlen
            omega
          · have long : ¬ (c :: s.takeWhile (· ≠ 0x20#8) = [] ∨
                n + ((s.takeWhile (· ≠ 0x20#8)).length + 1) < cap) := by
              rintro (h | h)
              · cases h
              · omega
            rw [if_neg (not_or.mpr ⟨hnil, hlen⟩), if_neg long]
            rfl

theorem word_eq_nil {args : List Byte} : word args = [] ↔ kLtrim args = [] := by
  unfold word kLtrim
  constructor
  · intro h
    cases hs : args.dropWhile (· == 0x20#8) with
    | nil => rfl
    | cons c s =>
      rw [hs] at h
      have hc : (c == 0x20#8) = false := by
        have := List.head?_dropWhile_not (· == 0x20#8) args
        rw [hs] at this
        simpa using this
      rw [List.takeWhile_cons_of_pos (by simpa using hc)] at h
      cases h
  · intro h
    rw [h]
    rfl

/-- `take_word` finds the first word if there is one and it fits. -/
@[elab_as_elim] theorem takeWord_rec {P : Int × List Byte × List Byte → Prop} (args : List Byte)
    (none : ∀ rc name p, rc ≤ 0 → (∀ name, ¬ Names args name) → P (rc, name, p))
    (some : Names args (word args) → P (1, word args, (kLtrim args).dropWhile (· ≠ 0x20#8))) :
    P (takeWord args 256) := by
  unfold takeWord
  by_cases hnil : kLtrim args = []
  · simp only [show skipSpaces args = kLtrim args from rfl, hnil, ↓reduceIte]
    exact none _ _ _ (Int.le_refl 0) fun name h => h.2.1 (h.1.trans (word_eq_nil.mpr hnil))
  have hword : word args ≠ [] := fun h => hnil (word_eq_nil.mp h)
  simp only [show skipSpaces args = kLtrim args from rfl, wordLoop_eq, if_neg hnil]
  by_cases hlen : (word args).length ≤ 255
  · have fits : (kLtrim args).takeWhile (· ≠ 0x20#8) = [] ∨
        0 + ((kLtrim args).takeWhile (· ≠ 0x20#8)).length < 256 :=
      .inr (by rw [Nat.zero_add]; exact Nat.lt_succ_of_le hlen)
    rw [if_pos fits]
    exact some ⟨rfl, hword, hlen⟩
  · have long : ¬ ((kLtrim args).takeWhile (· ≠ 0x20#8) = [] ∨
        0 + ((kLtrim args).takeWhile (· ≠ 0x20#8)).length < 256) := by
      rintro (h | h)
      · exact hword h
      · rw [Nat.zero_add] at h
        exact hlen (Nat.le_of_lt_succ h)
    rw [if_neg long]
    exact none _ _ _ (by decide) fun name h => hlen (h.1 ▸ h.2.2)

end Shell

end SengOS
