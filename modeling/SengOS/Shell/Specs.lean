import SengOS.Shell.Prompt

/-!
# The commands do what they mean

Each command, run at the prompt on any implementation of the calls, is one step of `Files.Does`
and comes back to the prompt.
-/

namespace SengOS

open Shell

namespace Desk

/-- `m'` is the desk after a command. -/
structure Done (m : Desk) (c : Command) (args : List Byte) (m' : Desk) : Prop where
  prompt : m'.files.AtPrompt
  does : ∃ text, m'.text = m.text ++ text ∧ m.files.Does m.short m'.short c args text m'.files

def say (m : Desk) (p : Print) : Desk := { m with out := m.out ++ [p] }

section
variable {m : Desk} {c : Command} {args : List Byte}

@[simp] theorem say_files (p : Print) : (m.say p).files = m.files := rfl

@[simp] theorem say_short (p : Print) : (m.say p).short = m.short := rfl

@[simp] theorem text_say (p : Print) : (m.say p).text = m.text ++ p.text := by
  simp [text, say]

end

end Desk

namespace Shell

variable {m : Desk} {args : List Byte}

/-! ## Calls -/

theorem wp_print {p : Print} {Q : Unit → Desk → Prop} (h : Q () (m.say p)) :
    (Program.invoke (ShellCall.print p) : Shell Unit).wp Desk.interface Q m :=
  ⟨trivial, fun _ _ e => e ▸ h⟩

theorem wp_puts {s : List Byte} {Q : Unit → Desk → Prop} (h : Q () (m.say (.puts (CStr.of s)))) :
    (puts s).wp Desk.interface Q m := wp_print h

theorem wp_putsColor {s : List Byte} {fg : Word} {Q : Unit → Desk → Prop}
    (h : Q () (m.say (.putsColor (CStr.of s) fg 0#32))) : (putsColor s fg).wp Desk.interface Q m :=
  wp_print h

theorem wp_stat {path : CStr} {Q : Int → Desk → Prop}
    (h : Q (if (m.files.resolve path.bytes).isSome then 0 else -1) m) :
    (stat path).wp Desk.interface Q m :=
  ⟨trivial, fun _ _ e => by rw [e.1, e.2]; exact h⟩

theorem wp_file {op : FsOp} {Q : Answer → Desk → Prop} (hp : m.Permits (.file op))
    (h : ∀ a files short, m.files.Step m.short short op a files → (op.Quiet → short = m.short) →
      Q a ⟨files, short, m.out⟩) : (file op).wp Desk.interface Q m := by
  refine ⟨hp, fun a m' e => ?_⟩
  obtain ⟨hstep, hquiet, hout⟩ := e
  have := h a m'.files m'.short hstep hquiet
  rw [← hout] at this
  exact this

/-- `fs_open` at the prompt. -/
theorem wp_open (hm : m.files.AtPrompt) {path : CStr} {flags : Word} (ha : flags &&& oAppend = 0#32)
    {Q : Answer → Desk → Prop}
    (h : ∀ a files short, m.files.Opened m.short path.bytes flags a files → Q a ⟨files, short, m.out⟩) :
    (file (.open (some path) flags)).wp Desk.interface Q m :=
  wp_file trivial fun a files short hs _ => h a files short (hs.opened hm ha)

/-- `fs_close` of the only open file. -/
theorem wp_close {f : Files} {short : Shortage} {out : List Print} {i o : Nat} {content : List Byte}
    {w : Bool} (hf : f.AtPrompt) {Q : Answer → Desk → Prop}
    (h : Q (0, []) ⟨{ f with tree := f.tree.put i content }, short, out⟩) :
    (file (.close 0)).wp Desk.interface Q ⟨f.holding i content o w, short, out⟩ := by
  refine wp_file trivial fun a files short' hs hq => ?_
  obtain ⟨rfl, rfl⟩ := Files.close_holding hf hs
  rw [hq trivial]
  exact h

/-! ## Texts -/

theorem nul_not_mem_word (h : 0#8 ∉ args) : 0#8 ∉ word args := fun hm =>
  h ((List.dropWhile_sublist _).subset ((List.takeWhile_sublist _).subset hm))

theorem nul_not_mem_behind (h : 0#8 ∉ args) : 0#8 ∉ behind args := fun hm =>
  h ((List.dropWhile_sublist _).subset ((List.dropWhile_sublist _).subset
    ((List.dropWhile_sublist _).subset hm)))

theorem length_behind : (behind args).length ≤ args.length :=
  (((List.dropWhile_sublist _).trans (List.dropWhile_sublist _)).trans
    (List.dropWhile_sublist _)).length_le

/-- Text that is typed in a program has no NUL. -/
theorem of_ascii (s : String) (h : 0#8 ∉ ascii s) : (CStr.of (ascii s)).bytes = ascii s := of_bytes h

/-- What a piece of a format prints. -/
def pieceText : FormatPiece → List Byte
  | .char c => [c]
  | .str s => (s.map CStr.bytes).getD []

theorem chars_text (s : List Byte) : (s.map FormatPiece.char).flatMap pieceText = s := by
  induction s with
  | nil => rfl
  | cons c s ih => exact congrArg (c :: ·) ih

theorem formatText_chars {s : List Byte} (h : 0x25#8 ∉ s) (rest : List Byte) (args : List Arg) :
    formatText (s ++ rest) args = (formatText rest args).map (s.map .char ++ ·) := by
  induction s with
  | nil =>
    rw [List.nil_append]
    cases formatText rest args <;> rfl
  | cons c s ih =>
    rw [List.mem_cons, not_or] at h
    have hstep : formatText (c :: (s ++ rest)) args = (formatText (s ++ rest) args).map (.char c :: ·) := by
      rw [formatText.eq_def]
      exact if_pos (Ne.symm h.1)
    rw [List.cons_append, hstep, ih h.2, Option.map_map]
    rfl

theorem formatText_word (w : Word) (rest : List Byte) (args : List Arg) :
    formatText (0x25#8 :: 0x64#8 :: rest) (.word w :: args) =
      (formatText rest args).map ((signedNumeral w.toInt).map .char ++ ·) := by
  simp [formatText, directiveText]

theorem formatText_str (s : Option CStr) (rest : List Byte) (args : List Arg) :
    formatText (0x25#8 :: 0x73#8 :: rest) (.str s :: args) =
      (formatText rest args).map ([.str s] ++ ·) := by
  simp [formatText, directiveText]

theorem wrote_text {n : Nat} (hn : n ≤ 255) {name : List Byte} (hname : 0#8 ∉ name) :
    (Print.printf (CStr.of (ascii "  wrote %d bytes to %s\n"))
      [.word (BitVec.ofInt 32 n), .str (some (CStr.of name))]).text =
      ascii "  wrote " ++ numeral 10 n ++ ascii " bytes to " ++ name ++ ascii "\n" := by
  have hint : (BitVec.ofInt 32 n).toInt = n := by
    rw [BitVec.toInt_ofInt, Int.bmod_eq_of_le (by omega) (by omega)]
  have hfmt : ascii "  wrote %d bytes to %s\n" = ascii "  wrote " ++ 0x25#8 :: 0x64#8 ::
      (ascii " bytes to " ++ 0x25#8 :: 0x73#8 :: (ascii "\n" ++ [])) := by decide
  rw [Print.text, of_ascii _ (by decide), hfmt, formatText_chars (by decide), formatText_word,
    formatText_chars (by decide), formatText_str, formatText_chars (by decide), hint]
  show List.flatMap pieceText _ = _
  simp only [formatText, List.isEmpty_nil, ↓reduceIte, Option.map_some, Option.getD_some,
    List.flatMap_append, chars_text, List.flatMap_nil, List.append_nil, List.flatMap_cons]
  rw [pieceText, Option.map_some, Option.getD_some, of_bytes hname]
  simp only [signedNumeral, List.append_assoc]
  rw [if_neg (by omega), Int.natAbs_natCast]

/-! ## Commands -/

theorem usage_no_nul (c : Command) : 0#8 ∉ c.usage := by cases c <;> decide

theorem done_usage {c : Command} (hm : m.files.AtPrompt)
    (hno : (∀ name, ¬ Names args name) ∨ (c = .write ∧ behind args = [])) :
    m.Done c args (m.say (.putsColor (CStr.of c.usage) lightRed 0#32)) :=
  ⟨hm, c.usage, by rw [Desk.text_say, Print.text, of_bytes (usage_no_nul c)], .usage hno⟩

/-- A command says that it failed, and has changed nothing. -/
theorem done_fails {c : Command} (hm : m.files.AtPrompt) {text : String} {fg : Word} (short : Shortage)
    (h : 0#8 ∉ ascii text) (does : m.files.Does m.short short c args (ascii text) m.files) :
    m.Done c args (Desk.say ⟨m.files, short, m.out⟩ (.putsColor (CStr.of (ascii text)) fg 0#32)) :=
  ⟨hm, ascii text, by rw [Desk.text_say, Print.text, of_ascii _ h]; rfl, does⟩

theorem cmdTouch_does (hm : m.files.AtPrompt) (hnul : 0#8 ∉ args) :
    (cmdTouch args).wp Desk.interface (fun _ => m.Done .touch args) m := by
  unfold cmdTouch
  refine takeWord_rec args (fun rc name p hrc hno => ?_) fun hn => ?_
  all_goals dsimp only
  · rw [if_pos hrc]
    exact wp_putsColor (done_usage hm (.inl hno))
  have hname := of_bytes (nul_not_mem_word hnul)
  rw [if_neg (by decide)]
  refine Program.wp_do.mpr (wp_stat ?_)
  rw [hname]
  cases hr : m.files.resolve (word args) with
  | some i =>
    refine wp_putsColor (done_fails hm m.short (by decide) (.touchExists hn ?_))
    rw [hr]
    exact Option.some_ne_none i
  | none =>
    refine Program.wp_do.mpr (wp_open hm (by decide) fun a files short ho => ?_)
    rw [hname] at ho
    cases ho with
    | fails hrc hwhy =>
      rw [if_pos hrc]
      refine wp_putsColor (done_fails hm short (by decide) (.touchFails hn hr ?_))
      rcases hwhy with ⟨i, hi, -⟩ | ⟨-, hwhy⟩
      · rw [hr] at hi
        cases hi
      · exact hwhy (by decide)
    | found hi => rw [hr] at hi; cases hi
    | made _ _ hs made =>
      have atPrompt := made.atPrompt hm fun content e => by cases e; rfl
      refine Program.wp_do.mpr (wp_close atPrompt ?_)
      rw [FileTree.put_self made.file]
      refine Program.wp_do.mpr (wp_puts (Program.wp_do.mpr (wp_puts (wp_puts ?_))))
      refine ⟨atPrompt, _, ?_, .touches hn hr hs made⟩
      simp only [Desk.text_say, Print.text, hname, of_ascii "  created: " (by decide),
        of_ascii "\n" (by decide), List.append_assoc]
      rfl

/-- The text is written to a file that is open and empty. -/
theorem wp_writeText {f : Files} {short : Shortage} {out : List Print} {i : Nat}
    {text : List Byte} (hlen : text.length ≤ 255) {Q : Answer → Desk → Prop}
    (h : ∀ (n : Nat) (after : Shortage), n ≤ text.length → (n < text.length → after.blocks) →
      Q (n, []) ⟨f.holding i (text.take n) n true, after, out⟩) :
    (file (.write 0 (some fun i => text.getD i 0#8) (BitVec.ofNat 32 text.length))).wp Desk.interface Q
      ⟨f.holding i [] 0 true, short, out⟩ := by
  have hcount : (BitVec.ofNat 32 text.length).toNat = text.length := by
    rw [BitVec.toNat_ofNat]
    omega
  refine wp_file ?_ fun a files after hs _ => ?_
  · intro k g hg
    rw [Files.handle_holding] at hg
    cases hg
    exact ⟨[], Function.update_self .., Nat.le_refl 0⟩
  · obtain ⟨n, hle, hshort, rfl, rfl⟩ := Files.write_holding hs
    rw [hcount] at hle hshort
    have htake : (List.range n).map (fun i => text.getD i 0#8) = text.take n := by
      apply List.ext_getElem
      · simp [hle]
      · intro k hk hk'
        have hlt : k < text.length := by
          rw [List.length_take] at hk'
          omega
        simp [hlt]
    rw [htake]
    refine h n after hle fun hlt => (hshort hlt).resolve_left ?_
    omega

theorem cmdWrite_does (hm : m.files.AtPrompt) (hnul : 0#8 ∉ args) (hlen : args.length ≤ 255) :
    (cmdWrite args).wp Desk.interface (fun _ => m.Done .write args) m := by
  unfold cmdWrite
  refine takeWord_rec args (fun rc name p hrc hno => ?_) fun hn => ?_
  all_goals dsimp only
  · rw [if_pos hrc]
    exact wp_putsColor (done_usage hm (.inl hno))
  rw [if_neg (by decide), show skipSpaces ((kLtrim args).dropWhile (· ≠ 0x20#8)) = behind args from rfl]
  by_cases htext : behind args = []
  · rw [if_pos htext]
    exact wp_putsColor (done_usage hm (.inr ⟨rfl, htext⟩))
  have hname := of_bytes (nul_not_mem_word hnul)
  have hbehind := nul_not_mem_behind hnul
  have hshort : (behind args).length ≤ 255 := Nat.le_trans length_behind hlen
  rw [if_neg htext]
  -- the rest of the command once the file is open
  have wrote {f : Files} (hf : f.AtPrompt) (short : Shortage) (i : Nat)
      (does : ∀ (n : Nat) (after : Shortage), n ≤ (behind args).length →
        (n < (behind args).length → after.blocks) → m.files.Does m.short after .write args
          (ascii "  wrote " ++ numeral 10 n ++ ascii " bytes to " ++ word args ++ ascii "\n")
          { f with tree := f.tree.put i ((behind args).take n) }) :
      (do
        let n ← file (.write 0 (some fun i => (behind args).getD i 0#8)
          (BitVec.ofNat 32 (behind args).length))
        let _ ← file (.close 0)
        if n.1 < 0 then putsColor (ascii "  write: failed\n") lightRed
        else
          printf (ascii "  wrote %d bytes to %s\n")
            [.word (BitVec.ofInt 32 n.1), .str (some (CStr.of (word args)))]).wp Desk.interface
        (fun _ => m.Done .write args) ⟨f.holding i [] 0 true, short, m.out⟩ := by
    refine Program.wp_do.mpr (wp_writeText hshort fun n after hle hblocks => ?_)
    refine Program.wp_do.mpr (wp_close hf ?_)
    have hpos : ¬ ((n : Int) < 0) := by omega
    dsimp only
    rw [if_neg hpos]
    refine wp_print ⟨?_, _, ?_, does n after hle hblocks⟩
    · exact hf.put i (fun h => hbehind (List.mem_of_mem_take h))
        (Nat.le_trans (List.length_take_le' n _) hshort)
    · rw [Desk.text_say, wrote_text (by omega) (nul_not_mem_word hnul)]
      rfl
  refine Program.wp_do.mpr (wp_open hm (by decide) fun a files short ho => ?_)
  rw [hname] at ho
  cases ho with
  | fails hrc hwhy =>
    rw [if_pos hrc]
    refine wp_putsColor (done_fails hm short (by decide) (.writeFails hn htext ?_))
    exact hwhy.imp id fun h => ⟨h.1, h.2 (by decide)⟩
  | found hi ht =>
    rw [if_pos (show (2#32 ||| oCreate ||| oTrunc) &&& oTrunc ≠ 0#32 by decide)]
    exact wrote hm short _ fun n after hle hblocks => .writes hn htext hi ht hle hblocks
  | made hr _ hs made =>
    have atPrompt := made.atPrompt hm fun content e => by cases e; rfl
    exact wrote atPrompt short _ fun n after hle hblocks =>
      .writesNew hn htext hr hs made hle hblocks

/-- In the loop of `cmd_cat`: what stands before the offset of the file has been printed. -/
structure Printing (m : Desk) (i : Nat) (content : List Byte) (short : Shortage) (o : Nat) (d : Desk) :
    Prop where
  files : d.files = m.files.holding i content o false
  short : d.short = short
  text : d.text = m.text ++ (ascii "  " ++ content.take o)
  inside : o ≤ content.length

theorem catTurn_prints {i : Nat} {content : List Byte} (hnul : 0#8 ∉ content) {short : Shortage} {o : Nat}
    {d : Desk} (hd : Printing m i content short o d) : (catTurn 0).wp Desk.interface (fun r d' => match r with
      | some n => n = 0 ∧ Printing m i content short content.length d'
      | none => o < content.length ∧ Printing m i content short (min (o + 127) content.length) d') d := by
  obtain ⟨files, short', out⟩ := d
  obtain ⟨rfl, rfl, htext, hle⟩ := hd
  refine Program.wp_do.mpr (wp_file trivial fun a files after hs hq => ?_)
  obtain ⟨rfl, rfl⟩ := Files.read_holding hs
  rw [hq trivial]
  dsimp only
  rw [show (127#32).toNat = 127 from rfl] at *
  have hlen : ((content.drop o).take 127).length = min 127 (content.length - o) := by
    rw [List.length_take, List.length_drop]
  by_cases hend : o = content.length
  · have hzero : ((content.drop o).take 127).length = 0 := by omega
    rw [hzero, if_pos (by decide)]
    subst hend
    exact ⟨rfl, rfl, rfl, htext, Nat.le_refl _⟩
  · have hpos : ¬ ((((content.drop o).take 127).length : Int) ≤ 0) := by omega
    rw [if_neg hpos]
    have hnext : min (o + 127) content.length = o + ((content.drop o).take 127).length := by omega
    rw [hnext]
    refine Program.wp_do.mpr (wp_puts ⟨by omega, rfl, rfl, ?_, by omega⟩)
    have hchunk : 0#8 ∉ (content.drop o).take 127 := fun h =>
      hnul (List.mem_of_mem_drop (List.mem_of_mem_take h))
    have htake : content.take (o + ((content.drop o).take 127).length) =
        content.take o ++ (content.drop o).take 127 := by
      have hsame : (content.drop o).take ((content.drop o).take 127).length = (content.drop o).take 127 :=
        List.take_eq_take_iff.mpr (by rw [hlen, List.length_drop]; omega)
      rw [List.take_add, hsame]
    rw [Desk.text_say, Print.text, of_bytes hchunk, htake]
    show (Desk.mk _ _ out).text ++ _ = _
    rw [show (Desk.mk (m.files.holding i content (o + ((content.drop o).take 127).length) false)
      short' out).text = m.text ++ (ascii "  " ++ content.take o) from htext]
    simp only [List.append_assoc]

theorem cmdCat_does {turns : Nat} (hturns : 3 < turns) (hm : m.files.AtPrompt) (hnul : 0#8 ∉ args) :
    (cmdCat turns args).wp Desk.interface (fun r d => r = some () ∧ m.Done .cat args d) m := by
  unfold cmdCat
  refine takeWord_rec args (fun rc name p hrc hno => ?_) fun hn => ?_
  all_goals dsimp only
  · rw [if_pos hrc]
    exact Program.wp_map.mpr (wp_putsColor ⟨rfl, done_usage hm (.inl hno)⟩)
  have hname := of_bytes (nul_not_mem_word hnul)
  rw [if_neg (by decide)]
  refine Program.wp_do.mpr (wp_open hm (by decide) fun a files short ho => ?_)
  rw [hname] at ho
  cases ho with
  | fails hrc hwhy =>
    rw [if_pos hrc]
    refine Program.wp_map.mpr (wp_putsColor ⟨rfl, done_fails hm short (by decide) (.catFails hn ?_)⟩)
    intro j content hj
    rcases hwhy with ⟨i, hi, ht⟩ | ⟨hr, -⟩
    · rw [hi] at hj
      cases hj
      exact ht content
    · rw [hr] at hj
      cases hj
  | made _ hc => exact absurd rfl hc
  | @found i content hi ht =>
    obtain ⟨hfree, hshort⟩ := hm.texts i content ht
    rw [if_neg (by decide), if_neg (by decide)]
    refine Program.wp_do.mpr (wp_puts (Program.wp_do.mpr ?_))
    refine Program.wp_loop
      (fun left d => ∃ o, left = (content.length - o + 126) / 127 ∧ Printing m i content short o d)
      (fun left d hd => ?_) (show (content.length - 0 + 126) / 127 < turns by omega) ?_
    · obtain ⟨o, rfl, hd⟩ := hd
      refine Program.wp_mono (fun r d' hr => ?_) (catTurn_prints hfree hd)
      cases r with
      | none =>
        obtain ⟨hlt, hd'⟩ := hr
        exact ⟨_, by omega, _, rfl, hd'⟩
      | some n =>
        obtain ⟨rfl, hd'⟩ := hr
        obtain ⟨files, short', out⟩ := d'
        obtain ⟨rfl, rfl, htext, -⟩ := hd'
        dsimp only
        rw [if_neg (by decide)]
        refine Program.wp_do.mpr (wp_close hm ?_)
        rw [FileTree.put_self ht]
        refine Program.wp_do.mpr (wp_puts ⟨rfl, hm, _, ?_, .cats hn hi ht⟩)
        rw [List.take_length] at htext
        rw [Desk.text_say, Print.text, of_ascii _ (by decide)]
        rw [show (Desk.mk m.files short' out).text = m.text ++ (ascii "  " ++ content) from htext]
        simp only [List.append_assoc]
    · refine ⟨0, rfl, rfl, rfl, ?_, Nat.zero_le _⟩
      rw [Desk.text_say, Print.text, of_ascii _ (by decide)]
      rfl

theorem cmdRm_does (hm : m.files.AtPrompt) (hnul : 0#8 ∉ args) :
    (cmdRm args).wp Desk.interface (fun _ => m.Done .rm args) m := by
  unfold cmdRm
  refine takeWord_rec args (fun rc name p hrc hno => ?_) fun hn => ?_
  all_goals dsimp only
  · rw [if_pos hrc]
    exact wp_putsColor (done_usage hm (.inl hno))
  have hname := of_bytes (nul_not_mem_word hnul)
  rw [if_neg (by decide)]
  refine Program.wp_do.mpr (wp_file hm.closed fun a files short hs _ => ?_)
  have fails {rc : Int} (hrc : rc < 0) (hwhy : ∀ q x i, m.files.split (word args) = some (q, x) →
      m.files.tree.find q x = some i → i = 0 ∨ m.files.Occupied i) :
      (if rc < 0 then putsColor (ascii "  rm: unable to remove file/directory\n") lightRed
        else do
          puts (ascii "  removed: ")
          puts (word args)
          puts (ascii "\n")).wp Desk.interface (fun _ => m.Done .rm args) ⟨m.files, short, m.out⟩ := by
    rw [if_pos hrc]
    exact wp_putsColor (done_fails hm short (by decide) (.removeFails hn hwhy))
  cases hs with
  | unlinkNowhere hs =>
    rw [hname] at hs
    exact fails (by decide) fun q x i e => by rw [hs] at e; cases e
  | unlinkMissing hs hf =>
    rw [hname] at hs
    refine fails (by decide) fun q x i e hi => ?_
    rw [hs] at e
    cases e
    rw [hf] at hi
    cases hi
  | unlinkRoot hs hf =>
    rw [hname] at hs
    refine fails (by decide) fun q x i e hi => ?_
    rw [hs] at e
    cases e
    rw [hf] at hi
    cases hi
    exact .inl rfl
  | unlinkOccupied hs hf _ hocc =>
    rw [hname] at hs
    refine fails (by decide) fun q x i e hi => ?_
    rw [hs] at e
    cases e
    rw [hf] at hi
    cases hi
    exact .inr hocc
  | unlinks hs hf h0 hocc =>
    rw [hname] at hs
    rw [if_neg (by decide)]
    refine Program.wp_do.mpr (wp_puts (Program.wp_do.mpr (wp_puts (wp_puts ?_))))
    refine ⟨⟨hm.closed, fun j content hj => hm.texts j content (FileTree.unlink_file hj)⟩, _, ?_,
      .removes hn hs hf h0 hocc⟩
    simp only [Desk.text_say, Print.text, hname, of_ascii "  removed: " (by decide),
      of_ascii "\n" (by decide), List.append_assoc]
    rfl

theorem cmdMkdir_does (hm : m.files.AtPrompt) (hnul : 0#8 ∉ args) :
    (cmdMkdir args).wp Desk.interface (fun _ => m.Done .mkdir args) m := by
  unfold cmdMkdir
  refine takeWord_rec args (fun rc name p hrc hno => ?_) fun hn => ?_
  all_goals dsimp only
  · rw [if_pos hrc]
    exact wp_putsColor (done_usage hm (.inl hno))
  have hname := of_bytes (nul_not_mem_word hnul)
  rw [if_neg (by decide)]
  refine Program.wp_do.mpr (wp_file trivial fun a files short hs _ => ?_)
  cases hs with
  | mkdirNowhere hs =>
    rw [hname] at hs
    rw [if_pos (by decide)]
    exact wp_putsColor (done_fails hm short (by decide) (.makeFails hn (.nowhere hs)))
  | mkdirFailed hs made =>
    rw [hname] at hs
    obtain ⟨rfl, hrc⟩ := made.error
    rw [if_pos hrc]
    exact wp_putsColor (done_fails hm short (by decide) (.makeFails hn (.failed hs made)))
  | mkdirs hs made =>
    rw [hname] at hs
    rw [if_neg (by decide)]
    refine Program.wp_do.mpr (wp_puts (Program.wp_do.mpr (wp_puts (wp_puts ?_))))
    refine ⟨made.atPrompt hm (fun content e => by cases e), _, ?_, .makes hn hs made⟩
    simp only [Desk.text_say, Print.text, hname, of_ascii "  directory created: " (by decide),
      of_ascii "\n" (by decide), List.append_assoc]
    rfl

theorem cmdCd_does (hm : m.files.AtPrompt) (hnul : 0#8 ∉ args) :
    (cmdCd args).wp Desk.interface (fun _ => m.Done .cd args) m := by
  unfold cmdCd
  refine takeWord_rec args (fun rc name p hrc hno => ?_) fun hn => ?_
  all_goals dsimp only
  · rw [if_pos hrc]
    exact wp_putsColor (done_usage hm (.inl hno))
  have hname := of_bytes (nul_not_mem_word hnul)
  rw [if_neg (by decide)]
  refine Program.wp_do.mpr (wp_file trivial fun a files short hs _ => ?_)
  cases hs with
  | chdirNowhere hr =>
    rw [hname] at hr
    rw [if_pos (by decide)]
    refine wp_putsColor (done_fails hm short (by decide) (.changeFails hn fun i hi => ?_))
    rw [hr] at hi
    cases hi
  | chdirFile hr hd =>
    rw [hname] at hr
    rw [if_pos (by decide)]
    refine wp_putsColor (done_fails hm short (by decide) (.changeFails hn fun i hi => ?_))
    rw [hr] at hi
    cases hi
    exact hd
  | chdirs hr hd =>
    rw [hname] at hr
    rw [if_neg (by decide)]
    exact ⟨⟨hm.closed, hm.texts⟩, [], (List.append_nil _).symm, .changes hn hr hd⟩

end Shell

end SengOS
