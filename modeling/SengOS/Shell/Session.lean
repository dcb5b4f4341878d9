import SengOS.Shell.Specs

/-!
# Sessions

The lines that are typed at the prompt, with reboots in between. Whatever is typed for the
files, the file system stays in order, and the shell does with the file tree what the lines
say.
-/

namespace SengOS

open Shell

/-- What `kb_readline` gives to `shell_run`, if it does not name one of the other commands. -/
structure Line where
  text : CStr
  length : text.bytes.length ≤ 255
  ours : commandName (kLtrim text.bytes) ∉ otherCommands

namespace Line

variable (l : Line)

def cmd : List Byte := kLtrim l.text.bytes

def args : List Byte := kLtrim (l.cmd.drop (commandName l.cmd).length)

theorem args_sublist : l.args.Sublist l.text.bytes :=
  (List.dropWhile_sublist _).trans ((List.drop_sublist _ _).trans (List.dropWhile_sublist _))

theorem args_no_nul : 0#8 ∉ l.args := fun h => l.text.no_nul (l.args_sublist.subset h)

theorem args_length : l.args.length ≤ 255 := Nat.le_trans l.args_sublist.length_le l.length

theorem commandName_no_nul : 0#8 ∉ commandName l.cmd := fun h =>
  l.text.no_nul ((List.dropWhile_sublist _).subset
    ((List.take_sublist _ _).subset ((List.takeWhile_sublist _).subset h)))

end Line

/-- What a line does and prints. -/
inductive Files.Obeys (before after : Shortage) (m : Files) (l : Line) : List Byte → Files → Prop
  | blank : l.cmd = [] → Obeys before after m l [] m
  | unknown : l.cmd ≠ [] → (∀ c : Command, commandName l.cmd ≠ c.name) →
      Obeys before after m l (ascii "  Unknown command: " ++ commandName l.cmd ++
        ascii "\n  Type 'help' for a list of commands.\n") m
  | does {c : Command} {text : List Byte} {m' : Files} : commandName l.cmd = c.name →
      m.Does before after c l.args text m' → Obeys before after m l text m'

inductive ShellEvent where
  | line (l : Line)
  | reboot

/-- One event with what it printed, and what the disk was short of before and after it. -/
structure ShellRecord where
  event : ShellEvent
  text : List Byte
  before : Shortage
  after : Shortage

inductive Files.Session : Files → List ShellRecord → Files → Prop
  | nil (m : Files) : Session m [] m
  | line {m m' m'' : Files} {l : Line} {text : List Byte} {before after : Shortage}
      {rs : List ShellRecord} : m.Obeys before after l text m' → Session m' rs m'' →
      Session m (⟨.line l, text, before, after⟩ :: rs) m''
  | reboot {m m'' : Files} {before after : Shortage} {rs : List ShellRecord} :
      Session m.rebooted rs m'' → Session m (⟨.reboot, [], before, after⟩ :: rs) m''

namespace Shell

theorem dispatch_some {name : List Byte} {c : Command} (h : dispatch name = some c) : name = c.name := by
  simpa using List.find?_some h

theorem dispatch_none {name : List Byte} (h : dispatch name = none) (c : Command) : name ≠ c.name := by
  have := List.find?_eq_none.mp h c (by cases c <;> decide)
  simpa using this

theorem handler_does {m : Desk} {turns : Nat} (hturns : 3 < turns) (hm : m.files.AtPrompt)
    {args : List Byte} (hnul : 0#8 ∉ args) (hlen : args.length ≤ 255) (c : Command) :
    (c.handler turns args).wp Desk.interface (fun r d => r = some () ∧ m.Done c args d) m := by
  cases c with
  | touch => exact Program.wp_map.mpr (Program.wp_mono (fun _ _ h => ⟨rfl, h⟩) (cmdTouch_does hm hnul))
  | write =>
    exact Program.wp_map.mpr (Program.wp_mono (fun _ _ h => ⟨rfl, h⟩) (cmdWrite_does hm hnul hlen))
  | cat => exact cmdCat_does hturns hm hnul
  | rm => exact Program.wp_map.mpr (Program.wp_mono (fun _ _ h => ⟨rfl, h⟩) (cmdRm_does hm hnul))
  | mkdir => exact Program.wp_map.mpr (Program.wp_mono (fun _ _ h => ⟨rfl, h⟩) (cmdMkdir_does hm hnul))
  | cd => exact Program.wp_map.mpr (Program.wp_mono (fun _ _ h => ⟨rfl, h⟩) (cmdCd_does hm hnul))

/-- `shell_run` is back at the prompt after each line, and has done what the line says. -/
theorem runLine_obeys {m : Desk} {turns : Nat} (hturns : 3 < turns) (hm : m.files.AtPrompt) (l : Line) :
    (runLine turns l.text.bytes).wp Desk.interface (fun r d => r = some () ∧ d.files.AtPrompt ∧
      ∃ text, d.text = m.text ++ text ∧ m.files.Obeys m.short d.short l text d.files) m := by
  unfold runLine
  dsimp only
  by_cases hblank : kLtrim l.text.bytes = []
  · rw [if_pos hblank]
    exact ⟨rfl, hm, [], (List.append_nil _).symm, .blank hblank⟩
  rw [if_neg hblank]
  cases hc : dispatch (commandName (kLtrim l.text.bytes)) with
  | some c =>
    refine Program.wp_mono (fun r d h => ?_) (handler_does hturns hm l.args_no_nul l.args_length c)
    obtain ⟨hr, hprompt, text, htext, does⟩ := h
    exact ⟨hr, hprompt, text, htext, .does (dispatch_some hc) does⟩
  | none =>
    refine Program.wp_do.mpr (wp_putsColor (Program.wp_do.mpr (wp_puts (Program.wp_do.mpr (wp_puts ?_)))))
    refine ⟨rfl, hm, _, ?_, .unknown hblank (dispatch_none hc)⟩
    have hname := of_bytes l.commandName_no_nul
    simp only [Desk.text_say, Print.text, of_ascii "  Unknown command: " (by decide),
      of_ascii "\n  Type 'help' for a list of commands.\n" (by decide), List.append_assoc]
    rw [show kLtrim l.text.bytes = l.cmd from rfl, hname]

end Shell

namespace ShellState

/-- After `fs_init` on a blank disk. -/
def boot : ShellState := ⟨fsInit FsState.boot, []⟩

def runs (turns : Nat) (s : ShellState) (l : Line) : Option Unit × ShellState :=
  (runLine turns l.text.bytes).run exec s

def next (turns : Nat) (s : ShellState) : ShellEvent → ShellState
  | .line l => (s.runs turns l).2
  | .reboot => { s with fs := s.fs.reboot }

def after (turns : Nat) (s : ShellState) (es : List ShellEvent) : ShellState := es.foldl (next turns) s

def record (turns : Nat) (s : ShellState) (e : ShellEvent) : ShellRecord where
  event := e
  text := (s.next turns e).desk.text.drop s.desk.text.length
  before := s.fs.shortage
  after := (s.next turns e).fs.shortage

def records (turns : Nat) : ShellState → List ShellEvent → List ShellRecord
  | _, [] => []
  | s, e :: es => s.record turns e :: records turns (s.next turns e) es

/-- The turns are enough for every line. -/
def Ends (turns : Nat) : ShellState → List ShellEvent → Prop
  | _, [] => True
  | s, e :: es => (∀ l, e = .line l → (s.runs turns l).1 = some ()) ∧ Ends turns (s.next turns e) es

/-- The file system is in order, and no file is open. -/
structure Ready (s : ShellState) : Prop where
  sound : s.fs.Sound
  prompt : s.fs.files.AtPrompt

theorem boot_ready : boot.Ready where
  sound := FsState.fsInit_sound
  prompt := by
    rw [show boot.fs.files = _ from FsState.fsInit_files]
    refine ⟨fun _ => rfl, fun i content h => ?_⟩
    by_cases hi : i = 0
    · rw [show Files.empty.tree i = _ from if_pos hi] at h
      cases h
    · rw [show Files.empty.tree i = _ from if_neg hi] at h
      cases h

variable {turns : Nat} {s : ShellState}

theorem Ready.line (h : s.Ready) (hturns : 3 < turns) (l : Line) : (s.runs turns l).1 = some () ∧
    (s.runs turns l).2.Ready ∧ s.fs.files.Obeys s.fs.shortage (s.runs turns l).2.fs.shortage l
      ((s.runs turns l).2.desk.text.drop s.desk.text.length) (s.runs turns l).2.fs.files := by
  obtain ⟨sound, ends, prompt, text, htext, obeys⟩ :=
    implements.run h.sound (runLine_obeys hturns h.prompt l)
  refine ⟨ends, ⟨sound, prompt⟩, ?_⟩
  rw [show (s.runs turns l).2.desk.text = s.desk.text ++ text from htext, List.drop_left]
  exact obeys

theorem Ready.reboot (h : s.Ready) : (s.next turns .reboot).Ready where
  sound := h.sound.reboot
  prompt := by
    rw [show (s.next turns .reboot).fs.files = _ from FsState.reboot_files h.sound.toInv]
    exact ⟨fun _ => rfl, h.prompt.texts⟩

theorem next_line (turns : Nat) (s : ShellState) (l : Line) :
    s.next turns (.line l) = (s.runs turns l).2 := rfl

theorem reboot_out (turns : Nat) (s : ShellState) : (s.next turns .reboot).out = s.out := rfl

theorem desk_text (s : ShellState) : s.desk.text = s.out.flatMap Print.text := rfl

theorem after_cons (turns : Nat) (s : ShellState) (e : ShellEvent) (es : List ShellEvent) :
    s.after turns (e :: es) = (s.next turns e).after turns es := rfl

theorem Ready.session (h : s.Ready) (hturns : 3 < turns) (es : List ShellEvent) : s.Ends turns es ∧
    (s.after turns es).Ready ∧ s.fs.files.Session (s.records turns es) (s.after turns es).fs.files := by
  induction es generalizing s with
  | nil => exact ⟨trivial, h, .nil _⟩
  | cons e es ih =>
    cases e with
    | line l =>
      obtain ⟨ends, ready, obeys⟩ := h.line hturns l
      have first : ∀ l', ShellEvent.line l = .line l' → (s.runs turns l').1 = some () := by
        intro l' e
        cases e
        exact ends
      rw [Ends, after_cons, records, record]
      simp only [next_line]
      obtain ⟨restEnds, last, rest⟩ := ih ready
      exact ⟨⟨first, restEnds⟩, last, .line obeys rest⟩
    | reboot =>
      have first : ∀ l, ShellEvent.reboot = .line l → (s.runs turns l).1 = some () := by
        intro l e
        cases e
      obtain ⟨restEnds, last, rest⟩ := ih h.reboot
      have files : (s.next turns .reboot).fs.files = s.fs.files.rebooted :=
        FsState.reboot_files h.sound.toInv
      have text : (s.next turns .reboot).desk.text = s.desk.text := by
        rw [desk_text, desk_text, reboot_out]
      rw [Ends, after_cons, records, record, text, List.drop_length]
      rw [files] at rest
      exact ⟨⟨first, restEnds⟩, last, .reboot rest⟩

/-- Whatever is typed for the files, with reboots anywhere in between: every line ends, no file
stays open, and the session is one of the file tree. -/
theorem session_refines (hturns : 3 < turns) (es : List ShellEvent) : boot.Ends turns es ∧
    (boot.after turns es).Ready ∧
    Files.empty.Session (boot.records turns es) (boot.after turns es).fs.files := by
  have session := boot_ready.session hturns es
  rw [show boot.fs.files = _ from FsState.fsInit_files] at session
  exact session

def typed (s : String) (text : 0#8 ∉ ascii s) (length : (ascii s).length ≤ 255)
    (ours : commandName (kLtrim (ascii s)) ∉ otherCommands) : Line := ⟨⟨ascii s, text⟩, length, ours⟩

def writeLine : Line := typed "write d hello" (by decide) (by decide) (by decide)

def catLine : Line := typed "  cat /d" (by decide) (by decide) (by decide)

def writeAndCat : List ShellEvent := [.line writeLine, .reboot, .line catLine]

theorem writeAndCat_session :
    (boot.Ends 4 writeAndCat ∧ (boot.after 4 writeAndCat).Ready ∧
      Files.empty.Session (boot.records 4 writeAndCat) (boot.after 4 writeAndCat).fs.files) ∧
    ((boot.after 4 (writeAndCat.take 2)).record 4 (.line catLine)).text = ascii "  hello\n" :=
  ⟨session_refines (by decide) writeAndCat, by decide +kernel⟩

end ShellState

end SengOS
