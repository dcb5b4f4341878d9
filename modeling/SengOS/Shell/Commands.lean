import SengOS.Lib.Program
import SengOS.Fs.Ops
import SengOS.Shell.Numbers
import SengOS.Vga.Printf

/-!
# Commands for files

`shell_run` takes the first word of a line for the name of a command. The commands for files
are programs that call `fs.c` and print; what they print is a list of calls of `vga.c`.
-/

namespace SengOS

def ascii (s : String) : List Byte := s.toList.map fun c => BitVec.ofNat 8 c.toNat

/-- The string in a buffer: what stands before its first NUL. -/
def CStr.of (s : List Byte) : CStr where
  bytes := s.takeWhile (· ≠ 0#8)
  no_nul h := by
    have := List.all_eq_true.mp List.all_takeWhile _ h
    simp at this

/-- `fs_stat`. -/
def FsState.fsStat (s : FsState) (path : CStr) : Int × Option Inode :=
  match s.resolve path.bytes with
  | none => (-1, none)
  | some ino => (0, some (inodeRead s.dev.disk ino))

/-- A call of `vga_puts`, `vga_puts_color` or `vga_printf`. -/
inductive Print where
  | puts (str : CStr)
  | putsColor (str : CStr) (fg bg : Word)
  | printf (fmt : CStr) (args : List Arg)

inductive ShellCall where
  | file (op : FsOp)
  | stat (path : CStr)
  | print (p : Print)

/-- What a call returns; a file call also what it stores in the caller's buffer. -/
abbrev ShellCall.Reply : ShellCall → Type
  | .file _ => Int × List Byte
  | .stat _ => Int
  | .print _ => Unit

abbrev Shell := Program ShellCall ShellCall.Reply

namespace Shell

open Program (invoke)

def file (op : FsOp) : Shell (Int × List Byte) := invoke (ShellCall.file op)

def stat (path : CStr) : Shell Int := invoke (ShellCall.stat path)

def puts (s : List Byte) : Shell Unit := invoke (ShellCall.print (.puts (CStr.of s)))

/-- `vga_puts_color` on black. -/
def putsColor (s : List Byte) (fg : Word) : Shell Unit :=
  invoke (ShellCall.print (.putsColor (CStr.of s) fg 0#32))

def printf (fmt : List Byte) (args : List Arg) : Shell Unit :=
  invoke (ShellCall.print (.printf (CStr.of fmt) args))

def lightRed : Word := 12#32

def yellow : Word := 14#32

/-! ## Words -/

def skipSpaces (p : List Byte) : List Byte := p.dropWhile (· == 0x20#8)

/-- The loop of `take_word`: the word and what is behind it, unless it needs `cap` bytes. -/
def wordLoop (cap : Nat) : List Byte → Nat → Option (List Byte × List Byte)
  | [], _ => some ([], [])
  | c :: s, n =>
    if c = 0x20#8 then some ([], c :: s)
    else if cap ≤ n + 1 then none
    else (wordLoop cap s (n + 1)).map fun r => (c :: r.1, r.2)

/-- `take_word`: its value, the word, and where `*p` is then. -/
def takeWord (p : List Byte) (cap : Nat) : Int × List Byte × List Byte :=
  let s := skipSpaces p
  if s = [] then (0, [], s)
  else
    match wordLoop cap s 0 with
    | none => (-1, [], p)
    | some (word, rest) => (1, word, rest)

/-! ## Commands -/

def cmdTouch (args : List Byte) : Shell Unit :=
  match takeWord args 256 with
  | (rc, name, _) =>
    if rc ≤ 0 then putsColor (ascii "  Usage: touch <file>\n") lightRed
    else do
      let existing ← stat (CStr.of name)
      if existing = 0 then putsColor (ascii "  touch: file already exists\n") yellow
      else do
        let fd ← file (.open (some (CStr.of name)) (2#32 ||| oCreate))
        if fd.1 < 0 then putsColor (ascii "  touch: unable to create file\n") lightRed
        else do
          let _ ← file (.close fd.1)
          puts (ascii "  created: ")
          puts name
          puts (ascii "\n")

def cmdWrite (args : List Byte) : Shell Unit :=
  match takeWord args 256 with
  | (rc, name, p) =>
    if rc ≤ 0 then putsColor (ascii "  Usage: write <file> <text>\n") lightRed
    else
      let text := skipSpaces p
      if text = [] then putsColor (ascii "  Usage: write <file> <text>\n") lightRed
      else do
        let fd ← file (.open (some (CStr.of name)) (2#32 ||| oCreate ||| oTrunc))
        if fd.1 < 0 then putsColor (ascii "  write: unable to open file\n") lightRed
        else do
          let n ← file (.write fd.1 (some fun i => text.getD i 0#8) (BitVec.ofNat 32 text.length))
          let _ ← file (.close fd.1)
          if n.1 < 0 then putsColor (ascii "  write: failed\n") lightRed
          else
            printf (ascii "  wrote %d bytes to %s\n")
              [.word (BitVec.ofInt 32 n.1), .str (some (CStr.of name))]

/-- One turn of the loop of `cmd_cat`. It is left with what `fs_read` returned last. -/
def catTurn (fd : Int) : Shell (Option Int) := do
  let r ← file (.read fd true 127#32)
  if r.1 ≤ 0 then return some r.1
  else do
    puts r.2
    return none

/-- `cmd_cat` with that many turns for its loop; `none` is a loop that goes on behind them. -/
def cmdCat (turns : Nat) (args : List Byte) : Shell (Option Unit) :=
  match takeWord args 256 with
  | (rc, name, _) =>
    if rc ≤ 0 then some <$> putsColor (ascii "  Usage: cat <file>\n") lightRed
    else do
      let fd ← file (.open (some (CStr.of name)) 0#32)
      if fd.1 < 0 then some <$> putsColor (ascii "  cat: file not found\n") lightRed
      else do
        puts (ascii "  ")
        let n ← (catTurn fd.1).loop turns
        match n with
        | none => return none
        | some n =>
          if n < 0 then do
            putsColor (ascii "\n  cat: read error\n") lightRed
            let _ ← file (.close fd.1)
            return some ()
          else do
            let _ ← file (.close fd.1)
            puts (ascii "\n")
            return some ()

def cmdRm (args : List Byte) : Shell Unit :=
  match takeWord args 256 with
  | (rc, name, _) =>
    if rc ≤ 0 then putsColor (ascii "  Usage: rm <file>\n") lightRed
    else do
      let r ← file (.unlink (some (CStr.of name)))
      if r.1 < 0 then putsColor (ascii "  rm: unable to remove file/directory\n") lightRed
      else do
        puts (ascii "  removed: ")
        puts name
        puts (ascii "\n")

def cmdMkdir (args : List Byte) : Shell Unit :=
  match takeWord args 256 with
  | (rc, name, _) =>
    if rc ≤ 0 then putsColor (ascii "  Usage: mkdir <directory>\n") lightRed
    else do
      let r ← file (.mkdir (some (CStr.of name)))
      if r.1 < 0 then putsColor (ascii "  mkdir: unable to create directory\n") lightRed
      else do
        puts (ascii "  directory created: ")
        puts name
        puts (ascii "\n")

def cmdCd (args : List Byte) : Shell Unit :=
  match takeWord args 256 with
  | (rc, name, _) =>
    if rc ≤ 0 then putsColor (ascii "  Usage: cd <directory>\n") lightRed
    else do
      let r ← file (.chdir (some (CStr.of name)))
      if r.1 < 0 then putsColor (ascii "  cd: directory not found\n") lightRed
      else return ()

/-! ## Lines -/

/-- The commands of this module. -/
inductive Command where
  | touch
  | write
  | cat
  | rm
  | mkdir
  | cd
  deriving DecidableEq

def Command.name : Command → List Byte
  | .touch => ascii "touch"
  | .write => ascii "write"
  | .cat => ascii "cat"
  | .rm => ascii "rm"
  | .mkdir => ascii "mkdir"
  | .cd => ascii "cd"

/-- The handlers in `commands`. -/
def Command.handler (turns : Nat) : Command → List Byte → Shell (Option Unit)
  | .touch, args => some <$> cmdTouch args
  | .write, args => some <$> cmdWrite args
  | .cat, args => cmdCat turns args
  | .rm, args => some <$> cmdRm args
  | .mkdir, args => some <$> cmdMkdir args
  | .cd, args => some <$> cmdCd args

/-- The names in `commands` behind which the other handlers are. -/
def otherCommands : List (List Byte) :=
  ["help", "clear", "echo", "version", "colour", "mem", "about", "ps", "fork", "kill", "thtest",
    "racetest", "pctest", "pitest", "rwtest", "deadtest", "meminfo", "pmmtest", "buddytest",
    "slabtest", "ls", "pwd", "fstest", "jtest", "vfstest", "halt"].map ascii

/-- `command_name` of `shell_run`. -/
def commandName (cmd : List Byte) : List Byte := (cmd.take 31).takeWhile (· ≠ 0x20#8)

def dispatch (name : List Byte) : Option Command :=
  [Command.touch, .cat, .write, .rm, .mkdir, .cd].find? fun c => name = c.name

/-- One turn of `shell_run` with a line that `kb_readline` has read, if it is not one for another
handler. -/
def runLine (turns : Nat) (line : List Byte) : Shell (Option Unit) :=
  let cmd := kLtrim line
  if cmd = [] then return some ()
  else
    let name := commandName cmd
    let args := kLtrim (cmd.drop name.length)
    match dispatch name with
    | some c => c.handler turns args
    | none => do
      putsColor (ascii "  Unknown command: ") lightRed
      puts name
      puts (ascii "\n  Type 'help' for a list of commands.\n")
      return some ()

end Shell

end SengOS
