import SengOS.Fs.Layout

/-!
# The two path walkers

`resolve_path` and `split_parent` of `fs.c`, over an arbitrary directory
lookup `find`; the operations instantiate it with `dirFind` on the disk.
-/

namespace SengOS

def slash : Byte := 0x2F#8

/-- The three outcomes of `next_component`: 1, 0 and -2. -/
inductive Next where
  | part (name rest : List Byte)
  | done
  | tooLong
  deriving DecidableEq

def nextComponent (p : List Byte) : Next :=
  let s := p.dropWhile (· == slash)
  if s = [] then .done
  else if (s.takeWhile (· != slash)).length > 27 then .tooLong
  else .part (s.takeWhile (· != slash)) (s.dropWhile (· != slash))

section
variable (find : Nat → List Byte → Option Nat)

/-- The loop of `resolve_path`. Every turn consumes at least one byte, so
`path.length + 1` turns always reach the end. -/
def resolveLoop : Nat → Nat → List Byte → Option Nat
  | 0, _, _ => none
  | fuel + 1, cur, p =>
    match nextComponent p with
    | .tooLong => none
    | .done => some cur
    | .part name rest =>
      if name = dotName then resolveLoop fuel cur rest
      else
        match find cur name with
        | some child => resolveLoop fuel child rest
        | none => none

def resolvePath (path : List Byte) (start : Nat) : Option Nat :=
  if path = [] then none
  else resolveLoop find (path.length + 1) (if path.head? = some slash then 0 else start) path

/-- The loop of `split_parent` with its one-component look-ahead. A look-ahead
that fails because the next component is too long counts as the end. -/
def splitLoop : Nat → Nat → List Byte → Option (Nat × List Byte)
  | 0, _, _ => none
  | fuel + 1, cur, p =>
    match nextComponent p with
    | .tooLong => none
    | .done => none
    | .part name rest =>
      if name = dotName then splitLoop fuel cur rest
      else if name = dotdotName then
        match find cur dotdotName with
        | some child => splitLoop fuel child rest
        | none => none
      else
        match nextComponent rest with
        | .part _ _ =>
          match find cur name with
          | some child => splitLoop fuel child rest
          | none => none
        | _ => some (cur, name)

def splitParent (path : List Byte) (cwd : Nat) : Option (Nat × List Byte) :=
  if path = [] then none
  else if path.length > 255 then none
  else splitLoop find (path.length + 1) (if path.head? = some slash then 0 else cwd) path

end

end SengOS
