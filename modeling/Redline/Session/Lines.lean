import Redline.Text.Backspace

/-! # Lines from a pipe

The bytes that arrive are cut at line feeds.  A line feed and a carriage return right before it
are not part of the line; what stands behind the last line feed is a line too, once nothing more
arrives, and keeps its carriage return.  Bytes that are not UTF-8 make a line unreadable, and the
backspaces in a readable line have already done their work when it is read, unless one of them
stops halfway in a character. -/

namespace Redline.Session

/-- Why there is no line to be had from some bytes. -/
inductive LineFault where
  /-- They are not UTF-8. -/
  | unreadable
  /-- A backspace cuts a character in two. -/
  | brokenCharacter
deriving DecidableEq, Repr

/-- What reading a line comes to. -/
abbrev Line := Except LineFault String

/-- The bytes of one line. -/
abbrev Bytes := List UInt8

/-- The complete lines, cut at line feeds, and the bytes behind the last of them. -/
def cut : Bytes → List Bytes × Bytes
  | [] => ([], [])
  | b :: bs =>
      let (lines, rest) := cut bs
      if b = 10 then ([] :: lines, rest)
      else
        match lines with
        | [] => ([], b :: rest)
        | l :: ls => ((b :: l) :: ls, rest)

def dropReturn (line : Bytes) : Bytes := if line.getLast? = some 13 then line.dropLast else line

def readLine (line : Bytes) : Line :=
  match String.fromUTF8? ⟨line.toArray⟩ with
  | none => .error .unreadable
  | some s =>
      match Text.applyBackspaces s.toList with
      | none => .error .brokenCharacter
      | some cs => .ok (.ofList cs)

/-- The complete lines that the bytes hold, and the bytes behind them. -/
def takeLines (bytes : Bytes) : List Line × Bytes :=
  ((cut bytes).1.map fun line => readLine (dropReturn line), (cut bytes).2)

/-- The last line, if anything is left for it. -/
def lastLine (rest : Bytes) : List Line := if rest.isEmpty then [] else [readLine rest]

/-- All lines of the bytes. -/
def linesOf (bytes : Bytes) : List Line :=
  (takeLines bytes).1 ++ lastLine (takeLines bytes).2

end Redline.Session
