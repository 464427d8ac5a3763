import Redline.Span
import Redline.Text.Blank

/-! # Sources

A report locates code points in the lines of a source.  The lines are the pieces between line
feeds, except that nothing follows a line feed at the very end.  Each line counts one position more
than it has characters, for the line feed behind it, so the last line has a position behind the
source as well, which is where the end of the input is shown. -/

namespace Redline.Report

structure Line where
  /-- The number of positions before the line. -/
  offset : Nat
  /-- The number of its positions. -/
  length : Nat
  /-- What is drawn of it. -/
  text : List Char

abbrev Source := List Line

namespace Line

def stop (l : Line) : Nat := l.offset + l.length

def holds (l : Line) (p : Nat) : Bool := l.offset ≤ p && p < l.stop

end Line

/-- The pieces between line feeds, without an empty piece at the end. -/
def pieces : List Char → List (List Char)
  | [] => []
  | c :: cs =>
      if c = '\n' then [] :: pieces cs
      else
        match pieces cs with
        | [] => [[c]]
        | p :: ps => (c :: p) :: ps

namespace Source

/-- The lines that consist of these pieces, the first at `offset`. -/
def ofPieces (offset : Nat) : List (List Char) → Source
  | [] => []
  | p :: ps =>
      ⟨offset, p.length + 1, Text.trimRight p⟩ :: ofPieces (offset + (p.length + 1)) ps

def ofString (s : String) : Source := ofPieces 0 (pieces s.toList)

/-- The number of positions in all lines. -/
def total (s : Source) : Nat := (s.getLast?.map (·.stop)).getD 0

/-- The number of the line with position `p`, from 0.  A position beyond `total` is on no line, and
`total` itself is on the last one. -/
def lineAt (s : Source) (p : Nat) : Option Nat :=
  if p ≤ s.total then
    match (s.takeWhile (·.offset ≤ p)).length with
    | 0 => none
    | n + 1 => some n
  else none

/-- The numbers of the first line that a stretch touches and of the line behind the last one. -/
def linesOf (s : Source) (span : Span) : Nat × Nat :=
  ((s.lineAt span.start).getD 0, ((s.lineAt span.last).map (· + 1)).getD s.length)

end Source

end Redline.Report
