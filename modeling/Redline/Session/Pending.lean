/-! # Continued lines

A line that ends in a backslash goes on in the next one: the backslash stands for the line break.
`Pending` is the text of the lines that still wait for their continuation.  A line is either held
back with all that waits (`push_continued`) or completes the input (`push_complete`). -/

namespace Redline

structure Pending where
  held : Option String
deriving DecidableEq, Repr

namespace Pending

def empty : Pending := ⟨none⟩

def isContinuing (p : Pending) : Bool := p.held.isSome

/-- The line without its final backslash, if it has one. -/
def continued (line : String) : Option String :=
  if line.toList.getLast? = some '\\' then some (String.ofList line.toList.dropLast) else none

/-- The input that the line completes, if it does, and what waits from then on. -/
def push (p : Pending) (line : String) : Option String × Pending :=
  match continued line with
  | some start => (none, ⟨some (p.held.getD "" ++ start ++ "\n")⟩)
  | none => (some (p.held.getD "" ++ line), empty)

theorem push_continued {line start : String} (h : continued line = some start) (p : Pending) :
    p.push line = (none, ⟨some (p.held.getD "" ++ start ++ "\n")⟩) := by
  rw [push, h]

theorem push_complete {line : String} (h : continued line = none) (p : Pending) :
    p.push line = (some (p.held.getD "" ++ line), empty) := by
  rw [push, h]

/-- What each of the lines gives in turn, with the state after it. -/
def pushAll (p : Pending) : List String → List (Option String × Pending)
  | [] => []
  | line :: lines => p.push line :: pushAll (p.push line).2 lines

end Pending

end Redline
