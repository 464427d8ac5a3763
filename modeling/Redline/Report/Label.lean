import Redline.Problem
import Redline.Report.Ink
import Redline.Report.Source

/-! # Labels

A label is a message about a stretch of the source, in a color of its own.  Most labels lie within
one line; a label that spans lines is drawn in the margin. -/

namespace Redline.Report

structure Label where
  span : Span
  color : Color
  /-- The message, colored already. -/
  message : String
deriving DecidableEq

namespace Label

/-- Whether the first and the last position are on different lines. -/
def isMultiline (s : Source) (l : Label) : Bool := s.lineAt l.span.start != s.lineAt l.span.last

/-- The label with the shortest span, the first of several. -/
def shortest : List Label → Option Label
  | [] => none
  | l :: ls =>
      match shortest ls with
      | none => some l
      | some m => if m.span.length < l.span.length then some m else some l

end Label

/-- What a report says about a problem, and where: an unclosed delimiter is shown as well. -/
def labels (p : Problem String) : List Label :=
  let found := Color.red.paint (Problem.itemText p.found)
  match p.reason with
  | .unexpected => [⟨p.span, .red, "found " ++ found⟩]
  | .unclosed opened delimiter =>
      [⟨opened, .yellow, Color.yellow.paint delimiter ++ " opened here"⟩,
        ⟨p.span, .red, "close it before " ++ found⟩]
  | .custom message => [⟨p.span, .red, Color.red.paint message⟩]

end Redline.Report
