/-! # Obstacles

What can stop a drawing before its end.  Positions and columns are 64-bit words: a label that lies
far out, or that ends before it starts, may have a place that is no such word. -/

namespace Redline.Report

/-- The least number that is no 64-bit word. -/
def wordBound : Nat := 18446744073709551616

inductive Obstacle where
  /-- A label is at the start of a source without lines. -/
  | noLine
  /-- The ends of a label add up to more than a word. -/
  | farEnds
  /-- The middle of a label is before its line. -/
  | middleBeforeLine
  /-- One of several labels in the margin has the length whose negative is no signed word. -/
  | unsignedLength
deriving DecidableEq, Repr

/-- What the program says when it stops there. -/
def Obstacle.message : Obstacle → String
  | noLine => "index out of bounds: the len is 0 but the index is 0"
  | farEnds => "attempt to add with overflow"
  | middleBeforeLine => "attempt to subtract with overflow"
  | unsignedLength => "attempt to negate with overflow"

end Redline.Report
