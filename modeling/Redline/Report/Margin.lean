import Redline.Report.Label
import Redline.Report.Obstacle

/-! # The margin

Left of the source stand the line numbers and, between them and the text, one column for each
label that spans lines, the longest label first, with one more column for the arrow heads.  Such a
label enters its column where it starts, runs down and leaves the column where it ends; on each
line at most one label has its arrow in the margin itself (`Line.marginMark`), and the others turn
into the text with the messages of the line. -/

namespace Redline.Report

/-- The end of a label that is drawn on a line, at column `col` of the text. -/
structure Mark where
  col : Nat
  label : Label
  isMultiline : Bool
  /-- Whether the message is shown here. -/
  isTold : Bool

/-- What a row shows. -/
inductive Row where
  /-- The text of a line. -/
  | text
  /-- That lines are left out. -/
  | elided
  /-- The row above the message of the `n`th mark. -/
  | above (n : Nat)
  /-- The message of the `n`th mark. -/
  | message (n : Nat)
deriving DecidableEq

namespace Row

/-- Whether the row stands for lines of the source. -/
def isLine : Row → Bool
  | text => true
  | elided => true
  | _ => false

end Row

/-- The length of a label as the margin compares it, which is as a signed word: from `2 ^ 63` on it
is negative. -/
def signedLength (l : Label) : Int := Int.bmod l.span.length wordBound

/-- Labels that span lines, as the margin has them: the longest first.  Of several, none may have
the length `2 ^ 63`. -/
def inMargin (s : Source) (labels : List Label) : Except Obstacle (List Label) :=
  let multiline := labels.filter (·.isMultiline s)
  if 1 < multiline.length && multiline.any (·.span.length = wordBound / 2) then
    .error .unsignedLength
  else .ok (multiline.mergeSort fun l m => signedLength m ≤ signedLength l)

namespace Line

/-- The start of the label on the line or, failing that, its end. -/
def endOf (line : Line) (l : Label) : Option Mark :=
  if line.holds l.span.start then some ⟨l.span.start - line.offset, l, true, false⟩
  else if line.holds l.span.last then some ⟨l.span.last - line.offset, l, true, true⟩
  else none

/-- Whether `m` stands before `n`: further left or, in the same column, with the later start. -/
def standsBefore (m n : Mark) : Bool :=
  m.col < n.col || (m.col == n.col && n.label.span.start < m.label.span.start)

/-- The mark that has its arrow in the margin. -/
def marginMark (line : Line) (multiline : List Label) : Option Mark :=
  (multiline.filterMap line.endOf).foldl
    (fun best m => match best with
      | none => some m
      | some b => if standsBefore m b then some m else some b) none

end Line

/-! ### What meets in one column of the margin -/

structure Joint where
  /-- The label that turns here, and whether it starts. -/
  corner : Option (Label × Bool)
  across : Option Label
  down : Option Label
  /-- The label whose arrow crosses the margin, and whether it starts. -/
  arrow : Option (Label × Bool)

namespace Joint

def empty : Joint := ⟨none, none, none, none⟩

/-- The label runs down the column, if the column is its own and still free. -/
def runDown (j : Joint) (l : Label) (own : Bool) : Joint :=
  { j with down := j.down.or (if own then some l else none) }

/-- Adds a label whose own column this is, or one further left. -/
def add (line : Line) (row : Row) (marks : List Mark) (margin : Option Mark) (j : Joint)
    (l : Label) (own : Bool) : Joint :=
  if l.span.start ≤ line.stop && line.offset < l.span.stop then
    let starts := line.holds l.span.start
    let stops := line.holds l.span.last
    let isMargin := margin.any (·.label = l)
    let turn (n : Nat) (isMessage : Bool) : Joint :=
      if !starts && !stops then j.runDown l own
      else
        let turnsAt := (marks.findIdx? (·.label = l)).getD 0
        if n = turnsAt then
          let j := if isMargin then { j with down := if own then some l else none } else j
          if isMargin && starts then j
          else if isMessage then
            { j with across := some l, corner := if own then some (l, starts) else j.corner }
          else if starts then j
          else j.runDown l own
        else if starts != decide (n < turnsAt) then j.runDown l own
        else j
    match row with
    | .text | .elided =>
        if isMargin then { j with arrow := some (l, starts) }
        else if starts then j
        else j.runDown l own
    | .above n => turn n false
    | .message n => turn n true
  else j

/-- The two cells of column `col`. -/
def cells (j : Joint) (row : Row) (multiline : List Label) (margin : Option Mark) (col : Nat) :
    List Cell :=
  let isOwn (l : Label) : Bool := multiline[col]? == some l
  let across :=
    match j.arrow with
    | some (l, _) =>
        if row.isLine && !isOwn l && col + 1 != multiline.length then j.across.or (some l)
        else j.across
    | none => j.across
  let across := across.filter fun l => !(row.isLine && margin.any (·.label = l))
  match j.corner, across, j.down, j.arrow with
  | some (l, starts), _, _, _ => [.of l.color (if starts then '╭' else '╰'), .of l.color '─']
  | none, some l, _, _ => [.of l.color '─', .of l.color '─']
  | none, none, some l, _ => [.of l.color (if row = .elided then '⋮' else '│'), .blank]
  | none, none, none, some (l, starts) =>
      if !row.isLine then [.blank, .blank]
      else if col = multiline.length then [.of l.color '▶', .of l.color ' ']
      else if isOwn l then [.of l.color (if starts then '╭' else '├'), .of l.color '─']
      else [.of l.color '─', .of l.color '─']
  | none, none, none, none => [.blank, .blank]

end Joint

/-- The cells between the line number and the text. -/
def marginCells (line : Line) (row : Row) (multiline : List Label) (marks : List Mark)
    (margin : Option Mark) : List Cell :=
  if multiline.isEmpty then []
  else
    (List.range (multiline.length + 1)).flatMap fun col =>
      let joint := (multiline.take (col + 1)).zipIdx.foldl
        (fun j (l, i) => Joint.add line row marks margin j l (i = col)) Joint.empty
      joint.cells row multiline margin col

end Redline.Report
