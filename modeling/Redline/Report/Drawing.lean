import Redline.Report.Margin

/-! # Drawings

A report is a headline and a drawing: a frame around the lines that the labels touch, with each
message below its line, joined to the place that it is about.  `draw` is the whole report.  It goes
from top to bottom, and where an obstacle stops it, what stands above has been drawn. -/

namespace Redline.Report

/-- Between two tab stops. -/
def tabWidth : Nat := 4

/-- The number of columns that the character at index `k` of a line takes. -/
def charWidth (k : Nat) (c : Char) : Nat := if c = '\t' then tabWidth - k % tabWidth else 1

/-- The columns of the `k`th character of the line, and one for each position behind it. -/
def columnWidth (line : Line) (k : Nat) : Nat := (line.text[k]?.map (charWidth k)).getD 1

/-- A cell that stands at the head of a column and the cell that fills up the rest of it. -/
def column (width : Nat) (head tail : Cell) : List Cell := head :: List.replicate (width - 1) tail

/-! ### The marks of a line -/

/-- The middle of a span as a column of the line. -/
def middleColumn (line : Line) (s : Span) : Except Obstacle Nat :=
  let ends := s.start + s.stop
  if wordBound ≤ ends then .error .farEnds
  else if ends / 2 < line.offset then .error .middleBeforeLine
  else .ok (ends / 2 - line.offset)

/-- The mark of a label that lies within the line. -/
def inlineMark (line : Line) (l : Label) : Except Obstacle Mark :=
  (middleColumn line l.span).map fun col => ⟨col, l, false, true⟩

/-- The marks of a line, from left to right. -/
def marksOf (source : Source) (labels multiline : List Label) (margin : Option Mark)
    (line : Line) : Except Obstacle (List Mark) :=
  let ends := (multiline.filterMap line.endOf).filter fun m =>
    m.isTold || !margin.any (·.label = m.label)
  let within := labels.filter fun l =>
    line.offset ≤ l.span.start && l.span.stop ≤ line.stop && !l.isMultiline source
  (within.mapM (inlineMark line)).map fun inner =>
    (ends ++ inner).mergeSort fun m n => !Line.standsBefore n m

/-! ### The cells of a row -/

/-- The text of a line, each character in the color of the shortest label about it. -/
def textCells (line : Line) (labels : List Label) : List Cell :=
  line.text.zipIdx.flatMap fun (c, k) =>
    let color := ((Label.shortest
      (labels.filter (·.span.covers (line.offset + k)))).map (·.color)).getD .gray
    if Text.isBlank c then List.replicate (charWidth k c) (.of color ' ') else [.of color c]

/-- The mark, no earlier than the `n`th, whose stem runs down column `k`. -/
def stemAt (marks : List Mark) (margin : Option Mark) (n k : Nat) : Option Mark :=
  (marks.drop n).find? fun m => m.col = k && !margin.any (·.label = m.label)

/-- The label that column `k` is underlined for. -/
def underlineAt (line : Line) (marks : List Mark) (k : Nat) : Option Label :=
  Label.shortest <| (marks.filter fun m =>
    !m.isMultiline && m.label.span.covers (line.offset + k)).map (·.label)

/-- The row above the message of the `n`th mark: the stems and, first of all, the underlines. -/
def aboveCells (line : Line) (marks : List Mark) (margin : Option Mark) (n columns : Nat) :
    List Cell :=
  (List.range columns).flatMap fun k =>
    let underline := if n = 0 then underlineAt line marks k else none
    let fill := column (columnWidth line k)
    match stemAt marks margin n k, underline with
    | some m, some _ => fill (.of m.label.color '┬') (.of m.label.color '─')
    | some m, none =>
        let head := if m.isMultiline && n = 0 then '🭯' else '│'
        fill (.of m.label.color head) (.of m.label.color ' ')
    | none, some l => fill (.of l.color '─') (.of l.color '─')
    | none, none => fill .blank .blank

/-- The row with the message of the `n`th mark `m`, up to the message. -/
def messageCells (line : Line) (marks : List Mark) (margin : Option Mark) (n : Nat) (m : Mark)
    (columns : Nat) : List Cell :=
  let color := m.label.color
  (List.range columns).flatMap fun k =>
    let fill := column (columnWidth line k)
    let across := (decide (m.col < k) != m.isMultiline) || (m.isTold && decide (m.col < k))
    if k = m.col && !margin.any (·.label = m.label) then
      fill (.of color (if !m.isMultiline then '╰' else if m.isTold then '┴' else '╯'))
        (.of color '─')
    else if across then fill (.of color '─') (.of color '─')
    else
      match stemAt marks margin n k with
      | some s => fill (.of s.label.color '│') (.of color ' ')
      | none => fill .blank .blank

/-! ### Rows -/

/-- A line's number, or the sign that the row belongs to the line above or stands for left-out
lines, right-aligned to `width` digits. -/
def gutter (width number : Nat) : Row → String
  | .text =>
      let digits := number.repr
      let padding := "".pushn ' ' (width - digits.length)
      " " ++ Color.margin.paint (padding ++ digits ++ " │") ++ " "
  | .elided => " " ++ Color.margin.paint ("".pushn ' ' (width + 1) ++ "⋮") ++ " "
  | _ => " " ++ Color.margin.paint ("".pushn ' ' (width + 1) ++ "·") ++ " "

/-- The rows of one line with its marks, and whether they leave it out. -/
def lineRows (multiline : List Label) (width number : Nat) (line : Line) (margin : Option Mark)
    (wasLeftOut : Bool) (marks : List Mark) : List String × Bool :=
  let start (row : Row) : String :=
    gutter width number row ++ renderCells (marginCells line row multiline marks margin)
  if marks.isEmpty && margin.isNone then
    if wasLeftOut then ([], true)
    else if multiline.any (·.span.covers line.offset) then ([start .elided], true)
    else ([gutter width number (.above 0)], true)
  else
    let columns := (marks.map fun m =>
      if m.isMultiline then line.length else m.label.span.stop - line.offset).foldl max 0 + 2
    let shown := (margin.map (·.label)).toList ++ multiline ++ marks.map (·.label)
    let textRow := start .text ++ renderCells (textCells line shown)
    let messageRows := marks.zipIdx.flatMap fun (m, n) =>
      [start (.above n) ++ renderCells (aboveCells line marks margin n columns),
        start (.message n) ++ renderCells (messageCells line marks margin n m columns) ++
          (if m.isTold then " " ++ m.label.message else "")]
    (textRow :: messageRows, false)

/-! ### Drawings that may stop -/

/-- The rows that are drawn and, if they are not all, what stopped the drawing. -/
structure Drawing where
  rows : List String
  obstacle : Option Obstacle
deriving DecidableEq

namespace Drawing

def finished (rows : List String) : Drawing := ⟨rows, none⟩

def stopped (o : Obstacle) : Drawing := ⟨[], some o⟩

/-- Goes on with `e` unless `d` has been stopped. -/
def append (d e : Drawing) : Drawing :=
  match d.obstacle with
  | none => ⟨d.rows ++ e.rows, e.obstacle⟩
  | some _ => d

instance : Append Drawing := ⟨append⟩

@[simp] theorem finished_append (rows : List String) (e : Drawing) :
    finished rows ++ e = ⟨rows ++ e.rows, e.obstacle⟩ := rfl

def text (d : Drawing) : String := String.join (d.rows.map (· ++ "\n"))

end Drawing

/-- Consecutive lines, the first with the given number. -/
def drawLines (source : Source) (labels multiline : List Label) (width : Nat) :
    Nat → List Line → Bool → Drawing
  | _, [], _ => .finished []
  | number, line :: rest, wasLeftOut =>
      let margin := line.marginMark multiline
      match marksOf source labels multiline margin line with
      | .error o => .stopped o
      | .ok marks =>
          let (rows, leftOut) := lineRows multiline width number line margin wasLeftOut marks
          .finished rows ++ drawLines source labels multiline width (number + 1) rest leftOut

/-! ### Reports -/

/-- From the least start to the greatest end. -/
def hull : List Label → Span
  | [] => ⟨0, 0⟩
  | [l] => l.span
  | l :: ls => ⟨min l.span.start (hull ls).start, max l.span.stop (hull ls).stop⟩

/-- Line and column of a position, counted from 1. -/
def placeText (source : Source) (p : Nat) : String :=
  match (source.lineAt p).bind fun n => source[n]?.map fun line => (n, line) with
  | some (n, line) => (n + 1).repr ++ ":" ++ (p - line.offset + 1).repr
  | none => "?:?"

/-- The frame and what it holds. -/
def drawFrame (source : Source) (p : Problem String) : Drawing :=
  let labels := labels p
  let (first, behind) := source.linesOf (hull labels)
  let width := behind.repr.length
  let indent := "".pushn ' ' (width + 2)
  let shown := (source.take behind).drop first
  let lines : Drawing :=
    match inMargin source labels with
    | .error o => .stopped o
    | .ok multiline => drawLines source labels multiline width (first + 1) shown false
  .finished [indent ++ Color.margin.paint "╭" ++ Color.margin.paint "─" ++
      Color.margin.paint "[" ++ "<unknown>:" ++ placeText source p.span.start ++
      Color.margin.paint "]",
    indent ++ Color.margin.paint "│"] ++
  lines ++ .finished [Color.margin.paint ("".pushn '─' (width + 2) ++ "╯")]

def headline (p : Problem String) : String := Color.red.paint "Error:" ++ " " ++ p.describe

/-- The report of a problem with the source text `input`. -/
def draw (p : Problem String) (input : String) : Drawing :=
  let source := Source.ofString input
  .finished [headline p] ++
    if source.isEmpty && (labels p).any (·.span.start = 0) then .stopped .noLine
    else drawFrame source p

end Redline.Report
