/-! # Ink

A drawing is made of cells, characters with a color or without one.  A color is written as a
terminal escape sequence around what it colors. -/

namespace Redline.Report

inductive Color where
  | red
  | yellow
  /-- Line numbers and the frame. -/
  | margin
  /-- Text that no label speaks about. -/
  | gray
deriving DecidableEq, Repr

namespace Color

/-- The parameters of the terminal's color sequence. -/
def code : Color → String
  | red => "31"
  | yellow => "33"
  | margin => "38;5;246"
  | gray => "38;5;249"

def paint (c : Color) (s : String) : String := "\x1b[" ++ c.code ++ "m" ++ s ++ "\x1b[0m"

end Color

structure Cell where
  color : Option Color
  char : Char
deriving DecidableEq, Repr

namespace Cell

def blank : Cell := ⟨none, ' '⟩

def of (color : Color) (char : Char) : Cell := ⟨some color, char⟩

def render (c : Cell) : String :=
  match c.color with
  | none => c.char.toString
  | some color => color.paint c.char.toString

end Cell

def renderCells (cells : List Cell) : String := String.join (cells.map Cell.render)

end Redline.Report
