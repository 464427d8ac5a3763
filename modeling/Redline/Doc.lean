import Redline.Text.Outline
import Redline.Text.Quoted

/-! # Documents

A document is the tree of fragments that a rendering consists of.  The layout is flat: `render`
writes the fragments from left to right, and only the tree knows which bracket belongs to which
content.  `outline` shows the tree itself. -/

namespace Redline

inductive Doc where
  | empty
  | text (s : String)
  | row (docs : List Doc)
  | wrap (opening : String) (inner : Doc) (closing : String)

namespace Doc

/-- The documents in a row, with `separator` between neighbours. -/
def join (separator : String) (docs : List Doc) : Doc := row (docs.intersperse (text separator))

/-! ### The text of a document -/

mutual

def render : Doc → String
  | empty => ""
  | text s => s
  | row docs => renderAll docs
  | wrap opening inner closing => opening ++ render inner ++ closing

def renderAll : List Doc → String
  | [] => ""
  | d :: ds => render d ++ renderAll ds

end

theorem render_row (docs : List Doc) : (row docs).render = String.join (docs.map render) := by
  rw [render]
  induction docs with
  | nil => simp [renderAll]
  | cons d ds ih => rw [renderAll, ih, List.map_cons, String.join_cons]

theorem render_join (separator : String) (docs : List Doc) :
    (join separator docs).render = separator.intercalate (docs.map render) := by
  rw [join, render_row]
  induction docs with
  | nil => rw [List.map_nil, String.intercalate_nil]; rfl
  | cons d ds ih =>
      cases ds with
      | nil => simp
      | cons e ds =>
          rw [List.intersperse_cons_cons, List.map_cons, List.map_cons, String.join_cons,
            String.join_cons, ih, render, List.map_cons, List.map_cons, List.map_cons,
            String.intercalate_cons_cons, String.append_assoc]

/-! ### The tree of a document -/

mutual

def outline : Doc → String
  | empty => "Empty"
  | text s => Text.built "Text" [Text.visible s]
  | row docs => Text.built "Horizontal" [Text.listed (outlineAll docs)]
  | wrap opening inner closing =>
      Text.built "Wrap" [Text.visible opening, outline inner, Text.visible closing]

def outlineAll : List Doc → List String
  | [] => []
  | d :: ds => outline d :: outlineAll ds

end

end Doc

end Redline
