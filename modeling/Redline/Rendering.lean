import Redline.Doc
import Redline.Tree

/-! # Renderings

A tree is rendered from the leaves upwards.  A rendering is open when it runs on to the right, as
`lambda x. body` and `x = value` do; where more text follows, which is after a callee and after a
parameter, an open child is put between parentheses (`Rendering.closed`) and every other child
stands as it is.  Leaves are never open. -/

namespace Redline

structure Rendering where
  doc : Doc
  isOpen : Bool

/-- The document, between parentheses if it is open. -/
def Rendering.closed (r : Rendering) : Doc := if r.isOpen then .wrap "(" r.doc ")" else r.doc

namespace Layer

variable {α β : Type}

/-- A layer over the documents of its children, put together. -/
def doc : Layer Doc → Doc
  | apply callee arguments => .row [callee, .wrap "(" (.join ", " arguments) ")"]
  | lambda [] body => .row [.text "lambda. ", body]
  | lambda parameters body =>
      .row [.text "lambda ", .join ", " parameters, .text ". ", body]
  | assign x value => .row [.text x, .text " = ", value]
  | name x => .text x
  | literal v => .text v.render
  | group tag value => .row [.wrap "[" (.join ", " tag) "]", .wrap " \x7b " value " \x7d"]

/-- Whether the rendering of the layer runs on to the right. -/
def isOpen : Layer α → Bool
  | lambda _ _ => true
  | assign _ _ => true
  | _ => false

/-- The documents of the children, closed where more text follows. -/
def childDocs : Layer Rendering → Layer Doc
  | apply callee arguments => apply callee.closed (arguments.map (·.doc))
  | lambda parameters body => lambda (parameters.map (·.closed)) body.doc
  | l => l.asRef.map (·.target.doc)

def rendering (l : Layer Rendering) : Rendering := ⟨l.childDocs.doc, l.isOpen⟩

@[simp] theorem isOpen_map (f : α → β) (l : Layer α) : (l.map f).isOpen = l.isOpen := by
  cases l <;> rfl

/-! ### The texts of layers -/

theorem render_apply (f : Rendering) (xs : List Rendering) :
    (apply f xs).rendering.doc.render =
      f.closed.render ++ ("(" ++ ", ".intercalate (xs.map (·.doc.render)) ++ ")") := by
  simp [rendering, childDocs, doc, Doc.render, Doc.renderAll, Doc.render_join, Function.comp_def]

theorem render_lambda_nil (b : Rendering) :
    (lambda [] b).rendering.doc.render = "lambda" ++ (". " ++ b.doc.render) := by
  rw [← String.append_assoc]
  simp [rendering, childDocs, doc, Doc.render, Doc.renderAll]

theorem render_lambda_cons (p : Rendering) (ps : List Rendering) (b : Rendering) :
    (lambda (p :: ps) b).rendering.doc.render =
      "lambda " ++ (", ".intercalate ((p :: ps).map (·.closed.render)) ++
        (". " ++ b.doc.render)) := by
  simp [rendering, childDocs, doc, Doc.render, Doc.renderAll, Doc.render_join, Function.comp_def]

theorem render_assign (x : String) (v : Rendering) :
    (assign x v).rendering.doc.render = x ++ (" = " ++ v.doc.render) := by
  simp [rendering, childDocs, asRef, map, doc, Doc.render, Doc.renderAll]

theorem render_group (gs : List Rendering) (v : Rendering) :
    (group gs v).rendering.doc.render =
      "[" ++ ", ".intercalate (gs.map (·.doc.render)) ++ "]" ++
        (" \x7b " ++ v.doc.render ++ " \x7d") := by
  simp [rendering, childDocs, asRef, map, doc, Doc.render, Doc.renderAll, Doc.render_join,
    Function.comp_def]

end Layer

namespace Tree

variable {α : Type}

/-- The rendering of a tree whose leaves are shown by `leafDoc`. -/
def rendering (leafDoc : α → Doc) : Tree α → Rendering :=
  fold (fun a => ⟨leafDoc a, false⟩) Layer.rendering

/-- Only the root decides whether a rendering is open. -/
def isOpen : Tree α → Bool
  | leaf _ => false
  | node l => l.isOpen

theorem rendering_node (leafDoc : α → Doc) (l : Layer (Tree α)) :
    rendering leafDoc (node l) = (l.map (rendering leafDoc)).rendering := fold_node _ _ l

theorem isOpen_rendering (leafDoc : α → Doc) (t : Tree α) :
    (t.rendering leafDoc).isOpen = t.isOpen := by
  cases t with
  | leaf a => rfl
  | node l => rw [rendering_node, Layer.rendering, Layer.isOpen_map, isOpen]

end Tree

end Redline
