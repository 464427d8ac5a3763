import Redline.Rendering

/-! # Terms

A term is a tree of layers whose leaves stand for absent subterms.  `render` is the notation that
terms are read in, with `_` for an absent term; `outline` shows how they are built. -/

namespace Redline

/-- An expression, some of whose subterms may be absent. -/
abbrev Term := Tree Unit

namespace Term

/-- The term that is not there. -/
@[match_pattern] abbrev absent : Term := .leaf ()

def doc (t : Term) : Doc := (t.rendering fun _ => .text "_").doc

def render (t : Term) : String := t.doc.render

def outline : Term → String := Tree.fold (fun _ => "Empty") Layer.outline

theorem outline_node (l : Layer Term) : outline (.node l) = (l.map outline).outline :=
  Tree.fold_node _ _ l

end Term

end Redline
