import Redline.Text.Outline
import Redline.Value

/-! # Layers

One layer of the expression language, over any type of children: trees of layers are terms, and a
layer whose children are diffs is what two terms share.  The children of a layer are ordered as
they are read: the callee before the arguments, the parameters before the body, the tag before the
value.  `mapM` visits them in that order, `children` lists them in that order (`children_map`),
and neither touches names, values or the lengths of the lists.  To look at the children and leave
them where they are, `asRef` takes references to them. -/

namespace Redline

inductive Layer (α : Type) where
  | apply (callee : α) (arguments : List α)
  | lambda (parameters : List α) (body : α)
  | assign (name : String) (value : α)
  | name (name : String)
  | literal (value : Value)
  | group (tag : List α) (value : α)
deriving DecidableEq, Repr

/-- A reference to a child, which stays where it is. -/
structure Ref (α : Type) where
  target : α
deriving DecidableEq, Repr

namespace Layer

variable {α β γ : Type}

def children : Layer α → List α
  | apply callee arguments => callee :: arguments
  | lambda parameters body => parameters ++ [body]
  | assign _ value => [value]
  | name _ => []
  | literal _ => []
  | group tag value => tag ++ [value]

/-- The same layer over the images of its children. -/
def map (f : α → β) : Layer α → Layer β
  | apply callee arguments => apply (f callee) (arguments.map f)
  | lambda parameters body => lambda (parameters.map f) (f body)
  | assign x value => assign x (f value)
  | name x => name x
  | literal v => literal v
  | group tag value => group (tag.map f) (f value)

/-- `map` with an effect at each child, in the order of `children`. -/
def mapM {m : Type → Type} [Monad m] (f : α → m β) : Layer α → m (Layer β)
  | apply callee arguments => return apply (← f callee) (← arguments.mapM f)
  | lambda parameters body => return lambda (← parameters.mapM f) (← f body)
  | assign x value => return assign x (← f value)
  | name x => return name x
  | literal v => return literal v
  | group tag value => return group (← tag.mapM f) (← f value)

/-- The same layer over references to its children. -/
def asRef : Layer α → Layer (Ref α)
  | apply callee arguments => apply ⟨callee⟩ (arguments.map Ref.mk)
  | lambda parameters body => lambda (parameters.map Ref.mk) ⟨body⟩
  | assign x value => assign x ⟨value⟩
  | name x => name x
  | literal v => literal v
  | group tag value => group (tag.map Ref.mk) ⟨value⟩

theorem asRef_eq_map (l : Layer α) : l.asRef = l.map Ref.mk := by
  cases l <;> rfl

@[simp] theorem children_map (f : α → β) (l : Layer α) :
    (l.map f).children = l.children.map f := by
  cases l <;> simp [map, children]

@[simp] theorem map_id (l : Layer α) : l.map id = l := by
  cases l <;> simp [map]

@[simp] theorem map_map (f : α → β) (g : β → γ) (l : Layer α) :
    (l.map f).map g = l.map (g ∘ f) := by
  cases l <;> simp [map]

theorem map_congr {f g : α → β} {l : Layer α} (h : ∀ c ∈ l.children, f c = g c) :
    l.map f = l.map g := by
  cases l <;> simp_all [map, children]

/-! ### The outline of a layer -/

/-- How a layer is built, over the outlines of its children. -/
def outline : Layer String → String
  | apply callee arguments => Text.built "Apply" [callee, Text.listed arguments]
  | lambda parameters body => Text.built "Abstract" [Text.listed parameters, body]
  | assign x value => Text.built "Assign" [Text.visible x, value]
  | name x => Text.built "Variable" [Text.visible x]
  | literal v => Text.built "Literal" [v.render]
  | group tag value => Text.built "Group" [Text.listed tag, value]

end Layer

end Redline
