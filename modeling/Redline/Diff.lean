import Redline.Term

/-! # Structural diffs

The diff of two terms is a tree of the layers that they share, from the roots down.  Where the
outer constructors agree, and with them the names and values that they carry, the layer is kept
and the children are compared (`betweenLayers`); where they disagree, the old subterm is replaced
by the new one as a whole.  Lists of children are compared by position and what is left over on
one side is deleted or inserted (`betweenLists`, the rounds of which are `betweenRest`).

A diff costs as many units as it has replacements, however large these are (`magnitude`), and
`render` shows the replacements as `{-removed-}{+added+}` inside the rendering of what is kept. -/

namespace Redline

/-- What there is at a place where two terms share no layer: nothing on either side, or a subterm
that takes the place of another. -/
inductive Change where
  | absent
  | replace (old new : Term)
deriving DecidableEq

/-- The layers that two terms share, with the changes below them. -/
abbrev Diff := Tree Change

namespace Diff

/-- The diff of two absent terms. -/
@[match_pattern] abbrev absent : Diff := .leaf .absent

@[match_pattern] abbrev replace (old new : Term) : Diff := .leaf (.replace old new)

def insert (new : Term) : Diff := replace .absent new

def delete (old : Term) : Diff := replace old .absent

/-! ### Comparing terms -/

mutual

/-- The diff that turns the first term into the second. -/
def between : Term → Term → Diff
  | .absent, .absent => absent
  | .node a, .node b =>
      match betweenLayers a b with
      | some shared => .node shared
      | none => replace (.node a) (.node b)
  | old, new => replace old new

/-- The shared layer of two terms, if they have one. -/
def betweenLayers : Layer Term → Layer Term → Option (Layer Diff)
  | .apply f xs, .apply g ys => some (.apply (between f g) (betweenRest [] xs ys))
  | .lambda xs a, .lambda ys b => some (.lambda (betweenRest [] xs ys) (between a b))
  | .assign x a, .assign y b => if x = y then some (.assign y (between a b)) else none
  | .name x, .name y => if x = y then some (.name y) else none
  | .literal v, .literal w => if v = w then some (.literal w) else none
  | .group xs a, .group ys b => some (.group (betweenRest [] xs ys) (between a b))
  | _, _ => none

/-- The diffs so far, and behind them those of what is left of two lists.  A round takes the next
term of either list; if only one list has any, its term goes back in front of the others. -/
def betweenRest (diffs : List Diff) : List Term → List Term → List Diff
  | old :: olds, new :: news => betweenRest (diffs ++ [between old new]) olds news
  | old :: olds, [] => diffs ++ (old :: olds).map delete
  | [], new :: news => diffs ++ (new :: news).map insert
  | [], [] => diffs

end

/-- The diffs of the terms at the same positions, then one for each term left over. -/
def betweenLists (olds news : List Term) : List Diff := betweenRest [] olds news

@[simp] theorem betweenRest_nil : betweenRest [] = betweenLists := rfl

/-! ### Cost -/

/-- The number of replacements. -/
def magnitude : Diff → Nat :=
  Tree.fold (fun | .absent => 0 | .replace _ _ => 1) fun l => l.children.foldr (· + ·) 0

theorem magnitude_node (l : Layer Diff) :
    magnitude (.node l) = (l.children.map magnitude).foldr (· + ·) 0 := by
  rw [magnitude, Tree.fold_node, Layer.children_map]

/-- Diffs are ordered by their cost alone, so different diffs may compare as equal. -/
def compareMagnitude (a b : Diff) : Ordering := compare a.magnitude b.magnitude

theorem isLE_compareMagnitude {a b : Diff} :
    (a.compareMagnitude b).isLE = true ↔ a.magnitude ≤ b.magnitude := Nat.isLE_compare

/-! ### Views -/

/-- A side of a replacement; an absent one leaves no trace. -/
def sideDoc : Term → Doc
  | .absent => .empty
  | t => t.doc

def changeDoc : Change → Doc
  | .absent => .empty
  | .replace old new =>
      .row [.wrap "\x7b-" (sideDoc old) "-\x7d", .wrap "\x7b+" (sideDoc new) "+\x7d"]

def doc (d : Diff) : Doc := (d.rendering changeDoc).doc

def render (d : Diff) : String := d.doc.render

def changeOutline : Change → String
  | .absent => "Empty"
  | .replace old new => Text.built "Patch" [old.outline, new.outline]

def outline : Diff → String :=
  Tree.fold changeOutline fun l => Text.built "Copy" [l.outline]

theorem outline_node (l : Layer Diff) :
    outline (.node l) = Text.built "Copy" [(l.map outline).outline] := Tree.fold_node _ _ l

end Diff

end Redline
