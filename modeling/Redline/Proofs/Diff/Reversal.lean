import Redline.Proofs.Diff.Alignment

/-! # Diffs in the other direction

The two terms are not treated alike when they are compared: names and values are taken from the new
one, and what is left over of the old list and of the new list are cases of their own.  Still the
diff from the new term back to the old one is the diff from the old to the new with the two sides of
each replacement swapped (`flip`), since the conditions for sharing a layer are symmetric
(`betweenLayers_flip`) and a deletion flipped is an insertion (`betweenLists_flip`).  So both
directions cost the same.  Main statement: `reversal_of_between`. -/

namespace Redline

/-- The change that undoes the change. -/
def Change.flip : Change → Change
  | .absent => .absent
  | .replace old new => .replace new old

namespace Diff

/-- The same layers over the changes that undo the changes. -/
def flip : Diff → Diff := Tree.map Change.flip

theorem flip_node (l : Layer Diff) : flip (.node l) = .node (l.map flip) := Tree.map_node _ l

/-- The cost does not depend on the direction. -/
theorem magnitude_flip (d : Diff) : (flip d).magnitude = d.magnitude := by
  rw [magnitude, flip, Tree.fold_map]
  congr
  funext c
  cases c <;> rfl

/-- A layer that is shared on the condition that two labels agree. -/
theorem shared_if_flip {α : Type} [DecidableEq α] {x y : α} {l m : Layer Diff}
    (h : x = y → l = m.map flip) :
    (if y = x then some l else none) = (if x = y then some m else none).map (Layer.map flip) := by
  by_cases hxy : x = y
  · rw [if_pos hxy, if_pos hxy.symm, h hxy, Option.map_some]
  · rw [if_neg hxy, if_neg (Ne.symm hxy), Option.map_none]

mutual

theorem between_flip : ∀ old new : Term, between new old = (between old new).flip
  | .absent, .absent => rfl
  | .absent, .node _ => rfl
  | .node _, .absent => rfl
  | .node a, .node b => by
      have hlayers := betweenLayers_flip a b
      cases hab : betweenLayers a b with
      | none =>
          rw [hab] at hlayers
          rw [between_of_none hab, between_of_none hlayers]
          rfl
      | some shared =>
          rw [hab] at hlayers
          rw [between_node hab, between_node hlayers, flip_node]

theorem betweenLayers_flip : ∀ a b : Layer Term,
    betweenLayers b a = (betweenLayers a b).map (Layer.map flip)
  | .apply f xs, b => by
      cases b with
      | apply g ys =>
          rw [betweenLayers, betweenLayers, betweenRest_nil, between_flip f g,
            betweenLists_flip xs ys]
          rfl
      | _ => rfl
  | .lambda xs s, b => by
      cases b with
      | lambda ys t =>
          rw [betweenLayers, betweenLayers, betweenRest_nil, between_flip s t,
            betweenLists_flip xs ys]
          rfl
      | _ => rfl
  | .assign x s, b => by
      cases b with
      | assign y t =>
          rw [betweenLayers, betweenLayers, between_flip s t]
          refine shared_if_flip ?_
          rintro rfl
          rfl
      | _ => rfl
  | .name x, b => by
      cases b with
      | name y =>
          rw [betweenLayers, betweenLayers]
          exact shared_if_flip fun h => congrArg Layer.name h
      | _ => rfl
  | .literal v, b => by
      cases b with
      | literal w =>
          rw [betweenLayers, betweenLayers]
          exact shared_if_flip fun h => congrArg Layer.literal h
      | _ => rfl
  | .group xs s, b => by
      cases b with
      | group ys t =>
          rw [betweenLayers, betweenLayers, betweenRest_nil, between_flip s t,
            betweenLists_flip xs ys]
          rfl
      | _ => rfl

theorem betweenLists_flip : ∀ olds news : List Term,
    betweenLists news olds = (betweenLists olds news).map flip
  | [], news => by
      rw [betweenLists_nil_right, betweenLists_nil, List.map_map]
      rfl
  | old :: olds, [] => by
      rw [betweenLists_nil_right, betweenLists_nil, List.map_map]
      rfl
  | old :: olds, new :: news => by
      rw [betweenLists_cons, betweenLists_cons, between_flip old new,
        betweenLists_flip olds news, List.map_cons]

end

/-- With the terms in the other order, or the lists, every replacement is the other way round and
nothing else changes, least of all the cost. -/
theorem reversal_of_between :
    (∀ old new : Term, between new old = (between old new).flip) ∧
    (∀ olds news : List Term, betweenLists news olds = (betweenLists olds news).map flip) ∧
    ∀ old new : Term, (between old new).magnitude = (between new old).magnitude := by
  refine ⟨between_flip, betweenLists_flip, fun old new => ?_⟩
  rw [between_flip old new, magnitude_flip]

/-- An argument that was inserted is deleted again. -/
example : between (.node (.apply (.node (.name "f")) [.node (.name "x")]))
      (.node (.apply (.node (.name "f")) [])) =
    .node (.apply (.node (.name "f")) [delete (.node (.name "x"))]) ∧
    between (.node (.apply (.node (.name "f")) []))
      (.node (.apply (.node (.name "f")) [.node (.name "x")])) =
    .node (.apply (.node (.name "f")) [insert (.node (.name "x"))]) := ⟨rfl, rfl⟩

end Diff

end Redline
