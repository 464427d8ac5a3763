import Redline.Layer

/-! # Trees of layers

A tree is a leaf or one layer over further trees.  Terms and diffs are both trees and differ in
their leaves: the leaf of a term is an absent subterm, the leaf of a diff is a change.  Whatever is
computed from a tree alone is a `fold`: a function of the leaves and a function of a layer whose
children have been computed already (`fold_node`).  Properties of all trees are proved by
`Tree.induction`, which speaks of the children of a layer in the same way. -/

namespace Redline

inductive Tree (α : Type) where
  | leaf (a : α)
  | node (layer : Layer (Tree α))

namespace Tree

variable {α β γ : Type}

/-! ### Recursion and induction -/

mutual

/-- The value computed from the leaves upwards. -/
def fold (f : α → β) (step : Layer β → β) : Tree α → β
  | leaf a => f a
  | node layer => step (foldLayer f step layer)

def foldLayer (f : α → β) (step : Layer β → β) : Layer (Tree α) → Layer β
  | .apply callee arguments => .apply (fold f step callee) (foldList f step arguments)
  | .lambda parameters body => .lambda (foldList f step parameters) (fold f step body)
  | .assign x value => .assign x (fold f step value)
  | .name x => .name x
  | .literal v => .literal v
  | .group tag value => .group (foldList f step tag) (fold f step value)

def foldList (f : α → β) (step : Layer β → β) : List (Tree α) → List β
  | [] => []
  | t :: ts => fold f step t :: foldList f step ts

end

theorem foldList_eq_map (f : α → β) (step : Layer β → β) (ts : List (Tree α)) :
    foldList f step ts = ts.map (fold f step) := by
  induction ts with
  | nil => rfl
  | cons t ts ih => rw [foldList, ih, List.map_cons]

theorem foldLayer_eq_map (f : α → β) (step : Layer β → β) (l : Layer (Tree α)) :
    foldLayer f step l = l.map (fold f step) := by
  cases l <;> simp [foldLayer, Layer.map, foldList_eq_map]

@[simp] theorem fold_leaf (f : α → β) (step : Layer β → β) (a : α) :
    fold f step (leaf a) = f a := rfl

@[simp] theorem fold_node (f : α → β) (step : Layer β → β) (l : Layer (Tree α)) :
    fold f step (node l) = step (l.map (fold f step)) := by
  rw [fold, foldLayer_eq_map]

mutual

theorem induction {P : Tree α → Prop} (leaf : ∀ a, P (leaf a))
    (node : ∀ l : Layer (Tree α), (∀ c ∈ l.children, P c) → P (node l)) : ∀ t, P t
  | .leaf a => leaf a
  | .node l => node l (inductionLayer leaf node l)

theorem inductionLayer {P : Tree α → Prop} (leaf : ∀ a, P (.leaf a))
    (node : ∀ l : Layer (Tree α), (∀ c ∈ l.children, P c) → P (.node l)) :
    ∀ l : Layer (Tree α), ∀ c ∈ l.children, P c
  | .apply callee arguments => List.forall_mem_cons.2
      ⟨induction leaf node callee, inductionList leaf node arguments⟩
  | .lambda parameters body => List.forall_mem_append.2
      ⟨inductionList leaf node parameters, List.forall_mem_singleton.2 (induction leaf node body)⟩
  | .assign _ value => List.forall_mem_singleton.2 (induction leaf node value)
  | .name _ => nofun
  | .literal _ => nofun
  | .group tag value => List.forall_mem_append.2
      ⟨inductionList leaf node tag, List.forall_mem_singleton.2 (induction leaf node value)⟩

theorem inductionList {P : Tree α → Prop} (leaf : ∀ a, P (.leaf a))
    (node : ∀ l : Layer (Tree α), (∀ c ∈ l.children, P c) → P (.node l)) :
    ∀ ts : List (Tree α), ∀ t ∈ ts, P t
  | [] => nofun
  | t :: ts => List.forall_mem_cons.2 ⟨induction leaf node t, inductionList leaf node ts⟩

end

/-- The layer at the root, if there is one. -/
def root : Tree α → Option (Layer (Tree α))
  | leaf _ => none
  | node l => some l

/-- The same layers over the images of the leaves. -/
def map (f : α → β) : Tree α → Tree β := fold (fun a => leaf (f a)) node

@[simp] theorem map_node (f : α → β) (l : Layer (Tree α)) :
    map f (node l) = node (l.map (map f)) := fold_node _ _ l

theorem fold_map (f : α → β) (g : β → γ) (step : Layer γ → γ) (t : Tree α) :
    fold g step (map f t) = fold (g ∘ f) step t := by
  induction t using induction with
  | leaf a => rfl
  | node l ih =>
      rw [map_node, fold_node, fold_node, Layer.map_map]
      exact congrArg step (Layer.map_congr ih)

/-! ### Equality -/

section Equality

variable [DecidableEq α]

mutual

def beq : Tree α → Tree α → Bool
  | leaf a, leaf b => a == b
  | node a, node b => beqLayer a b
  | _, _ => false

def beqLayer : Layer (Tree α) → Layer (Tree α) → Bool
  | .apply s ss, .apply t ts => beq s t && beqList ss ts
  | .lambda ss s, .lambda ts t => beqList ss ts && beq s t
  | .assign x s, .assign y t => x == y && beq s t
  | .name x, .name y => x == y
  | .literal v, .literal w => v == w
  | .group ss s, .group ts t => beqList ss ts && beq s t
  | _, _ => false

def beqList : List (Tree α) → List (Tree α) → Bool
  | [], [] => true
  | s :: ss, t :: ts => beq s t && beqList ss ts
  | _, _ => false

end

mutual

theorem beq_iff : ∀ s t : Tree α, beq s t = true ↔ s = t
  | leaf a, t => by cases t <;> simp [beq]
  | node a, t => by cases t <;> simp [beq, beqLayer_iff a]

theorem beqLayer_iff : ∀ a b : Layer (Tree α), beqLayer a b = true ↔ a = b
  | .apply s ss, b => by cases b <;> simp [beqLayer, beq_iff s, beqList_iff ss]
  | .lambda ss s, b => by cases b <;> simp [beqLayer, beq_iff s, beqList_iff ss]
  | .assign x s, b => by cases b <;> simp [beqLayer, beq_iff s]
  | .name x, b => by cases b <;> simp [beqLayer]
  | .literal v, b => by cases b <;> simp [beqLayer]
  | .group ss s, b => by cases b <;> simp [beqLayer, beq_iff s, beqList_iff ss]

theorem beqList_iff : ∀ ss ts : List (Tree α), beqList ss ts = true ↔ ss = ts
  | [], ts => by cases ts <;> simp [beqList]
  | s :: ss, ts => by cases ts <;> simp [beqList, beq_iff s, beqList_iff ss]

end

instance : DecidableEq (Tree α) := fun s t => decidable_of_iff _ (beq_iff s t)

end Equality

end Tree

end Redline
