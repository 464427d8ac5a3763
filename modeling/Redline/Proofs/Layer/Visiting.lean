import Redline.Layer

/-! # Visiting the children of a layer

What a function with a state does to a layer is what it does to the list of the children, one after
the other (`children_mapM`), and the layer around them is kept (`sameShape_mapM`).  Both together say
all there is to say, since a layer is given by its shape and its children (`SameShape.eq`): the calls
of the function are those at the children, one at each and in their order (`exists_calls`).  Nothing
changes when the layer is visited through references (`mapM_asRef`).  Main statement:
`mapM_visits_children`. -/

namespace Redline.Layer

variable {σ α β γ : Type}

/-! ### Shapes -/

/-- The layers are of one constructor, with the same name or value and as many elements in each
list. -/
inductive SameShape : Layer α → Layer β → Prop
  | apply {callee : α} {callee' : β} {arguments : List α} {arguments' : List β} :
      arguments.length = arguments'.length →
        SameShape (.apply callee arguments) (.apply callee' arguments')
  | lambda {parameters : List α} {parameters' : List β} {body : α} {body' : β} :
      parameters.length = parameters'.length →
        SameShape (.lambda parameters body) (.lambda parameters' body')
  | assign {x : String} {value : α} {value' : β} : SameShape (.assign x value) (.assign x value')
  | name {x : String} : SameShape (.name x) (.name x)
  | literal {v : Value} : SameShape (.literal v) (.literal v)
  | group {tag : List α} {tag' : List β} {value : α} {value' : β} :
      tag.length = tag'.length → SameShape (.group tag value) (.group tag' value')

theorem SameShape.length_children {l : Layer α} {m : Layer β} (h : SameShape l m) :
    l.children.length = m.children.length := by
  cases h <;> simp [children, *]

/-- Layers of one shape with the same children are the same. -/
theorem SameShape.eq {k : Layer α} {l m : Layer β} (hl : SameShape k l) (hm : SameShape k m)
    (hchildren : l.children = m.children) : l = m := by
  cases hl with
  | apply =>
      cases hm with
      | apply =>
          obtain ⟨rfl, rfl⟩ := List.cons.inj hchildren
          rfl
  | lambda hl =>
      cases hm with
      | lambda hm =>
          obtain ⟨rfl, hbody⟩ := List.append_inj hchildren (hl.symm.trans hm)
          rw [List.singleton_inj.1 hbody]
  | assign =>
      cases hm with
      | assign => rw [List.singleton_inj.1 hchildren]
  | name => cases hm; rfl
  | literal => cases hm; rfl
  | group hl =>
      cases hm with
      | group hm =>
          obtain ⟨rfl, hvalue⟩ := List.append_inj hchildren (hl.symm.trans hm)
          rw [List.singleton_inj.1 hvalue]

theorem sameShape_asRef (l : Layer α) : SameShape l l.asRef := by
  cases l with
  | apply => exact .apply (List.length_map ..).symm
  | lambda => exact .lambda (List.length_map ..).symm
  | assign => exact .assign
  | name => exact .name
  | literal => exact .literal
  | group => exact .group (List.length_map ..).symm

/-! ### Visits -/

section Visits

variable {m : Type → Type} [Monad m] [LawfulMonad m]

/-- The children are visited as a list. -/
theorem children_mapM (f : α → m β) (l : Layer α) :
    children <$> l.mapM f = l.children.mapM f := by
  cases l <;> simp [mapM, children]

/-- References are visited as the children are to which they refer. -/
theorem mapM_asRef (f : Ref α → m β) (l : Layer α) :
    l.asRef.mapM f = l.mapM fun a => f ⟨a⟩ := by
  cases l <;> simp [asRef, mapM, List.mapM_map, Function.comp_def]

theorem mapM_pure (f : α → β) (l : Layer α) :
    (l.mapM fun a => (pure (f a) : m β)) = pure (l.map f) := by
  cases l <;> simp [mapM, map]

end Visits

/-! ### Visits with a state -/

theorem run_mapM_cons (f : α → StateM σ β) (a : α) (as : List α) (s : σ) :
    ((a :: as).mapM f).run s =
      (((f a).run s).1 :: ((as.mapM f).run ((f a).run s).2).1,
        ((as.mapM f).run ((f a).run s).2).2) := by
  rw [List.mapM_cons]
  rfl

theorem length_mapM (f : α → StateM σ β) (as : List α) (s : σ) :
    ((as.mapM f).run s).1.length = as.length := by
  induction as generalizing s with
  | nil => rfl
  | cons a as ih => rw [run_mapM_cons, List.length_cons, List.length_cons, ih]

theorem sameShape_mapM (f : α → StateM σ β) (l : Layer α) (s : σ) :
    SameShape l ((l.mapM f).run s).1 := by
  cases l with
  | apply callee arguments => exact .apply (length_mapM f arguments _).symm
  | lambda parameters body => exact .lambda (length_mapM f parameters s).symm
  | assign => exact .assign
  | name => exact .name
  | literal => exact .literal
  | group tag value => exact .group (length_mapM f tag s).symm

theorem run_children_mapM (f : α → StateM σ β) (l : Layer α) (s : σ) :
    (l.children.mapM f).run s = (((l.mapM f).run s).1.children, ((l.mapM f).run s).2) := by
  rw [← children_mapM]
  rfl

/-- `f` with a record of its calls, each with what it is given and what it returns. -/
def recorded (f : α → StateM σ β) (a : α) : StateM (σ × List (α × β)) β := fun (s, calls) =>
  (((f a).run s).1, ((f a).run s).2, calls ++ [(a, ((f a).run s).1)])

theorem run_recorded (f : α → StateM σ β) (a : α) (s : σ) (calls : List (α × β)) :
    (recorded f a).run (s, calls) =
      (((f a).run s).1, ((f a).run s).2, calls ++ [(a, ((f a).run s).1)]) := rfl

/-- Calls are recorded behind those made before. -/
theorem run_mapM_recorded (f : α → StateM σ β) (as : List α) (s : σ) (calls : List (α × β)) :
    (as.mapM (recorded f)).run (s, calls) =
      (((as.mapM f).run s).1, ((as.mapM f).run s).2, calls ++ as.zip ((as.mapM f).run s).1) := by
  induction as generalizing s calls with
  | nil =>
      rw [List.zip_nil_left, List.append_nil]
      rfl
  | cons a as ih =>
      rw [run_mapM_cons, run_mapM_cons, run_recorded, ih, List.zip_cons_cons, List.append_assoc]
      rfl

/-- The record does not change what a visit makes of the layer. -/
theorem run_layer_recorded (f : α → StateM σ β) (l : Layer α) (s : σ) :
    (l.mapM (recorded f)).run (s, []) =
      (((l.mapM f).run s).1, ((l.mapM f).run s).2,
        l.children.zip ((l.mapM f).run s).1.children) := by
  have hrecorded := run_children_mapM (recorded f) l (s, [])
  rw [run_mapM_recorded, run_children_mapM, List.nil_append] at hrecorded
  obtain ⟨hchildren, hstate⟩ := Prod.mk.inj hrecorded
  have hlayer := (sameShape_mapM f l s).eq (sameShape_mapM (recorded f) l (s, [])) hchildren
  exact Prod.ext hlayer.symm hstate.symm

/-- The calls are those at the children, with the children that come out. -/
theorem exists_calls (f : α → StateM σ β) (l : Layer α) (s : σ) :
    ∃ (l' : Layer β) (s' : σ) (calls : List (α × β)),
      (l.mapM f).run s = (l', s') ∧ (l.children.mapM f).run s = (l'.children, s') ∧
      (l.mapM (recorded f)).run (s, []) = (l', s', calls) ∧
      calls.map Prod.fst = l.children ∧ calls.map Prod.snd = l'.children ∧ SameShape l l' := by
  have hshape := sameShape_mapM f l s
  have hlength := hshape.length_children
  exact ⟨_, _, _, rfl, run_children_mapM f l s, run_layer_recorded f l s,
    List.map_fst_zip (Nat.le_of_eq hlength), List.map_snd_zip (Nat.le_of_eq hlength.symm), hshape⟩

theorem children_asRef (l : Layer α) : l.asRef.children.map Ref.target = l.children := by
  rw [asRef_eq_map, children_map, List.map_map]
  exact List.map_id l.children

/-- A function with a state is called once at each child of a layer, in their order; what it returns
are the children of the layer that comes out, which is of the same shape. -/
theorem mapM_visits_children :
    (∀ {σ α β : Type} (f : α → StateM σ β) (l : Layer α) (s : σ),
      ∃ (l' : Layer β) (s' : σ) (calls : List (α × β)),
        (l.mapM f).run s = (l', s') ∧ (l.children.mapM f).run s = (l'.children, s') ∧
        (l.mapM (recorded f)).run (s, []) = (l', s', calls) ∧
        calls.map Prod.fst = l.children ∧ calls.map Prod.snd = l'.children ∧ SameShape l l') ∧
    (∀ {σ α β : Type} (f : Ref α → StateM σ β) (l : Layer α) (s : σ),
      l.asRef.children.map Ref.target = l.children ∧ SameShape l l.asRef ∧
      l.asRef.mapM f = l.mapM (fun a => f ⟨a⟩) ∧
      ∃ (l' : Layer β) (s' : σ) (calls : List (Ref α × β)),
        (l.asRef.mapM (recorded f)).run (s, []) = (l', s', calls) ∧
        calls.map (fun call => call.1.target) = l.children ∧ calls.map Prod.snd = l'.children) ∧
    (∀ {σ α β : Type} (f : α → β) (l : Layer α) (s : σ),
      (l.mapM fun a => (pure (f a) : StateM σ β)).run s = (l.map f, s)) ∧
    (∀ {α : Type} (l : Layer α), l.map id = l) ∧
    ∀ {α β γ : Type} (f : α → β) (g : β → γ) (l : Layer α), (l.map f).map g = l.map (g ∘ f) := by
  refine ⟨exists_calls, ?_, ?_, map_id, map_map⟩
  · intro σ α β f l s
    obtain ⟨l', s', calls, -, -, hrun, harguments, hreturned, -⟩ := exists_calls f l.asRef s
    refine ⟨children_asRef l, sameShape_asRef l, mapM_asRef f l, l', s', calls, hrun, ?_, hreturned⟩
    rw [← children_asRef l, ← harguments, List.map_map]
    rfl
  · intro σ α β f l s
    rw [mapM_pure]
    rfl

/-- Children are numbered as they are visited: the parameters, and then the body. -/
example : ((lambda ["x", "y"] "f").mapM fun x =>
      (modifyGet fun n => ((x, n), n + 1) : StateM Nat (String × Nat))).run 0 =
    (lambda [("x", 0), ("y", 1)] ("f", 2), 3) := rfl

end Redline.Layer
