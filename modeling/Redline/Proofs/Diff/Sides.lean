import Redline.Proofs.Diff.Alignment

/-! # The two sides of a diff

A diff holds both terms that it was made of: `side .old` undoes all its replacements and `side .new`
carries them out.  In a list an absent side says that the element is of the other list alone, and so
it is dropped; a list whose elements may themselves be absent is therefore not got back.  Without
such elements both terms are (`side_between`).  Main statement: `sides_of_between`. -/

namespace Redline

/-- The children of a layer that are elements of a list. -/
def Layer.listed {α : Type} : Layer α → List α
  | apply _ arguments => arguments
  | lambda parameters _ => parameters
  | group tag _ => tag
  | _ => []

/-- No element of a list is absent, at any depth. -/
inductive Term.ListsFilled : Term → Prop
  | absent : ListsFilled absent
  | node {l : Layer Term} :
      (∀ t ∈ l.listed, t ≠ absent) → (∀ c ∈ l.children, ListsFilled c) → ListsFilled (.node l)

namespace Diff

inductive Side where
  | old
  | new

def Side.pick {α : Type} : Side → α → α → α
  | old, a, _ => a
  | new, _, b => b

theorem Side.pick_map {α β : Type} (f : α → β) (s : Side) (a b : α) :
    s.pick (f a) (f b) = f (s.pick a b) := by
  cases s <;> rfl

theorem Side.pick_map₂ {α β γ : Type} (f : α → β → γ) (s : Side) (a b : α) (c d : β) :
    s.pick (f a c) (f b d) = f (s.pick a b) (s.pick c d) := by
  cases s <;> rfl

/-- Whether the diff is of something that is not there on the side. -/
def missing (s : Side) : Diff → Bool
  | .replace old new => s.pick old new = .absent
  | _ => false

mutual

/-- The term that the diff has on the side. -/
def side (s : Side) : Diff → Term
  | .absent => .absent
  | .replace old new => s.pick old new
  | .node l => .node (sideLayer s l)

def sideLayer (s : Side) : Layer Diff → Layer Term
  | .apply callee arguments => .apply (side s callee) (sideList s arguments)
  | .lambda parameters body => .lambda (sideList s parameters) (side s body)
  | .assign x value => .assign x (side s value)
  | .name x => .name x
  | .literal v => .literal v
  | .group tag value => .group (sideList s tag) (side s value)

/-- The elements that are there on the side. -/
def sideList (s : Side) : List Diff → List Term
  | [] => []
  | d :: ds => if missing s d then sideList s ds else side s d :: sideList s ds

end

/-! ### Lists -/

theorem sideList_eq (s : Side) (ds : List Diff) :
    sideList s ds = (ds.filter fun d => !missing s d).map (side s) := by
  induction ds with
  | nil => rfl
  | cons d ds ih =>
      rw [sideList, ih]
      cases h : missing s d <;> simp [h]

theorem sideList_of_missing {s : Side} {ds : List Diff} (h : ∀ d ∈ ds, missing s d = true) :
    sideList s ds = [] := by
  rw [sideList_eq, List.filter_eq_nil_iff.2, List.map_nil]
  intro d hd
  simp [h d hd]

theorem sideList_of_present {s : Side} {ds : List Diff} (h : ∀ d ∈ ds, missing s d = false) :
    sideList s ds = ds.map (side s) := by
  rw [sideList_eq, List.filter_eq_self.2]
  intro d hd
  simp [h d hd]

/-- Elements of the new list alone. -/
theorem sideList_insert {s : Side} {news : List Term} (h : ∀ t ∈ s.pick [] news, t ≠ .absent) :
    sideList s (news.map insert) = s.pick [] news := by
  cases s with
  | old =>
      refine sideList_of_missing fun d hd => ?_
      obtain ⟨t, -, rfl⟩ := List.mem_map.1 hd
      rfl
  | new =>
      rw [sideList_of_present, List.map_map]
      · exact List.map_id news
      · intro d hd
        obtain ⟨t, ht, rfl⟩ := List.mem_map.1 hd
        exact decide_eq_false (h t ht)

/-- Elements of the old list alone. -/
theorem sideList_delete {s : Side} {olds : List Term} (h : ∀ t ∈ s.pick olds [], t ≠ .absent) :
    sideList s (olds.map delete) = s.pick olds [] := by
  cases s with
  | old =>
      rw [sideList_of_present, List.map_map]
      · exact List.map_id olds
      · intro d hd
        obtain ⟨t, ht, rfl⟩ := List.mem_map.1 hd
        exact decide_eq_false (h t ht)
  | new =>
      refine sideList_of_missing fun d hd => ?_
      obtain ⟨t, -, rfl⟩ := List.mem_map.1 hd
      rfl

/-- A pair of elements is on a side unless that side's element is absent. -/
theorem missing_between {s : Side} {old new : Term} (h : s.pick old new ≠ .absent) :
    missing s (between old new) = false := by
  have hreplace : missing s (replace old new) = false := decide_eq_false h
  match old, new with
  | .absent, .absent => rfl
  | .absent, .node b => exact hreplace
  | .node a, .absent => exact hreplace
  | .node a, .node b =>
      rw [between]
      split
      · rfl
      · exact hreplace

/-! ### Terms -/

mutual

theorem side_between {s : Side} : ∀ {old new : Term}, (s.pick old new).ListsFilled →
    side s (between old new) = s.pick old new
  | .absent, .absent, _ => by cases s <;> rfl
  | .absent, .node _, _ => rfl
  | .node _, .absent, _ => rfl
  | .node a, .node b, h => by
      rw [between]
      cases hab : betweenLayers a b with
      | none => rfl
      | some shared =>
          rw [Side.pick_map Tree.node] at h ⊢
          cases h with
          | node hlisted hchildren =>
              have hshares := shares_of_betweenLayers hab
              exact congrArg Tree.node (sideLayer_of_shares hshares hlisted hchildren)

theorem sideLayer_of_shares {s : Side} {a b : Layer Term} {shared : Layer Diff}
    (hshares : Shares a b shared) (hlisted : ∀ t ∈ (s.pick a b).listed, t ≠ .absent)
    (h : ∀ c ∈ (s.pick a b).children, c.ListsFilled) : sideLayer s shared = s.pick a b := by
  cases hshares with
  | apply =>
      rw [Side.pick_map₂ Layer.apply] at hlisted h ⊢
      obtain ⟨hf, hxs⟩ := List.forall_mem_cons.1 h
      rw [sideLayer, side_between hf, sideList_betweenLists hlisted hxs]
  | lambda =>
      rw [Side.pick_map₂ Layer.lambda] at hlisted h ⊢
      obtain ⟨hxs, ht⟩ := List.forall_mem_append.1 h
      rw [sideLayer, sideList_betweenLists hlisted hxs, side_between (ht _ List.mem_cons_self)]
  | @assign x =>
      rw [Side.pick_map (Layer.assign x)] at h ⊢
      rw [sideLayer, side_between (h _ List.mem_cons_self)]
  | name => cases s <;> rfl
  | literal => cases s <;> rfl
  | group =>
      rw [Side.pick_map₂ Layer.group] at hlisted h ⊢
      obtain ⟨hxs, ht⟩ := List.forall_mem_append.1 h
      rw [sideLayer, sideList_betweenLists hlisted hxs, side_between (ht _ List.mem_cons_self)]

theorem sideList_betweenLists {s : Side} : ∀ {olds news : List Term},
    (∀ t ∈ s.pick olds news, t ≠ .absent) → (∀ t ∈ s.pick olds news, t.ListsFilled) →
      sideList s (betweenLists olds news) = s.pick olds news
  | [], news, hlisted, _ => by
      rw [betweenLists_nil]
      exact sideList_insert hlisted
  | old :: olds, [], hlisted, _ => by
      rw [betweenLists_nil_right]
      exact sideList_delete hlisted
  | old :: olds, new :: news, hlisted, h => by
      rw [Side.pick_map₂ List.cons] at hlisted h ⊢
      obtain ⟨hpresent, hlisted⟩ := List.forall_mem_cons.1 hlisted
      obtain ⟨hfilled, h⟩ := List.forall_mem_cons.1 h
      rw [betweenLists_cons, sideList, missing_between hpresent, side_between hfilled,
        sideList_betweenLists hlisted h]
      rfl

end

/-- The diff of two terms holds both of them, unless an element of a list is absent. -/
theorem sides_of_between :
    (∀ old new : Term, old.ListsFilled → new.ListsFilled →
      side .old (between old new) = old ∧ side .new (between old new) = new) ∧
    ∀ old new old' new' : Term, old.ListsFilled → new.ListsFilled → old'.ListsFilled →
      new'.ListsFilled → between old new = between old' new' → old = old' ∧ new = new' := by
  have hsides : ∀ old new : Term, old.ListsFilled → new.ListsFilled →
      side .old (between old new) = old ∧ side .new (between old new) = new :=
    fun _ _ hold hnew => ⟨side_between (s := .old) hold, side_between (s := .new) hnew⟩
  refine ⟨hsides, ?_⟩
  intro old new old' new' hold hnew hold' hnew' h
  obtain ⟨h₁, h₂⟩ := hsides old new hold hnew
  obtain ⟨h₁', h₂'⟩ := hsides old' new' hold' hnew'
  rw [h] at h₁ h₂
  exact ⟨h₁.symm.trans h₁', h₂.symm.trans h₂'⟩

/-- With an absent callee and an argument deleted, which is not what deleting another argument
does. -/
theorem sides_of_between_deletion :
    (side .old (between (.node (.apply Term.absent [.node (.name "x")]))
        (.node (.apply Term.absent []))) = .node (.apply Term.absent [.node (.name "x")]) ∧
      side .new (between (.node (.apply Term.absent [.node (.name "x")]))
        (.node (.apply Term.absent []))) = .node (.apply Term.absent [])) ∧
    between (.node (.apply Term.absent [.node (.name "x")])) (.node (.apply Term.absent [])) ≠
      between (.node (.apply Term.absent [.node (.name "y")])) (.node (.apply Term.absent [])) := by
  have hcall : ∀ x, Term.ListsFilled (.node (.apply Term.absent [.node (.name x)])) := by
    intro x
    have hname : Term.ListsFilled (.node (.name x)) := .node nofun nofun
    exact .node (List.forall_mem_singleton.2 nofun)
      (List.forall_mem_cons.2 ⟨.absent, List.forall_mem_singleton.2 hname⟩)
  have hempty : Term.ListsFilled (.node (.apply Term.absent [])) :=
    .node nofun (List.forall_mem_singleton.2 .absent)
  refine ⟨sides_of_between.1 _ _ (hcall "x") hempty, fun h => ?_⟩
  have hsame := sides_of_between.2 _ _ _ _ (hcall "x") hempty (hcall "y") hempty h
  exact absurd hsame.1 (by decide)

/-- An absent element on the old side cannot be told from no element. -/
example : side .old (between (.node (.apply Term.absent [Term.absent]))
    (.node (.apply Term.absent []))) = .node (.apply Term.absent []) := rfl

end Diff

end Redline
