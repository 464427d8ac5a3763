import Redline.Proofs.Diff.Cost

/-! # Edits in a context

A frame is a layer with one child missing, at any of the places where a layer has children
(`Frame.exists_fill`), and a context is a hole with frames around it.  When two terms differ in the
hole of a context alone, all frames are shared: their diff is the same context around the diff of
what was filled in, with the diff of a term and itself for each term beside the hole
(`between_fill`).  So the edit costs what it costs on its own.  Main statement:
`between_fill_context`. -/

namespace Redline

/-! ### Frames -/

/-- A layer with one child missing. -/
inductive Frame (α : Type) where
  | callee (arguments : List α)
  | argument (callee : α) (before behind : List α)
  | parameter (before behind : List α) (body : α)
  | body (parameters : List α)
  | assigned (name : String)
  | tag (before behind : List α) (value : α)
  | grouped (tag : List α)

namespace Frame

variable {α β : Type}

/-- The layer with `a` as the missing child. -/
def fill (a : α) : Frame α → Layer α
  | callee xs => .apply a xs
  | argument f xs ys => .apply f (xs ++ a :: ys)
  | parameter xs ys b => .lambda (xs ++ a :: ys) b
  | body xs => .lambda xs a
  | assigned x => .assign x a
  | tag xs ys b => .group (xs ++ a :: ys) b
  | grouped xs => .group xs a

/-- The children in front of the missing one. -/
def before : Frame α → List α
  | callee _ => []
  | argument f xs _ => f :: xs
  | parameter xs _ _ => xs
  | body xs => xs
  | assigned _ => []
  | tag xs _ _ => xs
  | grouped xs => xs

/-- The children behind the missing one. -/
def behind : Frame α → List α
  | callee xs => xs
  | argument _ _ ys => ys
  | parameter _ ys b => ys ++ [b]
  | body _ => []
  | assigned _ => []
  | tag _ ys b => ys ++ [b]
  | grouped _ => []

/-- The same frame over the images of its children. -/
def map (f : α → β) : Frame α → Frame β
  | callee xs => callee (xs.map f)
  | argument g xs ys => argument (f g) (xs.map f) (ys.map f)
  | parameter xs ys b => parameter (xs.map f) (ys.map f) (f b)
  | body xs => body (xs.map f)
  | assigned x => assigned x
  | tag xs ys b => tag (xs.map f) (ys.map f) (f b)
  | grouped xs => grouped (xs.map f)

@[simp] theorem children_fill (a : α) (F : Frame α) :
    (F.fill a).children = F.before ++ a :: F.behind := by
  cases F <;> simp [fill, before, behind, Layer.children]

@[simp] theorem before_map (f : α → β) (F : Frame α) : (F.map f).before = F.before.map f := by
  cases F <;> simp [map, before]

@[simp] theorem behind_map (f : α → β) (F : Frame α) : (F.map f).behind = F.behind.map f := by
  cases F <;> simp [map, behind]

/-- A place in a list with one more element is a place in the list or the one behind it. -/
theorem concat_eq_append_cons {as bs cs : List α} {a b : α} (h : as ++ [a] = bs ++ b :: cs) :
    (∃ ds, as = bs ++ b :: ds ∧ cs = ds ++ [a]) ∨ (as = bs ∧ a = b ∧ cs = []) := by
  rcases List.eq_nil_or_concat cs with rfl | ⟨ds, d, rfl⟩
  · obtain ⟨rfl, hab⟩ := List.append_inj' h rfl
    cases hab
    exact .inr ⟨rfl, rfl, rfl⟩
  · have hds : as ++ [a] = (bs ++ b :: ds) ++ [d] := by simpa using h
    obtain ⟨rfl, had⟩ := List.append_inj' hds rfl
    cases had
    exact .inl ⟨ds, rfl, List.concat_eq_append⟩

/-- Each child of a layer is the missing child of a frame. -/
theorem exists_fill {l : Layer α} {before behind : List α} {a : α}
    (h : l.children = before ++ a :: behind) :
    ∃ F : Frame α, F.fill a = l ∧ F.before = before ∧ F.behind = behind := by
  cases l with
  | apply f xs =>
      rcases List.cons_eq_append_iff.1 h with ⟨rfl, hcons⟩ | ⟨ys, rfl, rfl⟩
      · cases hcons
        exact ⟨.callee _, rfl, rfl, rfl⟩
      · exact ⟨.argument f ys behind, rfl, rfl, rfl⟩
  | lambda xs b =>
      rcases concat_eq_append_cons h with ⟨ys, rfl, rfl⟩ | ⟨rfl, rfl, rfl⟩
      · exact ⟨.parameter before ys b, rfl, rfl, rfl⟩
      · exact ⟨.body xs, rfl, rfl, rfl⟩
  | assign x b =>
      have hlast : [] ++ [b] = before ++ a :: behind := h
      rcases concat_eq_append_cons hlast with ⟨ys, hnil, -⟩ | ⟨rfl, rfl, rfl⟩
      · simp at hnil
      · exact ⟨.assigned x, rfl, rfl, rfl⟩
  | name x => simp [Layer.children] at h
  | literal v => simp [Layer.children] at h
  | group xs b =>
      rcases concat_eq_append_cons h with ⟨ys, rfl, rfl⟩ | ⟨rfl, rfl, rfl⟩
      · exact ⟨.tag before ys b, rfl, rfl, rfl⟩
      · exact ⟨.grouped xs, rfl, rfl, rfl⟩

end Frame

/-! ### Contexts -/

/-- A tree with a hole in it. -/
inductive Context (α : Type) where
  | hole
  | inside (frame : Frame (Tree α)) (context : Context α)

namespace Context

variable {α β : Type}

/-- The tree with `t` in the hole. -/
def fill (t : Tree α) : Context α → Tree α
  | hole => t
  | inside F C => .node (F.fill (C.fill t))

/-- The same context over the images of the trees beside the path to the hole. -/
def map (f : Tree α → Tree β) : Context α → Context β
  | hole => hole
  | inside F C => inside (F.map f) (C.map f)

end Context

namespace Diff

/-! ### Diffs of what is filled in -/

theorem betweenLists_hole (before behind : List Term) (u v : Term) :
    betweenLists (before ++ u :: behind) (before ++ v :: behind) =
      (before.map fun t => between t t) ++ between u v :: behind.map fun t => between t t := by
  rw [betweenLists_append _ _ rfl, betweenLists_cons, betweenLists_self, betweenLists_self]

/-- A frame is shared, whatever it is filled with. -/
theorem betweenLayers_fill (F : Frame Term) (u v : Term) :
    betweenLayers (F.fill u) (F.fill v) =
      some ((F.map fun t => between t t).fill (between u v)) := by
  cases F <;> simp [Frame.fill, Frame.map, betweenLayers, betweenLists_self, betweenLists_hole]

theorem between_fill (C : Context Unit) (u v : Term) :
    between (C.fill u) (C.fill v) = (C.map fun t => between t t).fill (between u v) := by
  induction C with
  | hole => rfl
  | inside F C ih =>
      have hlayers := betweenLayers_fill F (C.fill u) (C.fill v)
      rw [ih] at hlayers
      exact between_node hlayers

/-- What is beside a hole costs nothing between a term and itself. -/
theorem total_map_between_self (ts : List Term) :
    total (ts.map fun t => between t t) = 0 := by
  rw [← betweenLists_self, total_betweenLists_self]

theorem magnitude_fill_between_self (C : Context Unit) (d : Diff) :
    magnitude ((C.map fun t => between t t).fill d) = d.magnitude := by
  induction C with
  | hole => rfl
  | inside F C ih =>
      rw [Context.map, Context.fill, magnitude_eq_total, Frame.children_fill, Frame.before_map,
        Frame.behind_map, total_append, total_cons, total_map_between_self,
        total_map_between_self, ih]
      omega

/-- The diff of two terms that differ in one place has the frames around that place, the diffs of
the terms beside it with themselves, and in the place the diff of what differs: it costs as much as
that diff. -/
theorem between_fill_context (C : Context Unit) (u v : Term) :
    between (C.fill u) (C.fill v) = (C.map fun t => between t t).fill (between u v) ∧
      (between (C.fill u) (C.fill v)).magnitude = (between u v).magnitude := by
  have hbetween := between_fill C u v
  refine ⟨hbetween, ?_⟩
  rw [hbetween, magnitude_fill_between_self]

/-- The second argument of a call is edited, inside a function. -/
example : between (.node (.lambda [] (.node (.apply (.node (.name "f")) [.leaf (), .leaf ()]))))
    (.node (.lambda [] (.node (.apply (.node (.name "f")) [.leaf (), .node (.name "x")])))) =
    .node (.lambda [] (.node (.apply (.node (.name "f"))
      [absent, insert (.node (.name "x"))]))) := rfl

end Diff

end Redline
