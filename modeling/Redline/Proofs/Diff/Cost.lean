import Redline.Proofs.Diff.Alignment

/-! # What a diff costs

Nothing is replaced between a term and itself (`magnitude_between_self`), and where nothing is
replaced the terms are the same: of two layers that are shared the children are, one by one, and of
two lists the elements (`eq_of_magnitude_between`).  A list costs at least one replacement for each
element that the other list does not reach, whatever the element is (`length_le_total`).  Main
statement: `magnitude_between_eq_zero_iff`. -/

namespace Redline.Diff

/-- The number of replacements in all diffs of a list. -/
def total (ds : List Diff) : Nat := (ds.map magnitude).foldr (· + ·) 0

@[simp] theorem total_nil : total [] = 0 := rfl

@[simp] theorem total_cons (d : Diff) (ds : List Diff) :
    total (d :: ds) = d.magnitude + total ds := rfl

@[simp] theorem total_append (ds es : List Diff) : total (ds ++ es) = total ds + total es := by
  induction ds with
  | nil => simp
  | cons d ds ih =>
      rw [List.cons_append, total_cons, total_cons, ih]
      omega

theorem magnitude_eq_total (l : Layer Diff) : magnitude (.node l) = total l.children :=
  magnitude_node l

/-- One replacement for each element. -/
theorem total_map {f : Term → Diff} (hf : ∀ t, (f t).magnitude = 1) (ts : List Term) :
    total (ts.map f) = ts.length := by
  induction ts with
  | nil => rfl
  | cons t ts ih =>
      rw [List.map_cons, total_cons, ih, hf, List.length_cons]
      omega

theorem total_eq_zero {ds : List Diff} (h : ∀ d ∈ ds, d.magnitude = 0) : total ds = 0 := by
  induction ds with
  | nil => rfl
  | cons d ds ih =>
      obtain ⟨hd, hds⟩ := List.forall_mem_cons.1 h
      rw [total_cons, hd, ih hds]

/-! ### A term and itself -/

theorem magnitude_between_self (t : Term) : (between t t).magnitude = 0 := by
  rw [between_self]
  induction t using Tree.induction with
  | leaf a => rfl
  | node l ih =>
      rw [Tree.map_node, magnitude_eq_total, Layer.children_map]
      refine total_eq_zero fun d hd => ?_
      obtain ⟨c, hc, rfl⟩ := List.mem_map.1 hd
      exact ih c hc

theorem total_betweenLists_self (ts : List Term) : total (betweenLists ts ts) = 0 := by
  rw [betweenLists_self]
  refine total_eq_zero fun d hd => ?_
  obtain ⟨t, -, rfl⟩ := List.mem_map.1 hd
  exact magnitude_between_self t

/-! ### Diffs that cost nothing -/

mutual

theorem eq_of_magnitude_between : ∀ {old new : Term}, (between old new).magnitude = 0 → old = new
  | .absent, .absent, _ => rfl
  | .absent, .node _, h => nomatch h
  | .node _, .absent, h => nomatch h
  | .node a, .node b, h => by
      cases hab : betweenLayers a b with
      | none =>
          rw [between_of_none hab] at h
          cases h
      | some shared =>
          rw [between_node hab, magnitude_eq_total] at h
          exact congrArg Tree.node (eq_of_shares (shares_of_betweenLayers hab) h)

theorem eq_of_shares {a b : Layer Term} {shared : Layer Diff} (hshares : Shares a b shared)
    (h : total shared.children = 0) : a = b := by
  cases hshares with
  | apply =>
      obtain ⟨hf, hxs⟩ := Nat.add_eq_zero_iff.1 h
      rw [eq_of_magnitude_between hf, eq_of_total_betweenLists hxs]
  | lambda =>
      rw [Layer.children, total_append] at h
      obtain ⟨hxs, hs⟩ := Nat.add_eq_zero_iff.1 h
      rw [eq_of_total_betweenLists hxs, eq_of_magnitude_between hs]
  | assign => rw [eq_of_magnitude_between h]
  | name => rfl
  | literal => rfl
  | group =>
      rw [Layer.children, total_append] at h
      obtain ⟨hxs, hs⟩ := Nat.add_eq_zero_iff.1 h
      rw [eq_of_total_betweenLists hxs, eq_of_magnitude_between hs]

theorem eq_of_total_betweenLists : ∀ {olds news : List Term},
    total (betweenLists olds news) = 0 → olds = news
  | [], news, h => by
      rw [betweenLists_nil, total_map fun _ => rfl] at h
      exact (List.length_eq_zero_iff.1 h).symm
  | old :: olds, [], h => by
      rw [betweenLists_nil_right, total_map fun _ => rfl] at h
      cases h
  | old :: olds, new :: news, h => by
      rw [betweenLists_cons, total_cons] at h
      obtain ⟨hhead, htail⟩ := Nat.add_eq_zero_iff.1 h
      rw [eq_of_magnitude_between hhead, eq_of_total_betweenLists htail]

end

/-! ### Lists of different lengths -/

theorem length_le_total : ∀ olds news : List Term,
    olds.length ≤ news.length + total (betweenLists olds news) ∧
      news.length ≤ olds.length + total (betweenLists olds news)
  | [], news => by
      rw [betweenLists_nil, total_map fun _ => rfl]
      simp
  | old :: olds, [] => by
      rw [betweenLists_nil_right, total_map fun _ => rfl]
      simp
  | old :: olds, new :: news => by
      have ih := length_le_total olds news
      rw [betweenLists_cons, total_cons, List.length_cons, List.length_cons]
      omega

/-- A diff costs nothing if and only if the two terms are the same, and so do the diffs of two
lists, which cost at least as much as the lists differ in length. -/
theorem magnitude_between_eq_zero_iff :
    (∀ old new : Term, (between old new).magnitude = 0 ↔ old = new) ∧
    ∀ olds news : List Term, (total (betweenLists olds news) = 0 ↔ olds = news) ∧
      olds.length - news.length ≤ total (betweenLists olds news) ∧
      news.length - olds.length ≤ total (betweenLists olds news) := by
  refine ⟨fun old new => ⟨eq_of_magnitude_between, ?_⟩, fun olds news => ⟨⟨?_, ?_⟩, ?_⟩⟩
  · rintro rfl
    exact magnitude_between_self old
  · exact eq_of_total_betweenLists
  · rintro rfl
    exact total_betweenLists_self olds
  · have hlength := length_le_total olds news
    omega

/-- An absent element that is left over costs as much as any other. -/
example : total (betweenLists [.absent] []) = 1 := rfl

end Redline.Diff
