import Redline.Diff

/-! # Comparing by position

Lists are compared round by round, and the rounds leave the diffs made before them as they are
(`betweenRest_eq`), so a round adds the diff of the next terms in front of those of the rest
(`betweenLists_cons`).  The diff of two lists then has a place for each position that either list
has (`length_betweenLists`) and shows there what the two have at it (`getElem?_betweenLists`), and
lists of one length in front are compared on their own (`betweenLists_append`).

Where two layers are shared the diff goes on in their children (`between_node`), each of which is a
diff of two children or of one that has no counterpart (`compared_of_shares`), and a layer is shared
with itself (`betweenLayers_self`): so the diff of a term with itself is the term again, without any
replacement (`between_self`).  Main statement on lists: `betweenLists_positional`. -/

namespace Redline.Diff

/-! ### Lists -/

theorem betweenLists_nil : ∀ news : List Term, betweenLists [] news = news.map insert
  | [] => by rw [betweenLists, betweenRest]; rfl
  | new :: news => by rw [betweenLists, betweenRest, List.nil_append]

theorem betweenLists_nil_right : ∀ olds : List Term, betweenLists olds [] = olds.map delete
  | [] => betweenLists_nil []
  | old :: olds => by rw [betweenLists, betweenRest, List.nil_append]

/-- The diffs so far stay in front, whatever is left of the lists. -/
theorem betweenRest_eq (diffs : List Diff) : ∀ olds news : List Term,
    betweenRest diffs olds news = diffs ++ betweenLists olds news
  | [], [] => by rw [betweenLists_nil, betweenRest, List.map_nil, List.append_nil]
  | [], new :: news => by rw [betweenLists_nil, betweenRest]
  | old :: olds, [] => by rw [betweenLists_nil_right, betweenRest]
  | old :: olds, new :: news => by
      rw [betweenLists, betweenRest, betweenRest, betweenRest_eq _ olds news,
        betweenRest_eq _ olds news, List.nil_append, List.append_assoc]

theorem betweenLists_cons (old new : Term) (olds news : List Term) :
    betweenLists (old :: olds) (new :: news) = between old new :: betweenLists olds news := by
  rw [betweenLists, betweenRest, betweenRest_eq]
  rfl

theorem betweenLists_append (olds news : List Term) : ∀ {as bs : List Term},
    as.length = bs.length →
      betweenLists (as ++ olds) (bs ++ news) = betweenLists as bs ++ betweenLists olds news
  | [], [], _ => by rw [betweenLists_nil []]; rfl
  | a :: as, b :: bs, h => by
      have ih := betweenLists_append olds news (Nat.succ.inj h)
      rw [List.cons_append, List.cons_append, betweenLists_cons, betweenLists_cons, ih,
        List.cons_append]

theorem length_betweenLists : ∀ olds news : List Term,
    (betweenLists olds news).length = max olds.length news.length
  | [], news => by rw [betweenLists_nil, List.length_map, List.length_nil, Nat.zero_max]
  | old :: olds, [] => by
      rw [betweenLists_nil_right, List.length_map, List.length_nil, Nat.max_zero]
  | old :: olds, new :: news => by
      have ih := length_betweenLists olds news
      rw [betweenLists_cons, List.length_cons, List.length_cons, List.length_cons, ih]
      omega

/-- The diff of what two lists have at one position: of both elements, or of the one that is
there. -/
def beside : Option Term → Option Term → Option Diff
  | some old, some new => some (between old new)
  | some old, none => some (delete old)
  | none, some new => some (insert new)
  | none, none => none

theorem getElem?_betweenLists : ∀ (olds news : List Term) (i : Nat),
    (betweenLists olds news)[i]? = beside olds[i]? news[i]?
  | [], news, i => by
      rw [betweenLists_nil, List.getElem?_map, List.getElem?_nil]
      cases news[i]? <;> rfl
  | old :: olds, [], i => by
      rw [betweenLists_nil_right, List.getElem?_map, List.getElem?_nil]
      cases (old :: olds)[i]? <;> rfl
  | old :: olds, new :: news, 0 => by rw [betweenLists_cons]; rfl
  | old :: olds, new :: news, i + 1 => by
      rw [betweenLists_cons, List.getElem?_cons_succ, List.getElem?_cons_succ,
        List.getElem?_cons_succ, getElem?_betweenLists olds news i]

/-- The diff of two lists is as long as the longer one and has at each position the diff of what the
lists have there, so it falls apart where two lists of one length end. -/
theorem betweenLists_positional :
    (∀ olds news : List Term, (betweenLists olds news).length = max olds.length news.length) ∧
    (∀ (olds news : List Term) (i : Nat),
      (betweenLists olds news)[i]? = beside olds[i]? news[i]?) ∧
    ∀ olds olds' news news' : List Term, olds.length = news.length →
      betweenLists (olds ++ olds') (news ++ news') =
        betweenLists olds news ++ betweenLists olds' news' :=
  ⟨length_betweenLists, getElem?_betweenLists,
    fun _ olds' _ news' h => betweenLists_append olds' news' h⟩

/-- Two elements that are left over, behind one pair. -/
theorem betweenLists_positional_leftOver :
    betweenLists ([.absent] ++ [.node (.name "x"), .absent]) ([.node (.name "y")] ++ []) =
      betweenLists [.absent] [.node (.name "y")] ++
        betweenLists [.node (.name "x"), .absent] [] ∧
    (betweenLists [.absent, .node (.name "x"), .absent] [.node (.name "y")])[2]? =
      some (delete .absent) :=
  ⟨betweenLists_positional.2.2 _ _ _ _ rfl, betweenLists_positional.2.1 _ _ 2⟩

theorem betweenLists_self (ts : List Term) :
    betweenLists ts ts = ts.map fun t => between t t := by
  induction ts with
  | nil => rw [betweenLists_nil]; rfl
  | cons t ts ih => rw [betweenLists_cons, ih, List.map_cons]

/-! ### Layers -/

theorem between_node {a b : Layer Term} {shared : Layer Diff}
    (h : betweenLayers a b = some shared) : between (.node a) (.node b) = .node shared := by
  rw [between, h]

theorem between_of_none {a b : Layer Term} (h : betweenLayers a b = none) :
    between (.node a) (.node b) = replace (.node a) (.node b) := by
  rw [between, h]

theorem betweenLayers_self (l : Layer Term) :
    betweenLayers l l = some (l.map fun t => between t t) := by
  cases l <;> simp [betweenLayers, Layer.map, betweenLists_self]

/-- The layer that two layers share, with the diffs of their children. -/
inductive Shares : Layer Term → Layer Term → Layer Diff → Prop
  | apply {f g : Term} {xs ys : List Term} :
      Shares (.apply f xs) (.apply g ys) (.apply (between f g) (betweenLists xs ys))
  | lambda {xs ys : List Term} {s t : Term} :
      Shares (.lambda xs s) (.lambda ys t) (.lambda (betweenLists xs ys) (between s t))
  | assign {x : String} {s t : Term} :
      Shares (.assign x s) (.assign x t) (.assign x (between s t))
  | name {x : String} : Shares (.name x) (.name x) (.name x)
  | literal {v : Value} : Shares (.literal v) (.literal v) (.literal v)
  | group {xs ys : List Term} {s t : Term} :
      Shares (.group xs s) (.group ys t) (.group (betweenLists xs ys) (between s t))

theorem shares_of_betweenLayers {a b : Layer Term} {shared : Layer Diff} :
    betweenLayers a b = some shared → Shares a b shared := by
  -- Where the layers disagree they share nothing.
  fun_cases betweenLayers a b <;> rintro ⟨⟩
  · exact .apply
  · exact .lambda
  · exact .assign
  · exact .name
  · exact .literal
  · exact .group

/-! ### Children -/

/-- The diff compares two of the terms, or deletes or inserts one of them. -/
inductive Compared (olds news : List Term) : Diff → Prop
  | between {old new : Term} : old ∈ olds → new ∈ news → Compared olds news (between old new)
  | delete {old : Term} : old ∈ olds → Compared olds news (delete old)
  | insert {new : Term} : new ∈ news → Compared olds news (insert new)

theorem Compared.mono {olds olds' news news' : List Term} {d : Diff} (h : Compared olds news d)
    (hold : olds ⊆ olds') (hnew : news ⊆ news') : Compared olds' news' d := by
  cases h with
  | between ho hn => exact .between (hold ho) (hnew hn)
  | delete ho => exact .delete (hold ho)
  | insert hn => exact .insert (hnew hn)

theorem compared_of_betweenLists : ∀ {olds news : List Term},
    ∀ d ∈ betweenLists olds news, Compared olds news d
  | [], news => by
      rw [betweenLists_nil]
      exact List.forall_mem_map.2 fun _ => .insert
  | old :: olds, [] => by
      rw [betweenLists_nil_right]
      exact List.forall_mem_map.2 fun _ => .delete
  | old :: olds, new :: news => by
      rw [betweenLists_cons]
      refine List.forall_mem_cons.2 ⟨.between List.mem_cons_self List.mem_cons_self, fun d hd => ?_⟩
      exact (compared_of_betweenLists d hd).mono (List.subset_cons_self _ _)
        (List.subset_cons_self _ _)

/-- A list of children with one behind it. -/
theorem compared_concat {olds news : List Term} {old new : Term} :
    ∀ d ∈ betweenLists olds news ++ [between old new],
      Compared (olds ++ [old]) (news ++ [new]) d := by
  refine List.forall_mem_append.2 ⟨fun d hd => ?_, List.forall_mem_singleton.2 ?_⟩
  · exact (compared_of_betweenLists d hd).mono (List.subset_append_left _ _)
      (List.subset_append_left _ _)
  · exact .between (List.mem_append_right olds List.mem_cons_self)
      (List.mem_append_right news List.mem_cons_self)

/-- The children of a shared layer are made of those of the two layers. -/
theorem compared_of_shares {a b : Layer Term} {shared : Layer Diff} (h : Shares a b shared) :
    ∀ d ∈ shared.children, Compared a.children b.children d := by
  cases h with
  | apply =>
      refine List.forall_mem_cons.2 ⟨.between List.mem_cons_self List.mem_cons_self, fun d hd => ?_⟩
      exact (compared_of_betweenLists d hd).mono (List.subset_cons_self _ _)
        (List.subset_cons_self _ _)
  | lambda => exact compared_concat
  | assign => exact List.forall_mem_singleton.2 (.between List.mem_cons_self List.mem_cons_self)
  | name => exact List.forall_mem_nil _
  | literal => exact List.forall_mem_nil _
  | group => exact compared_concat

/-! ### Terms -/

theorem between_self (t : Term) : between t t = t.map fun _ => Change.absent := by
  induction t using Tree.induction with
  | leaf a => rw [between]; rfl
  | node l ih =>
      rw [between_node (betweenLayers_self l), Tree.map_node]
      exact congrArg Tree.node (Layer.map_congr ih)

end Redline.Diff
