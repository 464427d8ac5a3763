import Redline.Diff

/-! # Ranking

Candidates are ranked by what it costs to turn a given term into them, the cheapest first.  The
sort is stable: candidates of equal cost stay in the order in which they were given. -/

namespace Redline

/-- A candidate and the diff that leads to it. -/
structure Ranked (α : Type) where
  candidate : α
  diff : Diff

/-- The candidates by increasing cost, where `term` tells what is compared of each. -/
def rankBy {α : Type} (term : α → Term) (old : Term) (candidates : List α) : List (Ranked α) :=
  (candidates.map fun c => ⟨c, .between old (term c)⟩).mergeSort
    fun a b => (a.diff.compareMagnitude b.diff).isLE

/-- The candidate terms by increasing cost. -/
def rank (old : Term) (candidates : List Term) : List (Ranked Term) := rankBy id old candidates

theorem rankBy_perm {α : Type} (term : α → Term) (old : Term) (candidates : List α) :
    (rankBy term old candidates).Perm (candidates.map fun c => ⟨c, .between old (term c)⟩) :=
  List.mergeSort_perm _ _

end Redline
