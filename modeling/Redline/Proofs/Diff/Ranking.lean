import Mathlib.Data.List.FinRange
import Mathlib.Data.List.Sort
import Redline.Diff.Rank
import Redline.Proofs.Diff.Cost

/-! # The order of a ranking

A ranking is by increasing cost (`pairwise_rankBy`), and the candidates of one cost are those that
were given, in the order in which they were given (`filter_rankBy`).  Candidates may be equal, so
their order is told by the places at which they were given: there is one order of the places that
is by cost and otherwise stays as it was (`StableOrder.unique`), and a ranking lists the candidates
at these places (`rank_eq_map`).  What costs nothing equals the given term, so the candidates that
equal it come first.  Main statement: `rank_iff_stableOrder`. -/

namespace Redline

open Diff

/-! ### Rankings of anything -/

/-- The same diff as the way to another candidate. -/
def Ranked.map {α β : Type} (f : α → β) (r : Ranked α) : Ranked β := ⟨f r.candidate, r.diff⟩

section RankBy

variable {α β : Type}

theorem cheaper_trans (a b c : Ranked α) (hab : (a.diff.compareMagnitude b.diff).isLE = true)
    (hbc : (b.diff.compareMagnitude c.diff).isLE = true) :
    (a.diff.compareMagnitude c.diff).isLE = true := by
  rw [isLE_compareMagnitude] at hab hbc ⊢
  exact Nat.le_trans hab hbc

theorem cheaper_total (a b : Ranked α) : ((a.diff.compareMagnitude b.diff).isLE ||
    (b.diff.compareMagnitude a.diff).isLE) = true := by
  rw [Bool.or_eq_true, isLE_compareMagnitude, isLE_compareMagnitude]
  exact Nat.le_total _ _

variable (term : α → Term) (old : Term) (candidates : List α)

theorem pairwise_rankBy :
    (rankBy term old candidates).Pairwise fun a b => a.diff.magnitude ≤ b.diff.magnitude := by
  have h := List.pairwise_mergeSort cheaper_trans cheaper_total
    (candidates.map fun c => (⟨c, .between old (term c)⟩ : Ranked α))
  exact h.imp isLE_compareMagnitude.1

/-- Candidates of equal cost stay in the order in which they were given. -/
theorem filter_rankBy (n : Nat) :
    (rankBy term old candidates).filter (·.diff.magnitude = n) =
      (candidates.map fun c => (⟨c, .between old (term c)⟩ : Ranked α)).filter
        (·.diff.magnitude = n) := by
  have hperm := (rankBy_perm term old candidates).filter (·.diff.magnitude = n)
  unfold rankBy at hperm ⊢
  generalize (candidates.map fun c => (⟨c, .between old (term c)⟩ : Ranked α)) = given at hperm ⊢
  have hequal : (given.filter (·.diff.magnitude = n)).Pairwise fun a b =>
      (a.diff.compareMagnitude b.diff).isLE = true := by
    refine List.pairwise_of_forall_mem_list fun a ha b hb => ?_
    simp only [List.mem_filter, decide_eq_true_eq] at ha hb
    exact isLE_compareMagnitude.2 (Nat.le_of_eq (ha.2.trans hb.2.symm))
  -- What is in order already is found in the sorted list as it is.
  have hsublist := (List.sublist_mergeSort cheaper_trans cheaper_total hequal
    List.filter_sublist).filter (·.diff.magnitude = n)
  rw [List.filter_filter] at hsublist
  simp only [Bool.and_self] at hsublist
  exact (hsublist.eq_of_length hperm.length_eq.symm).symm

theorem of_mem_rankBy {r : Ranked α} (h : r ∈ rankBy term old candidates) :
    r.candidate ∈ candidates ∧ r.diff = .between old (term r.candidate) := by
  obtain ⟨c, hc, rfl⟩ := List.mem_map.1 ((rankBy_perm term old candidates).mem_iff.1 h)
  exact ⟨hc, rfl⟩

theorem length_rankBy : (rankBy term old candidates).length = candidates.length := by
  rw [(rankBy_perm term old candidates).length_eq, List.length_map]

/-- Only the terms of the candidates decide how they are ranked. -/
theorem map_rankBy (f : β → α) (labels : List β) :
    (rankBy (fun b => term (f b)) old labels).map (Ranked.map f) =
      rankBy term old (labels.map f) := by
  refine (List.map_mergeSort (f := Ranked.map f)
    (s := fun a b => (a.diff.compareMagnitude b.diff).isLE) fun _ _ _ _ => rfl).trans ?_
  rw [List.map_map, rankBy, List.map_map]
  rfl

end RankBy

/-! ### Rankings of terms -/

section Rank

variable (old : Term) (candidates : List Term)

/-- The candidate at a place and the diff that leads to it. -/
def rankedAt (i : Fin candidates.length) : Ranked Term :=
  ⟨candidates[i], .between old candidates[i]⟩

def costAt (i : Fin candidates.length) : Nat := (rankedAt old candidates i).diff.magnitude

/-- Each place once, by increasing cost, and places of equal cost as they were given. -/
structure StableOrder (places : List (Fin candidates.length)) : Prop where
  perm : places.Perm (List.finRange candidates.length)
  increasing : places.Pairwise fun i j => costAt old candidates i ≤ costAt old candidates j
  stable : places.Pairwise fun i j => costAt old candidates i = costAt old candidates j → i < j

/-- The places of the candidates as these are ranked. -/
def rankedPlaces : List (Fin candidates.length) :=
  (rankBy (fun i : Fin candidates.length => candidates[i]) old
    (List.finRange candidates.length)).map (·.candidate)

/-- The candidates are listed as their places are ranked. -/
theorem rank_eq_map :
    rank old candidates = (rankedPlaces old candidates).map (rankedAt old candidates) := by
  have hlabels := map_rankBy id old (fun i : Fin candidates.length => candidates[i])
    (List.finRange candidates.length)
  have hcandidates : (List.finRange candidates.length).map (fun i => candidates[i]) = candidates :=
    List.map_getElem_finRange candidates
  rw [hcandidates] at hlabels
  rw [rank, ← hlabels, rankedPlaces, List.map_map]
  refine List.map_congr_left fun r hr => ?_
  rw [Ranked.map, (of_mem_rankBy _ _ _ hr).2]
  rfl

theorem costAt_eq_zero_iff {i : Fin candidates.length} :
    costAt old candidates i = 0 ↔ candidates[i] = old := by
  rw [eq_comm (b := old)]
  constructor
  · exact eq_of_magnitude_between
  · intro h
    rw [costAt, rankedAt, ← h]
    exact magnitude_between_self old

theorem magnitude_of_mem_rankBy {r : Ranked (Fin candidates.length)}
    (h : r ∈ rankBy (fun i : Fin candidates.length => candidates[i]) old
      (List.finRange candidates.length)) :
    r.diff.magnitude = costAt old candidates r.candidate := by
  rw [(of_mem_rankBy _ _ _ h).2]
  rfl

theorem filter_rankedPlaces (n : Nat) :
    (rankedPlaces old candidates).filter (fun i => costAt old candidates i = n) =
      (List.finRange candidates.length).filter fun i => costAt old candidates i = n := by
  have hfilter := congrArg (List.map (·.candidate)) <|
    filter_rankBy (fun i : Fin candidates.length => candidates[i]) old
      (List.finRange candidates.length) n
  rw [List.filter_map, List.map_map] at hfilter
  rw [rankedPlaces, List.filter_map, List.filter_congr (q := fun r => r.diff.magnitude = n),
    hfilter]
  · exact List.map_id _
  · intro r hr
    rw [Function.comp_apply, magnitude_of_mem_rankBy old candidates hr]

theorem stableOrder_rankedPlaces : StableOrder old candidates (rankedPlaces old candidates) where
  perm := by
    have hperm := (rankBy_perm (fun i : Fin candidates.length => candidates[i]) old
      (List.finRange candidates.length)).map (·.candidate)
    rw [List.map_map] at hperm
    exact hperm.trans (.of_eq (List.map_id _))
  increasing := by
    refine List.pairwise_map.2 <| (pairwise_rankBy _ old _).imp_of_mem fun ha hb hab => ?_
    rwa [magnitude_of_mem_rankBy old candidates ha, magnitude_of_mem_rankBy old candidates hb]
      at hab
  stable := by
    rw [List.pairwise_iff_forall_sublist]
    intro i j hsublist hcost
    have hfiltered := hsublist.filter fun k => costAt old candidates k = costAt old candidates i
    rw [filter_rankedPlaces] at hfiltered
    simp only [List.filter_cons, hcost, decide_true, if_true, List.filter_nil] at hfiltered
    have hplaces := hfiltered.trans List.filter_sublist
    exact List.pairwise_iff_forall_sublist.1 (List.pairwise_lt_finRange _) hplaces

variable {old candidates}

/-- There is one stable order. -/
theorem StableOrder.unique {places others : List (Fin candidates.length)}
    (h : StableOrder old candidates places) (h' : StableOrder old candidates others) :
    places = others := by
  refine (h.perm.trans h'.perm.symm).eq_of_pairwise (fun i j _ _ hij hji => ?_)
    (h.increasing.and h.stable) (h'.increasing.and h'.stable)
  have hcost := Nat.le_antisymm hij.1 hji.1
  exact absurd (hij.2 hcost) (Fin.lt_asymm (hji.2 hcost.symm))

/-- The candidates that equal the given term are in front, as they were given. -/
theorem StableOrder.eq_append {places : List (Fin candidates.length)}
    (h : StableOrder old candidates places) :
    places = ((List.finRange candidates.length).filter fun i => candidates[i] = old) ++
      places.filter fun i => candidates[i] ≠ old := by
  have hordered : ((List.finRange candidates.length).filter fun i => candidates[i] = old).Pairwise
      (· < ·) := (List.pairwise_lt_finRange _).filter _
  have hfree : ∀ i ∈ (List.finRange candidates.length).filter fun i => candidates[i] = old,
      costAt old candidates i = 0 := fun i hi =>
    (costAt_eq_zero_iff old candidates).2 (of_decide_eq_true (List.mem_filter.1 hi).2)
  have hpaid : ∀ i ∈ places.filter fun i => candidates[i] ≠ old, costAt old candidates i ≠ 0 :=
    fun i hi hzero => of_decide_eq_true (List.mem_filter.1 hi).2
      ((costAt_eq_zero_iff old candidates).1 hzero)
  refine h.unique ⟨?_, ?_, ?_⟩
  · have hsplit := List.filter_append_perm (fun i => decide (candidates[i] = old)) places
    simp only [← decide_not] at hsplit
    exact (((h.perm.filter _).symm.append_right _).trans hsplit).trans h.perm
  · refine List.pairwise_append.2 ⟨hordered.imp_of_mem fun hi _ _ => ?_, h.increasing.filter _,
      fun i hi j _ => ?_⟩
    · rw [hfree _ hi]
      exact Nat.zero_le _
    · rw [hfree i hi]
      exact Nat.zero_le _
  · refine List.pairwise_append.2 ⟨hordered.imp ?_, h.stable.filter _, fun i hi j hj hcost => ?_⟩
    · intro i j hij _
      exact hij
    · rw [hfree i hi] at hcost
      exact absurd hcost.symm (hpaid j hj)

end Rank

/-- A ranking lists the candidates with their diffs by increasing cost and otherwise in the order in
which they were given, and there is one order like that.  The candidates that equal the given term
come before all others. -/
theorem rank_iff_stableOrder (old : Term) (candidates : List Term) :
    (rank old candidates).Perm (candidates.map fun c => ⟨c, between old c⟩) ∧
    (rank old candidates).Pairwise (fun a b => a.diff.magnitude ≤ b.diff.magnitude) ∧
    (∀ ranking, rank old candidates = ranking ↔ ∃ places, StableOrder old candidates places ∧
      ranking = places.map (rankedAt old candidates)) ∧
    ∃ places, (∀ others, StableOrder old candidates others ↔ others = places) ∧
      places = ((List.finRange candidates.length).filter fun i => candidates[i] = old) ++
        places.filter fun i => candidates[i] ≠ old := by
  have hstable := stableOrder_rankedPlaces old candidates
  refine ⟨rankBy_perm id old candidates, pairwise_rankBy id old candidates, fun ranking => ?_,
    rankedPlaces old candidates, fun others => ?_, hstable.eq_append⟩
  · rw [rank_eq_map]
    constructor
    · rintro rfl
      exact ⟨_, hstable, rfl⟩
    · rintro ⟨places, hplaces, rfl⟩
      rw [hstable.unique hplaces]
  · constructor
    · intro h
      exact h.unique hstable
    · rintro rfl
      exact hstable

/-- Of two candidates that equal the given term, the one that was given first is the first. -/
example : rankedPlaces (.node (.name "x"))
    [.node (.name "y"), .node (.name "x"), .absent, .node (.name "x")] = [1, 3, 0, 2] :=
  (stableOrder_rankedPlaces _ _).unique ⟨by decide, by decide, by decide⟩

end Redline
