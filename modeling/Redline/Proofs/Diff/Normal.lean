import Redline.Proofs.Diff.Alignment
import Redline.Proofs.Diff.Sides

/-! # Normal diffs

Which diffs there are between terms at all.  A replacement is made only where there is something to
replace and the roots of the two terms do not agree (`Term.rootsAgree`); in a list, paired elements
come first, and behind them only deletions or only insertions are left over, of absent elements as
well.  These diffs are `Normal`.  Each diff of two terms is normal, by induction along the
comparison (`normal_between`), and each normal diff is one, since terms for its parts are put
together to terms for the whole (`exists_between_of_normal`).  So no replacement of two terms whose
roots agree is anywhere in a diff of terms.  Main statement: `exists_between_iff_normal`. -/

namespace Redline

namespace Layer

variable {α : Type}

/-- The children of a layer that are not elements of a list. -/
def scalars : Layer α → List α
  | apply callee _ => [callee]
  | lambda _ body => [body]
  | assign _ value => [value]
  | group _ value => [value]
  | _ => []

/-- Whether the layers are built by the same constructor and carry the same name or value. -/
def agrees : Layer α → Layer α → Bool
  | apply _ _, apply _ _ => true
  | lambda _ _, lambda _ _ => true
  | assign x _, assign y _ => x = y
  | name x, name y => x = y
  | literal v, literal w => v = w
  | group _ _, group _ _ => true
  | _, _ => false

theorem mem_children_iff {a : α} {l : Layer α} : a ∈ l.children ↔ a ∈ l.scalars ∨ a ∈ l.listed := by
  cases l <;> simp [children, scalars, listed, or_comm]

end Layer

/-- Whether both terms are there and their outermost layers agree. -/
def Term.rootsAgree : Term → Term → Bool
  | .node a, .node b => a.agrees b
  | _, _ => false

namespace Diff

/-- All of the diffs are deletions, or all of them are insertions. -/
def OneSided (ds : List Diff) : Prop :=
  (∃ olds : List Term, ds = olds.map delete) ∨ ∃ news : List Term, ds = news.map insert

inductive Normal : Diff → Prop
  | absent : Normal absent
  | replace {old new : Term} :
      ¬ (old = .absent ∧ new = .absent) → old.rootsAgree new = false → Normal (replace old new)
  | node {l : Layer Diff} {paired surplus : List Diff} :
      (∀ d ∈ l.scalars, Normal d) → l.listed = paired ++ surplus → (∀ d ∈ paired, Normal d) →
        OneSided surplus → Normal (.node l)

/-- The change is at some depth in the diff. -/
inductive Makes (c : Change) : Diff → Prop
  | leaf : Makes c (.leaf c)
  | node {l : Layer Diff} {d : Diff} : d ∈ l.children → Makes c d → Makes c (.node l)

/-! ### Diffs of terms are normal -/

theorem betweenLayers_eq_none_iff {a b : Layer Term} :
    betweenLayers a b = none ↔ a.agrees b = false := by
  cases a <;> cases b <;> simp [betweenLayers, Layer.agrees]

/-- Terms that share no layer are replaced. -/
theorem between_of_not_rootsAgree : ∀ {old new : Term}, ¬ (old = .absent ∧ new = .absent) →
    old.rootsAgree new = false → between old new = replace old new
  | .absent, .absent, hpresent, _ => absurd ⟨rfl, rfl⟩ hpresent
  | .absent, .node _, _, _ => rfl
  | .node _, .absent, _, _ => rfl
  | .node _, .node _, _, hroots => between_of_none (betweenLayers_eq_none_iff.2 hroots)

theorem Normal.of_listed_eq_nil {l : Layer Diff} (hscalars : ∀ d ∈ l.scalars, Normal d)
    (hlisted : l.listed = []) : Normal (.node l) := by
  rw [← List.append_nil []] at hlisted
  exact .node hscalars hlisted nofun (.inl ⟨[], rfl⟩)

mutual

theorem normal_between : ∀ old new : Term, Normal (between old new)
  | .absent, .absent => .absent
  | .absent, .node _ => .replace nofun rfl
  | .node _, .absent => .replace nofun rfl
  | .node a, .node b => by
      cases hab : betweenLayers a b with
      | none =>
          rw [between_of_none hab]
          exact .replace nofun (betweenLayers_eq_none_iff.1 hab)
      | some shared =>
          rw [between_node hab]
          exact normal_of_shares (shares_of_betweenLayers hab)

theorem normal_of_shares {a b : Layer Term} {shared : Layer Diff} (h : Shares a b shared) :
    Normal (.node shared) := by
  cases h with
  | @apply f g xs ys =>
      obtain ⟨paired, surplus, hlisted, hpaired, hsurplus⟩ := betweenLists_eq_append xs ys
      exact .node (List.forall_mem_singleton.2 (normal_between f g)) hlisted hpaired hsurplus
  | @lambda xs ys s t =>
      obtain ⟨paired, surplus, hlisted, hpaired, hsurplus⟩ := betweenLists_eq_append xs ys
      exact .node (List.forall_mem_singleton.2 (normal_between s t)) hlisted hpaired hsurplus
  | @assign x s t =>
      exact .of_listed_eq_nil (List.forall_mem_singleton.2 (normal_between s t)) rfl
  | name => exact .of_listed_eq_nil nofun rfl
  | literal => exact .of_listed_eq_nil nofun rfl
  | @group xs ys s t =>
      obtain ⟨paired, surplus, hlisted, hpaired, hsurplus⟩ := betweenLists_eq_append xs ys
      exact .node (List.forall_mem_singleton.2 (normal_between s t)) hlisted hpaired hsurplus

/-- Lists are paired as far as the shorter one goes. -/
theorem betweenLists_eq_append : ∀ olds news : List Term, ∃ paired surplus,
    betweenLists olds news = paired ++ surplus ∧ (∀ d ∈ paired, Normal d) ∧ OneSided surplus
  | [], news => ⟨[], news.map insert, betweenLists_nil news, nofun, .inr ⟨news, rfl⟩⟩
  | old :: olds, [] =>
      ⟨[], (old :: olds).map delete, betweenLists_nil_right _, nofun, .inl ⟨old :: olds, rfl⟩⟩
  | old :: olds, new :: news => by
      obtain ⟨paired, surplus, hlists, hpaired, hsurplus⟩ := betweenLists_eq_append olds news
      refine ⟨between old new :: paired, surplus, ?_, ?_, hsurplus⟩
      · rw [betweenLists_cons, hlists, List.cons_append]
      · exact List.forall_mem_cons.2 ⟨normal_between old new, hpaired⟩

end

/-! ### Normal diffs are of terms -/

theorem exists_betweenLists {paired surplus : List Diff}
    (hpaired : ∀ d ∈ paired, ∃ old new, between old new = d) (hsurplus : OneSided surplus) :
    ∃ olds news, betweenLists olds news = paired ++ surplus := by
  induction paired with
  | nil =>
      rcases hsurplus with ⟨olds, rfl⟩ | ⟨news, rfl⟩
      · exact ⟨olds, [], betweenLists_nil_right olds⟩
      · exact ⟨[], news, betweenLists_nil news⟩
  | cons d paired ih =>
      obtain ⟨⟨old, new, rfl⟩, hrest⟩ := List.forall_mem_cons.1 hpaired
      obtain ⟨olds, news, hlists⟩ := ih hrest
      exact ⟨old :: olds, new :: news, by rw [betweenLists_cons, hlists, List.cons_append]⟩

/-- Terms for the parts of a layer make up terms for the layer. -/
theorem exists_betweenLayers {l : Layer Diff}
    (hscalars : ∀ d ∈ l.scalars, ∃ old new, between old new = d)
    (hlisted : ∃ olds news, betweenLists olds news = l.listed) :
    ∃ a b, betweenLayers a b = some l := by
  cases l with
  | apply d ds =>
      obtain ⟨old, new, rfl⟩ := hscalars d List.mem_cons_self
      obtain ⟨olds, news, rfl⟩ := hlisted
      exact ⟨.apply old olds, .apply new news, rfl⟩
  | lambda ds d =>
      obtain ⟨old, new, rfl⟩ := hscalars d List.mem_cons_self
      obtain ⟨olds, news, rfl⟩ := hlisted
      exact ⟨.lambda olds old, .lambda news new, rfl⟩
  | assign x d =>
      obtain ⟨old, new, rfl⟩ := hscalars d List.mem_cons_self
      exact ⟨.assign x old, .assign x new, if_pos rfl⟩
  | name x => exact ⟨.name x, .name x, if_pos rfl⟩
  | literal v => exact ⟨.literal v, .literal v, if_pos rfl⟩
  | group ds d =>
      obtain ⟨old, new, rfl⟩ := hscalars d List.mem_cons_self
      obtain ⟨olds, news, rfl⟩ := hlisted
      exact ⟨.group olds old, .group news new, rfl⟩

theorem exists_between_of_normal {d : Diff} (h : Normal d) : ∃ old new, between old new = d := by
  induction h with
  | absent => exact ⟨.absent, .absent, rfl⟩
  | replace hpresent hroots => exact ⟨_, _, between_of_not_rootsAgree hpresent hroots⟩
  | node _ hlisted _ hsurplus hscalars hpaired =>
      have hlists := exists_betweenLists hpaired hsurplus
      rw [← hlisted] at hlists
      obtain ⟨a, b, hab⟩ := exists_betweenLayers hscalars hlists
      exact ⟨.node a, .node b, between_node hab⟩

/-! ### Replacements in normal diffs -/

/-- Roots that agree are kept. -/
theorem rootsAgree_of_makes {d : Diff} (h : Normal d) {a b : Term}
    (hmakes : Makes (.replace a b) d) : a.rootsAgree b = false := by
  induction h with
  | absent => cases hmakes
  | replace _ hroots =>
      cases hmakes
      exact hroots
  | node _ hlisted _ hsurplus hscalars hpaired =>
      cases hmakes with
      | node hmem hmakes =>
          rw [Layer.mem_children_iff, hlisted, List.mem_append] at hmem
          rcases hmem with hmem | hmem | hmem
          · exact hscalars _ hmem hmakes
          · exact hpaired _ hmem hmakes
          · rcases hsurplus with ⟨olds, rfl⟩ | ⟨news, rfl⟩
            · obtain ⟨old, -, rfl⟩ := List.mem_map.1 hmem
              cases hmakes
              cases a <;> rfl
            · obtain ⟨new, -, rfl⟩ := List.mem_map.1 hmem
              cases hmakes
              rfl

/-- The normal diffs are the diffs of terms, and nowhere in them are two terms whose roots agree
replaced by one another. -/
theorem exists_between_iff_normal :
    (∀ d : Diff, (∃ old new, between old new = d) ↔ Normal d) ∧
    ∀ old new a b : Term, a.rootsAgree b = true → ¬ Makes (.replace a b) (between old new) := by
  refine ⟨fun d => ⟨?_, exists_between_of_normal⟩, fun old new a b hroots hmakes => ?_⟩
  · rintro ⟨old, new, rfl⟩
    exact normal_between old new
  · rw [rootsAgree_of_makes (normal_between old new) hmakes] at hroots
    cases hroots

/-- An absent element may only be left over, and assignments to the same name do not replace one
another. -/
theorem exists_between_absent_surplus :
    (∃ old new, between old new = .node (.apply absent [absent, delete Term.absent])) ∧
    (¬ ∃ old new, between old new = replace Term.absent Term.absent) ∧
    Term.rootsAgree (.node (.assign "x" Term.absent)) (.node (.assign "x" (.node (.name "y")))) ∧
    ¬ Makes (.replace (.node (.assign "x" Term.absent)) (.node (.assign "x" (.node (.name "y")))))
      (between (.node (.assign "x" Term.absent)) (.node (.assign "x" (.node (.name "y"))))) := by
  have hlisted : (Layer.apply absent [absent, delete Term.absent]).listed =
      [absent] ++ [delete Term.absent] := rfl
  have hsurplus : Normal (.node (.apply absent [absent, delete Term.absent])) :=
    .node (List.forall_mem_singleton.2 .absent) hlisted (List.forall_mem_singleton.2 .absent)
      (.inl ⟨[Term.absent], rfl⟩)
  obtain ⟨hnormal, hkept⟩ := exists_between_iff_normal
  refine ⟨(hnormal _).2 hsurplus, fun h => ?_, rfl, hkept _ _ _ _ rfl⟩
  cases (hnormal _).1 h with
  | replace hpresent => exact hpresent ⟨rfl, rfl⟩

end Diff

end Redline
