import Redline.Diff
import Redline.Proofs.Text.Delimited
import Redline.Proofs.Token.Munch
import Redline.Proofs.Token.Spelling

/-! # Outlines

The outline of a diff determines the diff, whatever the names and texts in it are.  An outline says
where it ends: a text starts with the outline of one diff at most (`delimited_outline`).  This goes
down the tree, a layer at a time: the constructor is told by its name, and each field, list and name
ends where the notation says so (`delimited_layer`).  A value is written as it is in a source, and
its end is seen as the lexer sees it, at the parenthesis behind it (`render_append_inj`).  Main
statement: `outline_eq_iff`. -/

namespace Redline

open Text Token.Lexer

/-! ### Values -/

namespace Value

theorem render_append_inj {v w : Value} {r s : List Char}
    (h : v.render.toList ++ ')' :: r = w.render.toList ++ ')' :: s) : v = w ∧ r = s := by
  have hstop : ∀ (l t : List Char) (d : Char), (')' :: t).head? = some d → runsOn l d = false := by
    rintro l t _ ⟨⟩
    exact runsOn_of_not_isWordPart l rfl
  obtain ⟨htoken, -, hrest⟩ :=
    (lexeme_value v).append_inj (lexeme_value w) (hstop _ r) (hstop _ s) h
  exact ⟨Token.literal.inj htoken, (List.cons.inj hrest).2⟩

end Value

/-! ### Constructors -/

/-- The name has no parenthesis in it, and starts neither as a list ends nor as `Empty` does. -/
structure IsConstructor (c : String) : Prop where
  bare : '(' ∉ c.toList
  head : ∃ a as, c.toList = a :: as ∧ a ≠ ']' ∧ a ≠ 'E'

theorem IsConstructor.head_built {c : String} (hc : IsConstructor c) (xs : List String) :
    ∃ a as, (built c xs).toList = a :: as ∧ a ≠ ']' ∧ a ≠ 'E' := by
  obtain ⟨a, as, h, ha⟩ := hc.head
  exact ⟨a, _, by rw [toList_built, h, List.cons_append], ha⟩

theorem IsConstructor.empty_ne_built {c : String} (hc : IsConstructor c) {xs : List String}
    {r s : List Char} : "Empty".toList ++ r ≠ (built c xs).toList ++ s := by
  intro h
  obtain ⟨a, as, hbuilt, -, ha⟩ := hc.head_built xs
  rw [hbuilt] at h
  exact ha (List.cons.inj h).1.symm

/-! ### Layers -/

namespace Layer

variable {α : Type}

def constructorName : Layer α → String
  | apply _ _ => "Apply"
  | lambda _ _ => "Abstract"
  | assign _ _ => "Assign"
  | name _ => "Variable"
  | literal _ => "Literal"
  | group _ _ => "Group"

def fields : Layer String → List String
  | apply callee arguments => [callee, listed arguments]
  | lambda parameters body => [listed parameters, body]
  | assign x value => [visible x, value]
  | name x => [visible x]
  | literal v => [v.render]
  | group tag value => [listed tag, value]

theorem outline_eq_built (l : Layer String) : l.outline = built l.constructorName l.fields := by
  cases l <;> rfl

theorem isConstructor (l : Layer α) : IsConstructor l.constructorName := by
  constructor <;> cases l <;> simp [constructorName]

/-- A layer is delimited if its children are. -/
theorem delimited_layer {f : α → String} {l : Layer α}
    (hstart : ∀ a, ∃ c cs, (f a).toList = c :: cs ∧ c ≠ ']')
    (h : ∀ c ∈ l.children, Delimited f c) : Delimited (fun l => (l.map f).outline) l := by
  intro m r s heq
  simp only [outline_eq_built] at heq
  obtain ⟨hname, hfields⟩ := built_append_inj (isConstructor _).bare (isConstructor _).bare heq
  cases l with
  | apply c cs =>
      obtain ⟨hc, hcs⟩ := List.forall_mem_cons.1 h
      cases m with
      | apply d ds =>
          obtain ⟨⟨rfl, rfl⟩, hrest⟩ := Delimited.fields hc (delimited_listed hstart hcs) hfields
          exact ⟨rfl, hrest⟩
      | _ => simp [map, constructorName] at hname
  | lambda cs c =>
      obtain ⟨hcs, hc⟩ := List.forall_mem_append.1 h
      have hc := hc c List.mem_cons_self
      cases m with
      | lambda ds d =>
          obtain ⟨⟨rfl, rfl⟩, hrest⟩ := Delimited.fields (delimited_listed hstart hcs) hc hfields
          exact ⟨rfl, hrest⟩
      | _ => simp [map, constructorName] at hname
  | assign x c =>
      have hc := h c List.mem_cons_self
      cases m with
      | assign y d =>
          obtain ⟨⟨rfl, rfl⟩, hrest⟩ := (delimited_visible x).fields hc hfields
          exact ⟨rfl, hrest⟩
      | _ => simp [map, constructorName] at hname
  | name x =>
      cases m with
      | name y =>
          obtain ⟨rfl, hrest⟩ := (delimited_visible x).field hfields
          exact ⟨rfl, hrest⟩
      | _ => simp [map, constructorName] at hname
  | literal v =>
      cases m with
      | literal w =>
          rw [map, map, fields, fields, commaSeparated, commaSeparated,
            String.intercalate_singleton, String.intercalate_singleton] at hfields
          obtain ⟨rfl, hrest⟩ := Value.render_append_inj hfields
          exact ⟨rfl, hrest⟩
      | _ => simp [map, constructorName] at hname
  | group cs c =>
      obtain ⟨hcs, hc⟩ := List.forall_mem_append.1 h
      have hc := hc c List.mem_cons_self
      cases m with
      | group ds d =>
          obtain ⟨⟨rfl, rfl⟩, hrest⟩ := Delimited.fields (delimited_listed hstart hcs) hc hfields
          exact ⟨rfl, hrest⟩
      | _ => simp [map, constructorName] at hname

end Layer

/-! ### Terms -/

namespace Term

theorem head_outline (t : Term) : ∃ c cs, t.outline.toList = c :: cs ∧ c ≠ ']' := by
  match t with
  | .absent => exact ⟨'E', _, rfl, by decide⟩
  | .node l =>
      rw [outline_node, Layer.outline_eq_built]
      obtain ⟨c, cs, h, hc, -⟩ := (l.map outline).isConstructor.head_built _
      exact ⟨c, cs, h, hc⟩

theorem delimited_outline (t : Term) : Delimited outline t := by
  induction t using Tree.induction with
  | leaf =>
      intro u r s h
      match u with
      | .absent => exact ⟨rfl, List.append_cancel_left h⟩
      | .node m =>
          rw [outline_node, Layer.outline_eq_built] at h
          exact absurd h (Layer.isConstructor _).empty_ne_built
  | node l ih =>
      intro u r s h
      match u with
      | .absent =>
          rw [outline_node, Layer.outline_eq_built] at h
          exact absurd h.symm (Layer.isConstructor _).empty_ne_built
      | .node m =>
          rw [outline_node, outline_node] at h
          obtain ⟨rfl, hrest⟩ := Layer.delimited_layer head_outline ih m r s h
          exact ⟨rfl, hrest⟩

end Term

/-! ### Diffs -/

namespace Diff

theorem isConstructor_patch : IsConstructor "Patch" := ⟨by decide, 'P', _, rfl, by decide⟩

theorem isConstructor_copy : IsConstructor "Copy" := ⟨by decide, 'C', _, rfl, by decide⟩

theorem outline_replace (old new : Term) :
    (replace old new).outline = built "Patch" [old.outline, new.outline] := rfl

theorem head_outline (d : Diff) : ∃ c cs, d.outline.toList = c :: cs ∧ c ≠ ']' := by
  match d with
  | .absent => exact ⟨'E', _, rfl, by decide⟩
  | .replace old new =>
      obtain ⟨c, cs, h, hc, -⟩ := isConstructor_patch.head_built [old.outline, new.outline]
      exact ⟨c, cs, h, hc⟩
  | .node l =>
      obtain ⟨c, cs, h, hc, -⟩ := isConstructor_copy.head_built [(l.map outline).outline]
      rw [outline_node]
      exact ⟨c, cs, h, hc⟩

theorem delimited_replace (old new : Term) : Delimited outline (replace old new) := by
  intro e r s h
  rw [outline_replace] at h
  match e with
  | .absent => exact absurd h.symm isConstructor_patch.empty_ne_built
  | .replace old' new' =>
      obtain ⟨-, hfields⟩ := built_append_inj isConstructor_patch.bare isConstructor_patch.bare h
      obtain ⟨⟨rfl, rfl⟩, hrest⟩ :=
        old.delimited_outline.fields new.delimited_outline hfields
      exact ⟨rfl, hrest⟩
  | .node m =>
      rw [outline_node] at h
      obtain ⟨hname, -⟩ := built_append_inj isConstructor_patch.bare isConstructor_copy.bare h
      exact absurd hname (by decide)

theorem delimited_outline (d : Diff) : Delimited outline d := by
  induction d using Tree.induction with
  | leaf change =>
      match change with
      | .replace old new => exact delimited_replace old new
      | .absent =>
          intro e r s h
          match e with
          | .absent => exact ⟨rfl, List.append_cancel_left h⟩
          | .replace old new => exact absurd h isConstructor_patch.empty_ne_built
          | .node m =>
              rw [outline_node] at h
              exact absurd h isConstructor_copy.empty_ne_built
  | node l ih =>
      intro e r s h
      match e with
      | .absent =>
          rw [outline_node] at h
          exact absurd h.symm isConstructor_copy.empty_ne_built
      | .replace old new =>
          obtain ⟨hsame, hrest⟩ := delimited_replace old new (.node l) s r h.symm
          exact ⟨hsame.symm, hrest.symm⟩
      | .node m =>
          rw [outline_node, outline_node] at h
          obtain ⟨-, hfields⟩ := built_append_inj isConstructor_copy.bare isConstructor_copy.bare h
          obtain ⟨rfl, hrest⟩ :=
            Delimited.field (Layer.delimited_layer head_outline ih) hfields
          exact ⟨rfl, hrest⟩

/-- The outline of a diff determines the diff. -/
theorem outline_eq_iff {d e : Diff} : d.outline = e.outline ↔ d = e := by
  refine ⟨fun h => ?_, congrArg outline⟩
  exact (delimited_outline d e [] [] (by rw [h])).1

end Diff

end Redline
