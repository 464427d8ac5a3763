import Redline.Proofs.Diff.Alignment
import Redline.Proofs.Term.Printing

/-! # Markup on one line

What is written of well-named terms stands on one line and has no tab in it: a rendering consists of
names, values and the marks between them, and in a value the characters that would break a line are
escaped (`flat_value`).  The diff of two terms holds no names but theirs (`Diff.wellNamed_between`),
so its markup is flat as well (`Diff.flat_render`). -/

namespace Redline

/-! ### Flat texts -/

namespace Text

/-- The text has no tab and no line break in it. -/
def Flat (s : String) : Prop := ∀ c ∈ s.toList, c ≠ '\t' ∧ c ≠ '\n'

instance (s : String) : Decidable (Flat s) :=
  List.decidableBAll (fun c => c ≠ '\t' ∧ c ≠ '\n') s.toList

theorem Flat.tab_notMem {s : String} (h : Flat s) : '\t' ∉ s.toList := fun hmem =>
  (h '\t' hmem).1 rfl

theorem Flat.newline_notMem {s : String} (h : Flat s) : '\n' ∉ s.toList := fun hmem =>
  (h '\n' hmem).2 rfl

theorem flat_append {s t : String} : Flat (s ++ t) ↔ Flat s ∧ Flat t := by
  rw [Flat, String.toList_append]
  exact List.forall_mem_append

theorem flat_intercalate {separator : String} (h : Flat separator) : ∀ {ss : List String},
    (∀ s ∈ ss, Flat s) → Flat (separator.intercalate ss)
  | [], _ => by
      rw [String.intercalate_nil]
      decide
  | [s], hs => by
      rw [String.intercalate_singleton]
      exact hs s List.mem_cons_self
  | s :: t :: ss, hs => by
      obtain ⟨hs, hrest⟩ := List.forall_mem_cons.1 hs
      rw [String.intercalate_cons_cons]
      exact flat_append.2 ⟨flat_append.2 ⟨hs, h⟩, flat_intercalate h hrest⟩

end Text

open Text Token.Lexer

/-! ### Names and values -/

theorem ne_of_isWordPart {c : Char} (h : isWordPart c = true) : c ≠ '\t' ∧ c ≠ '\n' := by
  constructor <;> rintro rfl <;> cases h

theorem flat_name {x : String} (h : IsName x) : Flat x := by
  obtain ⟨⟨c, cs, hx, hc, hcs⟩, -⟩ := h
  rw [Flat, hx]
  exact List.forall_mem_cons.2 ⟨ne_of_isWordPart (isWordPart_of_isWordStart hc),
    fun d hd => ne_of_isWordPart (hcs d hd)⟩

theorem flat_escapeLiteral (c : Char) : ∀ d ∈ escapeLiteral c, d ≠ '\t' ∧ d ≠ '\n' := by
  by_cases hline : c = '\n'
  · subst hline
    simp [escapeLiteral]
  by_cases htab : c = '\t'
  · subst htab
    simp [escapeLiteral]
  unfold escapeLiteral
  rw [if_neg hline, if_neg htab]
  split
  · simp
  · split
    · simp
    · exact List.forall_mem_singleton.2 ⟨htab, hline⟩

theorem flat_repr (n : Nat) : Flat n.repr := by
  intro c hc
  rw [Nat.toList_repr] at hc
  exact ne_of_isWordPart (isWordPart_of_isDigit
    (Nat.isDigit_of_mem_toDigits (by decide) (by decide) hc))

theorem flat_value (v : Value) : Flat v.render := by
  cases v with
  | unit => decide
  | bool b => cases b <;> decide
  | nat n => exact flat_repr n.toNat
  | text s =>
      have hquoted : ∀ c ∈ s.toList.flatMap escapeLiteral, c ≠ '\t' ∧ c ≠ '\n' :=
        List.forall_mem_flatMap.2 fun c _ => flat_escapeLiteral c
      rw [Value.render, Text.literal, Flat, Text.toList_quoteBy]
      exact List.forall_mem_append.2
        ⟨List.forall_mem_cons.2 ⟨by decide, hquoted⟩, List.forall_mem_singleton.2 (by decide)⟩

/-! ### Renderings -/

theorem flat_closed {r : Rendering} (h : Flat r.doc.render) : Flat r.closed.render := by
  unfold Rendering.closed
  split
  · exact flat_append.2 ⟨flat_append.2 ⟨by decide, h⟩, by decide⟩
  · exact h

theorem flat_listed {rs : List Rendering} {f : Rendering → String} (h : ∀ r ∈ rs, Flat (f r)) :
    Flat (", ".intercalate (rs.map f)) :=
  flat_intercalate (by decide) (List.forall_mem_map.2 h)

theorem flat_layer {l : Layer Rendering} (hnames : ∀ x ∈ l.names, Flat x)
    (h : ∀ r ∈ l.children, Flat r.doc.render) : Flat l.rendering.doc.render := by
  cases l with
  | apply f xs =>
      obtain ⟨hf, hxs⟩ := List.forall_mem_cons.1 h
      rw [Layer.render_apply, flat_append, flat_append, flat_append]
      exact ⟨flat_closed hf, ⟨by decide, flat_listed hxs⟩, by decide⟩
  | lambda ps b =>
      obtain ⟨hps, hb⟩ := List.forall_mem_append.1 h
      have hb := hb b List.mem_cons_self
      cases ps with
      | nil =>
          rw [Layer.render_lambda_nil, flat_append, flat_append]
          exact ⟨by decide, by decide, hb⟩
      | cons p ps =>
          rw [Layer.render_lambda_cons, flat_append, flat_append, flat_append]
          exact ⟨by decide, flat_listed fun r hr => flat_closed (hps r hr), by decide, hb⟩
  | assign x v =>
      rw [Layer.render_assign, flat_append, flat_append]
      exact ⟨hnames x List.mem_cons_self, by decide, h v List.mem_cons_self⟩
  | name x => exact hnames x List.mem_cons_self
  | literal v => exact flat_value v
  | group gs v =>
      obtain ⟨hgs, hv⟩ := List.forall_mem_append.1 h
      rw [Layer.render_group, flat_append, flat_append, flat_append, flat_append, flat_append]
      exact ⟨⟨⟨by decide, flat_listed hgs⟩, by decide⟩, ⟨by decide, hv v List.mem_cons_self⟩,
        by decide⟩

/-- A tree is flat if what its leaves are shown by is, and its names are. -/
theorem flat_node {α : Type} {leafDoc : α → Doc} {l : Layer (Tree α)}
    (hnames : ∀ x ∈ l.names, IsName x)
    (h : ∀ c ∈ l.children, Flat (c.rendering leafDoc).doc.render) :
    Flat ((Tree.node l).rendering leafDoc).doc.render := by
  rw [Tree.rendering_node]
  refine flat_layer ?_ ?_
  · rw [Layer.names_map]
    exact fun x hx => flat_name (hnames x hx)
  · rw [Layer.children_map]
    exact List.forall_mem_map.2 h

theorem Term.flat_render {t : Term} (h : t.WellNamed) : Flat t.render := by
  induction h with
  | absent => decide
  | node hnames _ ih => exact flat_node hnames ih

namespace Diff

/-! ### Diffs -/

/-- Every name in the diff, and in the terms that it replaces, is a word with no meaning of its own;
any place may be absent. -/
inductive WellNamed : Diff → Prop
  | absent : WellNamed absent
  | replace {old new : Term} : old.WellNamed → new.WellNamed → WellNamed (replace old new)
  | node {l : Layer Diff} :
      (∀ x ∈ l.names, IsName x) → (∀ c ∈ l.children, WellNamed c) → WellNamed (.node l)

/-- Names are taken from the new term. -/
theorem names_of_shares {a b : Layer Term} {shared : Layer Diff} (h : Shares a b shared) :
    shared.names = b.names := by
  cases h <;> rfl

/-- The diff of two terms has no names but theirs. -/
theorem wellNamed_between {old new : Term} (hold : old.WellNamed) (hnew : new.WellNamed) :
    WellNamed (between old new) := by
  induction hold generalizing new with
  | absent =>
      cases hnew with
      | absent => exact .absent
      | node hnames hchildren => exact .replace .absent (.node hnames hchildren)
  | @node a hnames hchildren ih =>
      cases hnew with
      | absent => exact .replace (.node hnames hchildren) .absent
      | @node b hnames' hchildren' =>
          cases hab : betweenLayers a b with
          | none =>
              rw [between_of_none hab]
              exact .replace (.node hnames hchildren) (.node hnames' hchildren')
          | some shared =>
              rw [between_node hab]
              have hshares := shares_of_betweenLayers hab
              refine .node (names_of_shares hshares ▸ hnames') fun d hd => ?_
              cases compared_of_shares hshares d hd with
              | between hc hc' => exact ih _ hc (hchildren' _ hc')
              | delete hc => exact .replace (hchildren _ hc) .absent
              | insert hc' => exact .replace .absent (hchildren' _ hc')

theorem flat_sideDoc {t : Term} (h : t.WellNamed) : Flat (sideDoc t).render := by
  match t with
  | .absent => decide
  | .node l => exact Term.flat_render h

theorem render_replace (old new : Term) : render (replace old new) =
    "\x7b-" ++ (sideDoc old).render ++ "-\x7d" ++ ("\x7b+" ++ (sideDoc new).render ++ "+\x7d") := by
  simp [render, doc, Tree.rendering, changeDoc, Doc.render, Doc.renderAll]

theorem flat_render {d : Diff} (h : d.WellNamed) : Flat d.render := by
  induction h with
  | absent => decide
  | replace hold hnew =>
      rw [render_replace, flat_append, flat_append, flat_append, flat_append, flat_append]
      exact ⟨⟨⟨by decide, flat_sideDoc hold⟩, by decide⟩, ⟨by decide, flat_sideDoc hnew⟩, by decide⟩
  | node hnames _ ih => exact flat_node hnames ih

end Diff

end Redline
