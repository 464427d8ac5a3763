import Redline.Diff
import Redline.Proofs.Term.Printing

/-! # Reading markup

The markup of a diff can be read in only one way.  No parser of markup is needed to see this: the
marks of a replacement are turned into the notation of a group applied to arguments, so that
`{-old-}{+new+}` becomes `[old] { _ }(new)`, and what comes out is the rendering of an ordinary
term, `plain d` (`unmarks_render`).  Outside of text values the characters `-` and `+` stand in
marks alone, so the marks are found in the text itself (`unmark`).  The term is read back from its
rendering, and the diff from the term (`plain_inj`), because a group with an absent value is no
layer of a diff.

All this is for diffs without absent places, which leave no trace in the markup, and with names that
can be read (`Readable`).  Main statement: `render_eq_iff_of_readable`. -/

namespace Redline

namespace Diff

open Token.Lexer

/-- No place of the diff is absent, and every name in it is a word with no meaning of its own. -/
inductive Readable : Diff → Prop
  | replace {old new : Term} : old.WellNamed → new.WellNamed → Readable (replace old new)
  | node {l : Layer Diff} :
      (∀ x ∈ l.names, IsName x) → (∀ c ∈ l.children, Readable c) → Readable (.node l)

/-! ### Replacements as terms -/

/-- The side of a replacement as a list, which an absent side leaves empty. -/
def sideTerms : Term → List Term
  | .absent => []
  | t => [t]

def changeTerm : Change → Term
  | .absent => .absent
  | .replace old new =>
      .node (.apply (.node (.group (sideTerms old) Term.absent)) (sideTerms new))

/-- The diff with a group and its arguments in the place of each replacement. -/
def plain : Diff → Term := Tree.fold changeTerm .node

theorem plain_node (l : Layer Diff) : plain (.node l) = .node (l.map plain) := Tree.fold_node _ _ l

theorem plain_replace (old new : Term) :
    plain (replace old new) =
      .node (.apply (.node (.group (sideTerms old) Term.absent)) (sideTerms new)) := rfl

theorem sideTerms_inj {s t : Term} (h : sideTerms s = sideTerms t) : s = t := by
  match s, t with
  | .absent, .absent => rfl
  | .absent, .node b => cases h
  | .node a, .absent => cases h
  | .node a, .node b => exact (List.cons.inj h).1

theorem plain_ne_absent {d : Diff} (h : Readable d) : plain d ≠ Term.absent := by
  cases h with
  | replace => exact nofun
  | node => rw [plain_node]; exact nofun

/-- No layer has a callee with an absent value, as the terms of replacements have. -/
theorem plain_replace_ne {old new : Term} {l : Layer Diff} (h : ∀ c ∈ l.children, Readable c) :
    plain (replace old new) ≠ plain (.node l) := by
  rw [plain_replace, plain_node]
  intro heq
  cases l with
  | apply f xs =>
      have hf := h f List.mem_cons_self
      injection heq with heq
      injection heq with hcallee
      cases hf with
      | replace => cases hcallee
      | @node l hnames hchildren =>
          rw [plain_node] at hcallee
          cases l with
          | group gs v =>
              injection hcallee with hcallee
              injection hcallee with htag hvalue
              have hv := hchildren v (List.mem_append_right gs List.mem_cons_self)
              exact plain_ne_absent hv hvalue.symm
          | _ => cases hcallee
  | _ => cases heq

section Layers

variable {α β : Type} {f : α → β}

theorem eq_of_map_eq {as bs : List α} (h : ∀ a ∈ as, ∀ b ∈ bs, f a = f b → a = b)
    (hmap : as.map f = bs.map f) : as = bs := by
  induction as generalizing bs with
  | nil => exact (List.map_eq_nil_iff.1 hmap.symm).symm
  | cons a as ih =>
      obtain ⟨b, bs, rfl, hb, hbs⟩ := List.map_eq_cons_iff.1 hmap.symm
      obtain rfl := h a List.mem_cons_self b List.mem_cons_self hb.symm
      rw [ih (fun c hc d hd => h c (List.mem_cons_of_mem a hc) d (List.mem_cons_of_mem a hd))
        hbs.symm]

/-- Layers agree where their images do, if the function tells their children apart. -/
theorem layer_eq_of_map_eq {a b : Layer α}
    (h : ∀ c ∈ a.children, ∀ d ∈ b.children, f c = f d → c = d) (hmap : a.map f = b.map f) :
    a = b := by
  match a, b with
  | .apply c cs, .apply d ds =>
      injection hmap with hc hcs
      obtain rfl := h c List.mem_cons_self d List.mem_cons_self hc
      rw [eq_of_map_eq (fun c' hc' d' hd' =>
        h c' (List.mem_cons_of_mem c hc') d' (List.mem_cons_of_mem c hd')) hcs]
  | .lambda cs c, .lambda ds d | .group cs c, .group ds d =>
      injection hmap with hcs hc
      obtain rfl := h c (List.mem_append_right cs List.mem_cons_self) d
        (List.mem_append_right ds List.mem_cons_self) hc
      rw [eq_of_map_eq (fun c' hc' d' hd' =>
        h c' (List.mem_append_left [c] hc') d' (List.mem_append_left [c] hd')) hcs]
  | .assign x c, .assign y d =>
      injection hmap with hx hc
      rw [hx, h c List.mem_cons_self d List.mem_cons_self hc]
  | .name x, .name y | .literal v, .literal w =>
      injection hmap with hx
      rw [hx]

end Layers

theorem plain_inj {d e : Diff} (hd : Readable d) (he : Readable e) (h : plain d = plain e) :
    d = e := by
  induction hd generalizing e with
  | replace =>
      cases he with
      | replace =>
          rw [plain_replace, plain_replace] at h
          injection h with h
          injection h with hcallee hnew
          injection hcallee with hcallee
          injection hcallee with hold
          rw [sideTerms_inj hold, sideTerms_inj hnew]
      | node _ hchildren => exact absurd h (plain_replace_ne hchildren)
  | @node l _ hchildren ih =>
      cases he with
      | replace => exact absurd h.symm (plain_replace_ne hchildren)
      | node _ he =>
          rw [plain_node, plain_node] at h
          injection h with h
          exact congrArg Tree.node (layer_eq_of_map_eq (fun c hc d hd => ih c hc (he d hd)) h)

/-! ### From the marks to the notation of terms -/

/-- What the marks between the sides of a replacement are turned into. -/
def absentValue : List Char := "] \x7b _ \x7d(".toList

mutual

/-- The text with the marks turned into brackets and parentheses. -/
def unmark : List Char → List Char
  | '{' :: '-' :: cs => '[' :: unmark cs
  | '-' :: '}' :: '{' :: '+' :: cs => absentValue ++ unmark cs
  | '+' :: '}' :: cs => ')' :: unmark cs
  | '"' :: cs => '"' :: unmarkQuoted cs
  | c :: cs => c :: unmark cs
  | [] => []

/-- The text from inside a text value on. -/
def unmarkQuoted : List Char → List Char
  | '\\' :: c :: cs => '\\' :: c :: unmarkQuoted cs
  | '"' :: cs => '"' :: unmark cs
  | c :: cs => c :: unmarkQuoted cs
  | [] => []

end

theorem unmark_opening (cs : List Char) : unmark ('{' :: '-' :: cs) = '[' :: unmark cs := rfl

theorem unmark_middle (cs : List Char) :
    unmark ('-' :: '}' :: '{' :: '+' :: cs) = absentValue ++ unmark cs := rfl

theorem unmark_closing (cs : List Char) : unmark ('+' :: '}' :: cs) = ')' :: unmark cs := rfl

/-- Whatever follows, the text `s` is turned into `t`. -/
def Unmarks (s t : String) : Prop := ∀ cs, unmark (s.toList ++ cs) = t.toList ++ unmark cs

theorem Unmarks.append {s s' t t' : String} (h : Unmarks s t) (h' : Unmarks s' t') :
    Unmarks (s ++ s') (t ++ t') := by
  intro cs
  rw [String.toList_append, String.toList_append, List.append_assoc, List.append_assoc, h, h']

/-- Whether a mark or a text value may start with the character. -/
def startsMark (c : Char) : Bool := c = '{' || c = '-' || c = '+' || c = '"'

theorem unmark_cons {c : Char} (h : startsMark c = false) (cs : List Char) :
    unmark (c :: cs) = c :: unmark cs := by
  simp only [startsMark, Bool.or_eq_false_iff, decide_eq_false_iff_not] at h
  rw [unmark] <;> simp_all

theorem unmarks_of_startsMark {s : String} (h : ∀ c ∈ s.toList, startsMark c = false) :
    Unmarks s s := by
  intro cs
  generalize s.toList = l at h ⊢
  induction l with
  | nil => rfl
  | cons c l ih =>
      obtain ⟨hc, hl⟩ := List.forall_mem_cons.1 h
      rw [List.cons_append, unmark_cons hc, ih hl, List.cons_append]

theorem unmarks_intercalate {α : Type} {f g : α → String} : ∀ {xs : List α},
    (∀ x ∈ xs, Unmarks (f x) (g x)) →
      Unmarks (", ".intercalate (xs.map f)) (", ".intercalate (xs.map g))
  | [], _ => fun _ => rfl
  | [x], h => by
      rw [List.map_singleton, List.map_singleton, String.intercalate_singleton,
        String.intercalate_singleton]
      exact h x List.mem_cons_self
  | x :: y :: xs, h => by
      have hxs : Unmarks (", ".intercalate ((y :: xs).map f))
          (", ".intercalate ((y :: xs).map g)) :=
        unmarks_intercalate fun z hz => h z (List.mem_cons_of_mem x hz)
      have hcomma : Unmarks ", " ", " := fun _ => rfl
      simp only [List.map_cons, String.intercalate_cons_cons] at hxs ⊢
      exact ((h x List.mem_cons_self).append hcomma).append hxs

/-! ### Names and values -/

/-- The characters that start marks and text values are in no word. -/
theorem startsMark_of_isWordPart {c : Char} (h : isWordPart c = true) : startsMark c = false := by
  rw [Bool.eq_false_iff]
  intro hc
  simp only [startsMark, Bool.or_eq_true, decide_eq_true_eq] at hc
  rcases hc with ((rfl | rfl) | rfl) | rfl <;> cases h

theorem unmarks_name {x : String} (h : IsName x) : Unmarks x x := by
  obtain ⟨⟨c, cs, hx, hc, hcs⟩, -⟩ := h
  refine unmarks_of_startsMark ?_
  rw [hx]
  exact List.forall_mem_cons.2 ⟨startsMark_of_isWordPart (isWordPart_of_isWordStart hc),
    fun d hd => startsMark_of_isWordPart (hcs d hd)⟩

theorem unmarkQuoted_escapeLiteral (s cs : List Char) :
    unmarkQuoted (s.flatMap Text.escapeLiteral ++ '"' :: cs) =
      s.flatMap Text.escapeLiteral ++ '"' :: unmark cs := by
  induction s with
  | nil => rfl
  | cons c s ih =>
      rw [List.flatMap_cons, List.append_assoc, List.append_assoc, ← ih]
      have hc := quotes_escapeLiteral c
      generalize Text.escapeLiteral c = w at hc
      cases hc with
      | raw hc =>
          simp only [Bool.and_eq_true, bne_iff_ne] at hc
          rw [List.singleton_append, List.singleton_append, unmarkQuoted] <;> simp_all
      | _ => rfl

theorem unmarks_value (v : Value) : Unmarks v.render v.render := by
  cases v with
  | unit => exact fun _ => rfl
  | bool b => cases b <;> exact fun _ => rfl
  | nat n =>
      refine unmarks_of_startsMark fun c hc => ?_
      rw [Value.render, Nat.toList_repr] at hc
      exact startsMark_of_isWordPart (isWordPart_of_isDigit
        (Nat.isDigit_of_mem_toDigits (by decide) (by decide) hc))
  | text s =>
      intro cs
      rw [Value.render, Text.literal, Text.toList_quoteBy]
      simp only [List.cons_append, List.append_assoc, List.nil_append]
      exact congrArg (List.cons '"') (unmarkQuoted_escapeLiteral s.toList cs)

/-! ### Renderings -/

/-- The rendering `r` is turned into `p`, and both are open or neither is. -/
structure Unmarked (r p : Rendering) : Prop where
  text : Unmarks r.doc.render p.doc.render
  isOpen : r.isOpen = p.isOpen

theorem Unmarked.closed {r p : Rendering} (h : Unmarked r p) :
    Unmarks r.closed.render p.closed.render := by
  have hparens : ∀ s t : String, Unmarks s t → Unmarks ("(" ++ s ++ ")") ("(" ++ t ++ ")") :=
    fun _ _ h => (Unmarks.append (s := "(") (t := "(") (fun _ => rfl) h).append fun _ => rfl
  rw [Rendering.closed, Rendering.closed, ← h.isOpen]
  split
  · exact hparens _ _ h.text
  · exact h.text

theorem unmarked_layer {α : Type} {f g : α → Rendering} {l : Layer α}
    (hnames : ∀ x ∈ l.names, IsName x) (h : ∀ c ∈ l.children, Unmarked (f c) (g c)) :
    Unmarked (l.map f).rendering (l.map g).rendering := by
  refine ⟨?_, by rw [Layer.rendering, Layer.rendering, Layer.isOpen_map, Layer.isOpen_map]⟩
  cases l with
  | apply c cs =>
      obtain ⟨hc, hcs⟩ := List.forall_mem_cons.1 h
      have hcs := unmarks_intercalate fun x hx => (hcs x hx).text
      simp only [Layer.map, Layer.render_apply, List.map_map]
      exact hc.closed.append (.append (.append (fun _ => rfl) hcs) fun _ => rfl)
  | lambda cs c =>
      obtain ⟨hcs, hc⟩ := List.forall_mem_append.1 h
      have hbody := Unmarks.append (s := ". ") (t := ". ") (fun _ => rfl)
        (hc c List.mem_cons_self).text
      cases cs with
      | nil =>
          simp only [Layer.map, List.map_nil, Layer.render_lambda_nil]
          exact .append (fun _ => rfl) hbody
      | cons b cs =>
          have hcs := unmarks_intercalate fun x hx => (hcs x hx).closed
          simp only [List.map_cons] at hcs
          simp only [Layer.map, List.map_cons, Layer.render_lambda_cons, List.map_map]
          exact .append (fun _ => rfl) (hcs.append hbody)
  | assign x c =>
      have hx := unmarks_name (hnames x List.mem_cons_self)
      simp only [Layer.map, Layer.render_assign]
      exact hx.append (.append (fun _ => rfl) (h c List.mem_cons_self).text)
  | name x => exact unmarks_name (hnames x List.mem_cons_self)
  | literal v => exact unmarks_value v
  | group cs c =>
      obtain ⟨hcs, hc⟩ := List.forall_mem_append.1 h
      have hcs := unmarks_intercalate fun x hx => (hcs x hx).text
      have hc := (hc c List.mem_cons_self).text
      simp only [Layer.map, Layer.render_group, List.map_map]
      exact .append (.append (.append (fun _ => rfl) hcs) fun _ => rfl)
        (.append (.append (fun _ => rfl) hc) fun _ => rfl)

/-- There are no marks in terms. -/
theorem unmarked_term {t : Term} (h : t.WellNamed) :
    Unmarked (t.rendering fun _ => .text "_") (t.rendering fun _ => .text "_") := by
  induction h with
  | absent => exact ⟨fun _ => rfl, rfl⟩
  | node hnames _ ih =>
      rw [Tree.rendering_node]
      exact unmarked_layer hnames ih

theorem unmarks_sideDoc {t : Term} (h : t.WellNamed) :
    Unmarks (sideDoc t).render (", ".intercalate ((sideTerms t).map Term.render)) := by
  match t with
  | .absent => exact fun _ => rfl
  | .node l => exact (unmarked_term h).text

theorem render_plain_replace (old new : Term) :
    (plain (replace old new)).render =
      "[" ++ ", ".intercalate ((sideTerms old).map Term.render) ++ "]" ++ " \x7b _ \x7d" ++
        ("(" ++ ", ".intercalate ((sideTerms new).map Term.render) ++ ")") := by
  rw [plain_replace, Term.render_apply, Term.renderClosed_eq]
  exact congrArg (· ++ _) (Term.render_group _ _)

theorem unmarked_replace {old new : Term} (hold : old.WellNamed) (hnew : new.WellNamed) :
    Unmarked ((replace old new).rendering changeDoc)
      ((plain (replace old new)).rendering fun _ => .text "_") := by
  refine ⟨fun cs => ?_, rfl⟩
  have hold := unmarks_sideDoc hold
  have hnew := unmarks_sideDoc hnew
  have hmarkup : ((replace old new).rendering changeDoc).doc.render.toList ++ cs =
      '{' :: '-' :: ((sideDoc old).render.toList ++
        '-' :: '}' :: '{' :: '+' :: ((sideDoc new).render.toList ++ '+' :: '}' :: cs)) := by
    simp [Tree.rendering, changeDoc, Doc.render, Doc.renderAll]
  have hterm : ((plain (replace old new)).rendering fun _ => .text "_").doc.render =
      (plain (replace old new)).render := rfl
  rw [hmarkup, hterm, render_plain_replace, unmark_opening, hold, unmark_middle, hnew,
    unmark_closing]
  simp only [String.toList_append, List.append_assoc]
  rfl

theorem unmarked_plain {d : Diff} (h : Readable d) :
    Unmarked (d.rendering changeDoc) ((plain d).rendering fun _ => .text "_") := by
  induction h with
  | replace hold hnew => exact unmarked_replace hold hnew
  | node hnames _ ih =>
      rw [plain_node, Tree.rendering_node, Tree.rendering_node, Layer.map_map]
      exact unmarked_layer hnames ih

/-- The markup of a diff, without its marks, is the rendering of a term. -/
theorem unmark_render {d : Diff} (h : Readable d) :
    unmark d.render.toList = (plain d).render.toList := by
  have htext := (unmarked_plain h).text []
  rw [List.append_nil] at htext
  exact htext.trans (List.append_nil _)

theorem wellNamed_sideTerms {t : Term} (h : t.WellNamed) : ∀ s ∈ sideTerms t, s.WellNamed := by
  match t with
  | .absent => exact nofun
  | .node l => exact List.forall_mem_singleton.2 h

theorem wellNamed_plain {d : Diff} (h : Readable d) : (plain d).WellNamed := by
  induction h with
  | @replace old new hold hnew =>
      have hgroup : Term.WellNamed (.node (.group (sideTerms old) Term.absent)) :=
        .node nofun (List.forall_mem_append.2
          ⟨wellNamed_sideTerms hold, List.forall_mem_singleton.2 .absent⟩)
      exact .node nofun (List.forall_mem_cons.2 ⟨hgroup, wellNamed_sideTerms hnew⟩)
  | @node l hnames _ ih =>
      rw [plain_node]
      refine .node (by rwa [Layer.names_map]) ?_
      rw [Layer.children_map]
      exact List.forall_mem_map.2 ih

/-- Markup can be read in only one way. -/
theorem render_eq_iff_of_readable {d e : Diff} (hd : Readable d) (he : Readable e) :
    d.render = e.render ↔ d = e := by
  refine ⟨fun h => ?_, congrArg render⟩
  have hplain : (plain d).render = (plain e).render := by
    rw [← String.toList_inj, ← unmark_render hd, ← unmark_render he, h]
  have hparse := Term.parse_render (wellNamed_plain hd)
  rw [hplain, Term.parse_render (wellNamed_plain he)] at hparse
  exact plain_inj hd he (Spanned.mk.inj (Except.ok.inj hparse)).2.symm

/-- A text that imitates marks is not taken for them, on whichever side it stands. -/
theorem render_ne_of_imitated_marks :
    render (.node (.apply (replace (.node (.name "f")) Term.absent)
        [.node (.group [] (replace Term.absent (.node (.literal (.text "-\x7d\x7b+")))))])) ≠
      render (.node (.apply (replace (.node (.name "f")) Term.absent)
        [.node (.group [] (replace (.node (.literal (.text "-\x7d\x7b+"))) Term.absent))])) := by
  have hf : Term.WellNamed (.node (.name "f")) :=
    .node (List.forall_mem_singleton.2 ⟨⟨'f', [], rfl, rfl, nofun⟩, by decide⟩) nofun
  have htext : Term.WellNamed (.node (.literal (.text "-\x7d\x7b+"))) := .node nofun nofun
  have hcall : ∀ {c : Diff}, c.Readable →
      Readable (.node (.apply (replace (.node (.name "f")) Term.absent) [.node (.group [] c)])) :=
    fun hc => .node nofun (List.forall_mem_cons.2 ⟨.replace hf .absent,
      List.forall_mem_singleton.2 (.node nofun (List.forall_mem_singleton.2 hc))⟩)
  intro h
  have hsame := (render_eq_iff_of_readable (hcall (.replace .absent htext))
    (hcall (.replace htext .absent))).1 h
  exact absurd hsame (by decide)

/-- An absent argument cannot be told from no argument. -/
example : render (.node (.apply absent [absent])) = render (.node (.apply absent [])) := rfl

end Diff

end Redline
