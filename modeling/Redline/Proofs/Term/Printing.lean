import Redline.Proofs.Term.Parsing
import Redline.Proofs.Term.Phrase
import Redline.Proofs.Token.Spelling

/-! # Printed terms

The rendering of a term is read back as the term, provided that the names in it can be read
(`WellNamed`).  The rendering spells the tokens of the term (`spelling_render`), and these derive
it.  Names come back from the lexer as they went in and nothing else is a name, so terms with other
names are read from no source at all.  Main statement: `parse_render_iff_wellNamed`. -/

namespace Redline

/-- The names that the layer itself holds. -/
def Layer.names {α : Type} : Layer α → List String
  | assign x _ => [x]
  | name x => [x]
  | _ => []

theorem Layer.names_map {α β : Type} (f : α → β) (l : Layer α) : (l.map f).names = l.names := by
  cases l <;> rfl

namespace Term

open Parsing Grammar Token.Lexer

/-- Every name in the term is a word with no meaning of its own. -/
inductive WellNamed : Term → Prop
  | absent : WellNamed absent
  | node {l : Layer Term} :
      (∀ x ∈ l.names, IsName x) → (∀ c ∈ l.children, WellNamed c) → WellNamed (.node l)

/-! ### Renderings of layers -/

/-- The term as it is rendered where more text follows. -/
def renderClosed (t : Term) : String := (t.rendering fun _ => .text "_").closed.render

theorem renderClosed_eq (t : Term) :
    t.renderClosed = if t.isOpen then "(" ++ t.render ++ ")" else t.render := by
  rw [renderClosed, Rendering.closed, Tree.isOpen_rendering]
  split <;> rfl

theorem render_node (l : Layer Term) :
    render (.node l) = (l.map (Tree.rendering fun _ => .text "_")).rendering.doc.render := by
  rw [render, doc, Tree.rendering_node]

theorem render_apply (f : Term) (xs : List Term) :
    render (.node (.apply f xs)) =
      f.renderClosed ++ ("(" ++ ", ".intercalate (xs.map render) ++ ")") := by
  rw [render_node, Layer.map, Layer.render_apply, List.map_map]
  rfl

theorem render_lambda_nil (b : Term) :
    render (.node (.lambda [] b)) = "lambda" ++ (". " ++ b.render) := by
  rw [render_node, Layer.map, List.map_nil, Layer.render_lambda_nil]
  rfl

theorem render_lambda_cons (p : Term) (ps : List Term) (b : Term) :
    render (.node (.lambda (p :: ps) b)) =
      "lambda " ++ (", ".intercalate ((p :: ps).map renderClosed) ++ (". " ++ b.render)) := by
  rw [render_node, Layer.map, List.map_cons, Layer.render_lambda_cons, ← List.map_cons,
    List.map_map]
  rfl

theorem render_assign (x : String) (v : Term) :
    render (.node (.assign x v)) = x ++ (" = " ++ v.render) := by
  rw [render_node, Layer.map, Layer.render_assign]
  rfl

theorem render_group (gs : List Term) (v : Term) :
    render (.node (.group gs v)) =
      "[" ++ ", ".intercalate (gs.map render) ++ "]" ++ (" \x7b " ++ v.render ++ " \x7d") := by
  rw [render_node, Layer.map, Layer.render_group, List.map_map]
  rfl

/-! ### Renderings as spellings -/

section Rows

variable {f : Term → String} {g : Term → List Token}

theorem spelling_row : ∀ {x : Term} {xs : List Term},
    (∀ y ∈ x :: xs, Spelling (f y).toList (g y)) →
      Spelling (", ".intercalate ((x :: xs).map f)).toList (Token.row ((x :: xs).map g))
  | x, [], h => by
      rw [List.map_singleton, String.intercalate_singleton]
      exact h x List.mem_cons_self
  | x, y :: xs, h => by
      have hx := h x List.mem_cons_self
      have hrest := spelling_row fun z hz => h z (List.mem_cons_of_mem x hz)
      rw [List.map_cons, List.map_cons, String.intercalate_cons_cons, ← List.map_cons,
        String.toList_append, String.toList_append, List.append_assoc]
      exact hx.appendSymbol .comma (.afterSymbol .comma isBlank_space hrest)

/-- A list between an opening and a closing symbol. -/
theorem spelling_enclosed {xs : List Term} (h : ∀ x ∈ xs, Spelling (f x).toList (g x))
    (o c : Symbol) :
    Spelling (o.char :: ((", ".intercalate (xs.map f)).toList ++ [c.char]))
      (Token.enclosed o c (Token.row (xs.map g))) := by
  cases xs with
  | nil => exact .enclosed (.inl ⟨rfl, rfl⟩) o c
  | cons x xs => exact .enclosed (.inr (spelling_row h)) o c

end Rows

theorem spelling_closed {t : Term} (h : Spelling t.render.toList t.tokens) :
    Spelling t.renderClosed.toList t.closedTokens := by
  rw [renderClosed_eq]
  by_cases hopen : t.isOpen = true
  · rw [if_pos hopen, closedTokens_of_open hopen, String.toList_append, String.toList_append]
    exact .enclosed (.inr h) .leftParen .rightParen
  · rw [if_neg hopen, closedTokens_of_not_open hopen]
    exact h

theorem spelling_apply {f : Term} {xs : List Term}
    (hf : Spelling f.renderClosed.toList f.closedTokens)
    (hxs : ∀ x ∈ xs, Spelling x.render.toList x.tokens) :
    Spelling (render (.node (.apply f xs))).toList (tokens (.node (.apply f xs))) := by
  rw [render_apply, tokens_apply, String.toList_append, String.toList_append,
    String.toList_append]
  exact hf.appendSymbol .leftParen (spelling_enclosed hxs .leftParen .rightParen)

theorem spelling_lambda {ps : List Term} {b : Term}
    (hps : ∀ p ∈ ps, Spelling p.renderClosed.toList p.closedTokens)
    (hb : Spelling b.render.toList b.tokens) :
    Spelling (render (.node (.lambda ps b))).toList (tokens (.node (.lambda ps b))) := by
  have hbody : Spelling ('.' :: ([' '] ++ b.render.toList)) (.symbol .dot :: b.tokens) :=
    .afterSymbol .dot isBlank_space hb
  rw [tokens_lambda]
  cases ps with
  | nil =>
      rw [render_lambda_nil, String.toList_append, String.toList_append]
      exact (Spelling.one lexeme_lambda).appendSymbol .dot hbody
  | cons p ps =>
      rw [render_lambda_cons, String.toList_append, String.toList_append, String.toList_append]
      exact (Spelling.one lexeme_lambda).appendSpaced ((spelling_row hps).appendSymbol .dot hbody)

theorem spelling_assign {x : String} {v : Term} (hx : IsName x)
    (hv : Spelling v.render.toList v.tokens) :
    Spelling (render (.node (.assign x v))).toList (tokens (.node (.assign x v))) := by
  rw [render_assign, tokens_assign, String.toList_append, String.toList_append]
  exact (Spelling.one (.name hx)).appendSpaced (.afterSymbol .equal isBlank_space hv)

theorem spelling_group {gs : List Term} {v : Term}
    (hgs : ∀ g ∈ gs, Spelling g.render.toList g.tokens)
    (hv : Spelling v.render.toList v.tokens) :
    Spelling (render (.node (.group gs v))).toList (tokens (.node (.group gs v))) := by
  have htag := spelling_enclosed hgs .leftBracket .rightBracket
  have h : Spelling _ (_ ++ Token.enclosed .leftBrace .rightBrace v.tokens) :=
    htag.appendSpaced (hv.enclosedSpaced .leftBrace .rightBrace)
  rw [render_group, tokens_group]
  simpa [Symbol.char] using h

/-- The rendering of a term spells its tokens. -/
theorem spelling_render {t : Term} (h : WellNamed t) : Spelling t.render.toList t.tokens := by
  induction h with
  | absent => exact .one .underscore
  | @node l hnames _ ih =>
      cases l with
      | apply f xs =>
          obtain ⟨hf, hxs⟩ := List.forall_mem_cons.1 ih
          exact spelling_apply (spelling_closed hf) hxs
      | lambda ps b =>
          obtain ⟨hps, hb⟩ := List.forall_mem_append.1 ih
          exact spelling_lambda (fun p hp => spelling_closed (hps p hp)) (hb b List.mem_cons_self)
      | assign x v =>
          exact spelling_assign (hnames x List.mem_cons_self) (ih v List.mem_cons_self)
      | name x => exact .one (.name (hnames x List.mem_cons_self))
      | literal v => exact .one (lexeme_value v)
      | group gs v =>
          obtain ⟨hgs, hv⟩ := List.forall_mem_append.1 ih
          exact spelling_group hgs (hv v List.mem_cons_self)

/-! ### Names of parsed terms -/

theorem isName_of_lexeme {t : Token} {l : List Char} (h : Lexeme t l) :
    ∀ {x : String}, .name x = t → IsName x := by
  cases h with
  | name hx => rintro _ ⟨⟩; exact hx
  | keyword hk =>
      rintro x rfl
      simp [keywords] at hk
  | _ => intro x hx; cases hx

theorem isName_of_scan {source : String} {ts : List (Spanned Token)}
    (h : Token.scan source = .ok ts) : ∀ x, .name x ∈ ts.map (·.value) → IsName x := by
  intro x hx
  obtain ⟨l, hl⟩ := Token.exists_lexeme_of_lexed (Token.lexed_of_scan h) _ hx
  exact isName_of_lexeme hl rfl

/-- A derivation brings no names of its own. -/
def KeepsNames (ts : List Token) (t : Term) : Prop := (∀ x, .name x ∈ ts → IsName x) → WellNamed t

theorem KeepsNames.of_pieces {vs : List Token} {ts : List Term}
    (h : ∀ t ∈ ts, ∃ ws, ws ⊆ vs ∧ KeepsNames ws t) (hvs : ∀ x, .name x ∈ vs → IsName x) :
    ∀ t ∈ ts, WellNamed t := by
  intro t ht
  obtain ⟨ws, hws, hkeeps⟩ := h t ht
  exact hkeeps fun x hx => hvs x (hws hx)

theorem closed_keepsNames : Closed KeepsNames KeepsNames KeepsNames where
  lambda hps hbs hnames := by
    have hps := KeepsNames.of_pieces hps.exists_piece fun x hx => hnames x (by simp [hx])
    have hbs := hbs fun x hx => hnames x (by simp [hx])
    exact .node (List.forall_mem_nil _)
      (List.forall_mem_append.2 ⟨hps, List.forall_mem_singleton.2 hbs⟩)
  assign hvs hnames := by
    have hvs := hvs fun x hx => hnames x (by simp [hx])
    exact .node (List.forall_mem_singleton.2 (hnames _ List.mem_cons_self))
      (List.forall_mem_singleton.2 hvs)
  apply h := h
  atom h := h
  call hf hxs hnames := by
    have hf := hf fun x hx => hnames x (by simp [hx])
    have hxs := KeepsNames.of_pieces hxs.exists_piece fun x hx =>
      hnames x (by simp [Token.enclosed, hx])
    exact .node (List.forall_mem_nil _) (List.forall_mem_cons.2 ⟨hf, hxs⟩)
  literal _ _ := .node (List.forall_mem_nil _) (List.forall_mem_nil _)
  underscore _ := .absent
  name _ hnames :=
    .node (List.forall_mem_singleton.2 (hnames _ List.mem_cons_self)) (List.forall_mem_nil _)
  group hgs hvs hnames := by
    have hgs := KeepsNames.of_pieces hgs.exists_piece fun x hx =>
      hnames x (by simp [Token.enclosed, hx])
    have hvs := hvs fun x hx => hnames x (by simp [Token.enclosed, hx])
    exact .node (List.forall_mem_nil _)
      (List.forall_mem_append.2 ⟨hgs, List.forall_mem_singleton.2 hvs⟩)
  parens ht hnames := ht fun x hx => hnames x (by simp [Token.enclosed, hx])

/-- All that is read from a source is well-named. -/
theorem wellNamed_of_parse {source : String} {x : Spanned Term} (h : parse source = .ok x) :
    WellNamed x.value := by
  obtain ⟨tokens, hscan⟩ := exists_scan_of_parseBy h
  have hterm := (exists_parse_iff hscan).1 ⟨x.span, h⟩
  exact closed_keepsNames.isTerm hterm (isName_of_scan hscan)

theorem wellNamed_of_parseAll {source : String} {xs : List (Spanned Term)}
    (h : parseAll source = .ok xs) : ∀ x ∈ xs, WellNamed x.value := by
  obtain ⟨tokens, hscan⟩ := exists_scan_of_parseBy h
  have hsource := (exists_parseAll_iff hscan).1 ⟨xs, h, rfl⟩
  have hkeeps := SepEndBy.imp hsource fun _ _ _ => closed_keepsNames.isTerm
  have hnamed := KeepsNames.of_pieces hkeeps.exists_piece (isName_of_scan hscan)
  exact fun x hx => hnamed x.value (List.mem_map_of_mem hx)

/-! ### Rendering and parsing -/

theorem parse_render {t : Term} (h : WellNamed t) :
    parse t.render = .ok ⟨⟨0, t.render.toList.length⟩, t⟩ := by
  obtain ⟨ss, hscan, hvalues, hfirst, hlast⟩ := (spelling_render h).scan
  obtain ⟨span, hparse⟩ := (exists_parse_iff hscan).2 (hvalues ▸ isTerm_tokens t)
  obtain ⟨hstart, hstop⟩ := span_of_parse hscan hparse
  rw [hfirst] at hstart
  rw [hlast] at hstop
  obtain ⟨start, stop⟩ := span
  obtain rfl : 0 = start := Option.some.inj hstart
  obtain rfl : t.render.toList.length = stop := Option.some.inj hstop
  exact hparse

/-- Rendering and parsing are inverse exactly on the well-named terms, and whatever is read from a
source is among these. -/
theorem parse_render_iff_wellNamed :
    (∀ t, WellNamed t → parse t.render = .ok ⟨⟨0, t.render.toList.length⟩, t⟩) ∧
    (∀ t, ¬ WellNamed t → ∀ span, parse t.render ≠ .ok ⟨span, t⟩) ∧
    (∀ source x, parse source = .ok x → WellNamed x.value ∧
      parse x.value.render = .ok ⟨⟨0, x.value.render.toList.length⟩, x.value⟩) ∧
    ∀ source xs, parseAll source = .ok xs → ∀ x ∈ xs, WellNamed x.value ∧
      parse x.value.render = .ok ⟨⟨0, x.value.render.toList.length⟩, x.value⟩ := by
  refine ⟨fun t => parse_render, ?_, ?_, ?_⟩
  · intro t hnames span h
    exact hnames (wellNamed_of_parse h)
  · intro source x h
    have hx := wellNamed_of_parse h
    exact ⟨hx, parse_render hx⟩
  · intro source xs h x hmem
    have hx := wellNamed_of_parseAll h x hmem
    exact ⟨hx, parse_render hx⟩

/-- A callee between parentheses is read back and a name that is a keyword is not; superfluous
parentheses and semicolons are gone after one round. -/
theorem parse_render_closed_callee :
    parse "(lambda. x)(_)" =
      .ok ⟨⟨0, 14⟩, .node (.apply (.node (.lambda [] (.node (.name "x")))) [absent])⟩ ∧
    (∀ span, parse "unit" ≠ .ok ⟨span, .node (.name "unit")⟩) ∧
    (parse "((x))" = .ok ⟨⟨0, 5⟩, .node (.name "x")⟩ ∧
      parse "x" = .ok ⟨⟨0, 1⟩, .node (.name "x")⟩) ∧
    parseAll "x;" = .ok [⟨⟨0, 1⟩, .node (.name "x")⟩] ∧ WellNamed (.node (.name "x")) := by
  have hx : IsName "x" := by decide
  have hname : WellNamed (.node (.name "x")) := .node (List.forall_mem_singleton.2 hx) nofun
  have hlambda : WellNamed (.node (.lambda [] (.node (.name "x")))) :=
    .node nofun (List.forall_mem_singleton.2 hname)
  have happly : WellNamed (.node (.apply (.node (.lambda [] (.node (.name "x")))) [absent])) :=
    .node nofun (List.forall_mem_cons.2 ⟨hlambda, List.forall_mem_singleton.2 .absent⟩)
  have hunit : ¬ WellNamed (.node (.name "unit")) := by
    rintro (_ | ⟨hnames, -⟩)
    exact (hnames "unit" List.mem_cons_self).2 (by decide)
  obtain ⟨hround, hrefused, hparsed, hlisted⟩ := parse_render_iff_wellNamed
  have hparens : parse "((x))" = .ok ⟨⟨0, 5⟩, .node (.name "x")⟩ := by rfl
  have hlist : parseAll "x;" = .ok [⟨⟨0, 1⟩, .node (.name "x")⟩] := by rfl
  exact ⟨hround _ happly, hrefused _ hunit, ⟨hparens, (hparsed _ _ hparens).2⟩, hlist,
    (hlisted _ _ hlist _ List.mem_cons_self).1⟩

end Term

end Redline
