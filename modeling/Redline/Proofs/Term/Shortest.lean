import Redline.Proofs.Term.Printing

/-! # The shortest source of a term

No source of a term has fewer tokens than its rendering has, and one with as many has the same ones.
Each rule of the grammar asks for the tokens that the phrase of the term has, and what else it
allows comes on top of them: parentheses around a phrase that is not open are two tokens too many
(`atMost_parens`), and a trailing comma is one (`atMost_of_sepEndBy`).  So the tokens of a term are
at most those of any derivation of it (`closed_atMost`).  Main statement: `render_shortest`. -/

namespace Redline

namespace Token

/-- The same tokens, or fewer. -/
def AtMost (us ts : List Token) : Prop := us = ts ∨ us.length < ts.length

namespace AtMost

variable {us us' ts ts' : List Token}

theorem refl (ts : List Token) : AtMost ts ts := .inl rfl

theorem length_le (h : AtMost us ts) : us.length ≤ ts.length := by
  rcases h with rfl | hlt
  · exact Nat.le_refl _
  · exact Nat.le_of_lt hlt

theorem of_length_lt (h : AtMost us ts) (hlt : ts.length < ts'.length) : AtMost us ts' :=
  .inr (Nat.lt_of_le_of_lt h.length_le hlt)

theorem append (h : AtMost us ts) (h' : AtMost us' ts') : AtMost (us ++ us') (ts ++ ts') := by
  have hle := h.length_le
  have hle' := h'.length_le
  rcases h with rfl | hlt
  · rcases h' with rfl | hlt'
    · exact .inl rfl
    · right
      rw [List.length_append, List.length_append]
      omega
  · right
    rw [List.length_append, List.length_append]
    omega

theorem cons (t : Token) (h : AtMost us ts) : AtMost (t :: us) (t :: ts) := (refl [t]).append h

theorem enclosed (h : AtMost us ts) (opening closing : Symbol) :
    AtMost (Token.enclosed opening closing us) (Token.enclosed opening closing ts) :=
  (h.append (refl [symbol closing])).cons (symbol opening)

end AtMost

theorem length_lt_enclosed (opening closing : Symbol) (ts : List Token) :
    ts.length < (enclosed opening closing ts).length := by
  rw [enclosed, List.length_cons, List.length_append]
  omega

end Token

namespace Term

open Parsing Grammar

/-! ### No derivation takes fewer tokens -/

section Rows

variable {f : Term → List Token} {ts : List Token} {xs : List Term}

theorem atMost_of_separated
    (h : Separated (fun us x => Token.AtMost (f x) us) (.symbol .comma) ts xs) :
    Token.AtMost (Token.row (xs.map f)) ts := by
  induction h with
  | one h => exact h
  | cons h hrest ih =>
      obtain ⟨y, ys, rfl⟩ := hrest.exists_cons
      exact h.append (ih.cons _)

theorem atMost_of_sepBy
    (h : SepBy (fun us x => Token.AtMost (f x) us) (.symbol .comma) ts xs) :
    Token.AtMost (Token.row (xs.map f)) ts := by
  cases h with
  | none => exact .refl []
  | row h => exact atMost_of_separated h

/-- A trailing comma is one token too many. -/
theorem atMost_of_sepEndBy
    (h : SepEndBy (fun us x => Token.AtMost (f x) us) (.symbol .comma) ts xs) :
    Token.AtMost (Token.row (xs.map f)) ts := by
  cases h with
  | none => exact .refl []
  | row h => exact atMost_of_separated h
  | trailing h =>
      refine (atMost_of_separated h).of_length_lt ?_
      rw [List.length_append]
      exact Nat.lt_succ_self _

end Rows

theorem atMost_closedTokens (t : Term) : Token.AtMost t.tokens t.closedTokens := by
  by_cases hopen : t.isOpen = true
  · rw [closedTokens_of_open hopen]
    exact (Token.AtMost.refl _).of_length_lt (Token.length_lt_enclosed _ _ _)
  · rw [closedTokens_of_not_open hopen]
    exact .refl _

/-- Parentheses are asked for around open phrases, and around others they are two tokens too
many. -/
theorem atMost_parens {ts : List Token} {t : Term} (h : Token.AtMost t.tokens ts) :
    Token.AtMost t.closedTokens (Token.enclosed .leftParen .rightParen ts) := by
  by_cases hopen : t.isOpen = true
  · rw [closedTokens_of_open hopen]
    exact h.enclosed _ _
  · rw [closedTokens_of_not_open hopen]
    exact h.of_length_lt (Token.length_lt_enclosed _ _ _)

theorem atMost_of_closedTokens {ts : List Token} {t : Term} (h : Token.AtMost t.closedTokens ts) :
    Token.AtMost t.tokens ts := by
  rcases atMost_closedTokens t with heq | hlt
  · rwa [heq]
  · exact .inr (Nat.lt_of_lt_of_le hlt h.length_le)

theorem closed_atMost : Closed (fun ts t => Token.AtMost t.tokens ts)
    (fun ts t => Token.AtMost t.closedTokens ts) (fun ts t => Token.AtMost t.closedTokens ts) where
  lambda hps hbs := by
    rw [tokens_lambda]
    exact ((atMost_of_sepBy hps).append (hbs.cons _)).cons _
  assign hvs := by
    rw [tokens_assign]
    exact (hvs.cons _).cons _
  apply := atMost_of_closedTokens
  atom h := h
  call hf hxs := by
    rw [closedTokens_apply]
    exact hf.append ((atMost_of_sepEndBy hxs).enclosed _ _)
  literal _ := .refl _
  underscore := .refl _
  name _ := .refl _
  group hgs hvs := by
    rw [closedTokens_group]
    exact ((atMost_of_sepEndBy hgs).enclosed _ _).append (hvs.enclosed _ _)
  parens := atMost_parens

/-! ### Sources -/

/-- No source that is read as the term has fewer tokens than the rendering of the term, and a source
with as many tokens has the same ones. -/
theorem render_shortest {t : Term} (ht : WellNamed t) {source : String} {span : Span}
    (h : parse source = .ok ⟨span, t⟩) : ∃ rendered given, Token.scan t.render = .ok rendered ∧
      Token.scan source = .ok given ∧ rendered.length ≤ given.length ∧
      (rendered.length = given.length → rendered.map (·.value) = given.map (·.value)) := by
  obtain ⟨rendered, hrendered, hvalues, -⟩ := (spelling_render ht).scan
  obtain ⟨given, hgiven⟩ := exists_scan_of_parseBy h
  have hterm := (exists_parse_iff hgiven).1 ⟨span, h⟩
  have hatMost := closed_atMost.isTerm hterm
  rw [← hvalues] at hatMost
  have hlength := hatMost.length_le
  rw [List.length_map, List.length_map] at hlength
  refine ⟨rendered, given, hrendered, hgiven, hlength, fun heq => ?_⟩
  rcases hatMost with hsame | hlt
  · exact hsame
  · rw [List.length_map, List.length_map, heq] at hlt
    exact absurd hlt (Nat.lt_irrefl _)

/-- The parentheses around an open callee are needed, and a second pair of them and a trailing comma
are not. -/
theorem render_shortest_closed_callee :
    WellNamed (.node (.apply (.node (.lambda [] (.node (.name "x")))) [absent])) ∧
    parse "((lambda. x))(_,)" =
      .ok ⟨⟨0, 17⟩, .node (.apply (.node (.lambda [] (.node (.name "x")))) [absent])⟩ ∧
    ∃ rendered given, Token.scan "(lambda. x)(_)" = .ok rendered ∧
      Token.scan "((lambda. x))(_,)" = .ok given ∧ rendered.length ≤ given.length ∧
      (rendered.length = given.length → rendered.map (·.value) = given.map (·.value)) := by
  have hparse : parse "((lambda. x))(_,)" =
      .ok ⟨⟨0, 17⟩, .node (.apply (.node (.lambda [] (.node (.name "x")))) [absent])⟩ := by rfl
  have hnamed := wellNamed_of_parse hparse
  exact ⟨hnamed, hparse, render_shortest hnamed hparse⟩

end Term

end Redline
