import Redline.Proofs.Term.Derivation

/-! # Phrases

The tokens of a term, put together from those of its subterms as its rendering is from theirs: a
phrase is a list of tokens that may run on to the right, and where more tokens follow an open phrase
stands between parentheses (`Phrase.closed`).  The tokens of a term derive it (`isTerm_tokens`). -/

namespace Redline

namespace Token

/-- The pieces in a row, with commas between neighbours. -/
def row : List (List Token) → List Token
  | [] => []
  | [ts] => ts
  | ts :: us :: rest => ts ++ symbol .comma :: row (us :: rest)

end Token

/-! ### Phrases of layers -/

/-- The tokens of a rendering, and whether it runs on to the right. -/
structure Phrase where
  tokens : List Token
  isOpen : Bool

/-- The tokens, between parentheses if the phrase is open. -/
def Phrase.closed (p : Phrase) : List Token :=
  if p.isOpen then Token.enclosed .leftParen .rightParen p.tokens else p.tokens

/-- The tokens of a layer over the phrases of its children. -/
def Layer.tokens : Layer Phrase → List Token
  | apply callee arguments =>
      callee.closed ++ Token.enclosed .leftParen .rightParen (Token.row (arguments.map (·.tokens)))
  | lambda parameters body =>
      .lambda :: (Token.row (parameters.map (·.closed)) ++ .symbol .dot :: body.tokens)
  | assign x value => .name x :: .symbol .equal :: value.tokens
  | name x => [.name x]
  | literal v => [.literal v]
  | group tag value =>
      Token.enclosed .leftBracket .rightBracket (Token.row (tag.map (·.tokens))) ++
        Token.enclosed .leftBrace .rightBrace value.tokens

namespace Term

open Parsing Grammar

/-! ### Phrases of terms -/

def phrase : Term → Phrase :=
  Tree.fold (fun _ => ⟨[.underscore], false⟩) fun l => ⟨l.tokens, l.isOpen⟩

def tokens (t : Term) : List Token := t.phrase.tokens

/-- The tokens where more of them follow. -/
def closedTokens (t : Term) : List Token := t.phrase.closed

theorem phrase_node (l : Layer Term) :
    phrase (.node l) = ⟨(l.map phrase).tokens, (l.map phrase).isOpen⟩ := Tree.fold_node _ _ l

theorem isOpen_phrase (t : Term) : t.phrase.isOpen = t.isOpen := by
  cases t with
  | leaf a => rfl
  | node l => rw [phrase_node, Layer.isOpen_map, Tree.isOpen]

theorem closedTokens_of_open {t : Term} (h : t.isOpen = true) :
    t.closedTokens = Token.enclosed .leftParen .rightParen t.tokens := by
  rw [closedTokens, Phrase.closed, isOpen_phrase, if_pos h, tokens]

theorem closedTokens_of_not_open {t : Term} (h : ¬ t.isOpen = true) :
    t.closedTokens = t.tokens := by
  rw [closedTokens, Phrase.closed, isOpen_phrase, if_neg h, tokens]

theorem tokens_apply (f : Term) (xs : List Term) : tokens (.node (.apply f xs)) =
    f.closedTokens ++ Token.enclosed .leftParen .rightParen (Token.row (xs.map tokens)) := by
  rw [tokens, phrase_node, Layer.map, Layer.tokens, List.map_map]
  rfl

theorem tokens_lambda (ps : List Term) (b : Term) : tokens (.node (.lambda ps b)) =
    .lambda :: (Token.row (ps.map closedTokens) ++ .symbol .dot :: b.tokens) := by
  rw [tokens, phrase_node, Layer.map, Layer.tokens, List.map_map]
  rfl

theorem tokens_group (gs : List Term) (v : Term) : tokens (.node (.group gs v)) =
    Token.enclosed .leftBracket .rightBracket (Token.row (gs.map tokens)) ++
      Token.enclosed .leftBrace .rightBrace v.tokens := by
  rw [tokens, phrase_node, Layer.map, Layer.tokens, List.map_map]
  rfl

theorem closedTokens_apply (f : Term) (xs : List Term) : closedTokens (.node (.apply f xs)) =
    f.closedTokens ++ Token.enclosed .leftParen .rightParen (Token.row (xs.map tokens)) :=
  (closedTokens_of_not_open (t := .node (.apply f xs)) nofun).trans (tokens_apply f xs)

theorem closedTokens_group (gs : List Term) (v : Term) : closedTokens (.node (.group gs v)) =
    Token.enclosed .leftBracket .rightBracket (Token.row (gs.map tokens)) ++
      Token.enclosed .leftBrace .rightBrace v.tokens :=
  (closedTokens_of_not_open (t := .node (.group gs v)) nofun).trans (tokens_group gs v)

theorem tokens_assign (x : String) (v : Term) :
    tokens (.node (.assign x v)) = .name x :: .symbol .equal :: v.tokens := by
  rw [tokens, phrase_node]
  rfl

/-! ### The tokens of a term derive it -/

theorem separated_row {P : List Token → Term → Prop} {f : Term → List Token} :
    ∀ {x : Term} {xs : List Term}, (∀ y ∈ x :: xs, P (f y) y) →
      Separated P (.symbol .comma) (Token.row ((x :: xs).map f)) (x :: xs)
  | x, [], h => .one (h x List.mem_cons_self)
  | x, y :: xs, h => by
      have hrest := separated_row fun z hz => h z (List.mem_cons_of_mem x hz)
      exact .cons (h x List.mem_cons_self) hrest

theorem sepBy_row {P : List Token → Term → Prop} {f : Term → List Token} {xs : List Term}
    (h : ∀ x ∈ xs, P (f x) x) : SepBy P (.symbol .comma) (Token.row (xs.map f)) xs := by
  cases xs with
  | nil => exact .none
  | cons x xs => exact .row (separated_row h)

theorem sepEndBy_row {P : List Token → Term → Prop} {f : Term → List Token} {xs : List Term}
    (h : ∀ x ∈ xs, P (f x) x) : SepEndBy P (.symbol .comma) (Token.row (xs.map f)) xs := by
  cases xs with
  | nil => exact .none
  | cons x xs => exact .row (separated_row h)

/-- An open phrase between parentheses is an atom. -/
theorem derives_of_open {t : Term} (hopen : t.isOpen = true) (h : IsTerm t.tokens t) :
    IsTerm t.tokens t ∧ IsApply t.closedTokens t := by
  refine ⟨h, ?_⟩
  rw [closedTokens_of_open hopen]
  exact .atom (.parens h)

theorem derives_of_not_open {t : Term} (hclosed : ¬ t.isOpen = true) (h : IsApply t.tokens t) :
    IsTerm t.tokens t ∧ IsApply t.closedTokens t := by
  refine ⟨.apply h, ?_⟩
  rwa [closedTokens_of_not_open hclosed]

theorem derives_tokens (t : Term) : IsTerm t.tokens t ∧ IsApply t.closedTokens t := by
  induction t using Tree.induction with
  | leaf a => exact derives_of_not_open nofun (.atom .underscore)
  | node l ih =>
      cases l with
      | apply f xs =>
          obtain ⟨hf, hxs⟩ := List.forall_mem_cons.1 ih
          refine derives_of_not_open nofun ?_
          rw [tokens_apply]
          exact .call hf.2 (sepEndBy_row fun x hx => (hxs x hx).1)
      | lambda ps b =>
          obtain ⟨hps, hb⟩ := List.forall_mem_append.1 ih
          refine derives_of_open rfl ?_
          rw [tokens_lambda]
          exact .lambda (sepBy_row fun p hp => (hps p hp).2) (hb b List.mem_cons_self).1
      | assign x v =>
          refine derives_of_open rfl ?_
          rw [tokens_assign]
          exact .assign (ih v List.mem_cons_self).1
      | name x => exact derives_of_not_open nofun (.atom (.name x))
      | literal v => exact derives_of_not_open nofun (.atom (.literal v))
      | group gs v =>
          obtain ⟨hgs, hv⟩ := List.forall_mem_append.1 ih
          refine derives_of_not_open nofun ?_
          rw [tokens_group]
          exact .atom (.group (sepEndBy_row fun g hg => (hgs g hg).1) (hv v List.mem_cons_self).1)

theorem isTerm_tokens (t : Term) : IsTerm t.tokens t := (derives_tokens t).1

end Term

end Redline
