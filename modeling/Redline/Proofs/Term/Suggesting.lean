import Redline.Proofs.Parsing.Suggesting
import Redline.Proofs.Term.Breaking
import Redline.Proofs.Term.Typeable

/-! # What the parsers of terms suggest

Whatever a parser of the grammar expects where it fails can be typed there: a token that is
suggested goes on to a member of its language (`suggests_atom`, `suggests_apply`,
`suggests_lambda`, `suggests_assign`).  For that each rest of a rule is completed in the shortest
way: a list by nothing, a term by a name.

A problem is told in texts.  A token that is suggested has a lexeme, as those of the source do.  So
its text is not that of another token that was found instead (`found_notMem_expected`), and with the
tokens before it, it starts a source that can be read (`starts_typed`).  Main statement:
`exists_suggestsAt_of_error`. -/

namespace Redline.Term

open Parsing Parsing.Parser

namespace Grammar

/-! ### Single tokens -/

theorem suggests_literal : literal.Suggests Typeable fun ts => ∃ v, ts = [.literal v] := by
  refine Suggests.labelled (.congr (.select _) fun ts => ?_) _
  constructor
  · rintro ⟨v, rfl⟩
    exact ⟨_, rfl, rfl⟩
  · rintro ⟨v, rfl, hv⟩
    cases v <;> cases hv
    exact ⟨_, rfl⟩

theorem suggests_identifier : identifier.Suggests Typeable fun ts => ∃ x, ts = [.name x] := by
  refine .congr (.select _) fun ts => ?_
  constructor
  · rintro ⟨x, rfl⟩
    exact ⟨_, rfl, rfl⟩
  · rintro ⟨v, rfl, hv⟩
    cases v <;> cases hv
    exact ⟨_, rfl⟩

theorem suggests_underscore : underscore.Suggests Typeable (· = [.underscore]) :=
  ((Suggests.just typeable_underscore).return _).labelled _

theorem suggests_variableName : variableName.Suggests Typeable fun ts => ∃ x, ts = [.name x] :=
  (suggests_identifier.return _).labelled _

/-! ### Over the parser of subterms -/

theorem suggests_between {α : Type} {opening closing : Symbol} {L : List Token → Prop}
    {p : Parser Token α} (hp : p.Suggests Typeable L) {us : List Token} (hus : L us) :
    (between (.symbol opening) (.symbol closing) p).Suggests Typeable
      (Enclosed opening closing L) :=
  (Suggests.between (typeable_symbol opening) (typeable_symbol closing) hp hus).congr
    fun _ => enclosed_iff

section Over

variable {term : Parser Token Term} (hterm : term.Suggests Typeable (Derives IsTerm))
  (hsound : term.Sound IsTerm)

include hterm

/-- A term behind a symbol, as in assignments and at the end of abstractions. -/
theorem suggests_behind (s : Symbol) (f : Term → Term) :
    (symbol s >>= fun _ => term >>= fun t => Pure.pure (f t)).Suggests Typeable
      (Then (· = [.symbol s]) (Derives IsTerm)) :=
  (Suggests.just (typeable_symbol s)).bind (fun _ => hterm.return f) derives_name

theorem suggests_assign : (assign term).Suggests Typeable IsAssign := by
  have hall := suggests_identifier.bind
    (fun x => suggests_behind hterm .equal fun value => .node (.assign x value))
    ⟨[.symbol .equal], _, rfl, rfl, derives_name⟩
  exact (hall.labelled _).congr fun _ => isAssign_iff

include hsound

theorem suggests_termList : (termList term).Suggests Typeable IsTermList :=
  hterm.sepEndBy (typeable_symbol .comma) derives_name hsound

theorem suggests_group : (group term).Suggests Typeable
    (Then (Enclosed .leftBracket .rightBracket IsTermList)
      (Enclosed .leftBrace .rightBrace (Derives IsTerm))) := by
  have htag : (inBrackets (termList term)).Suggests Typeable
      (Enclosed .leftBracket .rightBracket IsTermList) :=
    suggests_between (suggests_termList hterm hsound) isTermList_nil
  have hvalue : (inBraces term).Suggests Typeable
      (Enclosed .leftBrace .rightBrace (Derives IsTerm)) := suggests_between hterm derives_name
  exact (htag.bind (fun tag => hvalue.return _) ⟨_, rfl, derives_name⟩).labelled _

theorem suggests_atom : (atom term).Suggests Typeable (Derives IsAtom) := by
  have hparens : (inParens term).Suggests Typeable
      (Enclosed .leftParen .rightParen (Derives IsTerm)) := suggests_between hterm derives_name
  have hall := suggests_literal.orElse (suggests_underscore.orElse
    (suggests_variableName.orElse ((suggests_group hterm hsound).orElse hparens)))
  exact hall.congr fun _ => derives_isAtom_iff

theorem suggests_apply : (apply term).Suggests Typeable (Derives IsApply) := by
  have harguments : (inParens (termList term)).Suggests Typeable
      (Enclosed .leftParen .rightParen IsTermList) :=
    suggests_between (suggests_termList hterm hsound) isTermList_nil
  exact ((suggests_atom hterm hsound).bind (fun callee => harguments.repeated.return _) .nil).congr
    fun _ => derives_isApply_iff

theorem suggests_lambda : (lambda term).Suggests Typeable
    (Then (· = [.lambda]) (Then (Derives (SepBy IsApply (.symbol .comma)))
      (Then (· = [.symbol .dot]) (Derives IsTerm)))) := by
  have hparameters := (suggests_apply hterm hsound).sepBy (typeable_symbol .comma)
    (derives_applyName "x")
  have hrest := hparameters.bind
    (fun parameters => suggests_behind hterm .dot fun body => .node (.lambda parameters body))
    ⟨[.symbol .dot], _, rfl, rfl, derives_name⟩
  exact ((Suggests.just typeable_lambda).bind (fun _ => hrest)
    ⟨[], _, rfl, ⟨[], .none⟩, _, _, rfl, rfl, derives_name⟩).labelled _

theorem suggests_termOver : (termOver term).Suggests Typeable (Derives IsTerm) :=
  ((suggests_lambda hterm hsound).orElse
    ((suggests_assign hterm).orElse (suggests_apply hterm hsound))).congr
    fun _ => derives_isTerm_iff

end Over

/-! ### Terms of any depth -/

theorem suggests_nested : ∀ n, (nested termOver n).Suggests Typeable (Derives IsTerm)
  | 0 => suggests_fail
  | n + 1 => by
      rw [nested_succ]
      exact suggests_termOver (suggests_nested n) (sound_nested n)

theorem suggests_fix : (fix termOver).Suggests Typeable (Derives IsTerm) :=
  fun c => suggests_nested (c.rest.length + 1) c

theorem suggests_term : term.Suggests Typeable (Derives IsTerm) := (suggests_fix.labelled _).spanned

theorem suggests_terms : terms.Suggests Typeable (Derives IsSource) := by
  have hterm := suggests_term.congr fun _ => derives_spanned_iff
  have hterms := hterm.sepEndBy (typeable_symbol .semicolon)
    (derives_spanned_iff.2 derives_name) sound_term
  exact hterms.congr fun _ => (derives_sepEndBy_congr fun _ => derives_spanned_iff).symm

end Grammar

open Grammar

/-! ### What can be read -/

/-- The parser reads the tokens, wherever they stand. -/
def Accepts {α : Type} (p : Parser Token α) (ts : List Token) : Prop :=
  ∀ (tokens : List (Spanned Token)) (atEnd : Span), tokens.map (·.value) = ts →
    ∃ a, p.parse tokens atEnd = .ok a

theorem accepts_term {ts : List Token} (h : Derives IsTerm ts) : Accepts Grammar.term ts := by
  rintro tokens atEnd rfl
  obtain ⟨t, ht⟩ := h
  obtain ⟨c', hr, hrest⟩ := (reads_all_iff sound_fix takes_fix stops_none (e := atEnd)).2 ht
  exact ⟨⟨_, t⟩, parse_eq_ok_iff.2 ⟨c', read_term_eq_some.2 ⟨hr, rfl⟩, hrest⟩⟩

theorem accepts_terms {ts : List Token} (h : Derives IsSource ts) : Accepts Grammar.terms ts := by
  rintro tokens atEnd rfl
  obtain ⟨xs, hxs⟩ := h
  obtain ⟨c', hread, hrest⟩ := (reads_all_iff sound_fix.sepEndBy takes_terms rfl (e := atEnd)).2 hxs
  obtain ⟨⟨ys, _⟩, hr, hc⟩ := Option.map_eq_some_iff.1 ((read_terms _).symm.trans hread)
  obtain rfl := (Prod.mk.inj hc).2
  exact ⟨ys, parse_eq_ok_iff.2 ⟨_, hr, hrest⟩⟩

/-- The tokens are those of a source, and the parser reads them. -/
structure Typed {α : Type} (p : Parser Token α) (ts : List Token) : Prop where
  source : ∃ source tokens, Token.scan source = .ok tokens ∧ tokens.map (·.value) = ts
  accepts : Accepts p ts

/-! ### Suggestions of problems -/

/-- The problem is an unexpected token, number `k`, or the unexpected end of the source if there is
no such token.  What was found is not expected.  Each text that is expected is that of a token that
can be typed, and the tokens before number `k` and this one start a source that `p` reads; if the
end is expected then the tokens before it are such a source. -/
structure SuggestsAt {α : Type} (p : Parser Token α) (source : String)
    (tokens : List (Spanned Token)) (problem : Problem String) (k : Nat) : Prop where
  le : k ≤ tokens.length
  reason : problem.reason = .unexpected
  pointsAt : PointsAt source tokens problem k
  found : problem.found ∉ problem.expected
  continues : ∀ text, some text ∈ problem.expected → ∃ x : Token, x.render = text ∧ Typeable x ∧
    Starts (Typed p) ((tokens.map (·.value)).take k ++ [x])
  completes : none ∈ problem.expected → Typed p ((tokens.map (·.value)).take k)

theorem map_render_inj {e o : Option Token} (he : ∀ x ∈ e, Typeable x)
    (ho : ∀ t ∈ o, Typeable t) (h : e.map Token.render = o.map Token.render) : e = o := by
  cases e with
  | none => exact (Option.map_eq_none_iff.1 h.symm).symm
  | some x =>
      obtain ⟨t, rfl, ht⟩ := Option.map_eq_some_iff.1 h.symm
      rw [render_inj (he x rfl) (ho t rfl) ht.symm]

/-- The text that was found is that of no other token, so it is not expected either. -/
theorem found_notMem_expected {us : List Token} {c : Cursor Token} {f : Failure Token}
    {L : List Token → Prop} (hc : ∀ t ∈ c.values, Typeable t) (hat : f.At c)
    (hfound : f.problem.found ∉ f.problem.expected)
    (he : ∀ e ∈ f.problem.expected, Completes Typeable L us e) :
    (f.problem.map Token.render).found ∉ (f.problem.map Token.render).expected := by
  intro hmem
  obtain ⟨e, hexpected, hsame⟩ := List.mem_map.1 hmem
  refine hfound (map_render_inj (fun x hx => ?_) (fun t ht => ?_) hsame ▸ hexpected)
  · rcases he e hexpected with ⟨y, rfl, hy, -⟩ | ⟨rfl, -⟩
    · cases hx
      exact hy
    · cases hx
  · rw [hat.found, Cursor.next_eq_head?] at ht
    exact hc t (List.mem_of_mem_head? ht)

section Suggestions

variable {α : Type} {p : Parser Token α} {L : List Token → Prop}
  (haccepts : ∀ {ts}, L ts → Accepts p ts)

include haccepts

theorem typed_of_typeable {us : List Token} (hus : ∀ u ∈ us, Typeable u) (h : L us) : Typed p us :=
  ⟨exists_source hus, haccepts h⟩

variable (hrename : ∀ (f : String → String) {ts}, L ts → L (ts.map (Token.rename f)))

include hrename

theorem starts_typed {us : List Token} (hus : ∀ u ∈ us, Typeable u) (h : Starts L us) :
    Starts (Typed p) us :=
  (starts_typeable hrename hus h).mono fun _ hts => typed_of_typeable haccepts hts.2 hts.1

theorem exists_suggestsAt (hp : p.Suggests Typeable L) {source : String}
    {tokens : List (Spanned Token)} (hscan : Token.scan source = .ok tokens)
    {problem : Problem String} (hr : parseBy p source = .error problem) :
    ∃ k, SuggestsAt p source tokens problem k := by
  unfold parseBy at hr
  rw [hscan] at hr
  obtain ⟨problem, hparse, rfl⟩ := error_of_mapError hr
  obtain ⟨f, rfl, us, c', hpass, hat, hfound, he⟩ := hp.parse hparse
  have hvalues : tokens.map (·.value) = us ++ c'.values := Cursor.values_of_passes hpass
  have htake : (tokens.map (·.value)).take us.length = us := by rw [hvalues, List.take_left]
  obtain ⟨hus, hrest⟩ := List.forall_mem_append.1 (hvalues ▸ typeable_of_scan hscan)
  refine ⟨us.length, ?_, ?_, pointsAt_of_at hpass hat, ?_, ?_, ?_⟩
  · have hlength := congrArg List.length hvalues
    rw [List.length_map, List.length_append] at hlength
    omega
  · change f.problem.reason.map Token.render = _
    rw [hat.reason]
    rfl
  · exact found_notMem_expected hrest hat hfound he
  · intro text hmem
    obtain ⟨e, hexpected, hsome⟩ := List.mem_map.1 hmem
    obtain ⟨x, rfl, hx⟩ := Option.map_eq_some_iff.1 hsome
    rcases he _ hexpected with ⟨y, hy, htypeable, hstarts⟩ | ⟨hy, -⟩
    · cases hy
      rw [htake]
      have hall := List.forall_mem_append.2 ⟨hus, List.forall_mem_singleton.2 htypeable⟩
      exact ⟨x, hx, htypeable, starts_typed haccepts hrename hall hstarts⟩
    · cases hy
  · intro hmem
    obtain ⟨e, hexpected, hnone⟩ := List.mem_map.1 hmem
    obtain rfl := Option.map_eq_none_iff.1 hnone
    rcases he _ hexpected with ⟨y, hy, -⟩ | ⟨-, hmember⟩
    · cases hy
    · rw [htake]
      exact typed_of_typeable haccepts hus hmember

end Suggestions

/-- What the problem of a source suggests can be typed where it is told, and something can be typed
behind it with which the source is read.  This holds for a source that should be one term and for
one that should be a list of terms. -/
theorem exists_suggestsAt_of_error {source : String} {tokens : List (Spanned Token)}
    (hscan : Token.scan source = .ok tokens) :
    (∀ problem, parse source = .error problem →
      ∃ k, SuggestsAt Grammar.term source tokens problem k) ∧
    ∀ problem, parseAll source = .error problem →
      ∃ k, SuggestsAt Grammar.terms source tokens problem k :=
  ⟨fun _ => exists_suggestsAt accepts_term derives_rename suggests_term hscan,
    fun _ => exists_suggestsAt accepts_terms derives_source_rename suggests_terms hscan⟩

/-- Behind a name the source may end or the name be called, and in a list another term may
follow. -/
theorem suggestsAt_two_names :
    Token.scan "x y" = .ok [⟨⟨0, 1⟩, .name "x"⟩, ⟨⟨2, 3⟩, .name "y"⟩] ∧
    (∃ problem, parse "x y" = .error problem ∧ problem.expected = [none, some "("] ∧
      SuggestsAt Grammar.term "x y" [⟨⟨0, 1⟩, .name "x"⟩, ⟨⟨2, 3⟩, .name "y"⟩] problem 1) ∧
    ∃ problem, parseAll "x y" = .error problem ∧
      problem.expected = [none, some ";", some ";", some "("] ∧
      SuggestsAt Grammar.terms "x y" [⟨⟨0, 1⟩, .name "x"⟩, ⟨⟨2, 3⟩, .name "y"⟩] problem 1 := by
  have hscan : Token.scan "x y" = .ok [⟨⟨0, 1⟩, .name "x"⟩, ⟨⟨2, 3⟩, .name "y"⟩] := by rfl
  obtain ⟨hterm, hterms⟩ := exists_suggestsAt_of_error hscan
  refine ⟨hscan, ⟨_, rfl, rfl, ?_⟩, _, rfl, rfl, ?_⟩
  · obtain ⟨k, hk⟩ := hterm _ rfl
    obtain rfl := hk.pointsAt.unique hscan (k := 1) ⟨rfl, rfl⟩ hk.le (by decide)
    exact hk
  · obtain ⟨k, hk⟩ := hterms _ rfl
    obtain rfl := hk.pointsAt.unique hscan (k := 1) ⟨rfl, rfl⟩ hk.le (by decide)
    exact hk

end Redline.Term
