import Redline.Proofs.Parsing.Guarded
import Redline.Proofs.Term.Locating
import Redline.Proofs.Token.Scan

/-! # Progress of parsing

The parser of terms is guarded: on each of the paths that lead from a term to another within it, a
token is read first (`guarded_termOver`).  Every item that the lexer or the grammar repeats reads a
character or a token.  So the nestings of terms and the rounds of the loops come to an end by
themselves, and as many of either as the source has characters, and one more, are enough to scan and
to parse it.  Main statement: `parsing_progresses`. -/

namespace Redline

namespace Token

open Parsing Parsing.Parser

namespace Lexer

theorem consumes_quoted : quoted.Consumes :=
  sound_quoted.consumes fun _ _ h => by cases h <;> exact List.cons_ne_nil _ _

/-- Padding is a loop over blanks. -/
theorem exists_read_blanks (c : Cursor Char) :
    ∃ w, (repeated (satisfy Text.isBlank)).read c = some (w, c.dropWhile Text.isBlank) :=
  ⟨_, read_repeated_satisfy_eq_some.2 (Cursor.passesAll_dropWhile Text.isBlank c)⟩

theorem consumes_item : item.Consumes := by
  intro c x c' hr
  unfold item at hr
  rw [read_padded, read_spanned] at hr
  simp only [Option.map_eq_some_iff, Prod.exists, Prod.mk.injEq] at hr
  obtain ⟨_, _, ⟨t, d, ht, -, rfl⟩, -, rfl⟩ := hr
  obtain ⟨l, hpass, hl, -⟩ := sound_token ht
  obtain ⟨_, _, rfl, -⟩ := hl.head
  have hlexeme : Cursor.Before _ d := ⟨_, _, hpass⟩
  have hblanks := (Cursor.passesAll_dropWhile Text.isBlank c).passes
  exact (hlexeme.after_passes hblanks).of_passes (Cursor.passesAll_dropWhile Text.isBlank d).passes

end Lexer

open Lexer

/-- Every token has a character of its own. -/
theorem length_le_of_scan {source : String} {ts : List (Spanned Token)}
    (h : scan source = .ok ts) : ts.length ≤ source.toList.length := by
  obtain ⟨c', hr, -⟩ := parse_eq_ok_iff.1 h
  have hrounds := (consumes_item.repeatable.rounds hr).1
  change ts.length + c'.rest.length ≤ (characters 0 source.toList).length at hrounds
  rw [length_characters] at hrounds
  omega

/-- The tokens of a source, in `n` rounds at most, behind which `bottom` would take over. -/
def scanWithin (bottom : Parser Char (List (Spanned Token))) (n : Nat) (source : String) :
    Except (Problem Char) (List (Spanned Token)) :=
  let cs := source.toList
  ((round item)^[n] bottom).parse (characters 0 cs) ⟨cs.length, cs.length⟩

theorem scan_within (bottom : Parser Char (List (Spanned Token))) {source : String} {n : Nat}
    (hn : source.toList.length < n) : scanWithin bottom n source = scan source := by
  refine parse_congr (consumes_item.repeatable.terminates.within bottom ?_)
  change (characters 0 source.toList).length < n
  rwa [length_characters]

end Token

namespace Term

open Parsing Parsing.Parser

namespace Grammar

/-! ### The parser of terms is guarded -/

theorem consumes_between {α : Type} {opening closing : Symbol} {p : Parser Token α}
    {P : List Token → α → Prop} (hp : p.Sound P) :
    (between (.symbol opening) (.symbol closing) p).Consumes :=
  (sound_between hp).consumes fun _ _ ⟨_, h, _⟩ => h ▸ List.cons_ne_nil _ _

theorem ne_nil_of_isTerm {ts : List Token} {t : Term} (h : IsTerm ts t) : ts ≠ [] := by
  rintro rfl
  exact not_derives_nil ⟨t, h⟩

section Over

variable {t u : Parser Token Term} (ht : t.Sound IsTerm)

include ht

theorem consumes_of_sound : t.Consumes := ht.consumes fun _ _ => ne_nil_of_isTerm

theorem consumes_atom : (atom t).Consumes :=
  (sound_atom ht).consumes fun _ _ h => ne_nil_of_isTerm (.apply (.atom h))

theorem consumes_apply : (apply t).Consumes :=
  (sound_apply ht).consumes fun _ _ h => ne_nil_of_isTerm (.apply h)

theorem consumes_arguments : (inParens (termList t)).Consumes :=
  consumes_between (sound_termList ht)

variable {c : Cursor Token} (h : ∀ d, c.Before d → t.run d = u.run d)

include h

theorem run_termList_congr {d : Cursor Token} (hd : c.Before d) :
    (termList t).run d = (termList u).run d := by
  refine run_sepEndBy_congr (D := c.Before) ?_ h (fun hd hx => hd.of_passes hx) hd
  intro d e a hd hr
  exact hd.trans (consumes_of_sound ht hr)

theorem run_group_congr : (group t).run c = (group u).run c := by
  refine run_labelled_congr _ (run_bind_congr ?_ fun tag d hr => ?_)
  · exact run_between_congr fun _ => run_termList_congr ht h
  · have hd : c.Before d := consumes_between (sound_termList ht) hr
    exact run_bind_congr (run_between_congr fun e he => h e (hd.trans he)) fun _ _ _ => rfl

theorem run_atom_congr : (atom t).run c = (atom u).run c :=
  run_firstOf_congr <| .cons rfl <| .cons rfl <| .cons rfl <|
    .cons (run_group_congr ht h) <| .cons (run_between_congr h) .nil

theorem run_apply_congr : (apply t).run c = (apply u).run c := by
  refine run_bind_congr (run_atom_congr ht h) fun callee d hr => run_bind_congr ?_ fun _ _ _ => rfl
  -- The calls stand behind the callee, and stay behind `c` from one round to the next.
  refine run_repeated_congr (D := c.Before) ?_ (fun e he => ?_) (consumes_atom ht hr)
  · intro e f xs he hr
    exact he.trans (consumes_arguments ht hr)
  · exact run_between_congr fun f hf => run_termList_congr ht h (he.trans hf)

theorem run_lambda_congr : (lambda t).run c = (lambda u).run c := by
  refine run_labelled_congr _ (run_bind_congr rfl fun _ d hr => ?_)
  have hd : c.Before d := ⟨_, _, (read_just_eq_some.1 hr).2⟩
  refine run_bind_congr ?_ fun parameters e hr => run_bind_congr rfl fun _ f hdot => ?_
  · refine run_sepBy_congr (D := c.Before) ?_ (fun e he => ?_) (fun he hx => he.of_passes hx) hd
    · intro e f a he hr
      exact he.trans (consumes_apply ht hr)
    · exact run_apply_congr ht fun f hf => h f (he.trans hf)
  · obtain ⟨_, hps, -⟩ := (sound_apply ht).sepBy hr
    have hf := (hd.of_passes hps).of_passes (read_just_eq_some.1 hdot).2
    exact run_bind_congr (h f hf) fun _ _ _ => rfl

omit ht in
theorem run_assign_congr : (assign t).run c = (assign u).run c := by
  refine run_labelled_congr _ (run_bind_congr rfl fun x d hr => run_bind_congr rfl fun _ e heq => ?_)
  have hd : c.Before d := ⟨_, _, read_identifier_eq_some.1 hr⟩
  have he := hd.of_passes (read_just_eq_some.1 heq).2
  exact run_bind_congr (h e he) fun _ _ _ => rfl

theorem run_termOver_congr : (termOver t).run c = (termOver u).run c :=
  run_firstOf_congr <| .cons (run_lambda_congr ht h) <| .cons (run_assign_congr h) <|
    .cons (run_apply_congr ht h) .nil

end Over

/-- Before a term is looked for within another, a token of the other has been read. -/
theorem guarded_termOver : Guarded (·.Sound IsTerm) termOver where
  keeps := sound_termOver
  run_congr := fun ht h => run_termOver_congr ht h

theorem terminates_termOver : Terminates termOver (fix termOver) :=
  guarded_termOver.terminates_fix (sound_nested 0)

theorem consumes_term : term.Consumes := sound_term.consumes fun _ _ => ne_nil_of_isTerm

/-! ### Budgets -/

/-- `term` with `n` nestings over `bottom`. -/
def termWithin (bottom : Parser Token Term) (n : Nat) : Parser Token (Spanned Term) :=
  spanned (labelled "term" (termOver^[n] bottom))

/-- `terms` with `n` nestings over `bottom`. -/
def termsWithin (bottom : Parser Token Term) (n : Nat) : Parser Token (List (Spanned Term)) :=
  sepEndBy (termWithin bottom n) (symbol .semicolon)

variable (bottom : Parser Token Term) {n : Nat}

theorem run_termWithin {c : Cursor Token} (hn : c.rest.length < n) :
    (termWithin bottom n).run c = term.run c :=
  run_spanned_congr (run_labelled_congr _ (terminates_termOver.within bottom hn))

theorem run_termsWithin {c : Cursor Token} (hn : c.rest.length < n) :
    (termsWithin bottom n).run c = terms.run c := by
  symm
  refine run_sepEndBy_congr (D := fun c => c.rest.length < n) ?_
    (fun d hd => (run_termWithin bottom hd).symm) ?_ hn
  · intro d e x hd hr
    exact (consumes_term hr).length_lt.trans hd
  · intro d e hd hx
    have hbefore : d.Before e := ⟨_, _, hx⟩
    exact hbefore.length_lt.trans hd

end Grammar

open Grammar

theorem parseBy_congr {α : Type} {p q : Parser Token α} {source : String}
    (h : ∀ {c : Cursor Token}, c.rest.length ≤ source.toList.length → p.run c = q.run c) :
    parseBy p source = parseBy q source := by
  unfold parseBy
  cases hscan : Token.scan source with
  | error problem => rfl
  | ok tokens =>
      change (p.parse tokens _).mapError _ = (q.parse tokens _).mapError _
      rw [parse_congr (h (Token.length_le_of_scan hscan))]

theorem parse_within (bottom : Parser Token Term) {source : String} {n : Nat}
    (hn : source.toList.length < n) : parseBy (termWithin bottom n) source = parse source :=
  parseBy_congr fun hc => run_termWithin bottom (Nat.lt_of_le_of_lt hc hn)

theorem parseAll_within (bottom : Parser Token Term) {source : String} {n : Nat}
    (hn : source.toList.length < n) : parseBy (termsWithin bottom n) source = parseAll source :=
  parseBy_congr fun hc => run_termsWithin bottom (Nat.lt_of_le_of_lt hc hn)

/-- Parsing makes progress.

* A term within another is entered behind the place where the other starts, so no more terms are
  entered one within the other than there are tokens, and one more; and the parser of terms is the
  one solution of its equation, which as many nestings compute over whatever parser.
* Every round of a loop of the lexer and of the grammar reads an item; padding is such a loop.
* For a source, one nesting or one round more than it has characters are enough. -/
theorem parsing_progresses :
    (Guarded (·.Sound IsTerm) termOver ∧
      (∀ c d, Enters termOver (fix termOver) c d → c.Before d) ∧
      (∀ c ds, List.IsChain (Enters termOver (fix termOver)) (c :: ds) →
        (c :: ds).length ≤ c.rest.length + 1) ∧
      Terminates termOver (fix termOver)) ∧
    (Repeatable (satisfy Token.Lexer.isWordPart) ∧ Repeatable (satisfy Char.isDigit) ∧
      Repeatable (satisfy Text.isBlank) ∧
      (∀ c, ∃ w, (repeated (satisfy Text.isBlank)).read c = some (w, c.dropWhile Text.isBlank)) ∧
      Repeatable Token.Lexer.quoted ∧ Repeatable Token.Lexer.item) ∧
    (Repeatable (inParens (termList (fix termOver))) ∧
      Separable (fix termOver) (.symbol .comma) ∧
      Separable (apply (fix termOver)) (.symbol .comma) ∧ Separable term (.symbol .semicolon)) ∧
    ∀ (source : String) (n : Nat), source.toList.length < n →
      (∀ bottom, Token.scanWithin bottom n source = Token.scan source) ∧
      (∀ bottom, parseBy (termWithin bottom n) source = parse source) ∧
      ∀ bottom, parseBy (termsWithin bottom n) source = parseAll source := by
  refine ⟨⟨guarded_termOver, ?_, ?_, terminates_termOver⟩, ?_, ?_, ?_⟩
  · exact fun c d h => guarded_termOver.before_of_enters sound_fix h
  · exact fun c ds h => Nat.succ_le_succ (guarded_termOver.length_of_enters sound_fix h)
  · exact ⟨(consumes_satisfy _).repeatable, (consumes_satisfy _).repeatable,
      (consumes_satisfy _).repeatable, Token.Lexer.exists_read_blanks,
      Token.Lexer.consumes_quoted.repeatable, Token.Lexer.consumes_item.repeatable⟩
  · exact ⟨(consumes_arguments sound_fix).repeatable, (consumes_of_sound sound_fix).separable _,
      (consumes_apply sound_fix).separable _, consumes_term.separable _⟩
  · exact fun source n hn => ⟨fun bottom => Token.scan_within bottom hn,
      fun bottom => parse_within bottom hn, fun bottom => parseAll_within bottom hn⟩

/-- In `(_)` a term is entered behind the opening bracket, and four nestings are enough. -/
theorem parsing_progresses_brackets :
    (∃ c d : Cursor Token, c.values = [.symbol .leftParen, .underscore, .symbol .rightParen] ∧
      d.values = [.underscore, .symbol .rightParen] ∧ Enters termOver (fix termOver) c d ∧
      c.Before d ∧ [c, d].length ≤ c.rest.length + 1) ∧
    "(_)".toList.length < 4 ∧ Token.scanWithin fail 4 "(_)" = Token.scan "(_)" ∧
      parseBy (termWithin fail 4) "(_)" = parse "(_)" ∧
      parseBy (termsWithin fail 4) "(_)" = parseAll "(_)" := by
  obtain ⟨⟨-, hbefore, hchain, -⟩, -, -, hsource⟩ := parsing_progresses
  have hlength : "(_)".toList.length < 4 := by decide
  obtain ⟨hscan, hparse, hparseAll⟩ := hsource _ _ hlength
  refine ⟨?_, hlength, hscan fail, hparse fail, hparseAll fail⟩
  let d : Cursor Token := ⟨[⟨⟨1, 2⟩, .underscore⟩, ⟨⟨2, 3⟩, .symbol .rightParen⟩], 1, 1, ⟨3, 4⟩⟩
  let c : Cursor Token := .ofItems (⟨⟨0, 1⟩, .symbol .leftParen⟩ :: d.rest) d.ending
  have henters : Enters termOver (fix termOver) c d := by
    -- A parser that fails at this one place makes the brackets fail.
    let g : Parser Token Term := ⟨fun e => if e = d then fail.run e else (fix termOver).run e⟩
    refine ⟨g, fun e he => if_neg he, fun hrun => ?_⟩
    have hread : (termOver g).read c = (termOver (fix termOver)).read c := by
      simp only [Parser.read, hrun]
    cases hread
  exact ⟨c, d, rfl, rfl, henters, hbefore c d henters, hchain c [d] (List.isChain_pair.2 henters)⟩

end Term

end Redline
