import Redline.Proofs.Parsing.Choosing
import Redline.Proofs.Token.Scan

/-! # Where tokens fail

The parsers of words, numerals and texts locate where their languages break off (`locates_word`,
`locates_digits`, `locates_text`).  Which of the alternatives of `token` can have read anything is
settled by the character ahead, so a token that fails either fails where the lexemes break off, or
it is a numeral that has been read to its end and is too large (`fails_token`). -/

namespace Redline.Token.Lexer

open Parsing Parsing.Parser

/-- The lexemes of all tokens. -/
def IsLexeme (l : List Char) : Prop := ∃ t, Lexeme t l

/-- The lexemes of texts. -/
def IsText : List Char → Prop := Then (· = ['"']) (Then (Many (Derives Quotes)) (· = ['"']))

/-- A digit other than `0` and more digits, which stand for a number that is too large. -/
def IsOversized (ds : List Char) : Prop :=
  (∃ d ds', ds = d :: ds' ∧ (d.isDigit && d != '0') = true ∧ ∀ e ∈ ds', e.isDigit = true) ∧
    UInt64.size ≤ decimal ds

/-- The failure tells that the digits `ds` from `c` to `c'`, which no other digit follows, are too
large a number. -/
structure Overflows (f : Failure Char) (c : Cursor Char) (ds : List Char) (c' : Cursor Char) :
    Prop where
  passes : c.Passes ds c'
  oversized : IsOversized ds
  stops : ∀ d, c'.next = some d → d.isDigit = false
  index : f.index = c'.index
  span : f.problem.span = ⟨c.here.start, c'.stop⟩
  reason : f.problem.reason = .custom "number too large to fit in target type"

theorem Overflows.of_alike {f g : Failure Char} {c c' : Cursor Char} {ds : List Char}
    (hg : Overflows g c ds c') (h : f.Alike g) : Overflows f c ds c' :=
  ⟨hg.passes, hg.oversized, hg.stops, h.index.trans hg.index, h.span.trans hg.span,
    h.reason.trans hg.reason⟩

theorem IsOversized.head {ds : List Char} (h : IsOversized ds) :
    ∃ d ds', ds = d :: ds' ∧ d.isDigit = true := by
  obtain ⟨⟨d, ds', rfl, hd, -⟩, -⟩ := h
  exact ⟨d, ds', rfl, (Bool.and_eq_true_iff.1 hd).1⟩

/-- Characters may be passed wherever they stand. -/
abbrev Anywhere (_ : Cursor Char) : Prop := True

/-! ### Words -/

theorem isWord_iff {w : List Char} :
    IsWord w ↔ Then (Single (isWordStart · = true)) (Many (Single (isWordPart · = true))) w := by
  constructor
  · rintro ⟨c, cs, rfl, hc, hcs⟩
    exact ⟨[c], cs, rfl, ⟨c, rfl, hc⟩, many_single_iff.2 hcs⟩
  · rintro ⟨_, cs, rfl, ⟨c, rfl, hc⟩, hcs⟩
    exact ⟨c, cs, rfl, hc, many_single_iff.1 hcs⟩

theorem heads_word : Heads IsWord (isWordStart · = true) := by
  rintro _ ⟨c, cs, rfl, hc, -⟩
  exact ⟨c, cs, rfl, hc⟩

theorem locates_satisfy (p : Char → Bool) {v : Char} (hv : p v = true) (n : Nat) :
    (satisfy p).Locates Anywhere (Single (p · = true)) n := .satisfy (fun _ _ _ _ => trivial) hv n

/-- A character, and behind it all that satisfy a test. -/
theorem locates_satisfy_repeated {p q : Char → Bool} {u v : Char} (hu : p u = true)
    (hv : q v = true) {α : Type} (f : Char → List Char → α) (n : Nat) :
    (satisfy p >>= fun c => repeated (satisfy q) >>= fun cs => Pure.pure (f c cs)).Locates Anywhere
      (Then (Single (p · = true)) (Many (Single (q · = true)))) n := by
  have hrest : (repeated (satisfy q)).Locates Anywhere (Many (Single (q · = true))) n := by
    refine (locates_satisfy q hv n).repeated ?_ fun w _ => .single _ w
    rintro ⟨_, h, -⟩
    cases h
  refine (locates_satisfy p hu n).bind (fun c => hrest.return (f c)) (fun _ _ => ?_)
    (fun w _ => .single _ w) .nil
  exact Nat.le_add_right n _

theorem locates_word (n : Nat) : word.Locates Anywhere IsWord n :=
  .congr (locates_satisfy_repeated (u := '_') (v := '_') rfl rfl _ n) fun _ => isWord_iff

theorem contained_word : word.Contained := by
  refine contained_of_locates locates_word fun {us v ws} hus hstarts => ?_
  obtain ⟨c, cs, rfl, hc, -⟩ := hus
  obtain ⟨xs, d, ds, h, -, hall⟩ := hstarts
  rw [List.cons_append, List.cons_append] at h
  obtain ⟨rfl, rfl⟩ := List.cons.inj h
  exact ⟨c, cs ++ v :: ws, rfl, hc, fun e he => hall e (List.mem_append_left xs he)⟩

/-! ### Numerals -/

theorem isNumeral_iff {ds : List Char} : IsNumeral ds ↔
    Then (Single fun c => (c.isDigit && c != '0') = true) (Many (Single (Char.isDigit · = true))) ds
      ∨ ds = ['0'] := by
  rw [IsNumeral, or_comm]
  refine or_congr ?_ Iff.rfl
  constructor
  · rintro ⟨d, ds', rfl, hd, hds⟩
    exact ⟨[d], ds', rfl, ⟨d, rfl, hd⟩, many_single_iff.2 hds⟩
  · rintro ⟨_, ds', rfl, ⟨d, rfl, hd⟩, hds⟩
    exact ⟨d, ds', rfl, hd, many_single_iff.1 hds⟩

theorem heads_numeral : Heads IsNumeral (Char.isDigit · = true) := fun _ => IsNumeral.head

theorem locates_digits (n : Nat) : digits.Locates Anywhere IsNumeral n := by
  have hpositive := locates_satisfy_repeated (p := fun c => c.isDigit && c != '0')
    (q := Char.isDigit) (u := '1') (v := '1') rfl rfl List.cons n
  have hzero := (Locates.just (G := Anywhere) (x := '0') (fun _ _ => trivial) n).return ([·])
  refine .congr (hpositive.orElse hzero (Heads.single _).then (heads_single '0') ?_)
    fun _ => isNumeral_iff
  rintro _ hd rfl
  cases hd

theorem contained_digits : digits.Contained := by
  refine contained_of_locates locates_digits fun {us v ws} hus hstarts => ?_
  obtain ⟨d, ds, rfl, -⟩ := hus.head
  obtain ⟨xs, h | ⟨e, es, h, he, hall⟩⟩ := hstarts
  · simp at h
  · rw [List.cons_append, List.cons_append] at h
    obtain ⟨rfl, rfl⟩ := List.cons.inj h
    exact .inr ⟨d, ds ++ v :: ws, rfl, he, fun e he => hall e (List.mem_append_left xs he)⟩

/-- A natural fails where its digits do, or behind digits that are too large. -/
theorem error_of_natural {c : Cursor Char} {f : Failure Char} (hr : natural.run c = .error f) :
    Fails Anywhere IsNumeral c f ∨ ∃ ds c', Overflows f c ds c' := by
  unfold natural at hr
  rcases error_of_check hr with hr | ⟨x, c', problem, hread, hcheck, rfl⟩
  · have hdigits := locates_digits (c.rest.length + 1) c (Nat.lt_succ_self _)
    rw [hr] at hdigits
    exact .inl hdigits
  · right
    rw [read_spanned] at hread
    simp only [Option.map_eq_some_iff, Prod.exists, Prod.mk.injEq] at hread
    obtain ⟨ds, _, hds, rfl, rfl⟩ := hread
    split at hcheck
    · cases hcheck
    · next hlarge =>
        cases hcheck
        obtain ⟨hpass, rfl | ⟨d, ds, rfl, hd, hall⟩, hstop⟩ := read_digits_eq_some.1 hds
        · exact absurd (show decimal ['0'] < UInt64.size by decide) hlarge
        · simp only [runsOn_of_digit hd] at hstop
          exact ⟨_, _, hpass, ⟨⟨d, ds, rfl, hd, hall⟩, Nat.not_lt.1 hlarge⟩, hstop, rfl, rfl, rfl⟩

/-! ### Texts -/

/-- What an escape may end with. -/
def IsEscape (us : List Char) : Prop := us = ['\\'] ∨ us = ['"'] ∨ us = ['n'] ∨ us = ['t']

theorem derives_quotes_iff {us : List Char} : Derives Quotes us ↔
    Single (fun c => (c != '\\' && c != '"') = true) us ∨ Then (· = ['\\']) IsEscape us := by
  constructor
  · rintro ⟨c, hc | _⟩
    · exact .inl ⟨_, rfl, hc⟩
    · exact .inr ⟨['\\'], ['\\'], rfl, rfl, .inl rfl⟩
    · exact .inr ⟨['\\'], ['"'], rfl, rfl, .inr (.inl rfl)⟩
    · exact .inr ⟨['\\'], ['n'], rfl, rfl, .inr (.inr (.inl rfl))⟩
    · exact .inr ⟨['\\'], ['t'], rfl, rfl, .inr (.inr (.inr rfl))⟩
  · rintro (⟨c, rfl, hc⟩ | ⟨_, _, rfl, rfl, rfl | rfl | rfl | rfl⟩)
    · exact ⟨c, .raw hc⟩
    · exact ⟨_, .backslash⟩
    · exact ⟨_, .quote⟩
    · exact ⟨_, .lineFeed⟩
    · exact ⟨_, .tab⟩

theorem locates_escape (n : Nat) : escape.Locates Anywhere (Then (· = ['\\']) IsEscape) n := by
  have hjust : ∀ x : Char, (just x).Locates Anywhere (· = [x]) n :=
    fun x => .just (fun _ _ => trivial) n
  have hlast := ((hjust 'n').return fun _ => '\n').orElse ((hjust 't').return fun _ => '\t')
    (heads_single 'n') (heads_single 't') (by rintro _ rfl h; cases h)
  have hquote := (hjust '"').orElse hlast (heads_single '"')
    ((heads_single 'n').or (heads_single 't')) (by rintro _ rfl (h | h) <;> cases h)
  have hall := (hjust '\\').orElse hquote (heads_single '\\')
    ((heads_single '"').or ((heads_single 'n').or (heads_single 't')))
    (by rintro _ rfl (h | h | h) <;> cases h)
  exact (hjust '\\').bind (fun _ => hall) (fun _ _ => Nat.le_add_right n _)
    (fun v _ => ends_single '\\' v) (.inl rfl)

theorem locates_quoted (n : Nat) : quoted.Locates Anywhere (Derives Quotes) n := by
  have hraw := locates_satisfy (fun c => c != '\\' && c != '"') (v := ' ') rfl n
  refine .congr (hraw.orElse (locates_escape n) (Heads.single _) (heads_single '\\').then ?_)
    fun _ => derives_quotes_iff
  rintro _ hv rfl
  cases hv

theorem ends_quotes (v : Char) : Ends (Derives Quotes) v :=
  ends_of_takes (fun h => takes_quoted h) trivial trivial

/-- What is quoted goes on neither at the end of the source nor at a quotation mark. -/
theorem ends_many_quotes : Ends (Many (Derives Quotes)) '"' := by
  have hstops : ∀ {c : Cursor Char}, c.next = none ∨ c.next = some '"' →
      quoted.read c = none := by
    rintro c (hnone | hquote)
    · rw [Option.eq_none_iff_forall_ne_some]
      rintro ⟨a, c'⟩ hr
      obtain ⟨w, hpass, hw⟩ := sound_quoted hr
      cases hw <;> rw [Cursor.next_of_passes hpass] at hnone <;> cases hnone
    · exact read_quoted_eq_none hquote
  have htakes : ∀ {us s : List Char}, Sequence Quotes us s →
      (repeated quoted).Takes (fun v => v = none ∨ v = some '"') us s := fun hs c c' hpass hnext =>
    read_repeated_of_sequence progresses_quoted (hs.imp fun _ _ => takes_quoted) hpass
      (hstops hnext)
  exact (ends_of_takes htakes (.inl rfl) (.inr rfl)).congr fun _ => many_derives_iff

theorem isText_iff {l : List Char} :
    IsText l ↔ ∃ w s, Sequence Quotes w s ∧ l = '"' :: (w ++ ['"']) := by
  constructor
  · rintro ⟨_, _, rfl, rfl, w, _, rfl, hw, rfl⟩
    obtain ⟨s, hs⟩ := many_derives_iff.1 hw
    exact ⟨w, s, hs, rfl⟩
  · rintro ⟨w, s, hs, rfl⟩
    exact ⟨['"'], w ++ ['"'], rfl, rfl, w, ['"'], rfl, many_derives_iff.2 ⟨s, hs⟩, rfl⟩

theorem heads_text : Heads IsText (· = '"') := (heads_single '"').then

theorem locates_text (n : Nat) : text.Locates Anywhere IsText n := by
  have hjust : ∀ n, (just '"').Locates Anywhere (· = ['"']) n := .just fun _ _ => trivial
  have hquoted : (repeated quoted).Locates Anywhere (Many (Derives Quotes)) n := by
    refine (locates_quoted n).repeated ?_ fun v _ => ends_quotes v
    rintro ⟨_, h⟩
    cases h
  have hrest := hquoted.bind (f := fun cs => just '"' >>= fun _ =>
    Pure.pure (literal (.text (String.ofList cs)))) (fun _ => (hjust n).return _)
    (fun _ _ => Nat.le_add_right n _)
    (fun v hv => (heads_single '"').of_starts hv ▸ ends_many_quotes) rfl
  exact .labelled ((hjust n).bind (fun _ => hrest) (fun _ _ => Nat.le_add_right n _)
    (fun v _ => ends_single '"' v) ⟨[], ['"'], rfl, .nil, rfl⟩) "string"

theorem contained_text : text.Contained := by
  refine contained_of_locates locates_text fun {us v ws} hus ⟨xs, hxs⟩ => ?_
  rw [List.append_assoc, List.cons_append] at hxs
  exact absurd hxs ((ends_many_quotes.then_closing).then_single hus)

/-! ### Tokens -/

theorem mem_alternatives {p : Parser Char Token}
    (hp : p ∈ symbols ++ keywordTokens ++ [natural, text, nameOrUnderscore]) :
    (∃ s : Symbol, p = just s.char >>= fun _ => Pure.pure (symbol s)) ∨
      (∃ k t, p = keyword k >>= fun _ => Pure.pure t) ∨ p = natural ∨ p = text ∨
      p = nameOrUnderscore := by
  simp only [List.mem_append, List.mem_cons, List.not_mem_nil, or_false] at hp
  rcases hp with (hp | hp) | rfl | rfl | rfl
  · obtain ⟨s, -, rfl⟩ := List.mem_map.1 hp
    exact .inl ⟨s, rfl⟩
  · obtain ⟨⟨k, t⟩, -, rfl⟩ := List.mem_map.1 hp
    exact .inr (.inl ⟨k, t, rfl⟩)
  · exact .inr (.inr (.inl rfl))
  · exact .inr (.inr (.inr (.inl rfl)))
  · exact .inr (.inr (.inr (.inr rfl)))

theorem contained_just (x : Char) : (just x).Contained := by
  refine contained_of_locates (G := Anywhere) (.just fun _ _ => trivial) fun hus ⟨xs, hxs⟩ => ?_
  rw [List.append_assoc, List.cons_append] at hxs
  exact absurd hxs (ends_single x _ hus)

theorem contained_token : token.Contained := by
  refine .firstOf fun p hp => ?_
  rcases mem_alternatives hp with ⟨s, rfl⟩ | ⟨k, t, rfl⟩ | rfl | rfl | rfl
  · exact (contained_just s.char).return _
  · exact (contained_word.check _).return _
  · exact contained_digits.check _
  · exact contained_text
  · exact contained_word.return fun w => if w = "_" then underscore else name w

/-- A lexeme that starts as no word, no numeral and no symbol is that of a text. -/
theorem isText_of_isLexeme {v : Char} {us : List Char} (h : IsLexeme (v :: us))
    (hstart : isWordStart v = false) (hdigit : v.isDigit = false)
    (hsymbol : ∀ s : Symbol, s.char ≠ v) : IsText (v :: us) := by
  have hword : ¬ IsWord (v :: us) := fun hw => by
    obtain ⟨_, _, h, hv⟩ := heads_word hw
    cases h
    rw [hstart] at hv
    cases hv
  obtain ⟨t, h⟩ := h
  generalize hl : v :: us = l at h hword
  cases h with
  | symbol s => exact absurd (List.cons.inj hl).1.symm (hsymbol s)
  | underscore => exact absurd ⟨'_', [], rfl, rfl, nofun⟩ hword
  | keyword hk => exact absurd (isWord_of_keyword hk) hword
  | name hx => exact absurd hx.1 hword
  | natural hnum =>
      obtain ⟨d, ds, rfl, hd⟩ := hnum.head
      rw [← (List.cons.inj hl).1, hdigit] at hd
      cases hd
  | text hw => exact isText_iff.2 ⟨_, _, hw, rfl⟩

theorem isLexeme_of_isText {l : List Char} (h : IsText l) : IsLexeme l := by
  obtain ⟨w, s, hs, rfl⟩ := isText_iff.1 h
  exact ⟨_, .text hs⟩

theorem not_isLexeme_nil : ¬ IsLexeme [] := by
  rintro ⟨t, h⟩
  obtain ⟨_, _, hnil, -⟩ := h.head
  cases hnil

section Alternatives

variable {c : Cursor Char} {f g : Failure Char}

/-- Where no word can be read, none has started. -/
theorem isWordStart_of_error (hr : word.run c = .error g) :
    (∀ v, c.next = some v → isWordStart v = false) ∧ g.At c := by
  have hword := locates_word (c.rest.length + 1) c (Nat.lt_succ_self _)
  rw [hr] at hword
  have hstart : ∀ v, c.next = some v → isWordStart v = false := by
    intro v hv
    obtain ⟨d, hd⟩ := Cursor.exists_passes_of_next hv
    exact Bool.eq_false_iff.2 fun hstart => hword.refuses hd ⟨v, [], rfl, hstart, nofun⟩
  exact ⟨hstart, hword.at_of_heads heads_word fun v hv => by rw [hstart v hv]; nofun⟩

/-- Where no digits can be read, there are none. -/
theorem isDigit_of_fails (h : Fails Anywhere IsNumeral c g) :
    (∀ v, c.next = some v → v.isDigit = false) ∧ g.At c := by
  have hdigit : ∀ v, c.next = some v → v.isDigit = false := by
    intro v hv
    obtain ⟨d, hd⟩ := Cursor.exists_passes_of_next hv
    refine Bool.eq_false_iff.2 fun hdigit => h.refuses hd ?_
    by_cases hzero : v = '0'
    · exact .inl (by rw [hzero])
    · exact .inr ⟨v, [], rfl, by rw [hdigit, bne_iff_ne.2 hzero]; rfl, nofun⟩
  exact ⟨hdigit, h.at_of_heads heads_numeral fun v hv => by rw [hdigit v hv]; nofun⟩

theorem next_of_symbol_error {s : Symbol}
    (hr : (just s.char >>= fun _ => Pure.pure (symbol s)).run c = .error g) :
    c.next ≠ some s.char ∧ g.At c := by
  by_cases hnext : c.next = some s.char
  · obtain ⟨d, hd⟩ := Cursor.exists_passes_of_next hnext
    have hr := error_of_return hr
    rw [run_just_of_passes hd] at hr
    cases hr
  · have hr := error_of_return hr
    rw [run_just_of_ne hnext] at hr
    cases hr
    exact ⟨hnext, Failure.at_unexpected c _⟩

/-- Where no word can be read, a keyword fails as any word does. -/
theorem word_error_of_keyword {k : String} {e : Failure Char} (hword : word.run c = .error e)
    (hr : (keyword k).run c = .error g) : word.run c = .error g := by
  unfold keyword at hr
  rcases error_of_check hr with hr | ⟨x, c', problem, hread, -, -⟩
  · exact hr
  · rw [read_spanned] at hread
    simp only [Parser.read, hword, Option.map_none, reduceCtorEq] at hread

/-- A token that fails stands where no word and no symbol starts, and tells what the numeral or the
text tells, or of the place itself. -/
theorem alike_of_token_error (hr : token.run c = .error f) :
    (∀ v, c.next = some v → isWordStart v = false ∧ ∀ s : Symbol, s.char ≠ v) ∧
      ∃ i j, natural.run c = .error i ∧ text.run c = .error j ∧ i.index ≤ f.index ∧
        j.index ≤ f.index ∧ (f.Alike i ∨ f.Alike j ∨ f.At c) := by
  change (firstOf (symbols ++ keywordTokens ++ [natural, text, nameOrUnderscore])).run c = _ at hr
  obtain ⟨⟨p, hp, g, hg, hfg⟩, hall⟩ := exists_alike_of_firstOf (by simp) hr
  obtain ⟨i, hi, hile⟩ := hall natural (by simp)
  obtain ⟨j, hj, hjle⟩ := hall text (by simp)
  obtain ⟨e, he, -⟩ := hall nameOrUnderscore (by simp)
  have hword : word.run c = .error e := error_of_return he
  refine ⟨fun v hv => ⟨(isWordStart_of_error hword).1 v hv, ?_⟩, i, j, hi, hj, hile, hjle, ?_⟩
  · rintro s rfl
    obtain ⟨g, hg, -⟩ := hall (just s.char >>= fun _ => Pure.pure (symbol s))
      (List.mem_append_left _ (List.mem_append_left _ (List.mem_map_of_mem (Symbol.mem_all s))))
    exact (next_of_symbol_error hg).1 hv
  · rcases mem_alternatives hp with ⟨s, rfl⟩ | ⟨k, t, rfl⟩ | rfl | rfl | rfl
    · exact .inr (.inr ((next_of_symbol_error hg).2.of_alike hfg))
    · have hkeyword := word_error_of_keyword hword (error_of_return hg)
      exact .inr (.inr ((isWordStart_of_error hkeyword).2.of_alike hfg))
    · cases hi.symm.trans hg
      exact .inl hfg
    · cases hj.symm.trans hg
      exact .inr (.inl hfg)
    · exact .inr (.inr ((isWordStart_of_error (error_of_return hg)).2.of_alike hfg))

/-- A token that fails does so where the lexemes break off, or behind a numeral that is too
large. -/
theorem fails_token (hr : token.run c = .error f) :
    Fails Anywhere IsLexeme c f ∨ ∃ ds c', Overflows f c ds c' := by
  obtain ⟨hahead, i, j, hi, hj, hile, hjle, hf⟩ := alike_of_token_error hr
  have htext : Fails Anywhere IsText c j := by
    have htext := locates_text (c.rest.length + 1) c (Nat.lt_succ_self _)
    rwa [hj] at htext
  rcases error_of_natural hi with hdigits | ⟨ds, c', hover⟩
  · left
    obtain ⟨hdigit, hat⟩ := isDigit_of_fails hdigits
    have hfails : Fails Anywhere IsText c f := by
      rcases hf with hf | hf | hf
      · exact htext.of_at (hat.of_alike hf) hjle
      · exact htext.of_alike hf
      · exact htext.of_at hf hjle
    exact hfails.widen (fun _ => isLexeme_of_isText) not_isLexeme_nil fun v us hv hus =>
      isText_of_isLexeme hus (hahead v hv).1 (hdigit v hv) (hahead v hv).2
  · right
    rcases hf with hf | hf
    · exact ⟨ds, c', hover.of_alike hf⟩
    · -- A digit starts no text, so the failure is met before the digits, which fail behind them.
      obtain ⟨d, ds', rfl, hd⟩ := hover.oversized.head
      have hat : j.At c := htext.at_of_heads heads_text fun v hv hquote => by
        rw [Cursor.next_of_passes hover.passes] at hv
        cases hv
        rw [hquote] at hd
        cases hd
      have hindex : f.index = c.index := hf.elim (hat.of_alike · |>.index) (·.index)
      have hbehind := Cursor.index_of_passes hover.passes
      rw [← hover.index, List.length_cons] at hbehind
      omega

end Alternatives

end Redline.Token.Lexer
