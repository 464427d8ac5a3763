import Redline.Proofs.Term.Recognition

/-! # Parsing sources

A source that has tokens is read exactly as its derivations say: as one term
(`exists_parse_iff`) or as a list of terms (`exists_parseAll_iff`).  Since a parser gives one
answer, no tokens have derivations of two terms (`IsTerm.unique`).  The span of a term reaches from
the first of its tokens to the last (`SpansTerm`, `parse_iff_spansTerm`).  Main statement:
`parse_iff_derivable`. -/

namespace Redline.Term

open Parsing Parsing.Parser

namespace Grammar

/-- What `terms` reads, without the spans. -/
theorem read_terms (c : Cursor Token) :
    (sepEndBy (fix termOver) (symbol .semicolon)).read c =
      (terms.read c).map (Prod.map (List.map (·.value)) id) := by
  refine read_sepEndBy_map (fun d => ?_) c
  unfold term
  rw [read_spanned, read_labelled]
  cases (fix termOver).read d <;> rfl

theorem takes_terms {ts : List Token} {xs : List Term} (h : IsSource ts xs) :
    (sepEndBy (fix termOver) (symbol .semicolon)).Takes (· = none) ts xs := by
  have hrow : SepEndBy ((fix termOver).Takes Stops) (.symbol .semicolon) ts xs :=
    SepEndBy.imp h fun _ _ _ => takes_fix
  intro c c' hpass hnext
  refine takes_sepEndBy (progresses_of_sound sound_fix) stops_semicolon hrow hpass ?_
  rw [hnext]
  exact ⟨stops_none, nofun, refuses_of_sound sound_fix stops_none⟩

/-- The tokens have a derivation of a term, and its span reaches from the first of them to the
last. -/
structure SpansTerm (tokens : List (Spanned Token)) (x : Spanned Term) : Prop where
  isTerm : IsTerm (tokens.map (·.value)) x.value
  start : tokens.head?.map (·.span.start) = some x.span.start
  stop : tokens.getLast?.map (·.span.stop) = some x.span.stop

/-- There is a first token and a last one. -/
theorem IsTerm.ne_nil {tokens : List (Spanned Token)} {t : Term}
    (h : IsTerm (tokens.map (·.value)) t) : tokens ≠ [] := by
  rintro rfl
  obtain ⟨v, vs, hv, -⟩ := h.head
  cases hv

theorem here_eq_head {c : Cursor Token} {tokens rest : List (Spanned Token)} (h : tokens ≠ [])
    (hrest : c.rest = tokens ++ rest) :
    tokens.head?.map (·.span.start) = some c.here.start ∧
      tokens.getLast?.map (·.span.stop) = some (c.past tokens rest).stop := by
  obtain ⟨s, ss, rfl⟩ := List.exists_cons_of_ne_nil h
  rw [Cursor.here, hrest, Cursor.past, List.getLast?_cons]
  exact ⟨rfl, rfl⟩

theorem read_term_eq_some {c c' : Cursor Token} {x : Spanned Term} :
    term.read c = some (x, c') ↔
      (fix termOver).read c = some (x.value, c') ∧ x.span = ⟨c.here.start, c'.stop⟩ := by
  unfold term
  rw [read_spanned, read_labelled]
  cases (fix termOver).read c with
  | none => simp
  | some r =>
      obtain ⟨span, t⟩ := x
      simp only [Option.map_some, Option.some.injEq, Spanned.mk.injEq, Prod.ext_iff]
      constructor
      · rintro ⟨⟨rfl, rfl⟩, rfl⟩
        exact ⟨⟨rfl, rfl⟩, rfl⟩
      · rintro ⟨⟨rfl, rfl⟩, rfl⟩
        exact ⟨⟨rfl, rfl⟩, rfl⟩

theorem spansTerm_of_read {c c' : Cursor Token} {x : Spanned Term}
    (h : term.read c = some (x, c')) : ∃ tokens rest, c.rest = tokens ++ rest ∧
      SpansTerm tokens x ∧ c' = c.past tokens rest := by
  obtain ⟨hread, hspan⟩ := read_term_eq_some.1 h
  obtain ⟨ts, hpass, hts⟩ := sound_fix hread
  obtain ⟨tokens, rest, hrest, rfl, rfl⟩ := Cursor.passes_iff_past.1 hpass
  obtain ⟨hstart, hstop⟩ := here_eq_head hts.ne_nil hrest
  refine ⟨tokens, rest, hrest, ⟨hts, ?_, ?_⟩, rfl⟩
  · rw [hspan, hstart]
  · rw [hspan, hstop]

theorem SpansTerm.read {c : Cursor Token} {tokens rest : List (Spanned Token)} {x : Spanned Term}
    (h : SpansTerm tokens x) (hrest : c.rest = tokens ++ rest)
    (hstops : Stops (c.past tokens rest).next) :
    term.read c = some (x, c.past tokens rest) := by
  have hpass : c.Passes (tokens.map (·.value)) (c.past tokens rest) :=
    Cursor.passes_iff_past.2 ⟨tokens, rest, hrest, rfl, rfl⟩
  obtain ⟨hstart, hstop⟩ := here_eq_head h.isTerm.ne_nil hrest
  rw [h.start, Option.some.injEq] at hstart
  rw [h.stop, Option.some.injEq] at hstop
  refine read_term_eq_some.2 ⟨takes_fix h.isTerm hpass hstops, ?_⟩
  rw [← hstart, ← hstop]

/-- No tokens have derivations of two terms. -/
theorem IsTerm.unique {ts : List Token} {s t : Term} (hs : IsTerm ts s) (ht : IsTerm ts t) :
    s = t := by
  let items : List (Spanned Token) := ts.map fun v => ⟨⟨0, 0⟩, v⟩
  have hvalues : items.map (·.value) = ts := by simp [items, Function.comp_def]
  have hread : ∀ {t : Term}, IsTerm ts t →
      ∃ c', (fix termOver).read (.ofItems items ⟨0, 0⟩) = some (t, c') ∧ c'.rest = [] :=
    fun h => (reads_all_iff sound_fix takes_fix stops_none).2 (hvalues.symm ▸ h)
  obtain ⟨_, hs, -⟩ := hread hs
  obtain ⟨_, ht, -⟩ := hread ht
  rw [hs] at ht
  cases ht
  rfl

end Grammar

open Grammar

/-! ### Sources -/

theorem parseBy_eq_ok_iff {α : Type} {p : Parser Token α} {source : String}
    {tokens : List (Spanned Token)} (h : Token.scan source = .ok tokens) {a : α} :
    parseBy p source = .ok a ↔ ∃ c',
      p.read (.ofItems tokens ⟨source.toList.length, source.toList.length + 1⟩) = some (a, c') ∧
        c'.rest = [] := by
  rw [← parse_eq_ok_iff]
  unfold parseBy
  rw [h]
  change (p.parse tokens _).mapError _ = .ok a ↔ _
  constructor
  · exact ok_of_mapError
  · intro h
    rw [h]
    rfl

/-- Only what has been scanned is parsed. -/
theorem exists_scan_of_parseBy {α : Type} {p : Parser Token α} {source : String} {a : α}
    (h : parseBy p source = .ok a) : ∃ tokens, Token.scan source = .ok tokens := by
  unfold parseBy at h
  cases hscan : Token.scan source with
  | ok tokens => exact ⟨tokens, rfl⟩
  | error problem =>
      rw [hscan] at h
      cases h

/-- What a source reads as one term are the trees of the derivations of its tokens. -/
theorem exists_parse_iff {source : String} {tokens : List (Spanned Token)}
    (h : Token.scan source = .ok tokens) {t : Term} :
    (∃ span, parse source = .ok ⟨span, t⟩) ↔ IsTerm (tokens.map (·.value)) t := by
  rw [← reads_all_iff sound_fix takes_fix stops_none
    (e := ⟨source.toList.length, source.toList.length + 1⟩)]
  unfold parse
  simp only [parseBy_eq_ok_iff h]
  unfold term
  simp only [read_spanned, read_labelled, Option.map_eq_some_iff, Prod.mk.injEq, Prod.exists]
  constructor
  · rintro ⟨span, c', ⟨_, _, hr, ⟨⟩, rfl⟩, hrest⟩
    exact ⟨_, hr, hrest⟩
  · rintro ⟨c', hr, hrest⟩
    exact ⟨_, c', ⟨t, c', hr, rfl, rfl⟩, hrest⟩

theorem parse_iff_spansTerm {source : String} {tokens : List (Spanned Token)}
    (h : Token.scan source = .ok tokens) {x : Spanned Term} :
    parse source = .ok x ↔ SpansTerm tokens x := by
  unfold parse
  rw [parseBy_eq_ok_iff h]
  constructor
  · rintro ⟨c', hr, hrest⟩
    obtain ⟨us, rest, hus, hx, rfl⟩ := spansTerm_of_read hr
    obtain rfl : rest = [] := hrest
    obtain rfl : tokens = us := hus.trans (List.append_nil us)
    exact hx
  · intro hx
    exact ⟨_, hx.read (List.append_nil tokens).symm stops_none, rfl⟩

/-- A term stretches from its first token to its last. -/
theorem span_of_parse {source : String} {tokens : List (Spanned Token)}
    (h : Token.scan source = .ok tokens) {x : Spanned Term} (hx : parse source = .ok x) :
    tokens.head?.map (·.span.start) = some x.span.start ∧
      tokens.getLast?.map (·.span.stop) = some x.span.stop :=
  have hspans := (parse_iff_spansTerm h).1 hx
  ⟨hspans.start, hspans.stop⟩

/-- What a source reads as a list of terms are the trees of the derivations of its tokens. -/
theorem exists_parseAll_iff {source : String} {tokens : List (Spanned Token)}
    (h : Token.scan source = .ok tokens) {ts : List Term} :
    (∃ xs, parseAll source = .ok xs ∧ xs.map (·.value) = ts) ↔
      IsSource (tokens.map (·.value)) ts := by
  unfold IsSource
  rw [← reads_all_iff sound_fix.sepEndBy takes_terms rfl
    (e := ⟨source.toList.length, source.toList.length + 1⟩)]
  change _ ↔ ∃ c', (sepEndBy (fix termOver) (symbol .semicolon)).read _ = _ ∧ _
  simp only [read_terms]
  unfold parseAll
  simp only [parseBy_eq_ok_iff h, Option.map_eq_some_iff, Prod.exists, Prod.map, id, Prod.mk.injEq]
  constructor
  · rintro ⟨xs, ⟨c', hr, hrest⟩, hxs⟩
    exact ⟨c', ⟨xs, c', hr, hxs, rfl⟩, hrest⟩
  · rintro ⟨_, ⟨xs, c', hr, hxs, rfl⟩, hrest⟩
    exact ⟨xs, ⟨c', hr, hrest⟩, hxs⟩

/-- The grammar is unambiguous, and a source that has tokens is read, as one term or as a list of
terms, exactly as its tokens can be derived. -/
theorem parse_iff_derivable :
    (∀ (ts : List Token) (s t : Term), IsTerm ts s → IsTerm ts t → s = t) ∧
    ∀ (source : String) (tokens : List (Spanned Token)), Token.scan source = .ok tokens →
      (∀ t, (∃ span, parse source = .ok ⟨span, t⟩) ↔ IsTerm (tokens.map (·.value)) t) ∧
      ∀ ts, (∃ xs, parseAll source = .ok xs ∧ xs.map (·.value) = ts) ↔
        IsSource (tokens.map (·.value)) ts :=
  ⟨fun _ _ _ => IsTerm.unique, fun _ _ h =>
    ⟨fun _ => exists_parse_iff h, fun _ => exists_parseAll_iff h⟩⟩

/-- A trailing comma and a trailing semicolon at once, around a call that is derived in one way. -/
theorem parseAll_trailing_separators :
    Token.scan "f(x,);" = .ok
      [⟨⟨0, 1⟩, .name "f"⟩, ⟨⟨1, 2⟩, .symbol .leftParen⟩, ⟨⟨2, 3⟩, .name "x"⟩,
        ⟨⟨3, 4⟩, .symbol .comma⟩, ⟨⟨4, 5⟩, .symbol .rightParen⟩, ⟨⟨5, 6⟩, .symbol .semicolon⟩] ∧
    (∃ xs, parseAll "f(x,);" = .ok xs ∧
      xs.map (·.value) = [.node (.apply (.node (.name "f")) [.node (.name "x")])]) ∧
    ∀ t, IsTerm [.name "f", .symbol .leftParen, .name "x", .symbol .comma, .symbol .rightParen] t →
      t = .node (.apply (.node (.name "f")) [.node (.name "x")]) := by
  have h : Token.scan "f(x,);" = .ok
      [⟨⟨0, 1⟩, .name "f"⟩, ⟨⟨1, 2⟩, .symbol .leftParen⟩, ⟨⟨2, 3⟩, .name "x"⟩,
        ⟨⟨3, 4⟩, .symbol .comma⟩, ⟨⟨4, 5⟩, .symbol .rightParen⟩, ⟨⟨5, 6⟩, .symbol .semicolon⟩] := by
    rfl
  have hx : Separated IsTerm (.symbol .comma) [.name "x"] [.node (.name "x")] :=
    .one (.apply (.atom (.name "x")))
  have hcall : IsTerm [.name "f", .symbol .leftParen, .name "x", .symbol .comma,
      .symbol .rightParen] (.node (.apply (.node (.name "f")) [.node (.name "x")])) :=
    .apply (.call (.atom (.name "f")) (.trailing hx))
  have hsource : IsSource [.name "f", .symbol .leftParen, .name "x", .symbol .comma,
      .symbol .rightParen, .symbol .semicolon]
      [.node (.apply (.node (.name "f")) [.node (.name "x")])] :=
    (SepEndBy.trailing (.one hcall) :)
  exact ⟨h, ((parse_iff_derivable.2 _ _ h).2 _).2 hsource,
    fun t ht => parse_iff_derivable.1 _ _ _ ht hcall⟩

end Redline.Term
