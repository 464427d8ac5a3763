import Redline.Proofs.Term.Parsing
import Redline.Proofs.Token.Cutting

/-! # Terms piece by piece

A source of several terms is read as its pieces are read one by one.  The tokens of such a source
fall into the derivations of its terms and the semicolons between them (`SpansTerms`), and the
source itself can be cut at these semicolons: what stands between them is a source of one term
(`SpansTerms.exists_pieces`).  In turn, sources of one term with semicolons between them make up a
source of several terms (`exists_lexed_of_pieces`).  Main statement: `parseAll_iff_pieces`. -/

namespace Redline.Term

open Parsing Parsing.Parser Token.Lexer

/-! ### Rows of tokens -/

namespace Grammar

/-- The tokens of terms in a row, with a semicolon behind each of them but for the last, where it
may be missing. -/
inductive SpansTerms : List (Spanned Token) → List (Spanned Term) → Prop
  | nil : SpansTerms [] []
  | one {ts : List (Spanned Token)} {x : Spanned Term} : SpansTerm ts x → SpansTerms ts [x]
  | cons {ts us : List (Spanned Token)} {x : Spanned Term} {xs : List (Spanned Term)}
      {span : Span} : SpansTerm ts x → SpansTerms us xs →
        SpansTerms (ts ++ ⟨span, .symbol .semicolon⟩ :: us) (x :: xs)

theorem progresses_term : term.Progresses :=
  fun _ _ _ h => progresses_of_sound sound_fix (read_term_eq_some.1 h).1

theorem read_term_end {c : Cursor Token} (h : c.rest = []) : term.read c = none := by
  rw [Option.eq_none_iff_forall_ne_some]
  rintro ⟨x, c'⟩ hr
  have := progresses_term hr
  rw [h] at this
  cases this

/-- What `terms` reads up to the end is a row. -/
theorem spansTerms_of_read {c c' : Cursor Token} {xs : List (Spanned Term)}
    (h : terms.read c = some (xs, c')) (hrest : c'.rest = []) : SpansTerms c.rest xs := by
  -- By the number of tokens ahead: behind a semicolon there are fewer.
  induction hn : c.rest.length using Nat.strongRecOn generalizing c xs with
  | _ n ih =>
      rcases read_sepEndBy_cases progresses_term h with
        ⟨-, rfl, rfl⟩ | ⟨x, hx, rfl⟩ | ⟨x, c₁, y, c₂, ys, hx, hsemicolon, hys, rfl⟩
      · rw [hrest]
        exact .nil
      · obtain ⟨ts, rest, hts, hspans, rfl⟩ := spansTerm_of_read hx
        obtain rfl : rest = [] := hrest
        rw [hts, List.append_nil]
        exact .one hspans
      · obtain ⟨ts, rest, hts, hspans, rfl⟩ := spansTerm_of_read hx
        obtain ⟨-, ⟨span, _⟩, us, hus, hsep, rfl⟩ := read_just_eq_some.1 hsemicolon
        obtain rfl := hsep
        obtain rfl : rest = ⟨span, .symbol .semicolon⟩ :: us := hus
        have hlt : us.length < n := by
          rw [← hn, hts, List.length_append, List.length_cons]
          omega
        rw [hts]
        exact .cons hspans (ih _ hlt hys rfl)

/-- A row is read up to the end. -/
theorem SpansTerms.read {ts : List (Spanned Token)} {xs : List (Spanned Term)}
    (h : SpansTerms ts xs) : ∀ {c : Cursor Token}, c.rest = ts →
      ∃ c', terms.read c = some (xs, c') ∧ c'.rest = [] := by
  unfold terms symbol
  induction h with
  | nil =>
      intro c hc
      exact ⟨c, read_sepEndBy_of_none (read_term_end hc), hc⟩
  | @one ts x hx =>
      intro c hc
      have hread := hx.read (hc.trans (List.append_nil ts).symm) stops_none
      exact ⟨_, read_sepEndBy_of_last hread (read_just_eq_none nofun), rfl⟩
  | @cons ts us x xs span hx _ ih =>
      intro c hc
      have hread := hx.read hc stops_semicolon
      obtain ⟨c', hxs, hrest⟩ := ih (c := (c.past ts _).after ⟨span, .symbol .semicolon⟩ us) rfl
      refine ⟨c', ?_, hrest⟩
      rw [read_sepEndBy_of_separator progresses_term hread
        (read_just_of_passes ⟨_, _, rfl, rfl, rfl⟩), hxs]
      rfl

/-- Without tokens there are no terms. -/
theorem SpansTerms.eq_nil_iff {ts : List (Spanned Token)} {xs : List (Spanned Term)}
    (h : SpansTerms ts xs) : ts = [] ↔ xs = [] := by
  cases h with
  | nil => simp
  | one h => simpa using h.isTerm.ne_nil
  | cons => simp

end Grammar

open Grammar

theorem parseAll_iff_spansTerms {source : String} {tokens : List (Spanned Token)}
    (h : Token.scan source = .ok tokens) {xs : List (Spanned Term)} :
    parseAll source = .ok xs ↔ SpansTerms tokens xs := by
  unfold parseAll
  rw [parseBy_eq_ok_iff h]
  constructor
  · rintro ⟨c', hr, hrest⟩
    exact spansTerms_of_read hr hrest
  · intro hxs
    exact hxs.read rfl

/-! ### Where a term stands

The span of a term moves with its tokens, and these are the same wherever their characters stand.
So a stretch of a longer source can be read as a source of its own. -/

theorem spansTerm_shift_iff {n : Nat} {ts : List (Spanned Token)} {x : Spanned Term} :
    SpansTerm (ts.map (·.shift n)) x ↔ ∃ y, SpansTerm ts y ∧ x = y.shift n := by
  have hvalues : (ts.map (·.shift n)).map (·.value) = ts.map (·.value) := by
    rw [List.map_map]
    rfl
  constructor
  · rintro ⟨hterm, hstart, hstop⟩
    rw [hvalues] at hterm
    rw [List.head?_map, Option.map_map, Option.map_eq_some_iff] at hstart
    rw [List.getLast?_map, Option.map_map, Option.map_eq_some_iff] at hstop
    obtain ⟨s, hs, hstart⟩ := hstart
    obtain ⟨t, ht, hstop⟩ := hstop
    obtain ⟨⟨_, _⟩, value⟩ := x
    obtain rfl := hstart
    obtain rfl := hstop
    exact ⟨⟨⟨s.span.start, t.span.stop⟩, value⟩, ⟨hterm, by rw [hs]; rfl, by rw [ht]; rfl⟩, rfl⟩
  · rintro ⟨y, ⟨hterm, hstart, hstop⟩, rfl⟩
    obtain ⟨s, hs, hstart⟩ := Option.map_eq_some_iff.1 hstart
    obtain ⟨t, ht, hstop⟩ := Option.map_eq_some_iff.1 hstop
    refine ⟨hvalues ▸ hterm, ?_, ?_⟩
    · rw [List.head?_map, hs, Spanned.shift, Span.shift, ← hstart]
      rfl
    · rw [List.getLast?_map, ht, Spanned.shift, Span.shift, ← hstop]
      rfl

/-- The tokens behind `n` characters are those of a term if their characters are one, and then the
span is `n` further on. -/
theorem exists_lexed_iff_parse {n : Nat} {cs : List Char} {x : Spanned Term} :
    (∃ ts, Lexed n cs ts ∧ SpansTerm ts x) ↔
      ∃ y, parse (String.ofList cs) = .ok y ∧ x = y.shift n := by
  constructor
  · rintro ⟨ts, hts, hx⟩
    rw [← Nat.zero_add n] at hts
    obtain ⟨us, hus, rfl⟩ := lexed_shift_iff.1 hts
    obtain ⟨y, hy, rfl⟩ := spansTerm_shift_iff.1 hx
    have hscan : Token.scan (String.ofList cs) = .ok us := by
      refine Token.scan_eq_ok_iff.2 (.inr ⟨hy.isTerm.ne_nil, ?_⟩)
      rwa [String.toList_ofList]
    exact ⟨y, (parse_iff_spansTerm hscan).2 hy, rfl⟩
  · rintro ⟨y, hy, rfl⟩
    obtain ⟨us, hscan⟩ := exists_scan_of_parseBy hy
    have hus := Token.lexed_of_scan hscan
    rw [String.toList_ofList] at hus
    have hshift : Lexed (0 + n) cs (us.map (·.shift n)) := lexed_shift_iff.2 ⟨us, hus, rfl⟩
    rw [Nat.zero_add] at hshift
    exact ⟨_, hshift, spansTerm_shift_iff.2 ⟨y, (parse_iff_spansTerm hscan).1 hy, rfl⟩⟩

/-- The characters are a term from the first of them to the last. -/
def IsWhole (u : List Char) (t : Term) : Prop :=
  parse (String.ofList u) = .ok ⟨⟨0, u.length⟩, t⟩

/-- A term is read again from the characters that it was read from. -/
theorem exists_whole {n : Nat} {cs : List Char} {ts : List (Spanned Token)} {x : Spanned Term}
    (h : Lexed n cs ts) (hx : SpansTerm ts x) : ∃ v u w, cs = v ++ (u ++ w) ∧
      (∀ c ∈ v, Text.isBlank c = true) ∧ (∀ c ∈ w, Text.isBlank c = true) ∧ u ≠ [] ∧
      IsWhole u x.value ∧ x.span = ⟨n + v.length, n + v.length + u.length⟩ := by
  obtain ⟨v, u, w, rfl, hv, hw, hne, hu, hfirst, hlast⟩ := h.trim hx.isTerm.ne_nil
  obtain ⟨⟨⟨start, stop⟩, t⟩, hy, rfl⟩ := exists_lexed_iff_parse.1 ⟨ts, hu, hx⟩
  have hstart := Option.some.inj (hx.start.symm.trans hfirst)
  have hstop := Option.some.inj (hx.stop.symm.trans hlast)
  simp only [Spanned.shift, Span.shift] at hstart hstop
  obtain rfl : start = 0 := by omega
  obtain rfl : stop = u.length := by omega
  refine ⟨v, u, w, rfl, hv, hw, hne, hy, ?_⟩
  simp only [Spanned.shift, Span.shift, Nat.zero_add, Nat.add_comm u.length]

/-- What stands between terms. -/
def IsBetween (c : Char) : Prop := Text.isBlank c = true ∨ c = ';'

/-- A term in front of a spread of terms, with the blanks around it as gaps. -/
theorem Grammar.SpansTerm.spread {n : Nat} {cs ds : List Char} {ts : List (Spanned Token)}
    {x : Spanned Term} {xs : List (Spanned Term)} (hx : SpansTerm ts x) (h : Lexed n cs ts)
    (hds : Text.Spread IsBetween IsWhole (n + cs.length) ds xs) :
    Text.Spread IsBetween IsWhole n (cs ++ ds) (x :: xs) := by
  obtain ⟨v, u, w, rfl, hv, hw, hne, hu, hspan⟩ := exists_whole h hx
  obtain ⟨_, t⟩ := x
  obtain rfl := hspan
  rw [add_length_append_append] at hds
  rw [List.append_assoc, List.append_assoc]
  exact .cons (fun c hc => .inl (hv c hc)) hne hu (hds.gap_append fun c hc => .inl (hw c hc))

theorem Grammar.SpansTerms.spread {ts : List (Spanned Token)} {xs : List (Spanned Term)}
    (h : SpansTerms ts xs) : ∀ {n : Nat} {cs : List Char}, Lexed n cs ts →
      Text.Spread IsBetween IsWhole n cs xs := by
  induction h with
  | nil =>
      intro n cs hcs
      cases hcs with
      | blank hw => exact .gap fun c hc => .inl (hw c hc)
  | one hx =>
      intro n cs hcs
      rw [← List.append_nil cs]
      exact hx.spread hcs (.gap nofun)
  | cons hx _ ih =>
      intro n cs hcs
      obtain ⟨cs₁, cs₂, rfl, h₁, h₂⟩ := hcs.cut
      refine hx.spread h₁ ?_
      exact .gap_append (v := [';']) (List.forall_mem_singleton.2 (.inr rfl)) (ih h₂)

/-! ### Pieces -/

/-- A source of one term, with that term. -/
structure Piece where
  text : String
  term : Spanned Term
  parsed : parse text = .ok term

namespace Piece

/-- The pieces with semicolons between them. -/
def joined (ps : List Piece) : String := ";".intercalate (ps.map (·.text))

/-- The terms of pieces that stand behind `n` characters and have one more character between
neighbours. -/
def placed : Nat → List Piece → List (Spanned Term)
  | _, [] => []
  | n, p :: ps => p.term.shift n :: placed (n + p.text.toList.length + 1) ps

theorem toList_joined_one (p : Piece) : (joined [p]).toList = p.text.toList := by
  rw [joined, List.map_singleton, String.intercalate_singleton]

theorem toList_joined_cons (p : Piece) {ps : List Piece} (h : ps ≠ []) :
    (joined (p :: ps)).toList = p.text.toList ++ ';' :: (joined ps).toList := by
  rw [joined, List.map_cons, String.intercalate_cons_of_ne_nil (by simpa using h),
    String.toList_append, String.toList_append, List.append_assoc]
  rfl

end Piece

/-- What may follow the last piece: nothing, or a semicolon and blanks. -/
def IsTail (e : List Char) : Prop :=
  e = [] ∨ ∃ w, (∀ c ∈ w, Text.isBlank c = true) ∧ e = ';' :: w

/-- Tails of characters and of texts are the same. -/
theorem exists_tail_iff {source joined : String} :
    (∃ e, IsTail e ∧ source.toList = joined.toList ++ e) ↔
      source = joined ∨ ∃ w : String, (∀ c ∈ w.toList, Text.isBlank c = true) ∧
        source = joined ++ ";" ++ w := by
  have hsemicolon : ";".toList = [';'] := rfl
  simp only [← String.toList_inj, String.toList_append, hsemicolon, List.append_assoc,
    List.singleton_append]
  constructor
  · rintro ⟨e, rfl | ⟨w, hw, rfl⟩, hsource⟩
    · exact .inl (hsource.trans (List.append_nil _))
    · refine .inr ⟨String.ofList w, ?_, ?_⟩
      · rwa [String.toList_ofList]
      · rwa [String.toList_ofList]
  · rintro (hsource | ⟨w, hw, hsource⟩)
    · exact ⟨[], .inl rfl, hsource.trans (List.append_nil _).symm⟩
    · exact ⟨';' :: w.toList, .inr ⟨w.toList, hw, rfl⟩, hsource⟩

/-- A source of several terms can be cut at the semicolons between them. -/
theorem Grammar.SpansTerms.exists_pieces {ts : List (Spanned Token)} {xs : List (Spanned Term)}
    (h : SpansTerms ts xs) : xs ≠ [] → ∀ {n : Nat} {cs : List Char}, Lexed n cs ts →
      ∃ (ps : List Piece) (e : List Char), ps ≠ [] ∧ IsTail e ∧ xs = Piece.placed n ps ∧
        cs = (Piece.joined ps).toList ++ e := by
  induction h with
  | nil => exact fun h => absurd rfl h
  | one hx =>
      intro _ n cs hcs
      obtain ⟨y, hy, rfl⟩ := exists_lexed_iff_parse.1 ⟨_, hcs, hx⟩
      refine ⟨[⟨String.ofList cs, y, hy⟩], [], List.cons_ne_nil _ _, .inl rfl, rfl, ?_⟩
      rw [Piece.toList_joined_one, String.toList_ofList, List.append_nil]
  | @cons ts us x xs span hx hxs ih =>
      intro _ n cs hcs
      obtain ⟨cs₁, cs₂, rfl, h₁, h₂⟩ := hcs.cut
      obtain ⟨y, hy, rfl⟩ := exists_lexed_iff_parse.1 ⟨_, h₁, hx⟩
      by_cases hend : xs = []
      -- This semicolon is the last one, and no token follows it.
      · subst hend
        obtain rfl := hxs.eq_nil_iff.2 rfl
        cases h₂ with
        | blank hw =>
            refine ⟨[⟨String.ofList cs₁, y, hy⟩], ';' :: cs₂, List.cons_ne_nil _ _,
              .inr ⟨cs₂, hw, rfl⟩, rfl, ?_⟩
            rw [Piece.toList_joined_one, String.toList_ofList]
            rfl
      · obtain ⟨ps, e, hps, he, rfl, rfl⟩ := ih hend h₂
        refine ⟨⟨String.ofList cs₁, y, hy⟩ :: ps, e, List.cons_ne_nil _ _, he, ?_, ?_⟩
        · rw [Piece.placed, String.toList_ofList]
        · rw [Piece.toList_joined_cons _ hps, String.toList_ofList, List.append_assoc]
          rfl

/-- The tokens of pieces that are joined are a row. -/
theorem exists_lexed_of_pieces {e : List Char} (he : IsTail e) : ∀ {ps : List Piece}, ps ≠ [] →
    ∀ n, ∃ ts, Lexed n ((Piece.joined ps).toList ++ e) ts ∧ SpansTerms ts (Piece.placed n ps)
  | [], hps, _ => absurd rfl hps
  | p :: ps, _, n => by
      have hparsed : parse (String.ofList p.text.toList) = .ok p.term := by
        rw [String.ofList_toList]
        exact p.parsed
      obtain ⟨ts, hts, hx⟩ := exists_lexed_iff_parse.2 ⟨p.term, hparsed, (rfl : _ = p.term.shift n)⟩
      by_cases hend : ps = []
      · subst hend
        rw [Piece.toList_joined_one]
        rcases he with rfl | ⟨w, hw, rfl⟩
        · rw [List.append_nil]
          exact ⟨ts, hts, .one hx⟩
        · exact ⟨_, hts.join .semicolon (.blank hw), .cons hx .nil⟩
      · obtain ⟨us, hus, hxs⟩ := exists_lexed_of_pieces he hend (n + p.text.toList.length + 1)
        rw [Piece.toList_joined_cons p hend, List.append_assoc]
        exact ⟨_, hts.join .semicolon hus, .cons hx hxs⟩

theorem parseAll_iff_joined {source : String} {xs : List (Spanned Term)} (hxs : xs ≠ []) :
    parseAll source = .ok xs ↔ ∃ ps : List Piece, xs = Piece.placed 0 ps ∧
      ∃ e, IsTail e ∧ source.toList = (Piece.joined ps).toList ++ e := by
  constructor
  · intro h
    obtain ⟨ts, hscan⟩ := exists_scan_of_parseBy h
    have hrow := (parseAll_iff_spansTerms hscan).1 h
    obtain ⟨ps, e, -, he, hplaced, hsource⟩ :=
      hrow.exists_pieces hxs (Token.lexed_of_scan hscan)
    exact ⟨ps, hplaced, e, he, hsource⟩
  · rintro ⟨ps, rfl, e, he, hsource⟩
    have hps : ps ≠ [] := by
      rintro rfl
      exact hxs rfl
    obtain ⟨ts, hlexed, hrow⟩ := exists_lexed_of_pieces he hps 0
    rw [← hsource] at hlexed
    have hts : ts ≠ [] := by
      rintro rfl
      exact hxs (hrow.eq_nil_iff.1 rfl)
    exact (parseAll_iff_spansTerms (Token.scan_eq_ok_iff.2 (.inr ⟨hts, hlexed⟩))).2 hrow

theorem spread_of_parseAll {source : String} {xs : List (Spanned Term)}
    (h : parseAll source = .ok xs) : Text.Spread IsBetween IsWhole 0 source.toList xs := by
  obtain ⟨ts, hscan⟩ := exists_scan_of_parseBy h
  exact ((parseAll_iff_spansTerms hscan).1 h).spread (Token.lexed_of_scan hscan)

/-- A source of several terms is read as its pieces are, and each term as the characters under its
span are; the spans are in order, and only blanks and semicolons lie outside of them. -/
theorem parseAll_iff_pieces :
    (∀ (source : String) (xs : List (Spanned Term)), xs ≠ [] →
      (parseAll source = .ok xs ↔ ∃ ps : List Piece, xs = Piece.placed 0 ps ∧
        (source = Piece.joined ps ∨ ∃ w : String, (∀ c ∈ w.toList, Text.isBlank c = true) ∧
          source = Piece.joined ps ++ ";" ++ w))) ∧
    ∀ (source : String) (xs : List (Spanned Term)), parseAll source = .ok xs →
      (∀ x ∈ xs, x.span.start < x.span.stop ∧ x.span.stop ≤ source.toList.length ∧
        parse (String.ofList (x.span.cut source.toList)) = .ok ⟨⟨0, x.span.length⟩, x.value⟩) ∧
      xs.Pairwise (fun x y => x.span.stop ≤ y.span.start) ∧
      ∀ (i : Nat) (c : Char), source.toList[i]? = some c →
        (∀ x ∈ xs, x.span.covers i = false) → Text.isBlank c = true ∨ c = ';' := by
  refine ⟨fun source xs hxs => ?_, fun source xs h => ?_⟩
  · simp only [← exists_tail_iff]
    exact parseAll_iff_joined hxs
  · have hspread := spread_of_parseAll h
    obtain ⟨hpairs, hin⟩ := hspread.inOrder
    rw [Nat.zero_add] at hin
    refine ⟨fun x hx => ?_, hpairs, fun i c hc hout => ?_⟩
    · obtain ⟨hpos, hle⟩ := hin x hx
      have hwhole := hspread.cut [] rfl x hx
      rw [List.nil_append, IsWhole, Span.length_cut hle] at hwhole
      exact ⟨hpos, hle, hwhole⟩
    · exact hspread.gap_of_uncovered hc (by rwa [Nat.zero_add])

/-- A quoted semicolon cuts nothing, parentheses belong to their term, and blanks may follow the
last semicolon. -/
theorem parseAll_pieces_quotedSemicolon :
    parseAll "x(\";\") ; (y); " = .ok
      [⟨⟨0, 6⟩, .node (.apply (.node (.name "x")) [.node (.literal (.text ";"))])⟩,
        ⟨⟨9, 12⟩, .node (.name "y")⟩] ∧
    parse (String.ofList ((⟨9, 12⟩ : Span).cut "x(\";\") ; (y); ".toList)) =
      .ok ⟨⟨0, 3⟩, .node (.name "y")⟩ := by
  have hcall : parse "x(\";\") " =
      .ok ⟨⟨0, 6⟩, .node (.apply (.node (.name "x")) [.node (.literal (.text ";"))])⟩ := by
    rfl
  have hname : parse " (y)" = .ok ⟨⟨1, 4⟩, .node (.name "y")⟩ := by rfl
  have hread : parseAll "x(\";\") ; (y); " = .ok
      [⟨⟨0, 6⟩, .node (.apply (.node (.name "x")) [.node (.literal (.text ";"))])⟩,
        ⟨⟨9, 12⟩, .node (.name "y")⟩] :=
    (parseAll_iff_pieces.1 _ _ (List.cons_ne_nil _ _)).2
      ⟨[⟨_, _, hcall⟩, ⟨_, _, hname⟩], by simp [Piece.placed, Spanned.shift, Span.shift],
        .inr ⟨" ", List.forall_mem_singleton.2 rfl, by simp [Piece.joined]⟩⟩
  obtain ⟨hpieces, -⟩ := parseAll_iff_pieces.2 _ _ hread
  exact ⟨hread, (hpieces ⟨⟨9, 12⟩, .node (.name "y")⟩ (by simp)).2.2⟩

end Redline.Term
