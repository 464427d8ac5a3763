import Redline.Proofs.Token.Scan

/-! # Maximal munch

A source with tokens is a row of pieces, each of them a lexeme with the blanks behind it, and a
lexeme ends only where the next character cannot belong to it (`MaximalMunch`).  A source falls into
pieces in one way at most (`MaximalMunch.unique`), and `Token.scan` finds the pieces if there are
any.  Main statement: `scan_iff_maximalMunch`. -/

namespace Redline.Token

open Parsing Parsing.Parser Lexer

/-- Whether a lexeme of the token would have to go on with `d`: a word with a letter, a digit or an
underscore, and a natural other than `0` with a digit. -/
def goesOn : Token → Char → Bool
  | symbol _, _ => false
  | literal (.text _), _ => false
  | literal (.nat n), d => n != 0 && d.isDigit
  | _, d => isWordPart d

/-- A lexeme of a token, and the blanks behind it. -/
structure Piece where
  token : Token
  lexeme : List Char
  blanks : List Char
deriving DecidableEq, Repr

namespace Piece

def chars (p : Piece) : List Char := p.lexeme ++ p.blanks

/-- The tokens of pieces that stand behind `n` characters, with the spans of their lexemes. -/
def tokensFrom : Nat → List Piece → List (Spanned Token)
  | _, [] => []
  | n, p :: ps => ⟨⟨n, n + p.lexeme.length⟩, p.token⟩ :: tokensFrom (n + p.chars.length) ps

end Piece

/-- The characters `cs` are the blanks `w` and then the pieces `ps`, whose lexemes are as long as
they can be. -/
structure MaximalMunch (cs w : List Char) (ps : List Piece) : Prop where
  chars : cs = w ++ ps.flatMap Piece.chars
  leading : ∀ c ∈ w, Text.isBlank c = true
  blanks : ∀ p ∈ ps, ∀ c ∈ p.blanks, Text.isBlank c = true
  lexemes : ∀ p ∈ ps, Lexeme p.token p.lexeme
  maximal : ∀ before p behind, ps = before ++ p :: behind →
    ∀ d, (p.blanks ++ behind.flatMap Piece.chars).head? = some d → p.token.goesOn d = false

namespace Lexer

/-! ### Where lexemes end -/

theorem le_foldl_decimal (ds : List Char) (n : Nat) :
    n ≤ ds.foldl (fun n d => 10 * n + (d.toNat - '0'.toNat)) n := by
  induction ds generalizing n with
  | nil => exact Nat.le_refl n
  | cons d ds ih =>
      have := ih (10 * n + (d.toNat - '0'.toNat))
      rw [List.foldl_cons]
      omega

/-- Only `0` itself is zero. -/
theorem decimal_pos {d : Char} (h : (d.isDigit && d != '0') = true) (ds : List Char) :
    0 < decimal (d :: ds) := by
  obtain ⟨hd, hzero⟩ := Bool.and_eq_true_iff.1 h
  have hle := le_foldl_decimal ds (10 * 0 + (d.toNat - '0'.toNat))
  have hdigit := toNat_of_isDigit hd
  have hne : d.toNat ≠ '0'.toNat := fun e => (bne_iff_ne.1 hzero) (Char.toNat_inj.1 e)
  have hcode : '0'.toNat = 48 := rfl
  rw [decimal, List.foldl_cons]
  omega

theorem runsOn_eq_goesOn {t : Token} {l : List Char} (h : Lexeme t l) (d : Char) :
    runsOn l d = t.goesOn d := by
  cases h with
  | symbol s => exact runsOn_symbol s d
  | underscore => rfl
  | keyword hk =>
      have hwords : ∀ p ∈ keywords, p.2.goesOn d = isWordPart d := by simp [keywords, goesOn]
      rw [runsOn_word (isWord_of_keyword hk), hwords _ hk]
  | name hx => exact runsOn_word hx.1 d
  | text => rfl
  | @natural n ds hnum hn =>
      rcases hnum with rfl | ⟨e, ds, rfl, he, -⟩
      · have hzero : n = 0 := UInt64.toNat_inj.1 hn.symm
        rw [hzero]
        rfl
      · have hpos : n ≠ 0 := by
          rintro rfl
          exact Nat.ne_of_gt (decimal_pos he ds) hn
        rw [runsOn_of_digit he, goesOn, bne_iff_ne.2 hpos, Bool.true_and]

/-- A text starts with at most one lexeme that is as long as it can be. -/
theorem Lexeme.append_inj {t u : Token} {l m r s : List Char} (hl : Lexeme t l) (hm : Lexeme u m)
    (hr : ∀ d, r.head? = some d → runsOn l d = false)
    (hs : ∀ d, s.head? = some d → runsOn m d = false) (h : l ++ r = m ++ s) :
    t = u ∧ l = m ∧ r = s := by
  have hread : ∀ {t : Token} {l r : List Char}, Lexeme t l →
      (∀ d, r.head? = some d → runsOn l d = false) →
        token.read (place 0 0 (l ++ r)) = some (t, place 0 (0 + l.length) r) :=
    fun {_ l r} hl hr => takes_token (passes_place l r) hl (by rwa [next_place])
  have hsame := hread hl hr
  rw [h, hread hm hs] at hsame
  obtain ⟨htoken, hplace⟩ := Prod.mk.inj (Option.some.inj hsame)
  have hlength : l.length = m.length := by
    simpa [place] using (congrArg Cursor.index hplace).symm
  exact ⟨htoken.symm, List.append_inj h hlength⟩

end Lexer

/-! ### Pieces of scanned sources -/

/-- The characters of the pieces behind a lexeme do not belong to it. -/
theorem maximal_cons {p : Piece} {ps : List Piece} :
    (∀ before q behind, p :: ps = before ++ q :: behind →
      ∀ d, (q.blanks ++ behind.flatMap Piece.chars).head? = some d → q.token.goesOn d = false) ↔
    (∀ d, (p.blanks ++ ps.flatMap Piece.chars).head? = some d → p.token.goesOn d = false) ∧
      ∀ before q behind, ps = before ++ q :: behind →
        ∀ d, (q.blanks ++ behind.flatMap Piece.chars).head? = some d →
          q.token.goesOn d = false := by
  constructor
  · intro h
    refine ⟨h [] p ps rfl, ?_⟩
    rintro before q behind rfl
    exact h (p :: before) q behind rfl
  · rintro ⟨hp, hps⟩ before q behind heq
    cases before with
    | nil =>
        cases heq
        exact hp
    | cons b before =>
        cases heq
        exact hps before q behind rfl

theorem MaximalMunch.nil {w : List Char} (hw : ∀ c ∈ w, Text.isBlank c = true) :
    MaximalMunch w w [] where
  chars := (List.append_nil w).symm
  leading := hw
  blanks := nofun
  lexemes := nofun
  maximal before p behind h := by simp at h

/-- A piece behind blanks, in front of a source that starts with the blanks of the piece. -/
theorem maximalMunch_cons {cs w : List Char} {p : Piece} {ps : List Piece} :
    MaximalMunch cs w (p :: ps) ↔ ∃ rest, cs = w ++ (p.lexeme ++ rest) ∧
      (∀ c ∈ w, Text.isBlank c = true) ∧ Lexeme p.token p.lexeme ∧
      (∀ d, rest.head? = some d → p.token.goesOn d = false) ∧
      MaximalMunch rest p.blanks ps := by
  constructor
  · rintro ⟨hchars, hw, hblanks, hlexemes, hmaximal⟩
    obtain ⟨hp, hps⟩ := maximal_cons.1 hmaximal
    refine ⟨p.blanks ++ ps.flatMap Piece.chars, ?_, hw, hlexemes p List.mem_cons_self, hp, rfl,
      hblanks p List.mem_cons_self, fun q hq => hblanks q (List.mem_cons_of_mem p hq),
      fun q hq => hlexemes q (List.mem_cons_of_mem p hq), hps⟩
    rw [hchars, List.flatMap_cons, Piece.chars, List.append_assoc]
  · rintro ⟨rest, rfl, hw, hl, hp, hrest⟩
    refine ⟨?_, hw, List.forall_mem_cons.2 ⟨hrest.leading, hrest.blanks⟩,
      List.forall_mem_cons.2 ⟨hl, hrest.lexemes⟩, maximal_cons.2 ⟨?_, hrest.maximal⟩⟩
    · rw [hrest.chars, List.flatMap_cons, Piece.chars, List.append_assoc]
    · rw [← hrest.chars]
      exact hp

theorem lexed_iff_maximalMunch {n : Nat} {cs : List Char} {ts : List (Spanned Token)} :
    Lexed n cs ts ↔
      ∃ w ps, MaximalMunch cs w ps ∧ ts = Piece.tokensFrom (n + w.length) ps := by
  constructor
  · intro h
    induction h with
    | @blank n w hw => exact ⟨w, [], .nil hw, rfl⟩
    | @cons n w l cs t ts hw hl hstop _ ih =>
        obtain ⟨v, ps, hcs, rfl⟩ := ih
        refine ⟨w, ⟨t, l, v⟩ :: ps, maximalMunch_cons.2 ⟨cs, rfl, hw, hl, ?_, hcs⟩, ?_⟩
        · intro d hd
          rw [← runsOn_eq_goesOn hl, hstop d hd]
        · rw [Piece.tokensFrom, Piece.chars, List.length_append, Nat.add_assoc (n + w.length)]
  · rintro ⟨w, ps, h, rfl⟩
    induction ps generalizing n cs w with
    | nil =>
        rw [h.chars, List.flatMap_nil, List.append_nil]
        exact .blank h.leading
    | cons p ps ih =>
        obtain ⟨rest, rfl, hw, hl, hp, hrest⟩ := maximalMunch_cons.1 h
        have hrest := ih (n := n + w.length + p.lexeme.length) p.blanks hrest
        rw [Nat.add_assoc _ p.lexeme.length, ← List.length_append] at hrest
        refine .cons hw hl (fun d hd => ?_) hrest
        rw [runsOn_eq_goesOn hl, hp d hd]

/-! ### At most one way -/

/-- All that a text falls into is found by the repetition of items. -/
theorem Lexer.Lexed.unique {n : Nat} {cs : List Char} {ts us : List (Spanned Token)}
    (ht : Lexed n cs ts) (hu : Lexed n cs us) : ts = us := by
  have hread : tokens.read ((place n n cs).dropWhile Text.isBlank) = some (ts, _) :=
    read_tokens_of_lexed ht
  rw [read_tokens_of_lexed hu] at hread
  exact ((Prod.mk.inj (Option.some.inj hread)).1).symm

/-- Pieces are determined by their characters and the tokens that they make up. -/
theorem pieces_unique {ps ps' : List Piece} : ∀ {n : Nat} {w w' : List Char},
    w ++ ps.flatMap Piece.chars = w' ++ ps'.flatMap Piece.chars →
      Piece.tokensFrom (n + w.length) ps = Piece.tokensFrom (n + w'.length) ps' →
        w = w' ∧ ps = ps' := by
  induction ps generalizing ps' with
  | nil =>
      intro n w w' hchars htokens
      cases ps' with
      | nil => simpa using hchars
      | cons p' ps' => cases htokens
  | cons p ps ih =>
      intro n w w' hchars htokens
      cases ps' with
      | nil => cases htokens
      | cons p' ps' =>
          obtain ⟨t, l, v⟩ := p
          obtain ⟨t', l', v'⟩ := p'
          simp only [Piece.tokensFrom, Piece.chars, List.length_append, ← Nat.add_assoc,
            List.cons.injEq, Spanned.mk.injEq, Span.mk.injEq] at htokens
          obtain ⟨⟨⟨hstart, hstop⟩, rfl⟩, htokens⟩ := htokens
          simp only [List.flatMap_cons, Piece.chars, List.append_assoc] at hchars
          have hw : w.length = w'.length := by omega
          have hl : l.length = l'.length := by omega
          obtain ⟨rfl, hbehind⟩ := List.append_inj hchars hw
          obtain ⟨rfl, hpieces⟩ := List.append_inj hbehind hl
          obtain ⟨rfl, rfl⟩ := ih hpieces htokens
          exact ⟨rfl, rfl⟩

/-- A text falls into pieces in one way at most. -/
theorem MaximalMunch.unique {cs w w' : List Char} {ps ps' : List Piece}
    (h : MaximalMunch cs w ps) (h' : MaximalMunch cs w' ps') : w = w' ∧ ps = ps' := by
  have hlexed : Lexed 0 cs (Piece.tokensFrom (0 + w.length) ps) :=
    lexed_iff_maximalMunch.2 ⟨w, ps, h, rfl⟩
  have hlexed' : Lexed 0 cs (Piece.tokensFrom (0 + w'.length) ps') :=
    lexed_iff_maximalMunch.2 ⟨w', ps', h', rfl⟩
  exact pieces_unique (h.chars.symm.trans h'.chars) (hlexed.unique hlexed')

/-! ### Scanned sources -/

/-- A source is scanned exactly as it falls into pieces, and it does so in one way at most; the
tokens are in order and what lies outside of them is blank. -/
theorem scan_iff_maximalMunch :
    (∀ (source : String) (ts : List (Spanned Token)), ts ≠ [] →
      (scan source = .ok ts ↔
        ∃ w ps, MaximalMunch source.toList w ps ∧ ts = Piece.tokensFrom w.length ps)) ∧
    (∀ cs w ps w' ps', MaximalMunch cs w ps → MaximalMunch cs w' ps' → w = w' ∧ ps = ps') ∧
    ∀ (source : String) (ts : List (Spanned Token)), scan source = .ok ts →
      ts.Pairwise (fun x y => x.span.stop ≤ y.span.start) ∧
      (∀ x ∈ ts, x.span.start < x.span.stop ∧ x.span.stop ≤ source.toList.length) ∧
      ∀ (i : Nat) (c : Char), source.toList[i]? = some c →
        (∀ x ∈ ts, x.span.covers i = false) → Text.isBlank c = true := by
  refine ⟨?_, fun _ _ _ _ _ => MaximalMunch.unique, ?_⟩
  · intro source ts hts
    rw [scan_eq_ok_iff, or_iff_right fun h => hts h.1, and_iff_right hts, lexed_iff_maximalMunch]
    simp only [Nat.zero_add]
  · intro source ts h
    have hspread := (lexed_of_scan h).spread
    obtain ⟨hpairs, hin⟩ := hspread.inOrder
    rw [Nat.zero_add] at hin
    exact ⟨hpairs, hin, fun i c hc hout => hspread.gap_of_uncovered hc (by rwa [Nat.zero_add])⟩

/-- A keyword is the start of a longer name, and behind a leading `0` another natural starts. -/
theorem scan_maximalMunch_leadingZero :
    (scan "lambdax 01" = .ok
        [⟨⟨0, 7⟩, .name "lambdax"⟩, ⟨⟨8, 9⟩, .literal (.nat 0)⟩, ⟨⟨9, 10⟩, .literal (.nat 1)⟩] ∧
      ∀ w ps, MaximalMunch "lambdax 01".toList w ps → w = [] ∧ ps =
        [⟨.name "lambdax", "lambdax".toList, [' ']⟩, ⟨.literal (.nat 0), ['0'], []⟩,
          ⟨.literal (.nat 1), ['1'], []⟩]) ∧
    ∀ (i : Nat) (c : Char), "lambdax 01".toList[i]? = some c →
      (∀ x ∈ [(⟨⟨0, 7⟩, .name "lambdax"⟩ : Spanned Token), ⟨⟨8, 9⟩, .literal (.nat 0)⟩,
        ⟨⟨9, 10⟩, .literal (.nat 1)⟩], x.span.covers i = false) → Text.isBlank c = true := by
  have hname : IsName "lambdax" := by decide
  have hone : Lexeme (.literal (.nat 1)) ['1'] :=
    .natural (.inr ⟨'1', [], rfl, rfl, nofun⟩) rfl
  have hmunch : MaximalMunch "lambdax 01".toList []
      [⟨.name "lambdax", "lambdax".toList, [' ']⟩, ⟨.literal (.nat 0), ['0'], []⟩,
        ⟨.literal (.nat 1), ['1'], []⟩] := by
    refine maximalMunch_cons.2 ⟨" 01".toList, rfl, nofun, .name hname, by rintro _ ⟨⟩; rfl, ?_⟩
    refine maximalMunch_cons.2 ⟨['1'], rfl, List.forall_mem_singleton.2 rfl,
      .natural (.inl rfl) rfl, by rintro _ ⟨⟩; rfl, ?_⟩
    exact maximalMunch_cons.2 ⟨[], rfl, nofun, hone, nofun, .nil nofun⟩
  obtain ⟨hscan, hunique, hspans⟩ := scan_iff_maximalMunch
  have htokens := (hscan "lambdax 01" _ (List.cons_ne_nil _ _)).2 ⟨_, _, hmunch, rfl⟩
  exact ⟨⟨htokens, fun w ps h => hunique _ _ _ _ _ h hmunch⟩, (hspans _ _ htokens).2.2⟩

end Redline.Token
