import Redline.Proofs.Token.Cutting
import Redline.Proofs.Token.Failing

/-! # Where sources break off

What can be lexed does not depend on the lexemes and blanks in front of it, as long as the last of
these lexemes does not run on (`Detached`).  So the place at which the repetition of tokens stops is
where the source breaks off: what stands before it starts an accepted source, and with the next
character it starts none, unless a numeral is too large (`Refuses`).  By induction over the tokens
read (`run_upTo_item`) this holds of every source that is refused.  Main statement:
`exists_breaksOff_of_error`. -/

namespace Redline.Token

open Parsing Parsing.Parser

namespace Lexer

/-! ### Lexable texts -/

/-- The characters fall into lexemes and blanks. -/
def Lexable (cs : List Char) : Prop := ∃ ts, Lexed 0 cs ts

/-- It does not matter behind how many characters they stand. -/
theorem lexable_iff_lexed (n : Nat) {cs : List Char} : Lexable cs ↔ ∃ ts, Lexed n cs ts := by
  rw [← Nat.zero_add n]
  simp only [lexed_shift_iff]
  constructor
  · rintro ⟨ts, h⟩
    exact ⟨_, ts, h, rfl⟩
  · rintro ⟨_, ts, h, -⟩
    exact ⟨ts, h⟩

theorem lexable_blanks {w : List Char} (hw : ∀ c ∈ w, Text.isBlank c = true) : Lexable w :=
  ⟨[], .blank hw⟩

theorem lexable_blank_append_iff {v cs : List Char} (hv : ∀ c ∈ v, Text.isBlank c = true) :
    Lexable (v ++ cs) ↔ Lexable cs := by
  rw [@lexable_iff_lexed (0 + v.length) cs]
  simp only [Lexable, lexed_blank_append_iff hv]

theorem lexable_lexeme_append_iff {t : Token} {l cs : List Char} (hl : Lexeme t l)
    (hstop : ∀ d, cs.head? = some d → runsOn l d = false) : Lexable (l ++ cs) ↔ Lexable cs := by
  rw [@lexable_iff_lexed (0 + l.length) cs]
  simp only [Lexable, lexed_lexeme_append_iff hl hstop]
  constructor
  · rintro ⟨_, ts, -, h⟩
    exact ⟨ts, h⟩
  · rintro ⟨ts, h⟩
    exact ⟨_, ts, rfl, h⟩

/-- Whether texts that start as `cs` can be lexed does not depend on `vs` in front of them. -/
def Detached (vs cs : List Char) : Prop :=
  ∀ us, (∀ d, us.head? = some d → cs.head? = some d) → (Lexable (vs ++ us) ↔ Lexable us)

theorem detached_blanks {w : List Char} (hw : ∀ c ∈ w, Text.isBlank c = true) (cs : List Char) :
    Detached w cs := fun _ _ => lexable_blank_append_iff hw

theorem detached_lexeme {t : Token} {w l v cs : List Char} (hw : ∀ c ∈ w, Text.isBlank c = true)
    (hl : Lexeme t l) (hv : ∀ c ∈ v, Text.isBlank c = true)
    (hstop : ∀ d, (v ++ cs).head? = some d → runsOn l d = false) :
    Detached (w ++ (l ++ v)) cs := by
  intro us hus
  rw [List.append_assoc, List.append_assoc, lexable_blank_append_iff hw,
    lexable_lexeme_append_iff hl fun d hd => hstop d ?_, lexable_blank_append_iff hv]
  cases v with
  | nil => exact hus d hd
  | cons => exact hd

/-! ### Refusals -/

/-- The failure tells where the characters `cs` behind `n` others break off: behind what starts a
lexable text and with the next character does not, or behind a numeral that is too large. -/
inductive Refuses (total n : Nat) : List Char → Failure Char → Prop
  | breaks {us rest : List Char} {f : Failure Char} : f.At (place total (n + us.length) rest) →
      Starts Lexable us → (∀ d, rest.head? = some d → ¬ Starts Lexable (us ++ [d])) →
        Refuses total n (us ++ rest) f
  | overflows {us ds rest : List Char} {f : Failure Char} : Lexable us →
      Overflows f (place total (n + us.length) (ds ++ rest)) ds
        (place total (n + us.length + ds.length) rest) → Refuses total n (us ++ (ds ++ rest)) f

namespace Refuses

variable {total n : Nat} {cs vs : List Char} {f g : Failure Char}

theorem of_alike (hg : Refuses total n cs g) (h : f.Alike g) : Refuses total n cs f := by
  cases hg with
  | breaks hat hstarts hbreaks => exact .breaks (hat.of_alike h) hstarts hbreaks
  | overflows hus hover => exact .overflows hus (hover.of_alike h)

theorem le_index (h : Refuses total n cs f) : n ≤ f.index := by
  cases h with
  | breaks hat =>
      rw [hat.index]
      exact Nat.le_add_right n _
  | @overflows us ds rest _ _ hover =>
      rw [hover.index]
      change n ≤ n + us.length + ds.length
      omega

/-- At the very start nothing has been read, so no numeral is too large. -/
theorem at_of_index (h : Refuses total n cs f) (hn : f.index = n) : f.At (place total n cs) := by
  cases h with
  | @breaks us rest _ hat =>
      have hindex : n = n + us.length := hn.symm.trans hat.index
      obtain rfl : us = [] := List.length_eq_zero_iff.1 (by omega)
      exact hat
  | @overflows us ds rest _ _ hover =>
      obtain ⟨d, ds, rfl, -⟩ := hover.oversized.head
      have hindex : n = n + us.length + (ds.length + 1) := hn.symm.trans hover.index
      omega

/-- What is detached may be put in front. -/
theorem append (h : Refuses total (n + vs.length) cs f) (hvs : Detached vs cs) :
    Refuses total n (vs ++ cs) f := by
  cases h with
  | @breaks us rest _ hat hstarts hbreaks =>
      have hlength : n + vs.length + us.length = n + (vs ++ us).length := by
        rw [List.length_append, Nat.add_assoc]
      rw [hlength] at hat
      rw [← List.append_assoc]
      refine .breaks hat ?_ fun d hd ⟨ws, hws⟩ => hbreaks d hd ⟨ws, ?_⟩
      · cases us with
        | nil => exact .of_mem ((hvs [] nofun).2 (lexable_blanks nofun))
        | cons u us =>
            obtain ⟨ws, hws⟩ := hstarts
            refine ⟨ws, ?_⟩
            rw [List.append_assoc]
            exact (hvs (u :: us ++ ws) fun d hd => hd).2 hws
      · rw [List.append_assoc, List.append_assoc] at hws
        rw [List.append_assoc]
        refine (hvs (us ++ ([d] ++ ws)) fun e he => ?_).1 hws
        cases us with
        | nil => exact hd.trans he
        | cons => exact he
  | @overflows us ds rest _ hus hover =>
      have hlength : n + vs.length + us.length = n + (vs ++ us).length := by
        rw [List.length_append, Nat.add_assoc]
      rw [hlength] at hover
      rw [← List.append_assoc]
      refine .overflows ((hvs us fun d hd => ?_).2 hus) hover
      rw [List.head?_append, hd]
      rfl

end Refuses

/-! ### Failures of tokens -/

theorem Lexable.exists_lexeme {c : Char} {cs : List Char} (h : Lexable (c :: cs))
    (hc : Text.isBlank c = false) : ∃ l rest, c :: cs = l ++ rest ∧ IsLexeme l := by
  obtain ⟨ts, h⟩ := h
  generalize hds : c :: cs = ds at h
  cases h with
  | blank hw =>
      subst hds
      rw [hw c List.mem_cons_self] at hc
      cases hc
  | @cons _ w l rest t ts hw hl =>
      cases w with
      | nil => exact ⟨l, rest, rfl, t, hl⟩
      | cons b w =>
          obtain ⟨rfl, -⟩ := List.cons.inj hds
          rw [hw c List.mem_cons_self] at hc
          cases hc

/-- Where the lexemes break off, so does what can be lexed. -/
theorem not_starts_lexable {c : Cursor Char} {f : Failure Char} {us : List Char} {e : Char}
    {d : Cursor Char} (hfails : Fails Anywhere IsLexeme c f) (hpass : c.Passes (us ++ [e]) d)
    (hindex : f.index < d.index) (hblank : ∀ v, c.next = some v → Text.isBlank v = false) :
    ¬ Starts Lexable (us ++ [e]) := by
  rintro ⟨ws, hws⟩
  obtain ⟨a, as, ha⟩ := List.exists_cons_of_ne_nil (List.append_ne_nil_of_right_ne_nil us
    (List.cons_ne_nil e []))
  rw [ha] at hpass hws
  obtain ⟨l, rest, happend, hl⟩ := hws.exists_lexeme (hblank a (Cursor.next_of_passes hpass))
  change a :: as ++ ws = _ at happend
  rcases List.append_eq_append_iff.1 happend with ⟨bs, rfl, -⟩ | ⟨bs, has, -⟩
  · -- The lexeme goes on from what has been passed.
    have hreach : c.Reaches Anywhere IsLexeme (a :: as) d :=
      ⟨Cursor.advances_of_passes (fun _ => trivial) hpass, bs, hl⟩
    exact Nat.not_le.2 hindex (hfails.furthest hreach)
  · -- The lexeme ends before.
    rw [has] at hpass
    obtain ⟨d', hd', -⟩ := Cursor.passes_append.1 hpass
    exact hfails.refuses hd' hl

/-- A token that fails where no blank stands tells where the characters break off. -/
theorem refuses_of_token {total n : Nat} {cs : List Char} {f : Failure Char}
    (hcs : ∀ c, cs.head? = some c → Text.isBlank c = false)
    (hr : token.run (place total n cs) = .error f) : Refuses total n cs f := by
  rcases fails_token hr with hfails | ⟨ds, c', hover⟩
  · obtain ⟨us, d, hreach, hat⟩ := hfails.reached
    obtain ⟨rest, rfl, rfl⟩ := eq_place_of_passes hreach.passes
    refine .breaks hat ?_ fun e he => ?_
    · obtain ⟨ws, t, hl⟩ := hreach.starts
      exact ⟨ws, _, .lexeme hl⟩
    · obtain ⟨rest, rfl⟩ := List.head?_eq_some_iff.1 he
      have hpass : (place total n (us ++ e :: rest)).Passes (us ++ [e]) _ :=
        List.append_cons us e rest ▸ passes_place (us ++ [e]) rest
      refine not_starts_lexable hfails hpass ?_ (by rwa [next_place])
      rw [hat.index, Cursor.index_of_passes hpass, List.length_append]
      exact Nat.lt_succ_self _
  · obtain ⟨rest, rfl, rfl⟩ := eq_place_of_passes hover.passes
    exact @Refuses.overflows _ _ [] _ _ _ (lexable_blanks nofun) hover

/-- And so does a token that fails behind blanks. -/
theorem refuses_of_item {total n : Nat} {cs : List Char} {f : Failure Char}
    (hr : item.run (place total n cs) = .error f) : Refuses total n cs f := by
  have hr : token.run ((place total n cs).dropWhile Text.isBlank) = .error f :=
    error_of_spanned (error_of_padded hr)
  have hw := Cursor.passesAll_dropWhile Text.isBlank (place total n cs)
  obtain ⟨rest, hcs, hplace⟩ := eq_place_of_passes hw.passes
  have hstops := hw.stops
  rw [hplace] at hr hstops
  rw [next_place] at hstops
  rw [hcs]
  exact (refuses_of_token hstops hr).append (detached_blanks hw.all rest)

/-! ### The repetition of tokens -/

theorem contained_item : item.Contained := contained_token.spanned.padded Text.isBlank

/-- The repetition always stops with a failure, which tells where the characters break off. -/
theorem run_upTo_item (total : Nat) : ∀ (m n : Nat) (cs : List Char), cs.length < m →
    ∃ ts c' f, (upTo item m).run (place total n cs) = .ok ts c' (some f) ∧
      Refuses total n cs f ∧ c'.index ≤ f.index ∧ (f.index = c'.index → f.At c')
  | 0, _, _, hm => absurd hm (Nat.not_lt_zero _)
  | m + 1, n, cs, hm => by
      unfold upTo
      cases hr : item.run (place total n cs) with
      | error f =>
          have hrefuses := refuses_of_item hr
          refine ⟨[], _, f, run_optional_bind_of_error rfl hr, hrefuses, hrefuses.le_index, ?_⟩
          exact hrefuses.at_of_index
      | ok x c₁ met =>
          have hread : item.read (place total n cs) = some (x, c₁) := by rw [Parser.read, hr]
          obtain ⟨w, l, v, rest, rfl, hw, hl, hstop, hv, -, rfl⟩ := lexeme_of_read_item hread
          have hlt : rest.length < m := by
            obtain ⟨a, l', rfl, -⟩ := hl.head
            simp only [List.length_append, List.length_cons] at hm
            omega
          obtain ⟨ts, c', f, hrun, hrefuses, hle, hat⟩ :=
            run_upTo_item total m (n + w.length + l.length + v.length) rest hlt
          have hf : (Failure.latest met (some f)) = some (f.orEarlier met) := by cases met <;> rfl
          have halike : (f.orEarlier met).Alike f := by
            cases met with
            | none => exact .refl f
            | some g =>
                have hg := contained_item hr g rfl
                exact Failure.alike_further (Nat.le_trans hg hrefuses.le_index)
          refine ⟨x :: ts, c', f.orEarlier met, ?_, ?_, ?_, ?_⟩
          · rw [run_optional_bind_of_ok hr, run_bind_of_ok hr (run_return_of_ok hrun (x :: ·)), hf]
          · have hlength : n + w.length + l.length + v.length = n + (w ++ (l ++ v)).length := by
              simp only [List.length_append, Nat.add_assoc]
            have hassoc : w ++ (l ++ (v ++ rest)) = w ++ (l ++ v) ++ rest := by
              simp only [List.append_assoc]
            rw [hlength] at hrefuses
            rw [hassoc]
            exact (hrefuses.append (detached_lexeme hw hl hv hstop)).of_alike halike
          · rw [halike.index]
            exact hle
          · intro hindex
            exact (hat (halike.index.symm.trans hindex)).of_alike halike

/-- A refused source is refused where its tokens stop. -/
theorem refuses_of_scan {source : String} {problem : Problem Char}
    (h : scan source = .error problem) : ∃ f : Failure Char, f.problem = problem ∧
      Refuses source.toList.length 0 source.toList f := by
  obtain ⟨f, hf, hwhole⟩ := exists_failure_of_parse h
  obtain ⟨ts, c', g, hrun, hrefuses, hle, hat⟩ := run_upTo_item source.toList.length
    ((characters 0 source.toList).length + 1) 0 source.toList
    (Nat.lt_succ_of_le (Nat.le_of_eq (length_characters 0 _).symm))
  refine ⟨f, hf, hrefuses.of_alike ?_⟩
  rcases failure_of_whole hwhole with herror | ⟨ts', c₁, met, hok, -, rfl⟩
  · cases herror.symm.trans hrun
  · cases hok.symm.trans hrun
    rcases Nat.eq_or_lt_of_le hle with heq | hlt
    · exact (Failure.alike_further (Nat.le_of_eq heq.symm)).trans
        ((Failure.at_unexpected c' [none]).alike (hat heq.symm))
    · exact Failure.alike_further_of_lt hlt

end Lexer

/-! ### Refused sources -/

open Lexer

/-- The source with these characters is accepted. -/
def Scannable (cs : List Char) : Prop := ∃ ts, scan (String.ofList cs) = .ok ts

theorem Scannable.lexable {cs : List Char} (h : Scannable cs) : Lexable cs := by
  obtain ⟨ts, h⟩ := h
  have hlexed := lexed_of_scan h
  rw [String.toList_ofList] at hlexed
  exact ⟨ts, hlexed⟩

/-- What can be lexed is accepted unless it is blank. -/
theorem Lexer.Lexable.scannable {cs : List Char} (h : Lexable cs) :
    (∀ c ∈ cs, Text.isBlank c = true) ∨ Scannable cs := by
  obtain ⟨ts, h⟩ := h
  cases ts with
  | nil =>
      cases h with
      | blank hw => exact .inl hw
  | cons t ts =>
      refine .inr ⟨t :: ts, scan_eq_ok_iff.2 (.inr ⟨List.cons_ne_nil t ts, ?_⟩)⟩
      rwa [String.toList_ofList]

/-- Blanks start an accepted source as well. -/
theorem starts_scannable_iff {us : List Char} : Starts Scannable us ↔ Starts Lexable us := by
  refine ⟨fun h => h.mono fun _ => Scannable.lexable, ?_⟩
  rintro ⟨ws, h⟩
  rcases h.scannable with hblank | hscan
  · have hdot : Lexable (us ++ (ws ++ ['.'])) := by
      rw [← List.append_assoc]
      exact (lexable_blank_append_iff hblank).2 ⟨_, .lexeme (.symbol .dot)⟩
    rcases hdot.scannable with hnone | hscan
    · have hdot := hnone '.' (by simp)
      cases hdot
    · exact ⟨_, hscan⟩
  · exact ⟨ws, hscan⟩

/-- The problem is that of the unexpected character number `e`, or of the end if there is no such
character.  What stands before it starts an accepted source, and with it it does not. -/
structure BreaksOff (cs : List Char) (problem : Problem Char) (e : Nat) : Prop where
  le : e ≤ cs.length
  reason : problem.reason = .unexpected
  span : problem.span = ⟨e, min (e + 1) cs.length⟩
  found : problem.found = cs[e]?
  starts : Starts Scannable (cs.take e)
  breaks : e < cs.length → ¬ Starts Scannable (cs.take (e + 1))

/-- The problem is that of the digits between `before` and `behind`, which are too large a
number. -/
structure TooLarge (cs : List Char) (problem : Problem Char) (before ds behind : List Char) :
    Prop where
  chars : cs = before ++ (ds ++ behind)
  reason : problem.reason = .custom "number too large to fit in target type"
  span : problem.span = ⟨before.length, before.length + ds.length⟩
  oversized : IsOversized ds
  stops : ∀ d, behind.head? = some d → d.isDigit = false
  before_accepted : (∀ c ∈ before, Text.isBlank c = true) ∨ Scannable before

theorem Lexer.Refuses.breaksOff {us rest : List Char} {f : Failure Char}
    (hat : f.At (place (us ++ rest).length us.length rest)) (hstarts : Starts Lexable us)
    (hbreaks : ∀ d, rest.head? = some d → ¬ Starts Lexable (us ++ [d])) :
    BreaksOff (us ++ rest) f.problem us.length where
  le := by simp
  reason := hat.reason
  span := by
    rw [hat.span]
    cases rest with
    | nil => simp [place, characters, Cursor.here]
    | cons d rest => simp [place, characters, Cursor.here]
  found := by
    rw [hat.found, next_place, List.getElem?_append_right (Nat.le_refl _), Nat.sub_self,
      List.head?_eq_getElem?]
  starts := by
    rw [List.take_left, starts_scannable_iff]
    exact hstarts
  breaks := by
    intro hlt
    cases rest with
    | nil => simp at hlt
    | cons d rest =>
        rw [List.append_cons, List.take_left' (by simp), starts_scannable_iff]
        exact hbreaks d rfl

theorem Lexer.Overflows.tooLarge {us ds rest : List Char} {f : Failure Char} (hus : Lexable us)
    {total : Nat} (hover : Overflows f (place total us.length (ds ++ rest)) ds
      (place total (us.length + ds.length) rest)) :
    TooLarge (us ++ (ds ++ rest)) f.problem us ds rest where
  chars := rfl
  reason := hover.reason
  span := by
    obtain ⟨d, ds, rfl, -⟩ := hover.oversized.head
    exact hover.span
  oversized := hover.oversized
  stops := by
    have hstops := hover.stops
    rwa [next_place] at hstops
  before_accepted := hus.scannable

/-- A source is refused where it breaks off, or for a numeral that is too large. -/
theorem exists_breaksOff_of_error {source : String} {problem : Problem Char}
    (h : scan source = .error problem) : (∃ e, BreaksOff source.toList problem e) ∨
      ∃ before ds behind, TooLarge source.toList problem before ds behind := by
  obtain ⟨f, rfl, hrefuses⟩ := refuses_of_scan h
  generalize source.toList = cs at hrefuses
  cases hrefuses with
  | @breaks us rest _ hat hstarts hbreaks =>
      rw [Nat.zero_add] at hat
      exact .inl ⟨us.length, Refuses.breaksOff hat hstarts hbreaks⟩
  | @overflows us ds rest _ hus hover =>
      rw [Nat.zero_add] at hover
      exact .inr ⟨us, ds, rest, hover.tooLarge hus⟩

/-- A text breaks off at an escape that there is not, and `2 ^ 64` is no natural. -/
theorem breaksOff_escape_tooLarge_natural :
    (∃ problem, scan "x \"\\q" = .error problem ∧ BreaksOff "x \"\\q".toList problem 4) ∧
    ∃ problem before ds behind, scan "x 18446744073709551616;" = .error problem ∧
      TooLarge "x 18446744073709551616;".toList problem before ds behind := by
  have hescape : ∃ problem, scan "x \"\\q" = .error problem ∧ problem.span = ⟨4, 5⟩ ∧
      problem.reason = .unexpected := ⟨_, rfl, rfl, rfl⟩
  have hnatural : ∃ problem, scan "x 18446744073709551616;" = .error problem ∧
      problem.reason ≠ .unexpected := ⟨_, rfl, nofun⟩
  constructor
  · obtain ⟨problem, h, hspan, hreason⟩ := hescape
    refine ⟨problem, h, ?_⟩
    rcases exists_breaksOff_of_error h with ⟨e, he⟩ | ⟨_, _, _, hlarge⟩
    · obtain rfl : 4 = e := congrArg Span.start (hspan.symm.trans he.span)
      exact he
    · cases hreason.symm.trans hlarge.reason
  · obtain ⟨problem, h, hreason⟩ := hnatural
    rcases exists_breaksOff_of_error h with ⟨e, he⟩ | ⟨before, ds, behind, hlarge⟩
    · exact absurd he.reason hreason
    · exact ⟨problem, before, ds, behind, h, hlarge⟩

end Redline.Token
