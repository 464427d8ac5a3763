import Redline.Proofs.Parsing.Rows
import Redline.Token.Lexer

/-! # Lexemes

`Lexeme t l` says that the token `t` is written as `l`.  A lexeme is never followed by a character
that would make it longer (`runsOn`): a word by no letter, digit or underscore, and a numeral that
does not start with `0` by no digit.  These two conditions are all there is to reading a token
(`read_token_eq_some`), although the parser tries its alternatives one after another: the first
character settles which of them can succeed, and among the words the keywords come first. -/

namespace Redline.Token.Lexer

open Parsing Parsing.Parser

/-! ### Words, numerals and quoted texts -/

/-- A letter or an underscore, and then letters, digits and underscores. -/
def IsWord (w : List Char) : Prop :=
  ∃ c cs, w = c :: cs ∧ (c.isAlpha || c = '_') = true ∧ ∀ d ∈ cs, (d.isAlphanum || d = '_') = true

/-- The words that are no names. -/
def reserved : List String := ["_", "lambda", "unit", "true", "false"]

def IsName (x : String) : Prop := IsWord x.toList ∧ x ∉ reserved

instance : DecidablePred IsWord
  | [] => isFalse (by rintro ⟨_, _, h, -⟩; cases h)
  | c :: cs => decidable_of_iff (isWordStart c = true ∧ cs.all isWordPart = true)
      ⟨fun h => ⟨c, cs, rfl, h.1, List.all_eq_true.1 h.2⟩,
        by rintro ⟨_, _, ⟨⟩, hc, hcs⟩; exact ⟨hc, List.all_eq_true.2 hcs⟩⟩

instance (x : String) : Decidable (IsName x) :=
  inferInstanceAs (Decidable (IsWord x.toList ∧ x ∉ reserved))

/-- Decimal digits without a superfluous zero in front. -/
def IsNumeral (ds : List Char) : Prop :=
  ds = ['0'] ∨ ∃ d ds', ds = d :: ds' ∧ (d.isDigit && d != '0') = true ∧
    ∀ e ∈ ds', e.isDigit = true

/-- How one character of a text may be written. -/
inductive Quotes : List Char → Char → Prop
  | raw {c : Char} : (c != '\\' && c != '"') = true → Quotes [c] c
  | backslash : Quotes ['\\', '\\'] '\\'
  | quote : Quotes ['\\', '"'] '"'
  | lineFeed : Quotes ['\\', 'n'] '\n'
  | tab : Quotes ['\\', 't'] '\t'

inductive Lexeme : Token → List Char → Prop
  | symbol (s : Symbol) : Lexeme (symbol s) [s.char]
  | underscore : Lexeme underscore ['_']
  | keyword {k : String} {t : Token} : (k, t) ∈ keywords → Lexeme t k.toList
  | name {x : String} : IsName x → Lexeme (name x) x.toList
  | natural {n : UInt64} {ds : List Char} :
      IsNumeral ds → decimal ds = n.toNat → Lexeme (literal (.nat n)) ds
  | text {w s : List Char} :
      Sequence Quotes w s → Lexeme (literal (.text (String.ofList s))) ('"' :: (w ++ ['"']))

/-- Whether `d` behind the lexeme would belong to it. -/
def runsOn : List Char → Char → Bool
  | [], _ => false
  | c :: _, d => if isWordStart c then isWordPart d else (c.isDigit && c != '0') && d.isDigit

/-! ### Kinds of characters -/

theorem toNat_of_isWordStart {c : Char} (h : isWordStart c = true) :
    (65 ≤ c.toNat ∧ c.toNat ≤ 90) ∨ (97 ≤ c.toNat ∧ c.toNat ≤ 122) ∨ c.toNat = 95 := by
  change ((decide (65 ≤ c.val ∧ c.val ≤ 90) || (decide (97 ≤ c.val) && decide (c.val ≤ 122))) ||
    decide (c = '_')) = true at h
  simp only [Bool.or_eq_true, Bool.and_eq_true, decide_eq_true_eq, UInt32.le_iff_toNat_le] at h
  rcases h with (h | h) | rfl
  · exact .inl h
  · exact .inr (.inl h)
  · exact .inr (.inr rfl)

theorem toNat_of_isDigit {c : Char} (h : c.isDigit = true) : 48 ≤ c.toNat ∧ c.toNat ≤ 57 := by
  simp only [Char.isDigit, Bool.and_eq_true, decide_eq_true_eq, UInt32.le_iff_toNat_le,
    ge_iff_le] at h
  exact h

theorem isDigit_of_isWordStart {c : Char} (h : isWordStart c = true) : c.isDigit = false := by
  have hw := toNat_of_isWordStart h
  rw [Bool.eq_false_iff]
  intro hd
  have := toNat_of_isDigit hd
  omega

theorem isWordPart_of_isWordStart {c : Char} (h : isWordStart c = true) : isWordPart c = true := by
  simp only [isWordStart, isWordPart, Char.isAlphanum, Bool.or_eq_true] at h ⊢
  exact h.imp .inl id

theorem isWordPart_of_isDigit {c : Char} (h : c.isDigit = true) : isWordPart c = true := by
  simp only [isWordPart, Char.isAlphanum, h, Bool.or_true, Bool.true_or]

theorem isWordStart_symbol (s : Symbol) : isWordStart s.char = false := by cases s <;> rfl

theorem isDigit_symbol (s : Symbol) : s.char.isDigit = false := by cases s <;> rfl

theorem symbol_char_ne_quote (s : Symbol) : s.char ≠ '"' := by cases s <;> decide

/-! ### Lexemes that run on -/

theorem runsOn_word {w : List Char} (h : IsWord w) (d : Char) : runsOn w d = isWordPart d := by
  obtain ⟨c, cs, rfl, hc, -⟩ := h
  exact if_pos hc

theorem runsOn_of_digit {c : Char} {cs : List Char} (h : (c.isDigit && c != '0') = true)
    (d : Char) : runsOn (c :: cs) d = d.isDigit := by
  have hc : isWordStart c ≠ true := by
    intro hw
    rw [isDigit_of_isWordStart hw] at h
    cases h
  rw [runsOn, if_neg hc, h, Bool.true_and]

theorem runsOn_symbol (s : Symbol) (d : Char) : runsOn [s.char] d = false := by
  rw [runsOn, isWordStart_symbol, isDigit_symbol]
  rfl

/-! ### Reading words -/

theorem read_word_eq_some {c c' : Cursor Char} {w : String} :
    word.read c = some (w, c') ↔ c.Passes w.toList c' ∧ IsWord w.toList ∧
      ∀ d, c'.next = some d → runsOn w.toList d = false := by
  unfold word
  simp only [read_bind_eq_some, read_satisfy_eq_some, read_repeated_satisfy_eq_some, read_pure]
  constructor
  · rintro ⟨a, c₁, ⟨ha, h₁⟩, cs, c₂, hcs, hw⟩
    cases hw
    rw [String.toList_ofList]
    have hword : IsWord (a :: cs) := ⟨a, cs, rfl, ha, hcs.all⟩
    refine ⟨Cursor.passes_cons.2 ⟨c₁, h₁, hcs.passes⟩, hword, fun d hd => ?_⟩
    rw [runsOn_word hword]
    exact hcs.stops d hd
  · rintro ⟨hpass, hword, hstop⟩
    simp only [runsOn_word hword] at hstop
    obtain ⟨a, cs, hw, ha, hcs⟩ := hword
    rw [hw] at hpass
    obtain ⟨c₁, h₁, h₂⟩ := Cursor.passes_cons.1 hpass
    refine ⟨a, c₁, ⟨ha, h₁⟩, cs, c', ⟨h₂, hcs, hstop⟩, ?_⟩
    rw [← hw, String.ofList_toList]

theorem read_word_eq_none {c : Cursor Char} (h : ∀ d, c.next = some d → isWordStart d = false) :
    word.read c = none := by
  unfold word
  exact read_bind_eq_none (read_satisfy_eq_none h)

theorem read_keyword_eq_some {c c' : Cursor Char} {k a : String} :
    (keyword k).read c = some (a, c') ↔ a = k ∧ word.read c = some (k, c') := by
  unfold keyword
  rw [read_check, read_spanned]
  cases word.read c with
  | none => simp
  | some r =>
      obtain ⟨w, c₁⟩ := r
      by_cases hw : w = k
      · subst hw
        simp [Except.toOption, eq_comm]
      · simp [Except.toOption, hw]

/-! ### Reading numerals -/

theorem IsNumeral.head {ds : List Char} (h : IsNumeral ds) :
    ∃ d ds', ds = d :: ds' ∧ d.isDigit = true := by
  rcases h with rfl | ⟨d, ds', rfl, hd, -⟩
  · exact ⟨_, _, rfl, rfl⟩
  · exact ⟨d, ds', rfl, (Bool.and_eq_true_iff.1 hd).1⟩

/-- A numeral that does not start with `0`. -/
theorem read_positive_eq_some {c c' : Cursor Char} {ds : List Char} :
    (do
      let c ← satisfy fun c => c.isDigit && c != '0'
      let cs ← repeated (satisfy Char.isDigit)
      return c :: cs : Parser Char (List Char)).read c = some (ds, c') ↔
      ∃ d ds', ds = d :: ds' ∧ (d.isDigit && d != '0') = true ∧ c.Passes (d :: ds') c' ∧
        (∀ e ∈ ds', e.isDigit = true) ∧ ∀ e, c'.next = some e → e.isDigit = false := by
  simp only [read_bind_eq_some, read_satisfy_eq_some, read_repeated_satisfy_eq_some, read_pure]
  constructor
  · rintro ⟨d, c₁, ⟨hd, h₁⟩, ds', c₂, hds, hp⟩
    cases hp
    exact ⟨d, ds', rfl, hd, Cursor.passes_cons.2 ⟨c₁, h₁, hds.passes⟩, hds.all, hds.stops⟩
  · rintro ⟨d, ds', rfl, hd, hpass, hall, hstop⟩
    obtain ⟨c₁, h₁, h₂⟩ := Cursor.passes_cons.1 hpass
    exact ⟨d, c₁, ⟨hd, h₁⟩, ds', c', ⟨h₂, hall, hstop⟩, rfl⟩

theorem read_zero_eq_some {c c' : Cursor Char} {ds : List Char} :
    (do
      let c ← just '0'
      return [c] : Parser Char (List Char)).read c = some (ds, c') ↔
      ds = ['0'] ∧ c.Passes ['0'] c' := by
  simp only [read_bind_eq_some, read_just_eq_some, read_pure]
  constructor
  · rintro ⟨d, c₁, ⟨rfl, h⟩, hp⟩
    cases hp
    exact ⟨rfl, h⟩
  · rintro ⟨rfl, h⟩
    exact ⟨'0', c', ⟨rfl, h⟩, rfl⟩

theorem read_digits_eq_some {c c' : Cursor Char} {ds : List Char} :
    digits.read c = some (ds, c') ↔
      c.Passes ds c' ∧ IsNumeral ds ∧ ∀ d, c'.next = some d → runsOn ds d = false := by
  unfold digits
  rw [read_orElse, Option.or_eq_some_iff, read_positive_eq_some, read_zero_eq_some]
  constructor
  · rintro (⟨d, ds', rfl, hd, hpass, hall, hstop⟩ | ⟨-, rfl, hpass⟩)
    · refine ⟨hpass, .inr ⟨d, ds', rfl, hd, hall⟩, fun e he => ?_⟩
      rw [runsOn_of_digit hd, hstop e he]
    · exact ⟨hpass, .inl rfl, fun _ _ => rfl⟩
  · rintro ⟨hpass, rfl | ⟨d, ds', rfl, hd, hall⟩, hstop⟩
    · refine .inr ⟨read_bind_eq_none (read_satisfy_eq_none fun v hv => ?_), rfl, hpass⟩
      rw [Cursor.next_of_passes hpass] at hv
      cases hv
      rfl
    · refine .inl ⟨d, ds', rfl, hd, hpass, hall, fun e he => ?_⟩
      rw [← runsOn_of_digit hd, hstop e he]

theorem read_natural_eq_some {c c' : Cursor Char} {t : Token} :
    natural.read c = some (t, c') ↔
      ∃ ds n, digits.read c = some (ds, c') ∧ decimal ds = UInt64.toNat n ∧
        t = literal (.nat n) := by
  unfold natural
  rw [read_check, read_spanned]
  cases digits.read c with
  | none => simp
  | some r =>
      obtain ⟨ds, c₁⟩ := r
      by_cases h : decimal ds < UInt64.size
      · have hn : decimal ds = (UInt64.ofNat (decimal ds)).toNat := by
          rw [UInt64.toNat_ofNat', Nat.mod_eq_of_lt h]
        simp only [Option.map_some, Option.bind_some, if_pos h, Except.toOption, Option.some.injEq,
          Prod.mk.injEq]
        constructor
        · rintro ⟨rfl, rfl⟩
          exact ⟨ds, _, ⟨rfl, rfl⟩, hn, rfl⟩
        · rintro ⟨_, n, ⟨rfl, rfl⟩, hn', rfl⟩
          exact ⟨by rw [hn', UInt64.ofNat_toNat], rfl⟩
      · simp only [Option.map_some, Option.bind_some, if_neg h, Except.toOption, Option.map_none,
          reduceCtorEq, false_iff]
        rintro ⟨_, n, hds, hn, -⟩
        cases hds
        exact h (hn ▸ n.toNat_lt_size)

theorem read_natural_eq_none {c : Cursor Char} (h : ∀ d, c.next = some d → d.isDigit = false) :
    natural.read c = none := by
  rw [Option.eq_none_iff_forall_ne_some]
  rintro ⟨t, c'⟩ hr
  obtain ⟨ds, n, hds, -, -⟩ := read_natural_eq_some.1 hr
  obtain ⟨hpass, hnum, -⟩ := read_digits_eq_some.1 hds
  obtain ⟨d, ds', rfl, hd⟩ := hnum.head
  rw [h d (Cursor.next_of_passes hpass)] at hd
  cases hd

/-! ### Reading texts -/

/-- One character of a text, raw or escaped. -/
def quoted : Parser Char Char := satisfy (fun c => c != '\\' && c != '"') <|> escape

theorem sound_quoted : quoted.Sound Quotes := by
  intro c a c' hr
  unfold quoted at hr
  rw [read_orElse, Option.or_eq_some_iff] at hr
  rcases hr with hr | ⟨-, hr⟩
  · obtain ⟨ha, hpass⟩ := read_satisfy_eq_some.1 hr
    exact ⟨[a], hpass, .raw ha⟩
  · unfold escape at hr
    obtain ⟨_, c₁, hbackslash, hr⟩ := read_bind_eq_some.1 hr
    obtain ⟨-, h₁⟩ := read_just_eq_some.1 hbackslash
    suffices h : ∃ e, c₁.Passes [e] c' ∧ Quotes ['\\', e] a by
      obtain ⟨e, h₂, hq⟩ := h
      exact ⟨_, Cursor.passes_cons.2 ⟨c₁, h₁, h₂⟩, hq⟩
    rw [read_firstOf] at hr
    obtain ⟨p, hp, hr⟩ := List.exists_of_findSome?_eq_some hr
    simp only [List.mem_cons, List.not_mem_nil, or_false] at hp
    rcases hp with rfl | rfl | rfl | rfl
    · obtain ⟨rfl, h⟩ := read_just_eq_some.1 hr
      exact ⟨_, h, .backslash⟩
    · obtain ⟨rfl, h⟩ := read_just_eq_some.1 hr
      exact ⟨_, h, .quote⟩
    · obtain ⟨_, c₂, hn, hp⟩ := read_bind_eq_some.1 hr
      cases hp
      exact ⟨_, (read_just_eq_some.1 hn).2, .lineFeed⟩
    · obtain ⟨_, c₂, ht, hp⟩ := read_bind_eq_some.1 hr
      cases hp
      exact ⟨_, (read_just_eq_some.1 ht).2, .tab⟩

theorem takes_quoted {w : List Char} {a : Char} (h : Quotes w a) :
    quoted.Takes (fun _ => True) w a := by
  intro c c' hpass _
  unfold quoted
  rw [read_orElse]
  cases h with
  | raw ha =>
      have hraw : (satisfy fun c => c != '\\' && c != '"').read c = some (a, c') :=
        read_satisfy_eq_some.2 ⟨ha, hpass⟩
      rw [hraw]
      rfl
  | _ =>
      obtain ⟨c₁, h₁, h₂⟩ := Cursor.passes_cons.1 hpass
      have hnext := Cursor.next_of_passes h₁
      have hnext' := Cursor.next_of_passes h₂
      rw [read_satisfy_eq_none (by simp [hnext]), Option.none_or]
      unfold escape
      rw [read_bind_of_read (read_just_of_passes h₁), read_firstOf]
      simp [read_bind, read_just_of_passes h₂, read_just_eq_none, hnext']

theorem progresses_quoted : quoted.Progresses :=
  sound_quoted.progresses fun _ _ h => by cases h <;> exact List.cons_ne_nil _ _

theorem read_quoted_eq_none {c : Cursor Char} (h : c.next = some '"') : quoted.read c = none := by
  rw [Option.eq_none_iff_forall_ne_some]
  rintro ⟨a, c'⟩ hr
  obtain ⟨w, hpass, hq⟩ := sound_quoted hr
  cases hq with
  | raw ha =>
      rw [Cursor.next_of_passes hpass] at h
      cases h
      cases ha
  | _ =>
      rw [Cursor.next_of_passes hpass] at h
      cases h

theorem read_text_eq_some {c c' : Cursor Char} {t : Token} :
    text.read c = some (t, c') ↔
      ∃ w s, Sequence Quotes w s ∧ t = literal (.text (String.ofList s)) ∧
        c.Passes ('"' :: (w ++ ['"'])) c' := by
  have htext : text.read c = (do
      let _ ← just '"'
      let cs ← repeated quoted
      let _ ← just '"'
      return literal (.text (String.ofList cs)) : Parser Char Token).read c := by
    unfold text
    rw [read_labelled]
    rfl
  rw [htext]
  simp only [read_bind_eq_some, read_just_eq_some, read_pure]
  constructor
  · rintro ⟨_, c₁, ⟨-, h₁⟩, s, c₂, hs, _, c₃, ⟨-, h₃⟩, ht⟩
    cases ht
    obtain ⟨w, h₂, hw⟩ := sound_quoted.repeated hs
    exact ⟨w, s, hw, rfl, Cursor.passes_cons.2 ⟨c₁, h₁, Cursor.passes_append.2 ⟨c₂, h₂, h₃⟩⟩⟩
  · rintro ⟨w, s, hw, rfl, hpass⟩
    obtain ⟨c₁, h₁, hrest⟩ := Cursor.passes_cons.1 hpass
    obtain ⟨c₂, h₂, h₃⟩ := Cursor.passes_append.1 hrest
    refine ⟨_, c₁, ⟨rfl, h₁⟩, s, c₂, ?_, _, c', ⟨rfl, h₃⟩, rfl⟩
    exact read_repeated_of_sequence progresses_quoted (hw.imp fun _ _ => takes_quoted) h₂
      (read_quoted_eq_none (Cursor.next_of_passes h₃))

theorem read_text_eq_none {c : Cursor Char} (h : c.next ≠ some '"') : text.read c = none := by
  unfold text
  rw [read_labelled]
  exact read_bind_eq_none (read_just_eq_none h)

/-! ### Reading tokens -/

def symbols : List (Parser Char Token) :=
  Symbol.all.map fun s => do let _ ← just s.char; return symbol s

def keywordTokens : List (Parser Char Token) :=
  keywords.map fun (k, t) => do let _ ← keyword k; return t

theorem read_token (c : Cursor Char) :
    token.read c = ((symbols.findSome? (·.read c)).or ((keywordTokens.findSome? (·.read c)).or
      ((natural.read c).or ((text.read c).or (nameOrUnderscore.read c))))) := by
  change (firstOf (symbols ++ keywordTokens ++ [natural, text, nameOrUnderscore])).read c = _
  rw [read_firstOf, List.findSome?_append, List.findSome?_append, Option.or_assoc]
  simp only [List.findSome?_cons, List.findSome?_nil]
  cases natural.read c <;> cases text.read c <;> cases nameOrUnderscore.read c <;> rfl

theorem read_symbols_eq_some {c c' : Cursor Char} {t : Token} :
    symbols.findSome? (·.read c) = some (t, c') ↔ ∃ s, t = symbol s ∧ c.Passes [s.char] c' := by
  have hsound : ∀ {t : Token} {c' : Cursor Char}, symbols.findSome? (·.read c) = some (t, c') →
      ∃ s, t = symbol s ∧ c.Passes [s.char] c' := by
    intro t c' hr
    obtain ⟨p, hp, hr⟩ := List.exists_of_findSome?_eq_some hr
    obtain ⟨s, -, rfl⟩ := List.mem_map.1 hp
    obtain ⟨_, c₁, hs, ht⟩ := read_bind_eq_some.1 hr
    cases ht
    exact ⟨s, rfl, (read_just_eq_some.1 hs).2⟩
  refine ⟨hsound, ?_⟩
  rintro ⟨s, rfl, hpass⟩
  cases hr : symbols.findSome? (·.read c) with
  | none =>
      have hs := List.findSome?_eq_none_iff.1 hr _ (List.mem_map_of_mem (Symbol.mem_all s))
      rw [read_bind_of_read (read_just_of_passes hpass)] at hs
      cases hs
  | some r =>
      obtain ⟨s', hs', hpass'⟩ := hsound hr
      have hnext := (Cursor.next_of_passes hpass').symm.trans (Cursor.next_of_passes hpass)
      obtain rfl := Symbol.char_injective (Option.some.inj hnext)
      rw [← Cursor.passes_unique hpass' hpass, ← hs']

theorem read_symbols_eq_none {c : Cursor Char} (h : ∀ s : Symbol, c.next ≠ some s.char) :
    symbols.findSome? (·.read c) = none := by
  rw [Option.eq_none_iff_forall_ne_some]
  rintro ⟨t, c'⟩ hr
  obtain ⟨s, -, hpass⟩ := read_symbols_eq_some.1 hr
  exact h s (Cursor.next_of_passes hpass)

theorem keywords_unique {k : String} {t t' : Token} (h : (k, t) ∈ keywords)
    (h' : (k, t') ∈ keywords) : t = t' := by
  simp only [keywords, List.mem_cons, Prod.mk.injEq, List.not_mem_nil, or_false] at h h'
  rcases h with ⟨rfl, rfl⟩ | ⟨rfl, rfl⟩ | ⟨rfl, rfl⟩ | ⟨rfl, rfl⟩ <;> simpa [eq_comm] using h'

theorem read_keywordTokens_eq_some {c c' : Cursor Char} {t : Token} :
    keywordTokens.findSome? (·.read c) = some (t, c') ↔
      ∃ k, (k, t) ∈ keywords ∧ word.read c = some (k, c') := by
  have hsound : ∀ {t : Token} {c' : Cursor Char},
      keywordTokens.findSome? (·.read c) = some (t, c') →
        ∃ k, (k, t) ∈ keywords ∧ word.read c = some (k, c') := by
    intro t c' hr
    obtain ⟨p, hp, hr⟩ := List.exists_of_findSome?_eq_some hr
    obtain ⟨⟨k, t'⟩, hk, rfl⟩ := List.mem_map.1 hp
    obtain ⟨_, c₁, hword, ht⟩ := read_bind_eq_some.1 hr
    cases ht
    exact ⟨k, hk, (read_keyword_eq_some.1 hword).2⟩
  refine ⟨hsound, ?_⟩
  rintro ⟨k, hk, hword⟩
  cases hr : keywordTokens.findSome? (·.read c) with
  | none =>
      have hs := List.findSome?_eq_none_iff.1 hr _ (List.mem_map_of_mem hk)
      rw [read_bind_of_read (read_keyword_eq_some.2 ⟨rfl, hword⟩)] at hs
      cases hs
  | some r =>
      obtain ⟨k', hk', hword'⟩ := hsound hr
      rw [hword] at hword'
      cases hword'
      rw [keywords_unique hk hk']

theorem read_keywordTokens_eq_none {c : Cursor Char}
    (h : ∀ w c', word.read c = some (w, c') → ∀ t, (w, t) ∉ keywords) :
    keywordTokens.findSome? (·.read c) = none := by
  rw [Option.eq_none_iff_forall_ne_some]
  rintro ⟨t, c'⟩ hr
  obtain ⟨k, hk, hword⟩ := read_keywordTokens_eq_some.1 hr
  exact h k c' hword t hk

theorem read_nameOrUnderscore_eq_some {c c' : Cursor Char} {t : Token} :
    nameOrUnderscore.read c = some (t, c') ↔
      ∃ w, word.read c = some (w, c') ∧ t = if w = "_" then underscore else name w := by
  unfold nameOrUnderscore
  simp only [read_bind_eq_some, read_pure]
  constructor
  · rintro ⟨w, c₁, hw, ht⟩
    cases ht
    exact ⟨w, hw, rfl⟩
  · rintro ⟨w, hw, rfl⟩
    exact ⟨w, c', hw, rfl⟩

theorem isWord_of_keyword {k : String} {t : Token} (h : (k, t) ∈ keywords) : IsWord k.toList := by
  simp only [keywords, List.mem_cons, Prod.mk.injEq, List.not_mem_nil, or_false] at h
  rcases h with ⟨rfl, -⟩ | ⟨rfl, -⟩ | ⟨rfl, -⟩ | ⟨rfl, -⟩
  all_goals exact ⟨_, _, rfl, rfl, List.all_eq_true.1 rfl⟩

theorem mem_reserved_iff {w : String} : w ∈ reserved ↔ w = "_" ∨ ∃ t, (w, t) ∈ keywords := by
  simp only [reserved, keywords, List.mem_cons, Prod.mk.injEq, List.not_mem_nil, or_false,
    exists_or, exists_and_left, exists_eq, and_true]

theorem sound_token {c c' : Cursor Char} {t : Token} (hr : token.read c = some (t, c')) :
    ∃ l, c.Passes l c' ∧ Lexeme t l ∧ ∀ d, c'.next = some d → runsOn l d = false := by
  rw [read_token] at hr
  simp only [Option.or_eq_some_iff] at hr
  rcases hr with hr | ⟨-, hr | ⟨hkeyword, hr | ⟨-, hr | ⟨-, hr⟩⟩⟩⟩
  · obtain ⟨s, rfl, hpass⟩ := read_symbols_eq_some.1 hr
    exact ⟨_, hpass, .symbol s, fun d _ => runsOn_symbol s d⟩
  · obtain ⟨k, hk, hword⟩ := read_keywordTokens_eq_some.1 hr
    obtain ⟨hpass, hw, hstop⟩ := read_word_eq_some.1 hword
    exact ⟨_, hpass, .keyword hk, hstop⟩
  · obtain ⟨ds, n, hds, hn, rfl⟩ := read_natural_eq_some.1 hr
    obtain ⟨hpass, hnum, hstop⟩ := read_digits_eq_some.1 hds
    exact ⟨ds, hpass, .natural hnum hn, hstop⟩
  · obtain ⟨w, s, hw, rfl, hpass⟩ := read_text_eq_some.1 hr
    exact ⟨_, hpass, .text hw, fun _ _ => rfl⟩
  · obtain ⟨w, hword, rfl⟩ := read_nameOrUnderscore_eq_some.1 hr
    obtain ⟨hpass, hw, hstop⟩ := read_word_eq_some.1 hword
    refine ⟨w.toList, hpass, ?_, hstop⟩
    by_cases hu : w = "_"
    · subst hu
      exact .underscore
    · rw [if_neg hu]
      refine .name ⟨hw, fun hres => ?_⟩
      rcases mem_reserved_iff.1 hres with h | ⟨t, ht⟩
      · exact hu h
      · rw [read_keywordTokens_eq_some.2 ⟨w, ht, hword⟩] at hkeyword
        cases hkeyword

/-- Behind the symbols, a word is read as itself. -/
theorem read_token_word {c c' : Cursor Char} {w : String} (hword : word.read c = some (w, c')) :
    token.read c = (keywordTokens.findSome? (·.read c)).or
      (some (if w = "_" then underscore else name w, c')) := by
  obtain ⟨hpass, ⟨a, cs, hw, ha, -⟩, -⟩ := read_word_eq_some.1 hword
  rw [hw] at hpass
  have hnext := Cursor.next_of_passes hpass
  have hsymbols : symbols.findSome? (·.read c) = none := by
    refine read_symbols_eq_none fun s hs => ?_
    rw [hnext] at hs
    have hsymbol := isWordStart_symbol s
    rw [← Option.some.inj hs, isWordStart, ha] at hsymbol
    cases hsymbol
  have hnatural : natural.read c = none := by
    refine read_natural_eq_none fun d hd => ?_
    rw [hnext] at hd
    cases hd
    exact isDigit_of_isWordStart ha
  have htext : text.read c = none := by
    refine read_text_eq_none fun hq => ?_
    rw [hnext] at hq
    cases hq
    cases ha
  rw [read_token, hsymbols, hnatural, htext, read_nameOrUnderscore_eq_some.2 ⟨w, hword, rfl⟩]
  rfl

/-- Where neither a symbol nor a word starts, a token is a numeral or a text. -/
theorem read_token_of_next {c : Cursor Char} {a : Char} (hnext : c.next = some a)
    (hsymbol : ∀ s : Symbol, s.char ≠ a) (hstart : isWordStart a = false) :
    token.read c = (natural.read c).or (text.read c) := by
  have hword : word.read c = none := by
    refine read_word_eq_none fun d hd => ?_
    rw [hnext] at hd
    cases hd
    exact hstart
  have hsymbols : symbols.findSome? (·.read c) = none := by
    refine read_symbols_eq_none fun s hs => ?_
    rw [hnext] at hs
    exact hsymbol s (Option.some.inj hs).symm
  have hkeywords : keywordTokens.findSome? (·.read c) = none := by
    refine read_keywordTokens_eq_none fun w c' hw => ?_
    rw [hword] at hw
    cases hw
  have hname : nameOrUnderscore.read c = none := read_bind_eq_none hword
  rw [read_token, hsymbols, hkeywords, hname, Option.none_or, Option.none_or, Option.or_none]

theorem takes_token {c c' : Cursor Char} {t : Token} {l : List Char} (hpass : c.Passes l c')
    (hl : Lexeme t l) (hstop : ∀ d, c'.next = some d → runsOn l d = false) :
    token.read c = some (t, c') := by
  cases hl with
  | symbol s => rw [read_token, read_symbols_eq_some.2 ⟨s, rfl, hpass⟩]; rfl
  | underscore =>
      have hw : IsWord ['_'] := ⟨_, _, rfl, rfl, nofun⟩
      have hword : word.read c = some ("_", c') := read_word_eq_some.2 ⟨hpass, hw, hstop⟩
      rw [read_token_word hword, read_keywordTokens_eq_none]
      · rfl
      · intro w d hw t
        rw [hword] at hw
        cases hw
        simp [keywords]
  | keyword hk =>
      have hword := read_word_eq_some.2 ⟨hpass, isWord_of_keyword hk, hstop⟩
      rw [read_token_word hword, read_keywordTokens_eq_some.2 ⟨_, hk, hword⟩]
      rfl
  | name hx =>
      obtain ⟨hw, hres⟩ := hx
      have hword := read_word_eq_some.2 ⟨hpass, hw, hstop⟩
      rw [read_token_word hword, read_keywordTokens_eq_none, if_neg, Option.none_or]
      · exact fun h => hres (mem_reserved_iff.2 (.inl h))
      · intro w d hw t ht
        rw [hword] at hw
        cases hw
        exact hres (mem_reserved_iff.2 (.inr ⟨t, ht⟩))
  | natural hnum hn =>
      have hdigits := read_digits_eq_some.2 ⟨hpass, hnum, hstop⟩
      obtain ⟨d, ds, rfl, hd⟩ := hnum.head
      have hsymbol : ∀ s : Symbol, s.char ≠ d := by
        rintro s rfl
        rw [isDigit_symbol] at hd
        cases hd
      have hstart : isWordStart d = false := by
        rw [Bool.eq_false_iff]
        intro hw
        rw [isDigit_of_isWordStart hw] at hd
        cases hd
      rw [read_token_of_next (Cursor.next_of_passes hpass) hsymbol hstart,
        read_natural_eq_some.2 ⟨_, _, hdigits, hn, rfl⟩, Option.some_or]
  | text hw =>
      have hnext := Cursor.next_of_passes hpass
      have hnatural : natural.read c = none := by
        refine read_natural_eq_none fun d hd => ?_
        rw [hnext] at hd
        cases hd
        rfl
      rw [read_token_of_next hnext symbol_char_ne_quote rfl, hnatural, Option.none_or,
        read_text_eq_some.2 ⟨_, _, hw, rfl, hpass⟩]

/-- A token is read exactly where it is written as a lexeme that does not run on. -/
theorem read_token_eq_some {c c' : Cursor Char} {t : Token} :
    token.read c = some (t, c') ↔
      ∃ l, c.Passes l c' ∧ Lexeme t l ∧ ∀ d, c'.next = some d → runsOn l d = false :=
  ⟨sound_token, fun ⟨_, hpass, hl, hstop⟩ => takes_token hpass hl hstop⟩

end Redline.Token.Lexer
