import Redline.Proofs.Token.Scan

/-! # Spellings

`Spelling cs ts` says that the characters `cs` are the lexemes of the tokens `ts`, in order and with
blanks between them, from the first character of a lexeme to the last of another.  Two spellings
next to each other are a spelling (`Spelling.append`) unless a letter, a digit or an underscore
stands where they meet, so spellings are put together as renderings are.  What is spelled is scanned
back (`Spelling.scan`), and tokens are spelled as they are rendered (`lexeme_value`,
`lexeme_render`). -/

namespace Redline.Token.Lexer

open Parsing

inductive Spelling : List Char → List Token → Prop
  | one {l : List Char} {t : Token} : Lexeme t l → Spelling l [t]
  | cons {l w cs : List Char} {t : Token} {ts : List Token} :
      Lexeme t l → (∀ c ∈ w, Text.isBlank c = true) →
        (∀ d, (w ++ cs).head? = some d → runsOn l d = false) → Spelling cs ts →
          Spelling (l ++ (w ++ cs)) (t :: ts)

theorem IsWord.head_ne_colon {w : List Char} (h : IsWord w) : ∃ c cs, w = c :: cs ∧ c ≠ ':' := by
  obtain ⟨c, cs, rfl, hc, -⟩ := h
  refine ⟨c, cs, rfl, ?_⟩
  rintro rfl
  cases hc

theorem Lexeme.head_ne_colon {t : Token} {l : List Char} (h : Lexeme t l) :
    ∃ c cs, l = c :: cs ∧ c ≠ ':' := by
  cases h with
  | symbol s => exact ⟨_, _, rfl, by cases s <;> decide⟩
  | underscore => exact ⟨_, _, rfl, by decide⟩
  | keyword hk => exact (isWord_of_keyword hk).head_ne_colon
  | name hx => exact hx.1.head_ne_colon
  | natural hnum =>
      rcases hnum with rfl | ⟨d, ds, rfl, hd, -⟩
      · exact ⟨_, _, rfl, by decide⟩
      · refine ⟨d, ds, rfl, ?_⟩
        rintro rfl
        cases hd
  | text => exact ⟨_, _, rfl, by decide⟩

/-- No spelling starts with a colon. -/
theorem Spelling.head {cs : List Char} {ts : List Token} (h : Spelling cs ts) :
    ∃ c cs', cs = c :: cs' ∧ c ≠ ':' := by
  cases h with
  | one hl => exact hl.head_ne_colon
  | cons hl =>
      obtain ⟨c, l, rfl, hc⟩ := hl.head_ne_colon
      exact ⟨c, _, rfl, hc⟩

theorem Spelling.ne_nil {cs : List Char} {ts : List Token} (h : Spelling cs ts) : cs ≠ [] := by
  obtain ⟨c, cs', rfl, -⟩ := h.head
  exact List.cons_ne_nil _ _

/-! ### Spellings next to each other -/

theorem runsOn_of_not_isWordPart (l : List Char) {d : Char} (h : isWordPart d = false) :
    runsOn l d = false := by
  cases l with
  | nil => rfl
  | cons c cs =>
      have hd : d.isDigit = false := by
        simp only [isWordPart, Char.isAlphanum, Bool.or_eq_false_iff] at h
        exact h.1.2
      rw [runsOn, h, hd, Bool.and_false, ite_self]

theorem Spelling.append {cs w ds : List Char} {ts us : List Token} (hc : Spelling cs ts)
    (hw : ∀ c ∈ w, Text.isBlank c = true) (hd : Spelling ds us)
    (hstop : ∀ d, (w ++ ds).head? = some d → isWordPart d = false) :
    Spelling (cs ++ (w ++ ds)) (ts ++ us) := by
  induction hc with
  | one hl =>
      exact .cons hl hw (fun d hd => runsOn_of_not_isWordPart _ (hstop d hd)) hd
  | @cons l v cs t ts hl hv hnext hc ih =>
      obtain ⟨c, cs, rfl⟩ := List.exists_cons_of_ne_nil hc.ne_nil
      have hhead : (v ++ (c :: cs ++ (w ++ ds))).head? = (v ++ c :: cs).head? := by
        simp only [List.head?_append, List.cons_append, List.head?_cons]
      rw [List.append_assoc, List.append_assoc]
      exact .cons hl hv (fun d hd => hnext d (hhead ▸ hd)) ih

theorem isWordPart_symbol (s : Symbol) : isWordPart s.char = false := by cases s <;> rfl

theorem Spelling.symbol (s : Symbol) : Spelling [s.char] [.symbol s] := .one (.symbol s)

/-- Anything may follow a symbol. -/
theorem Spelling.afterSymbol (s : Symbol) {w cs : List Char} {ts : List Token}
    (hw : ∀ c ∈ w, Text.isBlank c = true) (h : Spelling cs ts) :
    Spelling (s.char :: (w ++ cs)) (.symbol s :: ts) :=
  .cons (.symbol s) hw (fun d _ => runsOn_symbol s d) h

/-- A symbol may follow anything. -/
theorem Spelling.appendSymbol {cs ds : List Char} {ts us : List Token} (hc : Spelling cs ts)
    (s : Symbol) (hd : Spelling (s.char :: ds) us) : Spelling (cs ++ s.char :: ds) (ts ++ us) := by
  refine hc.append (w := []) (by simp) hd fun d hd => ?_
  obtain rfl : s.char = d := Option.some.inj hd
  exact isWordPart_symbol s

theorem isBlank_space : ∀ c ∈ [' '], Text.isBlank c = true := by
  intro c hc
  rw [List.mem_singleton.1 hc]
  rfl

/-- One space may follow anything, whatever comes next. -/
theorem Spelling.appendSpaced {cs ds : List Char} {ts us : List Token} (hc : Spelling cs ts)
    (hd : Spelling ds us) : Spelling (cs ++ ' ' :: ds) (ts ++ us) :=
  hc.append isBlank_space hd (by rintro _ ⟨⟩; rfl)

theorem Spelling.enclosed {cs : List Char} {ts : List Token}
    (h : cs = [] ∧ ts = [] ∨ Spelling cs ts) (o c : Symbol) :
    Spelling (o.char :: (cs ++ [c.char])) (Token.symbol o :: (ts ++ [Token.symbol c])) := by
  rcases h with ⟨rfl, rfl⟩ | h
  · exact .afterSymbol o (w := []) (by simp) (.symbol c)
  · exact .afterSymbol o (w := []) (by simp) (h.appendSymbol c (.symbol c))

theorem Spelling.enclosedSpaced {cs : List Char} {ts : List Token} (h : Spelling cs ts)
    (o c : Symbol) :
    Spelling (o.char :: ' ' :: (cs ++ [' ', c.char]))
      (Token.symbol o :: (ts ++ [Token.symbol c])) :=
  .afterSymbol o isBlank_space (h.appendSpaced (.symbol c))

/-! ### Scanning a spelling -/

/-- The tokens of a spelling lie from its first to its last character. -/
theorem Spelling.lexed {cs : List Char} {ts : List Token} (h : Spelling cs ts) :
    ∀ n, ∃ ss : List (Spanned Token), ss.map (·.value) = ts ∧ Lexed n cs ss ∧
      ss.head?.map (·.span.start) = some n ∧
      ss.getLast?.map (·.span.stop) = some (n + cs.length) := by
  induction h with
  | @one l t hl =>
      intro n
      exact ⟨_, rfl, .lexeme hl, rfl, rfl⟩
  | @cons l w cs t ts hl hw hstop _ ih =>
      intro n
      obtain ⟨ss, rfl, hss, -, hlast⟩ := ih (n + l.length + w.length)
      have h : Lexed n (l ++ (w ++ cs)) _ := .lexeme_append hl hstop (hss.blank_append hw)
      obtain ⟨s, ss, rfl⟩ : ∃ s ss', ss = s :: ss' := by
        cases ss with
        | nil => cases hlast
        | cons s ss => exact ⟨s, ss, rfl⟩
      refine ⟨_, rfl, h, rfl, ?_⟩
      rw [List.getLast?_cons_cons, hlast, List.length_append, List.length_append]
      simp only [Nat.add_assoc]

/-- What is spelled is scanned back, from its first to its last character. -/
theorem Spelling.scan {source : String} {ts : List Token} (h : Spelling source.toList ts) :
    ∃ ss : List (Spanned Token), Token.scan source = .ok ss ∧ ss.map (·.value) = ts ∧
      ss.head?.map (·.span.start) = some 0 ∧
      ss.getLast?.map (·.span.stop) = some source.toList.length := by
  obtain ⟨ss, hvalues, hss, hfirst, hlast⟩ := h.lexed 0
  rw [Nat.zero_add] at hlast
  refine ⟨ss, scan_eq_ok_iff.2 (.inr ⟨?_, hss⟩), hvalues, hfirst, hlast⟩
  rintro rfl
  cases hfirst

/-! ### Values -/

theorem decimal_toDigits (n : Nat) : decimal (Nat.toDigits 10 n) = n := by
  have h := Nat.ofDigitChars_ten_toDigits (n := n)
  rw [Nat.ofDigitChars_eq_foldl] at h
  exact h

theorem isNumeral_toDigits (n : Nat) : IsNumeral (Nat.toDigits 10 n) := by
  induction n using Nat.base_induction 10 (by decide) with
  | single m hm =>
      rw [Nat.toDigits_of_lt_base hm]
      match m with
      | 0 => exact .inl rfl
      | 1 | 2 | 3 | 4 | 5 | 6 | 7 | 8 | 9 => exact .inr ⟨_, [], rfl, rfl, nofun⟩
  | digit m k hk hm ih =>
      rw [← Nat.toDigits_append_toDigits (by decide) hm hk]
      have hdigits : ∀ e ∈ Nat.toDigits 10 k, e.isDigit = true := fun _ =>
        Nat.isDigit_of_mem_toDigits (by decide) (by decide)
      rcases ih with hzero | ⟨d, ds, hds, hd, hall⟩
      · have hdecimal := decimal_toDigits m
        rw [hzero] at hdecimal
        change 0 = m at hdecimal
        omega
      · rw [hds]
        exact .inr ⟨d, _, rfl, hd, List.forall_mem_append.2 ⟨hall, hdigits⟩⟩

theorem quotes_escapeLiteral (c : Char) : Quotes (Text.escapeLiteral c) c := by
  unfold Text.escapeLiteral
  split
  case isTrue h => exact h ▸ .quote
  case isFalse hquote =>
    split
    case isTrue h => exact h ▸ .backslash
    case isFalse hbackslash =>
      split
      case isTrue h => exact h ▸ .lineFeed
      case isFalse =>
        split
        case isTrue h => exact h ▸ .tab
        case isFalse => exact .raw (by simp [hquote, hbackslash])

theorem sequence_escapeLiteral (s : List Char) :
    Sequence Quotes (s.flatMap Text.escapeLiteral) s := by
  induction s with
  | nil => exact .nil
  | cons c s ih => exact .cons (quotes_escapeLiteral c) ih

/-- Values are spelled as they are rendered. -/
theorem lexeme_value (v : Value) : Lexeme (.literal v) v.render.toList := by
  cases v with
  | unit => exact .keyword (by simp [keywords, Value.render])
  | bool b => cases b <;> exact .keyword (by simp [keywords, Value.render])
  | nat n =>
      rw [Value.render, Nat.toList_repr]
      exact .natural (isNumeral_toDigits _) (decimal_toDigits _)
  | text s =>
      have h := Lexeme.text (sequence_escapeLiteral s.toList)
      rw [String.ofList_toList] at h
      rw [Value.render, Text.literal, Text.toList_quoteBy]
      exact h

theorem lexeme_lambda : Lexeme .lambda "lambda".toList := .keyword (by simp [keywords])

/-- What has a lexeme has its rendering for one. -/
theorem lexeme_render {t : Token} {l : List Char} (h : Lexeme t l) :
    Lexeme t t.render.toList := by
  cases h with
  | symbol s =>
      rw [render, Char.toString, String.toList_singleton]
      exact .symbol s
  | underscore => exact .underscore
  | keyword hk =>
      simp only [keywords, List.mem_cons, Prod.mk.injEq, List.not_mem_nil, or_false] at hk
      rcases hk with ⟨-, rfl⟩ | ⟨-, rfl⟩ | ⟨-, rfl⟩ | ⟨-, rfl⟩
      · exact lexeme_lambda
      all_goals exact lexeme_value _
  | name hx => exact .name hx
  | natural => exact lexeme_value _
  | text => exact lexeme_value _

end Redline.Token.Lexer
