import Redline.Proofs.Token.Munch
import Redline.Proofs.Token.Spelling

/-! # Cutting sources

A symbol belongs to no lexeme but its own and ends the one before it.  So a source falls apart at
each symbol among its tokens (`Lexed.cut`), and two sources with a symbol between them make up one
(`Lexed.join`).  Where a source stands in a longer one does not matter to its tokens but for their
spans (`lexed_shift_iff`), and neither do the blanks in front of it (`lexed_blank_append_iff`) and
behind it (`lexed_append_blanks_iff`). -/

namespace Redline.Token

open Lexer

theorem Piece.tokensFrom_add (m n : Nat) (ps : List Piece) :
    tokensFrom (m + n) ps = (tokensFrom m ps).map (·.shift n) := by
  induction ps generalizing m with
  | nil => rfl
  | cons p ps ih =>
      rw [tokensFrom, tokensFrom, List.map_cons, ← ih]
      simp only [Spanned.shift, Span.shift, Nat.add_right_comm _ n]

namespace Lexer

/-- Behind `n` more characters a source has the same tokens, moved by `n`. -/
theorem lexed_shift_iff {m n : Nat} {cs : List Char} {ts : List (Spanned Token)} :
    Lexed (m + n) cs ts ↔ ∃ us, Lexed m cs us ∧ ts = us.map (·.shift n) := by
  simp only [lexed_iff_maximalMunch, Nat.add_right_comm m n, Piece.tokensFrom_add]
  constructor
  · rintro ⟨w, ps, h, rfl⟩
    exact ⟨_, ⟨w, ps, h, rfl⟩, rfl⟩
  · rintro ⟨_, ⟨w, ps, h, rfl⟩, rfl⟩
    exact ⟨w, ps, h, rfl⟩

theorem Lexeme.eq_of_symbol {s : Symbol} {l : List Char} (h : Lexeme (.symbol s) l) :
    l = [s.char] := by
  cases h with
  | symbol => rfl
  | keyword hk => simp [keywords] at hk

/-- A symbol among the tokens is found in the source, with the other tokens before and behind it. -/
theorem Lexed.cut {s : Symbol} {span : Span} {us : List (Spanned Token)} :
    ∀ {ts : List (Spanned Token)} {n : Nat} {cs : List Char},
      Lexed n cs (ts ++ ⟨span, symbol s⟩ :: us) → ∃ cs₁ cs₂, cs = cs₁ ++ s.char :: cs₂ ∧
        Lexed n cs₁ ts ∧ Lexed (n + cs₁.length + 1) cs₂ us
  | [], n, _, h => by
      cases h with
      | cons hw hl _ h =>
          obtain rfl := hl.eq_of_symbol
          exact ⟨_, _, rfl, .blank hw, h⟩
  | t :: ts, n, _, h => by
      cases h with
      | @cons _ w l cs t _ hw hl hstop h =>
          obtain ⟨cs₁, cs₂, rfl, h₁, h₂⟩ := h.cut
          refine ⟨w ++ (l ++ cs₁), cs₂, by simp, .cons hw hl (fun d hd => hstop d ?_) h₁, ?_⟩
          · rw [List.head?_append, hd]
            rfl
          · rw [add_length_append_append]
            exact h₂

/-- A symbol may be put between any two sources. -/
theorem Lexed.join {n : Nat} {cs₁ cs₂ : List Char} {ts us : List (Spanned Token)} (s : Symbol)
    (h₁ : Lexed n cs₁ ts) (h₂ : Lexed (n + cs₁.length + 1) cs₂ us) :
    Lexed n (cs₁ ++ s.char :: cs₂)
      (ts ++ ⟨⟨n + cs₁.length, n + cs₁.length + 1⟩, symbol s⟩ :: us) := by
  induction h₁ with
  | blank hw => exact .cons hw (.symbol s) (fun d _ => runsOn_symbol s d) h₂
  | @cons n w l cs t ts hw hl hstop h ih =>
      rw [add_length_append_append] at h₂ ⊢
      rw [List.append_assoc, List.append_assoc]
      refine .cons hw hl (fun d hd => ?_) (ih h₂)
      cases cs with
      | nil =>
          cases hd
          exact runsOn_of_not_isWordPart l (isWordPart_symbol s)
      | cons c cs => exact hstop d hd

/-- Blanks in front of a source only move its tokens, and all sources with blanks in front of them
are such. -/
theorem lexed_blank_append_iff {v : List Char} : ∀ {n : Nat} {cs : List Char}
    {ts : List (Spanned Token)}, (∀ c ∈ v, Text.isBlank c = true) →
      (Lexed n (v ++ cs) ts ↔ Lexed (n + v.length) cs ts) := by
  intro n cs ts hv
  refine ⟨?_, .blank_append hv⟩
  induction v generalizing n with
  | nil => exact id
  | cons b v ih =>
      obtain ⟨hb, hv⟩ := List.forall_mem_cons.1 hv
      intro h
      rw [List.length_cons, ← Nat.add_assoc, Nat.add_right_comm]
      refine ih hv ?_
      generalize hcs : b :: v ++ cs = ds at h
      cases h with
      | blank hw =>
          subst hcs
          exact .blank (List.forall_mem_cons.1 hw).2
      | @cons _ w l _ t _ hw hl hstop h =>
          cases w with
          | nil =>
              obtain ⟨a, l', rfl, ha⟩ := hl.head
              obtain ⟨rfl, -⟩ := List.cons.inj hcs
              rw [ha] at hb
              cases hb
          | cons a w =>
              obtain ⟨rfl, htail⟩ := List.cons.inj hcs
              have hlength : n + (b :: w).length = n + 1 + w.length := by
                rw [List.length_cons]
                omega
              rw [hlength] at h ⊢
              change v ++ cs = _ at htail
              rw [htail]
              exact .cons (List.forall_mem_cons.1 hw).2 hl hstop h

/-- What stands behind a lexeme that cannot go on is lexed as it would be alone. -/
theorem lexed_lexeme_append_iff {n : Nat} {l cs : List Char} {t : Token}
    {ts : List (Spanned Token)} (hl : Lexeme t l)
    (hstop : ∀ d, cs.head? = some d → runsOn l d = false) : Lexed n (l ++ cs) ts ↔
      ∃ us, ts = ⟨⟨n, n + l.length⟩, t⟩ :: us ∧ Lexed (n + l.length) cs us := by
  constructor
  · intro h
    obtain ⟨a, l', hl', ha⟩ := hl.head
    generalize hds : l ++ cs = ds at h
    have hhead : ds.head? = some a := by rw [← hds, hl']; rfl
    cases h with
    | blank hw =>
        obtain ⟨ds', rfl⟩ := List.head?_eq_some_iff.1 hhead
        rw [hw a List.mem_cons_self] at ha
        cases ha
    | @cons _ w m rest u us hw hm hrest h =>
        cases w with
        | nil =>
            obtain ⟨rfl, rfl, rfl⟩ := hl.append_inj hm hstop hrest hds
            exact ⟨us, rfl, h⟩
        | cons b w =>
            cases hhead
            rw [hw a List.mem_cons_self] at ha
            cases ha
  · rintro ⟨us, rfl, h⟩
    exact .lexeme_append hl hstop h

/-! ### Blanks behind a source -/

theorem isBlank_of_isWordPart {c : Char} (h : isWordPart c = true) : Text.isBlank c = false := by
  simp only [isWordPart, Char.isAlphanum, Bool.or_eq_true] at h
  rcases h with (h | h) | h
  · exact isBlank_of_isWordStart (by rw [isWordStart, h]; rfl)
  · exact isBlank_of_isDigit h
  · exact isBlank_of_isWordStart (by rw [isWordStart, h, Bool.or_true])

theorem IsWord.isBlank {w : List Char} (h : IsWord w) : ∀ c ∈ w, Text.isBlank c = false := by
  obtain ⟨c, cs, rfl, hc, hcs⟩ := h
  exact List.forall_mem_cons.2 ⟨isBlank_of_isWordStart hc, fun d hd =>
    isBlank_of_isWordPart (hcs d hd)⟩

theorem IsNumeral.isBlank {ds : List Char} (h : IsNumeral ds) :
    ∀ c ∈ ds, Text.isBlank c = false := by
  rcases h with rfl | ⟨d, ds, rfl, hd, hds⟩
  · exact List.forall_mem_singleton.2 rfl
  · exact List.forall_mem_cons.2 ⟨isBlank_of_isDigit (Bool.and_eq_true_iff.1 hd).1,
      fun e he => isBlank_of_isDigit (hds e he)⟩

/-- A lexeme ends with a character that is not blank. -/
theorem Lexeme.last {t : Token} {l : List Char} (h : Lexeme t l) :
    ∃ cs c, l = cs ++ [c] ∧ Text.isBlank c = false := by
  have hall : ∀ {l : List Char}, l ≠ [] → (∀ c ∈ l, Text.isBlank c = false) →
      ∃ cs c, l = cs ++ [c] ∧ Text.isBlank c = false := by
    intro l hl hall
    rcases List.eq_nil_or_concat l with rfl | ⟨cs, c, rfl⟩
    · exact absurd rfl hl
    · exact ⟨cs, c, List.concat_eq_append, hall c (by simp)⟩
  have hne : l ≠ [] := by
    obtain ⟨c, cs, rfl, -⟩ := h.head
    exact List.cons_ne_nil c cs
  cases h with
  | symbol s => exact hall hne (List.forall_mem_singleton.2 (by cases s <;> rfl))
  | underscore => exact hall hne (List.forall_mem_singleton.2 rfl)
  | keyword hk => exact hall hne (isWord_of_keyword hk).isBlank
  | name hx => exact hall hne hx.1.isBlank
  | natural hnum => exact hall hne hnum.isBlank
  | @text w _ _ => exact ⟨'"' :: w, '"', rfl, rfl⟩

theorem runsOn_of_isBlank (l : List Char) {d : Char} (h : Text.isBlank d = true) :
    runsOn l d = false := by
  refine runsOn_of_not_isWordPart l (Bool.eq_false_iff.2 fun hd => ?_)
  rw [isBlank_of_isWordPart hd] at h
  cases h

theorem Lexed.append_blanks {n : Nat} {cs w : List Char} {ts : List (Spanned Token)}
    (h : Lexed n cs ts) (hw : ∀ c ∈ w, Text.isBlank c = true) : Lexed n (cs ++ w) ts := by
  induction h with
  | blank hv => exact .blank (List.forall_mem_append.2 ⟨hv, hw⟩)
  | @cons n v l cs t ts hv hl hstop _ ih =>
      rw [List.append_assoc, List.append_assoc]
      refine .cons hv hl (fun d hd => ?_) ih
      cases cs with
      | nil => exact runsOn_of_isBlank l (hw d (List.mem_of_mem_head? hd))
      | cons c cs => exact hstop d hd

/-- The last character of a source belongs to no token if it is blank. -/
theorem Lexed.of_append_blank {n : Nat} {ds : List Char} {ts : List (Spanned Token)}
    (h : Lexed n ds ts) {b : Char} (hb : Text.isBlank b = true) : ∀ {cs : List Char},
      ds = cs ++ [b] → Lexed n cs ts := by
  induction h with
  | blank hv =>
      rintro cs rfl
      exact .blank fun c hc => hv c (List.mem_append_left _ hc)
  | @cons n v l rest t ts hv hl hstop _ ih =>
      intro cs hcs
      rcases List.eq_nil_or_concat rest with rfl | ⟨rest, e, rfl⟩
      · obtain ⟨l', c, rfl, hc⟩ := hl.last
        rw [List.append_nil, ← List.append_assoc] at hcs
        obtain ⟨-, hlast⟩ := List.append_inj' hcs rfl
        rw [(List.cons.inj hlast).1, hb] at hc
        cases hc
      · rw [List.concat_eq_append] at hcs ih hstop
        rw [← List.append_assoc, ← List.append_assoc] at hcs
        obtain ⟨rfl, hlast⟩ := List.append_inj' hcs rfl
        obtain rfl := (List.cons.inj hlast).1
        rw [List.append_assoc]
        refine .cons hv hl (fun d hd => hstop d ?_) (ih rfl)
        rw [List.head?_append, hd]
        rfl

/-- Blanks behind a source do not change its tokens. -/
theorem lexed_append_blanks_iff {w : List Char} (hw : ∀ c ∈ w, Text.isBlank c = true) {n : Nat}
    {cs : List Char} {ts : List (Spanned Token)} : Lexed n (cs ++ w) ts ↔ Lexed n cs ts := by
  refine ⟨?_, fun h => h.append_blanks hw⟩
  induction w generalizing cs with
  | nil =>
      rw [List.append_nil]
      exact id
  | cons b w ih =>
      obtain ⟨hb, hw⟩ := List.forall_mem_cons.1 hw
      intro h
      rw [List.append_cons] at h
      exact (ih hw h).of_append_blank hb rfl

/-- The blanks at the ends of a source have no part in its tokens. -/
theorem Lexed.trim {n : Nat} {cs : List Char} {ts : List (Spanned Token)} (h : Lexed n cs ts)
    (hts : ts ≠ []) : ∃ v u w, cs = v ++ (u ++ w) ∧ (∀ c ∈ v, Text.isBlank c = true) ∧
      (∀ c ∈ w, Text.isBlank c = true) ∧ u ≠ [] ∧ Lexed (n + v.length) u ts ∧
      ts.head?.map (·.span.start) = some (n + v.length) ∧
      ts.getLast?.map (·.span.stop) = some (n + v.length + u.length) := by
  induction h with
  | blank => exact absurd rfl hts
  | @cons n v l cs t ts hv hl hstop h ih =>
      obtain ⟨a, l', rfl, -⟩ := hl.head
      cases ts with
      | nil =>
          cases h with
          | blank hcs =>
              exact ⟨v, a :: l', cs, rfl, hv, hcs, List.cons_ne_nil a l',
                .lexeme hl, rfl, rfl⟩
      | cons t' ts =>
          obtain ⟨v', u, w, rfl, hv', hw, -, hu, -, hlast⟩ := ih (List.cons_ne_nil t' ts)
          refine ⟨v, a :: l' ++ (v' ++ u), w, by simp, hv, hw, nofun, ?_, rfl, ?_⟩
          · refine .lexeme_append hl (fun d hd => hstop d ?_) (hu.blank_append hv')
            rw [← List.append_assoc, List.head?_append, hd]
            rfl
          · rw [List.getLast?_cons_cons, hlast]
            simp only [List.length_append, Nat.add_assoc]

end Lexer

end Redline.Token
