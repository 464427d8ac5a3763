import Redline.Proofs.Text.Spread
import Redline.Proofs.Token.Lexeme

/-! # Scanned sources

`Lexed n cs ts` says how characters that stand behind `n` others fall into lexemes and blanks: the
tokens `ts` come in order, each with the span of its lexeme, and only blanks lie between them.
`Token.scan` finds such a decomposition if there is one (`scan_eq_ok_iff`); the one exception is a
source of blanks alone, which has no tokens and is refused.  Seen from the spans, the tokens are
spread over the source with blanks in the gaps (`Lexed.spread`). -/

namespace Redline.Token

open Parsing Parsing.Parser

namespace Lexer

inductive Lexed : Nat → List Char → List (Spanned Token) → Prop
  | blank {n : Nat} {w : List Char} : (∀ c ∈ w, Text.isBlank c = true) → Lexed n w []
  | cons {n : Nat} {w l cs : List Char} {t : Token} {ts : List (Spanned Token)} :
      (∀ c ∈ w, Text.isBlank c = true) → Lexeme t l →
        (∀ d, cs.head? = some d → runsOn l d = false) →
          Lexed (n + w.length + l.length) cs ts →
            Lexed n (w ++ (l ++ cs)) (⟨⟨n + w.length, n + w.length + l.length⟩, t⟩ :: ts)

/-- Blanks in front of a source only move its tokens. -/
theorem Lexed.blank_append {n : Nat} {v cs : List Char} {ts : List (Spanned Token)}
    (hv : ∀ c ∈ v, Text.isBlank c = true) (h : Lexed (n + v.length) cs ts) :
    Lexed n (v ++ cs) ts := by
  cases h with
  | blank hw => exact .blank (List.forall_mem_append.2 ⟨hv, hw⟩)
  | @cons _ w l cs t ts hw hl hstop h =>
      have hlen : n + v.length + w.length = n + (v ++ w).length := by
        rw [List.length_append, Nat.add_assoc]
      rw [hlen] at h ⊢
      rw [← List.append_assoc]
      exact .cons (List.forall_mem_append.2 ⟨hv, hw⟩) hl hstop h

/-- A lexeme at the start of a source. -/
theorem Lexed.lexeme_append {n : Nat} {l cs : List Char} {t : Token} {ts : List (Spanned Token)}
    (hl : Lexeme t l) (hstop : ∀ d, cs.head? = some d → runsOn l d = false)
    (h : Lexed (n + l.length) cs ts) : Lexed n (l ++ cs) (⟨⟨n, n + l.length⟩, t⟩ :: ts) :=
  .cons (w := []) nofun hl hstop h

/-- A lexeme is a source of one token. -/
theorem Lexed.lexeme {n : Nat} {l : List Char} {t : Token} (hl : Lexeme t l) :
    Lexed n l [⟨⟨n, n + l.length⟩, t⟩] := by
  have h : Lexed n (l ++ []) _ := .lexeme_append hl nofun (.blank nofun)
  rwa [List.append_nil] at h

/-! ### Lexemes and blanks -/

theorem isBlank_eq_false {c : Char} (h : 33 ≤ c.toNat ∧ c.toNat < 128) :
    Text.isBlank c = false := by
  rw [Bool.eq_false_iff, ne_eq, Text.isBlank_iff]
  simp only [Text.blankRanges, List.mem_cons, List.not_mem_nil, or_false]
  grind

theorem isBlank_of_isWordStart {c : Char} (h : isWordStart c = true) : Text.isBlank c = false := by
  have := toNat_of_isWordStart h
  exact isBlank_eq_false (by omega)

theorem isBlank_of_isDigit {c : Char} (h : c.isDigit = true) : Text.isBlank c = false := by
  have := toNat_of_isDigit h
  exact isBlank_eq_false (by omega)

theorem IsWord.head {w : List Char} (h : IsWord w) :
    ∃ c cs, w = c :: cs ∧ Text.isBlank c = false := by
  obtain ⟨c, cs, rfl, hc, -⟩ := h
  exact ⟨c, cs, rfl, isBlank_of_isWordStart hc⟩

/-- A lexeme starts with a character that is not blank. -/
theorem Lexeme.head {t : Token} {l : List Char} (h : Lexeme t l) :
    ∃ c cs, l = c :: cs ∧ Text.isBlank c = false := by
  cases h with
  | symbol s => exact ⟨_, _, rfl, by cases s <;> rfl⟩
  | underscore => exact ⟨_, _, rfl, rfl⟩
  | keyword hk => exact (isWord_of_keyword hk).head
  | name hx => exact hx.1.head
  | natural hnum =>
      rcases hnum with rfl | ⟨d, ds', rfl, hd, -⟩
      · exact ⟨_, _, rfl, rfl⟩
      · exact ⟨d, ds', rfl, isBlank_of_isDigit (Bool.and_eq_true_iff.1 hd).1⟩
  | text => exact ⟨_, _, rfl, rfl⟩

/-- The tokens are spread over the source, with blanks in the gaps. -/
theorem Lexed.spread {n : Nat} {cs : List Char} {ts : List (Spanned Token)} (h : Lexed n cs ts) :
    Text.Spread (Text.isBlank · = true) (fun l t => Lexeme t l) n cs ts := by
  induction h with
  | blank hw => exact .gap hw
  | cons hw hl _ _ ih =>
      obtain ⟨a, l, rfl, -⟩ := hl.head
      exact .cons hw (List.cons_ne_nil a l) hl ih

/-! ### Places in a source -/

/-- The place behind `n` of `total` characters, with `cs` ahead. -/
def place (total n : Nat) (cs : List Char) : Cursor Char :=
  ⟨characters n cs, n, n, ⟨total, total⟩⟩

theorem next_place (total n : Nat) (cs : List Char) : (place total n cs).next = cs.head? := by
  cases cs <;> rfl

theorem values_place (total n : Nat) (cs : List Char) : (place total n cs).values = cs :=
  map_value_characters n cs

theorem passes_place {total : Nat} : ∀ (l cs : List Char) {n : Nat},
    (place total n (l ++ cs)).Passes l (place total (n + l.length) cs)
  | [], _, _ => rfl
  | c :: l, cs, n => by
      refine ⟨⟨⟨n, n + 1⟩, c⟩, characters (n + 1) (l ++ cs), rfl, rfl, ?_⟩
      have h : (place total (n + 1) (l ++ cs)).Passes l (place total (n + 1 + l.length) cs) :=
        passes_place l cs
      rw [Nat.add_assoc, Nat.add_comm 1] at h
      exact h

theorem eq_place_of_passes {total n : Nat} {cs l : List Char} {c' : Cursor Char}
    (h : (place total n cs).Passes l c') :
    ∃ rest, cs = l ++ rest ∧ c' = place total (n + l.length) rest := by
  have hvalues := Cursor.values_of_passes h
  rw [values_place] at hvalues
  refine ⟨c'.values, hvalues, Cursor.passes_unique h ?_⟩
  rw [hvalues]
  exact passes_place l c'.values

/-- Blanks are dropped together. -/
theorem dropWhile_place {total n : Nat} {w cs : List Char} (hw : ∀ c ∈ w, Text.isBlank c = true)
    (hcs : ∀ c, cs.head? = some c → Text.isBlank c = false) :
    (place total n (w ++ cs)).dropWhile Text.isBlank = place total (n + w.length) cs :=
  Cursor.PassesAll.eq_dropWhile ⟨passes_place w cs, hw, by rwa [next_place]⟩

/-! ### Reading tokens between blanks -/

/-- A token with the blanks around it. -/
def item : Parser Char (Spanned Token) := padded Text.isBlank (spanned token)

theorem read_item_of_lexeme (total : Nat) {n : Nat} {w l cs : List Char} {t : Token}
    (hw : ∀ c ∈ w, Text.isBlank c = true) (hl : Lexeme t l)
    (hstop : ∀ d, cs.head? = some d → runsOn l d = false) :
    item.read (place total n (w ++ (l ++ cs))) =
      some (⟨⟨n + w.length, n + w.length + l.length⟩, t⟩,
        (place total (n + w.length + l.length) cs).dropWhile Text.isBlank) := by
  obtain ⟨c, l', rfl, hc⟩ := hl.head
  have hdrop : (place total n (w ++ (c :: l' ++ cs))).dropWhile Text.isBlank =
      place total (n + w.length) (c :: l' ++ cs) :=
    dropWhile_place hw (by rintro _ ⟨⟩; exact hc)
  unfold item
  rw [read_padded, hdrop, read_spanned,
    takes_token (passes_place (c :: l') cs) hl (by rwa [next_place])]
  rfl

theorem lexeme_of_read_item {total n : Nat} {cs : List Char} {x : Spanned Token} {c' : Cursor Char}
    (hr : item.read (place total n cs) = some (x, c')) :
    ∃ w l v rest, cs = w ++ (l ++ (v ++ rest)) ∧ (∀ c ∈ w, Text.isBlank c = true) ∧
      Lexeme x.value l ∧ (∀ d, (v ++ rest).head? = some d → runsOn l d = false) ∧
      (∀ c ∈ v, Text.isBlank c = true) ∧
      x.span = ⟨n + w.length, n + w.length + l.length⟩ ∧
      c' = place total (n + w.length + l.length + v.length) rest := by
  unfold item at hr
  rw [read_padded, read_spanned] at hr
  have hw := Cursor.passesAll_dropWhile Text.isBlank (place total n cs)
  generalize (place total n cs).dropWhile Text.isBlank = c₀ at hr hw
  obtain ⟨r₀, hcs, rfl⟩ := eq_place_of_passes hw.passes
  simp only [Option.map_eq_some_iff, Prod.exists, Prod.mk.injEq] at hr
  obtain ⟨_, c₂, ⟨t, c₁, ht, rfl, rfl⟩, rfl, rfl⟩ := hr
  obtain ⟨l, hpass, hl, hstop⟩ := sound_token ht
  obtain ⟨r₁, rfl, rfl⟩ := eq_place_of_passes hpass
  have hv := Cursor.passesAll_dropWhile Text.isBlank
    (place total (n + ((place total n cs).values.takeWhile Text.isBlank).length + l.length) r₁)
  obtain ⟨r₂, hr₁, hc'⟩ := eq_place_of_passes hv.passes
  obtain ⟨a, l', rfl, -⟩ := hl.head
  rw [next_place] at hstop
  refine ⟨_, _, _, r₂, ?_, hw.all, hl, ?_, hv.all, rfl, hc'⟩
  · rw [← hr₁]; exact hcs
  · rw [← hr₁]; exact hstop

theorem progresses_item : item.Progresses := by
  intro c x c' hr
  unfold item at hr
  rw [read_padded, read_spanned] at hr
  simp only [Option.map_eq_some_iff, Prod.exists, Prod.mk.injEq] at hr
  obtain ⟨_, c₂, ⟨t, c₁, ht, -, rfl⟩, -, rfl⟩ := hr
  obtain ⟨l, hpass, hl, -⟩ := sound_token ht
  obtain ⟨a, l', rfl, -⟩ := hl.head
  have h₁ := Cursor.length_of_passes (Cursor.passesAll_dropWhile Text.isBlank c).passes
  have h₂ := Cursor.length_of_passes hpass
  have h₃ := Cursor.length_of_passes (Cursor.passesAll_dropWhile Text.isBlank c₁).passes
  rw [List.length_cons] at h₂
  omega

/-- At the end of a source no token is left. -/
theorem read_item_end (total n : Nat) : item.read (place total n []) = none := by
  rw [Option.eq_none_iff_forall_ne_some]
  rintro ⟨x, c'⟩ hr
  obtain ⟨w, l, v, rest, hcs, -, hl, -⟩ := lexeme_of_read_item hr
  obtain ⟨a, l', rfl, -⟩ := hl.head
  simp at hcs

theorem read_tokens_of_lexed {total n : Nat} {cs : List Char} {ts : List (Spanned Token)}
    (h : Lexed n cs ts) :
    tokens.read ((place total n cs).dropWhile Text.isBlank) =
      some (ts, place total (n + cs.length) []) := by
  induction h with
  | @blank n w hw =>
      have hdrop :
          (place total n (w ++ [])).dropWhile Text.isBlank = place total (n + w.length) [] :=
        dropWhile_place hw nofun
      rw [List.append_nil] at hdrop
      rw [hdrop]
      exact read_repeated_of_none (read_item_end total _)
  | @cons n w l cs t ts hw hl hstop h ih =>
      obtain ⟨a, l', rfl, ha⟩ := hl.head
      rw [dropWhile_place hw (by rintro _ ⟨⟩; exact ha)]
      have hitem := read_item_of_lexeme total (n := n + w.length) (w := []) nofun hl hstop
      rw [List.nil_append, List.length_nil, Nat.add_zero] at hitem
      change (repeated item).read _ = _
      rw [read_repeated_of_some progresses_item hitem, add_length_append_append]
      change (tokens.read _).map _ = _
      rw [ih]
      rfl

theorem lexed_of_read_tokens {total : Nat} : ∀ {cs : List Char} {n : Nat}
    {ts : List (Spanned Token)} {c' : Cursor Char}, tokens.read (place total n cs) = some (ts, c') →
      c'.rest = [] → ts = [] ∧ cs = [] ∨ ts ≠ [] ∧ Lexed n cs ts := by
  intro cs
  induction hlen : cs.length using Nat.strongRecOn generalizing cs with
  | _ len ih =>
      intro n ts c' hr hrest
      change (repeated item).read _ = _ at hr
      cases hitem : item.read (place total n cs) with
      | none =>
          rw [read_repeated_of_none hitem] at hr
          cases hr
          refine .inl ⟨rfl, ?_⟩
          rw [← values_place total n cs, Cursor.values, hrest, List.map_nil]
      | some r =>
          obtain ⟨x, c₁⟩ := r
          obtain ⟨w, l, v, rest, rfl, hw, hl, hstop, hv, hspan, rfl⟩ := lexeme_of_read_item hitem
          rw [read_repeated_of_some progresses_item hitem] at hr
          simp only [Option.map_eq_some_iff, Prod.exists, Prod.mk.injEq] at hr
          obtain ⟨ts', c₂, hr, rfl, rfl⟩ := hr
          refine .inr ⟨List.cons_ne_nil _ _, ?_⟩
          obtain ⟨span, t⟩ := x
          obtain rfl : span = _ := hspan
          refine .cons hw hl hstop (.blank_append hv ?_)
          obtain ⟨a, l', rfl, -⟩ := hl.head
          have hlt : rest.length < len := by
            rw [← hlen]
            simp only [List.length_append, List.length_cons]
            omega
          rcases ih _ hlt rfl hr hrest with ⟨rfl, rfl⟩ | ⟨-, h⟩
          · exact .blank (List.forall_mem_nil _)
          · exact h

end Lexer

open Lexer

/-- The tokens of a source are its lexemes, in order and with blanks between them. -/
theorem scan_eq_ok_iff {source : String} {ts : List (Spanned Token)} :
    scan source = .ok ts ↔
      ts = [] ∧ source.toList = [] ∨ ts ≠ [] ∧ Lexed 0 source.toList ts := by
  have hplace : scan source = .ok ts ↔
      ∃ c', tokens.read (place source.toList.length 0 source.toList) = some (ts, c') ∧
        c'.rest = [] := parse_eq_ok_iff
  rw [hplace]
  constructor
  · rintro ⟨c', hr, hrest⟩
    exact lexed_of_read_tokens hr hrest
  · rintro (⟨rfl, hs⟩ | ⟨hts, h⟩)
    · rw [hs]
      exact ⟨_, read_repeated_of_none (read_item_end _ _), rfl⟩
    · generalize source.toList.length = total
      generalize source.toList = cs at h
      cases h with
      | blank => exact absurd rfl hts
      | cons hw hl hstop h =>
          change ∃ c', (repeated item).read _ = _ ∧ _
          rw [read_repeated_of_some progresses_item (read_item_of_lexeme _ hw hl hstop)]
          change ∃ c', (tokens.read _).map _ = _ ∧ _
          rw [read_tokens_of_lexed h]
          exact ⟨_, rfl, rfl⟩

/-- A scanned source consists of its tokens and blanks. -/
theorem lexed_of_scan {source : String} {ts : List (Spanned Token)} (h : scan source = .ok ts) :
    Lexed 0 source.toList ts := by
  rcases scan_eq_ok_iff.1 h with ⟨rfl, hnil⟩ | ⟨-, hlexed⟩
  · rw [hnil]
    exact .blank nofun
  · exact hlexed

theorem exists_lexeme_of_lexed {n : Nat} {cs : List Char} {ts : List (Spanned Token)}
    (h : Lexed n cs ts) : ∀ t ∈ ts.map (·.value), ∃ l, Lexeme t l := by
  induction h with
  | blank => exact nofun
  | cons _ hl _ _ ih => exact List.forall_mem_cons.2 ⟨⟨_, hl⟩, ih⟩

end Redline.Token
