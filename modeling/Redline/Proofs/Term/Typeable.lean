import Redline.Proofs.Term.Language
import Redline.Proofs.Term.Printing
import Redline.Proofs.Token.Munch

/-! # Tokens that can be typed

A token can be typed if it has a lexeme (`Typeable`): every symbol, keyword and value has one, and
of the names those that can be read.  With a blank between neighbours, such tokens are those of a
source (`exists_source`).

The grammar does not look at names: tokens that derive something still do when their names are
changed (`derives_rename`, `derives_source_rename`).  So whatever goes on from tokens that can be
typed, something that can be typed does as well (`starts_typeable`). -/

namespace Redline

namespace Token

/-- The token with its name changed. -/
def rename (f : String → String) : Token → Token
  | name x => name (f x)
  | t => t

theorem map_rename_enclosed (f : String → String) (opening closing : Symbol) (ts : List Token) :
    (enclosed opening closing ts).map (rename f) =
      enclosed opening closing (ts.map (rename f)) := by
  simp only [enclosed, List.map_cons, List.map_append, List.map_nil, rename]

end Token

namespace Term.Grammar

open Parsing Token.Lexer

/-! ### Tokens with lexemes -/

/-- The token can be written in a source. -/
def Typeable (t : Token) : Prop := ∃ l, Lexeme t l

theorem typeable_symbol (s : Symbol) : Typeable (.symbol s) := ⟨_, .symbol s⟩

theorem typeable_underscore : Typeable .underscore := ⟨_, .underscore⟩

theorem typeable_lambda : Typeable .lambda := ⟨_, lexeme_lambda⟩

theorem typeable_literal (v : Value) : Typeable (.literal v) := ⟨_, lexeme_value v⟩

theorem typeable_name_iff {x : String} : Typeable (.name x) ↔ IsName x := by
  constructor
  · rintro ⟨l, hl⟩
    exact isName_of_lexeme hl rfl
  · exact fun hx => ⟨_, .name hx⟩

/-- Tokens that can be written in a source are written in different ways. -/
theorem render_inj {t u : Token} (ht : Typeable t) (hu : Typeable u) (h : t.render = u.render) :
    t = u := by
  obtain ⟨_, ht⟩ := ht
  obtain ⟨_, hu⟩ := hu
  have hsame : t.render.toList ++ [] = u.render.toList ++ [] := by rw [h]
  refine (Lexeme.append_inj (lexeme_render ht) (lexeme_render hu) ?_ ?_ hsame).1
  all_goals rintro _ ⟨⟩

theorem typeable_of_scan {source : String} {tokens : List (Spanned Token)}
    (h : Token.scan source = .ok tokens) : ∀ t ∈ tokens.map (·.value), Typeable t :=
  Token.exists_lexeme_of_lexed (Token.lexed_of_scan h)

/-! ### Sources of tokens -/

theorem exists_spelling : ∀ {t : Token} {ts : List Token}, (∀ u ∈ t :: ts, Typeable u) →
    ∃ cs, Spelling cs (t :: ts)
  | t, [], h => by
      obtain ⟨l, hl⟩ := h t List.mem_cons_self
      exact ⟨l, .one hl⟩
  | t, u :: us, h => by
      obtain ⟨ht, hus⟩ := List.forall_mem_cons.1 h
      obtain ⟨l, hl⟩ := ht
      obtain ⟨cs, hcs⟩ := exists_spelling hus
      exact ⟨_, (Spelling.one hl).appendSpaced hcs⟩

/-- Tokens that can be typed are those of some source. -/
theorem exists_source {ts : List Token} (h : ∀ t ∈ ts, Typeable t) :
    ∃ source tokens, Token.scan source = .ok tokens ∧ tokens.map (·.value) = ts := by
  cases ts with
  | nil => exact ⟨"", [], rfl, rfl⟩
  | cons t ts =>
      obtain ⟨cs, hcs⟩ := exists_spelling h
      have hspelled : Spelling (String.ofList cs).toList (t :: ts) := by
        rwa [String.toList_ofList]
      obtain ⟨tokens, hscan, hvalues, -⟩ := hspelled.scan
      exact ⟨_, tokens, hscan, hvalues⟩

/-! ### Other names -/

/-- The rules derive tokens with any names that they derive with some. -/
theorem closed_rename (f : String → String) :
    Closed (fun ts _ => Derives IsTerm (ts.map (Token.rename f)))
      (fun ts _ => Derives IsApply (ts.map (Token.rename f)))
      (fun ts _ => Derives IsAtom (ts.map (Token.rename f))) where
  lambda hps hbs := by
    obtain ⟨parameters, hps⟩ := hps.derives_map rfl fun _ _ h => h
    obtain ⟨body, hbs⟩ := hbs
    rw [List.map_cons, List.map_append, List.map_cons]
    exact ⟨_, .lambda hps hbs⟩
  assign hvs := by
    obtain ⟨value, hvs⟩ := hvs
    exact ⟨_, .assign hvs⟩
  apply := by
    rintro ts - ⟨t, ht⟩
    exact ⟨t, .apply ht⟩
  atom := by
    rintro ts - ⟨t, ht⟩
    exact ⟨t, .atom ht⟩
  call hf hxs := by
    obtain ⟨callee, hf⟩ := hf
    obtain ⟨arguments, hxs⟩ := hxs.derives_map rfl fun _ _ h => h
    rw [List.map_append, Token.map_rename_enclosed]
    exact ⟨_, .call hf hxs⟩
  literal v := ⟨_, .literal v⟩
  underscore := ⟨_, .underscore⟩
  name x := ⟨_, .name (f x)⟩
  group hgs hvs := by
    obtain ⟨tag, hgs⟩ := hgs.derives_map rfl fun _ _ h => h
    obtain ⟨value, hvs⟩ := hvs
    rw [List.map_append, Token.map_rename_enclosed, Token.map_rename_enclosed]
    exact ⟨_, .group hgs hvs⟩
  parens := by
    rintro ts - ⟨t, ht⟩
    rw [Token.map_rename_enclosed]
    exact ⟨t, .parens ht⟩

theorem derives_rename (f : String → String) {ts : List Token} (h : Derives IsTerm ts) :
    Derives IsTerm (ts.map (Token.rename f)) := by
  obtain ⟨t, ht⟩ := h
  exact (closed_rename f).isTerm ht

theorem derives_source_rename (f : String → String) {ts : List Token} (h : Derives IsSource ts) :
    Derives IsSource (ts.map (Token.rename f)) := by
  obtain ⟨xs, hxs⟩ := h
  exact hxs.derives_map rfl fun us x hx => derives_rename f ⟨x, hx⟩

/-! ### Names that can be read -/

/-- Another name in place of what cannot be read as one. -/
def readable (x : String) : String := if IsName x then x else "x"

theorem isName_readable (x : String) : IsName (readable x) := by
  unfold readable
  split
  case isTrue h => exact h
  case isFalse => decide

theorem typeable_rename_readable (t : Token) : Typeable (t.rename readable) := by
  cases t with
  | symbol s => exact typeable_symbol s
  | underscore => exact typeable_underscore
  | lambda => exact typeable_lambda
  | literal v => exact typeable_literal v
  | name x => exact typeable_name_iff.2 (isName_readable x)

theorem rename_readable_eq_self {t : Token} (ht : Typeable t) : t.rename readable = t := by
  cases t with
  | name x => rw [Token.rename, readable, if_pos (typeable_name_iff.1 ht)]
  | _ => rfl

/-- Where the names do not matter, what goes on from tokens that can be typed can be typed. -/
theorem starts_typeable {L : List Token → Prop}
    (hL : ∀ (f : String → String) {ts : List Token}, L ts → L (ts.map (Token.rename f)))
    {us : List Token} (hus : ∀ u ∈ us, Typeable u) (h : Starts L us) :
    Starts (fun ts => L ts ∧ ∀ t ∈ ts, Typeable t) us := by
  obtain ⟨ws, hws⟩ := h
  -- All names are made readable at once: the tokens that are there have readable names already.
  have hsame : us.map (Token.rename readable) = us :=
    (List.map_congr_left fun u hu => rename_readable_eq_self (hus u hu)).trans (List.map_id us)
  refine ⟨ws.map (Token.rename readable), ?_, List.forall_mem_append.2 ⟨hus, ?_⟩⟩
  · have hrenamed := hL readable hws
    rwa [List.map_append, hsame] at hrenamed
  · exact List.forall_mem_map.2 fun w _ => typeable_rename_readable w

end Term.Grammar

end Redline
