import Redline.Proofs.Term.Pieces

/-! # Blanks around a source

Blanks in front of a source move its tokens and its terms, and blanks behind it change nothing
(`lexed_surrounded_iff`).  There is one exception.  Blanks are skipped together with a token only,
so the one source that has no tokens is the empty one (`scan_eq_ok_nil_iff`), and around it blanks
are refused.  Main statement: `surrounded_iff`. -/

namespace Redline

open Token.Lexer

/-! ### Tokens -/

namespace Token

/-- The tokens of a source between blanks are those of the source, moved. -/
theorem Lexer.lexed_surrounded_iff {v w : List Char} (hv : ∀ c ∈ v, Text.isBlank c = true)
    (hw : ∀ c ∈ w, Text.isBlank c = true) {cs : List Char} {ts : List (Spanned Token)} :
    Lexed 0 (v ++ cs ++ w) ts ↔ ∃ us, Lexed 0 cs us ∧ ts = us.map (·.shift v.length) := by
  rw [lexed_append_blanks_iff hw, lexed_blank_append_iff hv, lexed_shift_iff]

theorem scan_eq_ok_nil_iff {source : String} : scan source = .ok [] ↔ source = "" := by
  rw [scan_eq_ok_iff, String.toList_eq_nil_iff]
  simp

theorem scan_iff_lexed {source : String} {ts : List (Spanned Token)} (hts : ts ≠ []) :
    scan source = .ok ts ↔ Lexed 0 source.toList ts := by
  rw [scan_eq_ok_iff, or_iff_right fun h => hts h.1, and_iff_right hts]

end Token

namespace Term

open Grammar

/-! ### Terms -/

theorem spansTerms_shift_iff {n : Nat} {ts : List (Spanned Token)} {xs : List (Spanned Term)} :
    SpansTerms (ts.map (·.shift n)) xs ↔ ∃ ys, SpansTerms ts ys ∧ xs = ys.map (·.shift n) := by
  constructor
  · intro h
    generalize hus : ts.map (·.shift n) = us at h
    induction h generalizing ts with
    | nil =>
        obtain rfl := List.map_eq_nil_iff.1 hus
        exact ⟨[], .nil, rfl⟩
    | one hx =>
        subst hus
        obtain ⟨y, hy, rfl⟩ := spansTerm_shift_iff.1 hx
        exact ⟨[y], .one hy, rfl⟩
    | cons hx _ ih =>
        obtain ⟨ts₁, ts₂, rfl, rfl, hts₂⟩ := List.map_eq_append_iff.1 hus
        obtain ⟨⟨span, t⟩, us, rfl, hsemicolon, rfl⟩ := List.map_eq_cons_iff.1 hts₂
        obtain rfl : t = .symbol .semicolon := congrArg Spanned.value hsemicolon
        obtain ⟨y, hy, rfl⟩ := spansTerm_shift_iff.1 hx
        obtain ⟨ys, hys, rfl⟩ := ih rfl
        exact ⟨y :: ys, .cons hy hys, rfl⟩
  · rintro ⟨ys, h, rfl⟩
    induction h with
    | nil => exact .nil
    | one hx => exact .one (spansTerm_shift_iff.2 ⟨_, hx, rfl⟩)
    | cons hx _ ih =>
        rw [List.map_append, List.map_cons]
        exact .cons (spansTerm_shift_iff.2 ⟨_, hx, rfl⟩) ih

theorem parse_iff_lexed {source : String} {x : Spanned Term} :
    parse source = .ok x ↔ ∃ ts, Lexed 0 source.toList ts ∧ SpansTerm ts x := by
  constructor
  · intro h
    obtain ⟨ts, hscan⟩ := exists_scan_of_parseBy h
    exact ⟨ts, Token.lexed_of_scan hscan, (parse_iff_spansTerm hscan).1 h⟩
  · rintro ⟨ts, hlexed, hx⟩
    exact (parse_iff_spansTerm ((Token.scan_iff_lexed hx.isTerm.ne_nil).2 hlexed)).2 hx

theorem parseAll_iff_lexed {source : String} {xs : List (Spanned Term)} (hxs : xs ≠ []) :
    parseAll source = .ok xs ↔ ∃ ts, Lexed 0 source.toList ts ∧ SpansTerms ts xs := by
  constructor
  · intro h
    obtain ⟨ts, hscan⟩ := exists_scan_of_parseBy h
    exact ⟨ts, Token.lexed_of_scan hscan, (parseAll_iff_spansTerms hscan).1 h⟩
  · rintro ⟨ts, hlexed, hrow⟩
    have hts : ts ≠ [] := fun hnil => hxs (hrow.eq_nil_iff.1 hnil)
    exact (parseAll_iff_spansTerms ((Token.scan_iff_lexed hts).2 hlexed)).2 hrow

theorem parseAll_eq_ok_nil_iff {source : String} : parseAll source = .ok [] ↔ source = "" := by
  constructor
  · intro h
    obtain ⟨ts, hscan⟩ := exists_scan_of_parseBy h
    obtain rfl := ((parseAll_iff_spansTerms hscan).1 h).eq_nil_iff.2 rfl
    exact Token.scan_eq_ok_nil_iff.1 hscan
  · rintro rfl
    exact (parseAll_iff_spansTerms (Token.scan_eq_ok_nil_iff.2 rfl)).2 .nil

/-! ### Surrounded sources -/

section Surrounded

variable {v w : String} (hv : ∀ c ∈ v.toList, Text.isBlank c = true)
  (hw : ∀ c ∈ w.toList, Text.isBlank c = true) (source : String)

/-- What is read between blanks is what is read without them, moved, as long as there is anything
to read.  Nothing at all is read of the empty text alone. -/
theorem moved_iff {α : Type} {P : String → List (Spanned α) → Prop} {n : Nat}
    (hnil : ∀ s, P s [] ↔ s = "")
    (hcons : ∀ xs, xs ≠ [] →
      (P (v ++ source ++ w) xs ↔ ∃ ys, P source ys ∧ xs = ys.map (·.shift n))) :
    (∀ xs, P (v ++ source ++ w) xs ↔ ∃ ys, P source ys ∧ xs = ys.map (·.shift n)) ↔
      (source = "" → v = "" ∧ w = "") := by
  have hmap : (∃ ys, P source ys ∧ [] = ys.map (·.shift n)) ↔ source = "" := by
    rw [← hnil]
    constructor
    · rintro ⟨ys, hys, h⟩
      rwa [List.map_eq_nil_iff.1 h.symm] at hys
    · exact fun h => ⟨[], h, rfl⟩
  have hempty : v ++ source ++ w = "" ↔ source = "" ∧ v = "" ∧ w = "" := by
    simp only [← String.toList_eq_nil_iff, String.toList_append, List.append_eq_nil_iff]
    rw [and_assoc, and_left_comm]
  constructor
  · intro h hsource
    have hboth := (h []).2 (hmap.2 hsource)
    rw [hnil, hempty] at hboth
    exact hboth.2
  · intro h xs
    by_cases hxs : xs = []
    · rw [hxs, hmap, hnil, hempty]
      exact ⟨And.left, fun hsource => ⟨hsource, h hsource⟩⟩
    · exact hcons xs hxs

include hv hw

/-- What the tokens stand for is moved with them. -/
theorem exists_lexed_surrounded_iff {β : Type} {Q : List (Spanned Token) → β → Prop} {f : β → β}
    (hQ : ∀ {us x}, Q (us.map (·.shift v.toList.length)) x ↔ ∃ y, Q us y ∧ x = f y) {x : β} :
    (∃ ts, Lexed 0 (v ++ source ++ w).toList ts ∧ Q ts x) ↔
      ∃ y, (∃ us, Lexed 0 source.toList us ∧ Q us y) ∧ x = f y := by
  rw [String.toList_append, String.toList_append]
  simp only [lexed_surrounded_iff hv hw]
  constructor
  · rintro ⟨_, ⟨us, hus, rfl⟩, hx⟩
    obtain ⟨y, hy, rfl⟩ := hQ.1 hx
    exact ⟨y, ⟨us, hus, hy⟩, rfl⟩
  · rintro ⟨y, ⟨us, hus, hy⟩, rfl⟩
    exact ⟨_, ⟨us, hus, rfl⟩, hQ.2 ⟨y, hy, rfl⟩⟩

/-- Blanks around a source move its tokens and terms by the length of those in front, except that
around the empty source they are refused, by the lexer and where terms are listed. -/
theorem surrounded_iff :
    ((∀ ts, Token.scan (v ++ source ++ w) = .ok ts ↔
        ∃ us, Token.scan source = .ok us ∧ ts = us.map (·.shift v.toList.length)) ↔
      (source = "" → v = "" ∧ w = "")) ∧
    ((∀ xs, parseAll (v ++ source ++ w) = .ok xs ↔
        ∃ ys, parseAll source = .ok ys ∧ xs = ys.map (·.shift v.toList.length)) ↔
      (source = "" → v = "" ∧ w = "")) ∧
    ∀ x, parse (v ++ source ++ w) = .ok x ↔
      ∃ y, parse source = .ok y ∧ x = y.shift v.toList.length := by
  refine ⟨?_, ?_, fun x => ?_⟩
  · refine moved_iff (P := fun s ts => Token.scan s = .ok ts) source
      (fun _ => Token.scan_eq_ok_nil_iff) fun ts hts => ?_
    rw [Token.scan_iff_lexed hts, String.toList_append, String.toList_append,
      lexed_surrounded_iff hv hw]
    refine exists_congr fun us => and_congr_left ?_
    rintro rfl
    exact (Token.scan_iff_lexed fun hnil => hts (List.map_eq_nil_iff.2 hnil)).symm
  · refine moved_iff (P := fun s xs => parseAll s = .ok xs) source
      (fun _ => parseAll_eq_ok_nil_iff) fun xs hxs => ?_
    rw [parseAll_iff_lexed hxs, exists_lexed_surrounded_iff hv hw source spansTerms_shift_iff]
    refine exists_congr fun ys => and_congr_left ?_
    rintro rfl
    exact (parseAll_iff_lexed fun hnil => hxs (List.map_eq_nil_iff.2 hnil)).symm
  · rw [parse_iff_lexed, exists_lexed_surrounded_iff hv hw source spansTerm_shift_iff]
    simp only [parse_iff_lexed]

end Surrounded

/-- Around two terms, blanks move both of them. -/
theorem parseAll_surrounded_pair :
    ((∀ c ∈ "\t".toList, Text.isBlank c = true) ∧ ∀ c ∈ " \n".toList, Text.isBlank c = true) ∧
    parseAll "x; \" \"" = .ok
      [⟨⟨0, 1⟩, .node (.name "x")⟩, ⟨⟨3, 6⟩, .node (.literal (.text " "))⟩] ∧
    parseAll ("\t" ++ "x; \" \"" ++ " \n") = .ok
      [⟨⟨1, 2⟩, .node (.name "x")⟩, ⟨⟨4, 7⟩, .node (.literal (.text " "))⟩] := by
  have hv : ∀ c ∈ "\t".toList, Text.isBlank c = true := List.forall_mem_singleton.2 rfl
  have hw : ∀ c ∈ " \n".toList, Text.isBlank c = true :=
    List.forall_mem_cons.2 ⟨rfl, List.forall_mem_singleton.2 rfl⟩
  have h : parseAll "x; \" \"" = .ok
      [⟨⟨0, 1⟩, .node (.name "x")⟩, ⟨⟨3, 6⟩, .node (.literal (.text " "))⟩] := by rfl
  refine ⟨⟨hv, hw⟩, h, ?_⟩
  exact ((surrounded_iff hv hw "x; \" \"").2.1.2 nofun _).2 ⟨_, h, rfl⟩

/-- The empty source lists no terms, and a blank in front of it is refused. -/
theorem parseAll_refuses_blank : (∀ c ∈ " ".toList, Text.isBlank c = true) ∧
    Token.scan "" = .ok [] ∧ parseAll "" = .ok [] ∧
    (∀ ts, Token.scan (" " ++ "" ++ "") ≠ .ok ts) ∧ ∀ xs, parseAll (" " ++ "" ++ "") ≠ .ok xs := by
  refine ⟨List.forall_mem_singleton.2 rfl, by rfl, by rfl, fun ts h => ?_, fun xs h => ?_⟩
  · cases h
  · cases h

end Term

end Redline
