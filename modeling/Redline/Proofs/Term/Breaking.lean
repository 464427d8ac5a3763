import Redline.Proofs.Term.Locating
import Redline.Proofs.Token.Scan

/-! # Where sources break

The problem of a source that has tokens but no reading is told of one of the tokens, or of the end
behind them (`PointsAt`), and of which one is settled by the grammar (`BreaksAt`): the tokens before
it start a reading, and with it they do not.  There is one exception.  Where an `=` may stand but
lacks its value (`LacksValue`), the problem is told of the first such `=`, although the tokens still
start a reading there, and maybe for long behind it.  Main statement:
`exists_breaksAt_of_error`. -/

namespace Redline.Term

open Parsing Parsing.Parser Grammar

/-- The problem is told of the token with number `k`, or of the end of the source if there is no
such token. -/
structure PointsAt (source : String) (tokens : List (Spanned Token)) (problem : Problem String)
    (k : Nat) : Prop where
  span : problem.span = (tokens[k]?.map (·.span)).getD
    ⟨source.toList.length, source.toList.length + 1⟩
  found : problem.found = tokens[k]?.map (·.value.render)

/-- Token number `k` is an `=` with which the tokens still start a member of `L`, but no term stands
behind it. -/
structure LacksValue (L : List Token → Prop) (ts : List Token) (k : Nat) : Prop where
  starts : Starts L (ts.take (k + 1))
  refuses : ∃ vs, ts.drop k = .symbol .equal :: vs ∧ ∀ us t, us <+: vs → ¬ IsTerm us t

theorem LacksValue.lt_length {L : List Token → Prop} {ts : List Token} {k : Nat}
    (h : LacksValue L ts k) : k < ts.length := by
  obtain ⟨vs, hvs, -⟩ := h.refuses
  have hlength := congrArg List.length hvs
  rw [List.length_drop, List.length_cons] at hlength
  omega

/-- The problem is told of the token with number `k`, and of no other.  The tokens before it start a
member of `L`.  With it they do not, unless some `=` lacks its value; then `k` is the number of the
first that does. -/
structure BreaksAt (L : List Token → Prop) (source : String) (tokens : List (Spanned Token))
    (problem : Problem String) (k : Nat) : Prop where
  le : k ≤ tokens.length
  pointsAt : PointsAt source tokens problem k
  unique : ∀ j ≤ tokens.length, PointsAt source tokens problem j → j = k
  starts : Starts L ((tokens.map (·.value)).take k)
  breaks_iff : (k < tokens.length → ¬ Starts L ((tokens.map (·.value)).take (k + 1))) ↔
    ∀ j, ¬ LacksValue L (tokens.map (·.value)) j
  first : ∀ j, LacksValue L (tokens.map (·.value)) j →
    LacksValue L (tokens.map (·.value)) k ∧ k ≤ j

/-- The places in a source are told apart by their spans. -/
theorem start_lt_of_lt {source : String} {tokens : List (Spanned Token)}
    (h : Token.scan source = .ok tokens) {e : Span} (he : e.start = source.toList.length)
    {j k : Nat} (hjk : j < k) (hk : k ≤ tokens.length) :
    ((tokens[j]?.map (·.span)).getD e).start < ((tokens[k]?.map (·.span)).getD e).start := by
  obtain ⟨hpairs, hin⟩ := (Token.lexed_of_scan h).spread.inOrder
  have hj : j < tokens.length := Nat.lt_of_lt_of_le hjk hk
  have hspan := hin _ (List.getElem_mem hj)
  rw [List.getElem?_eq_getElem hj]
  rcases Nat.lt_or_ge k tokens.length with hlt | hge
  · rw [List.getElem?_eq_getElem hlt]
    have := List.pairwise_iff_getElem.1 hpairs j k hj hlt hjk
    simp only [Option.map_some, Option.getD_some]
    omega
  · rw [List.getElem?_eq_none hge]
    simp only [Option.map_some, Option.getD_some, Option.map_none, Option.getD_none]
    omega

theorem PointsAt.unique {source : String} {tokens : List (Spanned Token)} {problem : Problem String}
    (h : Token.scan source = .ok tokens) {j k : Nat} (hj : PointsAt source tokens problem j)
    (hk : PointsAt source tokens problem k) (hjn : j ≤ tokens.length) (hkn : k ≤ tokens.length) :
    j = k := by
  have hspan := hj.span.symm.trans hk.span
  rcases Nat.lt_trichotomy j k with hlt | rfl | hgt
  · have := start_lt_of_lt h (e := ⟨_, source.toList.length + 1⟩) rfl hlt hkn
    rw [hspan] at this
    exact absurd this (Nat.lt_irrefl _)
  · rfl
  · have := start_lt_of_lt h (e := ⟨_, source.toList.length + 1⟩) rfl hgt hjn
    rw [hspan] at this
    exact absurd this (Nat.lt_irrefl _)

/-- A failure behind `us` is told of the token behind them. -/
theorem pointsAt_of_at {source : String} {tokens : List (Spanned Token)} {us : List Token}
    {c : Cursor Token} {f : Failure Token}
    (hpass : (Cursor.ofItems tokens ⟨source.toList.length, source.toList.length + 1⟩).Passes us c)
    (hat : f.At c) : PointsAt source tokens (f.problem.map Token.render) us.length := by
  obtain ⟨xs, rest, hrest, rfl, rfl⟩ := Cursor.passes_iff_past.1 hpass
  obtain rfl : tokens = xs ++ rest := hrest
  have hhead : (xs ++ rest)[(xs.map (·.value)).length]? = rest.head? := by
    rw [List.length_map, List.getElem?_append_right (Nat.le_refl _), Nat.sub_self,
      List.head?_eq_getElem?]
  constructor
  · rw [hhead]
    exact hat.span
  · rw [hhead]
    change f.problem.found.map Token.render = _
    rw [hat.found, Cursor.next, Option.map_map]
    rfl

section Furthest

variable {L : List Token → Prop} {c c' : Cursor Token} {us : List Token}
  (hreach : c.Reaches Valued L us c')
  (hfurthest : ∀ {vs d}, c.Reaches Valued L vs d → d.index ≤ c'.index)

include hreach

theorem le_of_lacksValue {j : Nat} (h : LacksValue L c.values j) : us.length ≤ j := by
  obtain ⟨vs, hvs, hrefuses⟩ := h.refuses
  refine Nat.le_of_not_lt fun hj => ?_
  obtain ⟨ws, t, hws, ht⟩ := exists_value_of_advances hreach.advances hj hvs
  exact hrefuses ws t hws ht

include hfurthest

/-- If the tokens go on, then with an `=` that lacks its value. -/
theorem lacksValue_of_starts (hlt : us.length < c.values.length)
    (hstarts : Starts L (c.values.take (us.length + 1))) : LacksValue L c.values us.length := by
  refine ⟨hstarts, Classical.byContradiction fun hno => ?_⟩
  have hvalues := Cursor.values_of_passes hreach.passes
  have hdrop : c.values.drop us.length = c'.values := by rw [hvalues, List.drop_left]
  have hvalued : Valued c' := by
    intro vs hvs
    refine Classical.byContradiction fun hnone => hno ⟨vs, hdrop.trans hvs, fun ws t hws ht => ?_⟩
    exact hnone ⟨ws, t, hws, ht⟩
  have hlength : 0 < c'.values.length := by
    rw [hvalues, List.length_append] at hlt
    omega
  obtain ⟨v, vs, hv⟩ := List.exists_cons_of_length_pos hlength
  obtain ⟨d, hd, -⟩ := Cursor.exists_passes [v] hv
  have hadvance : c.Advances Valued (us ++ [v]) d :=
    Cursor.advances_append.2 ⟨c', hreach.advances, d, hvalued, hd, rfl⟩
  rw [hvalues, hv, List.take_length_add_append] at hstarts
  have hle := hfurthest ⟨hadvance, hstarts⟩
  rw [Cursor.index_of_passes hd, List.length_singleton] at hle
  omega

/-- The tokens break off at the first `=` that lacks its value. -/
theorem lacksValue_first {j : Nat} (h : LacksValue L c.values j) :
    LacksValue L c.values us.length ∧ us.length ≤ j := by
  have hle := le_of_lacksValue hreach h
  have hlt := h.lt_length
  have hstarts := h.starts.take (us.length + 1)
  rw [List.take_take, Nat.min_eq_left (by omega)] at hstarts
  exact ⟨lacksValue_of_starts hreach hfurthest (by omega) hstarts, hle⟩

end Furthest

theorem exists_breaksAt {α : Type} {p : Parser Token α} {L : List Token → Prop}
    (hp : ∀ n, p.Locates Valued L n) {source : String} {tokens : List (Spanned Token)}
    (hscan : Token.scan source = .ok tokens) {problem : Problem String}
    (hr : parseBy p source = .error problem) : ∃ k, BreaksAt L source tokens problem k := by
  unfold parseBy at hr
  rw [hscan] at hr
  obtain ⟨problem, hparse, rfl⟩ := error_of_mapError hr
  obtain ⟨f, us, c', rfl, hreach, hat, hfurthest⟩ := (hp _).parse hparse
  have hpoints := pointsAt_of_at hreach.passes hat
  have hvalues : tokens.map (·.value) = us ++ c'.values := Cursor.values_of_passes hreach.passes
  have hmap : (tokens.map (·.value)).length = tokens.length := List.length_map _
  have hlength : us.length ≤ tokens.length := by
    rw [← hmap, hvalues, List.length_append]
    omega
  have hfirst : ∀ j, LacksValue L (tokens.map (·.value)) j →
      LacksValue L (tokens.map (·.value)) us.length ∧ us.length ≤ j :=
    fun _ => lacksValue_first hreach hfurthest
  refine ⟨us.length, hlength, hpoints,
    fun j hj hpoints' => hpoints'.unique hscan hpoints hj hlength, ?_, ⟨?_, ?_⟩, hfirst⟩
  · rw [hvalues, List.take_left]
    exact hreach.starts
  · intro h j hj
    have hlacks := (hfirst j hj).1
    exact h (hmap ▸ hlacks.lt_length) hlacks.starts
  · intro h hlt hstarts
    refine h us.length (lacksValue_of_starts hreach hfurthest ?_ hstarts)
    rwa [← hmap] at hlt

/-- The problem of a source that has tokens but no term, or no list of terms, is told of the token
that breaks it, exactly if no `=` lacks its value. -/
theorem exists_breaksAt_of_error {source : String} {tokens : List (Spanned Token)}
    (hscan : Token.scan source = .ok tokens) :
    (∀ problem, parse source = .error problem →
      ∃ k, BreaksAt (Derives IsTerm) source tokens problem k) ∧
    ∀ problem, parseAll source = .error problem →
      ∃ k, BreaksAt (Derives IsSource) source tokens problem k :=
  ⟨fun _ => exists_breaksAt locates_term hscan, fun _ => exists_breaksAt locates_terms hscan⟩

/-- A bracket that nothing has opened. -/
theorem breaksAt_unopened :
    Token.scan "f)" = .ok [⟨⟨0, 1⟩, .name "f"⟩, ⟨⟨1, 2⟩, .symbol .rightParen⟩] ∧
    ∃ problem, parse "f)" = .error problem ∧ BreaksAt (Derives IsTerm) "f)"
      [⟨⟨0, 1⟩, .name "f"⟩, ⟨⟨1, 2⟩, .symbol .rightParen⟩] problem 1 := by
  have hscan : Token.scan "f)" = .ok [⟨⟨0, 1⟩, .name "f"⟩, ⟨⟨1, 2⟩, .symbol .rightParen⟩] := by rfl
  refine ⟨hscan, _, rfl, ?_⟩
  obtain ⟨k, hk⟩ := (exists_breaksAt_of_error hscan).1 _ rfl
  obtain rfl : 1 = k := hk.unique 1 (by decide) ⟨rfl, rfl⟩
  exact hk

/-- The problem of a name with an `=` behind it is told of the `=`, although a term may go on
there. -/
theorem parse_assign_without_value :
    Token.scan "x =" = .ok [⟨⟨0, 1⟩, .name "x"⟩, ⟨⟨2, 3⟩, .symbol .equal⟩] ∧
    (∃ problem, parse "x =" = .error problem ∧
      PointsAt "x =" [⟨⟨0, 1⟩, .name "x"⟩, ⟨⟨2, 3⟩, .symbol .equal⟩] problem 1) ∧
    Starts (Derives IsTerm) [.name "x", .symbol .equal] := by
  refine ⟨by rfl, ⟨_, rfl, rfl, rfl⟩, [.name "y"], _, .assign (.apply (.atom (.name "y")))⟩

end Redline.Term
