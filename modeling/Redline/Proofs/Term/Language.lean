import Redline.Proofs.Parsing.Language
import Redline.Proofs.Term.Parsing

/-! # The languages of the grammar

The derivations of the grammar as languages, without their trees: what atoms, applications and terms
are made of (`derives_isAtom_iff`, `derives_isApply_iff`, `derives_isTerm_iff`), and the tokens that
never continue one of them (`ends_isTerm`, `ends_isTermList`, `ends_isApply`).  Atoms and lists in
brackets are continued by no token at all. -/

namespace Redline.Term

open Parsing Parsing.Parser

namespace Grammar

/-! ### The languages of the grammar -/

/-- The members of `L` between an opening and a closing symbol. -/
def Enclosed (opening closing : Symbol) (L : List Token → Prop) (ts : List Token) : Prop :=
  ∃ us, ts = Token.enclosed opening closing us ∧ L us

theorem enclosed_iff {opening closing : Symbol} {L : List Token → Prop} {ts : List Token} :
    Enclosed opening closing L ts ↔
      Then (· = [.symbol opening]) (Then L (· = [.symbol closing])) ts := by
  constructor
  · rintro ⟨us, rfl, hus⟩
    exact ⟨[.symbol opening], _, rfl, rfl, us, _, rfl, hus, rfl⟩
  · rintro ⟨_, _, rfl, rfl, us, _, rfl, hus, rfl⟩
    exact ⟨us, rfl, hus⟩

theorem heads_enclosed (opening closing : Symbol) (L : List Token → Prop) :
    Heads (Enclosed opening closing L) (· = .symbol opening) := by
  rintro _ ⟨us, rfl, -⟩
  exact ⟨_, _, rfl, rfl⟩

theorem ends_enclosed {opening closing : Symbol} {L : List Token → Prop}
    (h : Ends L (.symbol closing)) (v : Token) : Ends (Enclosed opening closing L) v :=
  Ends.congr h.then_closing.then_single fun _ => enclosed_iff

/-- The argument lists of applications, and the tags of groups. -/
def IsTermList : List Token → Prop := Derives (SepEndBy IsTerm (.symbol .comma))

/-- A name with a value assigned to it. -/
def IsAssign (ts : List Token) : Prop :=
  ∃ x vs, ts = .name x :: .symbol .equal :: vs ∧ Derives IsTerm vs

theorem derives_name : Derives IsTerm [.name "x"] := ⟨_, .apply (.atom (.name "x"))⟩

theorem derives_applyName (x : String) : Derives IsApply [.name x] := ⟨_, .atom (.name x)⟩

theorem isTermList_nil : IsTermList [] := ⟨[], .none⟩

theorem not_derives_nil : ¬ Derives IsTerm [] := by
  rintro ⟨t, ht⟩
  obtain ⟨v, vs, h, -⟩ := ht.head
  cases h

/-! #### Where members end -/

theorem ends_isTerm {v : Token} (hv : Stops (some v)) : Ends (Derives IsTerm) v :=
  ends_of_takes takes_fix stops_none hv

theorem ends_isTermList {v : Token} (hv : Stops (some v)) (hcomma : v ≠ .symbol .comma) :
    Ends IsTermList v :=
  ends_of_takes (p := termList (fix termOver))
    (F := fun v => Stops v ∧ v ≠ some (.symbol .comma))
    (fun h => takes_termList sound_fix (fun _ => takes_fix) h (Nat.lt_succ_self _))
    ⟨stops_none, nofun⟩ ⟨hv, fun h => hcomma (Option.some.inj h)⟩

theorem ends_isAtom (v : Token) : Ends (Derives IsAtom) v :=
  ends_of_takes (fun h => takes_atom sound_fix (fun _ => takes_fix) h (Nat.le_refl _)) trivial
    trivial

theorem ends_isApply {v : Token} (hv : Stops (some v)) : Ends (Derives IsApply) v :=
  ends_of_takes (fun h => takes_apply sound_fix (fun _ => takes_fix) h (Nat.le_refl _)) stops_none
    hv

/-- The parameters of an abstraction end at the dot. -/
theorem ends_parameters : Ends (Derives (SepBy IsApply (.symbol .comma))) (.symbol .dot) := by
  have happly : (apply (fix termOver)).Sound IsTerm := fun _ _ _ hr => by
    obtain ⟨ts, hts, ht⟩ := sound_apply sound_fix hr
    exact ⟨ts, hts, .apply ht⟩
  have hrefuses : ∀ v, Stops v → ∀ c : Cursor Token, c.next = v →
      (apply (fix termOver)).read c = none := fun _ => refuses_of_sound happly
  refine ends_of_takes (p := sepBy (apply (fix termOver)) (just (.symbol .comma)))
    (fun h => takes_sepBy (progresses_of_sound happly) stops_comma (h.imp fun _ _ _ h' =>
      takes_apply sound_fix (fun _ => takes_fix) h' (Nat.le_refl _))) ?_ ?_
  · exact ⟨stops_none, nofun, hrefuses _ stops_none⟩
  · exact ⟨stops_dot, nofun, hrefuses _ stops_dot⟩

/-! #### What members are made of -/

theorem derives_isAtom_iff {ts : List Token} : Derives IsAtom ts ↔
    (∃ v, ts = [.literal v]) ∨ ts = [.underscore] ∨ (∃ x, ts = [.name x]) ∨
      Then (Enclosed .leftBracket .rightBracket IsTermList)
        (Enclosed .leftBrace .rightBrace (Derives IsTerm)) ts ∨
      Enclosed .leftParen .rightParen (Derives IsTerm) ts := by
  constructor
  · rintro ⟨t, _ | _ | _ | ⟨hgs, hvs⟩ | ht⟩
    · exact .inl ⟨_, rfl⟩
    · exact .inr (.inl rfl)
    · exact .inr (.inr (.inl ⟨_, rfl⟩))
    · exact .inr (.inr (.inr (.inl ⟨_, _, rfl, ⟨_, rfl, _, hgs⟩, _, rfl, _, hvs⟩)))
    · exact .inr (.inr (.inr (.inr ⟨_, rfl, _, ht⟩)))
  · rintro (⟨v, rfl⟩ | rfl | ⟨x, rfl⟩ | ⟨_, _, rfl, ⟨gs, rfl, tag, hgs⟩, vs, rfl, value, hvs⟩ |
      ⟨us, rfl, t, ht⟩)
    · exact ⟨_, .literal v⟩
    · exact ⟨_, .underscore⟩
    · exact ⟨_, .name x⟩
    · exact ⟨_, .group hgs hvs⟩
    · exact ⟨_, .parens ht⟩

theorem exists_calls_of_isApply : ∀ {ts : List Token} {t : Term}, IsApply ts t →
    Then (Derives IsAtom) (Many (Enclosed .leftParen .rightParen IsTermList)) ts
  | _, _, .atom h => ⟨_, [], (List.append_nil _).symm, ⟨_, h⟩, .nil⟩
  | _, _, .call hf hxs => by
      obtain ⟨vs, ws, rfl, hvs, hws⟩ := exists_calls_of_isApply hf
      exact ⟨vs, _, List.append_assoc _ _ _, hvs, hws.concat ⟨_, rfl, _, hxs⟩⟩

theorem derives_isApply_iff {ts : List Token} : Derives IsApply ts ↔
    Then (Derives IsAtom) (Many (Enclosed .leftParen .rightParen IsTermList)) ts := by
  constructor
  · rintro ⟨t, ht⟩
    exact exists_calls_of_isApply ht
  · rintro ⟨vs, ws, rfl, ⟨callee, hvs⟩, hws⟩
    have hitem : Enclosed .leftParen .rightParen IsTermList = Derives fun ts xs =>
        ∃ us, ts = Token.enclosed .leftParen .rightParen us ∧
          SepEndBy IsTerm (.symbol .comma) us xs := by
      funext ts
      refine propext ⟨?_, ?_⟩
      · rintro ⟨us, rfl, xs, hus⟩
        exact ⟨xs, us, rfl, hus⟩
      · rintro ⟨xs, us, rfl, hus⟩
        exact ⟨us, rfl, xs, hus⟩
    rw [hitem, many_derives_iff] at hws
    obtain ⟨calls, hcalls⟩ := hws
    exact ⟨_, IsApply.foldl hcalls (.atom hvs)⟩

theorem derives_isTerm_iff {ts : List Token} : Derives IsTerm ts ↔
    Then (· = [.lambda]) (Then (Derives (SepBy IsApply (.symbol .comma)))
      (Then (· = [.symbol .dot]) (Derives IsTerm))) ts ∨ IsAssign ts ∨ Derives IsApply ts := by
  constructor
  · rintro ⟨t, ⟨hps, hbs⟩ | hvs | ht⟩
    · exact .inl ⟨[.lambda], _, rfl, rfl, _, _, rfl, ⟨_, hps⟩, [.symbol .dot], _, rfl, rfl, _, hbs⟩
    · exact .inr (.inl ⟨_, _, rfl, _, hvs⟩)
    · exact .inr (.inr ⟨_, ht⟩)
  · rintro (⟨_, _, rfl, rfl, ps, _, rfl, ⟨_, hps⟩, _, bs, rfl, rfl, _, hbs⟩ |
      ⟨x, vs, rfl, value, hvs⟩ | ⟨t, ht⟩)
    · exact ⟨_, .lambda hps hbs⟩
    · exact ⟨_, .assign hvs⟩
    · exact ⟨t, .apply ht⟩

theorem isAssign_iff {ts : List Token} : IsAssign ts ↔
    Then (fun ts => ∃ x, ts = [.name x]) (Then (· = [.symbol .equal]) (Derives IsTerm)) ts := by
  constructor
  · rintro ⟨x, vs, rfl, hvs⟩
    exact ⟨_, _, rfl, ⟨x, rfl⟩, [.symbol .equal], vs, rfl, rfl, hvs⟩
  · rintro ⟨_, _, rfl, ⟨x, rfl⟩, _, vs, rfl, rfl, hvs⟩
    exact ⟨x, vs, rfl, hvs⟩

/-! #### Assignments and applications -/

theorem exists_name_of_starts {u v : Token} {us : List Token} (h : Starts IsAssign (u :: v :: us)) :
    (∃ x, u = .name x) ∧ v = .symbol .equal := by
  obtain ⟨ws, x, vs, h, -⟩ := h
  obtain ⟨rfl, hrest⟩ := List.cons.inj h
  exact ⟨⟨x, rfl⟩, (List.cons.inj hrest).1⟩

/-- No application goes on from a name with `=`. -/
theorem not_starts_isApply {x : String} {us : List Token} :
    ¬ Starts (Derives IsApply) (.name x :: .symbol .equal :: us) := by
  rintro ⟨ws, t, ht⟩
  rcases ht.afterName rfl with h | h <;> cases h

end Grammar

end Redline.Term
