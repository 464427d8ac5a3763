import Redline.Proofs.Term.Derivation

/-! # Recognition

The parsers of the grammar read derivations and nothing else.

* What they read is derivable: each parser over a `term` that is sound is sound (`sound_atom`,
  `sound_apply`, `sound_termOver`), so every nesting is (`sound_nested`).
* What is derivable is read, wherever an item follows that cannot continue a term (`Stops`).  The
  alternatives are ordered and an alternative that succeeds is final, so each of the lemmas
  `takes_atom`, `takes_apply` and `takes_termOver` shows that the alternatives before the derived
  one refuse.  A nesting of `n` parsers takes all terms of fewer than `n` tokens
  (`takes_nested`). -/

namespace Redline.Term.Grammar

open Parsing Parsing.Parser

/-- No term goes on with the next token, and none starts with it. -/
def Stops (v : Option Token) : Prop :=
  ∀ t, v = some t → t.startsTerm = false ∧ t ≠ .symbol .equal

theorem stops_none : Stops none := nofun

theorem stops_symbol (s : Symbol) (h : (Token.symbol s).startsTerm = false) (hs : s ≠ .equal) :
    Stops (some (.symbol s)) := by
  rintro _ ⟨⟩
  exact ⟨h, fun e => hs (Token.symbol.inj e)⟩

theorem stops_comma : Stops (some (.symbol .comma)) := stops_symbol .comma rfl nofun

theorem stops_rightParen : Stops (some (.symbol .rightParen)) := stops_symbol .rightParen rfl nofun

theorem stops_rightBracket : Stops (some (.symbol .rightBracket)) :=
  stops_symbol .rightBracket rfl nofun

theorem stops_rightBrace : Stops (some (.symbol .rightBrace)) := stops_symbol .rightBrace rfl nofun

theorem stops_dot : Stops (some (.symbol .dot)) := stops_symbol .dot rfl nofun

theorem stops_semicolon : Stops (some (.symbol .semicolon)) := stops_symbol .semicolon rfl nofun

theorem Stops.ne {v : Option Token} (h : Stops v) {t : Token} (ht : t.startsTerm = true) :
    v ≠ some t := by
  rintro rfl
  rw [(h t rfl).1] at ht
  cases ht

/-! ### Brackets -/

theorem passes_enclosed {c c' : Cursor Token} {opening closing : Symbol} {ts : List Token} :
    c.Passes (Token.enclosed opening closing ts) c' ↔ ∃ c₁ c₂,
      c.Passes [.symbol opening] c₁ ∧ c₁.Passes ts c₂ ∧ c₂.Passes [.symbol closing] c' := by
  rw [Token.enclosed, Cursor.passes_cons]
  simp only [Cursor.passes_append]
  constructor
  · rintro ⟨c₁, h₁, c₂, h₂, h₃⟩
    exact ⟨c₁, c₂, h₁, h₂, h₃⟩
  · rintro ⟨c₁, c₂, h₁, h₂, h₃⟩
    exact ⟨c₁, h₁, c₂, h₂, h₃⟩

theorem sound_between {α : Type} {opening closing : Symbol} {p : Parser Token α}
    {P : List Token → α → Prop} (h : p.Sound P) :
    (between (.symbol opening) (.symbol closing) p).Sound
      fun ts a => ∃ us, ts = Token.enclosed opening closing us ∧ P us a := by
  intro c a c' hr
  obtain ⟨c₁, c₂, h₁, hp, h₂⟩ := read_between_eq_some.1 hr
  obtain ⟨us, hus, ha⟩ := h hp
  exact ⟨_, passes_enclosed.2 ⟨c₁, c₂, h₁, hus, h₂⟩, us, rfl, ha⟩

theorem takes_between {α : Type} {opening closing : Symbol} {p : Parser Token α} {ts : List Token}
    {a : α} {F : Option Token → Prop} (h : p.Takes F ts a) (hF : F (some (.symbol closing))) :
    (between (.symbol opening) (.symbol closing) p).Takes (fun _ => True)
      (Token.enclosed opening closing ts) a := by
  intro c c' hpass _
  obtain ⟨c₁, c₂, h₁, h₂, h₃⟩ := passes_enclosed.1 hpass
  exact read_between_eq_some.2
    ⟨c₁, c₂, h₁, h h₂ (by rw [Cursor.next_of_passes h₃]; exact hF), h₃⟩

/-! ### What single tokens are read as -/

theorem read_identifier_eq_some {c c' : Cursor Token} {x : String} :
    identifier.read c = some (x, c') ↔ c.Passes [.name x] c' := by
  unfold identifier select
  rw [read_item_eq_some]
  constructor
  · rintro ⟨v, hv, h⟩
    cases v <;> cases hv
    exact h
  · intro h
    exact ⟨_, rfl, h⟩

theorem read_identifier_eq_none {c : Cursor Token} (h : ∀ x, c.next ≠ some (.name x)) :
    identifier.read c = none := by
  rw [Option.eq_none_iff_forall_ne_some]
  rintro ⟨x, c'⟩ hr
  exact h x (Cursor.next_of_passes (read_identifier_eq_some.1 hr))

theorem read_literal_eq_some {c c' : Cursor Token} {t : Term} :
    literal.read c = some (t, c') ↔ ∃ v, t = .node (.literal v) ∧ c.Passes [.literal v] c' := by
  unfold literal select
  rw [read_labelled, read_item_eq_some]
  constructor
  · rintro ⟨v, hv, h⟩
    cases v <;> cases hv
    exact ⟨_, rfl, h⟩
  · rintro ⟨v, rfl, h⟩
    exact ⟨_, rfl, h⟩

theorem read_literal_eq_none {c : Cursor Token} (h : ∀ v, c.next ≠ some (.literal v)) :
    literal.read c = none := by
  rw [Option.eq_none_iff_forall_ne_some]
  rintro ⟨t, c'⟩ hr
  obtain ⟨v, -, hpass⟩ := read_literal_eq_some.1 hr
  exact h v (Cursor.next_of_passes hpass)

theorem read_underscore_eq_some {c c' : Cursor Token} {t : Term} :
    underscore.read c = some (t, c') ↔ t = absent ∧ c.Passes [.underscore] c' := by
  unfold underscore
  simp only [read_labelled, read_bind_eq_some, read_just_eq_some, read_pure]
  constructor
  · rintro ⟨_, c₁, ⟨-, h⟩, hp⟩
    cases hp
    exact ⟨rfl, h⟩
  · rintro ⟨rfl, h⟩
    exact ⟨_, c', ⟨rfl, h⟩, rfl⟩

theorem read_underscore_eq_none {c : Cursor Token} (h : c.next ≠ some .underscore) :
    underscore.read c = none := by
  unfold underscore
  rw [read_labelled]
  exact read_bind_eq_none (read_just_eq_none h)

theorem read_variableName_eq_some {c c' : Cursor Token} {t : Term} :
    variableName.read c = some (t, c') ↔ ∃ x, t = .node (.name x) ∧ c.Passes [.name x] c' := by
  unfold variableName
  simp only [read_labelled, read_bind_eq_some, read_identifier_eq_some, read_pure]
  constructor
  · rintro ⟨x, c₁, h, hp⟩
    cases hp
    exact ⟨x, rfl, h⟩
  · rintro ⟨x, rfl, h⟩
    exact ⟨x, c', h, rfl⟩

theorem read_variableName_eq_none {c : Cursor Token} (h : ∀ x, c.next ≠ some (.name x)) :
    variableName.read c = none := by
  unfold variableName
  rw [read_labelled]
  exact read_bind_eq_none (read_identifier_eq_none h)

theorem read_group_eq_none {term : Parser Token Term} {c : Cursor Token}
    (h : c.next ≠ some (.symbol .leftBracket)) : (group term).read c = none := by
  unfold group inBrackets
  rw [read_labelled]
  exact read_bind_eq_none (read_between_eq_none h)

theorem read_lambda_eq_none {term : Parser Token Term} {c : Cursor Token}
    (h : c.next ≠ some .lambda) : (lambda term).read c = none := by
  unfold lambda
  rw [read_labelled]
  exact read_bind_eq_none (read_just_eq_none h)

/-! ### Soundness -/

/-- Argument lists behind a callee make up an application, from the left. -/
theorem IsApply.foldl {cs : List Token} {calls : List (List Term)}
    (h : Sequence (fun ts xs => ∃ us, ts = Token.enclosed .leftParen .rightParen us ∧
      SepEndBy IsTerm (.symbol .comma) us xs) cs calls) :
    ∀ {fs : List Token} {callee : Term}, IsApply fs callee →
      IsApply (fs ++ cs) (calls.foldl (fun f xs => .node (.apply f xs)) callee) := by
  induction h with
  | nil => intro fs callee hf; rw [List.append_nil]; exact hf
  | cons h _ ih =>
      intro fs callee hf
      obtain ⟨us, rfl, hus⟩ := h
      rw [← List.append_assoc]
      exact ih (.call hf hus)

section Sound

theorem sound_firstOf {σ α : Type} {ps : List (Parser σ α)} {P : List σ → α → Prop}
    (h : ∀ p ∈ ps, p.Sound P) : (firstOf ps).Sound P := by
  intro c a c' hr
  rw [read_firstOf] at hr
  obtain ⟨p, hp, hread⟩ := List.exists_of_findSome?_eq_some hr
  exact h p hp hread

variable {term : Parser Token Term} (hterm : term.Sound IsTerm)

include hterm

theorem sound_termList : (termList term).Sound (SepEndBy IsTerm (.symbol .comma)) :=
  hterm.sepEndBy

theorem sound_group : (group term).Sound IsAtom := by
  intro c t c' hr
  unfold group inBrackets inBraces at hr
  simp only [read_labelled, read_bind_eq_some, read_pure] at hr
  obtain ⟨tag, c₁, htag, value, c₂, hvalue, hp⟩ := hr
  cases hp
  obtain ⟨_, h₁, gs, rfl, hgs⟩ := sound_between (sound_termList hterm) htag
  obtain ⟨_, h₂, vs, rfl, hvs⟩ := sound_between hterm hvalue
  exact ⟨_, Cursor.passes_append.2 ⟨c₁, h₁, h₂⟩, .group hgs hvs⟩

theorem sound_atom : (atom term).Sound IsAtom := by
  refine sound_firstOf ?_
  simp only [List.mem_cons, List.not_mem_nil, or_false, forall_eq_or_imp, forall_eq]
  refine ⟨?_, ?_, ?_, sound_group hterm, ?_⟩
  · intro c t c' hr
    obtain ⟨v, rfl, h⟩ := read_literal_eq_some.1 hr
    exact ⟨_, h, .literal v⟩
  · intro c t c' hr
    obtain ⟨rfl, h⟩ := read_underscore_eq_some.1 hr
    exact ⟨_, h, .underscore⟩
  · intro c t c' hr
    obtain ⟨x, rfl, h⟩ := read_variableName_eq_some.1 hr
    exact ⟨_, h, .name x⟩
  · intro c t c' hr
    obtain ⟨_, h, ts, rfl, ht⟩ := sound_between hterm hr
    exact ⟨_, h, .parens ht⟩

theorem progresses_inParens : (inParens (termList term)).Progresses :=
  (sound_between (sound_termList hterm)).progresses fun _ _ ⟨_, h, _⟩ => by
    rw [h]
    exact List.cons_ne_nil _ _

theorem sound_apply : (apply term).Sound IsApply := by
  intro c t c' hr
  unfold apply inParens at hr
  simp only [read_bind_eq_some, read_pure] at hr
  obtain ⟨callee, c₁, hcallee, calls, c₂, hcalls, hp⟩ := hr
  cases hp
  obtain ⟨fs, h₁, hfs⟩ := sound_atom hterm hcallee
  obtain ⟨cs, h₂, hcs⟩ := (sound_between (sound_termList hterm)).repeated hcalls
  exact ⟨fs ++ cs, Cursor.passes_append.2 ⟨c₁, h₁, h₂⟩, IsApply.foldl hcs (.atom hfs)⟩

theorem sound_lambda : (lambda term).Sound IsTerm := by
  intro c t c' hr
  unfold lambda symbol at hr
  simp only [read_labelled, read_bind_eq_some, read_just_eq_some, read_pure] at hr
  obtain ⟨_, c₁, ⟨-, h₁⟩, parameters, c₂, hps, _, c₃, ⟨-, h₃⟩, body, c₄, hbody, hp⟩ := hr
  cases hp
  obtain ⟨ps, h₂, hps⟩ := (sound_apply hterm).sepBy hps
  obtain ⟨bs, h₄, hbs⟩ := hterm hbody
  refine ⟨_, ?_, .lambda hps hbs⟩
  exact Cursor.passes_cons.2 ⟨c₁, h₁, Cursor.passes_append.2 ⟨c₂, h₂,
    Cursor.passes_cons.2 ⟨c₃, h₃, h₄⟩⟩⟩

theorem sound_assign : (assign term).Sound IsTerm := by
  intro c t c' hr
  unfold assign symbol at hr
  simp only [read_labelled, read_bind_eq_some, read_identifier_eq_some, read_just_eq_some,
    read_pure] at hr
  obtain ⟨x, c₁, h₁, _, c₂, ⟨-, h₂⟩, value, c₃, hvalue, hp⟩ := hr
  cases hp
  obtain ⟨vs, h₃, hvs⟩ := hterm hvalue
  exact ⟨_, Cursor.passes_cons.2 ⟨c₁, h₁, Cursor.passes_cons.2 ⟨c₂, h₂, h₃⟩⟩, .assign hvs⟩

theorem sound_termOver : (termOver term).Sound IsTerm := by
  refine sound_firstOf ?_
  simp only [List.mem_cons, List.not_mem_nil, or_false, forall_eq_or_imp, forall_eq]
  refine ⟨sound_lambda hterm, sound_assign hterm, ?_⟩
  intro c t c' hr
  obtain ⟨ts, h, ht⟩ := sound_apply hterm hr
  exact ⟨ts, h, .apply ht⟩

end Sound

theorem sound_nested : ∀ n, (nested termOver n).Sound IsTerm
  | 0 => by intro c t c' hr; cases hr
  | n + 1 => by
      rw [nested_succ]
      exact sound_termOver (sound_nested n)

theorem sound_fix : (fix termOver).Sound IsTerm := by
  intro c t c' hr
  rw [read_fix] at hr
  exact sound_nested _ hr

/-- A parser of terms refuses where no term starts. -/
theorem refuses_of_sound {p : Parser Token Term} (hp : p.Sound IsTerm) {v : Option Token}
    (hv : Stops v) (c : Cursor Token) (hc : c.next = v) : p.read c = none := by
  rw [Option.eq_none_iff_forall_ne_some]
  rintro ⟨t, c'⟩ hr
  obtain ⟨ts, hpass, hts⟩ := hp hr
  obtain ⟨w, ws, rfl, hw⟩ := hts.head
  exact hv.ne hw (hc.symm.trans (Cursor.next_of_passes hpass))

theorem progresses_of_sound {p : Parser Token Term} (hp : p.Sound IsTerm) : p.Progresses := by
  refine hp.progresses fun ts t ht => ?_
  obtain ⟨v, vs, rfl, -⟩ := ht.head
  exact List.cons_ne_nil v vs

/-! ### Completeness -/

/-- No application reads as an assignment: where it starts with a name, no `=` follows. -/
theorem read_assign_eq_none {term : Parser Token Term} {ts : List Token} {t : Term}
    (h : IsApply ts t) {c c' : Cursor Token} (hpass : c.Passes ts c') (hstops : Stops c'.next) :
    (assign term).read c = none := by
  unfold assign symbol
  rw [read_labelled]
  cases hx : identifier.read c with
  | none => exact read_bind_eq_none hx
  | some r =>
      obtain ⟨x, c₁⟩ := r
      rw [read_bind_of_read hx]
      refine read_bind_eq_none (read_just_eq_none ?_)
      have hname := read_identifier_eq_some.1 hx
      obtain ⟨v, us, rfl, -⟩ := h.head
      obtain ⟨d, hd, hus⟩ := Cursor.passes_cons.1 hpass
      obtain rfl : .name x = v :=
        Option.some.inj ((Cursor.next_of_passes hname).symm.trans (Cursor.next_of_passes hd))
      obtain rfl := Cursor.passes_unique hname hd
      rcases h.afterName rfl with rfl | hus'
      · cases hus
        exact fun e => (hstops _ e).2 rfl
      · obtain ⟨ws, rfl⟩ := List.head?_eq_some_iff.1 hus'
        rw [Cursor.next_of_passes hus]
        simp

theorem takes_assign {term : Parser Token Term} {x : String} {vs : List Token} {value : Term}
    (hvs : term.Takes Stops vs value) :
    (assign term).Takes Stops (.name x :: .symbol .equal :: vs) (.node (.assign x value)) := by
  intro c c' hpass hstops
  obtain ⟨c₁, h₁, hrest⟩ := Cursor.passes_cons.1 hpass
  obtain ⟨c₂, h₂, h₃⟩ := Cursor.passes_cons.1 hrest
  unfold assign symbol
  rw [read_labelled, read_bind_of_read (read_identifier_eq_some.2 h₁),
    read_bind_of_read (read_just_of_passes h₂), read_bind_of_read (hvs h₃ hstops), read_pure]

section Takes

variable {term : Parser Token Term} {n : Nat} (hsound : term.Sound IsTerm)
  (hterm : ∀ {ts : List Token} {t : Term}, ts.length < n → IsTerm ts t → term.Takes Stops ts t)

include hsound hterm

theorem takes_termList {xs : List Token} {ts : List Term}
    (h : SepEndBy IsTerm (.symbol .comma) xs ts) (hn : xs.length < n) :
    (termList term).Takes (fun v => Stops v ∧ v ≠ some (.symbol .comma)) xs ts := by
  have hrow : SepEndBy (term.Takes Stops) (.symbol .comma) xs ts :=
    h.imp fun _ _ hle => hterm (by omega)
  intro c c' hpass ⟨hstops, hcomma⟩
  exact takes_sepEndBy (progresses_of_sound hsound) stops_comma hrow hpass
    ⟨hstops, hcomma, fun d hd => refuses_of_sound hsound hstops d hd⟩

theorem takes_inParens {xs : List Token} {ts : List Term}
    (h : SepEndBy IsTerm (.symbol .comma) xs ts) (hn : xs.length < n) :
    (inParens (termList term)).Takes (fun _ => True)
      (Token.enclosed .leftParen .rightParen xs) ts :=
  takes_between (takes_termList hsound hterm h hn) ⟨stops_rightParen, nofun⟩

theorem takes_group {gs vs : List Token} {tag : List Term} {value : Term}
    (htag : SepEndBy IsTerm (.symbol .comma) gs tag) (hvalue : IsTerm vs value)
    (hgs : gs.length < n) (hvs : vs.length < n) :
    (group term).Takes (fun _ => True) (Token.enclosed .leftBracket .rightBracket gs ++
      Token.enclosed .leftBrace .rightBrace vs) (.node (.group tag value)) := by
  intro c c' hpass _
  obtain ⟨c₁, h₁, h₂⟩ := Cursor.passes_append.1 hpass
  have hreadTag := takes_between
    (takes_termList hsound hterm htag hgs) ⟨stops_rightBracket, nofun⟩ h₁ trivial
  have hreadValue := takes_between
    (hterm hvs hvalue) stops_rightBrace h₂ trivial
  unfold group inBrackets inBraces
  rw [read_labelled, read_bind_of_read hreadTag, read_bind_of_read hreadValue, read_pure]

theorem takes_atom {ts : List Token} {t : Term} (h : IsAtom ts t) (hn : ts.length ≤ n) :
    (atom term).Takes (fun _ => True) ts t := by
  intro c c' hpass _
  unfold atom
  rw [read_firstOf]
  cases h with
  | literal v =>
      rw [List.findSome?_cons, read_literal_eq_some.2 ⟨v, rfl, hpass⟩]
  | underscore =>
      have hnext := Cursor.next_of_passes hpass
      simp only [List.findSome?_cons, read_literal_eq_none (c := c) (by simp [hnext]),
        read_underscore_eq_some.2 ⟨rfl, hpass⟩]
  | name x =>
      have hnext := Cursor.next_of_passes hpass
      simp only [List.findSome?_cons, read_literal_eq_none (c := c) (by simp [hnext]),
        read_underscore_eq_none (c := c) (by simp [hnext]),
        read_variableName_eq_some.2 ⟨x, rfl, hpass⟩]
  | group htag hvalue =>
      have hnext := Cursor.next_of_passes hpass
      simp only [Token.enclosed, List.length_append, List.length_cons, List.length_nil] at hn
      simp only [List.findSome?_cons, read_literal_eq_none (c := c) (by simp [hnext]),
        read_underscore_eq_none (c := c) (by simp [hnext]),
        read_variableName_eq_none (c := c) (by simp [hnext]),
        takes_group hsound hterm htag hvalue (by omega) (by omega) hpass trivial]
  | parens ht =>
      have hnext := Cursor.next_of_passes hpass
      simp only [Token.enclosed, List.length_append, List.length_cons, List.length_nil] at hn
      have hread := takes_between
        (hterm (by omega) ht) stops_rightParen hpass trivial
      simp only [List.findSome?_cons, read_literal_eq_none (c := c) (by simp [hnext]),
        read_underscore_eq_none (c := c) (by simp [hnext]),
        read_variableName_eq_none (c := c) (by simp [hnext]),
        read_group_eq_none (c := c) (by simp [hnext]), inParens, hread]

/-- The calls behind an application are folded onto its tree. -/
theorem read_apply_of_isApply {ts : List Token} {t : Term} (h : IsApply ts t) (hn : ts.length ≤ n)
    {c c' : Cursor Token} (hpass : c.Passes ts c') :
    (apply term).read c = ((repeated (inParens (termList term))).read c').map fun r =>
      (r.1.foldl (fun f xs => .node (.apply f xs)) t, r.2) := by
  cases h with
  | atom h =>
      unfold apply
      rw [read_bind_of_read (takes_atom hsound hterm h hn hpass trivial), read_bind]
      cases (repeated (inParens (termList term))).read c' <;> rfl
  | call hf hxs =>
      obtain ⟨c₁, h₁, h₂⟩ := Cursor.passes_append.1 hpass
      simp only [Token.enclosed, List.length_append, List.length_cons, List.length_nil] at hn
      have hcall := takes_inParens hsound hterm hxs (by omega) h₂ trivial
      rw [read_apply_of_isApply hf (by omega) h₁,
        read_repeated_of_some (progresses_inParens hsound) hcall, Option.map_map]
      rfl

theorem takes_apply {ts : List Token} {t : Term} (h : IsApply ts t) (hn : ts.length ≤ n) :
    (apply term).Takes Stops ts t := by
  intro c c' hpass hstops
  have hend : (inParens (termList term)).read c' = none := read_between_eq_none (hstops.ne rfl)
  rw [read_apply_of_isApply hsound hterm h hn hpass, read_repeated_of_none hend]
  rfl

theorem takes_lambda {ps bs : List Token} {parameters : List Term} {body : Term}
    (hps : SepBy IsApply (.symbol .comma) ps parameters) (hbs : IsTerm bs body)
    (hn : ps.length + bs.length < n) :
    (lambda term).Takes Stops (.lambda :: (ps ++ .symbol .dot :: bs))
      (.node (.lambda parameters body)) := by
  intro c c' hpass hstops
  obtain ⟨c₁, h₁, hrest⟩ := Cursor.passes_cons.1 hpass
  obtain ⟨c₂, h₂, hrest⟩ := Cursor.passes_append.1 hrest
  obtain ⟨c₃, h₃, h₄⟩ := Cursor.passes_cons.1 hrest
  have hrow : SepBy ((apply term).Takes Stops) (.symbol .comma) ps parameters :=
    hps.imp fun _ _ hle ht => takes_apply hsound hterm ht (by omega)
  have happly : (apply term).Sound IsTerm := fun _ _ _ hr => by
    obtain ⟨ts, hts, ht⟩ := sound_apply hsound hr
    exact ⟨ts, hts, .apply ht⟩
  have hdot : c₂.next = some (.symbol .dot) := Cursor.next_of_passes h₃
  have hparameters := takes_sepBy (progresses_of_sound happly) stops_comma hrow h₂
    ⟨hdot ▸ stops_dot, by simp [hdot], fun d hd => refuses_of_sound happly (hdot ▸ stops_dot) d hd⟩
  unfold lambda symbol
  rw [read_labelled, read_bind_of_read (read_just_of_passes h₁), read_bind_of_read hparameters,
    read_bind_of_read (read_just_of_passes h₃), read_bind_of_read (hterm (by omega) hbs h₄ hstops),
    read_pure]

theorem takes_termOver {ts : List Token} {t : Term} (h : IsTerm ts t) (hn : ts.length ≤ n) :
    (termOver term).Takes Stops ts t := by
  intro c c' hpass hstops
  unfold termOver
  rw [read_firstOf]
  cases h with
  | lambda hps hbs =>
      simp only [List.length_cons, List.length_append] at hn
      simp only [List.findSome?_cons,
        takes_lambda hsound hterm hps hbs (by omega) hpass hstops]
  | assign hvs =>
      have hnext := Cursor.next_of_passes hpass
      simp only [List.length_cons] at hn
      simp only [List.findSome?_cons, read_lambda_eq_none (c := c) (by simp [hnext]),
        takes_assign (hterm (by omega) hvs) hpass hstops]
  | apply h =>
      obtain ⟨v, vs, rfl, -, hv⟩ := h.head
      have hnext := Cursor.next_of_passes hpass
      simp only [List.findSome?_cons, read_lambda_eq_none (c := c) (by simp [hnext, hv]),
        read_assign_eq_none h hpass hstops, takes_apply hsound hterm h hn hpass hstops]

end Takes

/-! ### Terms of any depth -/

theorem takes_nested : ∀ {n : Nat} {ts : List Token} {t : Term}, ts.length < n → IsTerm ts t →
    (nested termOver n).Takes Stops ts t
  | 0, _, _, hn, _ => absurd hn (by omega)
  | n + 1, _, _, hn, h => by
      rw [nested_succ]
      exact takes_termOver (sound_nested n) takes_nested h (by omega)

theorem takes_fix {ts : List Token} {t : Term} (h : IsTerm ts t) :
    (fix termOver).Takes Stops ts t := by
  intro c c' hpass hstops
  have hlen := Cursor.length_of_passes hpass
  rw [read_fix]
  exact takes_nested (by omega) h hpass hstops

end Redline.Term.Grammar
