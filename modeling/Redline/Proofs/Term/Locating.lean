import Redline.Proofs.Parsing.Locating
import Redline.Proofs.Term.Language

/-! # Where the parsers of terms fail

Each parser of the grammar locates where its language breaks off (`locates_atom`, `locates_apply`,
`locates_lambda`), with one restriction: an `=` may be passed only if a term stands behind it
(`Valued`).  The reason is the choice between assignments and applications, which both start with a
name (`locates_assign_or_apply`): where the value of an assignment is missing, its name is read as
an application, and how far the value could be read is forgotten.  By induction over the depth of
the nesting (`locates_nested`) the same holds of terms, and of the lists of them
(`locates_terms`). -/

namespace Redline.Term

open Parsing Parsing.Parser

namespace Grammar

/-- If an `=` is next, then a term stands behind it. -/
def Valued (c : Cursor Token) : Prop :=
  ∀ vs, c.values = .symbol .equal :: vs → ∃ us t, us <+: vs ∧ IsTerm us t

theorem valued_of_ne {c : Cursor Token} (h : c.next ≠ some (.symbol .equal)) : Valued c := by
  intro vs hvs
  rw [Cursor.next_eq_head?, hvs] at h
  exact absurd rfl h

theorem valued_of_next {v : Token} (hv : v ≠ .symbol .equal) {c : Cursor Token}
    (h : c.next = some v) : Valued c :=
  valued_of_ne fun hnext => hv (Option.some.inj (h.symm.trans hnext))

theorem valued_symbol {s : Symbol} (hs : s ≠ .equal) (c : Cursor Token)
    (h : c.next = some (.symbol s)) : Valued c :=
  valued_of_next (fun e => hs (Token.symbol.inj e)) h

theorem Valued.of_passes {c c₁ c₂ : Cursor Token} {us : List Token}
    (h : c.Passes [.symbol .equal] c₁) (hus : c₁.Passes us c₂) (ht : Derives IsTerm us) :
    Valued c := by
  intro vs hvs
  obtain ⟨t, ht⟩ := ht
  rw [Cursor.values_of_passes h, Cursor.values_of_passes hus] at hvs
  obtain rfl := (List.cons.inj hvs).2
  exact ⟨us, t, List.prefix_append _ _, ht⟩

/-! ### Single tokens -/

theorem locates_literal (n : Nat) :
    literal.Locates Valued (fun ts => ∃ v, ts = [.literal v]) n := by
  refine Locates.labelled (.congr (.select (fun c v hc hv => ?_) (v := .literal .unit) rfl n) ?_) _
  · exact valued_of_next (by rintro rfl; cases hv) hc
  · intro ts
    constructor
    · rintro ⟨v, rfl⟩
      exact ⟨_, rfl, rfl⟩
    · rintro ⟨v, rfl, hv⟩
      cases v <;> cases hv
      exact ⟨_, rfl⟩

theorem locates_identifier (n : Nat) :
    identifier.Locates Valued (fun ts => ∃ x, ts = [.name x]) n := by
  refine .congr (.select (fun c v hc hv => ?_) (v := .name "") rfl n) fun ts => ?_
  · exact valued_of_next (by rintro rfl; cases hv) hc
  · constructor
    · rintro ⟨x, rfl⟩
      exact ⟨_, rfl, rfl⟩
    · rintro ⟨v, rfl, hv⟩
      cases v <;> cases hv
      exact ⟨_, rfl⟩

theorem locates_just {t : Token} (ht : t ≠ .symbol .equal) (n : Nat) :
    (just t).Locates Valued (· = [t]) n := .just (fun _ => valued_of_next ht) n

theorem locates_underscore (n : Nat) : underscore.Locates Valued (· = [.underscore]) n :=
  ((locates_just (t := .underscore) (by decide) n).return _).labelled _

theorem locates_variableName (n : Nat) :
    variableName.Locates Valued (fun ts => ∃ x, ts = [.name x]) n :=
  ((locates_identifier n).return _).labelled _

/-! ### Over the parser of subterms -/

theorem locates_between {α : Type} {opening closing : Symbol} (hopening : opening ≠ .equal)
    (hclosing : closing ≠ .equal) {L : List Token → Prop} {p : Parser Token α} {n : Nat}
    (hp : p.Locates Valued L n) (hends : Ends L (.symbol closing)) {us : List Token} (hus : L us) :
    (between (.symbol opening) (.symbol closing) p).Locates Valued (Enclosed opening closing L)
      (n + 1) :=
  (Locates.between (valued_symbol hopening) (valued_symbol hclosing) hp hends hus).congr
    fun _ => enclosed_iff

section Over

variable {term : Parser Token Term} {n : Nat} (hterm : term.Locates Valued (Derives IsTerm) n)
  (hsound : term.Sound IsTerm)

include hterm

theorem locates_inParens : (inParens term).Locates Valued
    (Enclosed .leftParen .rightParen (Derives IsTerm)) (n + 1) :=
  locates_between (by decide) (by decide) hterm (ends_isTerm stops_rightParen) derives_name

include hsound

theorem locates_termList : (termList term).Locates Valued IsTermList n :=
  hterm.sepEndBy (valued_symbol (by decide)) hsound not_derives_nil (ends_isTerm stops_comma)
    derives_name

theorem locates_group : (group term).Locates Valued
    (Then (Enclosed .leftBracket .rightBracket IsTermList)
      (Enclosed .leftBrace .rightBrace (Derives IsTerm))) (n + 1) := by
  have hends : Ends IsTermList (.symbol .rightBracket) := ends_isTermList stops_rightBracket nofun
  have htag : (inBrackets (termList term)).Locates Valued
      (Enclosed .leftBracket .rightBracket IsTermList) (n + 1) :=
    locates_between (by decide) (by decide) (locates_termList hterm hsound) hends isTermList_nil
  have hvalue : (inBraces term).Locates Valued
      (Enclosed .leftBrace .rightBrace (Derives IsTerm)) (n + 1) :=
    locates_between (by decide) (by decide) hterm (ends_isTerm stops_rightBrace) derives_name
  refine (htag.bind (fun tag => hvalue.return _) ?_ ?_ ⟨_, rfl, derives_name⟩).labelled _
  · exact fun _ _ => Nat.le_add_right _ _
  · exact fun v _ => ends_enclosed hends v

theorem locates_atom : (atom term).Locates Valued (Derives IsAtom) (n + 1) := by
  have hliteral : Heads (fun ts => ∃ v, ts = [Token.literal v]) fun t => ∃ v, t = .literal v := by
    rintro _ ⟨v, rfl⟩
    exact ⟨_, [], rfl, v, rfl⟩
  have hname : Heads (fun ts => ∃ x, ts = [Token.name x]) fun t => ∃ x, t = .name x := by
    rintro _ ⟨x, rfl⟩
    exact ⟨_, [], rfl, x, rfl⟩
  have hgroup := (heads_enclosed .leftBracket .rightBracket IsTermList).then
    (M := Enclosed .leftBrace .rightBrace (Derives IsTerm))
  have hparens := heads_enclosed .leftParen .rightParen (Derives IsTerm)
  have hbrackets := (locates_group hterm hsound).orElse (locates_inParens hterm) hgroup hparens
    (by rintro _ rfl ⟨⟩)
  have hnames := (locates_variableName (n + 1)).orElse hbrackets hname (hgroup.or hparens)
    (by rintro _ ⟨x, rfl⟩ (h | h) <;> cases h)
  have hwords := (locates_underscore (n + 1)).orElse hnames (heads_single _)
    (hname.or (hgroup.or hparens)) (by rintro _ rfl (⟨x, h⟩ | h | h) <;> cases h)
  have hall := (locates_literal (n + 1)).orElse hwords hliteral
    ((heads_single _).or (hname.or (hgroup.or hparens)))
    (by rintro _ ⟨v, rfl⟩ (h | ⟨x, h⟩ | h | h) <;> cases h)
  exact hall.congr fun _ => derives_isAtom_iff

theorem locates_apply : (apply term).Locates Valued (Derives IsApply) (n + 1) := by
  have hends : Ends IsTermList (.symbol .rightParen) := ends_isTermList stops_rightParen nofun
  have harguments : (inParens (termList term)).Locates Valued
      (Enclosed .leftParen .rightParen IsTermList) (n + 1) :=
    locates_between (by decide) (by decide) (locates_termList hterm hsound) hends isTermList_nil
  have hcalls := harguments.repeated (fun h => (heads_enclosed _ _ _).ne_nil h rfl)
    fun v _ => ends_enclosed hends v
  refine .congr (.bind (locates_atom hterm hsound) (fun callee => hcalls.return _) ?_ ?_ .nil)
    fun _ => derives_isApply_iff
  · exact fun _ _ => Nat.le_add_right _ _
  · exact fun v _ => ends_isAtom v

theorem locates_lambda : (lambda term).Locates Valued
    (Then (· = [.lambda]) (Then (Derives (SepBy IsApply (.symbol .comma)))
      (Then (· = [.symbol .dot]) (Derives IsTerm)))) (n + 1) := by
  have hparameters := ((locates_apply hterm hsound).mono (Nat.le_succ n)).sepBy
    (valued_symbol (by decide)) (ends_isApply stops_comma) (derives_applyName "x")
  have hbody : ∀ f : Term → Term, (symbol .dot >>= fun _ => term >>= fun body =>
      Pure.pure (f body)).Locates Valued (Then (· = [.symbol .dot]) (Derives IsTerm)) n := fun f =>
    (locates_just (by decide) n).bind (fun _ => hterm.return f) (fun _ _ => Nat.le_add_right _ _)
      (fun v _ => ends_single _ v) derives_name
  have hdot : ∀ v, Starts (Then (· = [.symbol .dot]) (Derives IsTerm)) [v] →
      Ends (Derives (SepBy IsApply (.symbol .comma))) v := fun v hv =>
    (heads_single (Token.symbol .dot)).then.of_starts hv ▸ ends_parameters
  have hrest := hparameters.bind
    (fun parameters => hbody fun body => .node (.lambda parameters body))
    (fun _ _ => Nat.le_add_right _ _) hdot ⟨[.symbol .dot], _, rfl, rfl, derives_name⟩
  refine ((locates_just (t := .lambda) (by decide) (n + 1)).bind (fun _ => hrest) ?_
    (fun v _ => ends_single _ v) ⟨[], _, rfl, ⟨[], .none⟩, _, _, rfl, rfl, derives_name⟩).labelled _
  rintro _ rfl
  exact Nat.le_refl _

/-! ### Assignments

An assignment that lacks its value is given up for the application that its name is, and what was
met in the value is forgotten.  The parser of assignments alone does not locate where they break
off, unless a value stands behind the `=`. -/

omit hterm in
theorem isAssign_of_read {c c' : Cursor Token} {t : Term}
    (h : (assign term).read c = some (t, c')) : ∃ ts, c.Passes ts c' ∧ IsAssign ts := by
  unfold assign symbol at h
  simp only [read_labelled, read_bind_eq_some, read_identifier_eq_some, read_just_eq_some,
    read_pure] at h
  obtain ⟨x, c₁, h₁, _, c₂, ⟨-, h₂⟩, value, c₃, hvalue, hp⟩ := h
  cases hp
  obtain ⟨vs, h₃, hvs⟩ := hsound hvalue
  exact ⟨_, Cursor.passes_cons.2 ⟨c₁, h₁, Cursor.passes_cons.2 ⟨c₂, h₂, h₃⟩⟩, x, vs, rfl, _, hvs⟩

omit hsound in
theorem locates_assign_run {c : Cursor Token} (hc : c.rest.length < n + 1)
    (hvalue : ∀ x c₁, c.Passes [.name x] c₁ → Valued c₁) :
    ((assign term).run c).Locates Valued IsAssign c := by
  have hassign : IsAssign = Then (fun ts => ∃ x, ts = [.name x])
      (Then (· = [.symbol .equal]) (Derives IsTerm)) := funext fun ts => propext isAssign_iff
  rw [hassign]
  refine locates_labelled_run (locates_bind_run (locates_identifier (n + 1) c hc) ?_ ?_
    ⟨[.symbol .equal], _, rfl, rfl, derives_name⟩) _
  · rintro x c₁ _ hname ⟨y, rfl⟩
    refine locates_bind_run (locates_just_run fun _ => hvalue y c₁ hname) ?_
      (fun v _ => ends_single _ v) derives_name
    intro _ c₂ _ hequal _
    have := Cursor.length_of_passes hname
    have := Cursor.length_of_passes hequal
    rw [List.length_singleton] at *
    exact locates_return_run (hterm c₂ (by omega)) _
  · rintro v - _ ws ⟨x, rfl⟩ ⟨y, h⟩
    cases h

omit hsound in
/-- Where an assignment stands ahead, its value does. -/
theorem locates_assign_of_passes {c d : Cursor Token} (hc : c.rest.length < n + 1)
    {us : List Token} (hd : c.Passes us d) (hus : IsAssign us) :
    ((assign term).run c).Locates Valued IsAssign c := by
  obtain ⟨x, vs, rfl, hvs⟩ := hus
  obtain ⟨e, hname, hd⟩ := Cursor.passes_cons.1 hd
  obtain ⟨e', hequal, hd⟩ := Cursor.passes_cons.1 hd
  refine locates_assign_run hterm hc fun y c₁ hc₁ => ?_
  have hnext := (Cursor.next_of_passes hname).symm.trans (Cursor.next_of_passes hc₁)
  rw [Option.some.inj hnext] at hname
  obtain rfl := Cursor.passes_unique hname hc₁
  exact .of_passes hequal hd hvs

omit hterm hsound in
/-- Where an assignment stands ahead, no application goes on behind its name. -/
theorem index_le_of_isAssign {c d d' : Cursor Token} {us vs : List Token} (hvs : c.Passes vs d)
    (hmem : IsAssign vs) (hus : c.Passes us d') (hstarts : Starts (Derives IsApply) us) :
    d'.index ≤ d.index := by
  obtain ⟨x, ws, rfl, -⟩ := hmem
  have hlength : us.length ≤ 1 := by
    rcases us with _ | ⟨u, _ | ⟨v, us⟩⟩
    · exact Nat.zero_le 1
    · exact Nat.le_refl 1
    · have hvalues := (Cursor.values_of_passes hus).symm.trans (Cursor.values_of_passes hvs)
      obtain ⟨rfl, hrest⟩ := List.cons.inj hvalues
      obtain ⟨rfl, -⟩ := List.cons.inj hrest
      exact absurd hstarts not_starts_isApply
  rw [Cursor.index_of_passes hus, Cursor.index_of_passes hvs, List.length_cons]
  omega

omit hterm hsound in
/-- Where an application stands ahead but no assignment, no assignment goes on behind its name: the
`=` could be passed only in front of a value. -/
theorem index_le_of_isApply {c d d' : Cursor Token} {us vs : List Token} (hvs : c.Passes vs d)
    (hmem : Derives IsApply vs)
    (hrefuses : ∀ {us : List Token} {d : Cursor Token}, c.Passes us d → ¬ IsAssign us)
    (hreach : c.Reaches Valued IsAssign us d') : d'.index ≤ d.index := by
  have hlength : us.length ≤ 1 := by
    rcases us with _ | ⟨u, _ | ⟨v, us⟩⟩
    · exact Nat.zero_le 1
    · exact Nat.le_refl 1
    · obtain ⟨⟨x, rfl⟩, rfl⟩ := exists_name_of_starts hreach.starts
      obtain ⟨d₁, -, hname, d₂, hvalued, hequal, -⟩ := hreach.advances
      obtain ⟨ts, t, ⟨rest, hrest⟩, ht⟩ := hvalued _ (Cursor.values_of_passes hequal)
      obtain ⟨e, he, -⟩ := Cursor.exists_passes ts hrest.symm
      exact absurd ⟨x, ts, rfl, t, ht⟩ (hrefuses
        (Cursor.passes_cons.2 ⟨d₁, hname, Cursor.passes_cons.2 ⟨d₂, hequal, he⟩⟩))
  obtain ⟨t, ht⟩ := hmem
  obtain ⟨v, vs, rfl, -⟩ := ht.head
  rw [Cursor.index_of_passes hreach.passes, Cursor.index_of_passes hvs, List.length_cons]
  omega

theorem locates_assign_or_apply : (assign term <|> apply term).Locates Valued
    (fun ts => IsAssign ts ∨ Derives IsApply ts) (n + 1) := by
  intro c hc
  have happly := locates_apply hterm hsound c hc
  cases hr : (assign term).run c with
  | ok t c₁ met =>
      have hread : (assign term).read c = some (t, c₁) := by rw [Parser.read, hr]
      obtain ⟨vs, hvs, hmem⟩ := isAssign_of_read hsound hread
      have hok := locates_assign_of_passes hterm hc hvs hmem
      rw [hr] at hok
      rw [run_orElse_of_ok hr]
      refine Succeeds.or_left hok fun {us d} hd hstarts => ?_
      exact index_le_of_isAssign hvs hmem hd hstarts
  | error f =>
      have hrefuses : ∀ {us : List Token} {d : Cursor Token}, c.Passes us d → ¬ IsAssign us := by
        intro us d hd hus
        have herror := locates_assign_of_passes hterm hc hd hus
        rw [hr] at herror
        exact herror.refuses hd hus
      cases hr' : (apply term).run c with
      | ok t c₁ met =>
          rw [hr'] at happly
          rw [run_orElse_of_second hr hr']
          refine Succeeds.or_right hrefuses happly fun {us d} hreach => ?_
          obtain ⟨vs, hvs, hmem⟩ := happly.reads
          exact index_le_of_isApply hvs.passes hmem hrefuses hreach
      | error g =>
          rw [hr'] at happly
          have hassign := locates_assign_run hterm hc fun x c₁ hc₁ =>
            absurd (derives_applyName x) (happly.refuses hc₁)
          rw [hr] at hassign
          rw [run_orElse_of_errors hr hr']
          exact Fails.or hassign happly

theorem locates_termOver : (termOver term).Locates Valued (Derives IsTerm) (n + 1) := by
  have hother : Heads (fun ts => IsAssign ts ∨ Derives IsApply ts) (· ≠ .lambda) := by
    rintro _ (⟨x, vs, rfl, -⟩ | ⟨t, ht⟩)
    · exact ⟨_, _, rfl, nofun⟩
    · obtain ⟨v, vs, rfl, -, hv⟩ := ht.head
      exact ⟨v, vs, rfl, hv⟩
  have hall := (locates_lambda hterm hsound).orElse (locates_assign_or_apply hterm hsound)
    (heads_single _).then hother fun v hv hne => hne hv
  exact hall.congr fun _ => derives_isTerm_iff

end Over

/-! ### Terms of any depth -/

theorem locates_nested : ∀ n, (nested termOver n).Locates Valued (Derives IsTerm) n
  | 0 => fun _ hc => absurd hc (Nat.not_lt_zero _)
  | n + 1 => by
      rw [nested_succ]
      exact locates_termOver (locates_nested n) (sound_nested n)

theorem locates_fix (n : Nat) : (fix termOver).Locates Valued (Derives IsTerm) n :=
  fun c _ => locates_nested _ c (Nat.lt_succ_self _)

/-- A term that is read with its span. -/
theorem derives_spanned_iff {ts : List Token} :
    Derives (fun ts (x : Spanned Term) => IsTerm ts x.value) ts ↔ Derives IsTerm ts :=
  ⟨fun ⟨x, hx⟩ => ⟨x.value, hx⟩, fun ⟨t, ht⟩ => ⟨⟨⟨0, 0⟩, t⟩, ht⟩⟩

theorem sound_term : term.Sound fun ts x => IsTerm ts x.value := by
  intro c x c' hr
  exact sound_fix (read_term_eq_some.1 hr).1

theorem locates_term (n : Nat) : term.Locates Valued (Derives IsTerm) n :=
  ((locates_fix n).labelled _).spanned

theorem locates_terms (n : Nat) : terms.Locates Valued (Derives IsSource) n := by
  have hterm := (locates_term n).congr fun _ => derives_spanned_iff
  have hends : Ends _ (Token.symbol .semicolon) :=
    (ends_isTerm stops_semicolon).congr fun _ => derives_spanned_iff
  refine .congr (hterm.sepEndBy (valued_symbol (by decide)) sound_term ?_ hends
    (derives_spanned_iff.2 derives_name)) fun _ => ?_
  · exact fun h => not_derives_nil (derives_spanned_iff.1 h)
  · exact (derives_sepEndBy_congr fun _ => derives_spanned_iff).symm

/-- Where places have been passed, a term stands behind each `=`. -/
theorem exists_value_of_advances {c c' : Cursor Token} {us vs : List Token}
    (h : c.Advances Valued us c') {j : Nat} (hj : j < us.length)
    (hvs : c.values.drop j = .symbol .equal :: vs) : ∃ ws t, ws <+: vs ∧ IsTerm ws t := by
  have hsplit : c.Advances Valued (us.take j ++ us.drop j) c' := by rwa [List.take_append_drop]
  obtain ⟨d, hd, hrest⟩ := Cursor.advances_append.1 hsplit
  have hlength : (us.take j).length = j := by
    rw [List.length_take]
    omega
  have hvalues : d.values = c.values.drop j := by
    rw [Cursor.values_of_passes hd.passes, List.drop_left' hlength]
  rw [List.drop_eq_getElem_cons hj] at hrest
  obtain ⟨e, hvalued, -⟩ := hrest
  exact hvalued vs (hvalues.trans hvs)

end Grammar

end Redline.Term
