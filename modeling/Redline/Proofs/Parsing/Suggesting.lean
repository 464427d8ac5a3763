import Redline.Proofs.Parsing.Locating

/-! # What parsers suggest

A failure suggests the items that it expects.  They come from alternatives that have been given up,
and failures of several alternatives are told together when they happen to be met at the same place.
All of them can go on there nevertheless: `p.Suggests S L` says that `p` reads members of `L`, and
that each item expected in a failure belongs to `S` and together with the items before it starts a
member of `L` (`Continues`).

Unlike the place of a failure (`Locates`), this is kept by combinators no matter how their parts
start and end: in a sequence, a suggestion of the first part is completed by any member of the
second (`Suggests.bind`), and in a choice it need not be completed by more than the alternative that
it comes from (`Suggests.orElse`).  Whole inputs suggest their end as well, where the items before
it are a member (`Suggests.parse`). -/

namespace Redline.Parsing

variable {σ α β : Type} {S : σ → Prop} {L M : List σ → Prop}

theorem Cursor.eq_of_index_eq {c d d' : Cursor σ} {us vs : List σ} (hd : c.Passes us d)
    (hd' : c.Passes vs d') (h : d.index = d'.index) : us = vs ∧ d = d' := by
  obtain ⟨ws, rfl, hws⟩ := passes_of_index_le hd hd' (Nat.le_of_eq h)
  have hindex := index_of_passes hws
  obtain rfl : ws = [] := List.length_eq_zero_iff.1 (by omega)
  exact ⟨(List.append_nil us).symm, hws.symm⟩

/-- Behind `us`, an item of `S` with which a member of `L` goes on. -/
def Continues (S : σ → Prop) (L : List σ → Prop) (us : List σ) (e : Option σ) : Prop :=
  ∃ x, e = some x ∧ S x ∧ Starts L (us ++ [x])

/-- Such an item, or the end of the input if `us` are a member. -/
def Completes (S : σ → Prop) (L : List σ → Prop) (us : List σ) (e : Option σ) : Prop :=
  Continues S L us e ∨ e = none ∧ L us

theorem Continues.mono {us : List σ} {e : Option σ} (h : Continues S L us e)
    (hLM : ∀ us, L us → M us) : Continues S M us e := by
  obtain ⟨x, rfl, hS, hstarts⟩ := h
  exact ⟨x, rfl, hS, hstarts.mono hLM⟩

theorem Continues.then_left {us : List σ} {e : Option σ} (h : Continues S L us e) {ws : List σ}
    (hws : M ws) : Continues S (Then L M) us e := by
  obtain ⟨x, rfl, hS, vs, hvs⟩ := h
  exact ⟨x, rfl, hS, vs ++ ws, _, ws, (List.append_assoc _ _ _).symm, hvs, hws⟩

theorem Continues.then_right {vs us : List σ} {e : Option σ} (hvs : L vs)
    (h : Continues S M us e) : Continues S (Then L M) (vs ++ us) e := by
  obtain ⟨x, rfl, hS, ws, hws⟩ := h
  refine ⟨x, rfl, hS, ws, vs, _, ?_, hvs, hws⟩
  simp only [List.append_assoc]

/-! ### Failures -/

namespace Failure

/-- The failure is met behind some `us`, the item there is not expected, and what is expected
satisfies `E us`. -/
def Suggests (E : List σ → Option σ → Prop) (c : Cursor σ) (f : Failure σ) : Prop :=
  ∃ us c', c.Passes us c' ∧ f.At c' ∧ f.problem.found ∉ f.problem.expected ∧
    ∀ e ∈ f.problem.expected, E us e

variable {c : Cursor σ} {f g : Failure σ} {E F : List σ → Option σ → Prop}

/-- Nothing is suggested where nothing is expected. -/
theorem suggests_nothing (c : Cursor σ) : (c.unexpected []).Suggests E c :=
  ⟨[], c, rfl, at_unexpected c [], List.not_mem_nil, nofun⟩

/-- The one thing expected behind `us` is suggested if it is not there. -/
theorem suggests_of_ne {c' : Cursor σ} {us : List σ} {e : Option σ} (hpass : c.Passes us c')
    (hne : c'.next ≠ e) (he : E us e) : (c'.unexpected [e]).Suggests E c := by
  refine ⟨us, c', hpass, at_unexpected c' [e], ?_, ?_⟩
  · rwa [Cursor.unexpected, List.mem_singleton]
  · rintro _ hmem
    obtain rfl := List.mem_singleton.1 hmem
    exact he

theorem Suggests.imp (h : f.Suggests E c) (hEF : ∀ us e, E us e → F us e) : f.Suggests F c := by
  obtain ⟨us, c', hpass, hat, hfound, he⟩ := h
  exact ⟨us, c', hpass, hat, hfound, fun e hmem => hEF us e (he e hmem)⟩

theorem Suggests.behind {d : Cursor σ} {vs : List σ} (hpass : c.Passes vs d) (h : f.Suggests E d)
    (hEF : ∀ us e, E us e → F (vs ++ us) e) : f.Suggests F c := by
  obtain ⟨us, c', hus, hat, hfound, he⟩ := h
  exact ⟨vs ++ us, c', Cursor.passes_append.2 ⟨d, hpass, hus⟩, hat, hfound,
    fun e hmem => hEF us e (he e hmem)⟩

theorem Suggests.labelled (h : f.Suggests E c) (label : String) :
    (f.labelled label).Suggests E c := by
  obtain ⟨us, c', hpass, ⟨hindex, hspan, hreason, hnext⟩, hfound, he⟩ := h
  exact ⟨us, c', hpass, ⟨hindex, hspan, hreason, hnext⟩, hfound, he⟩

/-- Failures that are told together are met behind the same values and at the same item. -/
theorem Suggests.further (hf : f.Suggests E c) (hg : g.Suggests E c) :
    (f.further g).Suggests E c := by
  unfold Failure.further
  split
  · exact hg
  · split
    · exact hf
    · obtain ⟨us, c₁, hus, hat, hfound, he⟩ := hf
      obtain ⟨vs, c₂, hvs, hat', hfound', he'⟩ := hg
      have hindex : c₁.index = c₂.index := by
        rw [← hat.index, ← hat'.index]
        omega
      obtain ⟨rfl, rfl⟩ := Cursor.eq_of_index_eq hus hvs hindex
      refine ⟨us, c₁, hus, ⟨hat.index, hat.span, hat.reason, hat.found⟩, fun hmem => ?_,
        fun e hmem => ?_⟩
      · rcases List.mem_append.1 hmem with hmem | hmem
        · exact hfound hmem
        · rw [hat.found, ← hat'.found] at hmem
          exact hfound' hmem
      · rcases List.mem_append.1 hmem with hmem | hmem
        · exact he e hmem
        · exact he' e hmem

end Failure

/-! ### Replies -/

/-- On a success, a member of `L` has been read; all failures suggest items of `S` with which a
member goes on. -/
def Reply.Suggests (S : σ → Prop) (L : List σ → Prop) (c : Cursor σ) : Reply σ α → Prop
  | .ok _ c' met =>
      (∃ vs, c.Passes vs c' ∧ L vs) ∧ ∀ f ∈ met, f.Suggests (Continues S L) c
  | .error f => f.Suggests (Continues S L) c

theorem Reply.Suggests.mono {r : Reply σ α} {c : Cursor σ} (h : r.Suggests S L c)
    (hLM : ∀ us, L us → M us) : r.Suggests S M c := by
  have hfailure : ∀ {f : Failure σ}, f.Suggests (Continues S L) c → f.Suggests (Continues S M) c :=
    fun hf => hf.imp fun _ _ he => he.mono hLM
  cases r with
  | ok a c' met =>
      obtain ⟨⟨vs, hvs, hL⟩, hmet⟩ := h
      exact ⟨⟨vs, hvs, hLM vs hL⟩, fun f hf => hfailure (hmet f hf)⟩
  | error f => exact hfailure h

namespace Parser

def Suggests (p : Parser σ α) (S : σ → Prop) (L : List σ → Prop) : Prop :=
  ∀ c, (p.run c).Suggests S L c

theorem Suggests.congr {p : Parser σ α} (h : p.Suggests S L) (hLM : ∀ us, M us ↔ L us) :
    p.Suggests S M := fun c => (h c).mono fun us => (hLM us).2

theorem suggests_fail : (fail : Parser σ α).Suggests S L := fun c => Failure.suggests_nothing c

/-! ### Single items -/

theorem Suggests.select (f : σ → Option α) :
    (select f).Suggests S (Single fun v => (f v).isSome) := by
  intro c
  unfold Parser.select item
  cases hrest : c.rest with
  | nil => simp only [hrest]; exact Failure.suggests_nothing c
  | cons x xs =>
      cases hx : f x.value with
      | none => simp only [hrest, hx]; exact Failure.suggests_nothing c
      | some a =>
          simp only [hrest, hx]
          have hsome : (f x.value).isSome := by rw [hx]; rfl
          exact ⟨⟨[x.value], ⟨x, xs, hrest, rfl, rfl⟩, x.value, rfl, hsome⟩, nofun⟩

theorem Suggests.just [DecidableEq σ] {x : σ} (hx : S x) : (just x).Suggests S (· = [x]) := by
  intro c
  rcases Decidable.em (c.next = some x) with hnext | hnext
  · obtain ⟨c', hc'⟩ := Cursor.exists_passes_of_next hnext
    rw [run_just_of_passes hc']
    exact ⟨⟨[x], hc', rfl⟩, nofun⟩
  · rw [run_just_of_ne hnext]
    have hhere : c.Passes [] c := rfl
    exact Failure.suggests_of_ne hhere hnext ⟨x, rfl, hx, .of_mem rfl⟩

/-! ### Names, places and results -/

theorem Suggests.labelled {p : Parser σ α} (h : p.Suggests S L) (label : String) :
    (labelled label p).Suggests S L := by
  intro c
  have h := h c
  unfold Parser.labelled
  simp only
  cases hr : p.run c with
  | ok a c' met => rwa [hr] at h
  | error f =>
      rw [hr] at h
      exact Failure.Suggests.labelled h label

theorem Suggests.spanned {p : Parser σ α} (h : p.Suggests S L) : (spanned p).Suggests S L := by
  intro c
  have h := h c
  unfold Parser.spanned
  simp only
  cases hr : p.run c with
  | ok a c' met => rwa [hr] at h
  | error f => rwa [hr] at h

theorem Suggests.return {p : Parser σ α} (h : p.Suggests S L) (f : α → β) :
    (p >>= fun a => Pure.pure (f a)).Suggests S L := by
  intro c
  have h := h c
  cases hr : p.run c with
  | error f =>
      rw [run_bind_of_error hr]
      rwa [hr] at h
  | ok a c' met =>
      rw [run_return_of_ok hr]
      rwa [hr] at h

/-! ### Sequences -/

/-- What the first part suggests is completed by any member of the second. -/
theorem Suggests.bind {p : Parser σ α} {f : α → Parser σ β} (hp : p.Suggests S L)
    (hf : ∀ a, (f a).Suggests S M) {ws : List σ} (hws : M ws) :
    (p >>= f).Suggests S (Then L M) := by
  intro c
  have hp := hp c
  cases hr : p.run c with
  | error g =>
      rw [hr] at hp
      rw [run_bind_of_error hr]
      exact hp.imp fun _ _ he => he.then_left hws
  | ok a c₁ met₁ =>
      rw [hr] at hp
      obtain ⟨⟨vs, hvs, hL⟩, hmet₁⟩ := hp
      have hfirst : ∀ g ∈ met₁, g.Suggests (Continues S (Then L M)) c := fun g hg =>
        (hmet₁ g hg).imp fun _ _ he => he.then_left hws
      have hsecond : ∀ {g : Failure σ}, g.Suggests (Continues S M) c₁ →
          g.Suggests (Continues S (Then L M)) c :=
        fun hg => hg.behind hvs fun _ _ he => he.then_right hL
      have hf := hf a c₁
      cases hr' : (f a).run c₁ with
      | error g =>
          rw [hr'] at hf
          rw [run_bind_of_later_error hr hr']
          exact Failure.orEarlier_of_further (fun _ _ => .further) (hsecond hf) hfirst
      | ok b c₂ met₂ =>
          rw [hr'] at hf
          rw [run_bind_of_ok hr hr']
          obtain ⟨⟨us, hus, hM⟩, hmet₂⟩ := hf
          refine ⟨⟨vs ++ us, Cursor.passes_append.2 ⟨c₁, hvs, hus⟩, vs, us, rfl, hL, hM⟩, ?_⟩
          exact Failure.latest_of_further (fun _ _ => .further) hfirst fun g hg =>
            hsecond (hmet₂ g hg)

theorem Suggests.between [DecidableEq σ] {opening closing : σ} (hopening : S opening)
    (hclosing : S closing) {p : Parser σ α} (hp : p.Suggests S L) {us : List σ} (hus : L us) :
    (between opening closing p).Suggests S (Then (· = [opening]) (Then L (· = [closing]))) :=
  (Suggests.just hopening).bind
    (fun _ => hp.bind (fun a => (Suggests.just hclosing).return fun _ => a) rfl)
    ⟨us, [closing], rfl, hus, rfl⟩

/-! ### Alternatives -/

theorem Suggests.orElse {p q : Parser σ α} (hp : p.Suggests S L) (hq : q.Suggests S M) :
    (p <|> q).Suggests S (fun us => L us ∨ M us) := by
  intro c
  have hp := hp c
  have hq := hq c
  cases hr : p.run c with
  | ok a c₁ met =>
      rw [hr] at hp
      rw [run_orElse_of_ok hr]
      exact hp.mono fun _ => .inl
  | error f =>
      rw [hr] at hp
      cases hr' : q.run c with
      | ok b c₁ met =>
          rw [hr'] at hq
          rw [run_orElse_of_second hr hr']
          exact hq.mono fun _ => .inr
      | error g =>
          rw [hr'] at hq
          rw [run_orElse_of_errors hr hr']
          exact Failure.Suggests.further (hq.imp fun _ _ he => he.mono fun _ => .inr)
            (hp.imp fun _ _ he => he.mono fun _ => .inl)

/-! ### Repetitions -/

/-- An item with more behind it, or nothing. -/
theorem Suggests.optional {p : Parser σ α} {f : Option α → Parser σ β} {b : β}
    (hnone : f none = Pure.pure b) (hp : p.Suggests S L)
    (hf : ∀ a, (f (some a)).Suggests S M) {ws : List σ} (hws : M ws) :
    (optional p >>= f).Suggests S (fun us => us = [] ∨ Then L M us) := by
  intro c
  have hbind := hp.bind hf hws c
  have hp := hp c
  cases hr : p.run c with
  | error g =>
      rw [hr] at hp
      rw [run_optional_bind_of_error hnone hr]
      refine ⟨⟨[], rfl, .inl rfl⟩, ?_⟩
      rintro _ ⟨⟩
      exact hp.imp fun _ _ he => (he.then_left hws).mono fun _ => .inr
  | ok a c₁ met =>
      rw [run_optional_bind_of_ok hr]
      exact hbind.mono fun _ => .inr

theorem Suggests.upTo {p : Parser σ α} (hp : p.Suggests S L) : ∀ n, (upTo p n).Suggests S (Many L)
  | 0 => fun _ => ⟨⟨[], rfl, .nil⟩, nofun⟩
  | n + 1 => by
      refine Suggests.congr ?_ fun _ => many_iff
      exact .optional (b := []) rfl hp (fun a => (hp.upTo n).return (a :: ·)) .nil

theorem Suggests.repeated {p : Parser σ α} (hp : p.Suggests S L) :
    (repeated p).Suggests S (Many L) := fun c => hp.upTo (c.rest.length + 1) c

section Separators

variable [DecidableEq σ] {x : σ} {p : Parser σ α} {P : List σ → α → Prop}
  (hp : p.Suggests S (Derives P)) (hx : S x) {us : List σ} (hus : Derives P us)

include hp hx hus

theorem Suggests.sepBy : (sepBy p (Parser.just x)).Suggests S (Derives (SepBy P x)) := by
  refine Suggests.congr ?_ fun _ => derives_sepBy_iff
  refine .optional (b := []) rfl hp (fun a => Suggests.return ?_ (a :: ·)) .nil
  exact ((Suggests.just hx).bind (fun _ => hp) hus).repeated

/-- Behind a row that is not empty, another separator can always be read. -/
theorem Suggests.sepEndBy (hsound : p.Sound P) :
    (sepEndBy p (Parser.just x)).Suggests S (Derives (SepEndBy P x)) := by
  intro c
  have hrow := (Suggests.sepBy hp hx hus c).mono fun _ h => derives_sepEndBy_iff.2 (.inl h)
  cases hr : (Parser.sepBy p (Parser.just x)).run c with
  | error f =>
      have hrun : (Parser.sepEndBy p (Parser.just x)).run c = .error f := run_bind_of_error hr
      rw [hr] at hrow
      rwa [hrun]
  | ok as c₁ met =>
      rw [hr] at hrow
      rcases run_sepEndBy_cases hsound hr with ⟨-, -, hrun⟩ | ⟨vs, hvs, has, hsep⟩
      · rwa [hrun]
      · have htrailing : Derives (SepEndBy P x) (vs ++ [x]) := ⟨as, .trailing has⟩
        rcases hsep with ⟨c₂, hsep, hrun⟩ | ⟨hsep, hrun⟩
        · rw [hrun]
          exact ⟨⟨vs ++ [x], Cursor.passes_append.2 ⟨c₁, hvs, hsep⟩, htrailing⟩, hrow.2⟩
        · rw [hrun]
          refine ⟨hrow.1, Failure.latest_of_further (fun _ _ => .further) hrow.2 ?_⟩
          rintro _ ⟨⟩
          exact Failure.suggests_of_ne hvs hsep ⟨x, rfl, hx, .of_mem htrailing⟩

end Separators

/-! ### Whole inputs -/

/-- Where the input should have ended, a member has been read. -/
theorem Suggests.whole {p : Parser σ α} (hp : p.Suggests S L) {c : Cursor σ} {f : Failure σ}
    (hr : p.whole.run c = .error f) : f.Suggests (Completes S L) c := by
  have hp := hp c
  rcases failure_of_whole hr with hrun | ⟨a, c₁, met, hrun, hnext, rfl⟩
  · rw [hrun] at hp
    exact hp.imp fun _ _ => .inl
  · rw [hrun] at hp
    obtain ⟨⟨vs, hvs, hL⟩, hmet⟩ := hp
    exact Failure.orEarlier_of_further (fun _ _ => .further)
      (Failure.suggests_of_ne hvs hnext (.inr ⟨rfl, hL⟩))
      fun g hg => (hmet g hg).imp fun _ _ => .inl

theorem Suggests.parse {p : Parser σ α} (hp : p.Suggests S L) {items : List (Spanned σ)}
    {atEnd : Span} {problem : Problem σ} (hr : p.parse items atEnd = .error problem) :
    ∃ f : Failure σ, f.problem = problem ∧ f.Suggests (Completes S L) (.ofItems items atEnd) := by
  obtain ⟨f, hf, hrun⟩ := exists_failure_of_parse hr
  exact ⟨f, hf, hp.whole hrun⟩

end Parser

end Redline.Parsing
