import Redline.Proofs.Parsing.Reading

/-! # What parsers tell

The other side of a reply are its failures.  `p.Tells T` says that `p` goes only forwards and that
each failure `f` it meets on the way from a place `c`, or fails with, satisfies `T c f`.  It is kept
by all combinators for a `T` that holds of the failures at unexpected items and does not mind what
combinators do with failures (`Failure.Settled`): telling them from a place further back, choosing
the furthest one, adding to what is expected and naming what was being read. -/

namespace Redline.Parsing

variable {σ α β : Type}

/-- Properties of the failures met behind a place that combinators keep. -/
class Failure.Settled (T : Cursor σ → Failure σ → Prop) : Prop where
  unexpected : ∀ (c : Cursor σ) (expected : List (Option σ)), T c (c.unexpected expected)
  behind : ∀ {c c' : Cursor σ} {vs : List σ} {f : Failure σ}, c.Passes vs c' → T c' f → T c f
  further : ∀ {c : Cursor σ} {f g : Failure σ}, T c f → T c g → T c (f.further g)
  labelled : ∀ {c : Cursor σ} {f : Failure σ} (label : String), T c f → T c (f.labelled label)

/-- The reply at `c` is behind `c`, and its failures satisfy `T`. -/
def Reply.Told (T : Cursor σ → Failure σ → Prop) (c : Cursor σ) : Reply σ α → Prop
  | .ok _ c' met => (∃ vs, c.Passes vs c') ∧ ∀ f, met = some f → T c f
  | .error f => T c f

namespace Parser

def Tells (p : Parser σ α) (T : Cursor σ → Failure σ → Prop) : Prop := ∀ c, (p.run c).Told T c

variable {T : Cursor σ → Failure σ → Prop}

theorem Tells.pure (a : α) : (pure a : Parser σ α).Tells T := fun _ => ⟨⟨[], rfl⟩, nofun⟩

theorem Tells.optional {p : Parser σ α} (hp : p.Tells T) : (optional p).Tells T := by
  intro c
  have hp := hp c
  unfold Parser.optional
  simp only
  cases hr : p.run c with
  | ok a c' met => rwa [hr] at hp
  | error failure =>
      rw [hr] at hp
      refine ⟨⟨[], rfl⟩, ?_⟩
      rintro _ ⟨⟩
      exact hp

theorem Tells.spanned {p : Parser σ α} (hp : p.Tells T) : (spanned p).Tells T := by
  intro c
  have hp := hp c
  unfold Parser.spanned
  simp only
  cases hr : p.run c with
  | ok a c' met => rwa [hr] at hp
  | error failure => rwa [hr] at hp

theorem Tells.check {p : Parser σ α} {f : Spanned α → Except (Problem σ) β} (hp : p.Tells T)
    (hf : ∀ (c c' : Cursor σ) (x : Spanned α) (problem : Problem σ),
      p.spanned.read c = some (x, c') → f x = .error problem → T c ⟨c'.index, problem⟩) :
    (p.check f).Tells T := by
  intro c
  have hp := hp.spanned c
  unfold Parser.check
  simp only
  cases hr : p.spanned.run c with
  | error failure => rwa [hr] at hp
  | ok a c' met =>
      rw [hr] at hp
      simp only
      cases hx : f a with
      | ok b => exact hp
      | error problem => exact hf c c' a problem (by rw [read, hr]) hx

variable [hT : Failure.Settled T]

/-! ### Single items -/

theorem Tells.fail : (fail : Parser σ α).Tells T := fun c => hT.unexpected c []

theorem Tells.item (expected : List (Option σ)) (f : σ → Option α) :
    (item expected f).Tells T := by
  intro c
  unfold Parser.item
  cases hrest : c.rest with
  | nil => simp only [hrest]; exact hT.unexpected c expected
  | cons x xs =>
      cases hx : f x.value with
      | none => simp only [hrest, hx]; exact hT.unexpected c expected
      | some a =>
          simp only [hrest, hx]
          exact ⟨⟨[x.value], x, xs, hrest, rfl, rfl⟩, nofun⟩

theorem Tells.select (f : σ → Option α) : (select f).Tells T := .item [] f

theorem Tells.satisfy (p : σ → Bool) : (satisfy p).Tells T := .select _

theorem Tells.just [DecidableEq σ] (x : σ) : (just x).Tells T := .item _ _

theorem Tells.ending : (ending : Parser σ Unit).Tells T := by
  intro c
  unfold Parser.ending
  cases hrest : c.rest with
  | nil => simp only [hrest]; exact ⟨⟨[], rfl⟩, nofun⟩
  | cons x xs => simp only [hrest]; exact hT.unexpected c [none]

theorem Tells.fix {step : Parser σ α → Parser σ α}
    (hstep : ∀ p : Parser σ α, p.Tells T → (step p).Tells T) : (fix step).Tells T := by
  have hnested : ∀ n, (nested step n).Tells T := by
    intro n
    induction n with
    | zero => exact .fail
    | succ n ih =>
        rw [nested_succ]
        exact hstep _ ih
  exact fun c => hnested (c.rest.length + 1) c

/-! ### Sequences -/

theorem Tells.bind {p : Parser σ α} {f : α → Parser σ β} (hp : p.Tells T)
    (hf : ∀ a, (f a).Tells T) : (p >>= f).Tells T := by
  intro c
  have hp := hp c
  cases hr : p.run c with
  | error failure =>
      rw [run_bind_of_error hr]
      rwa [hr] at hp
  | ok a c₁ met₁ =>
      rw [hr] at hp
      obtain ⟨⟨vs, hpass⟩, hmet₁⟩ := hp
      have hf := hf a c₁
      cases hr' : (f a).run c₁ with
      | error failure =>
          rw [hr'] at hf
          rw [run_bind_of_later_error hr hr']
          exact Failure.orEarlier_of_further (fun _ _ => hT.further) (hT.behind hpass hf) hmet₁
      | ok b c₂ met₂ =>
          rw [hr'] at hf
          rw [run_bind_of_ok hr hr']
          obtain ⟨⟨ws, hpass'⟩, hmet₂⟩ := hf
          refine ⟨⟨vs ++ ws, Cursor.passes_append.2 ⟨c₁, hpass, hpass'⟩⟩, ?_⟩
          exact Failure.latest_of_further (fun _ _ => hT.further) hmet₁ fun f hf =>
            hT.behind hpass (hmet₂ f hf)

theorem Tells.between [DecidableEq σ] (opening closing : σ) {p : Parser σ α} (hp : p.Tells T) :
    (between opening closing p).Tells T :=
  .bind (.just opening) fun _ => .bind hp fun _ => .bind (.just closing) fun _ => .pure _

/-! ### Alternatives -/

theorem Tells.orElse {p q : Parser σ α} (hp : p.Tells T) (hq : q.Tells T) : (p <|> q).Tells T := by
  intro c
  have hp := hp c
  have hq := hq c
  cases hr : p.run c with
  | ok a c' met =>
      rw [run_orElse_of_ok hr]
      rwa [hr] at hp
  | error first =>
      rw [hr] at hp
      cases hr' : q.run c with
      | ok a c' met =>
          rw [run_orElse_of_second hr hr']
          rwa [hr'] at hq
      | error second =>
          rw [hr'] at hq
          rw [run_orElse_of_errors hr hr']
          exact hT.further hq hp

theorem Tells.firstOf : ∀ {ps : List (Parser σ α)}, (∀ p ∈ ps, p.Tells T) → (firstOf ps).Tells T
  | [], _ => .fail
  | [p], hps => hps p List.mem_cons_self
  | p :: q :: ps, hps => by
      obtain ⟨hp, hps⟩ := List.forall_mem_cons.1 hps
      exact .orElse hp (firstOf hps)

/-! ### Repetitions -/

theorem Tells.upTo {p : Parser σ α} (hp : p.Tells T) : ∀ n, (upTo p n).Tells T
  | 0 => .pure []
  | n + 1 => by
      refine .bind (.optional hp) fun r => ?_
      cases r with
      | none => exact .pure []
      | some a => exact .bind (hp.upTo n) fun as => .pure (a :: as)

theorem Tells.repeated {p : Parser σ α} (hp : p.Tells T) : (repeated p).Tells T :=
  fun c => hp.upTo (c.rest.length + 1) c

theorem Tells.sepBy {p : Parser σ α} {separator : Parser σ β} (hp : p.Tells T)
    (hs : separator.Tells T) : (sepBy p separator).Tells T := by
  refine .bind (.optional hp) fun r => ?_
  cases r with
  | none => exact .pure []
  | some a =>
      exact .bind (.repeated (.bind hs fun _ => hp)) fun as => .pure (a :: as)

theorem Tells.sepEndBy {p : Parser σ α} {separator : Parser σ β} (hp : p.Tells T)
    (hs : separator.Tells T) : (sepEndBy p separator).Tells T := by
  refine .bind (.sepBy hp hs) fun as => ?_
  cases as with
  | nil => exact .pure []
  | cons a as => exact .bind (.optional hs) fun _ => .pure (a :: as)

/-! ### Names and blanks -/

theorem Tells.labelled {p : Parser σ α} (label : String) (hp : p.Tells T) :
    (labelled label p).Tells T := by
  intro c
  have hp := hp c
  unfold Parser.labelled
  simp only
  cases hr : p.run c with
  | ok a c' met => rwa [hr] at hp
  | error failure =>
      rw [hr] at hp
      exact hT.labelled label hp

theorem Tells.padded {p : Parser σ α} (blank : σ → Bool) (hp : p.Tells T) :
    (padded blank p).Tells T := by
  intro c
  have hp := hp (c.dropWhile blank)
  have hpass := (Cursor.passesAll_dropWhile blank c).passes
  unfold Parser.padded
  simp only
  cases hr : p.run (c.dropWhile blank) with
  | error failure =>
      rw [hr] at hp
      exact hT.behind hpass hp
  | ok a c' met =>
      rw [hr] at hp
      obtain ⟨⟨vs, hpass'⟩, hmet⟩ := hp
      have hpass'' := (Cursor.passesAll_dropWhile blank c').passes
      have hrest := Cursor.passes_append.2 ⟨_, hpass', hpass''⟩
      refine ⟨⟨_, Cursor.passes_append.2 ⟨_, hpass, hrest⟩⟩, ?_⟩
      exact fun f hf => hT.behind hpass (hmet f hf)

/-! ### Whole inputs -/

theorem Tells.whole {p : Parser σ α} (hp : p.Tells T) : p.whole.Tells T :=
  .bind hp fun a => .bind .ending fun _ => .pure a

/-- The problem of a failed parse is that of a failure behind the first item. -/
theorem Tells.parse {p : Parser σ α} (hp : p.Tells T) {items : List (Spanned σ)} {atEnd : Span}
    {problem : Problem σ} (hr : p.parse items atEnd = .error problem) :
    ∃ f : Failure σ, f.problem = problem ∧ T (.ofItems items atEnd) f := by
  obtain ⟨f, hf, hrun⟩ := exists_failure_of_parse hr
  have hwhole := hp.whole (.ofItems items atEnd)
  rw [hrun] at hwhole
  exact ⟨f, hf, hwhole⟩

end Parser

end Redline.Parsing
