import Mathlib.Data.List.Chain
import Mathlib.Logic.Function.Iterate
import Redline.Proofs.Parsing.Rows

/-! # Guarded recursion

A parser that is described in terms of itself comes to an end if it uses itself behind an item only.
`Guarded step` says so: what `step p` replies at a place is settled by what `p` replies at the places
behind it.  Then nothing depends on what stands below more nestings than there are items
(`Guarded.run_iterate_congr`), so that the nestings come to one parser, which is the only solution
of its equation (`Terminates`).  A place where `step p` depends on `p` is one that it enters `p` at,
and all of them are behind (`Guarded.before_of_enters`); so no more parsers are entered one within
the other than there are items (`Guarded.length_of_enters`).

Repetitions are recursions too, with a round as the step, and a round is guarded if its item reads
at least one (`Consumes.guarded_round`). -/

namespace Redline.Parsing

variable {σ α β : Type}

/-! ### Places behind a place -/

namespace Cursor

/-- At least one item stands from `c` to `d`. -/
def Before (c d : Cursor σ) : Prop := ∃ v vs, c.Passes (v :: vs) d

theorem before_of_passes {c d : Cursor σ} {vs : List σ} (h : c.Passes vs d) (hvs : vs ≠ []) :
    c.Before d := by
  obtain ⟨v, ws, rfl⟩ := List.exists_cons_of_ne_nil hvs
  exact ⟨v, ws, h⟩

theorem Before.of_passes {c d e : Cursor σ} {vs : List σ} (h : c.Before d) (hvs : d.Passes vs e) :
    c.Before e := by
  obtain ⟨v, ws, hws⟩ := h
  exact ⟨v, ws ++ vs, passes_append.2 ⟨d, hws, hvs⟩⟩

theorem Before.after_passes {c d e : Cursor σ} {vs : List σ} (hvs : c.Passes vs d)
    (h : d.Before e) : c.Before e := by
  obtain ⟨v, ws, hws⟩ := h
  exact before_of_passes (passes_append.2 ⟨d, hvs, hws⟩) (by simp)

theorem Before.trans {c d e : Cursor σ} (h : c.Before d) (h' : d.Before e) : c.Before e := by
  obtain ⟨_, _, hvs⟩ := h'
  exact h.of_passes hvs

theorem Before.length_lt {c d : Cursor σ} (h : c.Before d) : d.rest.length < c.rest.length := by
  obtain ⟨v, vs, hvs⟩ := h
  have hlength := length_of_passes hvs
  rw [List.length_cons] at hlength
  omega

end Cursor

namespace Parser

theorem ext_run {p q : Parser σ α} (h : ∀ c, p.run c = q.run c) : p = q :=
  congrArg Parser.mk (funext h)

/-- All that `p` reads has at least one item. -/
def Consumes (p : Parser σ α) : Prop :=
  ∀ ⦃c : Cursor σ⦄ ⦃a : α⦄ ⦃c' : Cursor σ⦄, p.read c = some (a, c') → c.Before c'

theorem Consumes.progresses {p : Parser σ α} (hp : p.Consumes) : p.Progresses :=
  fun _ _ _ hr => (hp hr).length_lt

theorem Sound.consumes {p : Parser σ α} {P : List σ → α → Prop} (h : p.Sound P)
    (hP : ∀ ⦃vs a⦄, P vs a → vs ≠ []) : p.Consumes := by
  intro c a c' hr
  obtain ⟨vs, hpass, ha⟩ := h hr
  exact Cursor.before_of_passes hpass (hP ha)

theorem consumes_satisfy (p : σ → Bool) : (satisfy p).Consumes := by
  intro c a c' hr
  exact ⟨_, _, (read_satisfy_eq_some.1 hr).2⟩

theorem Consumes.afterJust [DecidableEq σ] {p : Parser σ α} (hp : p.Consumes) (x : σ) :
    (just x >>= fun _ => p).Consumes := by
  intro c a c' hr
  obtain ⟨_, d, hx, hr⟩ := read_bind_eq_some.1 hr
  exact .after_passes (read_just_eq_some.1 hx).2 (hp hr)

/-! ### Parsers that reply alike -/

section Congruence

variable {p q : Parser σ α} {c : Cursor σ}

theorem run_bind_congr {f g : α → Parser σ β} (h : p.run c = q.run c)
    (hfg : ∀ a c', p.read c = some (a, c') → (f a).run c' = (g a).run c') :
    (p >>= f).run c = (q >>= g).run c := by
  change (bind p f).run c = (bind q g).run c
  cases hp : p.run c with
  | error failure => simp only [bind, ← h, hp]
  | ok a c' met =>
      have hread : p.read c = some (a, c') := by rw [read, hp]
      simp only [bind, ← h, hp, hfg a c' hread]

theorem run_orElse_congr {p' q' : Parser σ α} (h : p.run c = q.run c) (h' : p'.run c = q'.run c) :
    (p <|> p').run c = (q <|> q').run c := by
  change (p.orElse p').run c = (q.orElse q').run c
  simp only [orElse, h, h']

theorem run_firstOf_congr {ps qs : List (Parser σ α)}
    (h : List.Forall₂ (fun p q => p.run c = q.run c) ps qs) :
    (firstOf ps).run c = (firstOf qs).run c := by
  induction h with
  | nil => rfl
  | cons hp hps ih =>
      cases hps with
      | nil => exact hp
      | cons => exact run_orElse_congr hp ih

theorem run_labelled_congr (label : String) (h : p.run c = q.run c) :
    (labelled label p).run c = (labelled label q).run c := by
  simp only [labelled, h]

theorem run_spanned_congr (h : p.run c = q.run c) : (spanned p).run c = (spanned q).run c := by
  simp only [spanned, h]

theorem run_optional_congr (h : p.run c = q.run c) : (optional p).run c = (optional q).run c := by
  simp only [optional, h]

theorem run_between_congr [DecidableEq σ] {opening closing : σ}
    (h : ∀ d, c.Before d → p.run d = q.run d) :
    (between opening closing p).run c = (between opening closing q).run c := by
  refine run_bind_congr rfl fun _ d hd => ?_
  have hbefore : c.Before d := ⟨_, _, (read_just_eq_some.1 hd).2⟩
  exact run_bind_congr (h d hbefore) fun _ _ _ => rfl

theorem parse_congr {items : List (Spanned σ)} {atEnd : Span}
    (h : p.run (.ofItems items atEnd) = q.run (.ofItems items atEnd)) :
    p.parse items atEnd = q.parse items atEnd := by
  have hwhole : p.whole.run (.ofItems items atEnd) = q.whole.run (.ofItems items atEnd) :=
    run_bind_congr h fun _ _ _ => rfl
  simp only [parse, hwhole]

end Congruence

theorem read_of_read_optional {p : Parser σ α} {c c' : Cursor σ} {a : α}
    (h : (optional p).read c = some (some a, c')) : p.read c = some (a, c') := by
  rw [read_optional] at h
  cases hp : p.read c with
  | none =>
      rw [hp] at h
      cases h
  | some r =>
      rw [hp] at h
      cases h
      rfl

section Repetitions

variable {p q : Parser σ α} {D : Cursor σ → Prop}
  (hD : ∀ {c c' : Cursor σ} {a : α}, D c → p.read c = some (a, c') → D c')
  (h : ∀ c, D c → p.run c = q.run c)

include hD h

/-- Items that reply alike at places that they do not leave are repeated alike there. -/
theorem run_upTo_congr : ∀ (n : Nat) (c : Cursor σ), D c → (upTo p n).run c = (upTo q n).run c
  | 0, _, _ => rfl
  | n + 1, c, hc => by
      refine run_bind_congr (run_optional_congr (h c hc)) fun o c' hr => ?_
      cases o with
      | none => rfl
      | some a =>
          have hc' := hD hc (read_of_read_optional hr)
          exact run_bind_congr (run_upTo_congr n c' hc') fun _ _ _ => rfl

theorem run_repeated_congr {c : Cursor σ} (hc : D c) :
    (repeated p).run c = (repeated q).run c := run_upTo_congr hD h (c.rest.length + 1) c hc

variable [DecidableEq σ] {x : σ} (hx : ∀ {c c' : Cursor σ}, D c → c.Passes [x] c' → D c')

include hx

theorem run_sepBy_congr {c : Cursor σ} (hc : D c) :
    (sepBy p (just x)).run c = (sepBy q (just x)).run c := by
  have hD' : ∀ {c c' : Cursor σ} {a : α}, D c →
      (just x >>= fun _ => p).read c = some (a, c') → D c' := by
    intro c c' a hc hr
    obtain ⟨_, d, hd, hp⟩ := read_bind_eq_some.1 hr
    exact hD (hx hc (read_just_eq_some.1 hd).2) hp
  have h' : ∀ c, D c → (just x >>= fun _ => p).run c = (just x >>= fun _ => q).run c :=
    fun c hc => run_bind_congr rfl fun _ d hd => h d (hx hc (read_just_eq_some.1 hd).2)
  refine run_bind_congr (run_optional_congr (h c hc)) fun o c' hr => ?_
  cases o with
  | none => rfl
  | some a =>
      have hc' := hD hc (read_of_read_optional hr)
      exact run_bind_congr (run_repeated_congr hD' h' hc') fun _ _ _ => rfl

theorem run_sepEndBy_congr {c : Cursor σ} (hc : D c) :
    (sepEndBy p (just x)).run c = (sepEndBy q (just x)).run c :=
  run_bind_congr (run_sepBy_congr hD h hx hc) fun _ _ _ => rfl

end Repetitions

/-! ### Guarded steps -/

/-- What `step p` replies at a place is settled by what `p` replies at the places behind it, for the
parsers `p` with the property `I`, which `step` keeps. -/
structure Guarded (I : Parser σ α → Prop) (step : Parser σ α → Parser σ α) : Prop where
  keeps : ∀ {p}, I p → I (step p)
  run_congr : ∀ {p q : Parser σ α} {c : Cursor σ}, I p → (∀ d, c.Before d → p.run d = q.run d) →
    (step p).run c = (step q).run c

/-- `f` is the parser that `step` describes in terms of itself: no other one satisfies its equation,
and `step` nested more often than there are items ahead is as good, whatever parser stands below. -/
structure Terminates (step : Parser σ α → Parser σ α) (f : Parser σ α) : Prop where
  fixed : step f = f
  unique : ∀ p, step p = p → p = f
  within : ∀ (p : Parser σ α) {n : Nat} {c : Cursor σ}, c.rest.length < n →
    (step^[n] p).run c = f.run c

/-- The reply of `step f` at `c` depends on the one of `f` at `d`. -/
def Enters (step : Parser σ α → Parser σ α) (f : Parser σ α) (c d : Cursor σ) : Prop :=
  ∃ g : Parser σ α, (∀ e, e ≠ d → g.run e = f.run e) ∧ (step g).run c ≠ (step f).run c

namespace Guarded

variable {I : Parser σ α → Prop} {step : Parser σ α → Parser σ α} (h : Guarded I step)
  {p f : Parser σ α}

include h

theorem iterate (hp : I p) (n : Nat) : I (step^[n] p) := by
  induction n with
  | zero => exact hp
  | succ n ih =>
      rw [Function.iterate_succ_apply']
      exact h.keeps ih

theorem run_iterate_congr (hp : I p) (q : Parser σ α) : ∀ {m n : Nat} {c : Cursor σ},
    c.rest.length < m → c.rest.length < n → (step^[m] p).run c = (step^[n] q).run c
  | 0, _, _, hm, _ => absurd hm (Nat.not_lt_zero _)
  | _, 0, _, _, hn => absurd hn (Nat.not_lt_zero _)
  | m + 1, n + 1, c, hm, hn => by
      rw [Function.iterate_succ_apply', Function.iterate_succ_apply']
      -- Behind `c` there are fewer items ahead, so either nesting may be one less there.
      refine h.run_congr (h.iterate hp m) fun d hd => ?_
      have hlt := hd.length_lt
      exact run_iterate_congr hp q (by omega) (by omega)

/-- The nestings over `p` come to the parser that takes as many of them as there are items ahead, and
one more. -/
theorem terminates (hp : I p) (hf : ∀ c, f.run c = (step^[c.rest.length + 1] p).run c) :
    Terminates step f := by
  have hwithin : ∀ (q : Parser σ α) {n : Nat} {c : Cursor σ}, c.rest.length < n →
      (step^[n] q).run c = f.run c := by
    intro q n c hn
    rw [hf]
    exact (h.run_iterate_congr hp q (Nat.lt_succ_self _) hn).symm
  refine ⟨ext_run fun c => ?_, fun q hq => ext_run fun c => ?_, hwithin⟩
  · rw [hf, Function.iterate_succ_apply']
    exact (h.run_congr (h.iterate hp _) fun d hd => hwithin p hd.length_lt).symm
  · rw [← hwithin q (Nat.lt_succ_self _), Function.iterate_fixed hq]

/-- A parser is entered behind the place where the one around it starts. -/
theorem before_of_enters (hf : I f) {c d : Cursor σ} (henters : Enters step f c d) :
    c.Before d := by
  obtain ⟨g, hg, hne⟩ := henters
  by_contra hbefore
  -- Then `g` replies as `f` does at all places behind `c`, which settles the reply at `c`.
  refine hne (h.run_congr hf fun e he => (hg e ?_).symm).symm
  rintro rfl
  exact hbefore he

/-- There are no more parsers entered one within the other than there are items. -/
theorem length_of_enters (hf : I f) : ∀ {c : Cursor σ} {ds : List (Cursor σ)},
    List.IsChain (Enters step f) (c :: ds) → ds.length ≤ c.rest.length
  | _, [], _ => Nat.zero_le _
  | c, d :: ds, hchain => by
      obtain ⟨hcd, hds⟩ := List.isChain_cons_cons.1 hchain
      have hlt := (h.before_of_enters hf hcd).length_lt
      have ih := length_of_enters hf hds
      rw [List.length_cons]
      omega

end Guarded

theorem nested_eq_iterate (step : Parser σ α → Parser σ α) (n : Nat) :
    nested step n = step^[n] fail := by
  induction n with
  | zero => rfl
  | succ n ih => rw [nested_succ, ih, Function.iterate_succ_apply']

theorem Guarded.terminates_fix {I : Parser σ α → Prop} {step : Parser σ α → Parser σ α}
    (h : Guarded I step) (hfail : I fail) : Terminates step (fix step) := by
  refine h.terminates hfail fun c => ?_
  rw [← nested_eq_iterate]
  rfl

/-! ### Repetitions as recursions -/

/-- One round of a repetition of `p`, which goes on as `loop`. -/
def round (p : Parser σ α) (loop : Parser σ (List α)) : Parser σ (List α) := do
  match ← optional p with
  | none => return []
  | some a => return a :: (← loop)

theorem upTo_eq_iterate (p : Parser σ α) (n : Nat) :
    upTo p n = (round p)^[n] (pure []) := by
  induction n with
  | zero => rfl
  | succ n ih =>
      rw [Function.iterate_succ_apply', ← ih]
      rfl

/-- The repetition of `p` comes to an end by itself: every round reads an item, so there are at most
as many rounds as items. -/
structure Repeatable (p : Parser σ α) : Prop where
  consumes : p.Consumes
  terminates : Terminates (round p) (repeated p)
  rounds : ∀ {c c' : Cursor σ} {as : List α}, (repeated p).read c = some (as, c') →
    as.length + c'.rest.length ≤ c.rest.length ∧ p.read c' = none

/-- So does a row of `p` with the separator `x`: its first piece reads an item, and so does every
round that reads a separator and another piece. -/
structure Separable [DecidableEq σ] (p : Parser σ α) (x : σ) : Prop where
  consumes : p.Consumes
  others : Repeatable (just x >>= fun _ => p)

namespace Consumes

variable {p : Parser σ α} (hp : p.Consumes)

include hp

theorem guarded_round : Guarded (fun _ => True) (round p) where
  keeps := id
  run_congr _ h := by
    refine run_bind_congr rfl fun o c' hr => ?_
    cases o with
    | none => rfl
    | some a => exact run_bind_congr (h c' (hp (read_of_read_optional hr))) fun _ _ _ => rfl

/-- Every round reads an item, and after the last one there is none to be read. -/
theorem rounds_le {c c' : Cursor σ} {as : List α} (hr : (repeated p).read c = some (as, c')) :
    as.length + c'.rest.length ≤ c.rest.length ∧ p.read c' = none := by
  induction hn : c.rest.length using Nat.strongRecOn generalizing c as with
  | _ n ih =>
      subst hn
      cases hitem : p.read c with
      | none =>
          rw [read_repeated_of_none hitem] at hr
          cases hr
          exact ⟨by simp, hitem⟩
      | some r =>
          obtain ⟨a, c₁⟩ := r
          rw [read_repeated_of_some hp.progresses hitem] at hr
          simp only [Option.map_eq_some_iff, Prod.exists, Prod.mk.injEq] at hr
          obtain ⟨bs, c₂, hrest, rfl, rfl⟩ := hr
          have hlt := (hp hitem).length_lt
          obtain ⟨hle, hnone⟩ := ih _ hlt hrest rfl
          refine ⟨?_, hnone⟩
          rw [List.length_cons]
          omega

theorem repeatable : Repeatable p where
  consumes := hp
  terminates := hp.guarded_round.terminates trivial fun c => by
    rw [← upTo_eq_iterate]
    rfl
  rounds := hp.rounds_le

theorem separable [DecidableEq σ] (x : σ) : Separable p x := ⟨hp, (hp.afterJust x).repeatable⟩

end Consumes

end Parser

end Redline.Parsing
