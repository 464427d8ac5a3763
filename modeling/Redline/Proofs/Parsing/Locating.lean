import Redline.Proofs.Parsing.Reaching

/-! # Where parsers fail

`p.Locates G L n` says that from all places with fewer than `n` items ahead the replies of `p`
locate where `L` breaks off.  Combinators keep this as long as one value ahead tells which part it
belongs to: in a sequence, what starts the second part does not continue the first one
(`Locates.bind`), and alternatives start with different values (`Locates.orElse`).  A row with a
separator that may be trailing is the exception: behind the row the separator belongs to either
part, so what has been met behind it must not be forgotten (`Locates.sepEndBy`).  The problem of a
failed parse is told of the furthest place that is reached (`Locates.parse`). -/

namespace Redline.Parsing

variable {σ α β : Type} {G : Cursor σ → Prop} {L M : List σ → Prop}

namespace Parser

/-- From all places with fewer than `n` items ahead, the replies of `p` locate where `L` breaks
off. -/
def Locates (p : Parser σ α) (G : Cursor σ → Prop) (L : List σ → Prop) (n : Nat) : Prop :=
  ∀ c : Cursor σ, c.rest.length < n → (p.run c).Locates G L c

theorem Locates.congr {p : Parser σ α} {n : Nat} (h : p.Locates G L n) (hLM : ∀ us, M us ↔ L us) :
    p.Locates G M n := by
  obtain rfl : M = L := funext fun us => propext (hLM us)
  exact h

theorem Locates.mono {p : Parser σ α} {m n : Nat} (h : p.Locates G L n) (hmn : m ≤ n) :
    p.Locates G L m := fun c hc => h c (Nat.lt_of_lt_of_le hc hmn)

/-- What can be nothing is always read. -/
theorem ok_of_locates {r : Reply σ α} {c : Cursor σ} (h : r.Locates G L c) (hL : L []) :
    ∃ a c' met, r = .ok a c' met ∧ Succeeds G L c c' met := by
  cases r with
  | ok a c' met => exact ⟨a, c', met, rfl, h⟩
  | error f => exact absurd hL (h.refuses (Cursor.passes_nil.2 rfl))

/-! ### Single items -/

theorem locates_item_run {expected : List (Option σ)} {f : σ → Option α} {c : Cursor σ}
    (hG : ∀ v, c.next = some v → (f v).isSome → G c) {v : σ} (hv : (f v).isSome) :
    ((item expected f).run c).Locates G (Single fun v => (f v).isSome) c := by
  unfold item
  cases hrest : c.rest with
  | nil =>
      simp only [hrest]
      refine fails_single (S := fun v => (f v).isSome) hv (fun w hw => ?_) expected
      rw [Cursor.next, hrest] at hw
      cases hw
  | cons x xs =>
      have hnext : c.next = some x.value := by rw [Cursor.next, hrest]; rfl
      cases hx : f x.value with
      | none =>
          simp only [hrest, hx]
          refine fails_single (S := fun v => (f v).isSome) hv (fun w hw => ?_) expected
          obtain rfl := Option.some.inj (hnext.symm.trans hw)
          rw [hx]
          exact Bool.false_ne_true
      | some a =>
          simp only [hrest, hx]
          have hsome : (f x.value).isSome := by rw [hx]; rfl
          exact succeeds_single (hG _ hnext hsome) hsome ⟨x, xs, hrest, rfl, rfl⟩

theorem Locates.select {f : σ → Option α} (hG : ∀ c v, Cursor.next c = some v → (f v).isSome → G c)
    {v : σ} (hv : (f v).isSome) (n : Nat) :
    (select f).Locates G (Single fun v => (f v).isSome) n :=
  fun c _ => locates_item_run (hG c) hv

theorem Locates.satisfy {p : σ → Bool}
    (hG : ∀ c v, Cursor.next c = some v → p v = true → G c) {v : σ} (hv : p v = true) (n : Nat) :
    (satisfy p).Locates G (Single (p · = true)) n := by
  have hsome : ∀ v, ((if p v then some v else none : Option σ).isSome) ↔ p v = true := by
    intro v
    split <;> simp [*]
  have h := Locates.select (fun c v hc hpv => hG c v hc ((hsome v).1 hpv)) ((hsome v).2 hv) n
  simp only [hsome] at h
  exact h

section Just

variable [DecidableEq σ] {x : σ}

theorem locates_just_run {c : Cursor σ} (hG : c.next = some x → G c) :
    ((just x).run c).Locates G (· = [x]) c := by
  have hsome : ∀ v, ((if v = x then some x else none : Option σ).isSome) ↔ v = x := by
    intro v
    split <;> simp [*]
  have hL : Single (fun v => (if v = x then some x else none : Option σ).isSome) =
      (· = [x]) := by
    funext us
    simp [Single, hsome]
  rw [← hL]
  refine locates_item_run (fun v hv hvx => hG ?_) (v := x) ((hsome x).2 rfl)
  rwa [← (hsome v).1 hvx]

theorem run_just_of_passes {c c' : Cursor σ} (h : c.Passes [x] c') :
    (Parser.just x).run c = .ok x c' none := by
  obtain ⟨y, ys, hrest, rfl, rfl⟩ := h
  simp [Parser.just, item, hrest]

theorem run_just_of_ne {c : Cursor σ} (h : c.next ≠ some x) :
    (Parser.just x).run c = .error (c.unexpected [some x]) := by
  unfold Parser.just item
  cases hrest : c.rest with
  | nil => simp only [hrest]
  | cons y ys =>
      have hy : ¬ y.value = x := fun hy => h (by rw [Cursor.next, hrest, ← hy]; rfl)
      simp only [hrest, if_neg hy]

theorem Locates.just (hG : ∀ c, Cursor.next c = some x → G c) (n : Nat) :
    (just x).Locates G (· = [x]) n := fun c _ => locates_just_run (hG c)

end Just

/-! ### Names, places and results -/

theorem locates_labelled_run {p : Parser σ α} {c : Cursor σ} (h : (p.run c).Locates G L c)
    (label : String) : ((labelled label p).run c).Locates G L c := by
  unfold Parser.labelled
  simp only
  cases hr : p.run c with
  | ok a c' met => rwa [hr] at h
  | error f =>
      rw [hr] at h
      exact ⟨h.refuses, h.reached.labelled label, h.furthest⟩

theorem Locates.labelled {p : Parser σ α} {n : Nat} (h : p.Locates G L n) (label : String) :
    (labelled label p).Locates G L n := fun c hc => locates_labelled_run (h c hc) label

theorem Locates.spanned {p : Parser σ α} {n : Nat} (h : p.Locates G L n) :
    (spanned p).Locates G L n := by
  intro c hc
  have h := h c hc
  unfold Parser.spanned
  simp only
  cases hr : p.run c with
  | ok a c' met => rwa [hr] at h
  | error f => rwa [hr] at h

theorem locates_return_run {p : Parser σ α} {c : Cursor σ} (h : (p.run c).Locates G L c)
    (f : α → β) : ((p >>= fun a => Pure.pure (f a)).run c).Locates G L c := by
  cases hr : p.run c with
  | error f =>
      rw [run_bind_of_error hr]
      rwa [hr] at h
  | ok a c' met =>
      rw [run_return_of_ok hr]
      rwa [hr] at h

theorem Locates.return {p : Parser σ α} {n : Nat} (h : p.Locates G L n) (f : α → β) :
    (p >>= fun a => Pure.pure (f a)).Locates G L n := fun c hc => locates_return_run (h c hc) f

/-! ### Sequences -/

theorem locates_bind_run {p : Parser σ α} {f : α → Parser σ β} {c : Cursor σ}
    (hp : (p.run c).Locates G L c)
    (hf : ∀ a c₁ vs, c.Passes vs c₁ → L vs → ((f a).run c₁).Locates G M c₁)
    (hends : ∀ v, Starts M [v] → Ends L v) {ws : List σ} (hws : M ws) :
    ((p >>= f).run c).Locates G (Then L M) c := by
  cases hr : p.run c with
  | error g =>
      rw [hr] at hp
      rw [run_bind_of_error hr]
      exact Fails.then hp hws
  | ok a c₁ met₁ =>
      rw [hr] at hp
      obtain ⟨vs, hvs, hL⟩ := hp.reads
      have hf := hf a c₁ vs hvs.passes hL
      cases hr' : (f a).run c₁ with
      | error g =>
          rw [hr'] at hf
          rw [run_bind_of_later_error hr hr']
          exact Succeeds.then_fails hp hf hends hws
      | ok b c₂ met₂ =>
          rw [hr'] at hf
          rw [run_bind_of_ok hr hr']
          exact Succeeds.then_succeeds hp hf hends

/-- The second part has fewer items ahead when the first one reads some. -/
theorem Locates.bind {p : Parser σ α} {f : α → Parser σ β} {m n : Nat} (hp : p.Locates G L n)
    (hf : ∀ a, (f a).Locates G M m) (hmn : ∀ vs, L vs → n ≤ m + vs.length)
    (hends : ∀ v, Starts M [v] → Ends L v) {ws : List σ} (hws : M ws) :
    (p >>= f).Locates G (Then L M) n := by
  intro c hc
  refine locates_bind_run (hp c hc) (fun a c₁ vs hpass hvs => hf a c₁ ?_) hends hws
  have := Cursor.length_of_passes hpass
  have := hmn vs hvs
  omega

theorem Locates.between [DecidableEq σ] {opening closing : σ}
    (hopening : ∀ c, Cursor.next c = some opening → G c)
    (hclosing : ∀ c, Cursor.next c = some closing → G c) {p : Parser σ α} {n : Nat}
    (hp : p.Locates G L n) (hends : Ends L closing) {us : List σ} (hus : L us) :
    (between opening closing p).Locates G (Then (· = [opening]) (Then L (· = [closing])))
      (n + 1) := by
  have hbehind : (p >>= fun a => Parser.just closing >>= fun _ => Pure.pure a).Locates G
      (Then L (· = [closing])) n := by
    refine hp.bind (fun a => (Locates.just hclosing n).return fun _ => a) ?_ ?_ rfl
    · exact fun _ _ => Nat.le_add_right _ _
    · rintro v ⟨ws, hws⟩
      obtain ⟨rfl, -⟩ := List.cons.inj hws
      exact hends
  refine (Locates.just hopening (n + 1)).bind (fun _ => hbehind) ?_ ?_
    ⟨us, [closing], rfl, hus, rfl⟩
  · rintro _ rfl
    exact Nat.le_refl _
  · exact fun v _ => ends_single opening v

/-! ### Alternatives -/

/-- Where a member of one language stands ahead, a language with other first values has not even
started. -/
theorem index_le_of_heads {P Q : σ → Prop} (hL : Heads L P) (hM : Heads M Q)
    (hPQ : ∀ v, P v → ¬ Q v) {c d d' : Cursor σ} {us vs : List σ} (hvs : c.Passes vs d)
    (hmem : L vs) (hus : c.Passes us d') (hstarts : Starts M us) : d'.index ≤ d.index := by
  cases us with
  | nil =>
      obtain rfl : d' = c := hus
      rw [Cursor.index_of_passes hvs]
      omega
  | cons u us =>
      obtain ⟨v, vs, rfl, hv⟩ := hL hmem
      have hnext := (Cursor.next_of_passes hvs).symm.trans (Cursor.next_of_passes hus)
      obtain rfl := Option.some.inj hnext
      exact absurd (hM.of_starts hstarts) (hPQ v hv)

/-- Alternatives that start with different values. -/
theorem Locates.orElse {p q : Parser σ α} {P Q : σ → Prop} {n : Nat} (hp : p.Locates G L n)
    (hq : q.Locates G M n) (hL : Heads L P) (hM : Heads M Q) (hPQ : ∀ v, P v → ¬ Q v) :
    (p <|> q).Locates G (fun us => L us ∨ M us) n := by
  intro c hc
  have hp := hp c hc
  have hq := hq c hc
  cases hr : p.run c with
  | ok a c₁ met =>
      rw [hr] at hp
      rw [run_orElse_of_ok hr]
      obtain ⟨vs, hvs, hmem⟩ := hp.reads
      exact Succeeds.or_left hp fun hd hus => index_le_of_heads hL hM hPQ hvs.passes hmem hd hus
  | error f =>
      rw [hr] at hp
      cases hr' : q.run c with
      | ok b c₁ met =>
          rw [hr'] at hq
          rw [run_orElse_of_second hr hr']
          obtain ⟨vs, hvs, hmem⟩ := hq.reads
          refine Succeeds.or_right hp.refuses hq fun hreach => ?_
          exact index_le_of_heads hM hL (fun v hQ hP => hPQ v hP hQ) hvs.passes hmem hreach.passes
            hreach.starts
      | error g =>
          rw [hr'] at hq
          rw [run_orElse_of_errors hr hr']
          exact Fails.or hp hq

/-! ### Repetitions -/

/-- An item with more behind it, or nothing. -/
theorem locates_optional_run {p : Parser σ α} {f : Option α → Parser σ β} {b : β} {c : Cursor σ}
    (hnone : f none = Pure.pure b) (hp : (p.run c).Locates G L c)
    (hf : ∀ a c₁ vs, c.Passes vs c₁ → L vs → ((f (some a)).run c₁).Locates G M c₁)
    (hends : ∀ v, Starts M [v] → Ends L v) (hM : M []) :
    ((optional p >>= f).run c).Locates G (fun us => us = [] ∨ Then L M us) c := by
  cases hr : p.run c with
  | error g =>
      rw [hr] at hp
      rw [run_optional_bind_of_error hnone hr]
      exact (Fails.then hp hM).orNothing
  | ok a c₁ met₁ =>
      rw [hr] at hp
      obtain ⟨vs, hvs, hL⟩ := hp.reads
      obtain ⟨b, c₂, met₂, hr', hf⟩ := ok_of_locates (hf a c₁ vs hvs.passes hL) hM
      rw [run_optional_bind_of_ok hr, run_bind_of_ok hr hr']
      exact (Succeeds.then_succeeds hp hf hends).orNothing

section Repetitions

variable {p : Parser σ α} {n : Nat} (hp : p.Locates G L n) (hL : ¬ L [])
  (hends : ∀ v, Starts L [v] → Ends L v)

include hp hL hends

theorem Locates.upTo : ∀ (m : Nat) (c : Cursor σ), c.rest.length < n → c.rest.length < m →
    ((upTo p m).run c).Locates G (Many L) c
  | 0, _, _, hm => absurd hm (Nat.not_lt_zero _)
  | m + 1, c, hn, hm => by
      have hmany : Many L = fun us => us = [] ∨ Then L (Many L) us :=
        funext fun us => propext many_iff
      rw [hmany]
      refine locates_optional_run (b := []) rfl (hp c hn) (fun a c₁ vs hpass hvs => ?_) ?_ .nil
      · have := Cursor.length_of_passes hpass
        have := List.length_pos_iff.2 fun h : vs = [] => hL (h ▸ hvs)
        exact locates_return_run (upTo m c₁ (by omega) (by omega)) (a :: ·)
      · exact fun v hv => hends v (hv.of_many hL)

theorem Locates.repeated : (repeated p).Locates G (Many L) n :=
  fun c hc => hp.upTo hL hends (c.rest.length + 1) c hc (Nat.lt_succ_self _)

end Repetitions

section Separators

variable [DecidableEq σ] {x : σ} {p : Parser σ α} {P : List σ → α → Prop}

theorem run_sepEndBy_of_nil {c c₁ : Cursor σ} {met : Option (Failure σ)}
    (h : (sepBy p (just x)).run c = .ok [] c₁ met) :
    (sepEndBy p (just x)).run c = .ok [] c₁ met := by
  unfold sepEndBy
  rw [run_bind_of_ok h rfl, Failure.latest_none]

theorem run_sepEndBy_of_passes {c c₁ c₂ : Cursor σ} {a : α} {as : List α}
    {met : Option (Failure σ)} (h : (sepBy p (just x)).run c = .ok (a :: as) c₁ met)
    (hsep : c₁.Passes [x] c₂) : (sepEndBy p (just x)).run c = .ok (a :: as) c₂ met := by
  have hoptional : (optional (Parser.just x) >>= fun _ => Pure.pure (a :: as)).run c₁ =
      .ok (a :: as) c₂ none := by
    rw [run_optional_bind_of_ok (run_just_of_passes hsep)]
    exact run_return_of_ok (run_just_of_passes hsep) fun _ => a :: as
  unfold sepEndBy
  rw [run_bind_of_ok h hoptional, Failure.latest_none]

theorem run_sepEndBy_of_ne {c c₁ : Cursor σ} {a : α} {as : List α} {met : Option (Failure σ)}
    (h : (sepBy p (just x)).run c = .ok (a :: as) c₁ met)
    (hsep : c₁.next ≠ some x) : (sepEndBy p (just x)).run c =
      .ok (a :: as) c₁ (Failure.latest met (some (c₁.unexpected [some x]))) := by
  unfold sepEndBy
  exact run_bind_of_ok h (run_optional_bind_of_error rfl (run_just_of_ne hsep))

/-- Behind a row that is not empty, a separator is read or its lack is met. -/
theorem run_sepEndBy_cases {P : List σ → α → Prop} (hsound : p.Sound P) {c c₁ : Cursor σ}
    {as : List α} {met : Option (Failure σ)} (h : (sepBy p (just x)).run c = .ok as c₁ met) :
    (as = [] ∧ c₁ = c ∧ (sepEndBy p (just x)).run c = .ok as c₁ met) ∨
      ∃ vs, c.Passes vs c₁ ∧ Separated P x vs as ∧
        ((∃ c₂, c₁.Passes [x] c₂ ∧ (sepEndBy p (just x)).run c = .ok as c₂ met) ∨
          c₁.next ≠ some x ∧ (sepEndBy p (just x)).run c =
            .ok as c₁ (Failure.latest met (some (c₁.unexpected [some x])))) := by
  have hread : (sepBy p (just x)).read c = some (as, c₁) := by rw [read, h]
  obtain ⟨vs, hvs, has⟩ := hsound.sepBy hread
  cases has with
  | none => exact .inl ⟨rfl, hvs, run_sepEndBy_of_nil h⟩
  | row has =>
      obtain ⟨a, as, rfl⟩ := has.exists_cons
      refine .inr ⟨vs, hvs, has, ?_⟩
      rcases Decidable.em (c₁.next = some x) with hnext | hnext
      · obtain ⟨c₂, hsep⟩ := Cursor.exists_passes_of_next hnext
        exact .inl ⟨c₂, hsep, run_sepEndBy_of_passes h hsep⟩
      · exact .inr ⟨hnext, run_sepEndBy_of_ne h hnext⟩

variable {n : Nat} (hx : ∀ c, Cursor.next c = some x → G c)

include hx

theorem Locates.sepBy (hp : p.Locates G (Derives P) n)
    (hends : Ends (Derives P) x) {us : List σ} (hus : Derives P us) :
    (sepBy p (Parser.just x)).Locates G (Derives (SepBy P x)) n := by
  have hitem : (Parser.just x >>= fun _ => p).Locates G (Then (· = [x]) (Derives P)) n := by
    refine (Locates.just hx n).bind (fun _ => hp) ?_ (fun v _ => ends_single x v) hus
    exact fun _ _ => Nat.le_add_right _ _
  have hfirst : ∀ {v}, Starts (Then (· = [x]) (Derives P)) [v] → v = x := by
    rintro v ⟨ws, _, vs, h, rfl, -⟩
    exact (List.cons.inj h).1
  have hnil : ¬ Then (· = [x]) (Derives P) [] := by
    rintro ⟨_, vs, h, rfl, -⟩
    cases h
  have hrest := hitem.repeated hnil fun v hv => by
    rw [hfirst hv]
    exact hends.then_single
  refine Locates.congr (fun c hc => ?_) fun us => derives_sepBy_iff
  refine locates_optional_run (b := []) rfl (hp c hc) (fun a c₁ vs hpass _ => ?_) ?_ .nil
  · have := Cursor.length_of_passes hpass
    exact locates_return_run (hrest c₁ (by omega)) (a :: ·)
  · exact fun v hv => hfirst (hv.of_many hnil) ▸ hends

/-- A separator behind the row is read whether it ends the row or another item was to follow, and
what was met behind it is kept. -/
theorem Locates.sepEndBy (hp : p.Locates G (Derives P) n) (hsound : p.Sound P)
    (hnil : ¬ Derives P []) (hends : Ends (Derives P) x) {us : List σ} (hus : Derives P us) :
    (sepEndBy p (Parser.just x)).Locates G (Derives (SepEndBy P x)) n := by
  intro c hc
  obtain ⟨as, c₁, met, hr, hrow⟩ := ok_of_locates (hp.sepBy hx hends hus c hc) ⟨[], .none⟩
  obtain ⟨vs, hadvance, -⟩ := hrow.reads
  rcases run_sepEndBy_cases hsound hr with ⟨rfl, rfl, hrun⟩ | ⟨us, hus, hvs, hsep⟩
  · rw [hrun]
    exact hrow.sepEndBy_nil hnil
  · obtain rfl := Cursor.values_unique hadvance.passes hus
    rcases hsep with ⟨c₂, hsep, hrun⟩ | ⟨hsep, hrun⟩
    · rw [hrun]
      exact hrow.sepEndBy_of_passes hvs hadvance (hx c₁ (Cursor.next_of_passes hsep)) hsep
    · rw [hrun]
      exact hrow.sepEndBy_of_ne hvs hadvance hsep

end Separators

/-! ### Whole inputs -/

/-- A whole input fails where its parser does, or at what stands behind the items that are read. -/
theorem fails_whole {p : Parser σ α} {c : Cursor σ} (hp : (p.run c).Locates G L c) {f : Failure σ}
    (hr : p.whole.run c = .error f) : f.Reached G L c ∧
      ∀ {us d}, c.Reaches G L us d → d.index ≤ f.index := by
  rcases failure_of_whole hr with hrun | ⟨a, c₁, met, hrun, -, rfl⟩
  · rw [hrun] at hp
    exact ⟨hp.reached, hp.furthest⟩
  · rw [hrun] at hp
    obtain ⟨vs, hvs, hL⟩ := hp.reads
    have hend : (c₁.unexpected [none]).Reached G L c :=
      ⟨vs, c₁, ⟨hvs, .of_mem hL⟩, Failure.at_unexpected c₁ [none]⟩
    refine ⟨hend.orEarlier hp.reached, fun {us d} hreach => ?_⟩
    rcases Nat.lt_or_ge c₁.index d.index with hlt | hge
    · obtain ⟨g, hg, hle⟩ := hp.furthest hreach hlt
      exact Nat.le_trans hle (Failure.le_orEarlier_of_mem hg)
    · exact Nat.le_trans hge (Failure.le_orEarlier (f := c₁.unexpected [none]))

/-- The problem of a failed parse is told of the furthest place that is reached. -/
theorem Locates.parse {p : Parser σ α} {items : List (Spanned σ)} {atEnd : Span}
    (hp : p.Locates G L (items.length + 1)) {problem : Problem σ}
    (hr : p.parse items atEnd = .error problem) : ∃ (f : Failure σ) (us : List σ) (c' : Cursor σ),
      f.problem = problem ∧ (Cursor.ofItems items atEnd).Reaches G L us c' ∧ f.At c' ∧
      ∀ {vs d}, (Cursor.ofItems items atEnd).Reaches G L vs d → d.index ≤ c'.index := by
  obtain ⟨f, hf, hrun⟩ := exists_failure_of_parse hr
  obtain ⟨⟨us, c', hreach, hat⟩, hfurthest⟩ :=
    fails_whole (hp (.ofItems items atEnd) (Nat.lt_succ_self _)) hrun
  exact ⟨f, us, c', hf, hreach, hat, hat.index ▸ hfurthest⟩

end Parser

end Redline.Parsing
