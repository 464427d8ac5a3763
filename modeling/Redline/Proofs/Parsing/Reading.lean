import Redline.Parsing.Parser

/-! # What parsers read

The reply of a parser has two sides: what has been read, and which failures were met.  `Parser.read`
keeps the first side alone, and it can be computed without the second: each combinator reads what
its parts read (`read_bind`, `read_firstOf`, `read_optional`, `read_repeated`).

`c.Passes vs c'` says that the items between the places `c` and `c'` have the values `vs`.  A parser
is `Sound` for a relation when all it reads are items whose values stand in that relation to its
result, and `Takes` values when it reads them wherever they stand in front of a fitting item. -/

namespace Redline.Parsing

variable {σ α β : Type}

/-! ### Places and the values between them -/

namespace Cursor

/-- The values of the items ahead. -/
def values (c : Cursor σ) : List σ := c.rest.map (·.value)

/-- The items from `c` to `c'` have the values `vs`. -/
def Passes : Cursor σ → List σ → Cursor σ → Prop
  | c, [], c' => c' = c
  | c, v :: vs, c' => ∃ x xs, c.rest = x :: xs ∧ x.value = v ∧ (c.after x xs).Passes vs c'

@[simp] theorem passes_nil {c c' : Cursor σ} : c.Passes [] c' ↔ c' = c := Iff.rfl

theorem passes_cons {c c' : Cursor σ} {v : σ} {vs : List σ} :
    c.Passes (v :: vs) c' ↔ ∃ c₁, c.Passes [v] c₁ ∧ c₁.Passes vs c' := by
  constructor
  · rintro ⟨x, xs, hx, hv, h⟩
    exact ⟨_, ⟨x, xs, hx, hv, rfl⟩, h⟩
  · rintro ⟨_, ⟨x, xs, hx, hv, rfl⟩, h⟩
    exact ⟨x, xs, hx, hv, h⟩

theorem passes_append {vs ws : List σ} : ∀ {c c' : Cursor σ},
    c.Passes (vs ++ ws) c' ↔ ∃ c₁, c.Passes vs c₁ ∧ c₁.Passes ws c' := by
  induction vs with
  | nil => intro c c'; simp
  | cons v vs ih =>
      intro c c'
      rw [List.cons_append, passes_cons]
      constructor
      · rintro ⟨c₁, h₁, h⟩
        obtain ⟨c₂, h₂, h₃⟩ := ih.1 h
        exact ⟨c₂, passes_cons.2 ⟨c₁, h₁, h₂⟩, h₃⟩
      · rintro ⟨c₂, h, h₃⟩
        obtain ⟨c₁, h₁, h₂⟩ := passes_cons.1 h
        exact ⟨c₁, h₁, ih.2 ⟨c₂, h₂, h₃⟩⟩

theorem values_of_passes {vs : List σ} : ∀ {c c' : Cursor σ}, c.Passes vs c' →
    c.values = vs ++ c'.values := by
  induction vs with
  | nil => rintro c _ rfl; rfl
  | cons v vs ih =>
      rintro c c' ⟨x, xs, hx, rfl, h⟩
      rw [values, hx, List.map_cons, List.cons_append, ← ih h]
      rfl

theorem length_of_passes {c c' : Cursor σ} {vs : List σ} (h : c.Passes vs c') :
    c.rest.length = vs.length + c'.rest.length := by
  simpa [values] using congrArg List.length (values_of_passes h)

/-- Whatever stands ahead can be passed. -/
theorem exists_passes : ∀ (vs : List σ) {ws : List σ} {c : Cursor σ}, c.values = vs ++ ws →
    ∃ c', c.Passes vs c' ∧ c'.values = ws
  | [], _, c, h => ⟨c, rfl, h⟩
  | v :: vs, ws, c, h => by
      obtain ⟨x, xs, hx, hv, hxs⟩ := List.map_eq_cons_iff.1 h
      obtain ⟨c', hc', hws⟩ := exists_passes vs (c := c.after x xs) hxs
      exact ⟨c', ⟨x, xs, hx, hv, hc'⟩, hws⟩

theorem passes_unique {vs : List σ} : ∀ {c c₁ c₂ : Cursor σ}, c.Passes vs c₁ → c.Passes vs c₂ →
    c₁ = c₂ := by
  induction vs with
  | nil => rintro c _ _ rfl rfl; rfl
  | cons v vs ih =>
      rintro c c₁ c₂ ⟨x, xs, hx, -, h₁⟩ ⟨y, ys, hy, -, h₂⟩
      rw [hx] at hy
      obtain ⟨rfl, rfl⟩ := List.cons.inj hy
      exact ih h₁ h₂

theorem next_eq_head? (c : Cursor σ) : c.next = c.values.head? := by
  rw [next, values, List.head?_map]

theorem next_of_passes {c c' : Cursor σ} {v : σ} {vs : List σ} (h : c.Passes (v :: vs) c') :
    c.next = some v := by
  rw [next_eq_head?, values_of_passes h]; rfl

theorem exists_passes_of_next {c : Cursor σ} {v : σ} (h : c.next = some v) :
    ∃ c', c.Passes [v] c' := by
  rw [next_eq_head?] at h
  obtain ⟨vs, hvs⟩ := List.head?_eq_some_iff.1 h
  obtain ⟨c', h', -⟩ := exists_passes [v] hvs
  exact ⟨c', h'⟩

theorem suffix_of_passes {vs : List σ} : ∀ {c c' : Cursor σ}, c.Passes vs c' →
    c'.rest <:+ c.rest ∧ c'.ending = c.ending := by
  induction vs with
  | nil => rintro c _ rfl; exact ⟨List.suffix_refl _, rfl⟩
  | cons v vs ih =>
      rintro c c' ⟨x, xs, hx, -, h⟩
      obtain ⟨hsuffix, hending⟩ := ih h
      rw [hx]
      exact ⟨hsuffix.trans (List.suffix_cons x xs), hending⟩

/-- The place behind the items `xs`, with `rest` still to come. -/
def past (c : Cursor σ) (xs rest : List (Spanned σ)) : Cursor σ :=
  ⟨rest, c.index + xs.length, (xs.getLast?.map (·.span.stop)).getD c.stop, c.ending⟩

theorem past_after (c : Cursor σ) (x : Spanned σ) (xs rest : List (Spanned σ)) :
    (c.after x (xs ++ rest)).past xs rest = c.past (x :: xs) rest := by
  have hindex : c.index + 1 + xs.length = c.index + (xs.length + 1) := by omega
  rw [past, past, List.getLast?_cons, List.length_cons]
  cases hlast : xs.getLast? <;> simp [after, hindex]

/-- Values are passed with the items that they belong to. -/
theorem passes_iff_past {vs : List σ} : ∀ {c c' : Cursor σ},
    c.Passes vs c' ↔ ∃ xs rest, c.rest = xs ++ rest ∧ xs.map (·.value) = vs ∧
      c' = c.past xs rest := by
  induction vs with
  | nil =>
      intro c c'
      constructor
      · rintro rfl
        exact ⟨[], c'.rest, rfl, rfl, rfl⟩
      · rintro ⟨xs, rest, hrest, hxs, rfl⟩
        obtain rfl := List.map_eq_nil_iff.1 hxs
        rw [List.nil_append] at hrest
        rw [← hrest]
        rfl
  | cons v vs ih =>
      intro c c'
      constructor
      · rintro ⟨x, xs, hx, rfl, h⟩
        obtain ⟨ys, rest, hys, rfl, rfl⟩ := ih.1 h
        obtain rfl : xs = ys ++ rest := hys
        exact ⟨x :: ys, rest, hx, rfl, past_after c x ys rest⟩
      · rintro ⟨xs, rest, hrest, hxs, rfl⟩
        obtain ⟨x, ys, rfl, rfl, rfl⟩ := List.map_eq_cons_iff.1 hxs
        exact ⟨x, ys ++ rest, hrest, rfl,
          ih.2 ⟨ys, rest, rfl, rfl, (past_after c x ys rest).symm⟩⟩

/-! ### Stretches of items -/

/-- The items from `c` to `c'` have the values `vs`, which all satisfy `p`, and the next one does
not. -/
structure PassesAll (p : σ → Bool) (c : Cursor σ) (vs : List σ) (c' : Cursor σ) : Prop where
  passes : c.Passes vs c'
  all : ∀ v ∈ vs, p v = true
  stops : ∀ v, c'.next = some v → p v = false

theorem PassesAll.eq_takeWhile {p : σ → Bool} {c c' : Cursor σ} {vs : List σ}
    (h : c.PassesAll p vs c') : vs = c.values.takeWhile p := by
  rw [values_of_passes h.passes, List.takeWhile_append_of_pos h.all]
  cases hv : c'.values with
  | nil => simp
  | cons v ws =>
      have := h.stops v (by rw [next_eq_head?, hv]; rfl)
      simp [this]

theorem PassesAll.unique {p : σ → Bool} {c c₁ c₂ : Cursor σ} {vs₁ vs₂ : List σ}
    (h₁ : c.PassesAll p vs₁ c₁) (h₂ : c.PassesAll p vs₂ c₂) : vs₁ = vs₂ ∧ c₁ = c₂ := by
  have hvs : vs₁ = vs₂ := h₁.eq_takeWhile.trans h₂.eq_takeWhile.symm
  subst hvs
  exact ⟨rfl, passes_unique h₁.passes h₂.passes⟩

theorem PassesAll.cons {p : σ → Bool} {c c₁ c' : Cursor σ} {v : σ} {vs : List σ} (hv : p v = true)
    (h₁ : c.Passes [v] c₁) (h : c₁.PassesAll p vs c') : c.PassesAll p (v :: vs) c' :=
  ⟨passes_cons.2 ⟨c₁, h₁, h.passes⟩, List.forall_mem_cons.2 ⟨hv, h.all⟩, h.stops⟩

theorem passesAll_dropWhile (p : σ → Bool) (c : Cursor σ) :
    c.PassesAll p (c.values.takeWhile p) (c.dropWhile p) := by
  suffices h : ∀ (xs : List (Spanned σ)) (i s : Nat),
      PassesAll p ⟨xs, i, s, c.ending⟩ ((xs.map (·.value)).takeWhile p)
        (dropWhile.go p c xs i s) from
    h c.rest c.index c.stop
  intro xs
  induction xs with
  | nil => intro i s; exact ⟨rfl, nofun, nofun⟩
  | cons x xs ih =>
      intro i s
      rw [dropWhile.go, List.map_cons, List.takeWhile_cons]
      by_cases hx : p x.value = true
      · rw [if_pos hx, if_pos hx]
        exact (ih (i + 1) x.span.stop).cons hx ⟨x, xs, rfl, rfl, rfl⟩
      · rw [if_neg hx, if_neg hx]
        refine ⟨rfl, nofun, ?_⟩
        intro v hv
        cases hv
        simpa using hx

theorem PassesAll.eq_dropWhile {p : σ → Bool} {c c' : Cursor σ} {vs : List σ}
    (h : c.PassesAll p vs c') : c.dropWhile p = c' :=
  ((passesAll_dropWhile p c).unique h).2

end Cursor

namespace Parser

/-! ### Replies of sequences and alternatives -/

section Sequences

variable {p : Parser σ α} {f : α → Parser σ β} {c c₁ c₂ : Cursor σ} {a : α} {b : β}
  {g : Failure σ} {met₁ met₂ : Option (Failure σ)}

theorem run_bind_of_error (h : p.run c = .error g) : (p >>= f).run c = .error g := by
  change (bind p f).run c = _
  simp only [bind, h]

theorem run_bind_of_later_error (h₁ : p.run c = .ok a c₁ met₁) (h₂ : (f a).run c₁ = .error g) :
    (p >>= f).run c = .error (g.orEarlier met₁) := by
  change (bind p f).run c = _
  simp only [bind, h₁, h₂]

theorem run_bind_of_ok (h₁ : p.run c = .ok a c₁ met₁) (h₂ : (f a).run c₁ = .ok b c₂ met₂) :
    (p >>= f).run c = .ok b c₂ (Failure.latest met₁ met₂) := by
  change (bind p f).run c = _
  simp only [bind, h₁, h₂]

theorem run_return_of_ok (h : p.run c = .ok a c₁ met₁) (f : α → β) :
    (p >>= fun a => Pure.pure (f a)).run c = .ok (f a) c₁ met₁ := by
  rw [run_bind_of_ok h rfl, Failure.latest_none]

theorem run_optional_bind_of_error {f : Option α → Parser σ β} (hnone : f none = Pure.pure b)
    (h : p.run c = .error g) : (optional p >>= f).run c = .ok b c (some g) := by
  have hoptional : (optional p).run c = .ok none c (some g) := by simp only [optional, h]
  rw [run_bind_of_ok hoptional (congrArg (fun q => q.run c) hnone), Failure.latest_none]

theorem run_optional_bind_of_ok {f : Option α → Parser σ β} (h : p.run c = .ok a c₁ met₁) :
    (optional p >>= f).run c = (p >>= fun a => f (some a)).run c := by
  change (bind (optional p) f).run c = (bind p fun a => f (some a)).run c
  simp only [bind, optional, h]

end Sequences

section Alternatives

variable {p q : Parser σ α} {c c' : Cursor σ} {a : α} {f g : Failure σ} {met : Option (Failure σ)}

theorem run_orElse_of_ok (h : p.run c = .ok a c' met) : (p <|> q).run c = .ok a c' met := by
  change (p.orElse q).run c = _
  simp only [orElse, h]

theorem run_orElse_of_second (hp : p.run c = .error f) (hq : q.run c = .ok a c' met) :
    (p <|> q).run c = .ok a c' met := by
  change (p.orElse q).run c = _
  simp only [orElse, hp, hq]

theorem run_orElse_of_errors (hp : p.run c = .error f) (hq : q.run c = .error g) :
    (p <|> q).run c = .error (g.further f) := by
  change (p.orElse q).run c = _
  simp only [orElse, hp, hq]

end Alternatives

/-! ### Readings -/

/-- What `p` reads at `c`: its value and the place behind it. -/
def read (p : Parser σ α) (c : Cursor σ) : Option (α × Cursor σ) :=
  match p.run c with
  | .ok a c' _ => some (a, c')
  | .error _ => none

/-- A sequence reads its first part and goes on from there. -/
theorem read_bind (p : Parser σ α) (f : α → Parser σ β) (c : Cursor σ) :
    (p >>= f).read c = (p.read c).bind fun r => (f r.1).read r.2 := by
  cases hp : p.run c with
  | error failure => simp [read, run_bind_of_error hp, hp]
  | ok a c₁ met₁ =>
      cases hf : (f a).run c₁ with
      | error failure => simp [read, run_bind_of_later_error hp hf, hp, hf]
      | ok b c₂ met₂ => simp [read, run_bind_of_ok hp hf, hp, hf]

@[simp] theorem read_pure (a : α) (c : Cursor σ) :
    (Pure.pure a : Parser σ α).read c = some (a, c) := rfl

theorem read_bind_eq_some {p : Parser σ α} {f : α → Parser σ β} {c c' : Cursor σ} {b : β} :
    (p >>= f).read c = some (b, c') ↔
      ∃ a c₁, p.read c = some (a, c₁) ∧ (f a).read c₁ = some (b, c') := by
  rw [read_bind, Option.bind_eq_some_iff, Prod.exists]

theorem read_bind_of_read {p : Parser σ α} {f : α → Parser σ β} {c c₁ : Cursor σ} {a : α}
    (h : p.read c = some (a, c₁)) : (p >>= f).read c = (f a).read c₁ := by
  rw [read_bind, h, Option.bind_some]

theorem read_bind_eq_none {p : Parser σ α} {f : α → Parser σ β} {c : Cursor σ}
    (h : p.read c = none) : (p >>= f).read c = none := by
  rw [read_bind, h, Option.bind_none]

/-! ### Single items -/

theorem read_item_eq_some {expected : List (Option σ)} {f : σ → Option α} {c c' : Cursor σ}
    {a : α} :
    (item expected f).read c = some (a, c') ↔ ∃ v, f v = some a ∧ c.Passes [v] c' := by
  cases hc : c.rest with
  | nil => simp [read, item, hc, Cursor.Passes]
  | cons x xs =>
      have hpass : (∃ v, f v = some a ∧ c.Passes [v] c') ↔
          f x.value = some a ∧ c' = c.after x xs := by
        simp only [Cursor.Passes, hc, List.cons.injEq]
        constructor
        · rintro ⟨_, hv, _, _, ⟨rfl, rfl⟩, rfl, rfl⟩
          exact ⟨hv, rfl⟩
        · rintro ⟨hv, rfl⟩
          exact ⟨_, hv, x, xs, ⟨rfl, rfl⟩, rfl, rfl⟩
      rw [hpass]
      cases hx : f x.value <;> simp [read, item, hc, hx, eq_comm]

theorem read_item_eq_none {expected : List (Option σ)} {f : σ → Option α} {c : Cursor σ}
    (h : ∀ v, c.next = some v → f v = none) : (item expected f).read c = none := by
  rw [Option.eq_none_iff_forall_ne_some]
  rintro ⟨a, c'⟩ hr
  obtain ⟨v, hv, hp⟩ := read_item_eq_some.1 hr
  simp [h v (Cursor.next_of_passes hp)] at hv

theorem read_satisfy_eq_some {p : σ → Bool} {c c' : Cursor σ} {a : σ} :
    (satisfy p).read c = some (a, c') ↔ p a = true ∧ c.Passes [a] c' := by
  unfold satisfy select
  rw [read_item_eq_some]
  constructor
  · rintro ⟨v, hv, h⟩
    split at hv
    · next hp => cases hv; exact ⟨hp, h⟩
    · cases hv
  · rintro ⟨hp, h⟩
    exact ⟨a, if_pos hp, h⟩

theorem read_satisfy_eq_none {p : σ → Bool} {c : Cursor σ}
    (h : ∀ v, c.next = some v → p v = false) : (satisfy p).read c = none := by
  unfold satisfy select
  exact read_item_eq_none fun v hv => by simp [h v hv]

section Just

variable [DecidableEq σ]

theorem read_just_eq_some {x a : σ} {c c' : Cursor σ} :
    (just x).read c = some (a, c') ↔ a = x ∧ c.Passes [x] c' := by
  unfold just
  rw [read_item_eq_some]
  constructor
  · rintro ⟨v, hv, h⟩
    split at hv
    · next hx =>
        subst hx
        exact ⟨(Option.some.inj hv).symm, h⟩
    · cases hv
  · rintro ⟨rfl, h⟩
    exact ⟨a, if_pos rfl, h⟩

theorem read_just_of_passes {x : σ} {c c' : Cursor σ} (h : c.Passes [x] c') :
    (just x).read c = some (x, c') := read_just_eq_some.2 ⟨rfl, h⟩

theorem read_just_eq_none {x : σ} {c : Cursor σ} (h : c.next ≠ some x) :
    (just x).read c = none := by
  unfold just
  refine read_item_eq_none fun v hv => if_neg ?_
  rintro rfl
  exact h hv

theorem read_between_eq_some {opening closing : σ} {p : Parser σ α} {c c' : Cursor σ} {a : α} :
    (between opening closing p).read c = some (a, c') ↔
      ∃ c₁ c₂, c.Passes [opening] c₁ ∧ p.read c₁ = some (a, c₂) ∧ c₂.Passes [closing] c' := by
  unfold between
  simp only [read_bind_eq_some, read_just_eq_some, read_pure]
  constructor
  · rintro ⟨_, c₁, ⟨rfl, h₁⟩, b, c₂, h₂, _, c₃, ⟨rfl, h₃⟩, h⟩
    cases h
    exact ⟨c₁, c₂, h₁, h₂, h₃⟩
  · rintro ⟨c₁, c₂, h₁, h₂, h₃⟩
    exact ⟨_, c₁, ⟨rfl, h₁⟩, a, c₂, h₂, _, c', ⟨rfl, h₃⟩, rfl⟩

theorem read_between_eq_none {opening closing : σ} {p : Parser σ α} {c : Cursor σ}
    (h : c.next ≠ some opening) : (between opening closing p).read c = none :=
  read_bind_eq_none (read_just_eq_none h)

end Just

theorem read_ending_eq_some {c c' : Cursor σ} {u : Unit} :
    (ending : Parser σ Unit).read c = some (u, c') ↔ c.rest = [] ∧ c' = c := by
  cases hc : c.rest <;> simp [read, ending, hc, eq_comm]

/-! ### Alternatives -/

theorem read_orElse (p q : Parser σ α) (c : Cursor σ) :
    (p <|> q).read c = (p.read c).or (q.read c) := by
  cases hp : p.run c with
  | ok a c' met => simp [read, run_orElse_of_ok hp, hp]
  | error first =>
      cases hq : q.run c with
      | ok a c' met => simp [read, run_orElse_of_second hp hq, hp, hq]
      | error second => simp [read, run_orElse_of_errors hp hq, hp, hq]

/-- The first alternative that reads anything. -/
theorem read_firstOf (c : Cursor σ) : ∀ ps : List (Parser σ α),
    (firstOf ps).read c = ps.findSome? fun p => p.read c
  | [] => rfl
  | [p] => by
      rw [firstOf, List.findSome?_cons, List.findSome?_nil]
      cases p.read c <;> rfl
  | p :: q :: ps => by
      change (p <|> firstOf (q :: ps)).read c = _
      rw [read_orElse, read_firstOf c (q :: ps)]
      generalize q :: ps = qs
      rw [List.findSome?_cons]
      cases p.read c <;> rfl

theorem read_optional (p : Parser σ α) (c : Cursor σ) :
    (optional p).read c =
      match p.read c with
      | none => some (none, c)
      | some (a, c') => some (some a, c') := by
  cases hp : p.run c <;> simp [read, optional, hp]

/-! ### Repetitions -/

/-- All that `p` reads has at least one item. -/
def Progresses (p : Parser σ α) : Prop :=
  ∀ ⦃c : Cursor σ⦄ ⦃a : α⦄ ⦃c' : Cursor σ⦄, p.read c = some (a, c') → c'.rest.length < c.rest.length

theorem read_upTo_succ (p : Parser σ α) (n : Nat) (c : Cursor σ) :
    (upTo p (n + 1)).read c =
      match p.read c with
      | none => some ([], c)
      | some (a, c') => ((upTo p n).read c').map fun r => (a :: r.1, r.2) := by
  rw [upTo, read_bind, read_optional]
  cases p.read c with
  | none => rfl
  | some r =>
      simp only [Option.bind_some, read_bind, read_pure]
      cases (upTo p n).read r.2 <;> rfl

/-- A budget above the number of items ahead is never used up. -/
theorem read_upTo_congr {p : Parser σ α} (hp : p.Progresses) : ∀ {m n : Nat} {c : Cursor σ},
    c.rest.length < m → c.rest.length < n → (upTo p m).read c = (upTo p n).read c
  | 0, _, _, hm, _ => absurd hm (by omega)
  | _, 0, _, _, hn => absurd hn (by omega)
  | m + 1, n + 1, c, hm, hn => by
      rw [read_upTo_succ, read_upTo_succ]
      cases h : p.read c with
      | none => rfl
      | some r =>
          have := hp h
          simp only [read_upTo_congr hp (m := m) (n := n) (c := r.2) (by omega) (by omega)]

theorem read_repeated_of_none {p : Parser σ α} {c : Cursor σ} (h : p.read c = none) :
    (repeated p).read c = some ([], c) := by
  change (upTo p (c.rest.length + 1)).read c = _
  rw [read_upTo_succ, h]

theorem read_repeated_of_some {p : Parser σ α} (hp : p.Progresses) {c c' : Cursor σ} {a : α}
    (h : p.read c = some (a, c')) :
    (repeated p).read c = ((repeated p).read c').map fun r => (a :: r.1, r.2) := by
  have := hp h
  change (upTo p (c.rest.length + 1)).read c =
    ((upTo p (c'.rest.length + 1)).read c').map fun r => (a :: r.1, r.2)
  rw [read_upTo_succ, h]
  simp only [read_upTo_congr hp (m := c.rest.length) (n := c'.rest.length + 1) (c := c')
    (by omega) (by omega)]

theorem progresses_satisfy (p : σ → Bool) : (satisfy p).Progresses := by
  intro c a c' h
  have := Cursor.length_of_passes (read_satisfy_eq_some.1 h).2
  rw [List.length_singleton] at this
  omega

theorem exists_read_repeated_satisfy (p : σ → Bool) : ∀ (n : Nat) (c : Cursor σ),
    c.rest.length ≤ n →
      ∃ vs c', (repeated (satisfy p)).read c = some (vs, c') ∧ c.PassesAll p vs c' := by
  intro n
  induction n with
  | zero =>
      intro c hn
      have hend : c.next = none := by
        rw [Cursor.next, List.length_eq_zero_iff.1 (by omega : c.rest.length = 0)]; rfl
      refine ⟨[], c, read_repeated_of_none (read_satisfy_eq_none ?_), rfl, nofun, ?_⟩
      all_goals simp [hend]
  | succ n ih =>
      intro c hn
      cases hr : (satisfy p).read c with
      | none =>
          refine ⟨[], c, read_repeated_of_none hr, rfl, nofun, ?_⟩
          intro v hv
          obtain ⟨c', hc'⟩ := Cursor.exists_passes_of_next hv
          cases hpv : p v with
          | false => rfl
          | true => rw [read_satisfy_eq_some.2 ⟨hpv, hc'⟩] at hr; cases hr
      | some r =>
          obtain ⟨v, c₁⟩ := r
          obtain ⟨hv, hpass⟩ := read_satisfy_eq_some.1 hr
          have := progresses_satisfy p hr
          obtain ⟨vs, c', hread, hall⟩ := ih c₁ (by omega)
          refine ⟨v :: vs, c', ?_, hall.cons hv hpass⟩
          rw [read_repeated_of_some (progresses_satisfy p) hr, hread]
          rfl

/-- The repetition of a test reads the items that pass it, all of them. -/
theorem read_repeated_satisfy_eq_some {p : σ → Bool} {c c' : Cursor σ} {vs : List σ} :
    (repeated (satisfy p)).read c = some (vs, c') ↔ c.PassesAll p vs c' := by
  obtain ⟨ws, d, hread, hall⟩ := exists_read_repeated_satisfy p _ c (Nat.le_refl _)
  rw [hread]
  constructor
  · rintro ⟨⟩
    exact hall
  · intro h
    obtain ⟨rfl, rfl⟩ := hall.unique h
    rfl

/-! ### Recursion -/

theorem read_fix (step : Parser σ α → Parser σ α) (c : Cursor σ) :
    (fix step).read c = (nested step (c.rest.length + 1)).read c := rfl

/-! ### Names, places and checks -/

@[simp] theorem read_labelled (label : String) (p : Parser σ α) (c : Cursor σ) :
    (labelled label p).read c = p.read c := by
  cases hp : p.run c <;> simp [read, labelled, hp]

theorem read_spanned (p : Parser σ α) (c : Cursor σ) :
    (spanned p).read c = (p.read c).map fun r => (⟨⟨c.here.start, r.2.stop⟩, r.1⟩, r.2) := by
  cases hp : p.run c <;> simp [read, spanned, hp]

theorem read_check (p : Parser σ α) (f : Spanned α → Except (Problem σ) β) (c : Cursor σ) :
    (p.check f).read c =
      (p.spanned.read c).bind fun r => (f r.1).toOption.map fun b => (b, r.2) := by
  cases hp : p.spanned.run c with
  | error failure => simp [read, check, hp]
  | ok a c' met => cases hf : f a <;> simp [read, check, hp, hf, Except.toOption]

theorem read_padded (blank : σ → Bool) (p : Parser σ α) (c : Cursor σ) :
    (padded blank p).read c =
      (p.read (c.dropWhile blank)).map fun r => (r.1, r.2.dropWhile blank) := by
  cases hp : p.run (c.dropWhile blank) <;> simp [read, padded, hp]

/-! ### Whole inputs -/

/-- A parse succeeds where the parser reads all items. -/
theorem parse_eq_ok_iff {p : Parser σ α} {items : List (Spanned σ)} {atEnd : Span} {a : α} :
    p.parse items atEnd = .ok a ↔
      ∃ c', p.read (.ofItems items atEnd) = some (a, c') ∧ c'.rest = [] := by
  have key : p.parse items atEnd = .ok a ↔
      ∃ c', p.whole.read (.ofItems items atEnd) = some (a, c') := by
    unfold parse read
    cases p.whole.run (.ofItems items atEnd) <;> simp
  rw [key]
  unfold whole
  simp only [read_bind_eq_some, read_ending_eq_some, read_pure]
  constructor
  · rintro ⟨_, b, c₁, h, _, _, ⟨hrest, rfl⟩, hb⟩
    cases hb
    exact ⟨_, h, hrest⟩
  · rintro ⟨c', h, hrest⟩
    exact ⟨c', a, c', h, (), c', ⟨hrest, rfl⟩, rfl⟩

/-- The problem of a failed parse is that of a failure. -/
theorem exists_failure_of_parse {p : Parser σ α} {items : List (Spanned σ)} {atEnd : Span}
    {problem : Problem σ} (h : p.parse items atEnd = .error problem) :
    ∃ f : Failure σ, f.problem = problem ∧ p.whole.run (.ofItems items atEnd) = .error f := by
  unfold parse at h
  cases hrun : p.whole.run (.ofItems items atEnd) with
  | ok a c' met =>
      rw [hrun] at h
      cases h
  | error f =>
      rw [hrun] at h
      cases h
      exact ⟨f, rfl, rfl⟩

/-- A whole input fails where its parser does, or at an item behind those that are read. -/
theorem failure_of_whole {p : Parser σ α} {c : Cursor σ} {f : Failure σ}
    (h : p.whole.run c = .error f) : p.run c = .error f ∨
      ∃ a c' met, p.run c = .ok a c' met ∧ c'.next ≠ none ∧
        f = (c'.unexpected [none]).orEarlier met := by
  unfold whole at h
  cases hrun : p.run c with
  | error g =>
      rw [run_bind_of_error hrun] at h
      cases h
      exact .inl rfl
  | ok a c' met =>
      cases hrest : c'.rest with
      | nil =>
          have hend : (ending : Parser σ Unit).run c' = .ok () c' none := by
            simp only [ending, hrest]
          rw [run_bind_of_ok hrun (run_return_of_ok hend fun _ => a)] at h
          cases h
      | cons x xs =>
          have hend : (ending : Parser σ Unit).run c' = .error (c'.unexpected [none]) := by
            simp only [ending, hrest]
          rw [run_bind_of_later_error hrun (run_bind_of_error hend)] at h
          cases h
          refine .inr ⟨a, c', met, rfl, ?_, rfl⟩
          rw [Cursor.next, hrest]
          nofun

end Parser

/-! ### Steps that can refuse -/

theorem error_of_bind {ε α β : Type} {x : Except ε α} {f : α → Except ε β} {e : ε}
    (h : (x >>= f) = .error e) : x = .error e ∨ ∃ a, x = .ok a ∧ f a = .error e := by
  cases x with
  | error _ => cases h; exact .inl rfl
  | ok a => exact .inr ⟨a, rfl, h⟩

theorem ok_of_bind {ε α β : Type} {x : Except ε α} {f : α → Except ε β} {b : β}
    (h : (x >>= f) = .ok b) : ∃ a, x = .ok a ∧ f a = .ok b := by
  cases x with
  | error _ => cases h
  | ok a => exact ⟨a, rfl, h⟩

theorem error_of_mapError {ε ε' α : Type} {x : Except ε α} {f : ε → ε'} {e : ε'}
    (h : x.mapError f = .error e) : ∃ d, x = .error d ∧ e = f d := by
  cases x with
  | error d =>
      cases h
      exact ⟨d, rfl, rfl⟩
  | ok a => cases h

theorem ok_of_mapError {ε ε' α : Type} {x : Except ε α} {f : ε → ε'} {a : α}
    (h : x.mapError f = .ok a) : x = .ok a := by
  cases x with
  | error d => cases h
  | ok b => cases h; rfl

end Redline.Parsing
