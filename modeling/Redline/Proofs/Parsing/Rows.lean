import Redline.Proofs.Parsing.Reading

/-! # Rows of values

The values that the repetitions read fall into pieces, one for each result: `Sequence` puts the
pieces next to each other, `Separated` puts a separator between neighbours, and `SepBy` and
`SepEndBy` are what the parsers of these names look for, the second with one more separator allowed
at the end.  All of them are over a relation between the values of a piece and its result.

A repetition that is sound for its pieces is sound for the row (`Sound.sepBy`, `Sound.sepEndBy`),
and it takes every row of pieces that its item takes (`read_sepBy_of_separated`,
`takes_sepEndBy`).  Place by place, what `sepEndBy` reads is an item and behind the separator
another row (`read_sepEndBy_of_separator`, `read_sepEndBy_cases`). -/

namespace Redline.Parsing

variable {σ α β : Type}

/-- Pieces next to each other. -/
inductive Sequence (P : List σ → α → Prop) : List σ → List α → Prop
  | nil : Sequence P [] []
  | cons {vs ws : List σ} {a : α} {as : List α} :
      P vs a → Sequence P ws as → Sequence P (vs ++ ws) (a :: as)

/-- At least one piece, with a separator between neighbours. -/
inductive Separated (P : List σ → α → Prop) (separator : σ) : List σ → List α → Prop
  | one {vs : List σ} {a : α} : P vs a → Separated P separator vs [a]
  | cons {vs ws : List σ} {a : α} {as : List α} :
      P vs a → Separated P separator ws as →
        Separated P separator (vs ++ separator :: ws) (a :: as)

/-- Any number of pieces, with a separator between neighbours. -/
inductive SepBy (P : List σ → α → Prop) (separator : σ) : List σ → List α → Prop
  | none : SepBy P separator [] []
  | row {vs : List σ} {as : List α} : Separated P separator vs as → SepBy P separator vs as

/-- As `SepBy`, and one more separator may follow the last piece. -/
inductive SepEndBy (P : List σ → α → Prop) (separator : σ) : List σ → List α → Prop
  | none : SepEndBy P separator [] []
  | row {vs : List σ} {as : List α} : Separated P separator vs as → SepEndBy P separator vs as
  | trailing {vs : List σ} {as : List α} :
      Separated P separator vs as → SepEndBy P separator (vs ++ [separator]) as

theorem Separated.exists_cons {P : List σ → α → Prop} {x : σ} {vs : List σ} {as : List α}
    (h : Separated P x vs as) : ∃ b bs, as = b :: bs := by
  cases h <;> exact ⟨_, _, rfl⟩

/-- The relation of the pieces matters only on pieces that fit into the row. -/
theorem Separated.imp {P Q : List σ → α → Prop} {x : σ} {vs : List σ} {as : List α}
    (h : Separated P x vs as) (hPQ : ∀ ws a, ws.length ≤ vs.length → P ws a → Q ws a) :
    Separated Q x vs as := by
  induction h with
  | one h => exact .one (hPQ _ _ (Nat.le_refl _) h)
  | cons h _ ih =>
      refine .cons (hPQ _ _ (by simp) h) (ih fun ws a hws => hPQ ws a ?_)
      rw [List.length_append, List.length_cons]
      omega

theorem SepBy.imp {P Q : List σ → α → Prop} {x : σ} {vs : List σ} {as : List α}
    (h : SepBy P x vs as) (hPQ : ∀ ws a, ws.length ≤ vs.length → P ws a → Q ws a) :
    SepBy Q x vs as := by
  cases h with
  | none => exact .none
  | row h => exact .row (h.imp hPQ)

theorem SepEndBy.imp {P Q : List σ → α → Prop} {x : σ} {vs : List σ} {as : List α}
    (h : SepEndBy P x vs as) (hPQ : ∀ ws a, ws.length ≤ vs.length → P ws a → Q ws a) :
    SepEndBy Q x vs as := by
  cases h with
  | none => exact .none
  | row h => exact .row (h.imp hPQ)
  | trailing h =>
      refine .trailing (h.imp fun ws a hws => hPQ ws a ?_)
      rw [List.length_append]
      omega

/-- Each result has its piece among the values. -/
theorem Separated.exists_piece {P : List σ → α → Prop} {x : σ} {vs : List σ} {as : List α}
    (h : Separated P x vs as) : ∀ a ∈ as, ∃ ws, ws ⊆ vs ∧ P ws a := by
  induction h with
  | one h => exact List.forall_mem_singleton.2 ⟨_, List.Subset.refl _, h⟩
  | cons h _ ih =>
      refine List.forall_mem_cons.2 ⟨⟨_, List.subset_append_left _ _, h⟩, fun a ha => ?_⟩
      obtain ⟨ws, hws, hP⟩ := ih a ha
      exact ⟨ws, fun _ hv => List.mem_append_right _ (List.mem_cons_of_mem _ (hws hv)), hP⟩

theorem SepBy.exists_piece {P : List σ → α → Prop} {x : σ} {vs : List σ} {as : List α}
    (h : SepBy P x vs as) : ∀ a ∈ as, ∃ ws, ws ⊆ vs ∧ P ws a := by
  cases h with
  | none => exact nofun
  | row h => exact h.exists_piece

theorem SepEndBy.exists_piece {P : List σ → α → Prop} {x : σ} {vs : List σ} {as : List α}
    (h : SepEndBy P x vs as) : ∀ a ∈ as, ∃ ws, ws ⊆ vs ∧ P ws a := by
  cases h with
  | none => exact nofun
  | row h => exact h.exists_piece
  | trailing h =>
      intro a ha
      obtain ⟨ws, hws, hP⟩ := h.exists_piece a ha
      exact ⟨ws, fun _ hv => List.mem_append_left _ (hws hv), hP⟩

theorem Sequence.imp {P Q : List σ → α → Prop} {vs : List σ} {as : List α} (h : Sequence P vs as)
    (hPQ : ∀ ws a, P ws a → Q ws a) : Sequence Q vs as := by
  induction h with
  | nil => exact .nil
  | cons h _ ih => exact .cons (hPQ _ _ h) ih

theorem Separated.of_sequence {P : List σ → α → Prop} {x : σ} {ws : List σ} {as : List α}
    (h : Sequence (fun us a => ∃ vs, us = x :: vs ∧ P vs a) ws as) :
    ∀ {vs : List σ} {a : α}, P vs a → Separated P x (vs ++ ws) (a :: as) := by
  induction h with
  | nil => intro vs a ha; rw [List.append_nil]; exact .one ha
  | cons h _ ih =>
      intro vs a ha
      obtain ⟨us, rfl, hus⟩ := h
      exact .cons ha (ih hus)

namespace Parser

/-- All that `p` reads are items whose values stand in the relation `P` to the result. -/
def Sound (p : Parser σ α) (P : List σ → α → Prop) : Prop :=
  ∀ ⦃c : Cursor σ⦄ ⦃a : α⦄ ⦃c' : Cursor σ⦄, p.read c = some (a, c') → ∃ vs, c.Passes vs c' ∧ P vs a

/-- `p` reads `vs` as `a` wherever they stand in front of an item that satisfies `F`, which is told
about the end of the input as well. -/
def Takes (p : Parser σ α) (F : Option σ → Prop) (vs : List σ) (a : α) : Prop :=
  ∀ ⦃c c' : Cursor σ⦄, c.Passes vs c' → F c'.next → p.read c = some (a, c')

theorem Sound.progresses {p : Parser σ α} {P : List σ → α → Prop} (h : p.Sound P)
    (hP : ∀ ⦃vs a⦄, P vs a → vs ≠ []) : p.Progresses := by
  intro c a c' hr
  obtain ⟨vs, hpass, ha⟩ := h hr
  have := Cursor.length_of_passes hpass
  have := List.length_pos_iff.2 (hP ha)
  omega

/-! ### What repetitions read -/

theorem Sound.upTo {p : Parser σ α} {P : List σ → α → Prop} (h : p.Sound P) :
    ∀ n, (upTo p n).Sound (Sequence P)
  | 0 => by
      intro c as c' hr
      cases hr
      exact ⟨[], rfl, .nil⟩
  | n + 1 => by
      intro c as c' hr
      rw [read_upTo_succ] at hr
      cases hp : p.read c with
      | none =>
          rw [hp] at hr
          cases hr
          exact ⟨[], rfl, .nil⟩
      | some r =>
          obtain ⟨a, c₁⟩ := r
          simp only [hp, Option.map_eq_some_iff, Prod.mk.injEq, Prod.exists] at hr
          obtain ⟨as', c₂, hrest, rfl, rfl⟩ := hr
          obtain ⟨vs, h₁, ha⟩ := h hp
          obtain ⟨ws, h₂, has⟩ := h.upTo n hrest
          exact ⟨vs ++ ws, Cursor.passes_append.2 ⟨c₁, h₁, h₂⟩, .cons ha has⟩

theorem Sound.repeated {p : Parser σ α} {P : List σ → α → Prop} (h : p.Sound P) :
    (repeated p).Sound (Sequence P) :=
  fun c _ _ hr => h.upTo (c.rest.length + 1) hr

/-- Pieces that the item takes are read by its repetition, which ends where the item refuses. -/
theorem read_repeated_of_sequence {p : Parser σ α} (hp : p.Progresses) {vs : List σ} {as : List α}
    (h : Sequence (p.Takes fun _ => True) vs as) : ∀ {c c' : Cursor σ}, c.Passes vs c' →
      p.read c' = none → (repeated p).read c = some (as, c') := by
  induction h with
  | nil =>
      rintro c c' ⟨⟩ hstop
      exact read_repeated_of_none hstop
  | cons h _ ih =>
      intro c c' hpass hstop
      obtain ⟨c₁, h₁, h₂⟩ := Cursor.passes_append.1 hpass
      rw [read_repeated_of_some hp (h h₁ trivial), ih h₂ hstop]
      rfl

section Separators

variable [DecidableEq σ] {p : Parser σ α} {x : σ}

theorem read_sepBy (c : Cursor σ) :
    (sepBy p (just x)).read c =
      match p.read c with
      | none => some ([], c)
      | some (a, c') =>
          ((repeated do let _ ← just x; p).read c').map fun r => (a :: r.1, r.2) := by
  unfold sepBy
  rw [read_bind, read_optional]
  cases p.read c with
  | none => rfl
  | some r =>
      simp only [Option.bind_some, read_bind (repeated _), read_pure]
      cases (repeated do let _ ← just x; p).read r.2 <;> rfl

theorem Sound.sepBy {P : List σ → α → Prop} (h : p.Sound P) :
    (sepBy p (just x)).Sound (SepBy P x) := by
  intro c as c' hr
  rw [read_sepBy] at hr
  cases hp : p.read c with
  | none =>
      rw [hp] at hr
      cases hr
      exact ⟨[], rfl, .none⟩
  | some r =>
      obtain ⟨a, c₁⟩ := r
      simp only [hp, Option.map_eq_some_iff, Prod.mk.injEq, Prod.exists] at hr
      obtain ⟨as', c₂, hrest, rfl, rfl⟩ := hr
      obtain ⟨vs, h₁, ha⟩ := h hp
      have hitem : (just x >>= fun _ => p).Sound fun us a => ∃ vs, us = x :: vs ∧ P vs a := by
        intro c a c' hr
        obtain ⟨_, d, hx, hpd⟩ := read_bind_eq_some.1 hr
        obtain ⟨_, hx⟩ := read_just_eq_some.1 hx
        obtain ⟨vs, hvs, hP⟩ := h hpd
        exact ⟨x :: vs, Cursor.passes_cons.2 ⟨d, hx, hvs⟩, vs, rfl, hP⟩
      obtain ⟨ws, h₂, hws⟩ := hitem.repeated hrest
      exact ⟨vs ++ ws, Cursor.passes_append.2 ⟨c₁, h₁, h₂⟩, .row (.of_sequence hws ha)⟩

theorem read_sepEndBy_of_nil {c c' : Cursor σ} (h : (sepBy p (just x)).read c = some ([], c')) :
    (sepEndBy p (just x)).read c = some ([], c') := by
  unfold sepEndBy
  rw [read_bind_of_read h]
  rfl

theorem read_sepEndBy_of_cons {c c' : Cursor σ} {a : α} {as : List α}
    (h : (sepBy p (just x)).read c = some (a :: as, c')) :
    (sepEndBy p (just x)).read c =
      some (a :: as, ((just x).read c').elim c' (·.2)) := by
  unfold sepEndBy
  rw [read_bind_of_read h]
  simp only [read_bind, read_optional, read_pure]
  cases (just x).read c' <;> rfl

theorem Progresses.afterJust (hp : p.Progresses) : (just x >>= fun _ => p).Progresses := by
  intro c a c' hr
  obtain ⟨_, d, hx, hpd⟩ := read_bind_eq_some.1 hr
  have := Cursor.length_of_passes (read_just_eq_some.1 hx).2
  have := hp hpd
  omega

theorem read_sepEndBy_of_none {c : Cursor σ} (h : p.read c = none) :
    (sepEndBy p (just x)).read c = some ([], c) := by
  refine read_sepEndBy_of_nil ?_
  rw [read_sepBy, h]

/-- An item that no other item follows is the last one. -/
theorem read_sepBy_of_last {c c₁ : Cursor σ} {a : α} (h : p.read c = some (a, c₁))
    (hend : (just x >>= fun _ => p).read c₁ = none) :
    (sepBy p (just x)).read c = some ([a], c₁) := by
  rw [read_sepBy, h]
  simp only [read_repeated_of_none hend]
  rfl

theorem read_sepEndBy_of_last {c c₁ : Cursor σ} {a : α} (h : p.read c = some (a, c₁))
    (hx : (just x).read c₁ = none) : (sepEndBy p (just x)).read c = some ([a], c₁) := by
  rw [read_sepEndBy_of_cons (read_sepBy_of_last h (read_bind_eq_none hx)), hx]
  rfl

/-- Behind a separator the row goes on as another row, which may be empty. -/
theorem read_sepEndBy_of_separator (hp : p.Progresses) {c c₁ c₂ : Cursor σ} {a : α} {y : σ}
    (h : p.read c = some (a, c₁)) (hx : (just x).read c₁ = some (y, c₂)) :
    (sepEndBy p (just x)).read c =
      ((sepEndBy p (just x)).read c₂).map fun r => (a :: r.1, r.2) := by
  have hitem : (just x >>= fun _ => p).read c₁ = p.read c₂ := read_bind_of_read hx
  cases hb : p.read c₂ with
  | none =>
      rw [read_sepEndBy_of_cons (read_sepBy_of_last h (hitem.trans hb)), hx,
        read_sepEndBy_of_none hb]
      rfl
  | some t =>
      obtain ⟨b, c₃⟩ := t
      have hrow : (sepBy p (just x)).read c =
          ((sepBy p (just x)).read c₂).map fun r => (a :: r.1, r.2) := by
        rw [read_sepBy, read_sepBy, h, hb]
        simp only [read_repeated_of_some hp.afterJust (hitem.trans hb)]
      cases hbs : (repeated do let _ ← just x; p).read c₃ with
      | none =>
          have hrest : (sepBy p (just x)).read c₂ = none := by
            rw [read_sepBy, hb]
            simp only [hbs, Option.map_none]
          rw [hrest] at hrow
          rw [sepEndBy, read_bind_eq_none hrow, read_bind_eq_none hrest]
          rfl
      | some u =>
          have hrest : (sepBy p (just x)).read c₂ = some (b :: u.1, u.2) := by
            rw [read_sepBy, hb]
            simp only [hbs, Option.map_some]
          rw [hrest] at hrow
          rw [read_sepEndBy_of_cons hrow, read_sepEndBy_of_cons hrest]
          rfl

/-- A row is empty, or its first item is the last one, or a separator follows and another row. -/
theorem read_sepEndBy_cases (hp : p.Progresses) {c c' : Cursor σ} {as : List α}
    (h : (sepEndBy p (just x)).read c = some (as, c')) :
    (p.read c = none ∧ as = [] ∧ c' = c) ∨
    (∃ a, p.read c = some (a, c') ∧ as = [a]) ∨
    ∃ a c₁ y c₂ bs, p.read c = some (a, c₁) ∧ (just x).read c₁ = some (y, c₂) ∧
      (sepEndBy p (just x)).read c₂ = some (bs, c') ∧ as = a :: bs := by
  cases ha : p.read c with
  | none =>
      rw [read_sepEndBy_of_none ha] at h
      cases h
      exact .inl ⟨rfl, rfl, rfl⟩
  | some r =>
      obtain ⟨a, c₁⟩ := r
      cases hx : (just x).read c₁ with
      | none =>
          rw [read_sepEndBy_of_last ha hx] at h
          cases h
          exact .inr (.inl ⟨a, rfl, rfl⟩)
      | some s =>
          obtain ⟨y, c₂⟩ := s
          rw [read_sepEndBy_of_separator hp ha hx, Option.map_eq_some_iff] at h
          obtain ⟨⟨bs, _⟩, hbs, ⟨⟩⟩ := h
          exact .inr (.inr ⟨a, c₁, y, c₂, bs, rfl, hx, hbs, rfl⟩)

theorem Sound.sepEndBy {P : List σ → α → Prop} (h : p.Sound P) :
    (sepEndBy p (just x)).Sound (SepEndBy P x) := by
  intro c as c' hr
  cases hs : (Parser.sepBy p (just x)).read c with
  | none =>
      unfold Parser.sepEndBy at hr
      rw [read_bind_eq_none hs] at hr
      cases hr
  | some r =>
      obtain ⟨bs, c₁⟩ := r
      obtain ⟨vs, h₁, hrow⟩ := h.sepBy hs
      cases hrow with
      | none =>
          rw [read_sepEndBy_of_nil hs] at hr
          cases hr
          exact ⟨[], h₁, .none⟩
      | row hrow =>
          obtain ⟨b, bs', rfl⟩ := hrow.exists_cons
          rw [read_sepEndBy_of_cons hs] at hr
          cases hx : (just x).read c₁ with
          | none =>
              rw [hx] at hr
              cases hr
              exact ⟨vs, h₁, .row hrow⟩
          | some r =>
              obtain ⟨y, c₂⟩ := r
              rw [hx] at hr
              cases hr
              obtain ⟨_, h₂⟩ := read_just_eq_some.1 hx
              exact ⟨vs ++ [x], Cursor.passes_append.2 ⟨c₁, h₁, h₂⟩, .trailing hrow⟩

/-! ### Which rows are taken -/

/-- The first piece of a row is read by the item and the others by the repetition behind it. -/
theorem read_row {F : Option σ → Prop} (hp : p.Progresses) (hF : F (some x)) {vs : List σ}
    {as : List α} (hrow : Separated (p.Takes F) x vs as) {c c' : Cursor σ} (hpass : c.Passes vs c')
    (hnext : F c'.next) (hstop : (just x >>= fun _ => p).read c' = none) :
    ∃ a as' c₁, as = a :: as' ∧ p.read c = some (a, c₁) ∧
      (repeated do let _ ← just x; p).read c₁ = some (as', c') := by
  induction hrow generalizing c with
  | one h => exact ⟨_, [], c', rfl, h hpass hnext, read_repeated_of_none hstop⟩
  | cons h _ ih =>
      obtain ⟨c₁, h₁, hrest⟩ := Cursor.passes_append.1 hpass
      obtain ⟨c₂, hx, h₂⟩ := Cursor.passes_cons.1 hrest
      obtain ⟨b, bs, c₃, rfl, hb, hbs⟩ := ih h₂
      have hread : (just x >>= fun _ => p).read c₁ = some (b, c₃) := by
        rw [read_bind_of_read (read_just_of_passes hx), hb]
      refine ⟨_, b :: bs, c₁, rfl, h h₁ ?_, ?_⟩
      · rw [Cursor.next_of_passes hx]; exact hF
      · rw [read_repeated_of_some hp.afterJust hread, hbs]; rfl

theorem read_sepBy_of_separated {F : Option σ → Prop} (hp : p.Progresses) (hF : F (some x))
    {vs : List σ} {as : List α} (hrow : Separated (p.Takes F) x vs as) {c c' : Cursor σ}
    (hpass : c.Passes vs c') (hnext : F c'.next)
    (hstop : (just x >>= fun _ => p).read c' = none) :
    (sepBy p (just x)).read c = some (as, c') := by
  obtain ⟨a, as', c₁, rfl, ha, has⟩ := read_row hp hF hrow hpass hnext hstop
  rw [read_sepBy, ha]
  simp only [has]
  rfl

/-- A row is taken where neither its pieces nor the row itself go on. -/
theorem takes_sepBy {F : Option σ → Prop} (hp : p.Progresses) (hF : F (some x)) {vs : List σ}
    {as : List α} (hrow : SepBy (p.Takes F) x vs as) :
    (sepBy p (just x)).Takes
      (fun v => F v ∧ v ≠ some x ∧ ∀ c : Cursor σ, c.next = v → p.read c = none) vs as := by
  intro c c' hpass ⟨hnext, hx, hrefuse⟩
  cases hrow with
  | none =>
      cases hpass
      rw [read_sepBy, hrefuse c rfl]
  | row hrow =>
      have hend := read_bind_eq_none (f := fun _ => p) (read_just_eq_none hx)
      exact read_sepBy_of_separated hp hF hrow hpass hnext hend

theorem takes_sepEndBy {F : Option σ → Prop} (hp : p.Progresses) (hF : F (some x)) {vs : List σ}
    {as : List α} (hrow : SepEndBy (p.Takes F) x vs as) :
    (sepEndBy p (just x)).Takes
      (fun v => F v ∧ v ≠ some x ∧ ∀ c : Cursor σ, c.next = v → p.read c = none) vs as := by
  intro c c' hpass hfollow
  obtain ⟨hnext, hx, hrefuse⟩ := hfollow
  cases hrow with
  | none => exact read_sepEndBy_of_nil (takes_sepBy hp hF .none hpass ⟨hnext, hx, hrefuse⟩)
  | row hrow =>
      obtain ⟨a, as', rfl⟩ := hrow.exists_cons
      have hread := takes_sepBy hp hF (.row hrow) hpass ⟨hnext, hx, hrefuse⟩
      rw [read_sepEndBy_of_cons hread, read_just_eq_none hx]
      rfl
  | trailing hrow =>
      obtain ⟨a, as', rfl⟩ := hrow.exists_cons
      obtain ⟨c₁, h₁, h₂⟩ := Cursor.passes_append.1 hpass
      have hread : (sepBy p (just x)).read c = some (a :: as', c₁) := by
        refine read_sepBy_of_separated hp hF hrow h₁ ?_ ?_
        · rw [Cursor.next_of_passes h₂]; exact hF
        -- The separator is there, but no item follows it: the repetition gives it back.
        · rw [read_bind_of_read (read_just_of_passes h₂), hrefuse c' rfl]
      rw [read_sepEndBy_of_cons hread, read_just_of_passes h₂]
      rfl

end Separators

/-! ### Results under a function -/

section Images

variable {p : Parser σ α} {q : Parser σ β} {f : β → α}
  (h : ∀ c, p.read c = (q.read c).map (Prod.map f id))

include h

theorem read_upTo_map : ∀ n c,
    (upTo p n).read c = ((upTo q n).read c).map (Prod.map (List.map f) id)
  | 0, _ => rfl
  | n + 1, c => by
      rw [read_upTo_succ, read_upTo_succ, h c]
      cases q.read c with
      | none => rfl
      | some r =>
          simp only [Option.map_some, Prod.map, id, read_upTo_map n r.2, Option.map_map]
          cases (upTo q n).read r.2 <;> rfl

variable [DecidableEq σ] {x : σ}

theorem read_sepBy_map (c : Cursor σ) :
    (sepBy p (just x)).read c = ((sepBy q (just x)).read c).map (Prod.map (List.map f) id) := by
  have hitem : ∀ c, (just x >>= fun _ => p).read c =
      ((just x >>= fun _ => q).read c).map (Prod.map f id) := by
    intro c
    rw [read_bind, read_bind]
    cases (just x).read c with
    | none => rfl
    | some r => exact h r.2
  rw [read_sepBy, read_sepBy, h c]
  cases q.read c with
  | none => rfl
  | some r =>
      have hrest : (repeated (just x >>= fun _ => p)).read r.2 =
          ((repeated (just x >>= fun _ => q)).read r.2).map (Prod.map (List.map f) id) :=
        read_upTo_map hitem (r.2.rest.length + 1) r.2
      simp only [Option.map_some, Prod.map, id, hrest, Option.map_map]
      cases (repeated (just x >>= fun _ => q)).read r.2 <;> rfl

theorem read_sepEndBy_map (c : Cursor σ) :
    (sepEndBy p (just x)).read c =
      ((sepEndBy q (just x)).read c).map (Prod.map (List.map f) id) := by
  have hrow := read_sepBy_map h (x := x) c
  cases hq : (sepBy q (just x)).read c with
  | none =>
      rw [hq] at hrow
      unfold sepEndBy
      rw [read_bind_eq_none hq, read_bind_eq_none hrow]
      rfl
  | some r =>
      obtain ⟨_ | ⟨b, bs⟩, c'⟩ := r
      · rw [hq] at hrow
        rw [read_sepEndBy_of_nil hq, read_sepEndBy_of_nil hrow]
        rfl
      · rw [hq] at hrow
        rw [read_sepEndBy_of_cons hq, read_sepEndBy_of_cons hrow]
        rfl

end Images

/-! ### Whole inputs -/

/-- A parser that is sound for a relation and takes what stands in it reads all items exactly when
their values stand in it. -/
theorem reads_all_iff {p : Parser σ α} {P : List σ → α → Prop} {F : Option σ → Prop}
    (hsound : p.Sound P) (htakes : ∀ {vs : List σ} {a : α}, P vs a → p.Takes F vs a) (hF : F none)
    {items : List (Spanned σ)} {e : Span} {a : α} :
    (∃ c', p.read (.ofItems items e) = some (a, c') ∧ c'.rest = []) ↔
      P (items.map (·.value)) a := by
  constructor
  · rintro ⟨c', hr, hrest⟩
    obtain ⟨vs, hpass, ha⟩ := hsound hr
    have hvalues := Cursor.values_of_passes hpass
    rw [Cursor.values, Cursor.values, hrest, List.map_nil, List.append_nil] at hvalues
    exact (hvalues : items.map (·.value) = vs) ▸ ha
  · intro ha
    have hall : (Cursor.ofItems items e).values = items.map (·.value) ++ [] :=
      (List.append_nil _).symm
    obtain ⟨c', hpass, hvalues⟩ := Cursor.exists_passes _ hall
    have hrest : c'.rest = [] := List.map_eq_nil_iff.1 hvalues
    refine ⟨c', htakes ha hpass ?_, hrest⟩
    rw [Cursor.next, hrest]
    exact hF

end Parser

end Redline.Parsing
