import Redline.Proofs.Parsing.Locating

/-! # Failures of choices

A choice fails where all its alternatives do.  What it tells is told by one of them, and none of
them fails further on (`exists_alike_of_firstOf`), so an alternative whose first value does not
stand ahead has no say in where the choice fails (`Fails.at_of_heads`, `Fails.widen`).  A choice
that succeeds replies as one of its alternatives does, and nothing has been met behind the place
that is reached if the members of a language only go on to other members (`Contained`). -/

namespace Redline.Parsing

variable {σ α β : Type} {G : Cursor σ → Prop} {L M : List σ → Prop} {c : Cursor σ}
  {f g h : Failure σ}

/-! ### Failures that tell the same -/

namespace Failure

/-- The failures tell the same of the same place; they may expect different items. -/
structure Alike (f g : Failure σ) : Prop where
  index : f.index = g.index
  span : f.problem.span = g.problem.span
  reason : f.problem.reason = g.problem.reason
  found : f.problem.found = g.problem.found

theorem Alike.refl (f : Failure σ) : f.Alike f := ⟨rfl, rfl, rfl, rfl⟩

theorem Alike.trans (hfg : f.Alike g) (hgh : g.Alike h) : f.Alike h :=
  ⟨hfg.index.trans hgh.index, hfg.span.trans hgh.span, hfg.reason.trans hgh.reason,
    hfg.found.trans hgh.found⟩

theorem At.of_alike (hg : g.At c) (h : f.Alike g) : f.At c :=
  ⟨h.index.trans hg.index, h.span.trans hg.span, h.reason.trans hg.reason,
    h.found.trans hg.found⟩

theorem At.alike (hf : f.At c) (hg : g.At c) : f.Alike g :=
  ⟨hf.index.trans hg.index.symm, hf.span.trans hg.span.symm, hf.reason.trans hg.reason.symm,
    hf.found.trans hg.found.symm⟩

/-- A failure that is not less far on speaks first. -/
theorem alike_further (h : g.index ≤ f.index) : (f.further g).Alike f := by
  rw [further, if_neg (Nat.not_lt.2 h)]
  split
  · exact .refl f
  · exact ⟨rfl, rfl, rfl, rfl⟩

theorem alike_further_of_lt (h : f.index < g.index) : (f.further g).Alike g := by
  rw [further, if_pos h]
  exact .refl g

theorem alike_further_or (f g : Failure σ) :
    (f.further g).Alike f ∨ (f.further g).Alike g :=
  (Nat.lt_or_ge f.index g.index).elim (fun h => .inr (alike_further_of_lt h)) fun h =>
    .inl (alike_further h)

end Failure

/-! ### Places that are reached -/

theorem Cursor.advances_of_passes (hG : ∀ c, G c) {us : List σ} : ∀ {c c' : Cursor σ},
    c.Passes us c' → c.Advances G us c' := by
  induction us with
  | nil => intro c c' h; exact h
  | cons u us ih =>
      intro c c' h
      obtain ⟨d, hd, h⟩ := Cursor.passes_cons.1 h
      exact ⟨d, hG c, hd, ih h⟩

theorem Fails.of_alike (hg : Fails G L c g) (h : f.Alike g) : Fails G L c f where
  refuses := hg.refuses
  reached := by
    obtain ⟨us, d, hreach, hat⟩ := hg.reached
    exact ⟨us, d, hreach, hat.of_alike h⟩
  furthest hreach := h.index ▸ hg.furthest hreach

/-- Where another failure is told at the first place, nothing was reached behind it. -/
theorem Fails.of_at (hg : Fails G L c g) (hat : f.At c) (hle : g.index ≤ f.index) :
    Fails G L c f where
  refuses := hg.refuses
  reached := by
    obtain ⟨us, d, hreach, -⟩ := hg.reached
    obtain ⟨ws, hws⟩ := hreach.starts
    exact ⟨[], c, ⟨rfl, .nil hws⟩, hat⟩
  furthest hreach := Nat.le_trans (hg.furthest hreach) hle

/-- A language whose first values do not stand ahead breaks off at once. -/
theorem Fails.at_of_heads (h : Fails G L c f) {P : σ → Prop} (hL : Heads L P)
    (hnext : ∀ v, c.next = some v → ¬ P v) : f.At c := by
  obtain ⟨us, d, hreach, hat⟩ := h.reached
  cases us with
  | nil =>
      obtain rfl : d = c := hreach.passes
      exact hat
  | cons u us =>
      exact absurd (hL.of_starts hreach.starts) (hnext u (Cursor.next_of_passes hreach.passes))

/-- Members with other first values than the one ahead do not matter. -/
theorem Fails.widen (h : Fails G L c f) (hLM : ∀ us, L us → M us) (hnil : ¬ M [])
    (hML : ∀ v us, c.next = some v → M (v :: us) → L (v :: us)) : Fails G M c f where
  refuses := by
    intro us d hd hus
    cases us with
    | nil => exact hnil hus
    | cons u us => exact h.refuses hd (hML u us (Cursor.next_of_passes hd) hus)
  reached := h.reached.mono hLM
  furthest := by
    intro us d hreach
    cases us with
    | nil =>
        obtain rfl : d = c := hreach.passes
        exact h.reached.index_le
    | cons u us =>
        obtain ⟨ws, hws⟩ := hreach.starts
        have hnext := Cursor.next_of_passes hreach.passes
        exact h.furthest ⟨hreach.advances, ws, hML u _ hnext hws⟩

namespace Parser

/-! ### Replies taken apart -/

section Replies

variable {p : Parser σ α} {c' : Cursor σ} {met : Option (Failure σ)}

theorem ok_of_return {f : α → β} {b : β}
    (hr : (p >>= fun a => Pure.pure (f a)).run c = .ok b c' met) :
    ∃ a, p.run c = .ok a c' met ∧ b = f a := by
  cases hrun : p.run c with
  | error g =>
      rw [run_bind_of_error hrun] at hr
      cases hr
  | ok a c₁ old =>
      rw [run_return_of_ok hrun] at hr
      cases hr
      exact ⟨a, rfl, rfl⟩

theorem error_of_return {f : α → β} (hr : (p >>= fun a => Pure.pure (f a)).run c = .error g) :
    p.run c = .error g := by
  cases hrun : p.run c with
  | error g =>
      rw [run_bind_of_error hrun] at hr
      cases hr
      rfl
  | ok a c₁ old =>
      rw [run_return_of_ok hrun] at hr
      cases hr

theorem ok_of_spanned {x : Spanned α} (hr : (spanned p).run c = .ok x c' met) :
    ∃ a, p.run c = .ok a c' met ∧ x = ⟨⟨c.here.start, c'.stop⟩, a⟩ := by
  unfold Parser.spanned at hr
  simp only at hr
  split at hr
  · next a c₁ old hrun =>
      cases hr
      exact ⟨a, hrun, rfl⟩
  · cases hr

theorem error_of_spanned (hr : (spanned p).run c = .error f) : p.run c = .error f := by
  unfold Parser.spanned at hr
  simp only at hr
  split at hr
  · cases hr
  · next g hrun =>
      cases hr
      exact hrun

theorem ok_of_check {check : Spanned α → Except (Problem σ) β} {b : β}
    (hr : (p.check check).run c = .ok b c' met) :
    ∃ x, (spanned p).run c = .ok x c' met ∧ check x = .ok b := by
  unfold Parser.check at hr
  simp only at hr
  split at hr
  · cases hr
  · next x c₁ old hrun =>
      split at hr
      · next hx =>
          cases hr
          exact ⟨x, hrun, hx⟩
      · cases hr

/-- A check fails where its parser does, or with a problem behind the items that are read. -/
theorem error_of_check {check : Spanned α → Except (Problem σ) β}
    (hr : (p.check check).run c = .error f) : p.run c = .error f ∨
      ∃ x c' problem, (spanned p).read c = some (x, c') ∧ check x = .error problem ∧
        f = ⟨c'.index, problem⟩ := by
  unfold Parser.check at hr
  simp only at hr
  split at hr
  · next g hrun =>
      cases hr
      exact .inl (error_of_spanned hrun)
  · next x c₁ old hrun =>
      split at hr
      · cases hr
      · next problem hx =>
          cases hr
          exact .inr ⟨x, c₁, problem, by rw [read, hrun], hx, rfl⟩

theorem ok_of_padded {blank : σ → Bool} {a : α} (hr : (padded blank p).run c = .ok a c' met) :
    ∃ c₁, p.run (c.dropWhile blank) = .ok a c₁ met ∧ c' = c₁.dropWhile blank := by
  unfold Parser.padded at hr
  simp only at hr
  split at hr
  · next b c₁ old hrun =>
      cases hr
      exact ⟨c₁, hrun, rfl⟩
  · cases hr

theorem error_of_padded {blank : σ → Bool} (hr : (padded blank p).run c = .error f) :
    p.run (c.dropWhile blank) = .error f := by
  unfold Parser.padded at hr
  simp only at hr
  split at hr
  · cases hr
  · next g hrun =>
      cases hr
      exact hrun

end Replies

/-! ### Alternatives -/

theorem exists_alike_of_firstOf : ∀ {ps : List (Parser σ α)} {f : Failure σ}, ps ≠ [] →
    (firstOf ps).run c = .error f →
      (∃ p ∈ ps, ∃ g, p.run c = .error g ∧ f.Alike g) ∧
        ∀ p ∈ ps, ∃ g, p.run c = .error g ∧ g.index ≤ f.index
  | [], _, hne, _ => absurd rfl hne
  | [p], f, _, hr =>
      ⟨⟨p, List.mem_cons_self, f, hr, .refl f⟩,
        List.forall_mem_singleton.2 ⟨f, hr, Nat.le_refl _⟩⟩
  | p :: q :: ps, f, _, hr => by
      change (p <|> firstOf (q :: ps)).run c = .error f at hr
      cases hp : p.run c with
      | ok a c' met =>
          rw [run_orElse_of_ok hp] at hr
          cases hr
      | error first =>
          cases hq : (firstOf (q :: ps)).run c with
          | ok a c' met =>
              rw [run_orElse_of_second hp hq] at hr
              cases hr
          | error second =>
              rw [run_orElse_of_errors hp hq] at hr
              cases hr
              obtain ⟨⟨r, hr, g, hg, hsecond⟩, hall⟩ :=
                exists_alike_of_firstOf (List.cons_ne_nil q ps) hq
              have hindex := Failure.index_further second first
              constructor
              · rcases Failure.alike_further_or second first with halike | halike
                · exact ⟨r, List.mem_cons_of_mem p hr, g, hg, halike.trans hsecond⟩
                · exact ⟨p, List.mem_cons_self, first, hp, halike⟩
              · refine List.forall_mem_cons.2 ⟨⟨first, hp, by omega⟩, fun r hr => ?_⟩
                obtain ⟨g, hg, hle⟩ := hall r hr
                exact ⟨g, hg, by omega⟩

theorem exists_ok_of_firstOf {a : α} {c' : Cursor σ} {met : Option (Failure σ)} :
    ∀ {ps : List (Parser σ α)}, (firstOf ps).run c = .ok a c' met →
      ∃ p ∈ ps, p.run c = .ok a c' met
  | [], hr => by cases hr
  | [p], hr => ⟨p, List.mem_cons_self, hr⟩
  | p :: q :: ps, hr => by
      change (p <|> firstOf (q :: ps)).run c = .ok a c' met at hr
      cases hp : p.run c with
      | ok b d old =>
          rw [run_orElse_of_ok hp] at hr
          exact ⟨p, List.mem_cons_self, hp.trans hr⟩
      | error first =>
          cases hq : (firstOf (q :: ps)).run c with
          | ok b d old =>
              rw [run_orElse_of_second hp hq] at hr
              obtain ⟨r, hmem, hr⟩ := exists_ok_of_firstOf (hq.trans hr)
              exact ⟨r, List.mem_cons_of_mem p hmem, hr⟩
          | error second =>
              rw [run_orElse_of_errors hp hq] at hr
              cases hr

/-! ### What is met on the way to a success -/

/-- No failure met on the way to a success is behind the place that is reached. -/
def Contained (p : Parser σ α) : Prop :=
  ∀ ⦃c : Cursor σ⦄ ⦃a : α⦄ ⦃c' : Cursor σ⦄ ⦃met : Option (Failure σ)⦄, p.run c = .ok a c' met →
    ∀ f ∈ met, f.index ≤ c'.index

/-- A failure met behind the longest member would have to tell of a member that goes on. -/
theorem contained_of_locates {p : Parser σ α} (hp : ∀ n, p.Locates G L n)
    (hL : ∀ {us : List σ} {v : σ} {ws : List σ}, L us → Starts L (us ++ v :: ws) →
      L (us ++ v :: ws)) : p.Contained := by
  intro c a c' met hr f hf
  have h := hp (c.rest.length + 1) c (Nat.lt_succ_self _)
  rw [hr] at h
  obtain ⟨vs, hvs, hmem⟩ := h.reads
  obtain ⟨us, d, hreach, hat⟩ := h.reached f hf
  rw [hat.index]
  refine Nat.le_of_not_lt fun hlt => ?_
  obtain ⟨ws, rfl, hws⟩ := Cursor.passes_of_index_le hvs.passes hreach.passes (Nat.le_of_lt hlt)
  cases ws with
  | nil =>
      obtain rfl : d = c' := hws
      exact Nat.lt_irrefl _ hlt
  | cons w ws => exact Nat.not_le.2 hlt (h.longest hreach.passes (hL hmem hreach.starts))

theorem Contained.firstOf {ps : List (Parser σ α)} (hps : ∀ p ∈ ps, p.Contained) :
    (firstOf ps).Contained := by
  intro c a c' met hr
  obtain ⟨p, hp, hr⟩ := exists_ok_of_firstOf hr
  exact hps p hp hr

theorem Contained.return {p : Parser σ α} (hp : p.Contained) (f : α → β) :
    (p >>= fun a => Pure.pure (f a)).Contained := by
  intro c b c' met hr
  obtain ⟨a, hr, -⟩ := ok_of_return hr
  exact hp hr

theorem Contained.spanned {p : Parser σ α} (hp : p.Contained) : (spanned p).Contained := by
  intro c x c' met hr
  obtain ⟨a, hr, -⟩ := ok_of_spanned hr
  exact hp hr

theorem Contained.check {p : Parser σ α} (hp : p.Contained)
    (f : Spanned α → Except (Problem σ) β) : (check p f).Contained := by
  intro c b c' met hr
  obtain ⟨x, hr, -⟩ := ok_of_check hr
  exact hp.spanned hr

theorem Contained.padded {p : Parser σ α} (hp : p.Contained) (blank : σ → Bool) :
    (padded blank p).Contained := by
  intro c a c' met hr f hf
  obtain ⟨c₁, hrun, rfl⟩ := ok_of_padded hr
  rw [Cursor.index_of_passes (Cursor.passesAll_dropWhile blank c₁).passes]
  exact Nat.le_add_right_of_le (hp hrun f hf)

end Parser

end Redline.Parsing
