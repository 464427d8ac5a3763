import Redline.Proofs.Parsing.Language

/-! # How far values can be read

Values break off a language at the first item that no member goes on with.  Which items may be
passed at all is said by a property `G` of places: `c.Reaches G L us c'` means that the place `c'`
is behind `us`, that `us` starts a member of `L`, and that each item on the way may be passed where
it stands.

A reply locates where `L` breaks off (`Reply.Locates`) if, on a failure, no member of `L` stands
ahead and the failure tells of the furthest place that is reached (`Fails`), and if, on a success,
the longest member ahead has been read and some failure met is as far on as any place reached behind
it (`Succeeds`).  Replies to the parts of a sequence or of a choice make up one that does so too
(`Succeeds.then_fails`, `Succeeds.then_succeeds`, `Fails.or`), as long as what starts the second
part does not continue the first (`Succeeds.ends`). -/

namespace Redline.Parsing

variable {σ α β : Type} {G : Cursor σ → Prop} {L M : List σ → Prop}

/-! ### Places in order -/

namespace Cursor

theorem index_of_passes {us : List σ} : ∀ {c c' : Cursor σ}, c.Passes us c' →
    c'.index = c.index + us.length := by
  induction us with
  | nil => rintro c _ rfl; rfl
  | cons u us ih =>
      rintro c c' ⟨x, xs, -, -, h⟩
      rw [ih h, List.length_cons]
      change c.index + 1 + us.length = _
      omega

/-- Of two places behind the same one, the nearer is passed on the way to the other. -/
theorem passes_of_index_le {c d d' : Cursor σ} {us vs : List σ} (hd : c.Passes us d)
    (hd' : c.Passes vs d') (h : d.index ≤ d'.index) : ∃ ws, vs = us ++ ws ∧ d.Passes ws d' := by
  rw [index_of_passes hd, index_of_passes hd'] at h
  have hvalues := (values_of_passes hd).symm.trans (values_of_passes hd')
  rcases List.append_eq_append_iff.1 hvalues with ⟨ws, rfl, -⟩ | ⟨ws, rfl, -⟩
  · obtain ⟨e, he, hws⟩ := passes_append.1 hd'
    obtain rfl := passes_unique hd he
    exact ⟨ws, rfl, hws⟩
  · obtain rfl : ws = [] := by
      rw [List.length_append] at h
      exact List.length_eq_zero_iff.1 (by omega)
    rw [List.append_nil] at hd ⊢
    obtain rfl := passes_unique hd hd'
    exact ⟨[], (List.append_nil vs).symm, rfl⟩

theorem values_unique {c c' : Cursor σ} {us vs : List σ} (hus : c.Passes us c')
    (hvs : c.Passes vs c') : us = vs := by
  have hvalues := (values_of_passes hus).symm.trans (values_of_passes hvs)
  exact List.append_cancel_right hvalues

/-- Passing the items from `c` to `c'`, each of which may be passed where it stands. -/
def Advances (G : Cursor σ → Prop) : Cursor σ → List σ → Cursor σ → Prop
  | c, [], c' => c' = c
  | c, v :: vs, c' => ∃ d, G c ∧ c.Passes [v] d ∧ d.Advances G vs c'

theorem Advances.passes {us : List σ} : ∀ {c c' : Cursor σ}, c.Advances G us c' →
    c.Passes us c' := by
  induction us with
  | nil => intro c c' h; exact h
  | cons u us ih =>
      rintro c c' ⟨d, -, hd, h⟩
      exact passes_cons.2 ⟨d, hd, ih h⟩

theorem advances_append {us vs : List σ} : ∀ {c c' : Cursor σ},
    c.Advances G (us ++ vs) c' ↔ ∃ d, c.Advances G us d ∧ d.Advances G vs c' := by
  induction us with
  | nil => intro c c'; simp [Advances]
  | cons u us ih =>
      intro c c'
      constructor
      · rintro ⟨d, hG, hd, h⟩
        obtain ⟨e, he, h⟩ := ih.1 h
        exact ⟨e, ⟨d, hG, hd, he⟩, h⟩
      · rintro ⟨e, ⟨d, hG, hd, he⟩, h⟩
        exact ⟨d, hG, hd, ih.2 ⟨e, he, h⟩⟩

/-- The place `c'` is behind `us`, which starts a member of `L`, by items that may be passed. -/
structure Reaches (G : Cursor σ → Prop) (L : List σ → Prop) (c : Cursor σ) (us : List σ)
    (c' : Cursor σ) : Prop where
  advances : c.Advances G us c'
  starts : Starts L us

namespace Reaches

variable {c c' : Cursor σ} {us : List σ}

theorem passes (h : c.Reaches G L us c') : c.Passes us c' := h.advances.passes

theorem index_le (h : c.Reaches G L us c') : c.index ≤ c'.index := by
  rw [index_of_passes h.passes]
  omega

theorem mono (h : c.Reaches G L us c') (hLM : ∀ us, L us → M us) : c.Reaches G M us c' :=
  ⟨h.advances, h.starts.mono hLM⟩

theorem then_left (h : c.Reaches G L us c') {ws : List σ} (hws : M ws) :
    c.Reaches G (Then L M) us c' := by
  obtain ⟨vs, hvs⟩ := h.starts
  exact ⟨h.advances, vs ++ ws, us ++ vs, ws, (List.append_assoc _ _ _).symm, hvs, hws⟩

theorem then_right {d : Cursor σ} {vs : List σ} (hpass : c.Advances G vs d) (hvs : L vs)
    (h : d.Reaches G M us c') : c.Reaches G (Then L M) (vs ++ us) c' := by
  obtain ⟨ws, hws⟩ := h.starts
  exact ⟨advances_append.2 ⟨d, hpass, h.advances⟩, ws, vs, us ++ ws, List.append_assoc _ _ _, hvs,
    hws⟩

theorem then_cases (h : c.Reaches G (Then L M) us c') : c.Reaches G L us c' ∨
    ∃ vs ws d, us = vs ++ ws ∧ ws ≠ [] ∧ L vs ∧ c.Passes vs d ∧ d.Reaches G M ws c' := by
  rcases starts_then_cases h.starts with hstarts | ⟨vs, ws, rfl, hne, hvs, hstarts⟩
  · exact .inl ⟨h.advances, hstarts⟩
  · obtain ⟨d, hd, hws⟩ := advances_append.1 h.advances
    exact .inr ⟨vs, ws, d, rfl, hne, hvs, hd.passes, hws, hstarts⟩

end Reaches

end Cursor

/-! ### Failures at places -/

namespace Failure

/-- The failure is met at `c` and tells of the next item there. -/
structure At (f : Failure σ) (c : Cursor σ) : Prop where
  index : f.index = c.index
  span : f.problem.span = c.here
  reason : f.problem.reason = .unexpected
  found : f.problem.found = c.next

/-- The failure tells of a place that is reached. -/
def Reached (G : Cursor σ → Prop) (L : List σ → Prop) (c : Cursor σ) (f : Failure σ) : Prop :=
  ∃ us c', c.Reaches G L us c' ∧ f.At c'

theorem at_unexpected (c : Cursor σ) (expected : List (Option σ)) :
    (c.unexpected expected).At c := ⟨rfl, rfl, rfl, rfl⟩

variable {c : Cursor σ} {f g : Failure σ} {old new : Option (Failure σ)}

theorem reached_unexpected {us : List σ} (hus : L us) (expected : List (Option σ)) :
    (c.unexpected expected).Reached G L c := ⟨[], c, ⟨rfl, .nil hus⟩, at_unexpected c expected⟩

theorem Reached.mono (h : f.Reached G L c) (hLM : ∀ us, L us → M us) : f.Reached G M c := by
  obtain ⟨us, c', hreach, hat⟩ := h
  exact ⟨us, c', hreach.mono hLM, hat⟩

theorem Reached.then_left (h : f.Reached G L c) {ws : List σ} (hws : M ws) :
    f.Reached G (Then L M) c := by
  obtain ⟨us, c', hreach, hat⟩ := h
  exact ⟨us, c', hreach.then_left hws, hat⟩

theorem Reached.then_right {d : Cursor σ} {vs : List σ} (hpass : c.Advances G vs d) (hvs : L vs)
    (h : f.Reached G M d) : f.Reached G (Then L M) c := by
  obtain ⟨us, c', hreach, hat⟩ := h
  exact ⟨vs ++ us, c', .then_right hpass hvs hreach, hat⟩

theorem Reached.index_le (h : f.Reached G L c) : c.index ≤ f.index := by
  obtain ⟨us, c', hreach, hat⟩ := h
  rw [hat.index]
  exact hreach.index_le

theorem Reached.labelled (h : f.Reached G L c) (label : String) :
    (f.labelled label).Reached G L c := by
  obtain ⟨us, c', hreach, hat⟩ := h
  exact ⟨us, c', hreach, hat.index, hat.span, hat.reason, hat.found⟩

/-- Of two failures that are told together, one gives the place. -/
theorem Reached.further (hf : f.Reached G L c) (hg : g.Reached G L c) :
    (f.further g).Reached G L c := by
  unfold Failure.further
  split
  · exact hg
  · split
    · exact hf
    · obtain ⟨us, c', hreach, hat⟩ := hf
      exact ⟨us, c', hreach, hat.index, hat.span, hat.reason, hat.found⟩

theorem Reached.orEarlier (hf : f.Reached G L c) (hold : ∀ g ∈ old, g.Reached G L c) :
    (f.orEarlier old).Reached G L c :=
  orEarlier_of_further (fun _ _ => Reached.further) hf hold

theorem Reached.latest (hold : ∀ g ∈ old, g.Reached G L c) (hnew : ∀ g ∈ new, g.Reached G L c) :
    ∀ g ∈ latest old new, g.Reached G L c :=
  latest_of_further (fun _ _ => Reached.further) hold hnew

theorem le_orEarlier : f.index ≤ (f.orEarlier old).index := by
  cases old with
  | none => exact Nat.le_refl _
  | some g =>
      rw [orEarlier, index_further]
      omega

theorem le_orEarlier_of_mem (h : g ∈ old) : g.index ≤ (f.orEarlier old).index := by
  cases h
  rw [orEarlier, index_further]
  omega

theorem exists_latest_of_old (h : f ∈ old) : ∃ g ∈ latest old new, f.index ≤ g.index := by
  cases h
  cases new with
  | none => exact ⟨f, rfl, Nat.le_refl _⟩
  | some g =>
      refine ⟨_, rfl, ?_⟩
      rw [index_further]
      omega

theorem exists_latest_of_new (h : f ∈ new) : ∃ g ∈ latest old new, f.index ≤ g.index := by
  cases h
  cases old with
  | none => exact ⟨f, rfl, Nat.le_refl _⟩
  | some g =>
      refine ⟨_, rfl, ?_⟩
      rw [index_further]
      omega

end Failure

/-! ### Replies -/

/-- The failure `f` at `c`: no member of `L` stands ahead, and no place further on is reached. -/
structure Fails (G : Cursor σ → Prop) (L : List σ → Prop) (c : Cursor σ) (f : Failure σ) :
    Prop where
  refuses : ∀ {us : List σ} {d : Cursor σ}, c.Passes us d → ¬ L us
  reached : f.Reached G L c
  furthest : ∀ {us : List σ} {d : Cursor σ}, c.Reaches G L us d → d.index ≤ f.index

/-- The success from `c` to `c'`: the longest member of `L` ahead is read, and a failure that was
met is as far on as any place that is reached behind it. -/
structure Succeeds (G : Cursor σ → Prop) (L : List σ → Prop) (c c' : Cursor σ)
    (met : Option (Failure σ)) : Prop where
  reads : ∃ vs, c.Advances G vs c' ∧ L vs
  longest : ∀ {us : List σ} {d : Cursor σ}, c.Passes us d → L us → d.index ≤ c'.index
  reached : ∀ f ∈ met, f.Reached G L c
  furthest : ∀ {us : List σ} {d : Cursor σ}, c.Reaches G L us d → c'.index < d.index →
    ∃ f ∈ met, d.index ≤ f.index

def Reply.Locates (G : Cursor σ → Prop) (L : List σ → Prop) (c : Cursor σ) : Reply σ α → Prop
  | .ok _ c' met => Succeeds G L c c' met
  | .error f => Fails G L c f

section Replies

variable {c c₁ c₂ : Cursor σ} {f : Failure σ} {met met₁ met₂ : Option (Failure σ)}

/-! #### Single items -/

theorem fails_single {S : σ → Prop} {v : σ} (hv : S v) (hnext : ∀ v, c.next = some v → ¬ S v)
    (expected : List (Option σ)) : Fails G (Single S) c (c.unexpected expected) := by
  refine ⟨?_, Failure.reached_unexpected ⟨v, rfl, hv⟩ expected, ?_⟩
  · rintro _ d hd ⟨w, rfl, hw⟩
    exact hnext w (Cursor.next_of_passes hd) hw
  · rintro us d ⟨hadvance, ws, w, hstarts, hw⟩
    cases us with
    | nil =>
        obtain rfl : d = c := hadvance
        exact Nat.le_refl _
    | cons u us =>
        obtain ⟨rfl, -⟩ := List.cons.inj hstarts
        exact absurd hw (hnext u (Cursor.next_of_passes hadvance.passes))

theorem succeeds_single {S : σ → Prop} (hG : G c) {v : σ} (hv : S v) (hpass : c.Passes [v] c₁) :
    Succeeds G (Single S) c c₁ none := by
  have hnear : ∀ {us : List σ} {d : Cursor σ}, c.Passes us d → Starts (Single S) us →
      d.index ≤ c₁.index := by
    rintro us d hd ⟨ws, w, hstarts, -⟩
    have hlength := congrArg List.length hstarts
    rw [List.length_append, List.length_singleton] at hlength
    rw [Cursor.index_of_passes hd, Cursor.index_of_passes hpass, List.length_singleton]
    omega
  refine ⟨⟨[v], ⟨c₁, hG, hpass, rfl⟩, v, rfl, hv⟩, fun hd hus => hnear hd (.of_mem hus), nofun, ?_⟩
  intro us d hreach hlt
  exact absurd (hnear hreach.passes hreach.starts) (by omega)

/-! #### Sequences -/

/-- The first part of a sequence ends where it has been read to. -/
theorem Succeeds.ends (h : Succeeds G L c c₁ met) (hends : ∀ v, Starts M [v] → Ends L v)
    {vs ws : List σ} {d d' : Cursor σ} (hvs : L vs) (hd : c.Passes vs d) (hws : Starts M ws)
    (hne : ws ≠ []) (hd' : d.Passes ws d') : d = c₁ := by
  obtain ⟨us, hus, hmem⟩ := h.reads
  obtain ⟨ts, rfl, hts⟩ := Cursor.passes_of_index_le hd hus.passes (h.longest hd hvs)
  cases ts with
  | nil => exact hts.symm
  | cons t ts =>
      obtain ⟨w, ws, rfl⟩ := List.exists_cons_of_ne_nil hne
      have hnext := (Cursor.next_of_passes hd').symm.trans (Cursor.next_of_passes hts)
      obtain rfl := Option.some.inj hnext
      exact absurd hmem (hends w hws.head hvs)

theorem Fails.then (h : Fails G L c f) {ws : List σ} (hws : M ws) : Fails G (Then L M) c f where
  refuses := by
    rintro _ d hd ⟨vs, ws, rfl, hvs, -⟩
    obtain ⟨e, he, -⟩ := Cursor.passes_append.1 hd
    exact h.refuses he hvs
  reached := h.reached.then_left hws
  furthest := by
    intro us d hreach
    rcases hreach.then_cases with hreach | ⟨vs, ws, e, rfl, -, hvs, he, -⟩
    · exact h.furthest hreach
    · exact absurd hvs (h.refuses he)

theorem Succeeds.then_fails (h : Succeeds G L c c₁ met) (hf : Fails G M c₁ f)
    (hends : ∀ v, Starts M [v] → Ends L v) {ws : List σ} (hws : M ws) :
    Fails G (Then L M) c (f.orEarlier met) where
  refuses := by
    rintro _ d hd ⟨vs, ws, rfl, hvs, hws⟩
    obtain ⟨e, he, hd⟩ := Cursor.passes_append.1 hd
    cases ws with
    | nil => exact hf.refuses (Cursor.passes_nil.2 rfl) hws
    | cons w ws =>
        obtain rfl := h.ends hends hvs he (.of_mem hws) (List.cons_ne_nil w ws) hd
        exact hf.refuses hd hws
  reached := by
    obtain ⟨vs, hadvance, hvs⟩ := h.reads
    exact (hf.reached.then_right hadvance hvs).orEarlier fun g hg => (h.reached g hg).then_left hws
  furthest := by
    intro us d hreach
    rcases hreach.then_cases with hreach | ⟨vs, ws, e, rfl, hne, hvs, he, hreach⟩
    · rcases Nat.lt_or_ge c₁.index d.index with hlt | hge
      · obtain ⟨g, hg, hle⟩ := h.furthest hreach hlt
        exact Nat.le_trans hle (Failure.le_orEarlier_of_mem hg)
      · exact Nat.le_trans hge (Nat.le_trans hf.reached.index_le Failure.le_orEarlier)
    · obtain rfl := h.ends hends hvs he hreach.starts hne hreach.passes
      exact Nat.le_trans (hf.furthest hreach) Failure.le_orEarlier

theorem Succeeds.then_succeeds (h₁ : Succeeds G L c c₁ met₁) (h₂ : Succeeds G M c₁ c₂ met₂)
    (hends : ∀ v, Starts M [v] → Ends L v) :
    Succeeds G (Then L M) c c₂ (Failure.latest met₁ met₂) := by
  obtain ⟨vs, hvs, hL⟩ := h₁.reads
  obtain ⟨ws, hws, hM⟩ := h₂.reads
  have hle : c₁.index ≤ c₂.index := by
    rw [Cursor.index_of_passes hws.passes]
    omega
  refine ⟨⟨vs ++ ws, Cursor.advances_append.2 ⟨c₁, hvs, hws⟩, vs, ws, rfl, hL, hM⟩, ?_, ?_, ?_⟩
  · rintro _ d hd ⟨us, ts, rfl, hus, hts⟩
    obtain ⟨e, he, hd⟩ := Cursor.passes_append.1 hd
    cases ts with
    | nil =>
        obtain rfl : d = e := hd
        exact Nat.le_trans (h₁.longest he hus) hle
    | cons t ts =>
        obtain rfl := h₁.ends hends hus he (.of_mem hts) (List.cons_ne_nil t ts) hd
        exact h₂.longest hd hts
  · refine Failure.Reached.latest (fun g hg => (h₁.reached g hg).then_left hM) fun g hg => ?_
    exact (h₂.reached g hg).then_right hvs hL
  · intro us d hreach hlt
    rcases hreach.then_cases with hreach | ⟨us, ts, e, rfl, hne, hus, he, hreach⟩
    · obtain ⟨g, hg, hdg⟩ := h₁.furthest hreach (Nat.lt_of_le_of_lt hle hlt)
      obtain ⟨f, hf, hgf⟩ := Failure.exists_latest_of_old hg
      exact ⟨f, hf, Nat.le_trans hdg hgf⟩
    · obtain rfl := h₁.ends hends hus he hreach.starts hne hreach.passes
      obtain ⟨g, hg, hdg⟩ := h₂.furthest hreach hlt
      obtain ⟨f, hf, hgf⟩ := Failure.exists_latest_of_new hg
      exact ⟨f, hf, Nat.le_trans hdg hgf⟩

/-! #### Alternatives -/

theorem Fails.or {g : Failure σ} (hf : Fails G L c f) (hg : Fails G M c g) :
    Fails G (fun us => L us ∨ M us) c (g.further f) where
  refuses hd h := h.elim (hf.refuses hd) (hg.refuses hd)
  reached := (hg.reached.mono fun _ => .inr).further (hf.reached.mono fun _ => .inl)
  furthest := by
    intro us d ⟨hadvance, hstarts⟩
    rw [Failure.index_further]
    rcases starts_or_iff.1 hstarts with hL | hM
    · have := hf.furthest ⟨hadvance, hL⟩
      omega
    · have := hg.furthest ⟨hadvance, hM⟩
      omega

theorem Succeeds.or_left (h : Succeeds G L c c₁ met)
    (hM : ∀ {us : List σ} {d : Cursor σ}, c.Passes us d → Starts M us → d.index ≤ c₁.index) :
    Succeeds G (fun us => L us ∨ M us) c c₁ met where
  reads := h.reads.imp fun _ h => ⟨h.1, .inl h.2⟩
  longest hd hus := hus.elim (h.longest hd) fun hus => hM hd (.of_mem hus)
  reached f hf := (h.reached f hf).mono fun _ => .inl
  furthest := by
    intro us d ⟨hadvance, hstarts⟩ hlt
    rcases starts_or_iff.1 hstarts with hL | hstarts
    · exact h.furthest ⟨hadvance, hL⟩ hlt
    · exact absurd (hM hadvance.passes hstarts) (by omega)

theorem Succeeds.or_right (hL : ∀ {us : List σ} {d : Cursor σ}, c.Passes us d → ¬ L us)
    (h : Succeeds G M c c₁ met)
    (hreach : ∀ {us : List σ} {d : Cursor σ}, c.Reaches G L us d → d.index ≤ c₁.index) :
    Succeeds G (fun us => L us ∨ M us) c c₁ met where
  reads := h.reads.imp fun _ h => ⟨h.1, .inr h.2⟩
  longest hd hus := hus.elim (fun hus => absurd hus (hL hd)) (h.longest hd)
  reached f hf := (h.reached f hf).mono fun _ => .inr
  furthest := by
    intro us d ⟨hadvance, hstarts⟩ hlt
    rcases starts_or_iff.1 hstarts with hstarts | hM
    · exact absurd (hreach ⟨hadvance, hstarts⟩) (by omega)
    · exact h.furthest ⟨hadvance, hM⟩ hlt

/-- Nothing is read where nothing else can be. -/
theorem Fails.orNothing (h : Fails G L c f) :
    Succeeds G (fun us => us = [] ∨ L us) c c (some f) where
  reads := ⟨[], rfl, .inl rfl⟩
  longest := by
    rintro us d hd (rfl | hus)
    · obtain rfl : d = c := hd
      exact Nat.le_refl _
    · exact absurd hus (h.refuses hd)
  reached := by
    rintro _ ⟨⟩
    exact h.reached.mono fun _ => .inr
  furthest := by
    intro us d ⟨hadvance, hstarts⟩ hlt
    rcases starts_or_iff.1 hstarts with ⟨ws, hnil⟩ | hL
    · obtain rfl := (List.append_eq_nil_iff.1 hnil).1
      obtain rfl : d = c := hadvance
      exact absurd hlt (Nat.lt_irrefl _)
    · exact ⟨f, rfl, h.furthest ⟨hadvance, hL⟩⟩

theorem Succeeds.orNothing (h : Succeeds G L c c₁ met) :
    Succeeds G (fun us => us = [] ∨ L us) c c₁ met := by
  have hle : c.index ≤ c₁.index := by
    obtain ⟨vs, hvs, -⟩ := h.reads
    rw [Cursor.index_of_passes hvs.passes]
    omega
  refine ⟨h.reads.imp fun _ h => ⟨h.1, .inr h.2⟩, ?_, ?_, ?_⟩
  · rintro us d hd (rfl | hus)
    · obtain rfl : d = c := hd
      exact hle
    · exact h.longest hd hus
  · exact fun f hf => (h.reached f hf).mono fun _ => .inr
  · intro us d ⟨hadvance, hstarts⟩ hlt
    rcases starts_or_iff.1 hstarts with ⟨ws, hnil⟩ | hL
    · obtain rfl := (List.append_eq_nil_iff.1 hnil).1
      obtain rfl : d = c := hadvance
      omega
    · exact h.furthest ⟨hadvance, hL⟩ hlt

/-! #### Rows -/

/-- From a row to one behind which a separator may be trailing. -/
theorem Succeeds.sepEndBy {P : List σ → α → Prop} {x : σ} {met' : Option (Failure σ)}
    (h : Succeeds G (Derives (SepBy P x)) c c₁ met) (hle : c₁.index ≤ c₂.index)
    (hreads : ∃ vs, c.Advances G vs c₂ ∧ Derives (SepEndBy P x) vs)
    (htrailing : ∀ {vs : List σ} {d d' : Cursor σ}, Derives (Separated P x) vs → c.Passes vs d →
      d.Passes [x] d' → d.index ≤ c₁.index → d'.index ≤ c₂.index)
    (hreached : ∀ f ∈ met', f.Reached G (Derives (SepEndBy P x)) c)
    (hmet : ∀ f ∈ met, ∃ g ∈ met', f.index ≤ g.index) :
    Succeeds G (Derives (SepEndBy P x)) c c₂ met' := by
  have hrow : ∀ {us : List σ} {d d' : Cursor σ}, Derives (Separated P x) us → c.Passes us d →
      d.Passes [x] d' → d'.index ≤ c₂.index := by
    intro us d d' hus hd hd'
    obtain ⟨as, has⟩ := hus
    exact htrailing ⟨as, has⟩ hd hd' (h.longest hd ⟨as, .row has⟩)
  refine ⟨hreads, ?_, hreached, ?_⟩
  · intro us d hd hus
    rcases derives_sepEndBy_iff.1 hus with hus | ⟨vs, rfl, hvs⟩
    · exact Nat.le_trans (h.longest hd hus) hle
    · obtain ⟨e, he, hd⟩ := Cursor.passes_append.1 hd
      exact hrow hvs he hd
  · intro us d ⟨hadvance, ws, hws⟩ hlt
    have hstarts : Starts (Derives (SepBy P x)) us := by
      rcases derives_sepEndBy_iff.1 hws with hus | ⟨vs, happend, hvs⟩
      · exact ⟨ws, hus⟩
      · rcases List.eq_nil_or_concat ws with rfl | ⟨ws, w, rfl⟩
        · rw [List.append_nil] at happend
          subst happend
          obtain ⟨e, he, hd⟩ := Cursor.passes_append.1 hadvance.passes
          exact absurd (hrow hvs he hd) (by omega)
        · rw [List.concat_eq_append, ← List.append_assoc] at happend
          obtain ⟨rfl, -⟩ := List.append_inj' happend rfl
          obtain ⟨as, has⟩ := hvs
          exact ⟨ws, as, .row has⟩
    obtain ⟨f, hf, hdf⟩ := h.furthest ⟨hadvance, hstarts⟩ (Nat.lt_of_le_of_lt hle hlt)
    obtain ⟨g, hg, hfg⟩ := hmet f hf
    exact ⟨g, hg, Nat.le_trans hdf hfg⟩

section Rows

variable {P : List σ → α → Prop} {x : σ} {vs : List σ} {as : List α}

/-- Behind no row there is no separator either. -/
theorem Succeeds.sepEndBy_nil (h : Succeeds G (Derives (SepBy P x)) c c met)
    (hnil : ¬ Derives P []) : Succeeds G (Derives (SepEndBy P x)) c c met := by
  refine h.sepEndBy (Nat.le_refl _) ⟨[], rfl, [], .none⟩ ?_
    (fun f hf => (h.reached f hf).mono fun _ h => derives_sepEndBy_iff.2 (.inl h))
    fun f hf => ⟨f, hf, Nat.le_refl _⟩
  intro vs d d' hvs hd _ hle
  obtain ⟨us, ws, rfl, hus, -⟩ := derives_separated_iff.1 hvs
  rw [Cursor.index_of_passes hd, List.length_append] at hle
  obtain rfl : us = [] := List.length_eq_zero_iff.1 (by omega)
  exact absurd hus hnil

variable (h : Succeeds G (Derives (SepBy P x)) c c₁ met) (hvs : Separated P x vs as)
  (hadvance : c.Advances G vs c₁)

include h hvs hadvance

theorem Succeeds.sepEndBy_of_passes (hG : G c₁) (hsep : c₁.Passes [x] c₂) :
    Succeeds G (Derives (SepEndBy P x)) c c₂ met := by
  have hindex := Cursor.index_of_passes hsep
  rw [List.length_singleton] at hindex
  refine h.sepEndBy (by omega) ⟨vs ++ [x], ?_, as, .trailing hvs⟩ ?_
    (fun f hf => (h.reached f hf).mono fun _ h => derives_sepEndBy_iff.2 (.inl h))
    fun f hf => ⟨f, hf, Nat.le_refl _⟩
  · exact Cursor.advances_append.2 ⟨c₁, hadvance, c₂, hG, hsep, rfl⟩
  · intro _ d d' _ _ hd hle
    rw [Cursor.index_of_passes hd, List.length_singleton]
    omega

theorem Succeeds.sepEndBy_of_ne (hsep : c₁.next ≠ some x) : Succeeds G (Derives (SepEndBy P x)) c c₁
    (Failure.latest met (some (c₁.unexpected [some x]))) := by
  have hend : (c₁.unexpected [some x]).Reached G (Derives (SepEndBy P x)) c :=
    ⟨vs, c₁, ⟨hadvance, .of_mem ⟨as, .row hvs⟩⟩, Failure.at_unexpected c₁ _⟩
  refine h.sepEndBy (Nat.le_refl _) ⟨vs, hadvance, as, .row hvs⟩ ?_ (Failure.Reached.latest
    (fun f hf => (h.reached f hf).mono fun _ h => derives_sepEndBy_iff.2 (.inl h)) ?_)
    fun f hf => Failure.exists_latest_of_old hf
  · intro us d d' _ hpass hd hle
    obtain ⟨ws, rfl, hws⟩ := Cursor.passes_of_index_le hpass hadvance.passes hle
    cases ws with
    | nil =>
        obtain rfl : c₁ = d := hws
        exact absurd (Cursor.next_of_passes hd) hsep
    | cons w ws =>
        rw [Cursor.index_of_passes hd, Cursor.index_of_passes hws, List.length_singleton,
          List.length_cons]
        omega
  · rintro _ ⟨⟩
    exact hend

end Rows

end Replies

end Redline.Parsing
