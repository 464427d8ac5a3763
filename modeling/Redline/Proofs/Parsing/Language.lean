import Redline.Proofs.Parsing.Rows

/-! # Languages of values

For what can be read at all the results do not matter: `Derives P` are the values that stand in `P`
to some result.  Of languages it is asked which values start a member (`Starts`) and which value
never continues one (`Ends`); since a parser gives one answer, a value at which it lets a member end
is such a value (`ends_of_takes`).  The rows that repetitions look for are put together from
sequences (`Then`) and repetitions (`Many`) of languages (`derives_sepBy_iff`). -/

namespace Redline.Parsing

variable {σ α : Type} {L M : List σ → Prop} {P : List σ → α → Prop}

/-- The values that have a result. -/
def Derives (P : List σ → α → Prop) (us : List σ) : Prop := ∃ a, P us a

/-- Some member goes on from `us`. -/
def Starts (L : List σ → Prop) (us : List σ) : Prop := ∃ ws, L (us ++ ws)

/-- No member goes on with `v` behind another member. -/
def Ends (L : List σ → Prop) (v : σ) : Prop := ∀ ⦃us ws : List σ⦄, L us → ¬ L (us ++ v :: ws)

/-- All members start with a value that satisfies `p`. -/
def Heads (L : List σ → Prop) (p : σ → Prop) : Prop :=
  ∀ ⦃us : List σ⦄, L us → ∃ v vs, us = v :: vs ∧ p v

/-- A value that satisfies `p`, alone. -/
def Single (p : σ → Prop) (us : List σ) : Prop := ∃ v, us = [v] ∧ p v

/-- A member of `L` and behind it one of `M`. -/
def Then (L M : List σ → Prop) (us : List σ) : Prop := ∃ vs ws, us = vs ++ ws ∧ L vs ∧ M ws

/-- Any number of members next to each other. -/
inductive Many (L : List σ → Prop) : List σ → Prop
  | nil : Many L []
  | cons {vs ws : List σ} : L vs → Many L ws → Many L (vs ++ ws)

/-! ### Starts -/

theorem Starts.of_mem {us : List σ} (h : L us) : Starts L us := ⟨[], by rwa [List.append_nil]⟩

theorem Starts.nil {us : List σ} (h : L us) : Starts L [] := ⟨us, h⟩

theorem Starts.of_append {us vs : List σ} (h : Starts L (us ++ vs)) : Starts L us := by
  obtain ⟨ws, h⟩ := h
  exact ⟨vs ++ ws, by rwa [← List.append_assoc]⟩

theorem Starts.take {us : List σ} (h : Starts L us) (n : Nat) : Starts L (us.take n) := by
  rw [← List.take_append_drop n us] at h
  exact h.of_append

theorem Starts.head {v : σ} {us : List σ} (h : Starts L (v :: us)) : Starts L [v] := h.take 1

theorem Starts.mono {us : List σ} (h : Starts L us) (hLM : ∀ us, L us → M us) : Starts M us := by
  obtain ⟨ws, h⟩ := h
  exact ⟨ws, hLM _ h⟩

theorem starts_or_iff {us : List σ} :
    Starts (fun us => L us ∨ M us) us ↔ Starts L us ∨ Starts M us := exists_or

/-- What starts a sequence starts its first part, or that part is there and the other started. -/
theorem starts_then_cases {us : List σ} (h : Starts (Then L M) us) :
    Starts L us ∨ ∃ vs ws, us = vs ++ ws ∧ ws ≠ [] ∧ L vs ∧ Starts M ws := by
  obtain ⟨rest, vs, ws, happend, hvs, hws⟩ := h
  rcases List.append_eq_append_iff.1 happend with ⟨as, rfl, -⟩ | ⟨bs, rfl, rfl⟩
  · exact .inl ⟨as, hvs⟩
  · cases bs with
    | nil => exact .inl (.of_mem (by rwa [List.append_nil]))
    | cons b bs => exact .inr ⟨vs, b :: bs, rfl, List.cons_ne_nil b bs, hvs, rest, hws⟩

theorem Heads.ne_nil {p : σ → Prop} (h : Heads L p) {us : List σ} (hus : L us) : us ≠ [] := by
  obtain ⟨v, vs, rfl, -⟩ := h hus
  exact List.cons_ne_nil v vs

theorem Heads.of_starts {p : σ → Prop} (h : Heads L p) {v : σ} {us : List σ}
    (hv : Starts L (v :: us)) : p v := by
  obtain ⟨ws, hws⟩ := hv
  obtain ⟨w, vs, hw, hp⟩ := h hws
  obtain ⟨rfl, -⟩ := List.cons.inj hw
  exact hp

theorem Heads.then {p : σ → Prop} (h : Heads L p) : Heads (Then L M) p := by
  rintro _ ⟨vs, ws, rfl, hvs, -⟩
  obtain ⟨v, vs, rfl, hv⟩ := h hvs
  exact ⟨v, vs ++ ws, rfl, hv⟩

theorem Heads.or {p q : σ → Prop} (hL : Heads L p) (hM : Heads M q) :
    Heads (fun us => L us ∨ M us) fun v => p v ∨ q v := by
  rintro us (hus | hus)
  · obtain ⟨v, vs, rfl, hv⟩ := hL hus
    exact ⟨v, vs, rfl, .inl hv⟩
  · obtain ⟨v, vs, rfl, hv⟩ := hM hus
    exact ⟨v, vs, rfl, .inr hv⟩

theorem heads_single (x : σ) : Heads (· = [x]) (· = x) := by
  rintro _ rfl
  exact ⟨x, [], rfl, rfl⟩

theorem Heads.single (p : σ → Prop) : Heads (Single p) p := by
  rintro _ ⟨v, rfl, hv⟩
  exact ⟨v, [], rfl, hv⟩

/-! ### Ends -/

/-- Where `p` may end what it takes, nothing that it takes goes on. -/
theorem ends_of_takes {p : Parser σ α} {F : Option σ → Prop}
    (h : ∀ {us : List σ} {a : α}, P us a → p.Takes F us a) (hF : F none) {v : σ}
    (hv : F (some v)) : Ends (Derives P) v := by
  rintro us ws ⟨a, ha⟩ ⟨b, hb⟩
  let items : List (Spanned σ) := (us ++ v :: ws).map fun u => ⟨⟨0, 0⟩, u⟩
  have hvalues : (Cursor.ofItems items ⟨0, 0⟩).values = us ++ v :: ws := by
    simp [items, Cursor.values, Cursor.ofItems, Function.comp_def]
  obtain ⟨c₁, h₁, hc₁⟩ := Cursor.exists_passes us hvalues
  obtain ⟨c₂, h₂, hc₂⟩ := Cursor.exists_passes _ (hvalues.trans (List.append_nil _).symm)
  have hread₁ := h ha h₁ (by rwa [Cursor.next_eq_head?, hc₁])
  have hread₂ := h hb h₂ (by rwa [Cursor.next_eq_head?, hc₂])
  rw [hread₁] at hread₂
  cases hread₂
  rw [hc₁] at hc₂
  cases hc₂

theorem ends_single (x v : σ) : Ends (· = [x]) v := by
  rintro us ws rfl h
  cases h

theorem Ends.single (p : σ → Prop) (v : σ) : Ends (Single p) v := by
  rintro _ ws ⟨u, rfl, -⟩ ⟨u', h, -⟩
  cases h

theorem Ends.then_single {v : σ} {x : σ} (h : Ends L v) : Ends (Then (· = [x]) L) v := by
  rintro us ws ⟨_, us', rfl, rfl, hus⟩ ⟨_, vs', hvs, rfl, hvs'⟩
  obtain rfl := (List.cons.inj hvs).2
  exact h hus hvs'

theorem Ends.then_closing {v x : σ} (h : Ends L x) : Ends (Then L (· = [x])) v := by
  rintro _ ws ⟨us, _, rfl, hus, rfl⟩ ⟨us', _, happend, hus', rfl⟩
  rcases List.eq_nil_or_concat (v :: ws) with hnil | ⟨ts, t, hts⟩
  · cases hnil
  · rw [hts, List.concat_eq_append, ← List.append_assoc] at happend
    obtain ⟨rfl, -⟩ := List.append_inj' happend rfl
    rw [List.append_assoc] at hus'
    exact h hus hus'

theorem Ends.congr {v : σ} (h : Ends L v) (hLM : ∀ us, M us ↔ L us) : Ends M v :=
  fun _ _ hus hws => h ((hLM _).1 hus) ((hLM _).1 hws)

/-! ### Repetitions -/

theorem many_iff {us : List σ} : Many L us ↔ us = [] ∨ Then L (Many L) us := by
  constructor
  · rintro (_ | ⟨hvs, hws⟩)
    · exact .inl rfl
    · exact .inr ⟨_, _, rfl, hvs, hws⟩
  · rintro (rfl | ⟨vs, ws, rfl, hvs, hws⟩)
    · exact .nil
    · exact .cons hvs hws

theorem many_single_iff {p : σ → Prop} {us : List σ} : Many (Single p) us ↔ ∀ v ∈ us, p v := by
  constructor
  · intro h
    induction h with
    | nil => exact nofun
    | cons hv _ ih =>
        obtain ⟨v, rfl, hv⟩ := hv
        exact List.forall_mem_cons.2 ⟨hv, ih⟩
  · intro h
    induction us with
    | nil => exact .nil
    | cons v us ih =>
        obtain ⟨hv, hus⟩ := List.forall_mem_cons.1 h
        exact .cons ⟨v, rfl, hv⟩ (ih hus)

/-- The first value of a repetition is the first value of a member. -/
theorem Starts.of_many {v : σ} (hL : ¬ L []) (h : Starts (Many L) [v]) : Starts L [v] := by
  obtain ⟨ws, h⟩ := h
  rcases many_iff.1 h with h | ⟨as, bs, h, has, -⟩
  · cases h
  · cases as with
    | nil => exact absurd has hL
    | cons a as =>
        obtain ⟨rfl, -⟩ := List.cons.inj h
        exact ⟨as, has⟩

theorem Many.concat {us vs : List σ} (h : Many L us) (hvs : L vs) : Many L (us ++ vs) := by
  induction h with
  | nil =>
      have hsingle := Many.cons hvs .nil
      rwa [List.append_nil] at hsingle
  | cons h _ ih =>
      rw [List.append_assoc]
      exact .cons h ih

theorem many_derives_iff {us : List σ} : Many (Derives P) us ↔ ∃ as, Sequence P us as := by
  constructor
  · intro h
    induction h with
    | nil => exact ⟨[], .nil⟩
    | cons hvs _ ih =>
        obtain ⟨a, ha⟩ := hvs
        obtain ⟨as, has⟩ := ih
        exact ⟨a :: as, .cons ha has⟩
  · rintro ⟨as, h⟩
    induction h with
    | nil => exact .nil
    | cons ha _ ih => exact .cons ⟨_, ha⟩ ih

/-! ### Rows -/

variable {x : σ}

/-- A row is its first piece, and behind it the others with the separators before them. -/
theorem Separated.exists_sequence {us : List σ} {as : List α} (h : Separated P x us as) :
    ∃ vs ws a as', us = vs ++ ws ∧ as = a :: as' ∧ P vs a ∧
      Sequence (fun us a => ∃ vs, us = x :: vs ∧ P vs a) ws as' := by
  induction h with
  | one h => exact ⟨_, [], _, [], (List.append_nil _).symm, rfl, h, .nil⟩
  | cons h _ ih =>
      obtain ⟨vs, ws, a, as', rfl, rfl, ha, hws⟩ := ih
      exact ⟨_, _, _, _, rfl, rfl, h, .cons ⟨_, rfl, ha⟩ hws⟩

theorem derives_afterSeparator_iff {us : List σ} :
    Derives (fun us a => ∃ vs, us = x :: vs ∧ P vs a) us ↔ Then (· = [x]) (Derives P) us := by
  constructor
  · rintro ⟨a, vs, rfl, ha⟩
    exact ⟨[x], vs, rfl, rfl, a, ha⟩
  · rintro ⟨_, vs, rfl, rfl, a, ha⟩
    exact ⟨a, vs, rfl, ha⟩

theorem derives_separated_iff {us : List σ} : Derives (Separated P x) us ↔
    Then (Derives P) (Many (Then (· = [x]) (Derives P))) us := by
  have hitem : Then (· = [x]) (Derives P) = Derives fun us a => ∃ vs, us = x :: vs ∧ P vs a :=
    funext fun us => propext derives_afterSeparator_iff.symm
  rw [hitem]
  constructor
  · rintro ⟨as, h⟩
    obtain ⟨vs, ws, a, as', rfl, rfl, ha, hws⟩ := h.exists_sequence
    exact ⟨vs, ws, rfl, ⟨a, ha⟩, many_derives_iff.2 ⟨as', hws⟩⟩
  · rintro ⟨vs, ws, rfl, ⟨a, ha⟩, hws⟩
    obtain ⟨as, has⟩ := many_derives_iff.1 hws
    exact ⟨a :: as, .of_sequence has ha⟩

theorem derives_sepBy_iff {us : List σ} : Derives (SepBy P x) us ↔
    us = [] ∨ Then (Derives P) (Many (Then (· = [x]) (Derives P))) us := by
  rw [← derives_separated_iff]
  constructor
  · rintro ⟨as, _ | h⟩
    · exact .inl rfl
    · exact .inr ⟨as, h⟩
  · rintro (rfl | ⟨as, h⟩)
    · exact ⟨[], .none⟩
    · exact ⟨as, .row h⟩

theorem derives_sepEndBy_iff {us : List σ} : Derives (SepEndBy P x) us ↔
    Derives (SepBy P x) us ∨ ∃ vs, us = vs ++ [x] ∧ Derives (Separated P x) vs := by
  constructor
  · rintro ⟨as, _ | h | h⟩
    · exact .inl ⟨[], .none⟩
    · exact .inl ⟨as, .row h⟩
    · exact .inr ⟨_, rfl, as, h⟩
  · rintro (⟨as, _ | h⟩ | ⟨vs, rfl, as, h⟩)
    · exact ⟨[], .none⟩
    · exact ⟨as, .row h⟩
    · exact ⟨as, .trailing h⟩

/-! #### Rows of changed values -/

section Map

variable {β : Type} {Q : List σ → β → Prop} {f : σ → σ} (hx : f x = x)
  (hPQ : ∀ us a, P us a → Derives Q (us.map f))

include hx hPQ

/-- A row stays one if its pieces are changed into others and its separators into themselves. -/
theorem Separated.derives_map {us : List σ} {as : List α} (h : Separated P x us as) :
    Derives (Separated Q x) (us.map f) := by
  induction h with
  | one h =>
      obtain ⟨b, hb⟩ := hPQ _ _ h
      exact ⟨[b], .one hb⟩
  | cons h _ ih =>
      obtain ⟨b, hb⟩ := hPQ _ _ h
      obtain ⟨bs, hbs⟩ := ih
      refine ⟨b :: bs, ?_⟩
      rw [List.map_append, List.map_cons, hx]
      exact .cons hb hbs

theorem SepBy.derives_map {us : List σ} {as : List α} (h : SepBy P x us as) :
    Derives (SepBy Q x) (us.map f) := by
  cases h with
  | none => exact ⟨[], .none⟩
  | row h =>
      obtain ⟨bs, hbs⟩ := h.derives_map hx hPQ
      exact ⟨bs, .row hbs⟩

theorem SepEndBy.derives_map {us : List σ} {as : List α} (h : SepEndBy P x us as) :
    Derives (SepEndBy Q x) (us.map f) := by
  cases h with
  | none => exact ⟨[], .none⟩
  | row h =>
      obtain ⟨bs, hbs⟩ := h.derives_map hx hPQ
      exact ⟨bs, .row hbs⟩
  | trailing h =>
      obtain ⟨bs, hbs⟩ := h.derives_map hx hPQ
      rw [List.map_append, List.map_singleton, hx]
      exact ⟨bs, .trailing hbs⟩

end Map

/-- The results of the pieces do not matter. -/
theorem derives_sepEndBy_congr {β : Type} {Q : List σ → β → Prop}
    (h : ∀ us, Derives P us ↔ Derives Q us) {us : List σ} :
    Derives (SepEndBy P x) us ↔ Derives (SepEndBy Q x) us := by
  have hPQ : Derives P = Derives Q := funext fun us => propext (h us)
  simp only [derives_sepEndBy_iff, derives_sepBy_iff, derives_separated_iff, hPQ]

end Redline.Parsing
