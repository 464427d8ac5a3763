import Redline.Span

/-! # Pieces spread over a text

`Spread Gap P n cs xs` says that characters which stand behind `n` others are pieces with gaps
around them: no piece is empty, each has its span and stands in the relation `P` to its value, and
the characters of the gaps satisfy `Gap`.  So the spans are in order (`Spread.inOrder`), they cut
the pieces out again (`Spread.cut`), and what they leave out belongs to a gap
(`Spread.gap_of_uncovered`). -/

namespace Redline

namespace Span

/-- The part of a text that the span covers. -/
def cut (s : Span) (cs : List Char) : List Char := (cs.drop s.start).take s.length

theorem length_cut {s : Span} {cs : List Char} (h : s.stop ≤ cs.length) :
    (s.cut cs).length = s.length := by
  simp only [cut, length, List.length_take, List.length_drop]
  omega

/-- The span of `u` covers `u`. -/
theorem cut_append {v u cs : List Char} :
    (⟨v.length, v.length + u.length⟩ : Span).cut (v ++ (u ++ cs)) = u := by
  simp [cut, length]

end Span

theorem add_length_append_append {α : Type} (n : Nat) (v u cs : List α) :
    n + (v ++ (u ++ cs)).length = n + v.length + u.length + cs.length := by
  rw [List.length_append, List.length_append, Nat.add_assoc, Nat.add_assoc]

namespace Text

/-- Pieces in the relation `P` to their values, with gaps before, between and behind them. -/
inductive Spread {α : Type} (Gap : Char → Prop) (P : List Char → α → Prop) :
    Nat → List Char → List (Spanned α) → Prop
  | gap {n : Nat} {w : List Char} : (∀ c ∈ w, Gap c) → Spread Gap P n w []
  | cons {n : Nat} {v u cs : List Char} {a : α} {xs : List (Spanned α)} :
      (∀ c ∈ v, Gap c) → u ≠ [] → P u a → Spread Gap P (n + v.length + u.length) cs xs →
        Spread Gap P n (v ++ (u ++ cs)) (⟨⟨n + v.length, n + v.length + u.length⟩, a⟩ :: xs)

namespace Spread

variable {α : Type} {Gap : Char → Prop} {P : List Char → α → Prop} {n : Nat} {cs : List Char}
  {xs : List (Spanned α)}

/-- A gap in front of a text only moves its pieces. -/
theorem gap_append {v : List Char} (hv : ∀ c ∈ v, Gap c) (h : Spread Gap P (n + v.length) cs xs) :
    Spread Gap P n (v ++ cs) xs := by
  cases h with
  | gap hw => exact .gap (List.forall_mem_append.2 ⟨hv, hw⟩)
  | @cons _ w u cs a xs hw hu ha h =>
      have hlen : n + v.length + w.length = n + (v ++ w).length := by
        rw [List.length_append, Nat.add_assoc]
      rw [hlen] at h ⊢
      rw [← List.append_assoc]
      exact .cons (List.forall_mem_append.2 ⟨hv, hw⟩) hu ha h

theorem start_le (h : Spread Gap P n cs xs) : ∀ x ∈ xs, n ≤ x.span.start := by
  induction h with
  | gap => exact nofun
  | cons _ _ _ _ ih =>
      refine List.forall_mem_cons.2 ⟨Nat.le_add_right _ _, fun x hx => ?_⟩
      have := ih x hx
      omega

/-- No span is empty, and none reaches into the next one or behind the text. -/
theorem inOrder (h : Spread Gap P n cs xs) :
    xs.Pairwise (fun x y => x.span.stop ≤ y.span.start) ∧
      ∀ x ∈ xs, x.span.start < x.span.stop ∧ x.span.stop ≤ n + cs.length := by
  induction h with
  | gap => exact ⟨.nil, nofun⟩
  | @cons n v u cs a xs _ hu _ h ih =>
      obtain ⟨hpairs, hin⟩ := ih
      have hpos : 0 < u.length := List.length_pos_iff.2 hu
      rw [add_length_append_append]
      refine ⟨List.pairwise_cons.2 ⟨h.start_le, hpairs⟩, List.forall_mem_cons.2 ⟨?_, hin⟩⟩
      exact ⟨Nat.lt_add_of_pos_right hpos, Nat.le_add_right _ _⟩

/-- What no span covers belongs to a gap. -/
theorem gap_of_uncovered (h : Spread Gap P n cs xs) : ∀ {i : Nat} {c : Char}, cs[i]? = some c →
    (∀ x ∈ xs, x.span.covers (n + i) = false) → Gap c := by
  induction h with
  | gap hw =>
      intro i c hc _
      exact hw c (List.mem_of_getElem? hc)
  | @cons n v u cs a xs hv _ _ _ ih =>
      intro i c hc hout
      obtain ⟨hhead, hout⟩ := List.forall_mem_cons.1 hout
      simp only [Span.covers, Bool.and_eq_false_iff, decide_eq_false_iff_not] at hhead
      rcases Nat.lt_or_ge i v.length with hi | hi
      · rw [List.getElem?_append_left hi] at hc
        exact hv c (List.mem_of_getElem? hc)
      · rw [List.getElem?_append_right hi, List.getElem?_append_right (by omega)] at hc
        refine ih hc fun x hx => ?_
        have hi' : n + v.length + u.length + (i - v.length - u.length) = n + i := by omega
        rw [hi']
        exact hout x hx

/-- The spans cut the pieces out of the text. -/
theorem cut (h : Spread Gap P n cs xs) : ∀ before : List Char, before.length = n →
    ∀ x ∈ xs, P (x.span.cut (before ++ cs)) x.value := by
  induction h with
  | gap => exact nofun
  | @cons n v u cs a xs _ _ ha _ ih =>
      rintro before rfl
      rw [← List.length_append] at ih ⊢
      have hrest := ih (before ++ v ++ u) List.length_append
      rw [List.append_assoc _ u, List.append_assoc before] at hrest
      refine List.forall_mem_cons.2 ⟨?_, hrest⟩
      rw [← List.append_assoc, Span.cut_append]
      exact ha

end Spread

end Text

end Redline
