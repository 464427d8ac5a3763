/-! # Sets of code points

A property of characters is stored as the increasing list of the ranges of code points that have
it.  `Ranges.cover` looks a code point up and stops at the first range above it, which is right
for increasing tables (`cover_iff`). -/

namespace Redline.Text

/-- Ranges of code points, both ends included. -/
abbrev Ranges := List (Nat × Nat)

namespace Ranges

/-- Whether one of the ranges holds `n`, for an increasing table. -/
def cover : Ranges → Nat → Bool
  | [], _ => false
  | (low, high) :: rs, n => low ≤ n && (n ≤ high || cover rs n)

/-- Each range ends before the next one starts. -/
def Increasing (rs : Ranges) : Prop := rs.Pairwise fun r s => r.2 < s.1 ∧ r.1 ≤ s.1

instance (rs : Ranges) : Decidable rs.Increasing := inferInstanceAs (Decidable (rs.Pairwise _))

theorem cover_iff {rs : Ranges} (h : rs.Increasing) (n : Nat) :
    rs.cover n = true ↔ ∃ r ∈ rs, r.1 ≤ n ∧ n ≤ r.2 := by
  induction rs with
  | nil => simp [cover]
  | cons r rs ih =>
      have ⟨above, rest⟩ := List.pairwise_cons.1 h
      simp only [cover, Bool.and_eq_true, decide_eq_true_eq, Bool.or_eq_true, ih rest,
        List.mem_cons, exists_eq_or_imp]
      constructor
      · rintro ⟨low, high | later⟩
        · exact Or.inl ⟨low, high⟩
        · exact Or.inr later
      · rintro (here | ⟨s, mem, low, high⟩)
        · exact ⟨here.1, Or.inl here.2⟩
        · exact ⟨Nat.le_trans (above s mem).2 low, Or.inr ⟨s, mem, low, high⟩⟩

end Ranges

end Redline.Text
