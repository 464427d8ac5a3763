import Redline.Text.Ranges

/-! # Blanks

The characters with the Unicode property White_Space: what may stand between two tokens, what is
trimmed from the ends of a text, and what a report draws as an empty column. -/

namespace Redline.Text

/-- The Unicode property White_Space. -/
def blankRanges : Ranges :=
  [(0x9, 0xD), (0x20, 0x20), (0x85, 0x85), (0xA0, 0xA0), (0x1680, 0x1680), (0x2000, 0x200A),
   (0x2028, 0x2029), (0x202F, 0x202F), (0x205F, 0x205F), (0x3000, 0x3000)]

def isBlank (c : Char) : Bool := blankRanges.cover c.toNat

theorem increasing_blankRanges : blankRanges.Increasing := by decide

theorem isBlank_iff {c : Char} :
    isBlank c = true ↔ ∃ r ∈ blankRanges, r.1 ≤ c.toNat ∧ c.toNat ≤ r.2 :=
  Ranges.cover_iff increasing_blankRanges _

/-- The text without its leading blanks. -/
def trimLeft (s : List Char) : List Char := s.dropWhile isBlank

/-- The text without its trailing blanks. -/
def trimRight (s : List Char) : List Char := (s.reverse.dropWhile isBlank).reverse

end Redline.Text
