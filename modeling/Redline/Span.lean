/-! # Spans

Stretches of a source text, counted in code points.  A `Span` is half open; a `Spanned α` is a
value together with the stretch it was read from.  `shift` moves both to the right, which is what
happens to them when text is put in front of their source. -/

namespace Redline

/-- The stretch from `start` up to, and without, `stop`. -/
structure Span where
  start : Nat
  stop : Nat
deriving DecidableEq, Repr, Inhabited

namespace Span

def shift (n : Nat) (s : Span) : Span := ⟨s.start + n, s.stop + n⟩

/-- Whether position `p` lies in the stretch. -/
def covers (s : Span) (p : Nat) : Bool := s.start ≤ p && p < s.stop

def length (s : Span) : Nat := s.stop - s.start

/-- The last position of the stretch, or its start when it is empty. -/
def last (s : Span) : Nat := max (s.stop - 1) s.start

end Span

/-- A value and where it was read. -/
structure Spanned (α : Type) where
  span : Span
  value : α
deriving DecidableEq, Repr

namespace Spanned

def shift {α : Type} (n : Nat) (x : Spanned α) : Spanned α := ⟨x.span.shift n, x.value⟩

end Spanned

end Redline
