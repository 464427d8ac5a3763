import Redline.Span

/-! # Cursors

A cursor is a place in a sequence of items, each with the span it came from.  `index` counts the
items before the place; the end of the sequence has a span of its own, `ending`. -/

namespace Redline.Parsing

structure Cursor (σ : Type) where
  rest : List (Spanned σ)
  /-- The number of items read so far. -/
  index : Nat
  /-- Where the span of the last item read stops. -/
  stop : Nat
  ending : Span
deriving DecidableEq

namespace Cursor

variable {σ : Type}

/-- The place before the first item. -/
def ofItems (items : List (Spanned σ)) (ending : Span) : Cursor σ := ⟨items, 0, 0, ending⟩

/-- The next item, or `none` at the end. -/
def next (c : Cursor σ) : Option σ := c.rest.head?.map (·.value)

/-- The span of the next item, or of the end. -/
def here (c : Cursor σ) : Span := (c.rest.head?.map (·.span)).getD c.ending

/-- The place behind the item `x`, with `xs` still to come. -/
def after (c : Cursor σ) (x : Spanned σ) (xs : List (Spanned σ)) : Cursor σ :=
  ⟨xs, c.index + 1, x.span.stop, c.ending⟩

/-- The first place whose next item does not satisfy `p`, or the end. -/
def dropWhile (p : σ → Bool) (c : Cursor σ) : Cursor σ := go c.rest c.index c.stop
where
  go : List (Spanned σ) → Nat → Nat → Cursor σ
    | [], index, stop => ⟨[], index, stop, c.ending⟩
    | x :: xs, index, stop =>
        if p x.value then go xs (index + 1) x.span.stop else ⟨x :: xs, index, stop, c.ending⟩

end Cursor

/-- The characters of a text from position `n` on, each with its own span. -/
def characters (n : Nat) : List Char → List (Spanned Char)
  | [] => []
  | c :: cs => ⟨⟨n, n + 1⟩, c⟩ :: characters (n + 1) cs

@[simp] theorem length_characters (n : Nat) (cs : List Char) :
    (characters n cs).length = cs.length := by
  induction cs generalizing n with
  | nil => rfl
  | cons c cs ih => simp [characters, ih]

theorem map_value_characters (n : Nat) (cs : List Char) :
    (characters n cs).map (·.value) = cs := by
  induction cs generalizing n with
  | nil => rfl
  | cons c cs ih => simp [characters, ih]

end Redline.Parsing
