import Redline.Parsing.Failure

/-! # Parsers

A parser reads some items at a cursor and replies with a value and a new cursor, or with a
failure.  A successful reply still tells the furthest failure `met` on the way, if there was one:
should the parse fail later but less far on, that failure is the better explanation.

* In a sequence (`bind`) the failures of both parts compete, and of two equally far ones the later
  part speaks first.
* An alternative (`p <|> q`) that succeeds forgets the failures of the alternatives before it; when
  all fail, the furthest failure is kept, and of equally far ones the last alternative speaks first.
* A repetition (`repeated`) ends where its item fails, and that failure counts as met.

Loops and recursion are bounded by the number of items ahead.  Each round of a repetition reads an
item and each nested parser starts behind one, so `repeated` tries its item, and `fix` nests, at
most once more than there are items. -/

namespace Redline.Parsing

inductive Reply (σ α : Type) where
  | ok (value : α) (next : Cursor σ) (met : Option (Failure σ))
  | error (failure : Failure σ)

structure Parser (σ α : Type) where
  run : Cursor σ → Reply σ α

namespace Parser

variable {σ α β : Type}

/-! ### Single items -/

def fail : Parser σ α := ⟨fun c => .error (c.unexpected [])⟩

/-- One item on which `f` is defined. -/
def item (expected : List (Option σ)) (f : σ → Option α) : Parser σ α where
  run c :=
    match c.rest with
    | [] => .error (c.unexpected expected)
    | x :: xs =>
        match f x.value with
        | some a => .ok a (c.after x xs) none
        | none => .error (c.unexpected expected)

/-- One item on which `f` is defined, without a suggestion what that might be. -/
def select (f : σ → Option α) : Parser σ α := item [] f

def satisfy (p : σ → Bool) : Parser σ σ := select fun x => if p x then some x else none

def just [DecidableEq σ] (x : σ) : Parser σ σ :=
  item [some x] fun y => if y = x then some x else none

/-- The end of the input. -/
def ending : Parser σ Unit where
  run c :=
    match c.rest with
    | [] => .ok () c none
    | _ :: _ => .error (c.unexpected [none])

/-! ### Sequences -/

def pure (a : α) : Parser σ α := ⟨fun c => .ok a c none⟩

def bind (p : Parser σ α) (f : α → Parser σ β) : Parser σ β where
  run c :=
    match p.run c with
    | .error failure => .error failure
    | .ok a c₁ met₁ =>
        match (f a).run c₁ with
        | .error failure => .error (failure.orEarlier met₁)
        | .ok b c₂ met₂ => .ok b c₂ (Failure.latest met₁ met₂)

instance : Monad (Parser σ) where
  pure := pure
  bind := bind

/-- `p` between `opening` and `closing`. -/
def between [DecidableEq σ] (opening closing : σ) (p : Parser σ α) : Parser σ α := do
  let _ ← just opening
  let a ← p
  let _ ← just closing
  return a

/-! ### Alternatives -/

def orElse (p q : Parser σ α) : Parser σ α where
  run c :=
    match p.run c with
    | .ok a c' met => .ok a c' met
    | .error first =>
        match q.run c with
        | .ok a c' met => .ok a c' met
        | .error second => .error (second.further first)

instance : OrElse (Parser σ α) := ⟨fun p q => p.orElse (q ())⟩

/-- The first of the parsers that succeeds. -/
def firstOf : List (Parser σ α) → Parser σ α
  | [] => fail
  | [p] => p
  | p :: q :: ps => p <|> firstOf (q :: ps)

/-- `p`, or nothing at all where `p` fails. -/
def optional (p : Parser σ α) : Parser σ (Option α) where
  run c :=
    match p.run c with
    | .ok a c' met => .ok (some a) c' met
    | .error failure => .ok none c (some failure)

/-! ### Repetitions -/

/-- `p` as often as it succeeds, but at most `n` times. -/
def upTo (p : Parser σ α) : Nat → Parser σ (List α)
  | 0 => pure []
  | n + 1 => do
      match ← optional p with
      | none => return []
      | some a => return a :: (← upTo p n)

/-- `p` as often as it succeeds, for a `p` that reads at least one item. -/
def repeated (p : Parser σ α) : Parser σ (List α) :=
  ⟨fun c => (p.upTo (c.rest.length + 1)).run c⟩

/-- Any number of `p` with `separator` between neighbours. -/
def sepBy (p : Parser σ α) (separator : Parser σ β) : Parser σ (List α) := do
  match ← optional p with
  | none => return []
  | some a => return a :: (← repeated do let _ ← separator; p)

/-- As `sepBy`, and one more `separator` may follow the last `p`. -/
def sepEndBy (p : Parser σ α) (separator : Parser σ β) : Parser σ (List α) := do
  match ← sepBy p separator with
  | [] => return []
  | a :: as =>
      let _ ← optional separator
      return a :: as

/-! ### Recursion -/

/-- `step` nested `n` times over a parser that fails. -/
def nested (step : Parser σ α → Parser σ α) : Nat → Parser σ α
  | 0 => fail
  | n + 1 => ⟨fun c => (step (nested step n)).run c⟩

theorem nested_succ (step : Parser σ α → Parser σ α) (n : Nat) :
    nested step (n + 1) = step (nested step n) := rfl

/-- The parser that `step` describes in terms of itself, for a `step` that uses itself only after
it has read an item. -/
def fix (step : Parser σ α → Parser σ α) : Parser σ α :=
  ⟨fun c => (nested step (c.rest.length + 1)).run c⟩

/-! ### Places and names -/

/-- Names what `p` reads in its failures. -/
def labelled (label : String) (p : Parser σ α) : Parser σ α where
  run c :=
    match p.run c with
    | .ok a c' met => .ok a c' met
    | .error failure => .error (failure.labelled label)

/-- The value of `p` with the span from its first to its last item. -/
def spanned (p : Parser σ α) : Parser σ (Spanned α) where
  run c :=
    match p.run c with
    | .ok a c' met => .ok ⟨⟨c.here.start, c'.stop⟩, a⟩ c' met
    | .error failure => .error failure

/-- `p` followed by a check of its value; a problem found by the check is met behind the items
that `p` has read, and is all that is told. -/
def check (p : Parser σ α) (f : Spanned α → Except (Problem σ) β) : Parser σ β where
  run c :=
    match p.spanned.run c with
    | .error failure => .error failure
    | .ok a c' met =>
        match f a with
        | .ok b => .ok b c' met
        | .error problem => .error ⟨c'.index, problem⟩

/-- `p` with items that satisfy `blank` skipped before it and after it. -/
def padded (blank : σ → Bool) (p : Parser σ α) : Parser σ α where
  run c :=
    match p.run (c.dropWhile blank) with
    | .ok a c' met => .ok a (c'.dropWhile blank) met
    | .error failure => .error failure

/-! ### Whole inputs -/

/-- `p` up to the end of the input. -/
def whole (p : Parser σ α) : Parser σ α := do
  let a ← p
  ending
  return a

/-- All items, read by `p`. -/
def parse (p : Parser σ α) (items : List (Spanned σ)) (atEnd : Span) : Except (Problem σ) α :=
  match p.whole.run (.ofItems items atEnd) with
  | .ok a _ _ => .ok a
  | .error failure => .error failure.problem

end Parser

end Redline.Parsing
