import Redline.Span

/-! # Problems

A problem says what is wrong with a source text and where.  It is stated over the items that were
being read, characters or tokens, and `Problem.map` turns it into one over their texts.  `found`
and the members of `expected` are `none` for the end of the input.  `expected` is a set: only
`expectedTexts`, which sorts it and removes repetitions, is ever shown.

`describe` is the problem in one line. -/

namespace Redline

inductive Reason (σ : Type) where
  | unexpected
  | unclosed (opened : Span) (delimiter : σ)
  | custom (message : String)
deriving DecidableEq, Repr

structure Problem (σ : Type) where
  span : Span
  reason : Reason σ
  found : Option σ
  expected : List (Option σ)
  label : Option String
deriving DecidableEq, Repr

namespace Reason

def map {σ τ : Type} (f : σ → τ) : Reason σ → Reason τ
  | unexpected => unexpected
  | unclosed opened delimiter => unclosed opened (f delimiter)
  | custom message => custom message

end Reason

namespace Problem

variable {σ τ : Type}

/-- A problem that is told in words of its own. -/
def custom (span : Span) (message : String) : Problem σ := ⟨span, .custom message, none, [], none⟩

def map (f : σ → τ) (p : Problem σ) : Problem τ :=
  ⟨p.span, p.reason.map f, p.found.map f, p.expected.map (·.map f), p.label⟩

/-! ### The expected items -/

/-- The end of the input comes first, then the texts by code points. -/
def notAfter : Option String → Option String → Bool
  | none, _ => true
  | some _, none => false
  | some a, some b => a ≤ b

def expectedTexts (p : Problem String) : List (Option String) :=
  p.expected.eraseDups.mergeSort notAfter

/-! ### One line -/

def itemText (t : Option String) : String := t.getD "end of the input"

def describe (p : Problem String) : String :=
  match p.reason with
  | .unexpected =>
      let expected := (p.expectedTexts.map itemText).mergeSort (· ≤ ·)
      if expected.isEmpty then "Unexpected " ++ itemText p.found
      else "Unexpected " ++ itemText p.found ++ ", expected one of " ++ ", ".intercalate expected
  | .unclosed _ delimiter => "Unclosed delimiter " ++ delimiter
  | .custom message => message

end Problem

end Redline
