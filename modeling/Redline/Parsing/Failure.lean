import Redline.Parsing.Cursor
import Redline.Problem

/-! # Failures

A failure is a problem together with the number of items that had been read when it was met.  Of
two failures the further one tells more (`further`); failures at the same place are told together:
the first of them is kept and expects what either expects. -/

namespace Redline.Parsing

structure Failure (σ : Type) where
  index : Nat
  problem : Problem σ

variable {σ : Type}

/-- The next item is none of the expected ones. -/
def Cursor.unexpected (c : Cursor σ) (expected : List (Option σ)) : Failure σ :=
  ⟨c.index, ⟨c.here, .unexpected, c.next, expected, none⟩⟩

namespace Failure

/-- The failure met further on; at the same place, the first with what either expects. -/
def further (f g : Failure σ) : Failure σ :=
  if f.index < g.index then g
  else if g.index < f.index then f
  else ⟨f.index, { f.problem with expected := f.problem.expected ++ g.problem.expected }⟩

/-- What is known after a failure `old` and then a failure `new`, where there were any. -/
def latest : Option (Failure σ) → Option (Failure σ) → Option (Failure σ)
  | none, new => new
  | old, none => old
  | some old, some new => some (new.further old)

/-- The failure `f`, unless one met earlier is further on. -/
def orEarlier (f : Failure σ) : Option (Failure σ) → Failure σ
  | none => f
  | some earlier => f.further earlier

/-- Names what was being read, unless a name has been given already. -/
def labelled (label : String) (f : Failure σ) : Failure σ :=
  ⟨f.index, { f.problem with label := f.problem.label.or (some label) }⟩

theorem index_further (f g : Failure σ) : (f.further g).index = max f.index g.index := by
  unfold further
  split
  · omega
  · split
    · omega
    · show f.index = _; omega

theorem latest_none (f : Option (Failure σ)) : latest f none = f := by cases f <;> rfl

section Kept

variable {Q : Failure σ → Prop} (hfurther : ∀ f g, Q f → Q g → Q (f.further g)) {f : Failure σ}
  {old new : Option (Failure σ)}

include hfurther

/-- What is kept where two failures are told together is kept where earlier ones are recalled. -/
theorem orEarlier_of_further (hf : Q f) (hold : ∀ g ∈ old, Q g) : Q (f.orEarlier old) := by
  cases old with
  | none => exact hf
  | some g => exact hfurther f g hf (hold g rfl)

theorem latest_of_further (hold : ∀ g ∈ old, Q g) (hnew : ∀ g ∈ new, Q g) :
    ∀ g ∈ latest old new, Q g := by
  cases old with
  | none => exact hnew
  | some f =>
      cases new with
      | none => exact hold
      | some g =>
          rintro _ ⟨⟩
          exact hfurther g f (hnew g rfl) (hold f rfl)

end Kept

end Failure

end Redline.Parsing
