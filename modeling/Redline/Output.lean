/-! # Output

What is written to the two output channels, each in its own order. -/

namespace Redline

structure Output where
  stdout : String
  stderr : String
deriving DecidableEq, Repr

namespace Output

def empty : Output := ⟨"", ""⟩

/-- One line on the output channel. -/
def line (s : String) : Output := ⟨s ++ "\n", ""⟩

/-- One line on the error channel. -/
def errorLine (s : String) : Output := ⟨"", s ++ "\n"⟩

def append (a b : Output) : Output := ⟨a.stdout ++ b.stdout, a.stderr ++ b.stderr⟩

instance : Append Output := ⟨append⟩

@[simp] theorem stdout_append (a b : Output) : (a ++ b).stdout = a.stdout ++ b.stdout := rfl

@[simp] theorem stderr_append (a b : Output) : (a ++ b).stderr = a.stderr ++ b.stderr := rfl

theorem append_assoc (a b c : Output) : a ++ b ++ c = a ++ (b ++ c) := by
  change Output.mk _ _ = Output.mk _ _
  rw [stdout_append, stderr_append, String.append_assoc, String.append_assoc]
  rfl

theorem empty_append (a : Output) : empty ++ a = a := by
  change Output.mk ("" ++ _) ("" ++ _) = a
  rw [String.empty_append, String.empty_append]

theorem append_empty (a : Output) : a ++ empty = a := by
  change Output.mk (_ ++ "") (_ ++ "") = a
  rw [String.append_empty, String.append_empty]

/-- One line for each text. -/
def lines (ss : List String) : Output := ss.foldr (fun s o => line s ++ o) empty

theorem stderr_lines (ss : List String) : (lines ss).stderr = "" := by
  induction ss with
  | nil => rfl
  | cons s ss ih =>
      change "" ++ (lines ss).stderr = ""
      rw [ih, String.empty_append]

end Output

end Redline
