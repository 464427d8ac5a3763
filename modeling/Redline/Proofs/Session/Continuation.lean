import Mathlib.Data.List.DropRight
import Redline.Proofs.Session.Calls

/-! # Continued lines and their text

No text is lost and none is made up where lines are continued.  What waits behind some lines is the
text of those at their end that go on, back to the last line that did not (`held_after`), by one
step for each line (`push_eq`).  So a line that does not go on completes the input to the text of
these lines and its own.  A text that is cut at its line breaks, with a backslash in the place of
each, is put together again.  Main statement: `pushAll_lines`. -/

namespace Redline.Pending

/-! ### Lines and their text -/

/-- Whether the line ends in a backslash, and so goes on in the next one. -/
def goesOn (line : String) : Bool := line.toList.getLast? = some '\\'

/-- What the line adds to an input: if it goes on, a line break stands for its backslash. -/
def share (line : String) : String :=
  if goesOn line then String.ofList line.toList.dropLast ++ "\n" else line

/-- What the lines add to an input together. -/
def joined (lines : List String) : String := String.join (lines.map share)

/-- The lines at the end that go on, back to the last line that does not. -/
def waiting (lines : List String) : List String := lines.rtakeWhile goesOn

theorem joined_concat (lines : List String) (line : String) :
    joined (lines ++ [line]) = joined lines ++ share line := by
  simp [joined]

theorem waiting_concat (lines : List String) (line : String) :
    waiting (lines ++ [line]) = if goesOn line then waiting lines ++ [line] else [] :=
  List.rtakeWhile_concat _ _ _

theorem waiting_of_forall {lines : List String} (h : ∀ line ∈ lines, goesOn line = true) :
    waiting lines = lines := List.rtakeWhile_eq_self_iff.2 h

/-! ### Pushing lines -/

/-- One line either joins what waits or completes it. -/
theorem push_eq (p : Pending) (line : String) :
    p.push line =
      if goesOn line then (none, ⟨some (p.held.getD "" ++ share line)⟩)
      else (some (p.held.getD "" ++ share line), empty) := by
  unfold share goesOn
  by_cases h : line.toList.getLast? = some '\\'
  · have hcontinued : continued line = some (String.ofList line.toList.dropLast) := if_pos h
    rw [push_continued hcontinued]
    simp only [h, decide_true, if_true, String.append_assoc]
  · rw [push_complete (if_neg h)]
    simp only [h, decide_false, if_false, Bool.false_eq_true]

theorem pushAll_append (p : Pending) (A B : List String) :
    p.pushAll (A ++ B) = p.pushAll A ++ (p.after A).pushAll B := by
  induction A generalizing p with
  | nil => rfl
  | cons line A ih =>
      rw [List.cons_append, pushAll, ih]
      rfl

theorem length_pushAll (p : Pending) (lines : List String) :
    (p.pushAll lines).length = lines.length := by
  induction lines generalizing p with
  | nil => rfl
  | cons line lines ih => rw [pushAll, List.length_cons, List.length_cons, ih]

theorem after_concat (p : Pending) (lines : List String) (line : String) :
    p.after (lines ++ [line]) = ((p.after lines).push line).2 := by
  simp [after]

/-- What waits behind some lines is the text of those that go on at their end. -/
theorem held_after (lines : List String) :
    ((empty.after lines).held.getD "") = joined (waiting lines) := by
  induction lines using List.reverseRecOn with
  | nil => rfl
  | append_singleton lines line ih =>
      rw [after_concat, push_eq, waiting_concat]
      by_cases h : goesOn line = true
      · simp only [if_pos h, Option.getD_some, ih, joined_concat]
      · simp only [if_neg h]
        rfl

/-- What one of the lines gives is what its push gives behind those before it. -/
theorem getElem?_pushAll (p : Pending) (before : List String) (line : String)
    (behind : List String) :
    (p.pushAll (before ++ line :: behind))[before.length]? =
      some ((p.after before).push line) := by
  rw [pushAll_append, List.getElem?_append_right (by rw [length_pushAll]), length_pushAll,
    Nat.sub_self]
  rfl

/-- As long as the lines go on, no input is complete. -/
theorem inputs_of_goesOn {lines : List String} (h : ∀ line ∈ lines, goesOn line = true)
    (p : Pending) : (p.pushAll lines).map (·.1) = List.replicate lines.length none := by
  induction lines generalizing p with
  | nil => rfl
  | cons line lines ih =>
      obtain ⟨hline, hlines⟩ := List.forall_mem_cons.1 h
      rw [pushAll, List.map_cons, ih hlines, push_eq, if_pos hline]
      rfl

/-! ### Cutting a text -/

/-- The parts of the text between its line breaks, but for the last. -/
def firstParts (text : String) : List (List Char) := (text.toList.splitOn '\n').dropLast

/-- The part of the text behind its last line break. -/
def lastPart (text : String) : List Char :=
  (text.toList.splitOn '\n').getLast (List.splitOn_ne_nil _ _)

/-- A part of a text as a line that goes on. -/
def continuing (part : List Char) : String := String.ofList (part ++ ['\\'])

/-- The lines that a text is cut into. -/
def cutLines (text : String) : List String :=
  (firstParts text).map continuing ++ [String.ofList (lastPart text)]

theorem goesOn_continuing (part : List Char) : goesOn (continuing part) = true := by
  simp [goesOn, continuing]

theorem share_continuing (part : List Char) :
    share (continuing part) = String.ofList part ++ "\n" := by
  rw [share, if_pos (goesOn_continuing part), continuing, String.toList_ofList,
    List.dropLast_concat]

/-- The line breaks are back between the parts. -/
theorem joined_continuing (parts : List (List Char)) (last : List Char) :
    (joined (parts.map continuing) ++ String.ofList last).toList =
      ['\n'].intercalate (parts ++ [last]) := by
  induction parts with
  | nil => simp [joined]
  | cons part parts ih =>
      rw [List.cons_append, List.intercalate_cons_of_ne_nil (by simp), ← ih]
      simp [joined, share_continuing]

theorem joined_cutLines (text : String) :
    joined ((firstParts text).map continuing) ++ String.ofList (lastPart text) = text := by
  rw [← String.toList_inj, joined_continuing, firstParts, lastPart, List.dropLast_concat_getLast,
    List.intercalate_splitOn]

/-- The inputs that a text gives when its lines are pushed. -/
theorem inputs_cutLines {text : String} (h : goesOn (String.ofList (lastPart text)) = false) :
    (empty.pushAll (cutLines text)).map (·.1) =
      List.replicate (firstParts text).length none ++ [some text] := by
  have hfirst : ∀ line ∈ (firstParts text).map continuing, goesOn line = true :=
    List.forall_mem_map.2 fun part _ => goesOn_continuing part
  rw [cutLines, pushAll_append, List.map_append, inputs_of_goesOn hfirst, List.length_map, pushAll,
    push_eq, held_after, waiting_of_forall hfirst, share, h]
  simp only [Bool.false_eq_true, if_false, joined_cutLines]
  rfl

/-- Each line either goes on, and then waits with those before it that do, or completes them to an
input.  The lines of a text that is cut at its line breaks complete the text. -/
theorem pushAll_lines :
    (∀ (before : List String) (line : String) (behind : List String), ∃ input pending,
      (empty.pushAll (before ++ line :: behind))[before.length]? = some (input, pending) ∧
      input = (if goesOn line then none else some (joined (waiting before ++ [line]))) ∧
      pending.isContinuing = goesOn line ∧
      pending.held.getD "" = joined (waiting (before ++ [line]))) ∧
    ∀ text : String, (lastPart text).getLast? ≠ some '\\' →
      (empty.pushAll (cutLines text)).map (·.1) =
        List.replicate (firstParts text).length none ++ [some text] := by
  refine ⟨fun before line behind => ?_, fun text hlast => inputs_cutLines ?_⟩
  · refine ⟨((empty.after before).push line).1, ((empty.after before).push line).2,
      getElem?_pushAll empty before line behind, ?_, ?_, ?_⟩
    · rw [push_eq, held_after, joined_concat]
      split <;> rfl
    · rw [push_eq]
      by_cases h : goesOn line = true
      · rw [if_pos h, h]
        rfl
      · rw [if_neg h, Bool.eq_false_iff.2 h]
        rfl
    · rw [← after_concat, held_after]
  · rw [goesOn, String.toList_ofList]
    exact decide_eq_false hlast

/-- A backslash of the text itself and an empty line come through. -/
theorem pushAll_cut_at_backslash : cutLines "a\\\n\nb" = ["a\\\\", "\\", "b"] ∧
    (lastPart "a\\\n\nb").getLast? ≠ some '\\' ∧
    (empty.pushAll ["a\\\\", "\\", "b"]).map (·.1) = [none, none, some "a\\\n\nb"] := by
  have hlast : (lastPart "a\\\n\nb").getLast? ≠ some '\\' := by decide
  have hlines : cutLines "a\\\n\nb" = ["a\\\\", "\\", "b"] := by decide
  have hinputs := pushAll_lines.2 "a\\\n\nb" hlast
  rw [hlines] at hinputs
  exact ⟨hlines, hlast, hinputs⟩

end Redline.Pending
