import Mathlib.Data.List.TakeWhile
import Redline.Command
import Redline.Proofs.Parsing.Reading

/-! # Which command an input gives

An input behind a colon is cut at the first space behind its leading blanks (`splitWord_of_mem`),
and the argument is what stands behind that space (`suffix_ofInput`).  Where there is no such space,
all of the input is the word, leading blanks included, and no command has a word that starts with a
blank (`ofWord_of_isBlank`).  So blanks between the colon and the word are ignored in front of a
word with a space behind it, and nowhere else.  Main statement: `answer_blanks_iff`. -/

namespace Redline.Command

open Parsing

/-! ### Words and arguments -/

theorem splitWord_of_mem {behind : List Char} (h : ' ' ∈ Text.trimLeft behind) :
    splitWord behind = ((Text.trimLeft behind).takeWhile (· != ' '),
      ((Text.trimLeft behind).dropWhile (· != ' ')).tail) := by
  unfold splitWord
  cases hargument : (Text.trimLeft behind).dropWhile (· != ' ') with
  | nil =>
      have hall := List.dropWhile_eq_nil_iff.1 hargument ' ' h
      cases hall
  | cons c argument => simp only [hargument, List.tail_cons]

theorem splitWord_of_not_mem {behind : List Char} (h : ' ' ∉ Text.trimLeft behind) :
    splitWord behind = (behind, []) := by
  have hall : (Text.trimLeft behind).dropWhile (· != ' ') = [] :=
    List.dropWhile_eq_nil_iff.2 fun c hc => bne_iff_ne.2 fun hspace => h (hspace ▸ hc)
  unfold splitWord
  simp only [hall]

theorem suffix_splitWord (behind : List Char) : (splitWord behind).2 <:+ behind := by
  by_cases h : ' ' ∈ Text.trimLeft behind
  · rw [splitWord_of_mem h]
    exact ((List.tail_suffix _).trans (List.dropWhile_suffix _)).trans (List.dropWhile_suffix _)
  · rw [splitWord_of_not_mem h]
    exact List.nil_suffix

theorem ofInput_colon_append (behind : String) : ofInput (":" ++ behind) =
    (ofWord (String.ofList (splitWord behind.toList).1),
      String.ofList (splitWord behind.toList).2) := by
  have hcolon : (":" ++ behind).toList = ':' :: behind.toList := by
    rw [String.toList_append]
    rfl
  simp only [ofInput, hcolon]

/-- The argument stands at the end of the input. -/
theorem suffix_ofInput (input : String) : (ofInput input).2.toList <:+ input.toList := by
  unfold ofInput
  split
  case h_1 behind hinput =>
    rw [hinput, String.toList_ofList]
    exact (suffix_splitWord behind).trans (List.suffix_cons ':' behind)
  case h_2 => exact List.suffix_refl _

/-- Blanks in front are trimmed with those that follow. -/
theorem trimLeft_blank_append {w : List Char} (hw : ∀ c ∈ w, Text.isBlank c = true)
    (behind : List Char) : Text.trimLeft (w ++ behind) = Text.trimLeft behind :=
  List.dropWhile_append_of_pos hw

/-! ### Words without a command -/

/-- No command has a word that starts with a blank. -/
theorem ofWord_of_isBlank {word : String} {c : Char} (hword : word.toList.head? = some c)
    (hc : Text.isBlank c = true) : ofWord word = unknown word := by
  unfold ofWord
  split
  all_goals first
    | rfl
    | (cases hword; done)
    | (cases hword; cases hc)

theorem eq_of_ofWord_eq_unknown {word other : String} (h : ofWord word = unknown other) :
    other = word := by
  unfold ofWord at h
  split at h
  all_goals cases h
  rfl

/-- Only an unknown word is told of on the error channel. -/
theorem stderr_of_run {command : Command} {argument : String} {output : Output}
    (h : command.run argument = .ok output) (hword : ∀ word, command ≠ unknown word) :
    output.stderr = "" := by
  cases command with
  | ranking =>
      obtain ⟨terms, -, h⟩ := ok_of_bind h
      cases terms with
      | nil => cases h
      | cons old candidates =>
          cases h
          exact Output.stderr_lines _
  | help => cases h; rfl
  | unknown word => exact absurd rfl (hword word)
  | _ =>
      obtain ⟨_, -, h⟩ := ok_of_bind h
      cases h
      rfl

theorem answer_of_unknown {input word : String} (h : (ofInput input).1 = unknown word) :
    answer input = .ok (.errorLine ("Unknown command " ++ word) ++ .line helpText) := by
  unfold answer
  simp only [h]
  rfl

/-! ### Blanks behind the colon -/

section Blanks

variable {w : String} (hw : ∀ c ∈ w.toList, Text.isBlank c = true) {r : String}

include hw

theorem answer_of_space (h : ' ' ∈ Text.trimLeft r.toList) :
    answer (":" ++ w ++ r) = answer (":" ++ r) := by
  have hbehind : splitWord (w ++ r).toList = splitWord r.toList := by
    have htrim := trimLeft_blank_append hw r.toList
    rw [String.toList_append, splitWord_of_mem h, splitWord_of_mem (by rwa [htrim]), htrim]
  unfold answer
  rw [String.append_assoc, ofInput_colon_append, ofInput_colon_append, hbehind]

/-- Without a space behind it, a word with blanks in front of it is unknown. -/
theorem answer_of_no_space (hne : w ≠ "") (h : ' ' ∉ Text.trimLeft r.toList) :
    answer (":" ++ w ++ r) =
      .ok (.errorLine ("Unknown command " ++ (w ++ r)) ++ .line helpText) := by
  obtain ⟨c, cs, hcs⟩ := List.exists_cons_of_ne_nil fun h => hne (String.toList_eq_nil_iff.1 h)
  have hhead : (w ++ r).toList.head? = some c := by
    rw [String.toList_append, hcs]
    rfl
  refine answer_of_unknown ?_
  rw [String.append_assoc, ofInput_colon_append, splitWord_of_not_mem, String.ofList_toList,
    ofWord_of_isBlank hhead (hw c (by rw [hcs]; exact List.mem_cons_self))]
  rwa [String.toList_append, trimLeft_blank_append hw]

/-- Blanks behind the colon are ignored exactly where a space follows the word, and otherwise they
make it an unknown one. -/
theorem answer_blanks_iff :
    (answer (":" ++ w ++ r) = answer (":" ++ r) ↔ w = "" ∨ ' ' ∈ Text.trimLeft r.toList) ∧
    (w ≠ "" → ' ' ∉ Text.trimLeft r.toList → answer (":" ++ w ++ r) =
      .ok (.errorLine ("Unknown command " ++ (w ++ r)) ++ .line helpText)) := by
  refine ⟨⟨fun heq => ?_, ?_⟩, answer_of_no_space hw⟩
  · by_contra hnot
    obtain ⟨hne, hspace⟩ := not_or.1 hnot
    have hpos : 0 < w.length := Nat.pos_of_ne_zero fun h => hne (String.length_eq_zero_iff.1 h)
    rw [answer_of_no_space hw hne hspace] at heq
    have hinput : ofInput (":" ++ r) = (ofWord r, "") := by
      rw [ofInput_colon_append, splitWord_of_not_mem hspace, String.ofList_toList]
    -- What is written tells the whole word, blanks and all, or nothing.
    by_cases hword : ∃ word, ofWord r = unknown word
    · obtain ⟨word, hword⟩ := hword
      obtain rfl := eq_of_ofWord_eq_unknown hword
      rw [answer_of_unknown (by rw [hinput, hword])] at heq
      have hlength := congrArg (·.stderr.length) (Except.ok.inj heq)
      simp only [Output.stderr_append, Output.errorLine, Output.line, String.length_append]
        at hlength
      omega
    · unfold answer at heq
      rw [hinput] at heq
      have hstderr := stderr_of_run (ok_of_mapError heq.symm) (not_exists.1 hword)
      have hlength := congrArg String.length hstderr
      simp only [Output.stderr_append, Output.errorLine, Output.line, String.length_append]
        at hlength
      change _ = 0 at hlength
      omega
  · rintro (rfl | h)
    · rw [String.append_empty]
    · exact answer_of_space hw h

end Blanks

/-- Blanks in front of a command word with a space behind it. -/
theorem answer_blanks_tokens : (∀ c ∈ " \t".toList, Text.isBlank c = true) ∧
    answer (":" ++ " \t" ++ "to x") = .ok (.line "[Ident(\"x\")]") := by
  have hw : ∀ c ∈ " \t".toList, Text.isBlank c = true :=
    List.forall_mem_cons.2 ⟨rfl, List.forall_mem_singleton.2 rfl⟩
  refine ⟨hw, ((answer_blanks_iff hw).1.2 (.inr (by decide))).trans ?_⟩
  rfl

/-- A blank in front of a word without an argument is not ignored. -/
theorem answer_blank_help : (∀ c ∈ " ".toList, Text.isBlank c = true) ∧
    answer (":" ++ "help") = .ok (.line helpText) ∧
    answer (":" ++ " " ++ "help") =
      .ok (.errorLine "Unknown command  help" ++ .line helpText) ∧
    answer (":" ++ " " ++ "help") ≠ answer (":" ++ "help") := by
  have hblank : answer (":" ++ " " ++ "help") =
      .ok (.errorLine "Unknown command  help" ++ .line helpText) := rfl
  refine ⟨List.forall_mem_singleton.2 rfl, rfl, hblank, fun h => ?_⟩
  have hstderr := congrArg Output.stderr (Except.ok.inj (hblank.symm.trans h))
  exact absurd hstderr (by decide)

end Redline.Command
