import Redline.Proofs.Command.Dispatch
import Redline.Proofs.Report.Finished
import Redline.Proofs.Session.Inputs
import Redline.Proofs.Session.Text
import Redline.Shell

/-! # What the shell survives

An input is carried out or refused, and what is refused is reported; only a report over an empty
argument cannot be drawn to its end.  So an input crashes the shell if and only if its command reads
terms and its argument is empty (`crashes`), and a session over a text ends with a farewell if and
only if its lines can be had and make up no such input.  Main statement: `survives_iff`. -/

namespace Redline

/-- Whether the command reads terms from its argument. -/
def Command.readsTerms : Command → Bool
  | term => true
  | markup => true
  | outline => true
  | cost => true
  | ranking => true
  | _ => false

namespace Command

/-! ### Arguments -/

/-- An empty argument is refused by the commands that read terms. -/
theorem run_empty (command : Command) :
    if command.readsTerms then ∃ p, command.run "" = .error p
    else ∃ output, command.run "" = .ok output := by
  cases command <;> exact ⟨_, rfl⟩

end Command

namespace Shell

open Report Session

/-- Whether a report over an empty argument has to be drawn. -/
def crashes (input : String) : Bool :=
  (Command.ofInput input).1.readsTerms && (Command.ofInput input).2 = ""

/-! ### One input -/

theorem evaluate_of_error {input : String} {p : Problem String}
    (h : (Command.ofInput input).1.run (Command.ofInput input).2 = .error p) :
    evaluate input = report p (Command.ofInput input).2 := by
  unfold evaluate Command.answer
  simp only [h]
  rfl

theorem evaluate_of_ok {input : String} {output : Output}
    (h : (Command.ofInput input).1.run (Command.ofInput input).2 = .ok output) :
    evaluate input = ⟨(), output, .goOn⟩ := by
  unfold evaluate Command.answer
  simp only [h]
  rfl

theorem evaluate_of_crashes {input : String} (h : crashes input = true) :
    ∃ p, evaluate input = ⟨(), ⟨"", headline p ++ "\n"⟩, .crashed Obstacle.noLine.message⟩ := by
  unfold crashes at h
  simp only [Bool.and_eq_true, decide_eq_true_eq] at h
  obtain ⟨hreads, hempty⟩ := h
  have hrun := Command.run_empty (Command.ofInput input).1
  rw [if_pos hreads] at hrun
  obtain ⟨p, hp⟩ := hrun
  have hevaluate := evaluate_of_error (hempty ▸ hp)
  rw [hempty] at hevaluate
  refine ⟨p, ?_⟩
  rw [hevaluate, report, draw_empty (Command.placed_of_run hp)]
  simp [Drawing.text]

theorem verdict_of_not_crashes {input : String} (h : crashes input = false)
    (hlen : input.toList.length < wordBound / 2) : (evaluate input).verdict = .goOn := by
  cases hrun : (Command.ofInput input).1.run (Command.ofInput input).2 with
  | ok output => rw [evaluate_of_ok hrun]
  | error p =>
      have hne : (Command.ofInput input).2 ≠ "" := by
        intro hempty
        have hreads : (Command.ofInput input).1.readsTerms = false := by
          simpa [crashes, hempty] using h
        have hok := Command.run_empty (Command.ofInput input).1
        rw [hreads] at hok
        obtain ⟨output, hok⟩ := hok
        rw [hempty, hok] at hrun
        cases hrun
      have hsuffix := (Command.suffix_ofInput input).length_le
      rw [evaluate_of_error hrun, report,
        obstacle_draw (Command.placed_of_run hrun) hne (by omega)]

/-! ### One session -/

theorem ending_submit {s : State Unit Empty} (hs : s.ending = none) (input : String) :
    (submit host s input).ending = none ∨
      ∃ m, (submit host s input).ending = some (.crashed m) := by
  unfold submit
  split
  · exact .inl hs
  · simp only
    cases (host s.host input).verdict with
    | goOn => exact .inl rfl
    | failed error => exact error.elim
    | crashed m => exact .inr ⟨m, rfl⟩

/-- A session that is over before the end of its inputs has crashed. -/
theorem ending_submitAll : ∀ (inputs : List String) {s : State Unit Empty}, s.ending = none →
    (submitAll host s inputs).ending = none ∨
      ∃ m, (submitAll host s inputs).ending = some (.crashed m)
  | [], _, hs => .inl hs
  | input :: inputs, s, hs => by
      unfold submitAll
      rw [hs]
      simp only
      rcases ending_submit hs input with hnone | ⟨m, hm⟩
      · exact ending_submitAll inputs hnone
      · exact .inr ⟨m, by rw [submitAll_of_ending hm, hm]⟩

theorem ending_submit_of_goOn {s : State Unit Empty} (hs : s.ending = none) {input : String}
    (h : (evaluate input).verdict = .goOn) : (submit host s input).ending = none := by
  unfold submit host
  split
  · exact hs
  · simp only [h]

theorem ending_submit_of_crashes {s : State Unit Empty} {input : String}
    (hblank : isBlankInput input = false) (h : crashes input = true) :
    (submit host s input).ending ≠ none := by
  obtain ⟨p, hp⟩ := evaluate_of_crashes h
  unfold submit host
  simp [hblank, hp]

theorem ending_submitAll_eq_none : ∀ {inputs : List String} {s : State Unit Empty},
    s.ending = none →
      (∀ input ∈ inputs, crashes input = false ∧ input.toList.length < wordBound / 2) →
        (submitAll host s inputs).ending = none
  | [], _, hs, _ => hs
  | input :: inputs, s, hs, h => by
      obtain ⟨⟨hcrashes, hlen⟩, hrest⟩ := List.forall_mem_cons.1 h
      unfold submitAll
      rw [hs]
      exact ending_submitAll_eq_none
        (ending_submit_of_goOn hs (verdict_of_not_crashes hcrashes hlen)) hrest

theorem ending_submitAll_ne_none : ∀ {inputs : List String} {s : State Unit Empty},
    (∃ input ∈ inputs, isBlankInput input = false ∧ crashes input = true) →
      (submitAll host s inputs).ending ≠ none
  | input :: inputs, s, h => by
      unfold submitAll
      cases hs : s.ending with
      | some e => simp [hs]
      | none =>
          simp only
          obtain ⟨i, hi, hblank, hcrashes⟩ := h
          rcases List.mem_cons.1 hi with rfl | hi
          · have hne := ending_submit_of_crashes (s := s) hblank hcrashes
            obtain ⟨e, he⟩ := Option.ne_none_iff_exists'.1 hne
            rw [submitAll_of_ending he]
            exact hne
          · exact ending_submitAll_ne_none ⟨i, hi, hblank, hcrashes⟩

/-! ### The whole program -/

/-- All lines can be had, and none of the inputs that they make up crashes the shell. -/
def Survivable (stdin : Bytes) : Prop :=
  ∃ lines : List String, linesOf stdin = lines.map .ok ∧
    ∀ input ∈ Pending.empty.inputs lines, crashes input = false

/-- How the session stands when its lines have been read, and before it is finished. -/
def served (stdin : Bytes) : State Unit Empty := readAll host (start ()) (linesOf stdin)

theorem ending_readAll (lines : List String) :
    (readAll host (start ()) (lines.map .ok)).ending =
      (submitAll host (start ()) (Pending.empty.inputs lines)).ending := by
  rw [← ending_settled, settled_readAll lines rfl]
  rfl

theorem ending_served {stdin : Bytes} {lines : List String} (h : linesOf stdin = lines.map .ok) :
    (served stdin).ending =
      (submitAll host (start ()) (Pending.empty.inputs lines)).ending := by
  rw [served, h, ending_readAll]

theorem run_of_ending_none {stdin : Bytes} (h : (served stdin).ending = none) :
    run stdin = ⟨greeting ++ ((served stdin).output ++ .line "Bye!" ++ .empty), 0⟩ := by
  have hrun : Session.run host () (linesOf stdin) =
      { served stdin with output := (served stdin).output ++ .line "Bye!",
                          ending := some .farewell } := by
    change finish (served stdin) = _
    unfold finish
    rw [h]
  unfold run Session.process
  rw [hrun]
  rfl

theorem code_of_crashed {stdin : Bytes} {m : String}
    (h : (served stdin).ending = some (.crashed m)) : (run stdin).code = 101 := by
  have hrun : Session.run host () (linesOf stdin) = served stdin := by
    change finish (served stdin) = _
    unfold finish
    rw [h]
  unfold run Session.process State.exit
  rw [hrun, h]
  rfl

theorem crashed_of_not_survivable {text : String} (h : ¬ Survivable text.toUTF8.data.toList) :
    ∃ m, (served text.toUTF8.data.toList).ending = some (.crashed m) := by
  rcases lines_cases (linesOf text.toUTF8.data.toList) with ⟨lines, hlines⟩ |
    ⟨lines, fault, behind, hlines⟩
  · rw [ending_served hlines]
    refine (ending_submitAll _ rfl).resolve_left (ending_submitAll_ne_none ?_)
    apply Classical.byContradiction
    intro hnone
    refine h ⟨lines, hlines, fun input hinput => ?_⟩
    have hblank := (List.mem_filter.1 hinput).2
    rw [Bool.not_eq_true'] at hblank
    rw [Bool.eq_false_iff]
    exact fun hcrashes => hnone ⟨input, hinput, hblank, hcrashes⟩
  · obtain rfl := fault_of_text (hlines ▸ List.mem_append_right _ List.mem_cons_self)
    rw [served, hlines, ending_of_fault, ending_readAll]
    rcases ending_submitAll (Pending.empty.inputs lines) (s := start ()) rfl with hnone | ⟨m, hm⟩
    · rw [hnone]
      exact ⟨_, rfl⟩
    · rw [hm]
      exact ⟨m, rfl⟩

theorem farewell_of_survivable {stdin : Bytes} {lines : List String}
    (hlines : linesOf stdin = lines.map .ok)
    (h : ∀ input ∈ Pending.empty.inputs lines,
      crashes input = false ∧ input.toList.length < wordBound / 2) :
    (run stdin).code = 0 ∧ ∃ o, (run stdin).output.stdout = o ++ "Bye!\n" := by
  have hnone : (served stdin).ending = none := by
    rw [ending_served hlines]
    exact ending_submitAll_eq_none rfl h
  rw [run_of_ending_none hnone]
  refine ⟨rfl, greeting.stdout ++ (served stdin).output.stdout, ?_⟩
  simp [Output.line, Output.empty, String.append_assoc]

/-- An input is survived unless a report over an empty argument has to be drawn, and a session over
a text ends with a farewell unless one of its inputs is such an input or a backspace cuts a
character of a line in two.  Inputs are texts in memory, of fewer than `wordBound / 2`
characters. -/
theorem survives_iff (input text : String) (hinput : input.toList.length < wordBound / 2)
    (htext : ∀ lines : List String, linesOf text.toUTF8.data.toList = lines.map .ok →
      ∀ i ∈ Pending.empty.inputs lines, i.toList.length < wordBound / 2) :
    ((evaluate input).verdict = .goOn ↔ crashes input = false) ∧
    (((run text.toUTF8.data.toList).code = 0 ∧
      ∃ o, (run text.toUTF8.data.toList).output.stdout = o ++ "Bye!\n") ↔
        Survivable text.toUTF8.data.toList) := by
  refine ⟨⟨fun hgoOn => ?_, fun h => verdict_of_not_crashes h hinput⟩, fun hexit => ?_, ?_⟩
  · rw [Bool.eq_false_iff]
    intro hcrashes
    obtain ⟨p, hp⟩ := evaluate_of_crashes hcrashes
    rw [hp] at hgoOn
    cases hgoOn
  · apply Classical.byContradiction
    intro hnot
    obtain ⟨m, hm⟩ := crashed_of_not_survivable hnot
    rw [code_of_crashed hm] at hexit
    exact absurd hexit.1 (by decide)
  · rintro ⟨lines, hlines, h⟩
    exact farewell_of_survivable hlines fun i hi => ⟨h i hi, htext lines hlines i hi⟩

theorem linesOf_diff : linesOf "x; y\n".toUTF8.data.toList = ["x; y"].map .ok := by
  have hback := Text.applyBackspaces_eq_self (s := "x; y".toList) (by decide)
  rw [toList_toUTF8]
  change [readLine (encode "x; y".toList)] = _
  rw [readLine_encode, hback]
  rfl

/-- A diff is survived, and so is the session that asks for it. -/
theorem survives_diff :
    (evaluate "x; y").verdict = .goOn ∧
    (run "x; y\n".toUTF8.data.toList).code = 0 ∧
      ∃ o, (run "x; y\n".toUTF8.data.toList).output.stdout = o ++ "Bye!\n" := by
  have hinputs : ∀ lines : List String, linesOf "x; y\n".toUTF8.data.toList = lines.map .ok →
      ∀ i ∈ Pending.empty.inputs lines, i = "x; y" := by
    intro lines hlines i hi
    rw [linesOf_diff] at hlines
    obtain rfl : ["x; y"] = lines := (List.map_inj_right fun _ _ => Except.ok.inj).1 hlines
    exact List.mem_singleton.1 hi
  obtain ⟨hinput, htext⟩ := survives_iff "x; y" "x; y\n" (by decide) fun lines hlines i hi => by
    rw [hinputs lines hlines i hi]
    decide
  refine ⟨hinput.2 rfl, htext.2 ⟨["x; y"], linesOf_diff, fun i hi => ?_⟩⟩
  rw [hinputs _ linesOf_diff i hi]
  rfl

/-- `:p` with nothing to parse crashes, and ends a session. -/
theorem evaluate_parse_nothing :
    (∃ p, evaluate ":p" = ⟨(), ⟨"", headline p ++ "\n"⟩,
      .crashed "index out of bounds: the len is 0 but the index is 0"⟩) ∧
    (run ":p\nx; y\n".toUTF8.data.toList).code = 101 := by
  have hcrashes : crashes ":p" = true := by rfl
  refine ⟨evaluate_of_crashes hcrashes, ?_⟩
  have hlines : linesOf ":p\nx; y\n".toUTF8.data.toList = [":p", "x; y"].map .ok := by
    have hparse := Text.applyBackspaces_eq_self (s := ":p".toList) (by decide)
    have hdiff := Text.applyBackspaces_eq_self (s := "x; y".toList) (by decide)
    rw [toList_toUTF8]
    change [readLine (encode ":p".toList), readLine (encode "x; y".toList)] = _
    rw [readLine_encode, readLine_encode, hparse, hdiff]
    rfl
  have hnot : ¬ Survivable ":p\nx; y\n".toUTF8.data.toList := by
    rintro ⟨lines, hlines', h⟩
    rw [hlines] at hlines'
    obtain rfl : [":p", "x; y"] = lines :=
      (List.map_inj_right fun _ _ => Except.ok.inj).1 hlines'
    exact absurd (h ":p" List.mem_cons_self) (by decide)
  obtain ⟨m, hm⟩ := crashed_of_not_survivable hnot
  exact code_of_crashed hm

end Shell

end Redline
