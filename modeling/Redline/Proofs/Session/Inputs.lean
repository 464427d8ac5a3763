import Redline.Session.Run

/-! # The inputs of a session

What a session hands to its host is settled by its lines alone: the inputs that they make up, less
those that are blank throughout (`Pending.inputs`).  So a session over lines that can be had is a
run of the host over these inputs (`submitAll`), which stops with the first that the host does not
survive (`settled_readAll`).  A line that is not to be had ends a session that is still under
way. -/

namespace Redline

/-- The inputs that the lines make up behind what is pending, less those that are blank. -/
def Pending.inputs (p : Pending) (lines : List String) : List String :=
  ((p.pushAll lines).filterMap (·.1)).filter fun input => !Session.isBlankInput input

namespace Session

variable {σ ε : Type} (host : Host σ ε)

/-- Hands inputs to the host until the session ends. -/
def submitAll (s : State σ ε) : List String → State σ ε
  | [] => s
  | input :: inputs =>
      match s.ending with
      | some _ => s
      | none => submitAll (submit host s input) inputs

/-- The session with something else pending. -/
def State.waiting (s : State σ ε) (p : Pending) : State σ ε := { s with pending := p }

/-- The session with nothing pending. -/
def State.settled (s : State σ ε) : State σ ε := s.waiting .empty

variable {host}

/-! ### Single steps -/

theorem readAll_of_ending {s : State σ ε} {e : Ending ε} (h : s.ending = some e)
    (lines : List Line) : readAll host s lines = s := by
  induction lines with
  | nil => rfl
  | cons line lines ih =>
      rw [readAll, List.foldl_cons, read_of_ending h]
      exact ih

theorem submitAll_of_ending {s : State σ ε} {e : Ending ε} (h : s.ending = some e)
    (inputs : List String) : submitAll host s inputs = s := by
  cases inputs with
  | nil => rfl
  | cons input inputs => rw [submitAll, h]

theorem ending_settled (s : State σ ε) : s.settled.ending = s.ending := rfl

/-- What is pending does not matter to an input that is complete. -/
theorem settled_submit (s : State σ ε) (input : String) :
    (submit host s input).settled = submit host s.settled input := by
  unfold submit
  split <;> rfl

theorem settled_submitAll : ∀ (inputs : List String) (s : State σ ε),
    (submitAll host s inputs).settled = submitAll host s.settled inputs
  | [], _ => rfl
  | input :: inputs, s => by
      unfold submitAll
      rw [ending_settled]
      cases s.ending with
      | none =>
          simp only
          rw [settled_submitAll inputs, settled_submit]
      | some e => rfl

theorem inputs_cons (p : Pending) (line : String) (lines : List String) :
    p.inputs (line :: lines) =
      ((p.push line).1.toList.filter fun input => !isBlankInput input) ++
        (p.push line).2.inputs lines := by
  unfold Pending.inputs
  rw [Pending.pushAll, List.filterMap_cons]
  cases (p.push line).1 with
  | none => rfl
  | some input =>
      rw [Option.toList_some, List.filter_cons, List.filter_cons]
      split <;> rfl

theorem read_line {s : State σ ε} (h : s.ending = none) (line : String) :
    read host s (.ok line) =
      match (s.pending.push line).1 with
      | none => s.waiting (s.pending.push line).2
      | some input => submit host (s.waiting (s.pending.push line).2) input := by
  obtain ⟨state, pending, output, ending⟩ := s
  obtain rfl : ending = none := h
  rfl

theorem submit_of_blank {s : State σ ε} {input : String} (h : isBlankInput input = true) :
    submit host s input = s := if_pos h

theorem pending_submit (s : State σ ε) (input : String) :
    (submit host s input).pending = s.pending := by
  unfold submit
  split <;> rfl

/-! ### Whole sessions -/

section Run

variable {lines : List String} (ih : ∀ {s : State σ ε}, s.ending = none →
  (readAll host s (lines.map .ok)).settled = submitAll host s.settled (s.pending.inputs lines))

include ih

theorem settled_readAll_submit {s : State σ ε} (h : s.ending = none) (input : String) :
    (readAll host (submit host s input) (lines.map .ok)).settled =
      submitAll host s.settled (input :: s.pending.inputs lines) := by
  rw [submitAll, ending_settled, h]
  simp only
  rw [← settled_submit]
  cases hending : (submit host s input).ending with
  | none => rw [ih hending, pending_submit]
  | some e =>
      rw [readAll_of_ending hending, submitAll_of_ending]
      exact hending

theorem settled_readAll_cons {s : State σ ε} (h : s.ending = none) (line : String) :
    (readAll host s (.ok line :: lines.map .ok)).settled =
      submitAll host s.settled (s.pending.inputs (line :: lines)) := by
  change (readAll host (read host s (.ok line)) (lines.map .ok)).settled = _
  rw [read_line h, inputs_cons]
  generalize (s.pending.push line).2 = p
  cases (s.pending.push line).1 with
  | none => exact ih (s := s.waiting p) h
  | some input =>
      simp only [Option.toList_some]
      cases hblank : isBlankInput input with
      | true =>
          rw [submit_of_blank hblank, List.filter_cons_of_neg (by simp [hblank])]
          exact ih (s := s.waiting p) h
      | false =>
          rw [List.filter_cons_of_pos (by simp [hblank])]
          exact settled_readAll_submit ih (s := s.waiting p) h input

end Run

/-- Lines are read as the inputs that they make up are handed over. -/
theorem settled_readAll : ∀ (lines : List String) {s : State σ ε}, s.ending = none →
    (readAll host s (lines.map .ok)).settled =
      submitAll host s.settled (s.pending.inputs lines)
  | [], _, _ => rfl
  | line :: lines, _, h => settled_readAll_cons (settled_readAll lines) h line

/-- A line that is not to be had ends the session at the latest. -/
theorem ending_of_fault {s : State σ ε} (fault : LineFault) (before behind : List Line) :
    (readAll host s (before ++ .error fault :: behind)).ending =
      (readAll host s before).ending.or (some fault.ending) := by
  rw [readAll_append]
  change (readAll host (read host (readAll host s before) (.error fault)) behind).ending = _
  generalize readAll host s before = t
  cases h : t.ending with
  | none =>
      have hread : (read host t (.error fault)).ending = some fault.ending := by
        unfold read
        rw [h]
      rw [readAll_of_ending hread, hread]
      rfl
  | some e =>
      rw [read_of_ending h, readAll_of_ending h, h]
      rfl

/-- Either all lines are to be had or there is a first one that is not. -/
theorem lines_cases : ∀ lines : List Line, (∃ texts : List String, lines = texts.map .ok) ∨
    ∃ (texts : List String) (fault : LineFault) (behind : List Line),
      lines = texts.map .ok ++ .error fault :: behind
  | [] => .inl ⟨[], rfl⟩
  | .error fault :: lines => .inr ⟨[], fault, lines, rfl⟩
  | .ok line :: lines => by
      rcases lines_cases lines with ⟨texts, rfl⟩ | ⟨texts, fault, behind, rfl⟩
      · exact .inl ⟨line :: texts, rfl⟩
      · exact .inr ⟨line :: texts, fault, behind, rfl⟩

end Session

end Redline
