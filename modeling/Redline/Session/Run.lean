import Redline.Output
import Redline.Session.Lines
import Redline.Session.Pending
import Redline.Text.Blank

/-! # Sessions

A session hands the inputs that its lines make up to a host, one after another.  Inputs that are
blank throughout are skipped.  The session ends when the host fails or crashes, when a line is not
to be had, or when there are no more lines, which is the only end with a farewell; a continuation
that is still open is dropped then.

Whatever the host is, a session is a fold over its lines (`run`), so the session over `A ++ B` is
the one over `B` from the state that `A` leaves (`readAll_append`). -/

namespace Redline

/-- How a host leaves an input. -/
inductive Verdict (ε : Type) where
  | goOn
  | failed (error : ε)
  | crashed (message : String)

/-- What a host makes of one input. -/
structure Evaluation (σ ε : Type) where
  state : σ
  output : Output
  verdict : Verdict ε

/-- The part of a session that answers the inputs, with a state of its own. -/
abbrev Host (σ ε : Type) := σ → String → Evaluation σ ε

namespace Session

variable {σ ε : Type}

inductive Ending (ε : Type) where
  | farewell
  | unreadable
  | failed (error : ε)
  | crashed (message : String)

/-- A session under way, or over. -/
structure State (σ ε : Type) where
  host : σ
  pending : Pending
  output : Output
  ending : Option (Ending ε)

def start (host : σ) : State σ ε := ⟨host, .empty, .empty, none⟩

def isBlankInput (input : String) : Bool := input.toList.all Text.isBlank

/-- Hands one complete input to the host. -/
def submit (host : Host σ ε) (s : State σ ε) (input : String) : State σ ε :=
  if isBlankInput input then s
  else
    let e := host s.host input
    { s with
      host := e.state
      output := s.output ++ e.output
      ending :=
        match e.verdict with
        | .goOn => none
        | .failed error => some (.failed error)
        | .crashed message => some (.crashed message) }

/-- How a session ends where a line is not to be had. -/
def LineFault.ending : LineFault → Ending ε
  | unreadable => .unreadable
  | brokenCharacter => .crashed "assertion failed: self.is_char_boundary(new_len)"

/-- Takes in one line; after the end nothing is taken in. -/
def read (host : Host σ ε) (s : State σ ε) (line : Line) : State σ ε :=
  match s.ending, line with
  | some _, _ => s
  | none, .error fault => { s with ending := some fault.ending }
  | none, .ok line =>
      let (input, pending) := s.pending.push line
      let s := { s with pending }
      match input with
      | none => s
      | some input => submit host s input

/-- Says farewell when there are no more lines. -/
def finish (s : State σ ε) : State σ ε :=
  match s.ending with
  | some _ => s
  | none => { s with output := s.output ++ .line "Bye!", ending := some .farewell }

def readAll (host : Host σ ε) (s : State σ ε) (lines : List Line) : State σ ε :=
  lines.foldl (read host) s

/-- The whole session. -/
def run (host : Host σ ε) (state : σ) (lines : List Line) : State σ ε :=
  finish (readAll host (start state) lines)

theorem readAll_append (host : Host σ ε) (s : State σ ε) (A B : List Line) :
    readAll host s (A ++ B) = readAll host (readAll host s A) B := List.foldl_append

theorem read_of_ending {host : Host σ ε} {s : State σ ε} {e : Ending ε} (h : s.ending = some e)
    (line : Line) : read host s line = s := by
  simp [read, h]

end Session

end Redline
