import Redline.Session.Lines
import Redline.Session.Run

/-! # Processes

A session as a whole process: from the bytes of its standard input to what it has written and its
exit code.  The code is 0 after a farewell, 1 after an error and 101 after a crash, and the error
channel ends with the reason of an early end. -/

namespace Redline

/-- What a finished process leaves behind. -/
structure Exit where
  output : Output
  code : Nat
deriving DecidableEq, Repr

namespace Session

variable {σ ε : Type}

/-- How a program words the errors that end its sessions. -/
structure Wording (ε : Type) where
  /-- The error of a host. -/
  hostError : ε → String
  /-- Stands in front of each error. -/
  heading : String

def Wording.error (w : Wording ε) (message : String) : Output := .errorLine (w.heading ++ message)

/-- The last words of a process and its exit code. -/
def Ending.exit (w : Wording ε) : Ending ε → Exit
  | farewell => ⟨.empty, 0⟩
  | unreadable => ⟨w.error "stream did not contain valid UTF-8", 1⟩
  | failed error => ⟨w.error ("Command failed: " ++ w.hostError error), 1⟩
  | crashed message => ⟨.errorLine ("panic: " ++ message), 101⟩

/-- The exit of a session that is over. -/
def State.exit (w : Wording ε) (s : State σ ε) : Exit :=
  match s.ending with
  | none => ⟨s.output, 0⟩
  | some ending => ⟨s.output ++ (ending.exit w).output, (ending.exit w).code⟩

/-- The process that greets and then runs a session on the bytes of its standard input. -/
def process (host : Host σ ε) (state : σ) (w : Wording ε) (greeting : Output) (input : Bytes) :
    Exit :=
  let e := (run host state (linesOf input)).exit w
  ⟨greeting ++ e.output, e.code⟩

end Session

end Redline
