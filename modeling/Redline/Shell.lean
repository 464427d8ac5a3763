import Redline.Command
import Redline.Report.Drawing
import Redline.Session.Process

/-! # The shell

The interactive program: a session whose host answers commands and draws a report of each refused
argument on the error channel.  The host keeps no state and never fails; it crashes where a report
cannot be drawn to its end. -/

namespace Redline.Shell

/-- What is written about a problem with the text `input`, and whether that went well. -/
def report (p : Problem String) (input : String) : Evaluation Unit Empty :=
  let drawing := Report.draw p input
  ⟨(), ⟨"", drawing.text⟩,
    match drawing.obstacle with
    | none => .goOn
    | some o => .crashed o.message⟩

/-- Carries an input out and reports on what is refused. -/
def evaluate (input : String) : Evaluation Unit Empty :=
  match Command.answer input with
  | .ok output => ⟨(), output, .goOn⟩
  | .error r => report r.problem r.argument

def host : Host Unit Empty := fun _ input => evaluate input

def greeting : Output := .lines ["Hi, this is a structural diff REPL. :h to show help", ""]

def wording : Session.Wording Empty := ⟨nofun, "Error: "⟩

/-- The whole program on the bytes of its standard input. -/
def run (input : Session.Bytes) : Exit := Session.process host () wording greeting input

end Redline.Shell
