import Redline.Shell

/-! # The program

Reads standard input as it arrives and lets the shell answer each complete line.  All that is
decided here is when to read and to write. -/

namespace Redline

def write (o : Output) : IO Unit := do
  let out ← IO.getStdout
  out.putStr o.stdout
  out.flush
  let err ← IO.getStderr
  err.putStr o.stderr
  err.flush

abbrev ShellState := Session.State Unit Empty

/-- The state with its output written. -/
def flushed (s : ShellState) : IO ShellState := do
  write s.output
  return { s with output := .empty }

def readLines (s : ShellState) (lines : List Session.Line) : IO ShellState :=
  flushed (Session.readAll Shell.host s lines)

/-- Reads until the session is over; `rest` has arrived since the last line feed. -/
partial def serve (input : IO.FS.Stream) (s : ShellState) (rest : Session.Bytes) :
    IO ShellState := do
  if s.ending.isSome then return s
  let chunk ← input.read 65536
  if chunk.isEmpty then
    let s ← readLines s (Session.lastLine rest)
    flushed (Session.finish s)
  else
    let (lines, rest) := Session.takeLines (rest ++ chunk.toList)
    serve input (← readLines s lines) rest

end Redline

def main : IO UInt32 := do
  Redline.write Redline.Shell.greeting
  let s ← Redline.serve (← IO.getStdin) (Redline.Session.start ()) []
  let e := s.exit Redline.Shell.wording
  Redline.write e.output
  return e.code.toUInt32
