import Redline.Command

/-! # Transcripts

A command writes line by line while it is carried out, and what it has written stays written when
it is refused further on.  A transcript is what has been written together with how it ended.
`Command.perform` carries a command out in the order of its effects, and hands a refused argument
back with a list of problems. -/

namespace Redline

/-- What has been written, and a value or the reason to stop. -/
structure Transcript (ε α : Type) where
  written : Output
  outcome : Except ε α
deriving Repr

namespace Transcript

variable {ε α β : Type}

/-- `x` without writing. -/
def attempt (x : Except ε α) : Transcript ε α := ⟨.empty, x⟩

/-- What `f` writes follows, unless it has been stopped before. -/
def bind (t : Transcript ε α) (f : α → Transcript ε β) : Transcript ε β :=
  match t.outcome with
  | .ok a => ⟨t.written ++ (f a).written, (f a).outcome⟩
  | .error e => ⟨t.written, .error e⟩

instance : Monad (Transcript ε) where
  pure a := attempt (.ok a)
  bind := bind

def write (o : Output) : Transcript ε Unit := ⟨o, .ok ()⟩

/-- One line after the other. -/
def writeLines : List String → Transcript ε Unit
  | [] => return ()
  | s :: ss => do
      write (.line s)
      writeLines ss

end Transcript

namespace Command

/-- An argument that cannot be used and all that is wrong with it. -/
structure Refusal where
  argument : String
  problems : List (Problem String)
deriving DecidableEq, Repr

/-- What has been read from the argument, where that went well. -/
def reading {α : Type} (argument : String) (x : Except (Problem String) α) :
    Transcript Refusal α :=
  .attempt (x.mapError fun problem => ⟨argument, [problem]⟩)

def execute (command : Command) (argument : String) : Transcript Refusal Unit :=
  match command with
  | tokens => do
      let tokens ← reading argument ((Token.scan argument).mapError (·.map Char.toString))
      .write (.line (Text.listed (tokens.map (·.value.outline))))
  | term => do
      let parsed ← reading argument (Term.parse argument)
      .writeLines [parsed.value.render, parsed.value.outline]
  | markup => do
      let (old, new) ← reading argument (pair argument)
      .write (.line (Diff.between old new).render)
  | outline => do
      let (old, new) ← reading argument (pair argument)
      .write (.line (Diff.between old new).outline)
  | cost => do
      let (old, new) ← reading argument (pair argument)
      .write (.line (Diff.between old new).magnitude.repr)
  | ranking => do
      match ← reading argument (Term.parseAll argument) with
      | [] =>
          .attempt (.error ⟨argument,
            [wholeArgument argument "Expected a term to rank candidates against"]⟩)
      | old :: candidates =>
          .writeLines ((rank old.value (candidates.map (·.value))).map rankingLine)
  | help => .write (.line helpText)
  | unknown word => do
      .write (.errorLine ("Unknown command " ++ word))
      .write (.line helpText)

/-- The transcript of the command that an input gives. -/
def perform (input : String) : Transcript Refusal Unit :=
  let (command, argument) := ofInput input
  command.execute argument

end Command

end Redline
