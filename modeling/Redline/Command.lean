import Redline.Diff.Rank
import Redline.Output
import Redline.Term.Grammar

/-! # Commands

An input is a command word behind a colon and its argument, or an argument alone, which is then
the two terms of a diff.  The word ends at the first space; blanks between the colon and the word
are skipped, but where no space follows the word, all that is behind the colon is the word.

`answer` carries a command out.  A refused argument comes back with the problem, whose places
refer to it, and then nothing has been written. -/

namespace Redline

inductive Command where
  | tokens
  | term
  | markup
  | outline
  | cost
  | ranking
  | help
  | unknown (word : String)
deriving DecidableEq, Repr

/-- An argument that cannot be used and what is wrong with it. -/
structure Rejection where
  argument : String
  problem : Problem String
deriving DecidableEq, Repr

namespace Command

/-! ### Reading an input -/

def ofWord : String → Command
  | "to" | "tokenize" => tokens
  | "p" | "parse" => term
  | "" | "d" | "diff" => markup
  | "debug" => outline
  | "c" | "cost" => cost
  | "r" | "rank" => ranking
  | "h" | "he" | "hel" | "help" => help
  | word => unknown word

/-- The word behind a colon and the argument. -/
def splitWord (behind : List Char) : List Char × List Char :=
  let trimmed := Text.trimLeft behind
  match trimmed.dropWhile (· != ' ') with
  | _ :: argument => (trimmed.takeWhile (· != ' '), argument)
  | [] => (behind, [])

/-- The command of an input and its argument. -/
def ofInput (input : String) : Command × String :=
  match input.toList with
  | ':' :: behind =>
      let (word, argument) := splitWord behind
      (ofWord (String.ofList word), String.ofList argument)
  | _ => (markup, input)

/-! ### Carrying it out -/

/-- A problem with the whole argument. -/
def wholeArgument (argument message : String) : Problem String :=
  .custom ⟨0, argument.toList.length⟩ message

/-- The old term and the new one. -/
def pair (argument : String) : Except (Problem String) (Term × Term) := do
  match ← Term.parseAll argument with
  | [old, new] => return (old.value, new.value)
  | terms =>
      throw (wholeArgument argument
        ("Expected two terms separated by `;`, found " ++ terms.length.repr))

def helpText : String :=
  "old; new            -- same as :diff old; new\n" ++
  ":tokenize   term    -- show tokenized term\n" ++
  ":parse      term    -- show parsed term and its structure\n" ++
  ":diff       old; new\n" ++
  "                    -- show the diff as markup, \x7b-removed-\x7d\x7b+added+\x7d\n" ++
  ":debug      old; new\n" ++
  "                    -- show the structure of the diff\n" ++
  ":cost       old; new\n" ++
  "                    -- show the number of patches in the diff\n" ++
  ":rank       old; new; ...\n" ++
  "                    -- order candidates by the cost of their diff from old\n" ++
  ":help               -- show this message"

/-- Cost, candidate and markup, with tabs between them. -/
def rankingLine (r : Ranked Term) : String :=
  r.diff.magnitude.repr ++ "\t" ++ r.candidate.render ++ "\t" ++ r.diff.render

def run (command : Command) (argument : String) : Except (Problem String) Output :=
  match command with
  | tokens => do
      let tokens ← (Token.scan argument).mapError (·.map Char.toString)
      return .line (Text.listed (tokens.map (·.value.outline)))
  | term => do
      let parsed ← Term.parse argument
      return .lines [parsed.value.render, parsed.value.outline]
  | markup => do
      let (old, new) ← pair argument
      return .line (Diff.between old new).render
  | outline => do
      let (old, new) ← pair argument
      return .line (Diff.between old new).outline
  | cost => do
      let (old, new) ← pair argument
      return .line (Diff.between old new).magnitude.repr
  | ranking => do
      match ← Term.parseAll argument with
      | [] => throw (wholeArgument argument "Expected a term to rank candidates against")
      | old :: candidates =>
          return .lines ((rank old.value (candidates.map (·.value))).map rankingLine)
  | help => return .line helpText
  | unknown word => return .errorLine ("Unknown command " ++ word) ++ .line helpText

/-- The output for an input, or its refused argument. -/
def answer (input : String) : Except Rejection Output :=
  let (command, argument) := ofInput input
  (command.run argument).mapError (⟨argument, ·⟩)

end Command

end Redline
