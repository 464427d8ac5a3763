import Redline.Term
import Redline.Token.Lexer

/-! # The grammar of terms

    term  ::= `lambda` [apply {`,` apply}] `.` term  |  name `=` term  |  apply
    apply ::= atom {`(` terms `)`}
    atom  ::= literal  |  `_`  |  name  |  `[` terms `]` `{` term `}`  |  `(` term `)`
    terms ::= [term {`,` term} [`,`]]

The alternatives are tried in this order.  `Term.parse` reads a source that is one term and
`Term.parseAll` one that is any number of terms, separated by semicolons of which one more may
stand at the end. -/

namespace Redline.Term

namespace Grammar

open Parsing Parsing.Parser

def symbol (s : Symbol) : Parser Token Token := just (.symbol s)

def inParens {α : Type} : Parser Token α → Parser Token α :=
  between (.symbol .leftParen) (.symbol .rightParen)

def inBrackets {α : Type} : Parser Token α → Parser Token α :=
  between (.symbol .leftBracket) (.symbol .rightBracket)

def inBraces {α : Type} : Parser Token α → Parser Token α :=
  between (.symbol .leftBrace) (.symbol .rightBrace)

/-! ### Atoms -/

def identifier : Parser Token String :=
  select fun
    | .name x => some x
    | _ => none

def literal : Parser Token Term :=
  labelled "literal" <| select fun
    | .literal v => some (.node (.literal v))
    | _ => none

def variableName : Parser Token Term :=
  labelled "variable" do
    let x ← identifier
    return .node (.name x)

def underscore : Parser Token Term :=
  labelled "empty" do
    let _ ← just .underscore
    return absent

/-! ### Compound terms, over the parser of their subterms -/

def termList (term : Parser Token Term) : Parser Token (List Term) :=
  sepEndBy term (symbol .comma)

def group (term : Parser Token Term) : Parser Token Term :=
  labelled "group" do
    let tag ← inBrackets (termList term)
    let value ← inBraces term
    return .node (.group tag value)

def atom (term : Parser Token Term) : Parser Token Term :=
  firstOf [literal, underscore, variableName, group term, inParens term]

/-- An atom applied to any number of argument lists, from the left. -/
def apply (term : Parser Token Term) : Parser Token Term := do
  let callee ← atom term
  let calls ← repeated (inParens (termList term))
  return calls.foldl (fun f arguments => .node (.apply f arguments)) callee

def lambda (term : Parser Token Term) : Parser Token Term :=
  labelled "abstract" do
    let _ ← just .lambda
    let parameters ← sepBy (apply term) (symbol .comma)
    let _ ← symbol .dot
    let body ← term
    return .node (.lambda parameters body)

def assign (term : Parser Token Term) : Parser Token Term :=
  labelled "assign" do
    let x ← identifier
    let _ ← symbol .equal
    let value ← term
    return .node (.assign x value)

/-! ### Terms -/

/-- A term, over the parser of its subterms. -/
def termOver (term : Parser Token Term) : Parser Token Term :=
  firstOf [lambda term, assign term, apply term]

def term : Parser Token (Spanned Term) := spanned (labelled "term" (fix termOver))

def terms : Parser Token (List (Spanned Term)) := sepEndBy term (symbol .semicolon)

end Grammar

/-- Reads the tokens of `source` by `p`; the end of the input is the place behind the source. -/
def parseBy {α : Type} (p : Parsing.Parser Token α) (source : String) :
    Except (Problem String) α := do
  let tokens ← (Token.scan source).mapError (·.map Char.toString)
  let n := source.toList.length
  (p.parse tokens ⟨n, n + 1⟩).mapError (·.map Token.render)

/-- The one term that `source` is. -/
def parse (source : String) : Except (Problem String) (Spanned Term) :=
  parseBy Grammar.term source

/-- The terms that `source` lists. -/
def parseAll (source : String) : Except (Problem String) (List (Spanned Term)) :=
  parseBy Grammar.terms source

end Redline.Term
