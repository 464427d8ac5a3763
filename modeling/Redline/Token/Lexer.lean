import Redline.Parsing.Parser
import Redline.Text.Blank
import Redline.Token

/-! # The lexer

`Token.scan` splits a source into tokens.  Blanks may surround a token and are skipped together
with it, so a source of blanks alone has no tokens and is refused.  A word is an ASCII letter or an
underscore and then letters, digits and underscores, as many as there are; the keywords and the
lone underscore are words with a meaning of their own and every other word is a name.  A natural is
`0` or starts with another digit, and has to be below `2 ^ 64`. -/

namespace Redline.Token

namespace Lexer

open Parsing Parsing.Parser

/-! ### Words -/

def isWordStart (c : Char) : Bool := c.isAlpha || c = '_'

def isWordPart (c : Char) : Bool := c.isAlphanum || c = '_'

def word : Parser Char String := do
  let c ← satisfy isWordStart
  let cs ← repeated (satisfy isWordPart)
  return String.ofList (c :: cs)

/-- The words that stand for one token each. -/
def keywords : List (String × Token) :=
  [("lambda", lambda), ("unit", literal .unit), ("true", literal (.bool true)),
    ("false", literal (.bool false))]

/-- The whole word `k`. -/
def keyword (k : String) : Parser Char String :=
  word.check fun w =>
    if w.value = k then .ok k else .error ⟨w.span, .unexpected, none, [], none⟩

def nameOrUnderscore : Parser Char Token := do
  let w ← word
  return if w = "_" then underscore else name w

/-! ### Values -/

def digits : Parser Char (List Char) :=
  (do
    let c ← satisfy fun c => c.isDigit && c != '0'
    let cs ← repeated (satisfy Char.isDigit)
    return c :: cs) <|>
  (do
    let c ← just '0'
    return [c])

/-- The number that decimal digits stand for. -/
def decimal (ds : List Char) : Nat := ds.foldl (fun n d => 10 * n + (d.toNat - '0'.toNat)) 0

def natural : Parser Char Token :=
  digits.check fun ds =>
    if decimal ds.value < UInt64.size then .ok (literal (.nat (.ofNat (decimal ds.value))))
    else .error (.custom ds.span "number too large to fit in target type")

def escape : Parser Char Char := do
  let _ ← just '\\'
  firstOf [just '\\', just '"', (do let _ ← just 'n'; return '\n'),
    (do let _ ← just 't'; return '\t')]

def text : Parser Char Token :=
  labelled "string" do
    let _ ← just '"'
    let cs ← repeated (satisfy (fun c => c != '\\' && c != '"') <|> escape)
    let _ ← just '"'
    return literal (.text (String.ofList cs))

/-! ### Tokens -/

def token : Parser Char Token :=
  firstOf <|
    (Symbol.all.map fun s => do let _ ← just s.char; return symbol s) ++
    (keywords.map fun (k, t) => do let _ ← keyword k; return t) ++
    [natural, text, nameOrUnderscore]

def tokens : Parser Char (List (Spanned Token)) := repeated (padded Text.isBlank (spanned token))

end Lexer

/-- The tokens of a source, with their spans. -/
def scan (source : String) : Except (Problem Char) (List (Spanned Token)) :=
  let cs := source.toList
  Lexer.tokens.parse (Parsing.characters 0 cs) ⟨cs.length, cs.length⟩

end Redline.Token
