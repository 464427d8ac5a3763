import Redline.Text.Outline
import Redline.Value

/-! # Tokens

The lexemes of the expression language: ten symbols, the underscore that stands for an absent
term, the keyword `lambda`, values and names. -/

namespace Redline

inductive Symbol where
  | leftParen
  | rightParen
  | leftBrace
  | rightBrace
  | leftBracket
  | rightBracket
  | comma
  | dot
  | semicolon
  | equal
deriving DecidableEq, Repr

namespace Symbol

def all : List Symbol :=
  [leftParen, rightParen, leftBrace, rightBrace, leftBracket, rightBracket, comma, dot, semicolon,
    equal]

def char : Symbol → Char
  | leftParen => '('
  | rightParen => ')'
  | leftBrace => '{'
  | rightBrace => '}'
  | leftBracket => '['
  | rightBracket => ']'
  | comma => ','
  | dot => '.'
  | semicolon => ';'
  | equal => '='

def outline : Symbol → String
  | leftParen => "LParen"
  | rightParen => "RParen"
  | leftBrace => "LBrace"
  | rightBrace => "RBrace"
  | leftBracket => "LBracket"
  | rightBracket => "RBracket"
  | comma => "Comma"
  | dot => "Dot"
  | semicolon => "Semicolon"
  | equal => "Equal"

theorem mem_all (s : Symbol) : s ∈ all := by cases s <;> decide

theorem char_injective {s t : Symbol} (h : s.char = t.char) : s = t := by
  revert h
  cases s <;> cases t <;> simp [char]

end Symbol

inductive Token where
  | symbol (s : Symbol)
  | underscore
  | lambda
  | literal (v : Value)
  | name (x : String)
deriving DecidableEq, Repr

namespace Token

/-- The token as it is written in a source. -/
def render : Token → String
  | symbol s => s.char.toString
  | underscore => "_"
  | lambda => "lambda"
  | literal v => v.render
  | name x => x

def outline : Token → String
  | symbol s => s.outline
  | underscore => "Underscore"
  | lambda => "Lambda"
  | literal v => Text.built "Literal" [v.render]
  | name x => Text.built "Ident" [Text.visible x]

end Token

end Redline
