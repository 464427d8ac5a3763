import Redline.Text.Printable

/-! # Quoted texts

Two ways to write a text between quotation marks, which differ in what they escape.  `literal` is
the notation for text values and escapes only what their reader could not take raw or would be
hard to see: the quotation mark, the backslash, the line feed and the tab.  `visible` is the
notation for names and fragments in outlines and leaves no character to the imagination: what is
unprintable or combining is written by its code point.  Both leave the apostrophe alone.

In both, an escape starts with a backslash and a backslash is escaped, so each text has its own
written form. -/

namespace Redline.Text

/-- The text between quotation marks, each character written by `escape`. -/
def quoteBy (escape : Char → List Char) (s : String) : String :=
  String.ofList ('"' :: s.toList.flatMap escape ++ ['"'])

theorem toList_quoteBy (escape : Char → List Char) (s : String) :
    (quoteBy escape s).toList = '"' :: s.toList.flatMap escape ++ ['"'] := String.toList_ofList

/-! ### Text values -/

def escapeLiteral (c : Char) : List Char :=
  if c = '"' then ['\\', '"']
  else if c = '\\' then ['\\', '\\']
  else if c = '\n' then ['\\', 'n']
  else if c = '\t' then ['\\', 't']
  else [c]

/-- The notation for text values. -/
def literal (s : String) : String := quoteBy escapeLiteral s

/-! ### Names and fragments -/

/-- The code point in lower-case hexadecimal, without leading zeros, between braces. -/
def escapeCodePoint (c : Char) : List Char :=
  ['\\', 'u', '{'] ++ Nat.toDigits 16 c.toNat ++ ['}']

def escapeVisible (c : Char) : List Char :=
  if c = '"' then ['\\', '"']
  else if c = '\\' then ['\\', '\\']
  else if c = '\x00' then ['\\', '0']
  else if c = '\t' then ['\\', 't']
  else if c = '\r' then ['\\', 'r']
  else if c = '\n' then ['\\', 'n']
  else if isCombining c || !isPrintable c then escapeCodePoint c
  else [c]

/-- The notation for names and fragments. -/
def visible (s : String) : String := quoteBy escapeVisible s

end Redline.Text
