import Redline.Text.Quoted

/-! # Values

What a literal of the expression language stands for: the unit value, a truth value, a natural
number below `2 ^ 64` or a text.  A value is written the same way in a term and in an outline
(`Value.render`), and that is the way it is read back. -/

namespace Redline

inductive Value where
  | unit
  | bool (b : Bool)
  | nat (n : UInt64)
  | text (s : String)
deriving DecidableEq, Repr

namespace Value

def render : Value → String
  | unit => "unit"
  | bool true => "true"
  | bool false => "false"
  | nat n => n.toNat.repr
  | text s => Text.literal s

end Value

end Redline
