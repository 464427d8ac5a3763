/-! # Outlines

The notation that shows how a value is built, on one line: a constructor with its fields between
parentheses, a list between brackets. -/

namespace Redline.Text

def commaSeparated (items : List String) : String := ", ".intercalate items

/-- A constructor applied to its fields. -/
def built (constructor : String) (fields : List String) : String :=
  constructor ++ "(" ++ commaSeparated fields ++ ")"

def listed (items : List String) : String := "[" ++ commaSeparated items ++ "]"

end Redline.Text
