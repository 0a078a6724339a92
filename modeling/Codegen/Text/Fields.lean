/-
The text of a value with named fields: a name, then the fields in braces.
-/

namespace Codegen.Text

/-- A name and its fields, as in `Move { from: 1, to: 2 }`. -/
def fields (name : String) (items : List (String × String)) : String :=
  name ++ " \x7b " ++ ", ".intercalate (items.map fun item => item.1 ++ ": " ++ item.2) ++ " \x7d"

/-- Items in square brackets. -/
def bracketed (items : List String) : String := "[" ++ ", ".intercalate items ++ "]"

end Codegen.Text
