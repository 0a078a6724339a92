/-
The text of a pattern, as error messages and dumps of rules show it.
-/
import Codegen.Pattern.Basic
import Codegen.Text.Fields

namespace Codegen.Pattern

mutual

/-- A pattern on one line. -/
def describe : Pattern → String
  | .bind => "Eat"
  | .wildcard => "EatSilent"
  | .ignore => "Skip"
  | .op opcode operands =>
    Text.fields "Sel" [("opcode", opcode.tag), ("operands", Text.bracketed (describeAll operands))]
  | .commuting opcode left right =>
    Text.fields "SelComm"
      [("opcode", opcode.tag), ("lhs", left.describe), ("rhs", right.describe)]
  | .typed type inner => Text.fields "Typed" [("ty", type.tag), ("inner", inner.describe)]
  | .marked inner => "Capture(" ++ inner.describe ++ ")"

/-- Several patterns, each on its own. -/
def describeAll : List Pattern → List String
  | [] => []
  | p :: ps => p.describe :: describeAll ps

end

end Codegen.Pattern
