/-
The text of a rule, as dumps show it.
-/
import Codegen.Pattern.Text
import Codegen.Rule.Basic

namespace Codegen

def Step.describe : Step → String
  | .copyImm slot index =>
    Text.fields "CopyImm" [("capture", toString slot), ("index", toString index)]
  | .copyOperand slot => Text.fields "CopyOperand" [("capture", toString slot)]
  | .mapType => "MapType"

variable {O T : Type} [InstructionSet O]

def Shaping.describe : Shaping O T → String
  | .sameShape opcode => Text.fields "Generic" [("opcode", InstructionSet.tag opcode)]
  | .template opcode steps =>
    Text.fields "Simple"
      [("opcode", InstructionSet.tag opcode), ("steps", Text.bracketed (steps.map Step.describe))]
  | .custom _ => "Custom(..)"

/-- A rule on one line. -/
def Rule.describe (r : Rule O T) : String :=
  Text.fields "Rule" [("matcher", r.pattern.describe), ("rewrite", r.shaping.describe)]

end Codegen
