/-
The names an instruction set gives to its opcodes.

Dumps and listings are the same for every instruction set; what differs is how
opcodes, operands and immediates are called.
-/

namespace Codegen

/-- What a dump has to know about opcodes of type `O`. -/
class InstructionSet (O : Type) where
  /-- The name of the set as a whole. -/
  setName : String
  mnemonic : O → String
  /-- How the text of a rule spells an opcode. -/
  tag : O → String := mnemonic
  /-- The name of the operand at a position; unnamed operands are shown by position. -/
  operandName? : O → Nat → Option String := fun _ _ => none
  /-- The name of the immediate at a position. -/
  immName? : O → Nat → Option String := fun _ _ => none

end Codegen
