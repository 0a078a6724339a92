/-
The target-independent instructions.

Six operations over typed values: an immediate and five binary ones.  `blank` is the
opcode of a placeholder and stands for no operation.
-/
import Codegen.InstructionSet
import Codegen.ValueType
import Codegen.Graph.Basic

namespace Codegen

/-- The target-independent opcodes, in the order of their numbers. -/
inductive Opcode where
  | blank
  | imm
  | add
  | sub
  | mul
  | udiv
  | sdiv
deriving DecidableEq, Repr, Inhabited

namespace Opcode

/-- Every opcode, each at the position of its number. -/
def all : List Opcode := [blank, imm, add, sub, mul, udiv, sdiv]

def raw : Opcode → Nat
  | blank => 0
  | imm => 1
  | add => 2
  | sub => 3
  | mul => 4
  | udiv => 5
  | sdiv => 6

/-- The opcode with a given number, if there is one. -/
def ofRaw? (n : Nat) : Option Opcode := all[n]?

@[simp] theorem ofRaw?_raw (op : Opcode) : ofRaw? op.raw = some op := by
  cases op <;> rfl

def name : Opcode → String
  | blank => "NONE"
  | imm => "IMM"
  | add => "ADD"
  | sub => "SUB"
  | mul => "MUL"
  | udiv => "UDIV"
  | sdiv => "SDIV"

instance : ToString Opcode := ⟨name⟩

def isBinary : Opcode → Bool
  | blank | imm => false
  | _ => true

/-- How many operands an instruction of this opcode declares. -/
def arity (op : Opcode) : Nat := if op.isBinary then 2 else 0

def tag : Opcode → String
  | blank => "None"
  | imm => "Imm"
  | add => "Add"
  | sub => "Sub"
  | mul => "Mul"
  | udiv => "UDiv"
  | sdiv => "SDiv"

instance : InstructionSet Opcode where
  setName := "ir_opcode"
  mnemonic := name
  tag := tag
  operandName? op i :=
    if op.isBinary then
      match i with
      | 0 => some "lhs"
      | 1 => some "rhs"
      | _ => none
    else none
  immName? op i := if op = imm ∧ i = 0 then some "value" else none

end Opcode

abbrev IrNode := Node Opcode ValueType

abbrev IrGraph := Graph Opcode ValueType

namespace Graph

/-- Append an immediate. -/
def loadImm (g : IrGraph) (type : ValueType) (value : UInt64) : Except Fault (IrGraph × NodeId) :=
  g.create { opcode := .imm, type, imms := [value] }

/-- Append a binary operation on two nodes of the graph. -/
def binary (g : IrGraph) (op : Opcode) (type : ValueType) (lhs rhs : NodeId) :
    Except Fault (IrGraph × NodeId) :=
  g.create { opcode := op, type, operands := [lhs, rhs] }

end Graph

end Codegen
