/-
The x86 target: loads of immediates, and additions and subtractions of a register and
an immediate or of two registers.

An addition takes an immediate on either side, a subtraction only on the right.
Booleans and pointers have no register type of their own.
-/
import Codegen.Prepare
import Codegen.Selection

namespace Codegen.X86

inductive Opcode where
  | blank
  | addRi
  | addRr
  | subRi
  | subRr
  | movRi
deriving DecidableEq, Repr, Inhabited

namespace Opcode

def all : List Opcode := [blank, addRi, addRr, subRi, subRr, movRi]

def name : Opcode → String
  | blank => "NONE"
  | addRi => "ADD_ri"
  | addRr => "ADD_rr"
  | subRi => "SUB_ri"
  | subRr => "SUB_rr"
  | movRi => "MOV_ri"

instance : ToString Opcode := ⟨name⟩

def tag : Opcode → String
  | blank => "None"
  | addRi => "AddRi"
  | addRr => "AddRr"
  | subRi => "SubRi"
  | subRr => "SubRr"
  | movRi => "MovRi"

instance : InstructionSet Opcode where
  setName := "mc_x86_opcode"
  mnemonic := name
  tag := tag
  operandName?
    | addRi, 0 | subRi, 0 => some "operand"
    | addRr, 0 | subRr, 0 => some "lhs"
    | addRr, 1 | subRr, 1 => some "rhs"
    | _, _ => none
  immName?
    | addRi, 0 | subRi, 0 | movRi, 0 => some "imm"
    | _, _ => none

end Opcode

/-- The types of machine values. -/
inductive RegType where
  | void
  | u8
  | u16
  | u32
  | u64
deriving DecidableEq, Repr, Inhabited

namespace RegType

def all : List RegType := [void, u8, u16, u32, u64]

def name : RegType → String
  | void => "NONE"
  | u8 => "U8"
  | u16 => "U16"
  | u32 => "U32"
  | u64 => "U64"

instance : ToString RegType := ⟨name⟩

end RegType

abbrev MachineGraph := Graph Opcode RegType

def types : TypeMap RegType :=
  { void := .void, u8 := .u8, u16 := .u16, u32 := .u32, u64 := .u64, bool := .void, ptr := .void }

/-- The rules.  Forms with an immediate come first, so they win where they fit. -/
def rules : List (Rule Opcode RegType) :=
  [ { pattern := .commuting .add (.markedOp .imm []) .bind
      shaping := .template .addRi [.copyImm 0 0, .copyOperand 1, .mapType] },
    .exchange .add .addRr,
    { pattern := .op .sub [.bind, .markedOp .imm []]
      shaping := .template .subRi [.copyImm 1 0, .copyOperand 0, .mapType] },
    .exchange .sub .subRr,
    { pattern := .markedOp .imm []
      shaping := .template .movRi [.mapType, .copyImm 0 0] } ]

/-- The table of the rules, all of which can be used. -/
def table : Table Opcode RegType := (Table.build types rules).toOption.get rfl

def selector : Selector Opcode RegType := { name := "cg::x86::isel", table }

/-- Selection for x86. -/
def select : Pass IrGraph MachineGraph := selector.toPass

/-- The whole way from a graph to x86. -/
def compile : Pass IrGraph MachineGraph :=
  (Pass.pipeline [Pass.generalizePointers, Pass.checkTypes]).andThen select

end Codegen.X86
