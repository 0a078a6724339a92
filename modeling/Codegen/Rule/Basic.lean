/-
Selection rules: a pattern, and how to shape the machine node.

The machine node has the same id as the node it stands for, so operands are carried
over by id.  A shaping starts from a placeholder and fills it in: it may keep the
shape of the node and only exchange the opcode, follow a template of steps that pick
immediates and operands out of what the pattern has recorded, or be an arbitrary
function.
-/
import Codegen.Diagnostic
import Codegen.Pattern.Match
import Codegen.TypeMap

namespace Codegen

/-- A matched node with everything a shaping may look at. -/
structure Site (T : Type) where
  graph : IrGraph
  id : NodeId
  node : IrNode
  captures : Captures
  types : TypeMap T

namespace Site

variable {T : Type}

/-- The node recorded in a slot.  A rule that reads an empty slot is wrong. -/
def captured (site : Site T) (slot : Nat) : Except (Stop CompileError) NodeId :=
  match site.captures[slot]? with
  | some (some id) => .ok id
  | _ => .error (.reject (.invalidRule site.node.opcode.name s!"capture slot {slot} is empty"))

/-- The target's type for the node. -/
def loweredType (site : Site T) : Except (Stop CompileError) T :=
  match site.types.lower? site.node.type with
  | some type => .ok type
  | none => .error (.reject (.illegalType site.id site.node.type.name "non-lowerable"))

/-- An immediate of the node recorded in a slot.  If that node has none at the position, the
matched node has a shape that the rule does not cover. -/
def capturedImm (site : Site T) (slot index : Nat) : Except (Stop CompileError) UInt64 := do
  let id ← site.captured slot
  let n ← Stop.ofFault (site.graph.node id)
  match n.imms[index]? with
  | some value => .ok value
  | none => .error (.reject (.unsupportedPattern site.id site.node.opcode.name))

end Site

/-- One step of a template. -/
inductive Step where
  /-- Append an immediate of the node in a slot. -/
  | copyImm (slot index : Nat)
  /-- Append the node in a slot as an operand. -/
  | copyOperand (slot : Nat)
  /-- Set the type to the target's type for the node. -/
  | mapType
deriving DecidableEq, Repr

/-- How a machine node is shaped. -/
inductive Shaping (O T : Type) where
  /-- Keep chain and operands, with a new opcode and the target's type. -/
  | sameShape (opcode : O)
  /-- Keep the chain, with a new opcode, and follow the steps in order. -/
  | template (opcode : O) (steps : List Step)
  /-- Anything else. -/
  | custom (shape : Site T → Node O T → Except (Stop CompileError) (Node O T))

/-- A pattern and what becomes of the nodes it accepts. -/
structure Rule (O T : Type) where
  pattern : Pattern
  shaping : Shaping O T

variable {O T : Type}

/-- Follow one step of a template. -/
def Step.apply (site : Site T) (target : Node O T) : Step → Except (Stop CompileError) (Node O T)
  | .copyImm slot index => do return target.addImm (← site.capturedImm slot index)
  | .copyOperand slot => do return target.addOperand (← site.captured slot)
  | .mapType => do return { target with type := ← site.loweredType }

/-- Follow the steps of a template in order. -/
def Step.applyAll (site : Site T) : Node O T → List Step → Except (Stop CompileError) (Node O T)
  | target, [] => .ok target
  | target, step :: steps => do Step.applyAll site (← step.apply site target) steps

/-- Shape `target` for a matched node. -/
def Shaping.apply (site : Site T) (target : Node O T) :
    Shaping O T → Except (Stop CompileError) (Node O T)
  | .sameShape opcode => do
    let type ← site.loweredType
    return { target with
      opcode, type, chain := site.node.chain, operands := target.operands ++ site.node.operands }
  | .template opcode steps =>
    Step.applyAll site { target with opcode, chain := site.node.chain } steps
  | .custom shape => shape site target

/-- Exchange the opcode and keep the shape, for nodes with at least the operands that `source`
declares. -/
def Rule.exchange (source : Opcode) (opcode : O) : Rule O T :=
  { pattern := .op source (List.replicate source.arity .wildcard), shaping := .sameShape opcode }

end Codegen
