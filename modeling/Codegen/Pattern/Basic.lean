/-
Patterns over a node and its operands.

A pattern is a tree.  Its leaves take any node; its inner patterns ask for an opcode
and go on with the operands, or add a condition to another pattern.  Every pattern
has a fixed number of slots, known without looking at a graph: matching fills them
with the nodes that the leaves and the marks have met.
-/
import Codegen.Ir

namespace Codegen

/-- What a node and the nodes below it have to look like. -/
inductive Pattern where
  /-- Any node; it is recorded. -/
  | bind
  /-- Any node; it has a slot, which stays as it was. -/
  | wildcard
  /-- Any node, without a slot. -/
  | ignore
  /-- An opcode, and patterns for the first operands; there may be more operands. -/
  | op (opcode : Opcode) (operands : List Pattern)
  /-- An opcode with exactly two operands, which may come in either order. -/
  | commuting (opcode : Opcode) (left right : Pattern)
  /-- A primitive type, on top of what `inner` asks for. -/
  | typed (type : Primitive) (inner : Pattern)
  /-- Like `inner`; the node is recorded too, in a slot before those of `inner`. -/
  | marked (inner : Pattern)

namespace Pattern

/-- An opcode with patterns for its operands, recorded. -/
def markedOp (opcode : Opcode) (operands : List Pattern) : Pattern := .marked (.op opcode operands)

/-! ### What a pattern says by itself -/

mutual

/-- How many slots a pattern has. -/
def slots : Pattern → Nat
  | .bind | .wildcard => 1
  | .ignore => 0
  | .op _ operands => slotsAll operands
  | .commuting _ left right => left.slots + right.slots
  | .typed _ inner => inner.slots
  | .marked inner => 1 + inner.slots

/-- The slots of several patterns together. -/
def slotsAll : List Pattern → Nat
  | [] => 0
  | p :: ps => p.slots + slotsAll ps

end

/-- The opcode that a matching node must have, if the pattern fixes one. -/
def rootOpcode? : Pattern → Option Opcode
  | .op opcode _ | .commuting opcode _ _ => some opcode
  | .typed _ inner | .marked inner => inner.rootOpcode?
  | .bind | .wildcard | .ignore => none

mutual

/-- The first type, from the outside in and from left to right, that no pattern may narrow to. -/
def badType? : Pattern → Option Primitive
  | .bind | .wildcard | .ignore => none
  | .op _ operands => badTypeAll? operands
  | .commuting _ left right => left.badType?.or right.badType?
  | .typed type inner => if type.isScalar then inner.badType? else some type
  | .marked inner => inner.badType?

/-- The first such type in several patterns. -/
def badTypeAll? : List Pattern → Option Primitive
  | [] => none
  | p :: ps => p.badType?.or (badTypeAll? ps)

end

/-- What is wrong with a pattern that narrows to `type`. -/
def badTypeReason (type : Primitive) : String :=
  s!"type selection must be U8-U64 or PTR, got {type}"

end Pattern

end Codegen
