/-
Records: the instructions of a function in postfix order.

A record is a number that says its kind, followed by what the kind needs.  Immediates
are cut to the width of their type when they are written.  Writing is possible for
every record, also for those that reading refuses: an immediate of a type without a
width has no value bytes, and an opcode that is not binary has a kind all the same.
-/
import Codegen.Bytecode.Cursor
import Codegen.Ir

namespace Codegen

/-- One step of a function. -/
inductive Record where
  /-- Push a new immediate. -/
  | imm (type : Primitive) (value : UInt64)
  /-- Pop two values and push the operation on them. -/
  | binary (op : Opcode) (type : Primitive)
  /-- Push an earlier node once more. -/
  | ref (id : UInt64)
  /-- Pop a node and order the one below it after it. -/
  | chain
deriving DecidableEq, Repr

namespace Record

/-! ### The numbers of the kinds

Binary operations go by the number of their opcode. -/

def immKind : UInt64 := 0x01

def refKind : UInt64 := 0x40

def chainKind : UInt64 := 0x41

/-- The number of a primitive class. -/
def readType : Reader Primitive := do
  let start ← Reader.offset
  let raw ← Reader.varint
  match Primitive.ofRaw? raw.toNat with
  | some type => return type
  | none => Reader.reject (.illegalType raw.toNat start)

/-- The rest of an immediate: its type and as many bytes as that asks for. -/
def readImm : Reader Record := do
  let start ← Reader.offset
  let type ← readType
  match type.immWidth? with
  | some width => return .imm type (← Reader.uint width)
  | none => Reader.reject (.illegalType type.raw start)

/-- One record. -/
def read : Reader Record := do
  let start ← Reader.offset
  let kind ← Reader.varint
  if kind = immKind then readImm
  else if kind = refKind then return .ref (← Reader.varint)
  else if kind = chainKind then return .chain
  else
    match (Opcode.ofRaw? kind.toNat).filter Opcode.isBinary with
    | some op => return .binary op (← readType)
    | none => Reader.reject (.unknownRecord kind.toNat start)

/-- The bytes of a record. -/
def encode : Record → List UInt8
  | imm type value =>
    Varint.encode immKind ++ Varint.encode (UInt64.ofNat type.raw) ++
      LittleEndian.ofNat (type.immWidth?.getD 0) value.toNat
  | binary op type =>
    Varint.encode (UInt64.ofNat op.raw) ++ Varint.encode (UInt64.ofNat type.raw)
  | ref id => Varint.encode refKind ++ Varint.encode id
  | chain => Varint.encode chainKind

end Record

end Codegen
