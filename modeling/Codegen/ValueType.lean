/-
The types that values carry.

A value is either of a primitive class, written inline and numbered 0 to 11, or of a
type described elsewhere, of which only the descriptor's number is known here.  The
numbering is the one used in bytecode.
-/

namespace Codegen

/-- The primitive classes, in the order of their numbers. -/
inductive Primitive where
  /-- No value at all; also the type of a fresh placeholder. -/
  | void
  | u8
  | u16
  | u32
  | u64
  | bool
  | ptrU8
  | ptrU16
  | ptrU32
  | ptrU64
  | ptrBool
  /-- A pointer to anything. -/
  | ptr
deriving DecidableEq, Repr, Inhabited

namespace Primitive

/-- Every class, each at the position of its number. -/
def all : List Primitive :=
  [void, u8, u16, u32, u64, bool, ptrU8, ptrU16, ptrU32, ptrU64, ptrBool, ptr]

/-- The number of a class. -/
def raw : Primitive → Nat
  | void => 0
  | u8 => 1
  | u16 => 2
  | u32 => 3
  | u64 => 4
  | bool => 5
  | ptrU8 => 6
  | ptrU16 => 7
  | ptrU32 => 8
  | ptrU64 => 9
  | ptrBool => 10
  | ptr => 11

/-- The class with a given number, if there is one. -/
def ofRaw? (n : Nat) : Option Primitive := all[n]?

/-- Numbering and lookup undo each other. -/
@[simp] theorem ofRaw?_raw (p : Primitive) : ofRaw? p.raw = some p := by
  cases p <;> rfl

def name : Primitive → String
  | void => "NONE"
  | u8 => "U8"
  | u16 => "U16"
  | u32 => "U32"
  | u64 => "U64"
  | bool => "BOOL"
  | ptrU8 => "P_U8"
  | ptrU16 => "P_U16"
  | ptrU32 => "P_U32"
  | ptrU64 => "P_U64"
  | ptrBool => "P_BOOL"
  | ptr => "PTR"

instance : ToString Primitive := ⟨name⟩

/-- How the text of a rule spells a class. -/
def tag : Primitive → String
  | void => "None"
  | u8 => "U8"
  | u16 => "U16"
  | u32 => "U32"
  | u64 => "U64"
  | bool => "Bool"
  | ptrU8 => "PtrU8"
  | ptrU16 => "PtrU16"
  | ptrU32 => "PtrU32"
  | ptrU64 => "PtrU64"
  | ptrBool => "PtrBool"
  | ptr => "Ptr"

/-- Pointers that say what they point to. -/
def isTypedPointer : Primitive → Bool
  | ptrU8 | ptrU16 | ptrU32 | ptrU64 | ptrBool => true
  | _ => false

/-- The classes that a pattern may narrow to. -/
def isScalar : Primitive → Bool
  | u8 | u16 | u32 | u64 | ptr => true
  | _ => false

/-- How many bytes an immediate of this class takes; pointers and `void` have none. -/
def immWidth? : Primitive → Option Nat
  | u8 | bool => some 1
  | u16 => some 2
  | u32 => some 4
  | u64 => some 8
  | _ => none

end Primitive

/-- The type of a value: a primitive class, or the number of a descriptor. -/
inductive ValueType where
  | prim (p : Primitive)
  | descriptor (index : Nat)
deriving DecidableEq, Repr

namespace ValueType

instance : Inhabited ValueType := ⟨.prim .void⟩

instance : Coe Primitive ValueType := ⟨.prim⟩

def name : ValueType → String
  | prim p => p.name
  | descriptor n => "desc#" ++ toString n

instance : ToString ValueType := ⟨name⟩

def primitive? : ValueType → Option Primitive
  | prim p => some p
  | descriptor _ => none

def descriptor? : ValueType → Option Nat
  | prim _ => none
  | descriptor n => some n

/-- Typed pointers only: the general pointer class is not one of them. -/
def isTypedPointer : ValueType → Bool
  | prim p => p.isTypedPointer
  | descriptor _ => false

end ValueType

end Codegen
