/-
From value types to the types of a target.

A target names one type for every class of primitives; all pointers share one.
Described types have no counterpart.
-/
import Codegen.ValueType

namespace Codegen

/-- The target's type for every class of primitives. -/
structure TypeMap (T : Type) where
  void : T
  u8 : T
  u16 : T
  u32 : T
  u64 : T
  bool : T
  ptr : T
deriving DecidableEq, Repr

namespace TypeMap

variable {T : Type}

def lower (types : TypeMap T) : Primitive → T
  | .void => types.void
  | .u8 => types.u8
  | .u16 => types.u16
  | .u32 => types.u32
  | .u64 => types.u64
  | .bool => types.bool
  | .ptrU8 | .ptrU16 | .ptrU32 | .ptrU64 | .ptrBool | .ptr => types.ptr

def lower? (types : TypeMap T) (type : ValueType) : Option T := type.primitive?.map types.lower

end TypeMap

end Codegen
