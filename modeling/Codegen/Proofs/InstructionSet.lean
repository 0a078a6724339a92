/-
The names in listings and dumps can be told apart.

A listing shows an opcode and a type by their names, and a dump also names operands and
immediates.  All of these are names in the narrow sense, without blanks or marks, so a
reader knows where they end; and no two opcodes of a set, and no two types, are called the
same.  That is all that has to be known of an instruction set to read its listings.
-/
import Codegen.X86
import Codegen.Proofs.Text.Reading

namespace Codegen

open Text (IsName)

/-- What is called by name is called by a name of its own. -/
structure Legible (O T : Type) [InstructionSet O] [ToString T] : Prop where
  setName : IsName (InstructionSet.setName O)
  mnemonic : ∀ op : O, IsName (InstructionSet.mnemonic op)
  mnemonic_inj : ∀ op op' : O, InstructionSet.mnemonic op = InstructionSet.mnemonic op' → op = op'
  type : ∀ t : T, IsName (toString t)
  type_inj : ∀ t t' : T, toString t = toString t' → t = t'
  operandName : ∀ (op : O) (i : Nat), ∀ name ∈ InstructionSet.operandName? op i, IsName name
  immName : ∀ (op : O) (i : Nat), ∀ name ∈ InstructionSet.immName? op i, IsName name

theorem ValueType.isName (t : ValueType) : IsName t.name := by
  cases t with
  | prim p => cases p <;> decide
  | descriptor n => exact Text.over_append.mpr ⟨by decide, Text.isName_numeral n⟩

theorem Primitive.name_inj (p p' : Primitive) (h : p.name = p'.name) : p = p' := by
  revert h
  cases p <;> cases p' <;> decide

/-- No primitive class is called as a descriptor is. -/
theorem Primitive.name_ne_descriptor (p : Primitive) (n : Nat) :
    p.name ≠ "desc#" ++ toString n := by
  intro h
  have hhead := congrArg (fun s : String => s.toList.head?) h
  revert hhead
  cases p <;> simp [Primitive.name]

theorem ValueType.name_inj (t t' : ValueType) (h : t.name = t'.name) : t = t' := by
  cases t with
  | prim p =>
      cases t' with
      | prim p' => rw [p.name_inj p' h]
      | descriptor n => exact absurd h (p.name_ne_descriptor n)
  | descriptor n =>
      cases t' with
      | prim p => exact absurd h.symm (p.name_ne_descriptor n)
      | descriptor n' => rw [Text.numeral_inj ((String.append_right_inj _).mp h)]

theorem legible_ir : Legible Opcode ValueType where
  setName := by decide
  mnemonic op := by cases op <;> decide
  mnemonic_inj op op' := by cases op <;> cases op' <;> decide
  type := ValueType.isName
  type_inj := ValueType.name_inj
  operandName op i name h := by
    simp only [InstructionSet.operandName?] at h
    split at h
    · split at h <;> cases h <;> decide
    · cases h
  immName op i name h := by
    simp only [InstructionSet.immName?] at h
    split at h <;> cases h
    decide

theorem X86.legible : Legible X86.Opcode X86.RegType where
  setName := by decide
  mnemonic op := by cases op <;> decide
  mnemonic_inj op op' := by cases op <;> cases op' <;> decide
  type t := by cases t <;> decide
  type_inj t t' := by cases t <;> cases t' <;> decide
  operandName op i name h := by
    simp only [InstructionSet.operandName?] at h
    split at h <;> cases h <;> decide
  immName op i name h := by
    simp only [InstructionSet.immName?] at h
    split at h <;> cases h <;> decide

end Codegen
