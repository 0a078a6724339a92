/-
Records are read back as they were written.

Not every record can be: an immediate of a type that has none is written without a
value, and an opcode that is not binary is written as if it were.  The others are
`isRegular`.  Of those, an immediate comes back cut to the width of its type and
everything else unchanged; `stored` is what comes back.

The other direction is needed for bytes from anywhere: what reading gives is always
regular, and cutting it changes nothing, since its bytes had no room for more.
-/
import Codegen.Bytecode.Record
import Codegen.Proofs.Bytecode.Reads

namespace Codegen

/-- What of a value fits in an immediate of this class. -/
def Primitive.cut (type : Primitive) (value : UInt64) : UInt64 :=
  UInt64.ofNat (value.toNat % 2 ^ (8 * type.immWidth?.getD 0))

namespace Record

open Reader

/-- Records that reading accepts: immediates of a class that has them, and binary operations. -/
def isRegular : Record → Bool
  | imm type _ => type.immWidth?.isSome
  | binary op _ => op.isBinary
  | ref _ => true
  | chain => true

/-- The record with its immediate cut to the width of its type. -/
def stored : Record → Record
  | imm type value => imm type (type.cut value)
  | binary op type => binary op type
  | ref id => ref id
  | chain => chain

/-! ### Reading what was written -/

theorem reads_readType (type : Primitive) :
    Reads readType (Varint.encode (UInt64.ofNat type.raw)) type := by
  have hraw : Primitive.ofRaw? (UInt64.ofNat type.raw).toNat = some type := by
    cases type <;> rfl
  refine Reads.offset_bind fun start => (reads_varint _).bind_nil ?_
  simp only [hraw]
  exact Reads.pure type

/-- No class asks for more than eight bytes. -/
theorem immWidth_le {type : Primitive} {width : Nat} (h : type.immWidth? = some width) :
    width ≤ 8 := by
  cases type <;> simp [Primitive.immWidth?] at h <;> omega

theorem reads_readImm {type : Primitive} {width : Nat} (hwidth : type.immWidth? = some width)
    (value : UInt64) :
    Reads readImm
      (Varint.encode (UInt64.ofNat type.raw) ++ LittleEndian.ofNat width value.toNat)
      (imm type (type.cut value)) := by
  have hcut : type.cut value = UInt64.ofNat (value.toNat % 256 ^ width) := by
    rw [Primitive.cut, hwidth, Option.getD_some, Nat.pow_mul]
  refine Reads.offset_bind fun start => (reads_readType type).bind ?_
  simp only [hwidth, hcut]
  exact (reads_uint (immWidth_le hwidth) value.toNat).map fun value => imm type value

/-- The number of a binary opcode is not the number of another kind. -/
theorem kind_of_binary {op : Opcode} (h : op.isBinary) :
    UInt64.ofNat op.raw ≠ immKind ∧ UInt64.ofNat op.raw ≠ refKind ∧
      UInt64.ofNat op.raw ≠ chainKind ∧
      (Opcode.ofRaw? (UInt64.ofNat op.raw).toNat).filter Opcode.isBinary = some op := by
  cases op with
  | blank => cases h
  | imm => cases h
  | add | sub | mul | udiv | sdiv => decide

/-- A regular record is read back, with its immediate cut, and nothing behind it is touched. -/
theorem reads_read {r : Record} (h : r.isRegular) : Reads read r.encode r.stored := by
  refine Reads.offset_bind fun start => ?_
  cases r with
  | imm type value =>
      obtain ⟨width, hwidth⟩ := Option.isSome_iff_exists.mp h
      rw [encode, hwidth, Option.getD_some, List.append_assoc]
      exact (reads_varint immKind).bind (reads_readImm hwidth value)
  | binary op type =>
      obtain ⟨himm, href, hchain, hop⟩ := kind_of_binary h
      refine (reads_varint (UInt64.ofNat op.raw)).bind ?_
      simp only [if_neg himm, if_neg href, if_neg hchain, hop]
      exact (reads_readType type).map fun type => binary op type
  | ref id => exact (reads_varint refKind).bind ((reads_varint id).map fun id => ref id)
  | chain => exact (reads_varint chainKind).bind_nil (Reads.pure chain)

/-! ### What reading gives -/

theorem of_readImm_ok {r : Record} {c c' : Cursor} (h : readImm c = .ok r c') :
    r.isRegular ∧ r.stored = r := by
  obtain ⟨start, c₁, -, h⟩ := of_bind_ok h
  obtain ⟨type, c₂, -, h⟩ := of_bind_ok h
  cases hwidth : type.immWidth? with
  | none =>
      simp only [hwidth] at h
      cases h
  | some width =>
      simp only [hwidth] at h
      obtain ⟨value, c₃, hvalue, h⟩ := of_bind_ok h
      cases h
      have hlt : value.toNat < 256 ^ width := of_uint_ok hvalue
      refine ⟨by simp [isRegular, hwidth], ?_⟩
      rw [stored, Primitive.cut, hwidth, Option.getD_some, Nat.pow_mul, Nat.mod_eq_of_lt hlt,
        UInt64.ofNat_toNat]

/-- Whatever the bytes, a record that is read is regular and already cut. -/
theorem of_read_ok {r : Record} {c c' : Cursor} (h : read c = .ok r c') :
    r.isRegular ∧ r.stored = r := by
  obtain ⟨start, c₁, -, h⟩ := of_bind_ok h
  obtain ⟨kind, c₂, -, h⟩ := of_bind_ok h
  split at h
  · exact of_readImm_ok h
  · split at h
    · obtain ⟨id, c₃, -, h⟩ := of_bind_ok h
      cases h
      exact ⟨rfl, rfl⟩
    · split at h
      · cases h
        exact ⟨rfl, rfl⟩
      · cases hop : (Opcode.ofRaw? kind.toNat).filter Opcode.isBinary with
        | none =>
            simp only [hop] at h
            cases h
        | some op =>
            simp only [hop] at h
            obtain ⟨type, c₃, -, h⟩ := of_bind_ok h
            cases h
            exact ⟨(Option.filter_eq_some_iff.mp hop).2, rfl⟩

end Record

end Codegen
