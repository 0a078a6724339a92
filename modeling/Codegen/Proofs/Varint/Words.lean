/-
Numbers of variable length in machine words.

The definitions of `Varint` speak of numbers, remainders and quotients.  A machine has 64
bits and works on them in place: the reader puts each group where it belongs, by a shift
and an or, and the writer takes seven bits off the low end until nothing is left.  Here
are those two loops and the closed form for the length, and each is shown to give what the
definition says.

A shift loses what does not fit and an or is a sum only if no bit is set twice, so the
reader's loop needs an invariant: before group `i` the word is below `2 ^ (7 * i)`.  What
is too large for the word has been refused at the tenth group, before it could be lost.
-/
import Codegen.Proofs.Numbers

namespace Codegen.Varint

/-! ### Bits of a byte -/

/-- The seven bits that a byte adds to a number. -/
def payload (b : UInt8) : Nat := (b &&& 0x7f).toNat

/-- The high bit is set: another byte follows. -/
def continues (b : UInt8) : Bool := b &&& 0x80 != 0

theorem payload_eq (b : UInt8) : payload b = b.toNat % 128 := by
  rw [payload, UInt8.toNat_and]
  exact Nat.and_two_pow_sub_one_eq_mod b.toNat 7

theorem payload_lt (b : UInt8) : payload b < 128 := by
  rw [payload_eq]
  exact Nat.mod_lt _ (by decide)

theorem and_high_eq_zero_iff (b : UInt8) : b &&& 0x80 = 0 ↔ b.toNat < 128 := by
  have hall : ∀ bits : BitVec 8, bits &&& 128#8 = 0#8 ↔ bits.toNat < 128 := by decide
  rw [← UInt8.toBitVec_inj]
  exact hall b.toBitVec

theorem continues_iff (b : UInt8) : continues b ↔ ¬b.toNat < 128 := by
  rw [continues, bne_iff_ne, ne_eq, and_high_eq_zero_iff]

namespace Word

/-! ### The loops -/

/-- Put groups into a word: `value` holds those that were read, `shift` bits of them in `used`
bytes. -/
def gather (value : UInt64) (shift used : Nat) : List UInt8 → Except VarintError (UInt64 × Nat)
  | [] => .error .truncated
  | b :: bs =>
    let group := (b &&& 0x7f).toUInt64
    if 63 < shift ∨ (shift = 63 ∧ 1 < group) then .error .overflow
    else
      let value := value ||| group <<< UInt64.ofNat shift
      if b &&& 0x80 = 0 then .ok (value, used + 1)
      else gather value (shift + 7) (used + 1) bs

/-- Read one number from the front. -/
def decode (bs : List UInt8) : Except VarintError (UInt64 × Nat) := gather 0 0 0 bs

theorem toNat_shiftRight_seven (v : UInt64) : (v >>> 7).toNat = v.toNat / 128 := by
  rw [UInt64.toNat_shiftRight]
  exact Nat.shiftRight_eq_div_pow v.toNat 7

/-- Append a number to what has been written. -/
def append (v : UInt64) (out : List UInt8) : List UInt8 :=
  let low := (v &&& 0x7f).toUInt8
  let rest := v >>> 7
  if rest = 0 then out ++ [low] else append rest (out ++ [low ||| 0x80])
termination_by v.toNat
decreasing_by
  have hrest : (v >>> 7).toNat ≠ 0 := fun h => ‹¬rest = 0› (UInt64.toNat_inj.mp h)
  rw [toNat_shiftRight_seven] at hrest ⊢
  omega

/-- The number of bytes that `append` adds, from the zeros above the highest bit. -/
def length (v : UInt64) : Nat :=
  let bits := 64 - v.toBitVec.clz.toNat
  (max bits 1 + 6) / 7

/-! ### Reading -/

theorem toNat_group (b : UInt8) : (b &&& 0x7f).toUInt64.toNat = payload b := by
  rw [UInt8.toNat_toUInt64, payload]

/-- A group that has room above `shift` bits is added in its place. -/
theorem toNat_or_shiftLeft {value group : UInt64} {shift : Nat} (hshift : shift < 64)
    (hvalue : value.toNat < 2 ^ shift) (hroom : 2 ^ shift * group.toNat < 2 ^ 64) :
    (value ||| group <<< UInt64.ofNat shift).toNat = value.toNat + 2 ^ shift * group.toNat := by
  have hcount : (UInt64.ofNat shift).toNat = shift :=
    UInt64.toNat_ofNat_of_lt' (Nat.lt_trans hshift (by decide))
  rw [UInt64.toNat_or, UInt64.toNat_shiftLeft, hcount, Nat.mod_eq_of_lt hshift, Nat.shiftLeft_eq,
    Nat.mul_comm, Nat.mod_eq_of_lt hroom, Nat.or_comm, ← Nat.two_pow_add_eq_or_of_lt hvalue,
    Nat.add_comm]

/-- A group that is not too large at its place has room there. -/
theorem shifted_lt {i group : Nat} (hgroup : group < 128) (h : ¬(9 < i ∨ (i = 9 ∧ 1 < group))) :
    2 ^ (7 * i) * group < 2 ^ 64 := by
  by_cases hlast : i = 9
  · subst hlast
    have hbit : group ≤ 1 := by omega
    exact Nat.lt_of_le_of_lt (Nat.mul_le_mul_left _ hbit) (by decide)
  · calc 2 ^ (7 * i) * group < 2 ^ (7 * i) * 2 ^ 7 :=
          Nat.mul_lt_mul_of_pos_left hgroup (Nat.two_pow_pos _)
      _ = 2 ^ (7 * i + 7) := (Nat.pow_add ..).symm
      _ ≤ 2 ^ 64 := Nat.pow_le_pow_right (by decide) (by omega)

/-- A group is refused at `7 * i` bits just if it is refused as group `i`. -/
theorem over_iff (i : Nat) (b : UInt8) :
    (63 < 7 * i ∨ (7 * i = 63 ∧ 1 < (b &&& 0x7f).toUInt64))
      ↔ (9 < i ∨ (i = 9 ∧ 1 < b.toNat % 128)) := by
  have hgroup : (1 < (b &&& 0x7f).toUInt64) ↔ 1 < b.toNat % 128 := by
    rw [UInt64.lt_iff_toNat_lt, toNat_group, payload_eq]
    rfl
  rw [hgroup]
  omega

/-- One turn of the loop: group `i` is added in its place, and the word stays below the next. -/
theorem toNat_gathered {value : UInt64} {i : Nat} {b : UInt8} (hvalue : value.toNat < 2 ^ (7 * i))
    (hfits : ¬(9 < i ∨ (i = 9 ∧ 1 < b.toNat % 128))) :
    (value ||| (b &&& 0x7f).toUInt64 <<< UInt64.ofNat (7 * i)).toNat
        = value.toNat + 2 ^ (7 * i) * (b.toNat % 128) ∧
      value.toNat + 2 ^ (7 * i) * (b.toNat % 128) < 2 ^ (7 * (i + 1)) := by
  have hbound : b.toNat % 128 < 128 := Nat.mod_lt _ (by decide)
  constructor
  · rw [← payload_eq, ← toNat_group]
    refine toNat_or_shiftLeft (by omega) hvalue ?_
    rw [toNat_group, payload_eq]
    exact shifted_lt hbound hfits
  · have hmul := Nat.mul_le_mul_left (2 ^ (7 * i)) (Nat.le_of_lt_succ hbound)
    rw [Nat.mul_add, Nat.pow_add]
    omega

/-- From group `i` on the loop adds to the word what the groups stand for. -/
theorem gather_eq (bs : List UInt8) :
    ∀ {value : UInt64} {i used : Nat}, value.toNat < 2 ^ (7 * i) →
      gather value (7 * i) used bs
        = (decodeAt i bs).map fun found =>
            (UInt64.ofNat (value.toNat + 2 ^ (7 * i) * found.1), used + found.2) := by
  induction bs with
  | nil =>
      intro value i used _
      rfl
  | cons b bs ih =>
      intro value i used hvalue
      simp only [gather, decodeAt, over_iff, and_high_eq_zero_iff]
      by_cases hlarge : 9 < i ∨ (i = 9 ∧ 1 < b.toNat % 128)
      · rw [if_pos hlarge, if_pos hlarge]
        rfl
      · rw [if_neg hlarge, if_neg hlarge]
        obtain ⟨hword, hbelow⟩ := toNat_gathered hvalue hlarge
        by_cases hlast : b.toNat < 128
        · rw [if_pos hlast, if_pos hlast, Except.map, ← hword, UInt64.ofNat_toNat]
        · rw [if_neg hlast, if_neg hlast]
          rw [← hword] at hbelow
          rw [show 7 * i + 7 = 7 * (i + 1) from rfl, ih hbelow, hword]
          cases decodeAt (i + 1) bs with
          | error e => rfl
          | ok found =>
              have hsum : value.toNat + 2 ^ (7 * i) * (b.toNat % 128) + 2 ^ (7 * (i + 1)) * found.1
                  = value.toNat + 2 ^ (7 * i) * (b.toNat % 128 + 128 * found.1) := by
                rw [Nat.mul_add 7, Nat.pow_add, Nat.mul_add, Nat.mul_assoc, Nat.add_assoc]
              simp only [Except.map, hsum, Nat.add_assoc, Nat.add_comm 1]

theorem decode_eq (bs : List UInt8) : decode bs = Varint.decode bs := by
  have hgather := @gather_eq bs 0 0 0 (by decide)
  rw [decode, Varint.decode, show gather 0 0 0 bs = _ from hgather]
  cases decodeAt 0 bs with
  | error e => rfl
  | ok found => simp [Except.map]

/-! ### Writing -/

theorem toNat_low (v : UInt64) : (v &&& 0x7f).toUInt8.toNat = v.toNat % 128 := by
  have hlow : (v &&& 0x7f).toNat = v.toNat % 128 := by
    rw [UInt64.toNat_and]
    exact Nat.and_two_pow_sub_one_eq_mod v.toNat 7
  rw [UInt64.toNat_toUInt8, hlow]
  omega

theorem toNat_or_high {b : UInt8} (h : b.toNat < 128) : (b ||| 0x80).toNat = b.toNat + 128 := by
  have hsum := Nat.two_pow_add_eq_or_of_lt (i := 7) h 1
  rw [UInt8.toNat_or, Nat.or_comm]
  exact hsum.symm.trans (Nat.add_comm ..)

theorem append_eq (v : UInt64) (out : List UInt8) : append v out = out ++ encode v := by
  fun_induction append v out with
  | case1 v out low rest hrest =>
      have hsmall : v.toNat < 128 := by
        have hzero := congrArg UInt64.toNat hrest
        rw [toNat_shiftRight_seven] at hzero
        exact Nat.lt_of_div_eq_zero (by decide) hzero
      have hlow : low = UInt8.ofNat v.toNat := by
        rw [← UInt8.toNat_inj, toNat_low, UInt8.toNat_ofNat']
        omega
      rw [encode, encodeNat, if_pos hsmall, hlow]
  | case2 v out low rest hrest ih =>
      have hlarge : ¬v.toNat < 128 := by
        intro hsmall
        refine hrest (UInt64.toNat_inj.mp ?_)
        rw [toNat_shiftRight_seven, Nat.div_eq_of_lt hsmall]
        rfl
      have hlow : low ||| 0x80 = UInt8.ofNat (v.toNat % 128 + 128) := by
        rw [← UInt8.toNat_inj, toNat_or_high (by rw [toNat_low]; omega), toNat_low,
          UInt8.toNat_ofNat']
        omega
      rw [ih, encode, encode, toNat_shiftRight_seven, hlow, encodeNat.eq_def v.toNat,
        if_neg hlarge, List.append_assoc, List.singleton_append]

/-- The zeros above the highest bit say where that bit is. -/
theorem log2_eq_sub_clz {v : UInt64} (h : v ≠ 0) : v.toNat.log2 + 1 = 64 - v.toBitVec.clz.toNat := by
  have hne : v.toBitVec ≠ 0#64 := fun hzero => h (UInt64.toBitVec_inj.mp hzero)
  have hnat : v.toNat ≠ 0 := fun hzero => h (UInt64.toNat_inj.mp hzero)
  have habove : v.toNat < 2 ^ (64 - v.toBitVec.clz.toNat) := BitVec.toNat_lt_two_pow_sub_clz
  have hbelow : 2 ^ (64 - 1 - v.toBitVec.clz.toNat) ≤ v.toNat :=
    BitVec.two_pow_sub_clz_le_toNat_of_ne_zero (by decide) hne
  have hlt := (Nat.log2_lt hnat).mpr habove
  have hle := (Nat.le_log2 hnat).mpr hbelow
  omega

theorem length_eq (v : UInt64) : length v = Varint.length v := by
  unfold length Varint.length
  by_cases hzero : v = 0
  · subst hzero
    decide
  · dsimp only
    rw [← log2_eq_sub_clz hzero]
    omega

end Word

end Codegen.Varint
