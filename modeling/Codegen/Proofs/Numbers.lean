/-
Numbers survive being written.

Both ways of writing a number are read back exactly.  A number of fixed width loses
what does not fit, and nothing else: what comes back is the remainder modulo
`256 ^ width`.  A number of variable length loses nothing, because ten groups hold 64
bits.

The reader of variable lengths counts groups to know when a number is too large, so
the induction has to carry the group it stands at: from group `i` on there is room for
`64 - 7 * i` bits, and cutting off one group of a number cuts that room by seven.

The other way round, bytes from anywhere that are read as a number need not be what would
have been written for it, but they are never shorter.  They end where the number does, so
the reader sees nothing behind them and misses every one of them.
-/
import Mathlib.Algebra.Group.Nat.Defs
import Codegen.LittleEndian
import Codegen.Varint

namespace Codegen

namespace LittleEndian

/-- The lowest bytes of a number stand for its remainder. -/
theorem toNat_ofNat (width n : Nat) : toNat (ofNat width n) = n % 256 ^ width := by
  induction width generalizing n with
  | zero => simp [ofNat, toNat, Nat.mod_one]
  | succ width ih =>
      have hlow : (UInt8.ofNat n).toNat = n % 256 := UInt8.toNat_ofNat'
      rw [ofNat, toNat, ih, hlow, Nat.pow_succ', Nat.mod_mul]

/-- Bytes stand for a number that fits in them. -/
theorem toNat_lt (bs : List UInt8) : toNat bs < 256 ^ bs.length := by
  induction bs with
  | nil => simp [toNat]
  | cons b bs ih =>
      have hb : b.toNat < 256 := b.toNat_lt
      rw [toNat, List.length_cons, Nat.pow_succ']
      omega

/-- A number that fits comes back as it was. -/
theorem toNat_ofNat_of_lt {width n : Nat} (h : n < 256 ^ width) : toNat (ofNat width n) = n := by
  rw [toNat_ofNat, Nat.mod_eq_of_lt h]

end LittleEndian

namespace Varint

/-! ### Reading what was written -/

/-- From group `i` on, a number with room for it is read back whole, whatever follows. -/
theorem decodeAt_encodeNat (rest : List UInt8) (n : Nat) :
    ∀ i, i ≤ 9 → n < 2 ^ (64 - 7 * i) →
      decodeAt i (encodeNat n ++ rest) = .ok (n, (encodeNat n).length) := by
  fun_induction encodeNat n with
  | case1 n hsmall =>
      intro i hi hroom
      have hbyte : (UInt8.ofNat n).toNat = n := by
        rw [UInt8.toNat_ofNat', Nat.mod_eq_of_lt (by omega)]
      -- The last group there is has room for one bit.
      have hlast : i = 9 → n < 2 := by
        rintro rfl
        simpa using hroom
      have hfits : ¬(9 < i ∨ (i = 9 ∧ 1 < n)) := by omega
      simp only [List.cons_append, List.nil_append, decodeAt, hbyte, Nat.mod_eq_of_lt hsmall,
        if_neg hfits, if_pos hsmall, List.length_singleton]
  | case2 n hlarge ih =>
      intro i hi hroom
      have hbyte : (UInt8.ofNat (n % 128 + 128)).toNat = n % 128 + 128 := by
        rw [UInt8.toNat_ofNat', Nat.mod_eq_of_lt (by omega)]
      have hnotlast : i ≠ 9 := by
        rintro rfl
        simp at hroom
        omega
      have hfits : ¬(9 < i ∨ (i = 9 ∧ 1 < n % 128)) := by omega
      have hcont : ¬(n % 128 + 128 < 128) := by omega
      have hroom' : n / 128 < 2 ^ (64 - 7 * (i + 1)) := by
        rw [Nat.div_lt_iff_lt_mul (by decide)]
        rw [show 64 - 7 * i = 64 - 7 * (i + 1) + 7 by omega, Nat.pow_add] at hroom
        exact hroom
      have hlow : (n % 128 + 128) % 128 = n % 128 := by omega
      rw [List.cons_append, decodeAt]
      simp only [hbyte, hlow, if_neg hfits, if_neg hcont, ih (i + 1) (by omega) hroom',
        Nat.mod_add_div, List.length_cons]

/-- A 64-bit number is read back, and the reader stops where the number does. -/
theorem decode_encode (v : UInt64) (rest : List UInt8) :
    decode (encode v ++ rest) = .ok (v, (encode v).length) := by
  have hroom : v.toNat < 2 ^ (64 - 7 * 0) := v.toNat_lt
  simp only [decode, encode, decodeAt_encodeNat rest v.toNat 0 (by omega) hroom,
    UInt64.ofNat_toNat]

/-- Every number takes a byte. -/
theorem length_encode_pos (v : UInt64) : 0 < (encode v).length := by
  rw [encode, encodeNat]
  split
  · simp
  · simp

/-! ### Numbers that were read -/

/-- A number that was read ends with its last group: what follows is not looked at, and without
that group there is no number. -/
theorem of_decodeAt_ok {i value used : Nat} {bs : List UInt8}
    (h : decodeAt i bs = .ok (value, used)) :
    ∃ groups rest, bs = groups ++ rest ∧ groups.length = used ∧
      (∀ rest', decodeAt i (groups ++ rest') = .ok (value, used)) ∧
      ∀ n < used, decodeAt i (groups.take n) = .error .truncated := by
  induction bs generalizing i value used with
  | nil => cases h
  | cons b bs ih =>
      rw [decodeAt] at h
      by_cases hover : 9 < i ∨ (i = 9 ∧ 1 < b.toNat % 128)
      · simp only [if_pos hover] at h
        cases h
      · simp only [if_neg hover] at h
        by_cases hlast : b.toNat < 128
        · simp only [if_pos hlast] at h
          cases h
          refine ⟨[b], bs, rfl, rfl, ?_, ?_⟩
          · intro rest'
            rw [List.singleton_append, decodeAt]
            simp only [if_neg hover, if_pos hlast]
          · intro n hn
            rw [Nat.lt_one_iff.mp hn]
            rfl
        · simp only [if_neg hlast] at h
          cases hrest : decodeAt (i + 1) bs with
          | error e =>
              rw [hrest] at h
              cases h
          | ok found =>
              obtain ⟨value', used'⟩ := found
              rw [hrest] at h
              cases h
              obtain ⟨groups, rest, rfl, rfl, hfull, hshort⟩ := ih hrest
              refine ⟨b :: groups, rest, rfl, rfl, ?_, ?_⟩
              · intro rest'
                rw [List.cons_append, decodeAt]
                simp only [if_neg hover, if_neg hlast, hfull rest']
              · intro n hn
                rcases n with _ | n
                · rfl
                · rw [List.take_succ_cons, decodeAt]
                  simp only [if_neg hover, if_neg hlast, hshort n (Nat.lt_of_succ_lt_succ hn)]

/-- No number that is read is written with more groups than it was read from. -/
theorem length_encodeNat_le {i value used : Nat} {bs : List UInt8}
    (h : decodeAt i bs = .ok (value, used)) : (encodeNat value).length ≤ used := by
  induction bs generalizing i value used with
  | nil => cases h
  | cons b bs ih =>
      rw [decodeAt] at h
      split at h
      · cases h
      · split at h
        · cases h
          rw [encodeNat, if_pos (Nat.mod_lt _ (by decide))]
          exact Nat.le_refl 1
        · split at h
          · next value' used' hrest =>
              cases h
              have hlater := ih hrest
              rw [encodeNat]
              split
              · simp
              · have hdiv : (b.toNat % 128 + 128 * value') / 128 = value' := by omega
                rw [hdiv, List.length_cons]
                omega
          · cases h

/-- From group `i` on there is room for `64 - 7 * i` bits. -/
theorem lt_of_decodeAt_ok {i value used : Nat} {bs : List UInt8}
    (h : decodeAt i bs = .ok (value, used)) : value < 2 ^ (64 - 7 * i) := by
  induction bs generalizing i value used with
  | nil => cases h
  | cons b bs ih =>
      rw [decodeAt] at h
      split at h
      · cases h
      · next hover =>
          have hgroup : b.toNat % 128 < 2 ^ 7 := Nat.mod_lt _ (by decide)
          have hi : i ≤ 9 := by omega
          split at h
          · cases h
            by_cases hlast : i = 9
            · subst hlast
              show b.toNat % 128 < 2
              omega
            · exact Nat.lt_of_lt_of_le hgroup (Nat.pow_le_pow_right (by decide) (by omega))
          · split at h
            · next value' used' hrest =>
                cases h
                have hlater := ih hrest
                by_cases hlast : i = 9
                · subst hlast
                  have hnone : value' < 1 := hlater
                  show b.toNat % 128 + 128 * value' < 2
                  omega
                · have hpow : 2 ^ (64 - 7 * i) = 2 ^ 7 * 2 ^ (64 - 7 * (i + 1)) := by
                    rw [← Nat.pow_add]
                    congr 1
                    omega
                  rw [hpow]
                  omega
            · cases h

/-- What is known of a 64-bit number that was read: where it ends, and that writing it takes no more
bytes. -/
theorem of_decode_ok {v : UInt64} {used : Nat} {bs : List UInt8} (h : decode bs = .ok (v, used)) :
    ∃ groups rest, bs = groups ++ rest ∧ groups.length = used ∧
      (∀ rest', decode (groups ++ rest') = .ok (v, used)) ∧
      (∀ n < used, decode (groups.take n) = .error .truncated) ∧ (encode v).length ≤ used := by
  unfold decode at h
  split at h
  · next value used' hat =>
      cases h
      obtain ⟨groups, rest, hbs, hlength, hfull, hshort⟩ := of_decodeAt_ok hat
      have hvalue : (UInt64.ofNat value).toNat = value :=
        UInt64.toNat_ofNat_of_lt' (lt_of_decodeAt_ok hat)
      refine ⟨groups, rest, hbs, hlength, ?_, ?_, ?_⟩
      · intro rest'
        simp only [decode, hfull rest']
      · intro n hn
        simp only [decode, hshort n hn]
      · rw [encode, hvalue]
        exact length_encodeNat_le hat
  · cases h

end Varint

end Codegen
