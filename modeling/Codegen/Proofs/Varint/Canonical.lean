/-
Of all the bytes for a number, the writer chooses the shortest.

A number can be given more groups than it needs, by putting groups of zeros above its
highest bit.  Readers take such bytes; the writer does not make them.  What it makes has
the length that the position of the highest bit says, is read back, and is never longer
than other bytes for the same number.  Bytes from elsewhere are what the writer makes just
if their last group is not zero, or is the only one.
-/
import Codegen.Proofs.Varint.Outcome

namespace Codegen.Varint

variable {b : UInt8} {bs : List UInt8} {i : Nat}

/-! ### The writer's groups -/

theorem encodeNat_of_lt {value : Nat} (h : value < 128) :
    encodeNat value = [UInt8.ofNat value] := by
  rw [encodeNat, if_pos h]

theorem encodeNat_add_mul {group rest : Nat} (hgroup : group < 128) (hrest : rest ≠ 0) :
    encodeNat (group + 128 * rest) = UInt8.ofNat (group + 128) :: encodeNat rest := by
  have hlow : (group + 128 * rest) % 128 = group := by omega
  have hhigh : (group + 128 * rest) / 128 = rest := by omega
  rw [encodeNat, if_neg (by omega), hlow, hhigh]

/-- A byte with the high bit set is its group and that bit. -/
theorem ofNat_payload_add (h : continues b) : UInt8.ofNat (payload b + 128) = b := by
  rw [continues_iff] at h
  have hb := b.toNat_lt
  rw [← UInt8.toNat_inj, UInt8.toNat_ofNat', payload_eq]
  omega

/-! ### How many there are -/

/-- Taking off a group takes seven off the position of the highest bit. -/
theorem log2_div {n : Nat} (h : ¬n < 128) : n.log2 = (n / 128).log2 + 7 := by
  have hne : n / 128 ≠ 0 := by omega
  have hlow := Nat.log2_self_le hne
  have hhigh := @Nat.lt_log2_self (n / 128)
  rw [Nat.log2_eq_iff (by omega)]
  rw [Nat.pow_succ] at hhigh
  constructor
  · rw [Nat.pow_add]
    omega
  · rw [Nat.pow_succ, Nat.pow_add]
    omega

theorem length_encodeNat (n : Nat) : (encodeNat n).length = n.log2 / 7 + 1 := by
  fun_induction encodeNat n with
  | case1 n hsmall =>
      have hlog : n.log2 < 7 := by
        by_cases hzero : n = 0
        · simp [hzero]
        · exact (Nat.log2_lt hzero).mpr hsmall
      rw [Nat.div_eq_of_lt hlog, List.length_singleton]
  | case2 n hlarge ih =>
      rw [List.length_cons, ih, log2_div hlarge, Nat.add_div_right _ (by decide)]

theorem length_encode (v : UInt64) : (encode v).length = length v := length_encodeNat v.toNat

/-- Ten groups hold 64 bits. -/
theorem length_le_ten (v : UInt64) : length v ≤ 10 := by
  have hlog : v.toNat.log2 < 64 := by
    by_cases hzero : v.toNat = 0
    · simp [hzero]
    · exact (Nat.log2_lt hzero).mpr v.toNat_lt
  unfold length
  omega

/-! ### Bytes from elsewhere -/

/-- A number that stands for nothing ends with a zero. -/
theorem IsLast.getElem?_eq_zero (h : IsLast bs i) (hzero : total bs (i + 1) = 0) :
    bs[i]? = some 0 := by
  obtain ⟨b, hb, -⟩ := h.clear
  have hgroup : payload (bs.getD i 0) = 0 := by
    have hterms := Finset.sum_eq_zero_iff.mp hzero i (Finset.self_mem_range_succ i)
    simpa using hterms
  rw [List.getD_eq_getElem?_getD, hb, Option.getD_some, h.payload_eq hb] at hgroup
  have hbyte : b = 0 := UInt8.toNat_inj.mp hgroup
  rw [hb, hbyte]

/-- The groups are those that the writer makes of their number unless there is a zero on top. -/
theorem encodeNat_total_eq_take_iff (bs : List UInt8) :
    ∀ {i : Nat}, IsLast bs i →
      (encodeNat (total bs (i + 1)) = bs.take (i + 1) ↔ i = 0 ∨ bs[i]? ≠ some 0) := by
  induction bs with
  | nil =>
      intro i h
      obtain ⟨b, hb, -⟩ := h.clear
      cases hb
  | cons b bs ih =>
      intro i h
      rcases i with _ | i
      · have hclear := isLast_cons_zero.mp h
        rw [Nat.zero_add, total_one, encodeNat_of_lt (payload_lt b), payload_eq_toNat hclear,
          UInt8.ofNat_toNat]
        simp
      · obtain ⟨hb, hlast⟩ := isLast_cons_succ.mp h
        rw [total_cons, List.take_succ_cons, List.getElem?_cons_succ]
        by_cases hzero : total bs (i + 1) = 0
        · -- One group is enough, and there are two at least.
          have hlt : i < bs.length := by
            obtain ⟨c, hc, -⟩ := hlast.clear
            exact (List.getElem?_eq_some_iff.mp hc).1
          have hlong : bs.take (i + 1) ≠ [] := by
            rw [ne_eq, List.take_eq_nil_iff]
            rintro (hi | rfl)
            · omega
            · simp at hlt
          rw [hzero, Nat.mul_zero, Nat.add_zero, encodeNat_of_lt (payload_lt b),
            hlast.getElem?_eq_zero hzero]
          simp [hlong.symm]
        · have hnonzero : i = 0 → bs[i]? ≠ some 0 := by
            rintro rfl hfirst
            refine hzero ?_
            rw [Nat.zero_add, total, Finset.sum_range_one, List.getD_eq_getElem?_getD, hfirst]
            rfl
          rw [encodeNat_add_mul (payload_lt b) hzero, ofNat_payload_add hb, List.cons_inj_right,
            ih hlast]
          simp only [Nat.succ_ne_zero, false_or]
          exact ⟨fun h => h.elim hnonzero id, Or.inr⟩

/--
**Writing a number and reading it are inverse, and what is written is the shortest.**  Appending a
number adds as many bytes as its length says, from one to ten, and whatever follows them, they are
read back as the number.  Whatever bytes are read as a number, it is no longer when it is written,
and it is written as those bytes just if there is one of them or the last is not zero.
-/
theorem encode_canonical :
    (∀ (v : UInt64) (before after : List UInt8),
        Word.append v before = before ++ encode v ∧
          (encode v).length = length v ∧ Word.length v = length v ∧ 1 ≤ length v ∧ length v ≤ 10 ∧
          decode (encode v ++ after) = .ok (v, (encode v).length)) ∧
      ∀ (bs : List UInt8) (v : UInt64) (n : Nat), decode bs = .ok (v, n) →
        length v ≤ n ∧ (encode v = bs.take n ↔ n = 1 ∨ bs[n - 1]? ≠ some 0) := by
  refine ⟨fun v before after => ?_, fun bs v n h => ⟨?_, ?_⟩⟩
  · exact ⟨Word.append_eq v before, length_encode v, Word.length_eq v, Nat.succ_pos _,
      length_le_ten v, decode_encode v after⟩
  · obtain ⟨_, _, -, -, -, -, hle⟩ := of_decode_ok h
    rwa [length_encode] at hle
  · obtain ⟨hcomplete, hvalue⟩ := decode_eq_ok_iff.mp h
    obtain ⟨i, rfl, hends⟩ := hcomplete.exists_succ
    rw [encode, hvalue, encodeNat_total_eq_take_iff bs hends.last]
    simp

/-- One in three groups, two of them above its highest bit. -/
theorem encode_canonical_overlong :
    decode [0x81, 0x80, 0x00, 0xff] = .ok (1, 3) ∧ length 1 ≤ 3 ∧
      encode 1 ≠ [0x81, 0x80, 0x00] := by
  have hread : decode [0x81, 0x80, 0x00, 0xff] = .ok (1, 3) := rfl
  obtain ⟨hle, hsame⟩ := encode_canonical.2 _ _ _ hread
  refine ⟨hread, hle, fun hencode => ?_⟩
  have hlast := hsame.mp hencode
  simp at hlast

end Codegen.Varint
