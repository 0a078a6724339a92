/-
Which bytes are numbers of variable length, and what becomes of the others.

A number ends at the first byte whose high bit is clear, and what it stands for is the sum
of its groups.  It is refused as too large at the tenth byte or the eleventh: the tenth has
room for one bit, and there is no eleventh.  Only if there is neither an end nor an excess
have the bytes run out, and then all of them promise another one.

The reader decides byte by byte, so the conditions are first stated of the bytes from some
group on, with the number of groups that are left before the tenth.  They pass from there
to the next byte as the reader does.
-/
import Mathlib.Algebra.BigOperators.Intervals
import Mathlib.Algebra.BigOperators.Ring.Finset
import Codegen.Proofs.Fault
import Codegen.Proofs.Varint.Words

namespace Codegen.Varint

variable {b : UInt8} {bs : List UInt8} {i k n : Nat}

/-! ### The conditions -/

/-- The byte at a position exists and another one follows it. -/
def ContinuesAt (bs : List UInt8) (i : Nat) : Prop := ∃ b, bs[i]? = some b ∧ continues b

/-- The byte at a position is the first with a clear high bit. -/
structure IsLast (bs : List UInt8) (i : Nat) : Prop where
  clear : ∃ b, bs[i]? = some b ∧ ¬continues b
  before : ∀ j < i, ContinuesAt bs j

/-- The first `n` bytes are a number: they end with the first clear high bit, there are ten of them
at most, and the tenth is a single bit. -/
structure Complete (bs : List UInt8) (n : Nat) : Prop where
  pos : 0 < n
  last : IsLast bs (n - 1)
  length_le : n ≤ 10
  tenth : n = 10 → ∀ b, bs[9]? = some b → b ≤ 1

/-- The group at a position, which is the last there is room for, has more than one bit or another
group behind it. -/
structure Exceeds (bs : List UInt8) (i : Nat) : Prop where
  before : ∀ j < i, ContinuesAt bs j
  large : ∃ b, bs[i]? = some b ∧ (1 < payload b ∨ continues b ∧ i + 1 < bs.length)

/-- What the first `n` groups stand for. -/
def total (bs : List UInt8) (n : Nat) : Nat :=
  ∑ i ∈ Finset.range n, payload (bs.getD i 0) * 128 ^ i

/-! ### From one byte to the next -/

theorem forall_continuesAt_cons :
    (∀ j < i + 1, ContinuesAt (b :: bs) j) ↔ continues b ∧ ∀ j < i, ContinuesAt bs j := by
  rw [Nat.forall_lt_succ_left]
  simp [ContinuesAt]

theorem isLast_cons_zero : IsLast (b :: bs) 0 ↔ ¬continues b := by
  constructor
  · rintro ⟨⟨c, hc, hclear⟩, -⟩
    cases hc
    exact hclear
  · intro hclear
    exact ⟨⟨b, rfl, hclear⟩, fun j hj => absurd hj (Nat.not_lt_zero j)⟩

theorem isLast_cons_succ : IsLast (b :: bs) (i + 1) ↔ continues b ∧ IsLast bs i := by
  constructor
  · rintro ⟨hclear, hbefore⟩
    obtain ⟨hb, hbefore⟩ := forall_continuesAt_cons.mp hbefore
    exact ⟨hb, hclear, hbefore⟩
  · rintro ⟨hb, hclear, hbefore⟩
    exact ⟨hclear, forall_continuesAt_cons.mpr ⟨hb, hbefore⟩⟩

/-- With `k` groups to go before the last one there is room for, the number ends at a position, and
where there is room for one bit it has no more. -/
structure EndsWithin (k : Nat) (bs : List UInt8) (i : Nat) : Prop where
  last : IsLast bs i
  le : i ≤ k
  bit : i = k → ∀ b, bs[i]? = some b → payload b ≤ 1

theorem not_endsWithin_nil : ¬EndsWithin k [] i := by
  rintro ⟨⟨⟨b, hb, -⟩, -⟩, -, -⟩
  cases hb

theorem endsWithin_cons_zero :
    EndsWithin k (b :: bs) 0 ↔ ¬continues b ∧ (k = 0 → payload b ≤ 1) := by
  constructor
  · rintro ⟨hlast, -, hbit⟩
    exact ⟨isLast_cons_zero.mp hlast, fun hk => hbit hk.symm b rfl⟩
  · rintro ⟨hclear, hbit⟩
    refine ⟨isLast_cons_zero.mpr hclear, Nat.zero_le k, ?_⟩
    rintro hk c hc
    cases hc
    exact hbit hk.symm

theorem not_endsWithin_zero_succ : ¬EndsWithin 0 bs (i + 1) :=
  fun h => Nat.not_succ_le_zero i h.le

theorem endsWithin_cons_succ :
    EndsWithin (k + 1) (b :: bs) (i + 1) ↔ continues b ∧ EndsWithin k bs i := by
  constructor
  · rintro ⟨hlast, hle, hbit⟩
    obtain ⟨hb, hlast⟩ := isLast_cons_succ.mp hlast
    exact ⟨hb, hlast, Nat.le_of_succ_le_succ hle, fun hk => hbit (congrArg Nat.succ hk)⟩
  · rintro ⟨hb, hlast, hle, hbit⟩
    refine ⟨isLast_cons_succ.mpr ⟨hb, hlast⟩, Nat.succ_le_succ hle, ?_⟩
    exact fun hk => hbit (Nat.succ.inj hk)

theorem not_exceeds_nil : ¬Exceeds [] i := by
  rintro ⟨-, b, hb, -⟩
  cases hb

theorem exceeds_cons_zero : Exceeds (b :: bs) 0 ↔ 1 < payload b ∨ continues b ∧ bs ≠ [] := by
  constructor
  · rintro ⟨-, c, hc, hlarge⟩
    cases hc
    simpa [List.length_pos_iff] using hlarge
  · intro hlarge
    refine ⟨fun j hj => absurd hj (Nat.not_lt_zero j), b, rfl, ?_⟩
    simpa [List.length_pos_iff] using hlarge

theorem exceeds_cons_succ : Exceeds (b :: bs) (i + 1) ↔ continues b ∧ Exceeds bs i := by
  constructor
  · rintro ⟨hbefore, hlarge⟩
    obtain ⟨hb, hbefore⟩ := forall_continuesAt_cons.mp hbefore
    exact ⟨hb, hbefore, by simpa using hlarge⟩
  · rintro ⟨hb, hbefore, hlarge⟩
    exact ⟨forall_continuesAt_cons.mpr ⟨hb, hbefore⟩, by simpa using hlarge⟩

theorem total_one (b : UInt8) (bs : List UInt8) : total (b :: bs) 1 = payload b := by
  simp [total]

theorem total_cons (b : UInt8) (bs : List UInt8) (n : Nat) :
    total (b :: bs) (n + 1) = payload b + 128 * total bs n := by
  unfold total
  rw [Finset.sum_range_succ', Finset.mul_sum, Nat.add_comm]
  simp only [List.getD_cons_succ, List.getD_cons_zero, Nat.pow_zero, Nat.mul_one]
  congr 1
  refine Finset.sum_congr rfl fun j _ => ?_
  rw [Nat.pow_succ', Nat.mul_left_comm]

/-! ### What the reader does with a byte -/

theorem decodeAt_cons (i : Nat) (b : UInt8) (bs : List UInt8) :
    decodeAt i (b :: bs)
      = if 9 < i ∨ (i = 9 ∧ 1 < payload b) then .error .overflow
        else if continues b then
          (decodeAt (i + 1) bs).map fun found => (payload b + 128 * found.1, found.2 + 1)
        else .ok (payload b, 1) := by
  rw [decodeAt, payload_eq]
  by_cases hover : 9 < i ∨ (i = 9 ∧ 1 < b.toNat % 128)
  · simp only [if_pos hover]
  · by_cases hlast : b.toNat < 128
    · simp only [if_neg hover, if_pos hlast, if_neg (mt (continues_iff b).mp (not_not.mpr hlast))]
    · simp only [if_neg hover, if_neg hlast, if_pos ((continues_iff b).mpr hlast)]
      cases decodeAt (i + 1) bs <;> rfl

/-- Before the tenth group a byte is taken or ends the number. -/
theorem decodeAt_of_lt (h : i < 9) (b : UInt8) (bs : List UInt8) :
    decodeAt i (b :: bs)
      = if continues b then
          (decodeAt (i + 1) bs).map fun found => (payload b + 128 * found.1, found.2 + 1)
        else .ok (payload b, 1) := by
  rw [decodeAt_cons, if_neg (by omega)]

/-- At the tenth group the number ends one way or another. -/
theorem decodeAt_nine (b : UInt8) (bs : List UInt8) :
    decodeAt 9 (b :: bs)
      = if 1 < payload b ∨ continues b ∧ bs ≠ [] then .error .overflow
        else if continues b then .error .truncated
        else .ok (payload b, 1) := by
  rw [decodeAt_cons]
  cases bs with
  | nil => by_cases hlarge : 1 < payload b <;> simp [hlarge, decodeAt, Except.map]
  | cons c bs =>
      have hnext : decodeAt 10 (c :: bs) = .error .overflow := by simp [decodeAt]
      by_cases hlarge : 1 < payload b <;> by_cases hb : continues b <;>
        simp [hlarge, hb, hnext, Except.map]

/-- With `k` groups to go before the tenth, a number that is read ends within them. -/
theorem decodeAt_eq_ok_iff (bs : List UInt8) :
    ∀ {i k value n : Nat}, i + k = 9 →
      (decodeAt i bs = .ok (value, n) ↔
        ∃ m, EndsWithin k bs m ∧ n = m + 1 ∧ value = total bs (m + 1)) := by
  induction bs with
  | nil =>
      intro i k value n _
      simp [decodeAt, not_endsWithin_nil]
  | cons b bs ih =>
      intro i k value n h
      have hone := total_one b bs
      constructor
      · intro hok
        rcases k with _ | k
        · obtain rfl : i = 9 := h
          rw [decodeAt_nine] at hok
          split at hok
          · cases hok
          · next hfits =>
              split at hok
              · cases hok
              · next hclear =>
                  cases hok
                  refine ⟨0, endsWithin_cons_zero.mpr ⟨hclear, fun _ => ?_⟩, rfl, hone.symm⟩
                  omega
        · have hnext : i + 1 + k = 9 := by omega
          rw [decodeAt_of_lt (by omega)] at hok
          split at hok
          · next hb =>
              obtain ⟨⟨value', n'⟩, hrest, hfound⟩ := map_eq_ok_iff.mp hok
              obtain ⟨m, hends, rfl, rfl⟩ := (ih hnext).mp hrest
              cases hfound
              exact ⟨m + 1, endsWithin_cons_succ.mpr ⟨hb, hends⟩, rfl, (total_cons ..).symm⟩
          · next hclear =>
              cases hok
              exact ⟨0, endsWithin_cons_zero.mpr ⟨hclear, fun hk => by omega⟩, rfl, hone.symm⟩
      · rintro ⟨m, hends, rfl, rfl⟩
        rcases m with _ | m
        · obtain ⟨hclear, hbit⟩ := endsWithin_cons_zero.mp hends
          have hfits : ¬(9 < i ∨ (i = 9 ∧ 1 < payload b)) := by omega
          rw [decodeAt_cons, if_neg hfits, if_neg hclear, hone]
        · rcases k with _ | k
          · exact absurd hends not_endsWithin_zero_succ
          · obtain ⟨hb, hends⟩ := endsWithin_cons_succ.mp hends
            have hnext : i + 1 + k = 9 := by omega
            rw [decodeAt_of_lt (by omega), if_pos hb, total_cons,
              (ih hnext).mpr ⟨m, hends, rfl, rfl⟩]
            rfl

theorem decodeAt_eq_overflow_iff (bs : List UInt8) :
    ∀ {i k : Nat}, i + k = 9 → (decodeAt i bs = .error .overflow ↔ Exceeds bs k) := by
  induction bs with
  | nil =>
      intro i k _
      simp [decodeAt, not_exceeds_nil]
  | cons b bs ih =>
      intro i k h
      rcases k with _ | k
      · obtain rfl : i = 9 := h
        rw [decodeAt_nine, exceeds_cons_zero]
        split
        · next hlarge => simp [hlarge]
        · next hfits =>
            split <;> simp [hfits]
      · have hnext : i + 1 + k = 9 := by omega
        rw [decodeAt_of_lt (by omega), exceeds_cons_succ]
        by_cases hb : continues b
        · rw [if_pos hb, map_eq_error_iff, ih hnext]
          simp [hb]
        · simp [hb]

/-- Bytes that run out all promise another one. -/
theorem continues_of_truncated (bs : List UInt8) :
    ∀ {i : Nat}, decodeAt i bs = .error .truncated → ∀ b ∈ bs, continues b := by
  induction bs with
  | nil => simp
  | cons b bs ih =>
      intro i h
      rw [decodeAt_cons] at h
      split at h
      · cases h
      · split at h
        · next hb => exact List.forall_mem_cons.mpr ⟨hb, ih (map_eq_error_iff.mp h)⟩
        · cases h

/-! ### 64-bit numbers -/

theorem decode_eq_map (bs : List UInt8) :
    decode bs = (decodeAt 0 bs).map fun found => (UInt64.ofNat found.1, found.2) := by
  unfold decode
  cases decodeAt 0 bs <;> rfl

/-- Where the high bit is clear, a byte is its group. -/
theorem payload_eq_toNat (h : ¬continues b) : payload b = b.toNat := by
  rw [continues_iff, not_not] at h
  rw [payload_eq, Nat.mod_eq_of_lt h]

theorem IsLast.payload_eq (h : IsLast bs i) (hb : bs[i]? = some b) : payload b = b.toNat := by
  obtain ⟨c, hc, hclear⟩ := h.clear
  cases hb.symm.trans hc
  exact payload_eq_toNat hclear

theorem complete_succ_iff : Complete bs (n + 1) ↔ EndsWithin 9 bs n := by
  constructor
  · rintro ⟨-, hlast, hle, hbit⟩
    refine ⟨hlast, Nat.le_of_succ_le_succ hle, ?_⟩
    rintro rfl b hb
    rw [hlast.payload_eq hb]
    exact UInt8.le_iff_toNat_le.mp (hbit rfl b hb)
  · rintro ⟨hlast, hle, hbit⟩
    refine ⟨Nat.succ_pos n, hlast, Nat.succ_le_succ hle, ?_⟩
    intro hn b hb
    obtain rfl : n = 9 := Nat.succ.inj hn
    rw [UInt8.le_iff_toNat_le, ← hlast.payload_eq hb]
    exact hbit rfl b hb

theorem Complete.exists_succ (h : Complete bs n) : ∃ i, n = i + 1 ∧ EndsWithin 9 bs i := by
  obtain ⟨i, rfl⟩ := Nat.exists_eq_succ_of_ne_zero (Nat.ne_of_gt h.pos)
  exact ⟨i, rfl, complete_succ_iff.mp h⟩

/-- Before it is put into a word, the number is the sum of its groups. -/
theorem decodeAt_zero_eq_ok_iff {value : Nat} :
    decodeAt 0 bs = .ok (value, n) ↔ Complete bs n ∧ value = total bs n := by
  rw [decodeAt_eq_ok_iff bs (Nat.zero_add 9)]
  constructor
  · rintro ⟨m, hends, rfl, hvalue⟩
    exact ⟨complete_succ_iff.mpr hends, hvalue⟩
  · rintro ⟨hcomplete, hvalue⟩
    obtain ⟨m, rfl, hends⟩ := hcomplete.exists_succ
    exact ⟨m, hends, rfl, hvalue⟩

/-- Ten groups of which the last is one bit are below `2 ^ 64`. -/
theorem Complete.total_lt (h : Complete bs n) : total bs n < 2 ^ 64 :=
  lt_of_decodeAt_ok (decodeAt_zero_eq_ok_iff.mpr ⟨h, rfl⟩)

theorem decode_eq_ok_iff {v : UInt64} :
    decode bs = .ok (v, n) ↔ Complete bs n ∧ v.toNat = total bs n := by
  rw [decode_eq_map, map_eq_ok_iff]
  constructor
  · rintro ⟨⟨value, used⟩, hread, hfound⟩
    obtain ⟨hcomplete, rfl⟩ := decodeAt_zero_eq_ok_iff.mp hread
    cases hfound
    exact ⟨hcomplete, UInt64.toNat_ofNat_of_lt' hcomplete.total_lt⟩
  · rintro ⟨hcomplete, hvalue⟩
    refine ⟨(total bs n, n), decodeAt_zero_eq_ok_iff.mpr ⟨hcomplete, rfl⟩, ?_⟩
    rw [← hvalue, UInt64.ofNat_toNat]

theorem decode_eq_overflow_iff : decode bs = .error .overflow ↔ Exceeds bs 9 := by
  rw [decode_eq_map, map_eq_error_iff]
  exact decodeAt_eq_overflow_iff bs (Nat.zero_add 9)

/--
**Which bytes are numbers.**  The bytes are read as a number just if they start with one that is
complete, and then its value is the sum of its groups, which fits in 64 bits.  They are refused as
too large just if they exceed the room at the tenth byte.  In all other cases they have run out, and
each of them promises another one.  The loop over words does the same.
-/
theorem decode_outcome (bs : List UInt8) :
    (∀ (v : UInt64) (n : Nat), decode bs = .ok (v, n) ↔
        Complete bs n ∧ v.toNat = ∑ i ∈ Finset.range n, payload (bs.getD i 0) * 128 ^ i) ∧
      (∀ n, Complete bs n → ∑ i ∈ Finset.range n, payload (bs.getD i 0) * 128 ^ i < 2 ^ 64) ∧
      (decode bs = .error .overflow ↔ Exceeds bs 9) ∧
      (decode bs = .error .truncated ↔ (∀ n, ¬Complete bs n) ∧ ¬Exceeds bs 9) ∧
      (decode bs = .error .truncated → ∀ b ∈ bs, continues b) ∧
      Word.decode bs = decode bs := by
  refine ⟨fun v n => decode_eq_ok_iff, fun n h => h.total_lt, decode_eq_overflow_iff, ?_, ?_,
    Word.decode_eq bs⟩
  · constructor
    · intro h
      refine ⟨fun n hcomplete => ?_, fun hexceeds => ?_⟩
      · have hok := decode_eq_ok_iff.mpr
          ⟨hcomplete, UInt64.toNat_ofNat_of_lt' hcomplete.total_lt⟩
        cases h.symm.trans hok
      · cases h.symm.trans (decode_eq_overflow_iff.mpr hexceeds)
    · rintro ⟨hcomplete, hexceeds⟩
      rcases hread : decode bs with (_ | _) | ⟨v, n⟩
      · rfl
      · exact absurd (decode_eq_overflow_iff.mp hread) hexceeds
      · exact absurd (decode_eq_ok_iff.mp hread).1 (hcomplete n)
  · intro h
    rw [decode_eq_map, map_eq_error_iff] at h
    exact continues_of_truncated bs h

example :
    let nine : List UInt8 := List.replicate 9 0xff
    decode (nine ++ [0x01]) = .ok (0xffffffffffffffff, 10) ∧
      decode (nine ++ [0x02]) = .error .overflow ∧
      decode (nine ++ [0x81]) = .error .truncated ∧
      decode (nine ++ [0x81, 0x00]) = .error .overflow :=
  ⟨rfl, rfl, rfl, rfl⟩

end Codegen.Varint
