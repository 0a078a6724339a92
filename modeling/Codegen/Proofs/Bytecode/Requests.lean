/-
Where a cursor stands after any row of reads.

A caller may ask for bytes and numbers in any order and go on asking after a refusal.  What
a request does depends on the cursor alone, so a row of requests is as good as its steps:
each of them starts from a place in the data and ends at one that is not further back.

The requests fall into two kinds.  Six of them know beforehand how many bytes they want;
they are all `bytes` with a function of the bytes behind it, and whether they are refused
depends on nothing but the number of bytes that are left.  The other two find out as they
read.  Of these `length` is the one that can be refused after it has moved, since it looks
at what lies behind the number it has read.
-/
import Codegen.Proofs.Bytecode.Safety
import Codegen.Proofs.Varint.Outcome

namespace Codegen

/-- The bytes are one number of variable length, and `n` is the number. -/
structure Varint.Whole (bs : List UInt8) (n : Nat) : Prop where
  complete : Complete bs bs.length
  value : n = total bs bs.length

/-- What a caller can ask of a cursor. -/
inductive Request where
  | byte
  | word16
  | word32
  | word64
  | uint (width : Nat) (fits : width ≤ 8)
  | bytes (count : Nat)
  | varint
  | length

namespace Request

abbrev Answer : Request → Type
  | byte => UInt8
  | word16 => UInt16
  | word32 => UInt32
  | word64 | uint .. | varint => UInt64
  | bytes _ => List UInt8
  | length => Nat

/-- The reader that a request is made to. -/
def reader : (r : Request) → Reader r.Answer
  | byte => Reader.byte
  | word16 => Reader.word16
  | word32 => Reader.word32
  | word64 => Reader.word64
  | uint width _ => Reader.uint width
  | bytes count => Reader.bytes count
  | varint => Reader.varint
  | length => Reader.length

/-- How many bytes a request wants, where that is known beforehand. -/
def width? : Request → Option Nat
  | byte => some 1
  | word16 => some 2
  | word32 => some 4
  | word64 => some 8
  | uint width _ => some width
  | bytes count => some count
  | varint | length => none

/-- The bytes are just those that stand for an answer. -/
def Spells : (r : Request) → List UInt8 → r.Answer → Prop
  | byte, bs, v => bs.length = 1 ∧ v.toNat = LittleEndian.toNat bs
  | word16, bs, v => bs.length = 2 ∧ v.toNat = LittleEndian.toNat bs
  | word32, bs, v => bs.length = 4 ∧ v.toNat = LittleEndian.toNat bs
  | word64, bs, v => bs.length = 8 ∧ v.toNat = LittleEndian.toNat bs
  | uint width _, bs, v => bs.length = width ∧ v.toNat = LittleEndian.toNat bs
  | bytes count, bs, v => bs.length = count ∧ v = bs
  | varint, bs, v => Varint.Whole bs v.toNat
  | length, bs, n => Varint.Whole bs n

/-- Where the cursor stands after a request, whether it was granted or not. -/
def left (r : Request) (c : Cursor) : Cursor :=
  match r.reader c with
  | .ok _ c' => c'
  | .error _ c' => c'

/-- Where the cursor stands after a row of requests. -/
def leftAll (rs : List Request) (c : Cursor) : Cursor := rs.foldl (fun c r => r.left c) c

variable {r : Request} {c c' : Cursor} {data : List UInt8}

theorem left_of_ok {v : r.Answer} (h : r.reader c = .ok v c') : r.left c = c' := by
  unfold left
  rw [h]

theorem left_of_error {stop : Stop DecodeError} (h : r.reader c = .error stop c') :
    r.left c = c' := by
  unfold left
  rw [h]

end Request

namespace Reader

variable {α : Type} {c c' : Cursor} {n : Nat}

/-! ### Requests that know how many bytes they want -/

theorem bytes_of_le (h : n ≤ c.remaining) : bytes n c = .ok (c.rest.take n) (c.advance n) := by
  have hlength : (c.rest.take n).length = n := by simpa [Cursor.remaining] using h
  simp only [bytes, hlength, if_pos]

theorem bytes_of_lt (h : c.remaining < n) :
    bytes n c = .error (.reject (.unexpectedEnd c.offset (n - c.remaining))) c := by
  have hlength : (c.rest.take n).length ≠ n := by
    rw [List.length_take]
    simp only [Cursor.remaining] at h
    omega
  simp only [bytes, hlength, if_false]

end Reader

namespace Request

variable {r : Request} {c c' : Cursor} {data : List UInt8} {width : Nat}

/-- As many bytes as a word has are a number that it can hold. -/
theorem toNat_lt_of_length {bs : List UInt8} {bound : Nat} (h : bs.length = width)
    (hbound : 256 ^ width ≤ bound) : LittleEndian.toNat bs < bound :=
  Nat.lt_of_lt_of_le (h ▸ LittleEndian.toNat_lt bs) hbound

/-- A request that knows how many bytes it wants takes them and gives what they stand for. -/
theorem exists_reader_eq (h : r.width? = some width) :
    ∃ f : List UInt8 → r.Answer, r.reader = (do return f (← Reader.bytes width)) ∧
      ∀ bs, bs.length = width → r.Spells bs (f bs) := by
  cases r with
  | byte =>
      cases h
      refine ⟨_, rfl, fun bs hbs => ⟨hbs, ?_⟩⟩
      exact UInt8.toNat_ofNat_of_lt' (toNat_lt_of_length hbs (by decide))
  | word16 =>
      cases h
      refine ⟨_, rfl, fun bs hbs => ⟨hbs, ?_⟩⟩
      exact UInt16.toNat_ofNat_of_lt' (toNat_lt_of_length hbs (by decide))
  | word32 =>
      cases h
      refine ⟨_, rfl, fun bs hbs => ⟨hbs, ?_⟩⟩
      exact UInt32.toNat_ofNat_of_lt' (toNat_lt_of_length hbs (by decide))
  | word64 =>
      cases h
      refine ⟨_, rfl, fun bs hbs => ⟨hbs, ?_⟩⟩
      exact UInt64.toNat_ofNat_of_lt' (toNat_lt_of_length hbs (by decide))
  | uint width fits =>
      cases h
      refine ⟨_, Reader.uint_of_le fits, fun bs hbs => ⟨hbs, ?_⟩⟩
      have hbound : 256 ^ width ≤ 2 ^ 64 := Nat.pow_le_pow_right (by decide) fits
      exact UInt64.toNat_ofNat_of_lt' (toNat_lt_of_length hbs hbound)
  | bytes =>
      cases h
      exact ⟨id, (bind_pure (Reader.bytes width)).symm, fun bs hbs => ⟨hbs, rfl⟩⟩
  | varint => cases h
  | length => cases h

theorem exists_answer (h : r.width? = some width) (hle : width ≤ c.remaining) :
    ∃ v, r.reader c = .ok v (c.advance width) ∧ r.Spells (c.rest.take width) v := by
  obtain ⟨f, hreader, hspells⟩ := exists_reader_eq h
  refine ⟨f (c.rest.take width), ?_, hspells _ (by simpa [Cursor.remaining] using hle)⟩
  rw [hreader, Reader.bind_ok (Reader.bytes_of_le hle)]
  rfl

theorem reader_of_short (h : r.width? = some width) (hlt : c.remaining < width) :
    r.reader c = .error (.reject (.unexpectedEnd c.offset (width - c.remaining))) c := by
  obtain ⟨f, hreader, -⟩ := exists_reader_eq h
  rw [hreader]
  exact Reader.bind_error (Reader.bytes_of_lt hlt)

/-! ### Requests that find out as they read -/

/-- A refusal by anything but a length that was read and is too large. -/
def Plain (e : DecodeError) : Prop := ∀ n offset, e ≠ .lengthOverflow n offset

theorem varint_cases (c : Cursor) :
    (∃ v used, used ≤ c.remaining ∧ Reader.varint c = .ok v (c.advance used) ∧
        Varint.Whole (c.rest.take used) v.toNat) ∨
      ∃ e, Reader.varint c = .error (.reject e) c ∧ Plain e := by
  unfold Reader.varint
  split
  · next v used hdecode =>
      obtain ⟨groups, rest, hrest, rfl, hfull, -⟩ := Varint.of_decode_ok hdecode
      have hgroups := hfull []
      rw [List.append_nil, Varint.decode_eq_ok_iff] at hgroups
      refine Or.inl ⟨v, groups.length, ?_, rfl, ?_⟩
      · simp [Cursor.remaining, hrest]
      · rw [hrest, List.take_left]
        exact ⟨hgroups.1, hgroups.2⟩
  · exact Or.inr ⟨_, rfl, by simp [Plain]⟩
  · exact Or.inr ⟨_, rfl, by simp [Plain]⟩

/-- A length is read as its number is, and refused behind it if it says more than what is left. -/
theorem length_cases (c : Cursor) :
    (∃ n used, used ≤ c.remaining ∧ Varint.Whole (c.rest.take used) n ∧
        (Reader.length c = .ok n (c.advance used) ∨
          Reader.length c = .error (.reject (.lengthOverflow n c.offset)) (c.advance used) ∧
            (c.advance used).remaining < n)) ∨
      ∃ e, Reader.length c = .error (.reject e) c ∧ Plain e := by
  rcases varint_cases c with ⟨v, used, hused, hread, hwhole⟩ | ⟨e, hread, he⟩
  · refine Or.inl ⟨v.toNat, used, hused, hwhole, ?_⟩
    rcases Nat.lt_or_ge (c.advance used).remaining v.toNat with hlarge | hfits
    · exact Or.inr ⟨Reader.length_of_lt hread hlarge, hlarge⟩
    · exact Or.inl (Reader.length_of_le hread hfits)
  · exact Or.inr ⟨e, Reader.length_of_error hread, he⟩

/-! ### One request -/

/-- How a request made at `c` may end, if it has moved past `used` bytes. -/
inductive Ends (r : Request) (c : Cursor) (used : Nat) : Prop
  | granted (v : r.Answer) (h : r.reader c = .ok v (c.advance used))
      (spells : r.Spells (c.rest.take used) v)
  | refused (e : DecodeError) (h : r.reader c = .error (.reject e) c) (still : used = 0)
      (plain : Plain e)
  | tooLong (n : Nat) (h : r = .length)
      (refused : r.reader c = .error (.reject (.lengthOverflow n c.offset)) (c.advance used))
      (whole : Varint.Whole (c.rest.take used) n) (large : (c.advance used).remaining < n)

theorem exists_ends (r : Request) (c : Cursor) : ∃ used ≤ c.remaining, r.Ends c used := by
  cases hwidth : r.width? with
  | some width =>
      by_cases hle : width ≤ c.remaining
      · obtain ⟨v, hread, hspells⟩ := exists_answer hwidth hle
        exact ⟨width, hle, .granted v hread hspells⟩
      · have hread := reader_of_short hwidth (Nat.lt_of_not_le hle)
        exact ⟨0, Nat.zero_le _, .refused _ hread rfl (by simp [Plain])⟩
  | none =>
      cases r with
      | varint =>
          rcases varint_cases c with ⟨v, used, hused, hread, hwhole⟩ | ⟨e, hread, he⟩
          · exact ⟨used, hused, .granted v hread hwhole⟩
          · exact ⟨0, Nat.zero_le _, .refused e hread rfl he⟩
      | length =>
          rcases length_cases c with
            ⟨n, used, hused, hwhole, hread | ⟨hread, hlarge⟩⟩ | ⟨e, hread, he⟩
          · exact ⟨used, hused, .granted n hread hwhole⟩
          · exact ⟨used, hused, .tooLong n rfl hread hwhole hlarge⟩
          · exact ⟨0, Nat.zero_le _, .refused e hread rfl he⟩
      | _ => cases hwidth

theorem Ends.left_eq {used : Nat} (h : r.Ends c used) : r.left c = c.advance used := by
  cases h with
  | granted v h _ => exact left_of_ok h
  | refused e h still _ =>
      rw [left_of_error h, still]
      rfl
  | tooLong n _ h _ _ => exact left_of_error h

/-! ### A row of requests -/

theorem within_left (h : c.Within data) : (r.left c).Within data := by
  obtain ⟨used, hused, hends⟩ := exists_ends r c
  rw [hends.left_eq]
  exact h.advance hused

theorem within_leftAll (rs : List Request) (h : c.Within data) : (leftAll rs c).Within data := by
  induction rs generalizing c with
  | nil => exact h
  | cons r rs ih => exact ih (within_left h)

/-- The bytes at a place in some data are those from its offset on. -/
theorem rest_of_within (h : c.Within data) :
    c.offset ≤ data.length ∧ c.rest = data.drop c.offset := by
  obtain ⟨n, hn, rfl⟩ := h
  simpa [Cursor.advance, Cursor.start] using hn

/--
**Reading keeps its place.**  Let some requests have been made of some data, in any order and
whatever became of them, and let another one be made.  The cursor does not move back, nor past the
end of the data, and what remains is what lies behind it.  If the request is granted, the bytes
that the cursor has moved past are just those that stand for the answer.  If it is refused, it is
refused for what the bytes say and the cursor has not moved, unless a length was asked for: one
that is more than what is left is refused when its number has been passed.  A request that knows how
many bytes it wants is refused just if there are fewer, and then it says where and how many are
missing.
-/
theorem requests_keep_place (data : List UInt8) (earlier : List Request) (r : Request) :
    let c := leftAll earlier (Cursor.start data)
    let c' := r.left c
    let passed := (data.take c'.offset).drop c.offset
    (c.offset ≤ c'.offset ∧ c'.offset ≤ data.length ∧ c'.remaining = data.length - c'.offset) ∧
      (∀ v d, r.reader c = .ok v d →
        d = c' ∧ r.Spells passed v ∧ c.remaining = c'.remaining + passed.length) ∧
      (∀ stop d, r.reader c = .error stop d →
        d = c' ∧ ∃ e, stop = .reject e ∧
          (c' = c ∧ (∀ n offset, e ≠ .lengthOverflow n offset) ∨
            r = .length ∧ ∃ n, e = .lengthOverflow n c.offset ∧ Varint.Whole passed n ∧
              c'.remaining < n)) ∧
      (∀ width, r.width? = some width →
        ((∃ stop d, r.reader c = .error stop d) ↔ c.remaining < width) ∧
          (c.remaining < width →
            r.reader c = .error (.reject (.unexpectedEnd c.offset (width - c.remaining))) c)) := by
  intro c c' passed
  have hwithin : c.Within data := within_leftAll earlier (Cursor.start_within data)
  obtain ⟨hoffset, hrest⟩ := rest_of_within hwithin
  obtain ⟨used, hused, hends⟩ := exists_ends r c
  have hleft : c' = c.advance used := hends.left_eq
  have hremaining : c.remaining = data.length - c.offset := by simp [Cursor.remaining, hrest]
  have hoffset' : c'.offset = c.offset + used := by rw [hleft, Cursor.advance]
  have hremaining' : c'.remaining = c.remaining - used := by
    simp [hleft, Cursor.remaining, Cursor.advance]
  have hpassed : passed = c.rest.take used := by
    show (data.take c'.offset).drop c.offset = c.rest.take used
    rw [List.drop_take, hoffset', Nat.add_sub_cancel_left, hrest]
  have hlength : passed.length = used := by
    rw [hpassed, List.length_take]
    exact Nat.min_eq_left hused
  refine ⟨⟨by omega, by omega, by omega⟩, ?_, ?_, ?_⟩
  · intro v d hread
    cases hends with
    | granted v' h spells =>
        cases h.symm.trans hread
        exact ⟨hleft.symm, hpassed ▸ spells, by omega⟩
    | refused e h _ _ => cases h.symm.trans hread
    | tooLong n _ h _ _ => cases h.symm.trans hread
  · intro stop d hread
    cases hends with
    | granted v h _ => cases h.symm.trans hread
    | refused e h still plain =>
        cases h.symm.trans hread
        have hstill : c' = c := left_of_error h
        exact ⟨hstill.symm, e, rfl, Or.inl ⟨hstill, plain⟩⟩
    | tooLong n hr h whole large =>
        cases h.symm.trans hread
        exact ⟨hleft.symm, _, rfl, Or.inr ⟨hr, n, rfl, hpassed ▸ whole, hleft ▸ large⟩⟩
  · intro width hwidth
    refine ⟨⟨?_, fun hlt => ⟨_, _, reader_of_short hwidth hlt⟩⟩, reader_of_short hwidth⟩
    rintro ⟨stop, d, hread⟩
    by_contra hle
    obtain ⟨v, hok, -⟩ := exists_answer hwidth (Nat.le_of_not_lt hle)
    cases hok.symm.trans hread

/-- A length of 300 is passed and refused, four bytes are refused where they are missing, and
reading goes on behind the number. -/
theorem requests_keep_place_refused :
    let data : List UInt8 := [0xac, 0x02, 0x07]
    let c : Cursor := ⟨2, [0x07]⟩
    leftAll [.length] (Cursor.start data) = c ∧ Varint.Whole [0xac, 0x02] 300 ∧
      leftAll [.length, .word32] (Cursor.start data) = c ∧
      word32.reader c = .error (.reject (.unexpectedEnd 2 3)) c ∧
      leftAll [.length, .word32, .byte] (Cursor.start data) = ⟨3, []⟩ ∧ byte.Spells [0x07] 7 := by
  intro data c
  have hlength : length.reader (Cursor.start data)
      = .error (.reject (.lengthOverflow 300 0)) c := rfl
  have hbyte : byte.reader c = .ok 7 ⟨3, []⟩ := rfl
  have hfirst : leftAll [.length] (Cursor.start data) = c := left_of_error hlength
  have hword : word32.reader c = .error (.reject (.unexpectedEnd 2 3)) c := by
    have hshort := ((requests_keep_place data [.length] .word32).2.2.2 4 rfl).2
    rw [hfirst] at hshort
    exact hshort (by decide)
  have hsecond : leftAll [.length, .word32] (Cursor.start data) = c := by
    show word32.left (leftAll [.length] (Cursor.start data)) = c
    rw [hfirst, left_of_error hword]
  refine ⟨hfirst, ?_, hsecond, hword, ?_, ?_⟩
  · obtain ⟨-, e, he, ⟨-, hplain⟩ | ⟨-, n, hn, hwhole, -⟩⟩ :=
      (requests_keep_place data [] .length).2.2.1 _ _ hlength
    · cases he
      exact absurd rfl (hplain 300 0)
    · cases he
      cases hn
      exact hwhole
  · show byte.left (leftAll [.length, .word32] (Cursor.start data)) = ⟨3, []⟩
    rw [hsecond, left_of_ok hbyte]
  · have hgranted := (requests_keep_place data [.length, .word32] .byte).2.1 7 ⟨3, []⟩
    rw [hsecond] at hgranted
    exact (hgranted hbyte).2.1

end Request

end Codegen
