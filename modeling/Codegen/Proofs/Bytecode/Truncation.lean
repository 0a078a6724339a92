/-
A container cut short is refused, and what follows a container does not matter.

Both are one property of readers, taken twice at the same place.  A reader that succeeds
has used some of the bytes in front of it.  `Needs` says that it needs just those: given
them it gives the same whatever follows, and given only the first few of them it runs out
of bytes.  A sequence of readers needs what its parts need, one after the other: up to a
cut in the second part the first reads as it did before, and at a cut in the first part
the second is never reached.  So it is enough to know the readers that all are made from.

A length in front of a block is compared with all that is left, so by itself it does not
need just its own bytes: more or fewer behind it can change its mind.  Together with its
block it does, and it never stands alone.
-/
import Codegen.Proofs.Bytecode.Grammar

namespace Codegen

/-- The errors of a reader that ran out of bytes. -/
def DecodeError.isShort : DecodeError → Bool
  | unexpectedEnd _ _ => true
  | lengthOverflow _ _ => true
  | _ => false

namespace Reader

variable {α β : Type}

/-- At `offset`, `read` gives `a` on the bytes `used`, whatever follows them, and runs out of bytes
if some at their end are missing. -/
structure Needs (read : Reader α) (offset : Nat) (used : List UInt8) (a : α) : Prop where
  full : ∀ rest, read ⟨offset, used ++ rest⟩ = .ok a ⟨offset + used.length, rest⟩
  short : ∀ n < used.length, ∃ e c, read ⟨offset, used.take n⟩ = .error (.reject e) c ∧ e.isShort

/-- Wherever `read` succeeds, it needs just the bytes it has used. -/
def Exact (read : Reader α) : Prop :=
  ∀ c a c', read c = .ok a c' → ∃ used, c.rest = used ++ c'.rest ∧ Needs read c.offset used a

/-- The cursor has moved past the bytes that were needed. -/
theorem Needs.offset_eq {read : Reader α} {c c' : Cursor} {used : List UInt8} {a : α}
    (h : Needs read c.offset used a) (hread : read c = .ok a c') (hrest : c.rest = used ++ c'.rest) :
    c'.offset = c.offset + used.length := by
  have hfull := h.full c'.rest
  rw [← hrest] at hfull
  have hcursor : c' = ⟨c.offset + used.length, c'.rest⟩ :=
    (EStateM.Result.ok.inj (hread.symm.trans hfull)).2
  rw [hcursor]

/-- Bytes that were used lie before the cursor instead of behind it. -/
theorem Exact.offset_add_remaining {read : Reader α} (h : Exact read) {c c' : Cursor} {a : α}
    (hread : read c = .ok a c') : c'.offset + c'.remaining = c.offset + c.remaining := by
  obtain ⟨used, hused, hneeds⟩ := h c a c' hread
  rw [hneeds.offset_eq hread hused, Cursor.remaining, Cursor.remaining, hused, List.length_append,
    Nat.add_assoc]

/-! ### Readers in sequence -/

namespace Exact

theorem reject (e : DecodeError) : Exact (Reader.reject e : Reader α) := by
  intro c a c' h
  cases h

/-- A reader that does not move and does not look at the bytes. -/
theorem of_still {read : Reader α} {f : Nat → Except (Stop DecodeError) α}
    (h : ∀ c, read c = ofExcept (f c.offset) c) : Exact read := by
  intro c a c' hread
  rw [h] at hread
  cases hf : f c.offset with
  | error e =>
      rw [hf] at hread
      cases hread
  | ok b =>
      rw [hf] at hread
      cases hread
      refine ⟨[], rfl, ?_, ?_⟩
      · intro rest
        rw [h]
        simp only [hf]
        rfl
      · intro n hn
        exact absurd hn (Nat.not_lt_zero n)

theorem pure (a : α) : Exact (Pure.pure a : Reader α) :=
  of_still (f := fun _ => .ok a) fun _ => rfl

theorem offset : Exact Reader.offset :=
  of_still (f := fun offset => .ok offset) fun _ => rfl

theorem ofExcept (outcome : Except (Stop DecodeError) α) : Exact (Reader.ofExcept outcome) :=
  of_still (f := fun _ => outcome) fun _ => rfl

theorem bind {x : Reader α} {f : α → Reader β} (hx : Exact x) (hf : ∀ a, Exact (f a)) :
    Exact (x >>= f) := by
  intro c b c'' h
  obtain ⟨a, c', hfirst, hsecond⟩ := of_bind_ok h
  obtain ⟨used, hused, hneeds⟩ := hx c a c' hfirst
  obtain ⟨used', hused', hneeds'⟩ := hf a c' b c'' hsecond
  rw [hneeds.offset_eq hfirst hused] at hneeds'
  refine ⟨used ++ used', by rw [hused, hused', List.append_assoc], ?_, ?_⟩
  · intro rest
    rw [List.append_assoc, bind_ok (hneeds.full (used' ++ rest)), hneeds'.full rest,
      List.length_append, Nat.add_assoc]
  · intro n hn
    by_cases hcut : n < used.length
    · -- The cut is in what the first reader needs.
      obtain ⟨e, c₁, herror, he⟩ := hneeds.short n hcut
      refine ⟨e, c₁, ?_, he⟩
      rw [List.take_append_of_le_length (Nat.le_of_lt hcut)]
      exact bind_error herror
    · have hn' : n - used.length < used'.length := by
        rw [List.length_append] at hn
        omega
      obtain ⟨e, c₁, herror, he⟩ := hneeds'.short (n - used.length) hn'
      refine ⟨e, c₁, ?_, he⟩
      rw [List.take_append, List.take_of_length_le (Nat.le_of_not_lt hcut),
        bind_ok (hneeds.full _)]
      exact herror

end Exact

/-! ### Readers of bytes -/

theorem exact_bytes (n : Nat) : Exact (bytes n) := by
  intro c bs c' h
  obtain ⟨rfl, hrest, -⟩ := of_bytes_ok h
  refine ⟨bs, hrest, reads_bytes bs c.offset, ?_⟩
  intro n hn
  have hlength : ((bs.take n).take bs.length).length ≠ bs.length := by
    rw [List.length_take, List.length_take]
    omega
  refine ⟨_, _, if_neg hlength, rfl⟩

theorem exact_varint : Exact varint := by
  intro c v c' h
  obtain ⟨used, hdecode, rfl⟩ := of_varint_ok h
  obtain ⟨groups, rest, hrest, rfl, hfull, hshort, -⟩ := Varint.of_decode_ok hdecode
  have hdrop : (c.advance groups.length).rest = rest := by
    rw [Cursor.advance, hrest]
    exact List.drop_left
  refine ⟨groups, by rw [hdrop, hrest], ?_, ?_⟩
  · intro rest'
    simp only [varint, hfull rest', Cursor.advance, List.drop_left]
  · intro n hn
    refine ⟨.unexpectedEnd (c.offset + (groups.take n).length) 1, ⟨c.offset, groups.take n⟩, ?_, rfl⟩
    simp only [varint, hshort n hn]
    rfl

/-- A length and its block: a cut in the block makes the length too large. -/
theorem exact_block : Exact block := by
  intro c data c' h
  obtain ⟨v, c₁, hvarint, hlength, hrest, -⟩ := of_block_ok h
  obtain ⟨used, hused, hneeds⟩ := exact_varint c v c₁ hvarint
  refine ⟨used ++ data, by rw [hused, hrest, List.append_assoc], ?_, ?_⟩
  · intro rest
    have hfits : v.toNat ≤ (data ++ rest).length := by
      rw [List.length_append]
      omega
    rw [List.append_assoc, block, bind_ok (length_of_le (hneeds.full (data ++ rest)) hfits), hlength,
      reads_bytes data, List.length_append, Nat.add_assoc]
  · intro n hn
    by_cases hcut : n < used.length
    · obtain ⟨e, c₂, herror, he⟩ := hneeds.short n hcut
      refine ⟨e, c₂, ?_, he⟩
      rw [List.take_append_of_le_length (Nat.le_of_lt hcut), block]
      exact bind_error (length_of_error herror)
    · have hlarge : (data.take (n - used.length)).length < v.toNat := by
        rw [List.length_append] at hn
        rw [List.length_take]
        omega
      refine ⟨.lengthOverflow v.toNat c.offset,
        ⟨c.offset + used.length, data.take (n - used.length)⟩, ?_, rfl⟩
      rw [List.take_append, List.take_of_length_le (Nat.le_of_not_lt hcut), block]
      exact bind_error (length_of_lt (hneeds.full _) hlarge)

theorem pervasive_exact : Pervasive fun _ read => Exact read where
  pure := Exact.pure
  reject := Exact.reject
  bind := Exact.bind
  offset := Exact.offset
  bytes := exact_bytes
  varint := exact_varint
  block := exact_block

end Reader

open Reader

/-! ### Containers -/

/-- Running a record does not look at bytes, whatever state it is run in. -/
theorem exact_run (count : Nat) :
    ∀ (m : Machine) (index : Nat), Exact (m.run index count) := by
  induction count with
  | zero =>
      intro m index
      exact Exact.pure m
  | succ count ih =>
      intro m index
      have hadvance : Exact (m.advance index) :=
        pervasive_exact.read.bind fun r => Exact.ofExcept _
      exact hadvance.bind fun next => ih next (index + 1)

theorem exact_container : Exact Container.read :=
  pervasive_exact.container fun count =>
    (exact_run count Machine.start 0).bind fun m => Exact.ofExcept m.finish

/--
**Containers end where they end.**  Where a container is read from the front of some bytes, cutting
the bytes off before its end is an error for want of bytes, wherever the cut is, and putting other
bytes behind its end changes nothing.
-/
theorem parse_take {data : List UInt8} {container : Container} {c : Cursor}
    (h : Container.read (Cursor.start data) = .ok container c) :
    (∀ n < c.offset, ∃ e, Container.parse (data.take n) = .error (.reject e) ∧ e.isShort) ∧
      ∀ trailing, Container.parse (data.take c.offset ++ trailing) = .ok container := by
  obtain ⟨used, hused, hneeds⟩ := exact_container _ _ _ h
  have hdata : data = used ++ c.rest := hused
  have hoffset : c.offset = used.length := by
    rw [hneeds.offset_eq h hused]
    exact Nat.zero_add used.length
  rw [hoffset, hdata]
  refine ⟨?_, ?_⟩
  · intro n hn
    obtain ⟨e, c', herror, he⟩ := hneeds.short n hn
    refine ⟨e, ?_, he⟩
    rw [List.take_append_of_le_length (Nat.le_of_lt hn)]
    unfold Container.parse
    rw [show Container.read (Cursor.start (used.take n)) = _ from herror]
  · intro trailing
    rw [List.take_left]
    unfold Container.parse
    rw [show Container.read (Cursor.start (used ++ trailing)) = _ from hneeds.full trailing]

/-- One entry in each pool, with a count in two bytes where one would do, and a byte left over. -/
theorem parse_take_sample :
    let data : List UInt8 :=
      [0x34, 0x12, 0x0d, 0xf0, 1, 0, 2, 0, 0x81, 0, 1, 1,
        1, 2, 0xaa, 0xbb,
        0, 0, 1, 0, 3, 1, 1, 5, 1, 1, 3, 2, 1,
        1, 0xee,
        0xff]
    let container : Container :=
      { major := 1
        minor := 2
        constants := [{ flags := ⟨1⟩, size := 2, data := [0xaa, 0xbb] }]
        functions :=
          [{ flags := 0x10000
             graph :=
               { nodes :=
                   #[{ opcode := .imm, type := .prim .u8, imms := [5] },
                     { opcode := .imm, type := .prim .u8, imms := [3] },
                     { opcode := .add, type := .prim .u8, operands := [0, 1] }]
                 root := some 2 } }]
        extra := [[0xee]]
        entrypoint := some 0 }
    Container.read (Cursor.start data) = .ok container ⟨31, [0xff]⟩ ∧
      (∀ n < 31, ∃ e, Container.parse (data.take n) = .error (.reject e) ∧ e.isShort) ∧
      ∀ trailing, Container.parse (data.take 31 ++ trailing) = .ok container := by
  intro data container
  have hread : Container.read (Cursor.start data) = .ok container ⟨31, [0xff]⟩ := by
    decide +kernel
  exact ⟨hread, parse_take hread⟩

end Codegen
