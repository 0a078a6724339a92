/-
What a reader makes of the bytes in front of it.

`Reads read bytes a` says that `read`, standing before `bytes`, gives `a` and stops
right behind them, at whatever offset it stands and whatever follows.  `Halts` is the
same for a refusal or a fault, without saying where the reader stops.  Quantifying over
the offset and over what follows is what makes the two compose: the bytes of a sequence
of readers are the bytes of each, one after the other, and no reader sees past its own.

The offset is the one thing a reader can look at that is not among its bytes, so a
reader that starts by asking for it is treated apart, in `Reads.offset_bind`.  A length
in front of a block is the other exception: it is compared with all that is left, so
only the block as a whole can be said to read its bytes.
-/
import Codegen.Bytecode.Cursor
import Codegen.Proofs.Numbers

namespace Codegen

namespace Reader

variable {α β : Type}

/-- What a reader does on given bytes can be computed and compared. -/
instance [DecidableEq α] : DecidableEq (EStateM.Result (Stop DecodeError) Cursor α)
  | .ok a c, .ok b d => decidable_of_iff (a = b ∧ c = d) (by rw [EStateM.Result.ok.injEq])
  | .error e c, .error f d => decidable_of_iff (e = f ∧ c = d) (by rw [EStateM.Result.error.injEq])
  | .ok _ _, .error _ _ => isFalse nofun
  | .error _ _, .ok _ _ => isFalse nofun

/-! ### Running one reader after another -/

theorem bind_ok {x : Reader α} {f : α → Reader β} {a : α} {c c' : Cursor} (h : x c = .ok a c') :
    (x >>= f) c = f a c' := by
  show EStateM.bind x f c = f a c'
  simp only [EStateM.bind, h]

theorem bind_error {x : Reader α} {f : α → Reader β} {e : Stop DecodeError} {c c' : Cursor}
    (h : x c = .error e c') : (x >>= f) c = .error e c' := by
  show EStateM.bind x f c = .error e c'
  simp only [EStateM.bind, h]

/-- A sequence that succeeds is a first part that succeeds and a second that does from there. -/
theorem of_bind_ok {x : Reader α} {f : α → Reader β} {b : β} {c c'' : Cursor}
    (h : (x >>= f) c = .ok b c'') : ∃ a c', x c = .ok a c' ∧ f a c' = .ok b c'' := by
  cases hx : x c with
  | ok a c' =>
      rw [bind_ok hx] at h
      exact ⟨a, c', rfl, h⟩
  | error e c' =>
      rw [bind_error hx] at h
      cases h

theorem pure_apply (a : α) (c : Cursor) : (pure a : Reader α) c = .ok a c := rfl

/-! ### The two outcomes -/

/-- Standing before `bytes`, `read` gives `a` and stops right behind them. -/
def Reads (read : Reader α) (bytes : List UInt8) (a : α) : Prop :=
  ∀ offset rest, read ⟨offset, bytes ++ rest⟩ = .ok a ⟨offset + bytes.length, rest⟩

/-- Standing before `bytes`, `read` gives no answer, for the reason `stop`. -/
def Halts (read : Reader α) (bytes : List UInt8) (stop : Stop DecodeError) : Prop :=
  ∀ offset rest, ∃ c, read ⟨offset, bytes ++ rest⟩ = .error stop c

/-- Standing before `bytes`, `read` ends as `outcome` says. -/
def Answers (read : Reader α) (bytes : List UInt8) : Except (Stop DecodeError) α → Prop
  | .ok a => Reads read bytes a
  | .error stop => Halts read bytes stop

/-- An outcome that is known already needs no bytes. -/
theorem answers_ofExcept (outcome : Except (Stop DecodeError) α) :
    Answers (ofExcept outcome) [] outcome := by
  cases outcome with
  | ok a => exact fun offset rest => rfl
  | error stop => exact fun offset rest => ⟨_, rfl⟩

namespace Reads

theorem pure (a : α) : Reads (Pure.pure a) [] a := by
  intro offset rest
  exact pure_apply a _

theorem bind {x : Reader α} {f : α → Reader β} {first second : List UInt8} {a : α} {b : β}
    (hx : Reads x first a) (hf : Reads (f a) second b) : Reads (x >>= f) (first ++ second) b := by
  intro offset rest
  rw [List.append_assoc, bind_ok (hx offset (second ++ rest)), hf, List.length_append,
    Nat.add_assoc]

/-- Reading one thing and deciding by it alone. -/
theorem bind_nil {x : Reader α} {f : α → Reader β} {bytes : List UInt8} {a : α} {b : β}
    (hx : Reads x bytes a) (hf : Reads (f a) [] b) : Reads (x >>= f) bytes b := by
  have h := hx.bind hf
  rwa [List.append_nil] at h

/-- Reading one thing and giving a function of it. -/
theorem map {x : Reader α} {bytes : List UInt8} {a : α} (hx : Reads x bytes a) (f : α → β) :
    Reads (do return f (← x)) bytes (f a) :=
  hx.bind_nil (pure (f a))

/-- A reader may ask where it stands, as long as its answer does not depend on it. -/
theorem offset_bind {f : Nat → Reader α} {bytes : List UInt8} {a : α}
    (h : ∀ start, Reads (f start) bytes a) : Reads (Reader.offset >>= f) bytes a := by
  intro offset rest
  rw [bind_ok (show Reader.offset ⟨offset, bytes ++ rest⟩ = .ok offset _ from rfl)]
  exact h offset offset rest

theorem bind_halts {x : Reader α} {f : α → Reader β} {first second : List UInt8} {a : α}
    {stop : Stop DecodeError} (hx : Reads x first a) (hf : Halts (f a) second stop) :
    Halts (x >>= f) (first ++ second) stop := by
  intro offset rest
  rw [List.append_assoc, bind_ok (hx offset (second ++ rest))]
  exact hf _ rest

theorem bind_answers {x : Reader α} {f : α → Reader β} {first second : List UInt8} {a : α}
    {outcome : Except (Stop DecodeError) β} (hx : Reads x first a)
    (hf : Answers (f a) second outcome) : Answers (x >>= f) (first ++ second) outcome := by
  cases outcome with
  | ok b => exact hx.bind hf
  | error stop => exact hx.bind_halts hf

end Reads

namespace Halts

theorem reject (e : DecodeError) : Halts (Reader.reject e : Reader α) [] (.reject e) :=
  fun _ _ => ⟨_, rfl⟩

/-- What comes after the bytes that a reader stops at is not read. -/
theorem append {x : Reader α} {bytes : List UInt8} {stop : Stop DecodeError}
    (hx : Halts x bytes stop) (later : List UInt8) : Halts x (bytes ++ later) stop := by
  intro offset rest
  rw [List.append_assoc]
  exact hx offset (later ++ rest)

theorem bind {x : Reader α} {bytes : List UInt8} {stop : Stop DecodeError}
    (hx : Halts x bytes stop) (f : α → Reader β) : Halts (x >>= f) bytes stop := by
  intro offset rest
  obtain ⟨c, hc⟩ := hx offset rest
  exact ⟨c, bind_error hc⟩

end Halts

/-- Giving a function of what was read does not change how the reader ends. -/
theorem Answers.map {x : Reader α} {f : α → Reader β} {h : α → β} {bytes : List UInt8}
    {outcome : Except (Stop DecodeError) α} (hx : Answers x bytes outcome)
    (hf : ∀ a, f a = pure (h a)) : Answers (x >>= f) bytes (outcome.map h) := by
  cases outcome with
  | ok a =>
      refine Reads.bind_nil hx ?_
      rw [hf a]
      exact Reads.pure (h a)
  | error stop => exact Halts.bind hx f

/-! ### Numbers -/

theorem reads_bytes (bs : List UInt8) : Reads (bytes bs.length) bs bs := by
  intro offset rest
  have htake : (bs ++ rest).take bs.length = bs := List.take_left
  have hdrop : (bs ++ rest).drop bs.length = rest := List.drop_left
  simp only [bytes, htake, if_pos, Cursor.advance, hdrop]

/-- The bytes of a number of fixed width, read as bytes. -/
theorem reads_bytes_ofNat (width n : Nat) :
    Reads (bytes width) (LittleEndian.ofNat width n) (LittleEndian.ofNat width n) := by
  have h := reads_bytes (LittleEndian.ofNat width n)
  rwa [LittleEndian.length_ofNat] at h

/-- Bytes that were read stood in front of the reader. -/
theorem of_bytes_ok {n : Nat} {bs : List UInt8} {c c' : Cursor} (h : bytes n c = .ok bs c') :
    bs.length = n ∧ c.rest = bs ++ c'.rest ∧ c'.offset = c.offset + n := by
  simp only [bytes] at h
  split at h
  · rename_i hlength
    cases h
    exact ⟨hlength, (List.take_append_drop n c.rest).symm, rfl⟩
  · cases h

theorem reads_byte (b : UInt8) : Reads byte [b] b := by
  have h := (reads_bytes [b]).map fun bs => UInt8.ofNat (LittleEndian.toNat bs)
  rwa [show UInt8.ofNat (LittleEndian.toNat [b]) = b by simp [LittleEndian.toNat]] at h

theorem reads_word16 (v : UInt16) : Reads word16 (LittleEndian.ofNat 2 v.toNat) v := by
  have hfits : v.toNat < 256 ^ 2 := v.toNat_lt
  have h := (reads_bytes_ofNat 2 v.toNat).map fun bs => UInt16.ofNat (LittleEndian.toNat bs)
  rwa [LittleEndian.toNat_ofNat_of_lt hfits, UInt16.ofNat_toNat] at h

theorem reads_word32 (v : UInt32) : Reads word32 (LittleEndian.ofNat 4 v.toNat) v := by
  have hfits : v.toNat < 256 ^ 4 := v.toNat_lt
  have h := (reads_bytes_ofNat 4 v.toNat).map fun bs => UInt32.ofNat (LittleEndian.toNat bs)
  rwa [LittleEndian.toNat_ofNat_of_lt hfits, UInt32.ofNat_toNat] at h

theorem uint_of_le {width : Nat} (hwidth : width ≤ 8) :
    uint width = do return UInt64.ofNat (LittleEndian.toNat (← bytes width)) :=
  if_neg (by omega)

/-- Up to eight bytes give back what of a number fits in them. -/
theorem reads_uint {width : Nat} (hwidth : width ≤ 8) (n : Nat) :
    Reads (uint width) (LittleEndian.ofNat width n) (UInt64.ofNat (n % 256 ^ width)) := by
  have h := (reads_bytes_ofNat width n).map fun bs => UInt64.ofNat (LittleEndian.toNat bs)
  rwa [LittleEndian.toNat_ofNat, ← uint_of_le hwidth] at h

/-- A number of fixed width is as small as its width says. -/
theorem of_uint_ok {width : Nat} {v : UInt64} {c c' : Cursor} (h : uint width c = .ok v c') :
    v.toNat < 256 ^ width := by
  by_cases hwidth : 8 < width
  · rw [show uint width = fun c => .error (.fault .outOfRange) c from if_pos hwidth] at h
    cases h
  · rw [uint_of_le (by omega)] at h
    obtain ⟨bs, c₁, hbytes, hv⟩ := of_bind_ok h
    obtain ⟨hlength, -, -⟩ := of_bytes_ok hbytes
    cases hv
    have hlt : LittleEndian.toNat bs < 256 ^ width := hlength ▸ LittleEndian.toNat_lt bs
    exact Nat.lt_of_le_of_lt (Nat.mod_le _ _) hlt

theorem reads_varint (v : UInt64) : Reads varint (Varint.encode v) v := by
  intro offset rest
  have hdrop : (Varint.encode v ++ rest).drop (Varint.encode v).length = rest := List.drop_left
  simp only [varint, Varint.decode_encode, Cursor.advance, hdrop]

/-- A number that was read stood in front of the reader. -/
theorem of_varint_ok {v : UInt64} {c c' : Cursor} (h : varint c = .ok v c') :
    ∃ used, Varint.decode c.rest = .ok (v, used) ∧ c' = c.advance used := by
  unfold varint at h
  split at h
  · next value used hdecode =>
      cases h
      exact ⟨used, hdecode, rfl⟩
  · cases h
  · cases h

/-! ### Lengths

How a length ends is decided by its number and by what is left behind the number. -/

section Length

variable {v : UInt64} {c c' : Cursor}

theorem length_of_error {e : Stop DecodeError} (h : varint c = .error e c') :
    length c = .error e c' := by
  unfold length
  rw [bind_ok (show Reader.offset c = .ok c.offset c from rfl)]
  exact bind_error h

theorem length_of_le (h : varint c = .ok v c') (hfits : v.toNat ≤ c'.remaining) :
    length c = .ok v.toNat c' := by
  unfold length
  rw [bind_ok (show Reader.offset c = .ok c.offset c from rfl), bind_ok h]
  show (if v.toNat ≤ c'.remaining then _ else _ : Reader Nat) c' = _
  rw [if_pos hfits]
  rfl

theorem length_of_lt (h : varint c = .ok v c') (hlarge : c'.remaining < v.toNat) :
    length c = .error (.reject (.lengthOverflow v.toNat c.offset)) c' := by
  unfold length
  rw [bind_ok (show Reader.offset c = .ok c.offset c from rfl), bind_ok h]
  show (if v.toNat ≤ c'.remaining then _ else _ : Reader Nat) c' = _
  rw [if_neg (Nat.not_le_of_lt hlarge)]
  rfl

theorem of_length_ok {n : Nat} (h : length c = .ok n c') :
    ∃ v, varint c = .ok v c' ∧ v.toNat = n ∧ n ≤ c'.remaining := by
  cases hvarint : varint c with
  | error e c₁ =>
      rw [length_of_error hvarint] at h
      cases h
  | ok v c₁ =>
      rcases Nat.lt_or_ge c₁.remaining v.toNat with hlarge | hfits
      · rw [length_of_lt hvarint hlarge] at h
        cases h
      · rw [length_of_le hvarint hfits] at h
        cases h
        exact ⟨v, rfl, rfl, hfits⟩

end Length

/-- A block that was read stood behind its length. -/
theorem of_block_ok {data : List UInt8} {c c' : Cursor} (h : block c = .ok data c') :
    ∃ v c₁, varint c = .ok v c₁ ∧ v.toNat = data.length ∧ c₁.rest = data ++ c'.rest ∧
      c'.offset = c₁.offset + data.length := by
  obtain ⟨n, c₁, hlength, hbytes⟩ := of_bind_ok h
  obtain ⟨v, hvarint, rfl, -⟩ := of_length_ok hlength
  obtain ⟨hdata, hrest, hoffset⟩ := of_bytes_ok hbytes
  exact ⟨v, c₁, hvarint, hdata.symm, hrest, by rw [hoffset, hdata]⟩

/-! ### Sequences -/

/-- A block is read back if its length can be written. -/
theorem reads_block {data : List UInt8} (hlength : data.length < 2 ^ 64) :
    Reads block (Varint.encode (UInt64.ofNat data.length) ++ data) data := by
  intro offset rest
  have hvalue : (UInt64.ofNat data.length).toNat = data.length :=
    UInt64.toNat_ofNat_of_lt' hlength
  -- The length is compared with everything that follows, which is at least the block.
  have hfits : (UInt64.ofNat data.length).toNat ≤ (data ++ rest).length := by
    rw [hvalue]
    simp
  rw [List.append_assoc, block, bind_ok (length_of_le (reads_varint _ _ _) hfits), hvalue,
    reads_bytes data, List.length_append, Nat.add_assoc]

/-- Items written one after the other are read back one after the other. -/
theorem reads_many {ι : Type} {item : Reader α} {encode : ι → List UInt8} {value : ι → α}
    (xs : List ι) (h : ∀ x ∈ xs, Reads item (encode x) (value x)) :
    Reads (many item xs.length) (xs.flatMap encode) (xs.map value) := by
  induction xs with
  | nil => exact Reads.pure []
  | cons x xs ih =>
      have hhead : Reads item (encode x) (value x) := h x List.mem_cons_self
      have htail := ih fun y hy => h y (List.mem_cons_of_mem x hy)
      rw [List.flatMap_cons]
      exact hhead.bind (htail.map fun tail => value x :: tail)

end Reader

end Codegen
