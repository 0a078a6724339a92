/-
A container is read back as it was written.

Nothing in a container says where an entry ends, so the pools line up only because each
entry is read up to exactly the byte where it was written to.  `Reads` states that for
constants, functions and blocks, and the container is their sequence.

The functions need more than their bytes: a second entry point is an error as soon as
its function has been read.  What decides is the list of flagged positions, those of the
functions still to come behind the one already found.  Reading a function moves at most
one position from the second part to the first, which is the invariant of the pool.

Counts and lengths are written as 64-bit numbers.  A sequence of bytes that fits in
memory is shorter than that, and everything counted takes a byte of it, so the only
assumption on sizes is on the container as a whole.
-/
import Mathlib.Data.List.Forall2
import Codegen.Proofs.Bytecode.Decoding

namespace Codegen

open Reader

/-! ### What is expected -/

/-- The constant that is read where a draft was written. -/
def ConstantDraft.stored : ConstantDraft → Constant
  | .data flags bytes =>
    { flags := ⟨flags &&& ~~~ConstantFlags.reserveOnly⟩
      size := UInt64.ofNat bytes.length
      data := bytes }
  | .reserve flags size =>
    { flags := ⟨flags ||| ConstantFlags.reserveOnly⟩, size, data := [] }

/-- Pieces that are records, and regular ones. -/
def Piece.isRegular : Piece → Bool
  | .record r => r.isRegular
  | .raw _ => false

namespace FunctionDraft

/-- The graph that a function's body stands for when it is read alone. -/
def graph? (f : FunctionDraft) : Option IrGraph :=
  match decodeFunction f.recordCount (Cursor.start f.body) with
  | .ok g _ => some g
  | .error _ _ => none

/-- The function that is read where a draft was written. -/
def function? (f : FunctionDraft) : Option Function :=
  f.graph?.map fun graph => { flags := f.flags, graph }

/-- Bit 16 of the flags is set. -/
def isFlagged (f : FunctionDraft) : Bool := f.flags.toNat.testBit 16

/-- The positions of the flagged functions, the first function having number `index`. -/
def flaggedFrom (index : Nat) : List FunctionDraft → List Nat
  | [] => []
  | f :: later =>
    if f.isFlagged then index :: flaggedFrom (index + 1) later else flaggedFrom (index + 1) later

end FunctionDraft

namespace Item

def constant? : Item → Option ConstantDraft
  | .constant c => some c
  | _ => none

def function? : Item → Option FunctionDraft
  | .function f => some f
  | _ => none

def extra? : Item → Option (List UInt8)
  | .extra bytes => some bytes
  | _ => none

end Item

/-- Items go to the end of their pools, so every pool keeps the order of the calls. -/
theorem Draft.addAll_eq (items : List Item) :
    ∀ d : Draft, d.addAll items =
      { d with
        constants := d.constants ++ items.filterMap Item.constant?
        functions := d.functions ++ items.filterMap Item.function?
        extra := d.extra ++ items.filterMap Item.extra? } := by
  induction items with
  | nil =>
      intro d
      simp [addAll]
  | cons item items ih =>
      intro d
      have hstep : d.addAll (item :: items) = (d.add item).addAll items := rfl
      rw [hstep, ih]
      cases item with
      | constant c => simp [add, Item.constant?, Item.function?, Item.extra?, List.filterMap_cons]
      | function f => simp [add, Item.constant?, Item.function?, Item.extra?, List.filterMap_cons]
      | extra bytes => simp [add, Item.constant?, Item.function?, Item.extra?, List.filterMap_cons]

/-! ### Constants and blocks -/

theorem contains_cleared (flags mask : UInt8) (hmask : mask ≠ 0) :
    (ConstantFlags.mk (flags &&& ~~~mask)).contains mask = false := by
  have hzero : flags &&& ~~~mask &&& mask = 0 := by
    rw [UInt8.and_assoc, UInt8.and_comm (~~~mask), UInt8.and_not_self, UInt8.and_zero]
  rw [ConstantFlags.contains, hzero]
  exact beq_eq_false_iff_ne.mpr hmask.symm

theorem contains_set (flags mask : UInt8) :
    (ConstantFlags.mk (flags ||| mask)).contains mask = true := by
  have hmask : (flags ||| mask) &&& mask = mask := by
    refine UInt8.toBitVec_inj.mp (BitVec.eq_of_getElem_eq fun i hi => ?_)
    rw [UInt8.toBitVec_and, UInt8.toBitVec_or, BitVec.getElem_and, BitVec.getElem_or]
    cases mask.toBitVec[i] with
    | false => exact Bool.and_false _
    | true => rw [Bool.or_true, Bool.and_true]
  rw [ConstantFlags.contains, hmask]
  exact beq_self_eq_true mask

/-- The length of a constant's bytes can be written. -/
def ConstantDraft.Fits : ConstantDraft → Prop
  | .data _ bytes => bytes.length < 2 ^ 64
  | .reserve _ _ => True

theorem ConstantDraft.fits_of_length {c : ConstantDraft} (hlength : c.encode.length < 2 ^ 64) :
    c.Fits := by
  cases c with
  | data flags bytes =>
      simp only [encode, encodeBlock, List.length_cons, List.length_append] at hlength
      show bytes.length < 2 ^ 64
      omega
  | reserve flags size => exact trivial

theorem reads_constant {c : ConstantDraft} (hfits : c.Fits) :
    Reads Constant.read c.encode c.stored := by
  cases c with
  | data flags bytes =>
      have hclear := contains_cleared flags ConstantFlags.reserveOnly (by decide)
      refine (reads_byte (flags &&& ~~~ConstantFlags.reserveOnly)).bind ?_
      simp only [hclear, Bool.false_eq_true, if_false]
      exact (reads_block hfits).map fun data =>
        Constant.mk ⟨flags &&& ~~~ConstantFlags.reserveOnly⟩ (UInt64.ofNat data.length) data
  | reserve flags size =>
      have hset := contains_set flags ConstantFlags.reserveOnly
      refine (reads_byte (flags ||| ConstantFlags.reserveOnly)).bind ?_
      simp only [hset, if_true]
      exact (reads_varint size).map fun size =>
        Constant.mk ⟨flags ||| ConstantFlags.reserveOnly⟩ size []

/-! ### Functions -/

/-- A function of regular pieces is one that was written record by record. -/
theorem FunctionDraft.eq_ofRecords {f : FunctionDraft} (h : ∀ p ∈ f.pieces, p.isRegular) :
    ∃ records, (∀ r ∈ records, r.isRegular) ∧ f = FunctionDraft.ofRecords f.flags records := by
  obtain ⟨flags, pieces⟩ := f
  suffices hall : ∃ records : List Record,
      (∀ r ∈ records, r.isRegular) ∧ pieces = records.map .record by
    obtain ⟨records, hregular, rfl⟩ := hall
    exact ⟨records, hregular, rfl⟩
  simp only at h
  induction pieces with
  | nil => exact ⟨[], by simp, rfl⟩
  | cons p pieces ih =>
      obtain ⟨records, hregular, hpieces⟩ := ih fun q hq => h q (List.mem_cons_of_mem p hq)
      have hp := h p List.mem_cons_self
      cases p with
      | raw bytes => cases hp
      | record r =>
          refine ⟨r :: records, ?_, by rw [hpieces]; rfl⟩
          intro r' hr'
          rcases List.mem_cons.mp hr' with rfl | hmem
          · exact hp
          · exact hregular r' hmem

/-- What a body decodes to alone it decodes to anywhere, and nothing behind it is read. -/
theorem reads_decodeFunction {f : FunctionDraft} {g : IrGraph}
    (hregular : ∀ p ∈ f.pieces, p.isRegular) (hg : f.graph? = some g) :
    Reads (decodeFunction f.recordCount) f.body g := by
  obtain ⟨records, hrecords, hf⟩ := FunctionDraft.eq_ofRecords hregular
  have hanswers := Assembly.answers_decodeFunction hrecords
  rw [hf] at hg ⊢
  simp only [FunctionDraft.graph?, FunctionDraft.recordCount_ofRecords,
    FunctionDraft.body_ofRecords, Cursor.start] at hg ⊢
  cases hend : Assembly.ofRecords records with
  | error stop =>
      rw [hend] at hanswers
      obtain ⟨c, hc⟩ := hanswers 0 []
      rw [List.append_nil] at hc
      rw [hc] at hg
      cases hg
  | ok g' =>
      rw [hend] at hanswers
      have halone := hanswers 0 []
      rw [List.append_nil] at halone
      rw [halone] at hg
      cases hg
      exact hanswers

/-- Every record takes a byte. -/
theorem Record.length_encode_pos (r : Record) : 0 < r.encode.length := by
  cases r with
  | imm type value =>
      have := Varint.length_encode_pos immKind
      simp only [encode, List.length_append]
      omega
  | binary op type =>
      have := Varint.length_encode_pos (UInt64.ofNat op.raw)
      simp only [encode, List.length_append]
      omega
  | ref id =>
      have := Varint.length_encode_pos refKind
      simp only [encode, List.length_append]
      omega
  | chain => exact Varint.length_encode_pos chainKind

/-- What is written for one of several things is no longer than what is written for all. -/
theorem length_le_flatMap_of_mem {ι : Type} (encode : ι → List UInt8) {x : ι} {xs : List ι}
    (hx : x ∈ xs) : (encode x).length ≤ (xs.flatMap encode).length := by
  induction xs with
  | nil => cases hx
  | cons y ys ih =>
      rw [List.flatMap_cons, List.length_append]
      rcases List.mem_cons.mp hx with rfl | hmem
      · omega
      · have := ih hmem
        omega

/-- Things that take a byte each are no more than the bytes they take. -/
theorem length_le_flatMap {ι : Type} (encode : ι → List UInt8) (xs : List ι)
    (h : ∀ x ∈ xs, 0 < (encode x).length) : xs.length ≤ (xs.flatMap encode).length := by
  induction xs with
  | nil => exact Nat.le_refl _
  | cons x xs ih =>
      have hhead := h x List.mem_cons_self
      have htail := ih fun y hy => h y (List.mem_cons_of_mem x hy)
      rw [List.flatMap_cons, List.length_append, List.length_cons]
      omega

theorem FunctionDraft.recordCount_le {f : FunctionDraft}
    (hregular : ∀ p ∈ f.pieces, p.isRegular) : f.recordCount ≤ f.body.length := by
  refine length_le_flatMap Piece.encode f.pieces fun p hp => ?_
  have hp' := hregular p hp
  cases p with
  | raw bytes => cases hp'
  | record r => exact r.length_encode_pos

/-- What has to hold of a function for it to be read back. -/
structure FunctionDraft.Good (f : FunctionDraft) (fn : Function) : Prop where
  regular : ∀ p ∈ f.pieces, p.isRegular
  decodes : f.function? = some fn
  count : f.recordCount < 2 ^ 64

theorem reads_function {f : FunctionDraft} {fn : Function} (h : f.Good fn) :
    Reads Function.read f.encode fn := by
  obtain ⟨g, hg, rfl⟩ := Option.map_eq_some_iff.mp h.decodes
  have hcount : (UInt64.ofNat f.recordCount).toNat = f.recordCount :=
    UInt64.toNat_ofNat_of_lt' h.count
  have hheader : Reads Function.readHeader
      (LittleEndian.ofNat 4 f.flags.toNat ++ Varint.encode (UInt64.ofNat f.recordCount))
      (f.flags, f.recordCount) := by
    have hvarint := (reads_varint (UInt64.ofNat f.recordCount)).map fun count =>
      (f.flags, count.toNat)
    rw [hcount] at hvarint
    exact (reads_word32 f.flags).bind hvarint
  exact hheader.bind ((reads_decodeFunction h.regular hg).map fun graph =>
    Function.mk f.flags graph)

/-! ### Entry points -/

theorem isEntrypoint_eq_testBit (fn : Function) :
    fn.isEntrypoint = fn.flags.toNat.testBit 16 := by
  have hand : (fn.flags &&& entrypointFlag).toNat = fn.flags.toNat &&& 2 ^ 16 :=
    UInt32.toNat_and ..
  unfold Function.isEntrypoint
  cases hbit : fn.flags.toNat.testBit 16 with
  | true =>
      refine bne_iff_ne.mpr fun hzero => ?_
      have hbit' : (fn.flags.toNat &&& 2 ^ 16).testBit 16 = true := by
        rw [Nat.testBit_and, hbit, Nat.testBit_two_pow_self]
        rfl
      rw [← hand, hzero] at hbit'
      simp at hbit'
  | false =>
      have hnat : fn.flags.toNat &&& 2 ^ 16 = 0 := by
        refine Nat.eq_of_testBit_eq fun i => ?_
        rw [Nat.testBit_and, Nat.testBit_two_pow, Nat.zero_testBit]
        by_cases hi : 16 = i
        · rw [← hi, hbit]
          rfl
        · rw [decide_eq_false hi, Bool.and_false]
      have hzero : fn.flags &&& entrypointFlag = 0 := UInt32.toNat_inj.mp (hand.trans hnat)
      rw [hzero]
      rfl

/-- The entry point that the flagged positions give: none, the only one, or an error. -/
def entryOf : List Nat → Except DecodeError (Option Nat)
  | [] => .ok none
  | [index] => .ok (some index)
  | first :: index :: _ => .error (.duplicateEntrypoint first index)

theorem entryOf_of_length_le {flagged : List Nat} (h : flagged.length ≤ 1) :
    entryOf flagged = .ok flagged.head? := by
  rcases flagged with _ | ⟨index, _ | ⟨later, rest⟩⟩
  · rfl
  · rfl
  · simp at h

theorem answers_readPool {fs : List FunctionDraft} {fns : List Function}
    (h : List.Forall₂ FunctionDraft.Good fs fns) :
    ∀ (index : Nat) (entry : Option Nat),
      Answers (Function.readPool index entry fs.length) (fs.flatMap FunctionDraft.encode)
        (Stop.ofReject
          ((entryOf (entry.toList ++ FunctionDraft.flaggedFrom index fs)).map fun e =>
            (fns, e))) := by
  induction h with
  | nil =>
      intro index entry
      cases entry with
      | none => exact Reads.pure _
      | some first => exact Reads.pure _
  | @cons f fn fs fns hf _ ih =>
      intro index entry
      have hflag : fn.isEntrypoint = f.isFlagged := by
        obtain ⟨g, -, rfl⟩ := Option.map_eq_some_iff.mp hf.decodes
        exact isEntrypoint_eq_testBit _
      -- What the pool does with the rest, once the entry point is settled.
      have hrest : ∀ entry : Option Nat,
          Answers
            (Function.readPool (index + 1) entry fs.length >>= fun later =>
              pure (fn :: later.1, later.2))
            (fs.flatMap FunctionDraft.encode)
            (Stop.ofReject
              ((entryOf (entry.toList ++ FunctionDraft.flaggedFrom (index + 1) fs)).map fun e =>
                (fn :: fns, e))) := by
        intro entry
        have hmap := (ih (index + 1) entry).map (h := fun later => (fn :: later.1, later.2))
          (f := fun later => pure (fn :: later.1, later.2)) fun _ => rfl
        cases hentry : entryOf (entry.toList ++ FunctionDraft.flaggedFrom (index + 1) fs) with
        | ok e => rwa [hentry] at hmap
        | error e => rwa [hentry] at hmap
      rw [List.flatMap_cons, List.length_cons]
      refine (reads_function hf).bind_answers ?_
      unfold Function.registerEntry
      rw [hflag, FunctionDraft.flaggedFrom]
      by_cases hflagged : f.isFlagged
      · simp only [hflagged, if_true]
        cases entry with
        | none => exact (Reads.pure (some index)).bind_answers (hrest (some index))
        | some first => exact ((Halts.reject _).bind _).append _
      · simp only [hflagged, Bool.false_eq_true, if_false]
        exact (Reads.pure entry).bind_answers (hrest entry)

/-! ### The container -/

theorem reads_header (major minor : UInt16) (constantCount functionCount extraCount : UInt64) :
    Reads Header.read
      (LittleEndian.ofNat 4 magic ++ (LittleEndian.ofNat 2 major.toNat ++
        (LittleEndian.ofNat 2 minor.toNat ++ (Varint.encode constantCount ++
          (Varint.encode functionCount ++ Varint.encode extraCount)))))
      { major, minor, constantCount, functionCount, extraCount } := by
  have hmagic : (UInt32.ofNat magic).toNat = magic := rfl
  have hfirst : Reads word32 (LittleEndian.ofNat 4 magic) (UInt32.ofNat magic) := by
    have h := reads_word32 (UInt32.ofNat magic)
    rwa [hmagic] at h
  refine hfirst.bind ?_
  simp only [hmagic, ne_eq, not_true, if_false]
  refine (reads_word16 major).bind ((reads_word16 minor).bind ?_)
  refine (reads_varint constantCount).bind ((reads_varint functionCount).bind ?_)
  exact (reads_varint extraCount).map fun extraCount =>
    Header.mk major minor constantCount functionCount extraCount

/-- The sizes of the pools, and what is written for each of them, are bounded by the whole. -/
theorem Draft.lengths_le (d : Draft) :
    d.constants.length ≤ d.encode.length ∧ d.functions.length ≤ d.encode.length ∧
      d.extra.length ≤ d.encode.length ∧
      (∀ c ∈ d.constants, c.encode.length ≤ d.encode.length) ∧
      (∀ f ∈ d.functions, f.encode.length ≤ d.encode.length) ∧
      ∀ bytes ∈ d.extra, (encodeBlock bytes).length ≤ d.encode.length := by
  have hconstants := length_le_flatMap ConstantDraft.encode d.constants fun c _ => by
    cases c <;> simp [ConstantDraft.encode]
  have hfunctions := length_le_flatMap FunctionDraft.encode d.functions fun f _ => by
    simp only [FunctionDraft.encode, List.length_append, LittleEndian.length_ofNat]
    omega
  have hextra := length_le_flatMap encodeBlock d.extra fun bytes _ => by
    have := Varint.length_encode_pos (UInt64.ofNat bytes.length)
    simp only [encodeBlock, List.length_append]
    omega
  have hencode : (d.constants.flatMap ConstantDraft.encode).length
      + (d.functions.flatMap FunctionDraft.encode).length
      + (d.extra.flatMap encodeBlock).length ≤ d.encode.length := by
    simp only [encode, List.length_append]
    omega
  refine ⟨by omega, by omega, by omega, fun c hc => ?_, fun f hf => ?_, fun bytes hbytes => ?_⟩
  · have := length_le_flatMap_of_mem ConstantDraft.encode hc
    omega
  · have := length_le_flatMap_of_mem FunctionDraft.encode hf
    omega
  · have := length_le_flatMap_of_mem encodeBlock hbytes
    omega

/-- The sizes of the pools, and the lengths of what has a length in front, can be written. -/
structure Draft.Fits (d : Draft) : Prop where
  constantCount : d.constants.length < 2 ^ 64
  functionCount : d.functions.length < 2 ^ 64
  extraCount : d.extra.length < 2 ^ 64
  constants : ∀ c ∈ d.constants, c.Fits
  extra : ∀ bytes ∈ d.extra, bytes.length < 2 ^ 64

theorem Draft.fits_of_length {d : Draft} (hlength : d.encode.length < 2 ^ 64) : d.Fits := by
  obtain ⟨hconstants, hfunctions, hextra, hconstant, -, hblock⟩ := d.lengths_le
  refine ⟨Nat.lt_of_le_of_lt hconstants hlength, Nat.lt_of_le_of_lt hfunctions hlength,
    Nat.lt_of_le_of_lt hextra hlength, fun c hc => ?_, fun bytes hbytes => ?_⟩
  · exact ConstantDraft.fits_of_length (Nat.lt_of_le_of_lt (hconstant c hc) hlength)
  · have hle := hblock bytes hbytes
    rw [encodeBlock, List.length_append] at hle
    omega

/-- A container whose functions are good is read back, up to the question of its entry point. -/
theorem answers_of_fits {d : Draft} {fns : List Function} (hfits : d.Fits)
    (hgood : List.Forall₂ FunctionDraft.Good d.functions fns) :
    Answers Container.read d.encode
      (Stop.ofReject
        ((entryOf (FunctionDraft.flaggedFrom 0 d.functions)).map fun entrypoint =>
          { major := d.major
            minor := d.minor
            constants := d.constants.map ConstantDraft.stored
            functions := fns
            extra := d.extra
            entrypoint })) := by
  have hreadConstants : Reads (many Constant.read d.constants.length)
      (d.constants.flatMap ConstantDraft.encode) (d.constants.map ConstantDraft.stored) :=
    reads_many _ fun c hc => reads_constant (hfits.constants c hc)
  have hreadExtra : Reads (many block d.extra.length) (d.extra.flatMap encodeBlock)
      (d.extra.map id) :=
    reads_many _ fun bytes hbytes => reads_block (hfits.extra bytes hbytes)
  have hpool := answers_readPool hgood 0 none
  have hparts : d.encode
      = (LittleEndian.ofNat 4 magic ++ (LittleEndian.ofNat 2 d.major.toNat ++
          (LittleEndian.ofNat 2 d.minor.toNat ++
            (Varint.encode (UInt64.ofNat d.constants.length) ++
              (Varint.encode (UInt64.ofNat d.functions.length) ++
                Varint.encode (UInt64.ofNat d.extra.length)))))) ++
        (d.constants.flatMap ConstantDraft.encode ++
          (d.functions.flatMap FunctionDraft.encode ++ d.extra.flatMap encodeBlock)) := by
    simp only [Draft.encode, List.append_assoc]
  rw [hparts]
  refine (reads_header d.major d.minor _ _ _).bind_answers ?_
  simp only [UInt64.toNat_ofNat_of_lt' hfits.constantCount,
    UInt64.toNat_ofNat_of_lt' hfits.functionCount, UInt64.toNat_ofNat_of_lt' hfits.extraCount]
  refine hreadConstants.bind_answers ?_
  rw [Option.toList_none, List.nil_append] at hpool
  cases hentry : entryOf (FunctionDraft.flaggedFrom 0 d.functions) with
  | error e =>
      rw [hentry] at hpool
      exact (Halts.bind hpool _).append _
  | ok entrypoint =>
      rw [hentry] at hpool
      rw [List.map_id] at hreadExtra
      exact Reads.bind hpool (hreadExtra.map fun extra =>
        Container.mk d.major d.minor (d.constants.map ConstantDraft.stored) fns extra entrypoint)

theorem answers_container {d : Draft} {fns : List Function} (hlength : d.encode.length < 2 ^ 64)
    (hgood : List.Forall₂ FunctionDraft.Good d.functions fns) :
    Answers Container.read d.encode
      (Stop.ofReject
        ((entryOf (FunctionDraft.flaggedFrom 0 d.functions)).map fun entrypoint =>
          { major := d.major
            minor := d.minor
            constants := d.constants.map ConstantDraft.stored
            functions := fns
            extra := d.extra
            entrypoint })) :=
  answers_of_fits (Draft.fits_of_length hlength) hgood

/-- How a container is read is how a sequence of bytes that starts with it is parsed. -/
theorem parse_of_answers {bytes : List UInt8} {outcome : Except (Stop DecodeError) Container}
    (h : Answers Container.read bytes outcome) (trailing : List UInt8) :
    Container.parse (bytes ++ trailing) = outcome := by
  unfold Container.parse Cursor.start
  cases outcome with
  | ok container => rw [h 0 trailing]
  | error stop =>
      obtain ⟨c, hc⟩ := h 0 trailing
      rw [hc]

/-- Functions that decode on their own are good, and none is left out. -/
theorem forall₂_good {fs : List FunctionDraft}
    (hregular : ∀ f ∈ fs, (∀ p ∈ f.pieces, p.isRegular) ∧ f.graph?.isSome)
    (hlength : ∀ f ∈ fs, f.encode.length < 2 ^ 64) :
    List.Forall₂ FunctionDraft.Good fs (fs.filterMap FunctionDraft.function?) := by
  induction fs with
  | nil => exact List.Forall₂.nil
  | cons f fs ih =>
      have htail := ih (fun g hg => hregular g (List.mem_cons_of_mem f hg))
        fun g hg => hlength g (List.mem_cons_of_mem f hg)
      obtain ⟨hpieces, hgraph⟩ := hregular f List.mem_cons_self
      obtain ⟨g, hg⟩ := Option.isSome_iff_exists.mp hgraph
      have hfunction : f.function? = some { flags := f.flags, graph := g } := by
        rw [FunctionDraft.function?, hg]
        rfl
      have hcount : f.recordCount < 2 ^ 64 := by
        have hle := FunctionDraft.recordCount_le hpieces
        have hlt := hlength f List.mem_cons_self
        simp only [FunctionDraft.encode, List.length_append] at hlt
        omega
      rw [List.filterMap_cons_some hfunction]
      exact List.Forall₂.cons ⟨hpieces, hfunction, hcount⟩ htail

/--
**Containers survive the round trip.**  Items added in any order to an empty draft, with
functions that are written from regular records and decode on their own, are read back in
the order of the calls, whatever bytes follow the container.  The entry point is the
flagged function; a second one is the error, which names the first two.

The one assumption on sizes is that the bytes can be addressed with 64 bits, as every
sequence of bytes in memory can.
-/
theorem parse_encode (major minor : UInt16) (items : List Item) (trailing : List UInt8)
    (hfunctions : ∀ f, .function f ∈ items →
      (∀ p ∈ f.pieces, p.isRegular) ∧ f.graph?.isSome)
    (hlength : (Draft.addAll { major, minor } items).encode.length < 2 ^ 64) :
    let parsed := Container.parse ((Draft.addAll { major, minor } items).encode ++ trailing)
    let functions := items.filterMap Item.function?
    let flagged := FunctionDraft.flaggedFrom 0 functions
    (flagged.length ≤ 1 → parsed = .ok
      { major
        minor
        constants := (items.filterMap Item.constant?).map ConstantDraft.stored
        functions := functions.filterMap FunctionDraft.function?
        extra := items.filterMap Item.extra?
        entrypoint := flagged.head? }) ∧
    ∀ first second later, flagged = first :: second :: later →
      parsed = .error (.reject (.duplicateEntrypoint first second)) := by
  have hdraft := Draft.addAll_eq items { major, minor }
  simp only [List.nil_append] at hdraft
  rw [hdraft] at hlength ⊢
  intro parsed functions flagged
  have hgood : List.Forall₂ FunctionDraft.Good functions
      (functions.filterMap FunctionDraft.function?) := by
    refine forall₂_good (fun f hf => ?_) fun f hf => ?_
    · obtain ⟨item, hitem, hf⟩ := List.mem_filterMap.mp hf
      cases item with
      | constant c => cases hf
      | extra bytes => cases hf
      | function f' =>
          cases hf
          exact hfunctions f hitem
    · obtain ⟨-, -, -, -, hle, -⟩ := Draft.lengths_le ⟨major, minor, _, functions, _⟩
      exact Nat.lt_of_le_of_lt (hle f hf) hlength
  have hparsed := parse_of_answers (answers_container hlength hgood) trailing
  change parsed = Stop.ofReject ((entryOf flagged).map _) at hparsed
  refine ⟨fun hone => ?_, fun first second later htwo => ?_⟩
  · rw [hparsed, entryOf_of_length_le hone]
    rfl
  · rw [hparsed, htwo]
    rfl

/-- Calls out of order, with one entry point and with two. -/
theorem parse_encode_mixed :
    let shared := FunctionDraft.ofRecords 0x10001
      [.imm .u8 300, .imm .u16 7, .ref 0, .binary .sub .u8, .chain]
    let plain := FunctionDraft.ofRecords 2 [.imm .bool 1]
    let once : List Item :=
      [.extra [1, 2], .function plain, .constant (.data 0xff [9]), .function shared,
        .constant (.reserve 1 5000)]
    let twice : List Item := once ++ [.function shared]
    Container.parse ((Draft.addAll { major := 1, minor := 2 } once).encode ++ [0xaa]) = .ok
        { major := 1
          minor := 2
          constants := [⟨⟨0xf7⟩, 1, [9]⟩, ⟨⟨9⟩, 5000, []⟩]
          functions := [plain, shared].filterMap FunctionDraft.function?
          extra := [[1, 2]]
          entrypoint := some 1 } ∧
      Container.parse ((Draft.addAll { major := 1, minor := 2 } twice).encode ++ [0xaa])
        = .error (.reject (.duplicateEntrypoint 1 2)) := by
  intro shared plain once twice
  have hshared : (∀ p ∈ shared.pieces, p.isRegular) ∧ shared.graph?.isSome := by decide +kernel
  have hplain : (∀ p ∈ plain.pieces, p.isRegular) ∧ plain.graph?.isSome := by decide +kernel
  have hone : FunctionDraft.flaggedFrom 0 (once.filterMap Item.function?) = [1] := by decide
  have htwo : FunctionDraft.flaggedFrom 0 (twice.filterMap Item.function?) = [1, 2] := by decide
  have honce := fun h =>
    (parse_encode 1 2 once [0xaa] h (by decide +kernel)).1 (by rw [hone]; decide)
  have htwice := fun h => (parse_encode 1 2 twice [0xaa] h (by decide +kernel)).2 1 2 [] htwo
  rw [hone] at honce
  refine ⟨honce ?_, htwice ?_⟩
  · intro f hf
    simp only [once, List.mem_cons, reduceCtorEq, Item.function.injEq, List.not_mem_nil,
      false_or, or_false] at hf
    rcases hf with rfl | rfl
    · exact hplain
    · exact hshared
  · intro f hf
    simp only [twice, once, List.cons_append, List.nil_append, List.mem_cons, reduceCtorEq,
      Item.function.injEq, List.not_mem_nil, false_or, or_false] at hf
    rcases hf with rfl | rfl | rfl
    · exact hplain
    · exact hshared
    · exact hshared

end Codegen
