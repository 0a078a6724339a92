/-
Whatever is read as a container can be written as one.

Bytes from anywhere can be read although nothing would write them: a number of variable
length may be given more groups than it needs.  That is the only difference.  For every
part of a container there is a draft from which the same part is read back, and the draft
takes no more bytes than were read, since a number is never written with more groups than
it was read from.  `Rewritable` says this of one reader, and it passes from an item to a
pool.

The functions go through the records that were read: those are regular, and they build
the same graph wherever they stand.  There are as many of them as the function declared,
which is not kept in the container, so `recordCounts` reads it off the bytes once more.
-/
import Codegen.Proofs.Bytecode.RoundTrip
import Codegen.Proofs.Bytecode.Truncation

namespace Codegen

open Reader

/-! ### Numbers of types and operations -/

theorem Primitive.raw_of_ofRaw? {n : Nat} {p : Primitive} (h : ofRaw? n = some p) : p.raw = n := by
  have hall : ∀ i : Fin all.length, all[i].raw = i := by decide
  obtain ⟨hn, rfl⟩ := List.getElem?_eq_some_iff.mp h
  exact hall ⟨n, hn⟩

theorem Opcode.raw_of_ofRaw? {n : Nat} {op : Opcode} (h : ofRaw? n = some op) : op.raw = n := by
  have hall : ∀ i : Fin all.length, all[i].raw = i := by decide
  obtain ⟨hn, rfl⟩ := List.getElem?_eq_some_iff.mp h
  exact hall ⟨n, hn⟩

/-! ### What was read takes no more bytes when it is written -/

theorem length_varint {v : UInt64} {c c' : Cursor} (h : varint c = .ok v c') :
    (Varint.encode v).length + c'.remaining ≤ c.remaining := by
  obtain ⟨used, hdecode, rfl⟩ := of_varint_ok h
  obtain ⟨groups, rest, hrest, rfl, -, -, hlength⟩ := Varint.of_decode_ok hdecode
  simp only [Cursor.remaining, Cursor.advance, hrest, List.drop_left, List.length_append]
  omega

theorem length_bytes {n : Nat} {bs : List UInt8} {c c' : Cursor} (h : bytes n c = .ok bs c') :
    n + c'.remaining = c.remaining := by
  obtain ⟨hlength, hrest, -⟩ := of_bytes_ok h
  rw [Cursor.remaining, Cursor.remaining, hrest, List.length_append, hlength]

/-- The same for a number made of the bytes. -/
theorem length_map_bytes {α : Type} {n : Nat} {f : List UInt8 → α} {a : α} {c c' : Cursor}
    (h : (do return f (← bytes n) : Reader α) c = .ok a c') : n + c'.remaining = c.remaining := by
  obtain ⟨bs, c₁, hbytes, h⟩ := of_bind_ok h
  cases h
  exact length_bytes hbytes

theorem length_uint {width : Nat} {v : UInt64} {c c' : Cursor} (hwidth : width ≤ 8)
    (h : uint width c = .ok v c') : width + c'.remaining = c.remaining := by
  rw [uint_of_le hwidth] at h
  exact length_map_bytes h

theorem length_block {data : List UInt8} {c c' : Cursor} (h : block c = .ok data c') :
    (encodeBlock data).length + c'.remaining ≤ c.remaining ∧ data.length < 2 ^ 64 := by
  obtain ⟨v, c₁, hvarint, hlength, hrest, -⟩ := of_block_ok h
  have hv : UInt64.ofNat data.length = v := by
    rw [← hlength, UInt64.ofNat_toNat]
  have hle := length_varint hvarint
  have hbehind : c₁.remaining = data.length + c'.remaining := by
    rw [Cursor.remaining, Cursor.remaining, hrest, List.length_append]
  refine ⟨?_, hlength ▸ v.toNat_lt⟩
  rw [encodeBlock, hv, List.length_append]
  omega

theorem length_readType {type : Primitive} {c c' : Cursor} (h : Record.readType c = .ok type c') :
    (Varint.encode (UInt64.ofNat type.raw)).length + c'.remaining ≤ c.remaining := by
  obtain ⟨start, c₁, hstart, h⟩ := of_bind_ok h
  cases hstart
  obtain ⟨raw, c₂, hvarint, h⟩ := of_bind_ok h
  cases htype : Primitive.ofRaw? raw.toNat with
  | none =>
      simp only [htype] at h
      cases h
  | some found =>
      simp only [htype] at h
      cases h
      rw [Primitive.raw_of_ofRaw? htype, UInt64.ofNat_toNat]
      exact length_varint hvarint

theorem length_readImm {r : Record} {c c' : Cursor} (h : Record.readImm c = .ok r c') :
    r.encode.length + c'.remaining ≤ (Varint.encode Record.immKind).length + c.remaining := by
  obtain ⟨start, c₁, hstart, h⟩ := of_bind_ok h
  cases hstart
  obtain ⟨type, c₂, htype, h⟩ := of_bind_ok h
  have hle := length_readType htype
  cases hwidth : type.immWidth? with
  | none =>
      simp only [hwidth] at h
      cases h
  | some width =>
      simp only [hwidth] at h
      obtain ⟨value, c₃, hvalue, h⟩ := of_bind_ok h
      cases h
      have hbytes := length_uint (Record.immWidth_le hwidth) hvalue
      simp only [Record.encode, hwidth, Option.getD_some, List.length_append,
        LittleEndian.length_ofNat]
      omega

/-- A record takes at least the bytes that it is written with. -/
theorem length_read {r : Record} {c c' : Cursor} (h : Record.read c = .ok r c') :
    r.encode.length + c'.remaining ≤ c.remaining := by
  obtain ⟨start, c₁, hstart, h⟩ := of_bind_ok h
  cases hstart
  obtain ⟨kind, c₂, hkind, h⟩ := of_bind_ok h
  have hle := length_varint hkind
  split at h
  · next himm =>
      have himm' := length_readImm h
      rw [himm] at hle
      omega
  · split at h
    · next href =>
        obtain ⟨id, c₃, hid, h⟩ := of_bind_ok h
        cases h
        have hid' := length_varint hid
        rw [href] at hle
        simp only [Record.encode, List.length_append]
        omega
    · split at h
      · next hchain =>
          cases h
          rw [hchain] at hle
          exact hle
      · cases hop : (Opcode.ofRaw? kind.toNat).filter Opcode.isBinary with
        | none =>
            simp only [hop] at h
            cases h
        | some op =>
            simp only [hop] at h
            obtain ⟨type, c₃, htype, h⟩ := of_bind_ok h
            cases h
            have htype' := length_readType htype
            have hraw := Opcode.raw_of_ofRaw? (Option.filter_eq_some_iff.mp hop).1
            simp only [Record.encode, hraw, UInt64.ofNat_toNat, List.length_append]
            omega

/-! ### Pools -/

/-- Whatever `read` gives is read back from a draft that has `good` and takes no more bytes. -/
def Rewritable {α ι : Type} (read : Reader α) (encode : ι → List UInt8) (value : ι → α)
    (good : ι → Prop) : Prop :=
  ∀ c a c', read c = .ok a c' →
    ∃ x, value x = a ∧ good x ∧ (encode x).length + c'.remaining ≤ c.remaining

theorem Rewritable.many {α ι : Type} {read : Reader α} {encode : ι → List UInt8} {value : ι → α}
    {good : ι → Prop} (h : Rewritable read encode value good) (count : Nat) :
    ∀ c as c', Reader.many read count c = .ok as c' →
      ∃ xs : List ι, xs.map value = as ∧ xs.length = count ∧ (∀ x ∈ xs, good x) ∧
        (xs.flatMap encode).length + c'.remaining ≤ c.remaining := by
  induction count with
  | zero =>
      intro c as c' hread
      cases hread
      exact ⟨[], rfl, rfl, by simp, by simp⟩
  | succ count ih =>
      intro c as c' hread
      obtain ⟨a, c₁, hhead, hread⟩ := of_bind_ok hread
      obtain ⟨later, c₂, htail, hread⟩ := of_bind_ok hread
      cases hread
      obtain ⟨x, rfl, hx, hle⟩ := h c a c₁ hhead
      obtain ⟨xs, rfl, rfl, hxs, hle'⟩ := ih c₁ later c' htail
      refine ⟨x :: xs, rfl, rfl, List.forall_mem_cons.mpr ⟨hx, hxs⟩, ?_⟩
      rw [List.flatMap_cons, List.length_append]
      omega

theorem rewritable_record :
    Rewritable Record.read Record.encode id fun r => r.isRegular ∧ r.stored = r := by
  intro c r c' h
  exact ⟨r, rfl, Record.of_read_ok h, length_read h⟩

theorem rewritable_block : Rewritable block encodeBlock id fun data => data.length < 2 ^ 64 := by
  intro c data c' h
  obtain ⟨hle, hlength⟩ := length_block h
  exact ⟨data, rfl, hlength, hle⟩

/-- Setting bits that are set changes nothing. -/
theorem or_of_contains {flags : ConstantFlags} {mask : UInt8} (h : flags.contains mask = true) :
    flags.bits ||| mask = flags.bits := by
  have hmask : flags.bits &&& mask = mask := beq_iff_eq.mp h
  refine UInt8.toBitVec_inj.mp (BitVec.eq_of_getElem_eq fun i hi => ?_)
  have hbit : (flags.bits.toBitVec[i] && mask.toBitVec[i]) = mask.toBitVec[i] := by
    rw [← BitVec.getElem_and, ← UInt8.toBitVec_and, hmask]
  rw [UInt8.toBitVec_or, BitVec.getElem_or, ← hbit]
  cases flags.bits.toBitVec[i] <;> rfl

/-- Clearing the reserve bit where it is not set changes nothing. -/
theorem and_of_not_contains {flags : ConstantFlags}
    (h : ¬flags.contains ConstantFlags.reserveOnly = true) :
    flags.bits &&& ~~~ConstantFlags.reserveOnly = flags.bits := by
  have hall : ∀ bits : BitVec 8, bits &&& 8#8 ≠ 8#8 → bits &&& ~~~8#8 = bits := by decide
  refine UInt8.toBitVec_inj.mp (hall flags.bits.toBitVec fun hset => h ?_)
  exact beq_iff_eq.mpr (UInt8.toBitVec_inj.mp hset)

theorem rewritable_constant :
    Rewritable Constant.read ConstantDraft.encode ConstantDraft.stored ConstantDraft.Fits := by
  intro c constant c' h
  obtain ⟨byte, c₁, hbyte, h⟩ := of_bind_ok h
  have hone := length_map_bytes hbyte
  dsimp only at h
  split at h
  · next hreserve =>
      obtain ⟨size, c₂, hsize, h⟩ := of_bind_ok h
      cases h
      have hle := length_varint hsize
      refine ⟨.reserve byte size, ?_, trivial, ?_⟩
      · rw [ConstantDraft.stored, or_of_contains hreserve]
      · rw [ConstantDraft.encode, List.length_cons]
        omega
  · next hreserve =>
      obtain ⟨data, c₂, hdata, h⟩ := of_bind_ok h
      cases h
      obtain ⟨hle, hlength⟩ := length_block hdata
      refine ⟨.data byte data, ?_, hlength, ?_⟩
      · rw [ConstantDraft.stored, and_of_not_contains hreserve]
      · rw [ConstantDraft.encode, List.length_cons]
        omega

/-! ### Functions -/

/-- The number of records that a function declares. -/
def Function.readCount : Reader Nat := do
  let header ← Function.readHeader
  let _ ← decodeFunction header.2
  return header.2

/-- Records that build a graph are a body that decodes to it. -/
theorem FunctionDraft.graph?_ofRecords {records : List Record} {g : IrGraph} (flags : UInt32)
    (hregular : ∀ r ∈ records, r.isRegular) (h : Assembly.ofRecords records = .ok g) :
    (FunctionDraft.ofRecords flags records).graph? = some g := by
  have hanswers := Assembly.answers_decodeFunction hregular
  rw [h] at hanswers
  have halone := hanswers 0 []
  rw [List.append_nil] at halone
  simp only [graph?, recordCount_ofRecords, body_ofRecords, Cursor.start, halone]

theorem FunctionDraft.isRegular_ofRecords {records : List Record} (flags : UInt32)
    (hregular : ∀ r ∈ records, r.isRegular) :
    ∀ p ∈ (FunctionDraft.ofRecords flags records).pieces, p.isRegular := by
  intro p hp
  obtain ⟨r, hr, rfl⟩ := List.mem_map.mp hp
  exact hregular r hr

/-- A function that was read is the function of the records that were read. -/
theorem of_function_ok {fn : Function} {c c' : Cursor} (h : Function.read c = .ok fn c') :
    ∃ f : FunctionDraft, f.Good fn ∧ f.encode.length + c'.remaining ≤ c.remaining ∧
      Function.readCount c = .ok f.recordCount c' := by
  obtain ⟨⟨flags, count⟩, c₁, hheader, h⟩ := of_bind_ok h
  obtain ⟨g, c₂, hdecode, h⟩ := of_bind_ok h
  cases h
  have hcounted : Function.readCount c = .ok count c' := by
    rw [Function.readCount, bind_ok hheader, bind_ok hdecode]
    rfl
  obtain ⟨flags', c₃, hflags, hheader⟩ := of_bind_ok hheader
  obtain ⟨number, c₄, hnumber, hheader⟩ := of_bind_ok hheader
  cases hheader
  obtain ⟨records, hmany, hbuild, hrecords⟩ := Assembly.of_decodeFunction_ok hdecode
  obtain ⟨records', hsame, hlength, -, hbody⟩ := rewritable_record.many _ _ _ _ hmany
  rw [List.map_id] at hsame
  subst hsame
  have hregular : ∀ r ∈ records', r.isRegular := fun r hr => (hrecords r hr).1
  have hfour := length_map_bytes hflags
  have hle := length_varint hnumber
  refine ⟨FunctionDraft.ofRecords flags records', ⟨?_, ?_, ?_⟩, ?_, ?_⟩
  · exact FunctionDraft.isRegular_ofRecords flags hregular
  · rw [FunctionDraft.function?, FunctionDraft.graph?_ofRecords flags hregular hbuild]
    rfl
  · rw [FunctionDraft.recordCount_ofRecords, hlength]
    exact number.toNat_lt
  · simp only [FunctionDraft.encode, FunctionDraft.recordCount_ofRecords,
      FunctionDraft.body_ofRecords, hlength, UInt64.ofNat_toNat, List.length_append,
      LittleEndian.length_ofNat]
    omega
  · rw [FunctionDraft.recordCount_ofRecords, hlength]
    exact hcounted

/-- What the entry point is after a function, said with the positions of the flagged ones. -/
theorem entryOf_of_registerEntry_ok {f : FunctionDraft} {fn : Function} {index : Nat}
    {entry entry' : Option Nat} {c c' : Cursor} (hgood : f.Good fn)
    (h : fn.registerEntry index entry c = .ok entry' c') (fs : List FunctionDraft) :
    c' = c ∧ entry.toList ++ FunctionDraft.flaggedFrom index (f :: fs)
      = entry'.toList ++ FunctionDraft.flaggedFrom (index + 1) fs := by
  have hflag : fn.isEntrypoint = f.isFlagged := by
    obtain ⟨g, -, rfl⟩ := Option.map_eq_some_iff.mp hgood.decodes
    exact isEntrypoint_eq_testBit _
  unfold Function.registerEntry at h
  rw [hflag] at h
  rw [FunctionDraft.flaggedFrom]
  by_cases hflagged : f.isFlagged
  · simp only [if_pos hflagged] at h ⊢
    cases entry with
    | none =>
        cases h
        exact ⟨rfl, rfl⟩
    | some first => cases h
  · simp only [if_neg hflagged] at h ⊢
    cases h
    exact ⟨rfl, rfl⟩

/-- A pool of functions that was read can be written, and has the same entry point. -/
theorem of_readPool_ok (count : Nat) :
    ∀ {index : Nat} {entry e : Option Nat} {fns : List Function} {c c' : Cursor},
      Function.readPool index entry count c = .ok (fns, e) c' →
      ∃ fs : List FunctionDraft, List.Forall₂ FunctionDraft.Good fs fns ∧ fs.length = count ∧
        entryOf (entry.toList ++ FunctionDraft.flaggedFrom index fs) = .ok e ∧
        (fs.flatMap FunctionDraft.encode).length + c'.remaining ≤ c.remaining ∧
        Reader.many Function.readCount count c = .ok (fs.map FunctionDraft.recordCount) c' := by
  induction count with
  | zero =>
      intro index entry e fns c c' h
      cases h
      refine ⟨[], List.Forall₂.nil, rfl, ?_, by simp, rfl⟩
      cases entry <;> rfl
  | succ count ih =>
      intro index entry e fns c c' h
      obtain ⟨fn, c₁, hread, h⟩ := of_bind_ok h
      obtain ⟨entry', c₂, hentry, h⟩ := of_bind_ok h
      obtain ⟨⟨later, e'⟩, c₃, hlater, h⟩ := of_bind_ok h
      cases h
      obtain ⟨f, hgood, hle, hcount⟩ := of_function_ok hread
      obtain ⟨fs, hfs, rfl, hentries, hle', hcounts⟩ := ih hlater
      obtain ⟨rfl, hflagged⟩ := entryOf_of_registerEntry_ok hgood hentry fs
      refine ⟨f :: fs, List.Forall₂.cons hgood hfs, rfl, ?_, ?_, ?_⟩
      · rw [hflagged]
        exact hentries
      · rw [List.flatMap_cons, List.length_append]
        omega
      · rw [Reader.many, bind_ok hcount, bind_ok hcounts]
        rfl

/-! ### Containers -/

/-- The numbers of records that the functions of a container declare. -/
def Container.recordCounts : Reader (List Nat) := do
  let h ← Header.read
  let _ ← Reader.many Constant.read h.constantCount.toNat
  Reader.many Function.readCount h.functionCount.toNat

theorem length_header {h : Header} {c c' : Cursor} (hread : Header.read c = .ok h c') :
    8 + (Varint.encode h.constantCount).length + (Varint.encode h.functionCount).length
      + (Varint.encode h.extraCount).length + c'.remaining ≤ c.remaining := by
  obtain ⟨found, c₁, hmagic, hread⟩ := of_bind_ok hread
  split at hread
  · cases hread
  · obtain ⟨major, c₂, hmajor, hread⟩ := of_bind_ok hread
    obtain ⟨minor, c₃, hminor, hread⟩ := of_bind_ok hread
    obtain ⟨constantCount, c₄, hconstants, hread⟩ := of_bind_ok hread
    obtain ⟨functionCount, c₅, hfunctions, hread⟩ := of_bind_ok hread
    obtain ⟨extraCount, c₆, hextra, hread⟩ := of_bind_ok hread
    cases hread
    have hfour := length_map_bytes hmagic
    have htwo := length_map_bytes hmajor
    have htwo' := length_map_bytes hminor
    have hconstants' := length_varint hconstants
    have hfunctions' := length_varint hfunctions
    have hextra' := length_varint hextra
    dsimp only
    omega

/-- The draft is one from which the container is read back. -/
structure Draft.Describes (d : Draft) (container : Container) : Prop where
  major : d.major = container.major
  minor : d.minor = container.minor
  constants : d.constants.map ConstantDraft.stored = container.constants
  functions : List.Forall₂ FunctionDraft.Good d.functions container.functions
  entrypoint : entryOf (FunctionDraft.flaggedFrom 0 d.functions) = .ok container.entrypoint
  extra : d.extra = container.extra
  fits : d.Fits

theorem Draft.Describes.parse {d : Draft} {container : Container} (h : d.Describes container) :
    Container.parse d.encode = .ok container := by
  have hparse := parse_of_answers (answers_of_fits h.fits h.functions) []
  rw [List.append_nil, h.entrypoint, h.constants, h.major, h.minor, h.extra] at hparse
  exact hparse

theorem Draft.Describes.isRegular {d : Draft} {container : Container} (h : d.Describes container) :
    ∀ f ∈ d.functions, ∀ p ∈ f.pieces, p.isRegular :=
  ((List.forall₂_and_left _ _).mp (h.functions.imp fun _ _ hf => ⟨hf.regular, hf⟩)).1

/-- A container that was read is described by a draft of no more bytes, whose functions have the
declared numbers of records. -/
theorem exists_describes {container : Container} {c c' : Cursor}
    (h : Container.read c = .ok container c') :
    ∃ d : Draft, d.Describes container ∧ d.encode.length + c'.remaining ≤ c.remaining ∧
      ∃ c₁, Container.recordCounts c = .ok (d.functions.map FunctionDraft.recordCount) c₁ := by
  obtain ⟨header, c₁, hheader, h⟩ := of_bind_ok h
  obtain ⟨constants, c₂, hconstants, h⟩ := of_bind_ok h
  obtain ⟨⟨functions, entrypoint⟩, c₃, hpool, h⟩ := of_bind_ok h
  obtain ⟨extra, c₄, hextra, h⟩ := of_bind_ok h
  cases h
  obtain ⟨cs, hstored, hcs, hfits, hlength⟩ := rewritable_constant.many _ _ _ _ hconstants
  obtain ⟨fs, hgood, hfs, hentry, hlength', hcounts⟩ := of_readPool_ok _ hpool
  obtain ⟨es, hsame, hes, hblocks, hlength''⟩ := rewritable_block.many _ _ _ _ hextra
  rw [List.map_id] at hsame
  have hhead := length_header hheader
  refine ⟨⟨header.major, header.minor, cs, fs, es⟩, ?_, ?_, c₃, ?_⟩
  · refine ⟨rfl, rfl, hstored, hgood, hentry, hsame, ?_⟩
    exact ⟨hcs ▸ header.constantCount.toNat_lt, hfs ▸ header.functionCount.toNat_lt,
      hes ▸ header.extraCount.toNat_lt, hfits, hblocks⟩
  · simp only [Draft.encode, List.length_append, LittleEndian.length_ofNat, hcs, hfs, hes,
      UInt64.ofNat_toNat]
    omega
  · rw [Container.recordCounts, bind_ok hheader, bind_ok hconstants]
    exact hcounts

/-- A draft has the pools that it is filled with. -/
theorem Draft.addAll_pools (major minor : UInt16) (constants : List ConstantDraft)
    (functions : List FunctionDraft) (extra : List (List UInt8)) :
    Draft.addAll { major, minor }
        (constants.map Item.constant ++ functions.map Item.function ++ extra.map Item.extra)
      = { major, minor, constants, functions, extra } := by
  rw [Draft.addAll_eq]
  simp [List.filterMap_map, Function.comp_def, Item.constant?, Item.function?, Item.extra?]

/--
**What can be read can be written.**  Where a container is read from the front of some bytes, there
are calls that write the same container in no more bytes than were read.  Its functions are written
record by record, each with as many records as the one that was read declares.
-/
theorem exists_draft_of_read {data : List UInt8} {container : Container} {c : Cursor}
    (h : Container.read (Cursor.start data) = .ok container c) :
    ∃ (major minor : UInt16) (items : List Item),
      let draft := Draft.addAll { major, minor } items
      (∀ f, .function f ∈ items → ∀ p ∈ f.pieces, p.isRegular) ∧
        draft.encode.length ≤ c.offset ∧
        Container.parse draft.encode = .ok container ∧
        ∃ c', Container.recordCounts (Cursor.start data)
          = .ok (draft.functions.map FunctionDraft.recordCount) c' := by
  obtain ⟨d, hdescribes, hlength, hcounts⟩ := exists_describes h
  have hsum : c.offset + c.remaining = 0 + (Cursor.start data).remaining :=
    exact_container.offset_add_remaining h
  refine ⟨d.major, d.minor,
    d.constants.map Item.constant ++ d.functions.map Item.function ++ d.extra.map Item.extra, ?_⟩
  intro draft
  have hdraft : draft = d := Draft.addAll_pools ..
  rw [hdraft]
  refine ⟨?_, by omega, hdescribes.parse, hcounts⟩
  intro f hf
  have hmem : f ∈ d.functions := by simpa using hf
  exact hdescribes.isRegular f hmem

/-- Numbers in more groups than they need: the count of constants, a size, a reference. -/
theorem exists_draft_of_read_overlong :
    let data : List UInt8 :=
      [0x34, 0x12, 0x0d, 0xf0, 1, 0, 2, 0, 0x81, 0, 1, 0,
        9, 0x80, 0x81, 0,
        0, 0, 1, 0, 3, 1, 1, 5, 0x40, 0x80, 0, 3, 1]
    let container : Container :=
      { major := 1
        minor := 2
        constants := [{ flags := ⟨9⟩, size := 128, data := [] }]
        functions :=
          [{ flags := 0x10000
             graph :=
               { nodes :=
                   #[{ opcode := .imm, type := .prim .u8, imms := [5] },
                     { opcode := .sub, type := .prim .u8, operands := [0, 0] }]
                 root := some 1 } }]
        extra := []
        entrypoint := some 0 }
    Container.read (Cursor.start data) = .ok container ⟨29, []⟩ ∧
      ∃ (major minor : UInt16) (items : List Item),
        let draft := Draft.addAll { major, minor } items
        (∀ f, .function f ∈ items → ∀ p ∈ f.pieces, p.isRegular) ∧
          draft.encode.length ≤ 29 ∧
          Container.parse draft.encode = .ok container ∧
          ∃ c', Container.recordCounts (Cursor.start data)
            = .ok (draft.functions.map FunctionDraft.recordCount) c' := by
  intro data container
  have hread : Container.read (Cursor.start data) = .ok container ⟨29, []⟩ := by decide +kernel
  exact ⟨hread, exists_draft_of_read hread⟩

end Codegen
