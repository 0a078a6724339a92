/-
Containers: constants, functions and extra entries in one sequence of bytes.

A container opens with `magic`, a version and three counts.  The pools follow in the
order of their counts.  At most one function is the entry point; a second one is
found when its function has been read.  What stands behind the last extra entry is
ignored, with a warning.
-/
import Codegen.Bytecode.Machine

namespace Codegen

/-- The permission bits of a constant. -/
structure ConstantFlags where
  bits : UInt8
deriving DecidableEq, Repr

namespace ConstantFlags

def read : UInt8 := 1

def write : UInt8 := 2

def exec : UInt8 := 4

/-- Only the size is stored; the bytes are zeros when the constant is loaded. -/
def reserveOnly : UInt8 := 8

/-- All the bits of `mask` are set. -/
def contains (flags : ConstantFlags) (mask : UInt8) : Bool := flags.bits &&& mask == mask

end ConstantFlags

/-- An entry of the constant pool. -/
structure Constant where
  flags : ConstantFlags
  size : UInt64
  /-- Empty if only the size is stored. -/
  data : List UInt8
deriving DecidableEq, Repr

/-- The flag of the entry point. -/
def entrypointFlag : UInt32 := 0x10000

/-- An entry of the function pool. -/
structure Function where
  flags : UInt32
  graph : IrGraph
deriving DecidableEq, Repr

def Function.isEntrypoint (f : Function) : Bool := f.flags &&& entrypointFlag != 0

/-- What a container starts with. -/
structure Header where
  major : UInt16
  minor : UInt16
  constantCount : UInt64
  functionCount : UInt64
  extraCount : UInt64
deriving DecidableEq, Repr

/-- A container that has been read. -/
structure Container where
  major : UInt16
  minor : UInt16
  constants : List Constant
  functions : List Function
  extra : List (List UInt8)
  /-- The position of the entry point among the functions. -/
  entrypoint : Option Nat
deriving DecidableEq, Repr

namespace Header

/-- A wrong `magic` is found before anything else is looked at. -/
def read : Reader Header := do
  let found ← Reader.word32
  if found.toNat ≠ magic then Reader.reject (.badMagic found.toNat)
  else
    let major ← Reader.word16
    let minor ← Reader.word16
    let constantCount ← Reader.varint
    let functionCount ← Reader.varint
    let extraCount ← Reader.varint
    return { major, minor, constantCount, functionCount, extraCount }

def note (h : Header) : Entry :=
  .debug s!"bytecode v{h.major}.{h.minor}: {h.constantCount} constants, {h.functionCount} functions, {h.extraCount} extra entries"

end Header

/-- One constant. -/
def Constant.read : Reader Constant := do
  let flags : ConstantFlags := ⟨← Reader.byte⟩
  if flags.contains ConstantFlags.reserveOnly then
    let size ← Reader.varint
    return { flags, size, data := [] }
  else
    let data ← Reader.block
    return { flags, size := UInt64.ofNat data.length, data }

/-- The flags of a function and the number of its records. -/
def Function.readHeader : Reader (UInt32 × Nat) := do
  let flags ← Reader.word32
  let count ← Reader.varint
  return (flags, count.toNat)

/-- One function. -/
def Function.read : Reader Function := do
  let (flags, count) ← Function.readHeader
  let graph ← decodeFunction count
  return { flags, graph }

/-- The entry point after function number `index`, given the one before. -/
def Function.registerEntry (f : Function) (index : Nat) (entry : Option Nat) : Reader (Option Nat) :=
  if f.isEntrypoint then
    match entry with
    | some first => Reader.reject (.duplicateEntrypoint first index)
    | none => pure (some index)
  else pure entry

/-- `count` functions, the first of which has number `index`, and the entry point. -/
def Function.readPool (index : Nat) (entry : Option Nat) : Nat → Reader (List Function × Option Nat)
  | 0 => pure ([], entry)
  | count + 1 => do
    let f ← Function.read
    let entry ← f.registerEntry index entry
    let (later, entry) ← Function.readPool (index + 1) entry count
    return (f :: later, entry)

/-- What `readPool` notes. -/
def Function.poolJournal (index : Nat) (entry : Option Nat) : Nat → Cursor → Journal
  | 0, _ => []
  | count + 1, c =>
    match Function.readHeader c with
    | .error _ _ => []
    | .ok (flags, records) body =>
      decodeJournal records body ++
        match decodeFunction records body with
        | .error _ _ => []
        | .ok graph rest =>
          .debug s!"function {index}: {records} records, {graph.size} nodes" ::
            match Function.registerEntry { flags, graph } index entry rest with
            | .error _ _ => []
            | .ok entry rest => Function.poolJournal (index + 1) entry count rest

namespace Container

/-- One container; what follows it is left unread. -/
def read : Reader Container := do
  let h ← Header.read
  let constants ← Reader.many Constant.read h.constantCount.toNat
  let (functions, entrypoint) ← Function.readPool 0 none h.functionCount.toNat
  let extra ← Reader.many Reader.block h.extraCount.toNat
  return { major := h.major, minor := h.minor, constants, functions, extra, entrypoint }

/-- The container at the front of `data`. -/
def parse (data : List UInt8) : Except (Stop DecodeError) Container :=
  match read (Cursor.start data) with
  | .ok container _ => .ok container
  | .error e _ => .error e

/-- What is said about bytes that follow a container. -/
def trailingJournal (data : List UInt8) : Journal :=
  match read (Cursor.start data) with
  | .ok _ c =>
    if c.isEmpty then []
    else [.warn s!"ignoring {c.remaining} trailing bytes after the extra table"]
  | .error _ _ => []

/-- What `parse` notes. -/
def parseJournal (data : List UInt8) : Journal :=
  match Header.read (Cursor.start data) with
  | .error _ _ => []
  | .ok h pools =>
    h.note ::
      match Reader.many Constant.read h.constantCount.toNat pools with
      | .error _ _ => []
      | .ok _ c => Function.poolJournal 0 none h.functionCount.toNat c ++ trailingJournal data

/-- The function at the entry point. -/
def entryFunction (container : Container) : Except Fault (Option Function) :=
  match container.entrypoint with
  | none => .ok none
  | some index =>
    match container.functions[index]? with
    | some f => .ok (some f)
    | none => .error .outOfRange

end Container

end Codegen
