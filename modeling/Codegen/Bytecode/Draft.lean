/-
Containers to be written.

A draft collects what a container is to hold, in any order, and sorts it into the
pools.  A function is a sequence of pieces: records, or raw bytes that count as one
record whatever they are.
-/
import Codegen.Bytecode.Container

namespace Codegen

/-- A piece of the body of a function; each counts as one record. -/
inductive Piece where
  | record (r : Record)
  | raw (bytes : List UInt8)
deriving DecidableEq, Repr

def Piece.encode : Piece → List UInt8
  | .record r => r.encode
  | .raw bytes => bytes

/-- A function to be written. -/
structure FunctionDraft where
  flags : UInt32
  pieces : List Piece
deriving DecidableEq, Repr

namespace FunctionDraft

/-- The bytes of the records alone. -/
def body (f : FunctionDraft) : List UInt8 := f.pieces.flatMap Piece.encode

def recordCount (f : FunctionDraft) : Nat := f.pieces.length

def encode (f : FunctionDraft) : List UInt8 :=
  LittleEndian.ofNat 4 f.flags.toNat ++ Varint.encode (UInt64.ofNat f.recordCount) ++ f.body

end FunctionDraft

/-- A constant to be written: with its bytes, or as a size only. -/
inductive ConstantDraft where
  | data (flags : UInt8) (bytes : List UInt8)
  | reserve (flags : UInt8) (size : UInt64)
deriving DecidableEq, Repr

/-- A length and that many bytes. -/
def encodeBlock (bytes : List UInt8) : List UInt8 :=
  Varint.encode (UInt64.ofNat bytes.length) ++ bytes

/-- The reserve bit is set to what the draft says, whatever the flags say. -/
def ConstantDraft.encode : ConstantDraft → List UInt8
  | .data flags bytes => (flags &&& ~~~ConstantFlags.reserveOnly) :: encodeBlock bytes
  | .reserve flags size => (flags ||| ConstantFlags.reserveOnly) :: Varint.encode size

/-- A container to be written. -/
structure Draft where
  major : UInt16
  minor : UInt16
  constants : List ConstantDraft := []
  functions : List FunctionDraft := []
  extra : List (List UInt8) := []
deriving DecidableEq, Repr

/-- One thing to add to a draft. -/
inductive Item where
  | constant (c : ConstantDraft)
  | function (f : FunctionDraft)
  | extra (bytes : List UInt8)
deriving DecidableEq, Repr

namespace Draft

/-- Add to the end of the pool that the item belongs to. -/
def add (d : Draft) : Item → Draft
  | .constant c => { d with constants := d.constants ++ [c] }
  | .function f => { d with functions := d.functions ++ [f] }
  | .extra bytes => { d with extra := d.extra ++ [bytes] }

def addAll (d : Draft) (items : List Item) : Draft := items.foldl add d

/-- The bytes of a container with nothing behind it. -/
def encode (d : Draft) : List UInt8 :=
  LittleEndian.ofNat 4 magic ++ LittleEndian.ofNat 2 d.major.toNat ++
    LittleEndian.ofNat 2 d.minor.toNat ++
    Varint.encode (UInt64.ofNat d.constants.length) ++
    Varint.encode (UInt64.ofNat d.functions.length) ++
    Varint.encode (UInt64.ofNat d.extra.length) ++
    d.constants.flatMap ConstantDraft.encode ++
    d.functions.flatMap FunctionDraft.encode ++
    d.extra.flatMap encodeBlock

end Draft

end Codegen
