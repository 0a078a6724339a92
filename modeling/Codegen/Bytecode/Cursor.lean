/-
Reading bytes from a moving position.

A cursor is an offset and the bytes from there on.  A reader takes a cursor and
leaves one, whether it succeeds or not, so reading can go on after an error and the
place where it stopped can be reported.  A read that fails for want of bytes does
not move.  The one read that moves and fails is `length`: it has passed the number
when it finds that the number promises too much.
-/
import Codegen.Bytecode.Error
import Codegen.Fault
import Codegen.LittleEndian
import Codegen.Varint

namespace Codegen

/-- A position in a sequence of bytes. -/
structure Cursor where
  /-- How many bytes lie before the position. -/
  offset : Nat
  /-- The bytes from the position on. -/
  rest : List UInt8
deriving DecidableEq, Repr

namespace Cursor

/-- The position before the first byte. -/
def start (data : List UInt8) : Cursor := ⟨0, data⟩

def remaining (c : Cursor) : Nat := c.rest.length

def isEmpty (c : Cursor) : Bool := c.rest.isEmpty

/-- The position `n` bytes further on. -/
def advance (c : Cursor) (n : Nat) : Cursor := ⟨c.offset + n, c.rest.drop n⟩

end Cursor

/-- A computation that moves a cursor and may stop. -/
abbrev Reader (α : Type) := EStateM (Stop DecodeError) Cursor α

namespace Reader

variable {α : Type}

/-- Stop because of what the bytes say. -/
def reject (e : DecodeError) : Reader α := fun c => .error (.reject e) c

/-- Stop or go on as an outcome says, without moving. -/
def ofExcept (x : Except (Stop DecodeError) α) : Reader α := fun c =>
  match x with
  | .ok a => .ok a c
  | .error e => .error e c

def offset : Reader Nat := fun c => .ok c.offset c

/-- The next `n` bytes. -/
def bytes (n : Nat) : Reader (List UInt8) := fun c =>
  let taken := c.rest.take n
  if taken.length = n then .ok taken (c.advance n)
  else .error (.reject (.unexpectedEnd c.offset (n - c.remaining))) c

def byte : Reader UInt8 := do return UInt8.ofNat (LittleEndian.toNat (← bytes 1))

def word16 : Reader UInt16 := do return UInt16.ofNat (LittleEndian.toNat (← bytes 2))

def word32 : Reader UInt32 := do return UInt32.ofNat (LittleEndian.toNat (← bytes 4))

def word64 : Reader UInt64 := do return UInt64.ofNat (LittleEndian.toNat (← bytes 8))

/-- A number of `width` bytes.  There is no room for more than eight. -/
def uint (width : Nat) : Reader UInt64 :=
  if 8 < width then fun c => .error (.fault .outOfRange) c
  else do return UInt64.ofNat (LittleEndian.toNat (← bytes width))

/-- A number of variable length. -/
def varint : Reader UInt64 := fun c =>
  match Varint.decode c.rest with
  | .ok (value, used) => .ok value (c.advance used)
  | .error .overflow => .error (.reject (.varintOverflow c.offset)) c
  | .error .truncated => .error (.reject (.unexpectedEnd (c.offset + c.remaining) 1)) c

/-- A number of variable length that counts bytes still to come. -/
def length : Reader Nat := do
  let start ← offset
  let value ← varint
  let c ← get
  if value.toNat ≤ c.remaining then return value.toNat
  else reject (.lengthOverflow value.toNat start)

/-- A length and that many bytes. -/
def block : Reader (List UInt8) := do bytes (← length)

/-- The same kind of item `count` times. -/
def many (item : Reader α) : Nat → Reader (List α)
  | 0 => pure []
  | count + 1 => do
    let head ← item
    let tail ← many item count
    return head :: tail

end Reader

end Codegen
