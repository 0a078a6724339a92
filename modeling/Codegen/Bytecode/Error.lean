/-
Why bytes are refused.

Each cause carries what the message needs and nothing else: where it was found, and
what was there.  The wording stands in one place, `DecodeError.message`; the name of
a cause and the text with its fields are what the command line prints.
-/
import Codegen.Text.Fields

namespace Codegen

/-- The first four bytes of a container, read as one number. -/
def magic : Nat := 0xF00D1234

/-- Why bytes are not a container, or not a function. -/
inductive DecodeError where
  /-- The container does not start with `magic`. -/
  | badMagic (found : Nat)
  /-- `needed` bytes are missing at `offset`. -/
  | unexpectedEnd (offset needed : Nat)
  /-- The varint at `offset` needs more than 64 bits. -/
  | varintOverflow (offset : Nat)
  | unknownRecord (kind offset : Nat)
  /-- The type number is unknown, or has no immediates where one is wanted. -/
  | illegalType (raw offset : Nat)
  /-- A record pops more values than there are. -/
  | stackUnderflow (record needed available : Nat)
  /-- The records of a function end with other than one value. -/
  | unbalancedStack (depth : Nat)
  /-- A record refers to a node that was not created yet. -/
  | danglingRef (record id count : Nat)
  /-- Two functions are flagged as the entry point. -/
  | duplicateEntrypoint (first index : Nat)
  /-- A length at `offset` says more than what is left. -/
  | lengthOverflow (length offset : Nat)
deriving DecidableEq, Repr

namespace DecodeError

/-- A number in hexadecimal, with `0x` in front and at least `digits` digits. -/
def hex (digits n : Nat) : String :=
  let text := Nat.toDigits 16 n
  "0x" ++ String.ofList (List.replicate (digits - text.length) '0' ++ text)

def message : DecodeError → String
  | badMagic found => "bad magic " ++ hex 8 found ++ ", expected " ++ hex 8 magic
  | unexpectedEnd offset needed =>
    s!"unexpected end of input at offset {offset}, {needed} more bytes needed"
  | varintOverflow offset => s!"uleb128 at offset {offset} does not fit in 64 bits"
  | unknownRecord kind offset => "unknown record kind " ++ hex 1 kind ++ s!" at offset {offset}"
  | illegalType raw offset => s!"illegal type token {raw} at offset {offset}"
  | stackUnderflow record needed available =>
    s!"record {record} needs {needed} stack values, {available} available"
  | unbalancedStack depth => s!"function leaves {depth} values on the stack, expected exactly 1"
  | danglingRef record id count =>
    s!"record {record} references node {id}, but only {count} nodes exist"
  | duplicateEntrypoint first index =>
    s!"function {index} is a second entrypoint (first was function {first})"
  | lengthOverflow length offset => s!"length {length} at offset {offset} exceeds the remaining input"

/-- The name of a cause. -/
def kind : DecodeError → String
  | badMagic .. => "BadMagic"
  | unexpectedEnd .. => "UnexpectedEof"
  | varintOverflow .. => "Leb128Overflow"
  | unknownRecord .. => "UnknownRecord"
  | illegalType .. => "IllegalType"
  | stackUnderflow .. => "StackUnderflow"
  | unbalancedStack .. => "UnbalancedStack"
  | danglingRef .. => "DanglingRef"
  | duplicateEntrypoint .. => "DuplicateEntrypoint"
  | lengthOverflow .. => "LengthOverflow"

/-- The fields of a cause, by name. -/
def details : DecodeError → List (String × Nat)
  | badMagic found => [("found", found)]
  | unexpectedEnd offset needed => [("offset", offset), ("needed", needed)]
  | varintOverflow offset => [("offset", offset)]
  | unknownRecord kind offset => [("kind", kind), ("offset", offset)]
  | illegalType raw offset => [("raw", raw), ("offset", offset)]
  | stackUnderflow record needed available =>
    [("record", record), ("needed", needed), ("available", available)]
  | unbalancedStack depth => [("depth", depth)]
  | danglingRef record id count => [("record", record), ("id", id), ("count", count)]
  | duplicateEntrypoint first index => [("first", first), ("index", index)]
  | lengthOverflow length offset => [("length", length), ("offset", offset)]

/-- The cause with its fields, on one line. -/
def describe (e : DecodeError) : String :=
  Text.fields e.kind (e.details.map fun item => (item.1, toString item.2))

end DecodeError

end Codegen
