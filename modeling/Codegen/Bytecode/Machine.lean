/-
Functions: records run on a stack.

The machine holds the graph built so far and a stack of its nodes.  A record is read
whole before it is run, so an error in its bytes comes before an error on the stack.
When the declared number of records has been run, the one node left is the root.
-/
import Codegen.Bytecode.Record
import Codegen.Journal

namespace Codegen

/-- The state between two records. -/
structure Machine where
  graph : IrGraph
  /-- Nodes waiting to be used, the last one first. -/
  stack : List NodeId
deriving DecidableEq, Repr

namespace Machine

/-- The state before the first record. -/
def start : Machine := { graph := .empty, stack := [] }

/-- Both stack records need two values; say how many there are. -/
def underflow (m : Machine) (index : Nat) : Stop DecodeError :=
  .reject (.stackUnderflow index 2 m.stack.length)

/-- Append a node and push it, with `rest` left below. -/
def produce (rest : List NodeId) (created : Except Fault (IrGraph × NodeId)) :
    Except (Stop DecodeError) Machine := do
  let (graph, id) ← Stop.ofFault created
  return { graph, stack := id :: rest }

/-- Run the record with number `index`. -/
def step (m : Machine) (index : Nat) : Record → Except (Stop DecodeError) Machine
  | .imm type value => produce m.stack (m.graph.loadImm type value)
  | .binary op type =>
    match m.stack with
    | rhs :: lhs :: rest => produce rest (m.graph.binary op type lhs rhs)
    | _ => .error (m.underflow index)
  | .ref id =>
    -- Ids have 32 bits, which the id of a node fits in.
    if id.toNat < m.graph.size then .ok { m with stack := id.toUInt32.toNat :: m.stack }
    else .error (.reject (.danglingRef index id.toNat m.graph.size))
  | .chain =>
    match m.stack with
    | first :: top :: rest => do
      let graph ← Stop.ofFault (m.graph.update top (·.withChain first))
      return { graph, stack := top :: rest }
    | _ => .error (m.underflow index)

/-- Make the one value on the stack the root. -/
def finish (m : Machine) : Except (Stop DecodeError) IrGraph :=
  match m.stack with
  | [root] => Stop.ofFault (m.graph.setRoot root)
  | _ => .error (.reject (.unbalancedStack m.stack.length))

/-- Read the record with number `index` and run it. -/
def advance (m : Machine) (index : Nat) : Reader Machine := do
  let record ← Record.read
  Reader.ofExcept (m.step index record)

/-- Read and run `count` records, the first of which has number `index`. -/
def run (m : Machine) (index : Nat) : Nat → Reader Machine
  | 0 => pure m
  | count + 1 => do
    let next ← m.advance index
    next.run (index + 1) count

/-- What is noted when a record has been run: the node it created, which is the last one. -/
def created (m : Machine) (index : Nat) (record : Record) : Journal :=
  match record, m.graph.nodes.back? with
  | .imm .., some n | .binary .., some n =>
    let id := NodeId.label (m.graph.size - 1)
    let arguments := ", ".intercalate (n.imms.map toString ++ n.operands.map NodeId.label)
    [.trace s!"record {index}: {id} = {n.opcode} {n.type} {arguments}"]
  | _, _ => []

/-- What `run` notes: every node that was created before the end or the first error. -/
def runJournal (m : Machine) (index : Nat) : Nat → Cursor → Journal
  | 0, _ => []
  | count + 1, c =>
    match Record.read c with
    | .error _ _ => []
    | .ok record rest =>
      match m.step index record with
      | .error _ => []
      | .ok next => next.created index record ++ next.runJournal (index + 1) count rest

end Machine

/-- Read a function of `count` records. -/
def decodeFunction (count : Nat) : Reader IrGraph := do
  let m ← Machine.start.run 0 count
  Reader.ofExcept m.finish

/-- What `decodeFunction` notes. -/
def decodeJournal (count : Nat) (c : Cursor) : Journal := Machine.start.runJournal 0 count c

end Codegen
