/-
Value graphs.

A graph is a row of nodes, and a node's position in the row is its name: ids are
handed out in order of creation and never change.  A node refers to other nodes by
id, through its operands and through its chain, which only states an order.  New
nodes may only refer to nodes that exist already, and so may the root; what is
overwritten in place is not checked, so a graph can still be given edges that lead
forward, round in a circle or nowhere.  Ids have 32 bits, and a graph that has used
them up takes no further node.
-/
import Codegen.Fault

namespace Codegen

/-- The position of a node in its graph. -/
abbrev NodeId := Nat

/-- How a node is named in texts. -/
def NodeId.label (id : NodeId) : String := "%" ++ toString id

/-- One instruction, with opcodes of type `O` and value types of type `T`. -/
structure Node (O T : Type) where
  opcode : O
  type : T
  /-- The nodes whose values are used, in order. -/
  operands : List NodeId := []
  /-- Constants carried by the instruction itself, in order. -/
  imms : List UInt64 := []
  /-- A node that has to come first, although its value is not used. -/
  chain : Option NodeId := none
deriving DecidableEq, Repr

namespace Node

variable {O T : Type}

/-- The nodes that a node refers to: its operands in order, then its chain. -/
def refs (n : Node O T) : List NodeId := n.operands ++ n.chain.toList

/-- A node with neither operands nor immediates, to be filled in later. -/
def placeholder [Inhabited O] [Inhabited T] : Node O T := { opcode := default, type := default }

/-! ### Building a node one part at a time -/

/-- Order the node after another one; only the last such call counts. -/
def withChain (n : Node O T) (id : NodeId) : Node O T := { n with chain := some id }

def addOperand (n : Node O T) (id : NodeId) : Node O T := { n with operands := n.operands ++ [id] }

def addOperands (n : Node O T) (ids : List NodeId) : Node O T :=
  { n with operands := n.operands ++ ids }

def addImm (n : Node O T) (value : UInt64) : Node O T := { n with imms := n.imms ++ [value] }

end Node

/-- A row of nodes and, possibly, the node whose value the graph computes. -/
structure Graph (O T : Type) where
  nodes : Array (Node O T)
  root : Option NodeId
deriving DecidableEq, Repr

namespace Graph

variable {O T : Type}

/-- No nodes and no root. -/
def empty : Graph O T := { nodes := #[], root := none }

def size (g : Graph O T) : Nat := g.nodes.size

def isEmpty (g : Graph O T) : Bool := g.nodes.isEmpty

/-- The node with a given id, if the graph has it. -/
def node? (g : Graph O T) (id : NodeId) : Option (Node O T) := g.nodes[id]?

/-- The node with a given id, which the graph has to have. -/
def node (g : Graph O T) (id : NodeId) : Except Fault (Node O T) :=
  match g.node? id with
  | some n => .ok n
  | none => .error .outOfRange

/-- What is broken when `id` is used as a node of `g` and is not one. -/
def outside (g : Graph O T) (id : NodeId) : Fault :=
  .broken .misc
    ("node " ++ NodeId.label id ++ " referenced outside its DAG (" ++ toString g.size ++ " nodes)")

/-- What is broken when a graph has no id left for another node. -/
def idsUsedUp : Fault := .broken .misc "DAG exceeds 4294967295 nodes"

/-- The id of the next node.  Ids have 32 bits. -/
def nextId (g : Graph O T) : Except Fault NodeId :=
  if g.size < UInt32.size then .ok g.size else .error idsUsedUp

/-- Append a node under the next id; all of its references have to exist. -/
def create (g : Graph O T) (n : Node O T) : Except Fault (Graph O T × NodeId) := do
  let id ← g.nextId
  match n.refs.find? (id ≤ ·) with
  | some missing => .error (g.outside missing)
  | none => return ({ g with nodes := g.nodes.push n }, id)

/-- Choose the node whose value the graph computes. -/
def setRoot (g : Graph O T) (id : NodeId) : Except Fault (Graph O T) :=
  if id < g.size then .ok { g with root := some id } else .error (g.outside id)

/-- Change a node in place.  Its references are not checked. -/
def update (g : Graph O T) (id : NodeId) (f : Node O T → Node O T) : Except Fault (Graph O T) :=
  if id < g.size then .ok { g with nodes := g.nodes.modify id f } else .error .outOfRange

/-- Append so many placeholders. -/
def addPlaceholders [Inhabited O] [Inhabited T] (g : Graph O T) : Nat → Except Fault (Graph O T)
  | 0 => .ok g
  | count + 1 => do
    let (g, _) ← g.create .placeholder
    g.addPlaceholders count

/-- A graph of `count` placeholders and no root. -/
def placeholders [Inhabited O] [Inhabited T] (count : Nat) : Except Fault (Graph O T) :=
  empty.addPlaceholders count

end Graph

end Codegen
