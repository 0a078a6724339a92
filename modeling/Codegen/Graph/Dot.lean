/-
Graphviz text of a graph.

Every node reachable from the root becomes a record: anchors for the chain and the
operands, the immediates, the type and the opcode.  Below the record stand its
edges, drawn from the node that is used to the anchor that uses it; chains are dotted
and blue.  The root is marked at the end.
-/
import Codegen.Graph.Walk
import Codegen.InstructionSet

namespace Codegen

namespace Node

variable {O T : Type} [InstructionSet O]

/-- The anchors of a record: the chain if there is one, then one for each operand. -/
def anchors (n : Node O T) : List String :=
  (n.chain.toList.map fun _ => "<chain>ch") ++
    n.operands.zipIdx.map fun (_, i) =>
      "<" ++ toString i ++ ">" ++ (InstructionSet.operandName? n.opcode i).getD (toString i)

/-- The anchors as one field of the record; a node without references has no such field. -/
def anchorField (n : Node O T) : String :=
  if n.anchors.isEmpty then "" else "\x7b" ++ "|".intercalate n.anchors ++ "\x7d|"

/-- The immediates, each as a field of the record. -/
def immFields (n : Node O T) : String :=
  String.join <| n.imms.zipIdx.map fun (value, i) =>
    "<i" ++ toString i ++ ">[I]" ++ (InstructionSet.immName? n.opcode i).getD "imm" ++ ": " ++
      toString value ++ "|"

/-- The record of a node. -/
def dotRecord [ToString T] (id : NodeId) (n : Node O T) : String :=
  "node" ++ toString id ++ " [label=\"\x7b" ++ n.anchorField ++ n.immFields ++ "T:" ++ toString n.type ++
    "|<opc>" ++ InstructionSet.setName O ++ "::" ++ InstructionSet.mnemonic n.opcode ++ "\x7d\"]\n"

end Node

/-- An edge from the opcode of `source` to an anchor of `user`, with its attributes. -/
def dotEdge (source user : NodeId) (anchor attributes : String) : String :=
  "node" ++ toString source ++ ":opc:s -> node" ++ toString user ++ ":" ++ anchor ++ attributes ++ "\n"

namespace Node

variable {O T : Type}

/-- The edges into a node: its chain, then its operands. -/
def dotEdges (id : NodeId) (n : Node O T) : String :=
  String.join (n.chain.toList.map fun first => dotEdge first id "chain" " [style=dotted,color=blue]") ++
    String.join (n.operands.zipIdx.map fun (used, i) => dotEdge used id (toString i ++ ":n") "")

end Node

namespace Graph

variable {O T : Type} [InstructionSet O] [ToString T]

/-- The Graphviz text of the part of a graph that its root reaches. -/
def toDot (g : Graph O T) : Except Fault String := do
  let visited ← g.walk
  let body := visited.map fun (id, n) => n.dotRecord id ++ n.dotEdges id
  let mark := g.root.toList.map fun root => "node" ++ toString root ++ " -> InstrRoot [style=dotted]\n"
  return "digraph G \x7b\nnode [shape=record,style=rounded]\nedge [dir=\"back\"]\n" ++
    String.join body ++ String.join mark ++ "\x7d\n"

end Graph

end Codegen
