/-
A graph as a listing: one line for each node, in order of their ids.
-/
import Codegen.Graph.Basic
import Codegen.InstructionSet

namespace Codegen

variable {O T : Type}

/-- What an instruction works on: its operands, then its immediates. -/
def Node.arguments (n : Node O T) : List String :=
  n.operands.map NodeId.label ++ n.imms.map fun value => "#" ++ toString value

/-- The line of a node, without the mark of the root. -/
def Node.listing [InstructionSet O] [ToString T] (id : NodeId) (n : Node O T) : String :=
  NodeId.label id ++ " = " ++ InstructionSet.mnemonic n.opcode ++ " " ++ toString n.type ++
    (if n.arguments.isEmpty then "" else " " ++ ", ".intercalate n.arguments) ++
    String.join (n.chain.toList.map fun first => " chain " ++ NodeId.label first)

/-- Every node of a graph on a line of its own; the root is marked. -/
def Graph.listing [InstructionSet O] [ToString T] (g : Graph O T) : String :=
  String.join <| g.nodes.toList.zipIdx.map fun (n, id) =>
    n.listing id ++ (if g.root = some id then "  ; root" else "") ++ "\n"

end Codegen
