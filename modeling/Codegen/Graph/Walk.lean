/-
Walking a graph from its root.

The walk is breadth-first along operands; chains are not followed.  A node is listed
when it is taken from the queue, and a node that was listed before is passed over,
so the walk ends on graphs with circles too: each step either shortens the queue or
lists one of the finitely many nodes not listed yet.  An edge that leads out of the
graph is a fault when its end is taken from the queue.
-/
import Codegen.Graph.Basic

namespace Codegen

namespace Graph

variable {O T : Type}

/-- Walk on from a queue; `seen` tells which nodes have been listed. -/
def walkFrom (g : Graph O T) (seen : Array Bool) (queue : List NodeId) :
    Except Fault (List (NodeId × Node O T)) :=
  match queue with
  | [] => .ok []
  | id :: rest =>
    if h : id < seen.size then
      if seen[id] then walkFrom g seen rest
      else do
        let n ← g.node id
        let later ← walkFrom g (seen.set id true) (rest ++ n.operands)
        return (id, n) :: later
    else .error .outOfRange
termination_by (seen.count false, queue.length)
decreasing_by
  · exact Prod.Lex.right _ (Nat.lt_succ_self _)
  · refine Prod.Lex.left _ _ ?_
    rename_i hseen
    have hfalse : seen[id] = false := by simpa using hseen
    have hpos : 0 < seen.count false := Array.count_pos_iff.mpr (hfalse ▸ Array.getElem_mem h)
    rw [Array.count_set h, hfalse]
    show seen.count false - 1 + 0 < seen.count false
    omega

/-- The nodes reachable from the root along operands, each once, nearest first. -/
def walk (g : Graph O T) : Except Fault (List (NodeId × Node O T)) :=
  match g.root with
  | none => .ok []
  | some root => g.walkFrom (Array.replicate g.size false) [root]

/-- The ids of `walk`. -/
def reachable (g : Graph O T) : Except Fault (List NodeId) :=
  g.walk.map fun visited => visited.map (·.1)

end Graph

end Codegen
