/-
Instruction selection.

Every node is turned into the machine node with the same id: the table chooses a
rule, the rule's pattern records the nodes that matter, and the rule's shaping fills
in a placeholder.  The nodes are independent of each other; the first, in order of ids,
that has no rule or cannot be shaped is the diagnostic.
-/
import Codegen.Pass
import Codegen.Rule.Table

namespace Codegen

/-- A named table, ready to select with. -/
structure Selector (O T : Type) where
  name : String
  table : Table O T

namespace Selector

variable {O T : Type} (s : Selector O T)

/-- No rule accepts the node. -/
def noRule (id : NodeId) (n : IrNode) : Diagnostic :=
  { error := .unsupportedPattern id n.opcode.name, subsystem := .isel, pass := some s.name }

/-- The rule at `position` cannot shape the node. -/
def badShape (id : NodeId) (position : Nat) (error : CompileError) : Diagnostic :=
  { error
    subsystem := .isel
    pass := some s.name
    notes := ["while rewriting " ++ NodeId.label id ++ s!" with rule #{position}"] }

/-- Record what the rule's pattern asks for and shape a placeholder. -/
def applyRule [Inhabited O] [Inhabited T] (g : IrGraph) (id : NodeId) (n : IrNode) (rule : Rule O T) :
    Except (Stop CompileError) (Node O T) := do
  let captures ← Stop.ofFault (rule.pattern.capture g id rule.pattern.freshBuffer)
  rule.shaping.apply { graph := g, id, node := n, captures, types := s.table.types } Node.placeholder

/-- The machine node for a node. -/
def lower [Inhabited O] [Inhabited T] (g : IrGraph) (id : NodeId) (n : IrNode) :
    Except (Stop Diagnostic) (Node O T) := do
  match ← Stop.ofFault (s.table.choose g id) with
  | none => .error (.reject (s.noRule id n))
  | some (position, rule) =>
    (s.applyRule g id n rule).mapError (Stop.map (s.badShape id position))

/-- The machine nodes for a row of nodes, the first of which has the given id. -/
def lowerFrom [Inhabited O] [Inhabited T] (g : IrGraph) (id : NodeId) :
    List IrNode → Except (Stop Diagnostic) (List (Node O T))
  | [] => .ok []
  | n :: rest => do
    let target ← s.lower g id n
    let later ← lowerFrom g (id + 1) rest
    return target :: later

/-- Give a graph the root that another one has. -/
def keepRoot (g : IrGraph) (target : Graph O T) : Except Fault (Graph O T) :=
  match g.root with
  | none => .ok target
  | some root => target.setRoot root

/-- The machine graph for a graph. -/
def select [Inhabited O] [Inhabited T] (g : IrGraph) : Except (Stop Diagnostic) (Graph O T) := do
  let nodes ← s.lowerFrom g 0 g.nodes.toList
  Stop.ofFault (keepRoot g { nodes := nodes.toArray, root := none })

/-! ### Selection in place

The same on a graph of as many placeholders, each of which is overwritten by the machine node for
its id.  Here the placeholder has to be there, and there have to be ids for all of them.
-/

/-- Overwrite the node at `id` with the machine node for it. -/
def rewriteAt [Inhabited O] [Inhabited T] (g : IrGraph) (id : NodeId) (n : IrNode)
    (target : Graph O T) : Except (Stop Diagnostic) (Graph O T) := do
  match ← Stop.ofFault (s.table.choose g id) with
  | none => .error (.reject (s.noRule id n))
  | some (position, rule) =>
    let captures ← Stop.ofFault (rule.pattern.capture g id rule.pattern.freshBuffer)
    let blank ← Stop.ofFault (target.node id)
    let site := { graph := g, id, node := n, captures, types := s.table.types }
    let made ← (rule.shaping.apply site blank).mapError (Stop.map (s.badShape id position))
    Stop.ofFault (target.update id fun _ => made)

/-- Overwrite one node after another, starting at the given id. -/
def rewriteFrom [Inhabited O] [Inhabited T] (g : IrGraph) (id : NodeId) :
    List IrNode → Graph O T → Except (Stop Diagnostic) (Graph O T)
  | [], target => .ok target
  | n :: rest, target => do
    let target ← s.rewriteAt g id n target
    rewriteFrom g (id + 1) rest target

/-- The machine graph for a graph, made from placeholders. -/
def selectInPlace [Inhabited O] [Inhabited T] (g : IrGraph) :
    Except (Stop Diagnostic) (Graph O T) := do
  let blank ← Stop.ofFault (Graph.placeholders g.size)
  let target ← s.rewriteFrom g 0 g.nodes.toList blank
  Stop.ofFault (keepRoot g target)

/-- What is noted for a row of nodes: the rule chosen for each, up to the first failure. -/
def choicesFrom [Inhabited O] [Inhabited T] (g : IrGraph) (id : NodeId) : List IrNode → Journal
  | [] => []
  | n :: rest =>
    let label := NodeId.label id
    match s.table.choose g id with
    | .error _ => []
    | .ok none => [.debug s!"{s.name}: no rule for {label} ({n.opcode}, {n.type})"]
    | .ok (some (position, rule)) =>
      .trace s!"{s.name}: {label} ({n.opcode}) -> rule #{position}" ::
        match s.applyRule g id n rule with
        | .error _ => []
        | .ok _ => choicesFrom g (id + 1) rest

/-- Selection as a pass. -/
def toPass [Inhabited O] [Inhabited T] : Pass IrGraph (Graph O T) where
  name := s.name
  perform g :=
    { notes := .debug s!"{s.name}: selecting {g.size} nodes" :: s.choicesFrom g 0 g.nodes.toList
      outcome := s.select g }

end Selector

end Codegen
