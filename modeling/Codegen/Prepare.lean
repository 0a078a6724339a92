/-
The passes before selection.

Selection knows one class of pointers, so typed pointers are made general first.
After that every node must have a type that a machine value can have.
-/
import Codegen.Ir
import Codegen.Pass

namespace Codegen

namespace ValueType

/-- Typed pointers become general ones; other types stay. -/
def generalize (type : ValueType) : ValueType := if type.isTypedPointer then .prim .ptr else type

/-- What is wrong with a type that selection does not take, if anything is. -/
def objection? : ValueType → Option String
  | .prim p => if p.isScalar ∨ p = .bool then none else some "primitive"
  | .descriptor _ => some "non-primitive"

end ValueType

namespace Graph

/-- Make all pointers general. -/
def generalizePointers (g : IrGraph) : IrGraph :=
  { g with nodes := g.nodes.map fun n => { n with type := n.type.generalize } }

/-- The first node of a row, counted from `id`, that has a type selection does not take, with the
reason. -/
def firstObjection? (id : NodeId) : List IrNode → Option (NodeId × IrNode × String)
  | [] => none
  | n :: rest =>
    match n.type.objection? with
    | some reason => some (id, n, reason)
    | none => firstObjection? (id + 1) rest

end Graph

namespace Pass

def generalizePointers : Pass IrGraph IrGraph where
  name := "cg::ir::lower_to_isel"
  perform g := .quiet (.ok g.generalizePointers)

def checkTypesName : String := "cg::isel::dag_check"

/-- Pass a graph on unchanged if every node has a type that selection takes. -/
def checkTypes : Pass IrGraph IrGraph where
  name := checkTypesName
  perform g :=
    .quiet <|
      match Graph.firstObjection? 0 g.nodes.toList with
      | none => .ok g
      | some (id, n, reason) =>
        .error <| .reject
          { error := .illegalType id n.type.name reason
            subsystem := .isel
            pass := some checkTypesName
            notes := ["In pass " ++ checkTypesName] }

end Pass

end Codegen
