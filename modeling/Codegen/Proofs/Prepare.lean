/-
What the passes before selection do to a graph.

Making pointers general changes types and nothing else, and a target that has one type
for all pointers does not see the change.  A graph that passes the check of types has a
target type for every node, whatever the target; a graph that does not pass is refused for
the first node that has none.
-/
import Codegen.Prepare
import Codegen.Proofs.Fault
import Codegen.Proofs.Graph.Reach
import Codegen.TypeMap

namespace Codegen

/-! ### Types -/

/-- A pointer has the same type in a target whether or not it says what it points to. -/
theorem TypeMap.lower?_generalize {T : Type} (types : TypeMap T) (type : ValueType) :
    types.lower? type.generalize = types.lower? type := by
  cases type with
  | prim p => cases p <;> rfl
  | descriptor index => rfl

/-- A type that selection takes exists in every target. -/
theorem TypeMap.exists_lower? {T : Type} (types : TypeMap T) {type : ValueType}
    (h : type.objection? = none) : ∃ lowered, types.lower? type = some lowered := by
  cases type with
  | prim p => exact ⟨types.lower p, rfl⟩
  | descriptor index => exact absurd h (Option.some_ne_none _)

/-! ### Graphs -/

namespace Graph

theorem node?_generalizePointers (g : IrGraph) (id : NodeId) :
    g.generalizePointers.node? id
      = (g.node? id).map fun n => { n with type := n.type.generalize } :=
  Array.getElem?_map ..

theorem node?_generalizePointers_of_some {g : IrGraph} {id : NodeId} {n : IrNode}
    (hn : g.node? id = some n) :
    g.generalizePointers.node? id = some { n with type := n.type.generalize } := by
  rw [node?_generalizePointers, hn, Option.map_some]

theorem of_node?_generalizePointers {g : IrGraph} {id : NodeId} {n : IrNode}
    (hn : g.generalizePointers.node? id = some n) :
    ∃ k, g.node? id = some k ∧ n = { k with type := k.type.generalize } := by
  rw [node?_generalizePointers] at hn
  obtain ⟨k, hk, rfl⟩ := Option.map_eq_some_iff.mp hn
  exact ⟨k, hk, rfl⟩

theorem size_generalizePointers (g : IrGraph) : g.generalizePointers.size = g.size :=
  Array.size_map ..

theorem firstObjection?_eq_none_iff (id : NodeId) (ns : List IrNode) :
    firstObjection? id ns = none ↔ ∀ n ∈ ns, n.type.objection? = none := by
  induction ns generalizing id with
  | nil => simp [firstObjection?]
  | cons n rest ih =>
      rw [firstObjection?, List.forall_mem_cons]
      cases hn : n.type.objection? with
      | none => simpa using ih (id + 1)
      | some reason => simp

/-- The first node of a row to which there is an objection is the one that is found. -/
theorem firstObjection?_eq_some {reason : String} (ns : List IrNode) :
    ∀ {id i : NodeId} {n : IrNode}, ns[i]? = some n → n.type.objection? = some reason →
      (∀ j < i, ∀ m, ns[j]? = some m → m.type.objection? = none) →
      firstObjection? id ns = some (id + i, n, reason) := by
  induction ns with
  | nil =>
      intro id i n hn
      cases hn
  | cons first rest ih =>
      intro id i n hn hreason hbefore
      cases i with
      | zero =>
          cases hn
          rw [firstObjection?, hreason]
          rfl
      | succ i =>
          have hrest : firstObjection? (id + 1) rest = some (id + 1 + i, n, reason) :=
            ih hn hreason fun j hj m hm => hbefore (j + 1) (Nat.succ_lt_succ hj) m hm
          rw [Nat.add_right_comm, Nat.add_assoc] at hrest
          rw [firstObjection?, hbefore 0 (Nat.succ_pos i) first rfl]
          exact hrest

end Graph

theorem Pass.noFault_checkTypes (g : IrGraph) : NoFault (Pass.checkTypes.run g) := by
  simp only [NotingPass.run, Pass.checkTypes, Run.quiet]
  split
  · exact NoFault.ok g
  · exact NoFault.reject _

/-- The check of types hands a graph on unchanged, and only if it takes every type in it. -/
theorem Pass.of_checkTypes_ok {g g' : IrGraph} (h : Pass.checkTypes.run g = .ok g') :
    g' = g ∧ ∀ id n, g.node? id = some n → n.type.objection? = none := by
  simp only [NotingPass.run, Pass.checkTypes, Run.quiet] at h
  cases hfirst : Graph.firstObjection? 0 g.nodes.toList with
  | some found =>
      rw [hfirst] at h
      cases h
  | none =>
      rw [hfirst] at h
      cases h
      refine ⟨rfl, fun id n hn => ?_⟩
      have hmem : n ∈ g.nodes.toList := Array.mem_toList_iff.mpr (Array.mem_of_getElem? hn)
      exact (Graph.firstObjection?_eq_none_iff 0 _).mp hfirst n hmem

theorem Pass.checkTypes_eq_ok {g : IrGraph}
    (h : ∀ id n, g.node? id = some n → n.type.objection? = none) :
    Pass.checkTypes.run g = .ok g := by
  have hnone : Graph.firstObjection? 0 g.nodes.toList = none := by
    refine (Graph.firstObjection?_eq_none_iff 0 _).mpr fun n hn => ?_
    obtain ⟨id, hid⟩ := Array.getElem?_of_mem (Array.mem_toList_iff.mp hn)
    exact h id n hid
  simp only [NotingPass.run, Pass.checkTypes, Run.quiet, hnone]

/-- What is said about a node of a type that selection does not take. -/
def Pass.typeRefusal (id : NodeId) (n : IrNode) (reason : String) : Diagnostic :=
  { error := .illegalType id n.type.name reason
    subsystem := .isel
    pass := some "cg::isel::dag_check"
    notes := ["In pass cg::isel::dag_check"] }

/-- The check of types refuses a graph for the first node to which there is an objection. -/
theorem Pass.checkTypes_eq_error {g : IrGraph} {id : NodeId} {n : IrNode} {reason : String}
    (hn : g.node? id = some n) (hreason : n.type.objection? = some reason)
    (hbefore : ∀ i < id, ∀ m, g.node? i = some m → m.type.objection? = none) :
    Pass.checkTypes.run g = .error (.reject (typeRefusal id n reason)) := by
  have hsome : Graph.firstObjection? 0 g.nodes.toList = some (0 + id, n, reason) := by
    refine Graph.firstObjection?_eq_some _ (by rw [Array.getElem?_toList]; exact hn) hreason ?_
    intro i hi m hm
    rw [Array.getElem?_toList] at hm
    exact hbefore i hi m hm
  rw [Nat.zero_add] at hsome
  simp only [NotingPass.run, Pass.checkTypes, Run.quiet, hsome]
  rfl

end Codegen
