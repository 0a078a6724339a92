/-
The value that a node computes.

What an instruction does is given from outside, as a `meaning`: the value of a node,
from the values of other nodes.  `value` ties the knot along operands.  It only ever
asks for nodes with smaller ids, which is what makes it a definition; on a graph whose
operands all lead backward, that is no restriction, and elsewhere the answer is `none`.

Two graphs compute the same values if they do so node by node, each node being given
the values of the nodes before it.  `value_congr` says this once, across instruction
sets and meanings, so that what comes later argues about single nodes only.
-/
import Codegen.Graph.Basic

namespace Codegen

universe u

/-- The value of a node, from the values of the nodes it refers to. -/
abbrev Meaning (O T : Type) (V : Type u) := (NodeId → Option V) → Node O T → Option V

namespace Graph

variable {O T O' T' : Type} {V : Type u}

/-- The value of a node, computed along its operands. -/
def value (meaning : Meaning O T V) (g : Graph O T) (id : NodeId) : Option V :=
  match g.node? id with
  | none => none
  | some n => meaning (fun operand => if operand < id then g.value meaning operand else none) n
termination_by id

/-- The values of the nodes before a node. -/
def below (meaning : Meaning O T V) (g : Graph O T) (id : NodeId) : NodeId → Option V :=
  fun operand => if operand < id then g.value meaning operand else none

theorem below_of_lt (meaning : Meaning O T V) (g : Graph O T) {id operand : NodeId}
    (h : operand < id) : g.below meaning id operand = g.value meaning operand := if_pos h

/-- The value of a node is its meaning where the nodes before it have their values. -/
theorem value_eq (meaning : Meaning O T V) (g : Graph O T) (id : NodeId) :
    g.value meaning id = (g.node? id).bind (meaning (g.below meaning id)) := by
  rw [value]
  cases g.node? id with
  | none => rfl
  | some n => rfl

theorem value_of_node {meaning : Meaning O T V} {g : Graph O T} {id : NodeId} {n : Node O T}
    (h : g.node? id = some n) : g.value meaning id = meaning (g.below meaning id) n := by
  rw [value_eq, h, Option.bind_some]

/-- Graphs that agree node by node, up to a node, agree on its value. -/
theorem value_congr {meaning : Meaning O T V} {meaning' : Meaning O' T' V} {g : Graph O T}
    {g' : Graph O' T'} (id : NodeId) :
    (∀ i ≤ id, (g.node? i).bind (meaning (g.below meaning i))
      = (g'.node? i).bind (meaning' (g.below meaning i))) →
    g.value meaning id = g'.value meaning' id := by
  induction id using Nat.strongRecOn with
  | ind id ih =>
      intro h
      have hbelow : g.below meaning id = g'.below meaning' id := by
        funext operand
        by_cases hlt : operand < id
        · rw [below_of_lt meaning g hlt, below_of_lt meaning' g' hlt]
          exact ih operand hlt fun i hi => h i (Nat.le_trans hi (Nat.le_of_lt hlt))
        · simp only [below, if_neg hlt]
      rw [value_eq, value_eq, h id (Nat.le_refl id), hbelow]

end Graph

end Codegen
