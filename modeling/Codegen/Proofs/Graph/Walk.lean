/-
Walking a graph from its root never leaves it.

A walk faults only at an id that is no node.  The ids it meets are the root and operands
of nodes it has met, so a graph from whose root and operands no edge leads outside is
walked to the end.  The invariant is that the queue holds nodes only; that there are as
many marks as nodes is part of it, since a mark is looked at before its node is.
-/
import Codegen.Graph.Dot
import Codegen.Proofs.Fault
import Codegen.Proofs.Graph.Construction

namespace Codegen

namespace Graph

variable {O T : Type} {g : Graph O T}

/-- Neither the root nor an operand leads out of the graph. -/
structure Closed (g : Graph O T) : Prop where
  root : ∀ id, g.root = some id → id < g.size
  operands : g.InRange

/-- From a queue of nodes that operands do not lead out of the walk comes to its end. -/
theorem exists_walkFrom {S : NodeId → Prop} (hnodes : ∀ id, S id → id < g.size)
    (hclosed : ∀ id n, S id → g.node? id = some n → ∀ operand ∈ n.operands, S operand)
    (seen : Array Bool) (queue : List NodeId) :
    seen.size = g.size → (∀ id ∈ queue, S id) →
      ∃ visited, g.walkFrom seen queue = .ok visited := by
  fun_induction walkFrom g seen queue with
  | case1 seen =>
      intro _ _
      exact ⟨[], rfl⟩
  | case2 seen id rest h hseen ih =>
      intro hsize hqueue
      exact ih hsize fun i hi => hqueue i (List.mem_cons_of_mem id hi)
  | case3 seen id rest h hseen ih =>
      intro hsize hqueue
      have hid : S id := hqueue id List.mem_cons_self
      obtain ⟨n, hn⟩ := exists_node? (hnodes id hid)
      have hnext : ∀ i ∈ rest ++ n.operands, S i := by
        intro i hi
        rcases List.mem_append.mp hi with hrest | hoperand
        · exact hqueue i (List.mem_cons_of_mem id hrest)
        · exact hclosed id n hid hn i hoperand
      obtain ⟨later, hlater⟩ := ih n (by rw [Array.size_set, hsize]) hnext
      refine ⟨(id, n) :: later, ?_⟩
      rw [node_eq_ok hn, ok_bind, hlater]
      rfl
  | case4 seen id rest h =>
      intro hsize hqueue
      exact absurd (hsize ▸ hnodes id (hqueue id List.mem_cons_self)) h

/-- A closed graph is walked to the end. -/
theorem Closed.exists_walk (h : g.Closed) : ∃ visited, g.walk = .ok visited := by
  unfold walk
  cases hroot : g.root with
  | none => exact ⟨[], rfl⟩
  | some root =>
      refine exists_walkFrom (fun _ hid => hid) (fun id n _ hn => h.operands id n hn) _ [root]
        (Array.size_replicate ..) ?_
      intro id hid
      rw [List.mem_singleton.mp hid]
      exact h.root root hroot

theorem reachable_of_walk {visited : List (NodeId × Node O T)} (h : g.walk = .ok visited) :
    g.reachable = .ok (visited.map (·.1)) := by
  rw [reachable, h]
  rfl

theorem Closed.exists_reachable (h : g.Closed) : ∃ ids, g.reachable = .ok ids := by
  obtain ⟨visited, hvisited⟩ := h.exists_walk
  exact ⟨visited.map (·.1), reachable_of_walk hvisited⟩

theorem Closed.exists_toDot [InstructionSet O] [ToString T] (h : g.Closed) :
    ∃ text, g.toDot = .ok text := by
  obtain ⟨visited, hvisited⟩ := h.exists_walk
  rw [toDot, hvisited, ok_bind]
  exact ⟨_, rfl⟩

end Graph

end Codegen
