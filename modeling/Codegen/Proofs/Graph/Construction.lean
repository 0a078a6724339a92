/-
Graphs inside their bounds.

An operation on a graph faults only when it names a node that is not there, or when it
adds one and no id is left.  Here is the other half, which everything that builds or reads
graphs rests on: with references in range, and fewer than 2 ^ 32 nodes if there is to be
another, the operation succeeds, and this is what it gives.
-/
import Mathlib.Algebra.Group.Nat.Defs
import Codegen.Graph.Basic

namespace Codegen

-- A node is its parts, and a graph is its nodes and its root.
attribute [ext] Node Graph

namespace Graph

variable {O T : Type} {g : Graph O T} {id : NodeId} {n : Node O T}

/-! ### Looking nodes up -/

theorem node_eq_ok (h : g.node? id = some n) : g.node id = .ok n := by
  simp only [node, h]

theorem of_node_eq_ok (h : g.node id = .ok n) : g.node? id = some n := by
  unfold node at h
  split at h
  · next m hm =>
      cases h
      exact hm
  · cases h

theorem lt_size_of_node? (h : g.node? id = some n) : id < g.size :=
  (Array.getElem?_eq_some_iff.mp h).1

theorem exists_node? (h : id < g.size) : ∃ n, g.node? id = some n :=
  ⟨_, Array.getElem?_eq_getElem h⟩

theorem node?_eq_none_iff : g.node? id = none ↔ g.size ≤ id := Array.getElem?_eq_none_iff

/-! ### Where operands lead -/

/-- Every operand is a node of the graph. -/
def InRange (g : Graph O T) : Prop :=
  ∀ id n, g.node? id = some n → ∀ operand ∈ n.operands, operand < g.size

/-- Every operand comes before the node that uses it. -/
def Backward (g : Graph O T) : Prop :=
  ∀ id n, g.node? id = some n → ∀ operand ∈ n.operands, operand < id

theorem Backward.inRange (h : g.Backward) : g.InRange := by
  intro id n hn operand hmem
  exact Nat.lt_trans (h id n hn operand hmem) (lt_size_of_node? hn)

/-- To look at every node is to look at every position of the row. -/
theorem forall_node?_iff {P : NodeId → Node O T → Prop} :
    (∀ id n, g.node? id = some n → P id n) ↔ ∀ i : Fin g.nodes.size, P i g.nodes[i] := by
  constructor
  · intro h i
    exact h i _ (Array.getElem?_eq_getElem i.isLt)
  · intro h id n hn
    obtain ⟨hid, rfl⟩ := Array.getElem?_eq_some_iff.mp hn
    exact h ⟨id, hid⟩

instance {P : NodeId → Node O T → Prop} [∀ id n, Decidable (P id n)] :
    Decidable (∀ id n, g.node? id = some n → P id n) :=
  decidable_of_iff _ forall_node?_iff.symm

instance : Decidable g.InRange := inferInstanceAs (Decidable (∀ _ _, _ → _))

instance : Decidable g.Backward := inferInstanceAs (Decidable (∀ _ _, _ → _))

/-! ### Building -/

theorem nextId_of_lt (h : g.size < 2 ^ 32) : g.nextId = .ok g.size := if_pos h

theorem nextId_of_le (h : 2 ^ 32 ≤ g.size) : g.nextId = .error idsUsedUp :=
  if_neg (Nat.not_lt.mpr h)

/-- A node is appended under the next id, or refused for the first of its references that is not
there. -/
theorem create_eq_of_lt (hroom : g.size < 2 ^ 32) (n : Node O T) :
    g.create n = match n.refs.find? (g.size ≤ ·) with
      | some missing => .error (g.outside missing)
      | none => .ok ({ g with nodes := g.nodes.push n }, g.size) := by
  unfold create
  rw [nextId_of_lt hroom]
  rfl

/-- Without an id to give, no node is looked at. -/
theorem create_of_le (hfull : 2 ^ 32 ≤ g.size) (n : Node O T) :
    g.create n = .error idsUsedUp := by
  unfold create
  rw [nextId_of_le hfull]
  rfl

/-- A node whose references exist is appended, under the next id. -/
theorem create_of_lt (hroom : g.size < 2 ^ 32) (h : ∀ id ∈ n.refs, id < g.size) :
    g.create n = .ok ({ g with nodes := g.nodes.push n }, g.size) := by
  have hnone : n.refs.find? (g.size ≤ ·) = none := by
    rw [List.find?_eq_none]
    intro id hid
    simpa using h id hid
  rw [create_eq_of_lt hroom, hnone]

/-- As many placeholders are appended as are wanted, if there are ids for them. -/
theorem addPlaceholders_of_le [Inhabited O] [Inhabited T] (count : Nat) :
    ∀ {g : Graph O T}, g.size + count ≤ 2 ^ 32 →
      g.addPlaceholders count
        = .ok { g with nodes := g.nodes ++ Array.replicate count Node.placeholder } := by
  induction count with
  | zero =>
      intro g _
      rw [addPlaceholders, Array.replicate_zero, Array.append_empty]
  | succ count ih =>
      intro g hroom
      have hrefs : ∀ id ∈ (Node.placeholder : Node O T).refs, id < g.size := nofun
      have hpushed : (g.nodes.push Node.placeholder).size + count ≤ 2 ^ 32 := by
        rw [Array.size_push, Nat.add_right_comm]
        exact hroom
      have hrest := ih (g := { g with nodes := g.nodes.push Node.placeholder }) hpushed
      rw [addPlaceholders, create_of_lt (by omega) hrefs]
      show addPlaceholders { g with nodes := g.nodes.push Node.placeholder } count = _
      rw [hrest, Array.push_eq_append, Array.append_assoc, Array.replicate_succ']

theorem placeholders_of_le [Inhabited O] [Inhabited T] {count : Nat} (h : count ≤ 2 ^ 32) :
    (placeholders count : Except Fault (Graph O T))
      = .ok { nodes := Array.replicate count Node.placeholder, root := none } := by
  have hroom : (empty : Graph O T).size + count ≤ 2 ^ 32 := by
    rwa [show (empty : Graph O T).size = 0 from rfl, Nat.zero_add]
  unfold placeholders
  rw [addPlaceholders_of_le count hroom, empty, Array.empty_append]

theorem setRoot_of_lt (h : id < g.size) : g.setRoot id = .ok { g with root := some id } := if_pos h

theorem update_of_lt (h : id < g.size) (f : Node O T → Node O T) :
    g.update id f = .ok { g with nodes := g.nodes.modify id f } := if_pos h

end Graph

end Codegen
