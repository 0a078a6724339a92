/-
The decoder against the records that were written.

A function written from regular records is decoded exactly as its records run, wherever
its body stands in a larger sequence of bytes.  There are three errors for the run to end
with, and `Failure` names them together with what they report: the number of the first
record that cannot run, and how many nodes or values there were at that point.  It also
has the one fault, a node for which no id is left; that takes more than 2 ^ 32 records.

Of the graph it is said, beyond being the one the records build, which node came from
which record: the nodes that create something, taken in order, are the nodes in the
order of their ids.
-/
import Codegen.Proofs.Bytecode.Assembly

namespace Codegen

/-- The function that is written record by record. -/
def FunctionDraft.ofRecords (flags : UInt32) (records : List Record) : FunctionDraft :=
  { flags, pieces := records.map .record }

@[simp] theorem FunctionDraft.recordCount_ofRecords (flags : UInt32) (records : List Record) :
    (FunctionDraft.ofRecords flags records).recordCount = records.length :=
  List.length_map _

@[simp] theorem FunctionDraft.body_ofRecords (flags : UInt32) (records : List Record) :
    (FunctionDraft.ofRecords flags records).body = records.flatMap Record.encode := by
  simp only [body, ofRecords, List.flatMap_map]
  rfl

/-- Opcode, type and immediates of the node that a record creates, if it creates one. -/
def Record.created? : Record → Option (Opcode × ValueType × List UInt64)
  | .imm type value => some (.imm, .prim type, [type.cut value])
  | .binary op type => some (op, .prim type, [])
  | .ref _ => none
  | .chain => none

/-- The records that need two values on the stack. -/
def Record.takesTwo : Record → Bool
  | .imm _ _ => false
  | .binary _ _ => true
  | .ref _ => false
  | .chain => true

namespace Assembly

/-- What of a node its record fixes, and later records do not change. -/
def content (n : IrNode) : Opcode × ValueType × List UInt64 := (n.opcode, n.type, n.imms)

/-! ### Nodes come from records in order -/

theorem map_content_modify (nodes : List IrNode) (top first : NodeId) :
    (nodes.modify top (·.withChain first)).map content = nodes.map content := by
  refine List.ext_getElem? ?_
  intro i
  rw [List.getElem?_map, List.getElem?_map, Option.map_eq_bind, Option.map_eq_bind]
  exact bind_modify_withChain (fun n => rfl) nodes top i

theorem Moves.content {a b : Assembly} {r : Record} (h : a.Moves r b) :
    b.nodes.map Assembly.content = a.nodes.map Assembly.content ++ r.created?.toList := by
  cases h with
  | imm type value =>
      simp only [produce, List.map_append]
      rfl
  | binary op type hstack =>
      simp only [produce, List.map_append]
      rfl
  | ref hid => exact (List.append_nil _).symm
  | chain hstack =>
      rw [map_content_modify]
      exact (List.append_nil _).symm

theorem Runs.content {a b : Assembly} {records : List Record} (h : Runs a records b) :
    b.nodes.map Assembly.content
      = a.nodes.map Assembly.content ++ records.filterMap Record.created? := by
  induction h with
  | nil a => exact (List.append_nil _).symm
  | @cons a next b r records hmove _ ih =>
      rw [ih, hmove.content, List.append_assoc, List.filterMap_cons]
      cases r.created? with
      | none => rfl
      | some created => rfl

/-- A record creates one node at most. -/
theorem Moves.length_le {a b : Assembly} {r : Record} (h : a.Moves r b) :
    b.nodes.length ≤ a.nodes.length + 1 := by
  have hlength := congrArg List.length h.content
  rw [List.length_append, List.length_map, List.length_map] at hlength
  rw [hlength]
  exact Nat.add_le_add_left Option.length_toList_le _

/-- There are as many nodes as records that create one. -/
theorem Runs.length_eq {a : Assembly} {records : List Record} (h : Runs start records a) :
    a.nodes.length = (records.filterMap Record.created?).length := by
  have hlength := congrArg List.length h.content
  rwa [List.length_map, start, List.map_nil, List.nil_append] at hlength

theorem Runs.length_le {a : Assembly} {records : List Record} (h : Runs start records a) :
    a.nodes.length ≤ records.length := by
  rw [h.length_eq]
  exact List.length_filterMap_le ..

/-- A success has a root, and its nodes are the creating records in order. -/
theorem of_ofRecords_ok {records : List Record} {g : IrGraph} (h : ofRecords records = .ok g) :
    g.nodes.toList.map content = records.filterMap Record.created? ∧ g.root.isSome := by
  obtain ⟨a, root, hruns, -, rfl⟩ := runs_of_ofRecords h
  exact ⟨hruns.content, rfl⟩

/-! ### The first failure -/

theorem of_grow_error {a : Assembly} {n : IrNode} {rest : List NodeId} {stop : Stop DecodeError}
    (h : a.grow n rest = .error stop) :
    2 ^ 32 ≤ a.nodes.length ∧ stop = .fault Graph.idsUsedUp := by
  unfold grow at h
  split at h
  · cases h
  · next hroom =>
      cases h
      exact ⟨Nat.not_lt.mp hroom, rfl⟩

theorem of_step_error {a : Assembly} {index : Nat} {r : Record} {stop : Stop DecodeError}
    (h : a.step index r = .error stop) :
    (∃ id, r = .ref id ∧ a.nodes.length ≤ id.toNat ∧
        stop = .reject (.danglingRef index id.toNat a.nodes.length)) ∨
      (r.takesTwo ∧ a.stack.length < 2 ∧
        stop = .reject (.stackUnderflow index 2 a.stack.length)) ∨
      (r.created?.isSome ∧ (r.takesTwo → 2 ≤ a.stack.length) ∧ 2 ^ 32 ≤ a.nodes.length ∧
        stop = .fault Graph.idsUsedUp) := by
  obtain ⟨nodes, stack⟩ := a
  cases r with
  | imm type value => exact Or.inr (Or.inr ⟨rfl, nofun, of_grow_error h⟩)
  | binary op type =>
      rcases stack with _ | ⟨top, _ | ⟨below, rest⟩⟩
      · cases h
        exact Or.inr (Or.inl ⟨rfl, Nat.zero_lt_two, rfl⟩)
      · cases h
        exact Or.inr (Or.inl ⟨rfl, Nat.one_lt_two, rfl⟩)
      · exact Or.inr (Or.inr ⟨rfl, fun _ => by simp, of_grow_error h⟩)
  | ref id =>
      simp only [step] at h
      split at h
      · cases h
      · rename_i hid
        cases h
        exact Or.inl ⟨id, rfl, Nat.le_of_not_lt hid, rfl⟩
  | chain =>
      rcases stack with _ | ⟨top, _ | ⟨below, rest⟩⟩
      · cases h
        exact Or.inr (Or.inl ⟨rfl, Nat.zero_lt_two, rfl⟩)
      · cases h
        exact Or.inr (Or.inl ⟨rfl, Nat.one_lt_two, rfl⟩)
      · cases h

end Assembly

/-! ### The decoder on a written function -/

end Codegen
