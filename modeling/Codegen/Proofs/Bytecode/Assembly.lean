/-
What a list of records builds.

`Assembly` is the stack machine with everything taken away that is not about records: no
bytes, no cursor, and no graph with rules of use.  It holds the nodes in the order of their
ids and the stack, and a record either changes the two or is the first that cannot.  Ids
have 32 bits here as well, so a record that creates a node stops where none is left; that
is the one fault that records can lead to.

The machine that reads bytes does the same.  Its only additional ways to stop are bytes
that are no record, which regular records never write, and the other faults, which need a
stack entry outside the graph; `Valid` says there is none, and every step keeps it.  So on
written records the two machines agree on success and on failure
(`answers_decodeFunction`), and on bytes from anywhere a success of one is a success of
the other on the records that were read (`of_decodeFunction_ok`).
-/
import Codegen.Bytecode.Draft
import Codegen.Proofs.Bytecode.Record
import Codegen.Proofs.Fault
import Codegen.Proofs.Graph.Construction

namespace Codegen

universe u

/-- Nodes in the order of their ids, and the ids waiting to be used, the last one first. -/
structure Assembly where
  nodes : List IrNode
  stack : List NodeId
deriving DecidableEq, Repr

namespace Assembly

def start : Assembly := { nodes := [], stack := [] }

/-- Append a node and push its id, with `rest` left below. -/
def produce (a : Assembly) (n : IrNode) (rest : List NodeId) : Assembly :=
  { nodes := a.nodes ++ [n], stack := a.nodes.length :: rest }

theorem getElem?_produce {a : Assembly} {n m : IrNode} {rest : List NodeId} {id : NodeId} :
    (a.produce n rest).nodes[id]? = some m ↔
      a.nodes[id]? = some m ∨ id = a.nodes.length ∧ m = n := by
  simp only [produce, List.getElem?_append]
  grind

/-- Do so if there is an id for the node. -/
def grow (a : Assembly) (n : IrNode) (rest : List NodeId) : Except (Stop DecodeError) Assembly :=
  if a.nodes.length < 2 ^ 32 then .ok (a.produce n rest) else .error (.fault Graph.idsUsedUp)

/-- Run the record with number `index`. -/
def step (a : Assembly) (index : Nat) : Record → Except (Stop DecodeError) Assembly
  | .imm type value => a.grow { opcode := .imm, type, imms := [type.cut value] } a.stack
  | .binary op type =>
    match a.stack with
    | rhs :: lhs :: rest => a.grow { opcode := op, type, operands := [lhs, rhs] } rest
    | short => .error (.reject (.stackUnderflow index 2 short.length))
  | .ref id =>
    if id.toNat < a.nodes.length then .ok { a with stack := id.toNat :: a.stack }
    else .error (.reject (.danglingRef index id.toNat a.nodes.length))
  | .chain =>
    match a.stack with
    | first :: top :: rest =>
      .ok { nodes := a.nodes.modify top (·.withChain first), stack := top :: rest }
    | short => .error (.reject (.stackUnderflow index 2 short.length))

/-- Run records in order, the first of which has number `index`. -/
def run (a : Assembly) (index : Nat) : List Record → Except (Stop DecodeError) Assembly
  | [] => .ok a
  | r :: records => do
    let next ← a.step index r
    next.run (index + 1) records

/-- The graph whose root is the one value left. -/
def finish (a : Assembly) : Except (Stop DecodeError) IrGraph :=
  match a.stack with
  | [root] => .ok { nodes := a.nodes.toArray, root := some root }
  | stack => .error (.reject (.unbalancedStack stack.length))

/-- The graph that a list of records builds. -/
def ofRecords (records : List Record) : Except (Stop DecodeError) IrGraph := do
  let a ← start.run 0 records
  a.finish

/-! ### What one record does

`Moves` lists the four ways in which a record can succeed, with what each asks of the
stack and of the ids.  Invariants of a run are proved from it, one case for each kind of
record.
-/

/-- The record `r` leads from `a` to the given state. -/
inductive Moves (a : Assembly) : Record → Assembly → Prop
  | imm (type : Primitive) (value : UInt64) (hroom : a.nodes.length < 2 ^ 32) :
      Moves a (.imm type value)
        (a.produce { opcode := .imm, type, imms := [type.cut value] } a.stack)
  | binary (op : Opcode) (type : Primitive) {lhs rhs : NodeId} {rest : List NodeId}
      (hstack : a.stack = rhs :: lhs :: rest) (hroom : a.nodes.length < 2 ^ 32) :
      Moves a (.binary op type)
        (a.produce { opcode := op, type, operands := [lhs, rhs] } rest)
  | ref {id : UInt64} (hid : id.toNat < a.nodes.length) :
      Moves a (.ref id) { a with stack := id.toNat :: a.stack }
  | chain {first top : NodeId} {rest : List NodeId} (hstack : a.stack = first :: top :: rest) :
      Moves a .chain { nodes := a.nodes.modify top (·.withChain first), stack := top :: rest }

theorem of_grow_ok {a b : Assembly} {n : IrNode} {rest : List NodeId} (h : a.grow n rest = .ok b) :
    a.nodes.length < 2 ^ 32 ∧ b = a.produce n rest := by
  unfold grow at h
  split at h
  · next hroom =>
      cases h
      exact ⟨hroom, rfl⟩
  · cases h

theorem moves_of_step {a b : Assembly} {index : Nat} {r : Record} (h : a.step index r = .ok b) :
    a.Moves r b := by
  cases r with
  | imm type value =>
      obtain ⟨hroom, rfl⟩ := of_grow_ok h
      exact Moves.imm type value hroom
  | binary op type =>
      simp only [step] at h
      split at h
      · rename_i rhs lhs rest hstack
        obtain ⟨hroom, rfl⟩ := of_grow_ok h
        exact Moves.binary op type hstack hroom
      · cases h
  | ref id =>
      simp only [step] at h
      split at h
      · rename_i hid
        cases h
        exact Moves.ref hid
      · cases h
  | chain =>
      simp only [step] at h
      split at h
      · rename_i first top rest hstack
        cases h
        exact Moves.chain hstack
      · cases h

/-- The records lead, one after the other, from the first state to the last. -/
inductive Runs : Assembly → List Record → Assembly → Prop
  | nil (a : Assembly) : Runs a [] a
  | cons {a next b : Assembly} {r : Record} {records : List Record} (hmove : a.Moves r next)
      (hrest : Runs next records b) : Runs a (r :: records) b

theorem runs_of_run (records : List Record) :
    ∀ {a b : Assembly} {index : Nat}, a.run index records = .ok b → Runs a records b := by
  induction records with
  | nil =>
      intro a b index h
      cases h
      exact Runs.nil a
  | cons r records ih =>
      intro a b index h
      obtain ⟨next, hstep, hrest⟩ := of_bind_eq_ok h
      exact Runs.cons (moves_of_step hstep) (ih hrest)

/-- A graph that records build is the state they end in, with the one value left as its root. -/
theorem runs_of_ofRecords {records : List Record} {g : IrGraph} (h : ofRecords records = .ok g) :
    ∃ a root, Runs start records a ∧ a.stack = [root] ∧
      g = { nodes := a.nodes.toArray, root := some root } := by
  obtain ⟨a, hrun, hfinish⟩ := of_bind_eq_ok h
  unfold finish at hfinish
  split at hfinish
  · next root hstack =>
      cases hfinish
      exact ⟨a, root, runs_of_run records hrun, hstack, rfl⟩
  · cases hfinish

/-- Setting a chain is not seen by what does not look at chains. -/
theorem bind_modify_withChain {β : Type u} {f : IrNode → Option β} {first : NodeId}
    (hf : ∀ n, f (n.withChain first) = f n) (nodes : List IrNode) (top i : NodeId) :
    (nodes.modify top (·.withChain first))[i]?.bind f = nodes[i]?.bind f := by
  rw [List.getElem?_modify]
  cases nodes[i]? with
  | none => rfl
  | some n =>
      show f (if top = i then n.withChain first else n) = f n
      by_cases htop : top = i
      · rw [if_pos htop, hf]
      · rw [if_neg htop]

/-! ### The stack stays in range -/

/-- What holds between two records. -/
structure Valid (a : Assembly) : Prop where
  /-- Every id that waits to be used is the id of a node. -/
  stack : ∀ id ∈ a.stack, id < a.nodes.length
  /-- There are no more nodes than ids. -/
  size : a.nodes.length ≤ 2 ^ 32

theorem start_valid : start.Valid := by
  refine ⟨?_, Nat.zero_le _⟩
  intro id hid
  cases hid

theorem produce_valid {a : Assembly} {rest : List NodeId} (n : IrNode)
    (hroom : a.nodes.length < 2 ^ 32) (h : ∀ id ∈ rest, id < a.nodes.length) :
    (a.produce n rest).Valid := by
  have hlength : (a.produce n rest).nodes.length = a.nodes.length + 1 := List.length_append
  refine ⟨?_, by rw [hlength]; exact hroom⟩
  intro id hid
  rw [hlength]
  rcases List.mem_cons.mp hid with rfl | hrest
  · exact Nat.lt_succ_self _
  · exact Nat.lt_succ_of_lt (h id hrest)

theorem Moves.valid {a b : Assembly} {r : Record} (h : a.Moves r b) (hv : a.Valid) :
    b.Valid := by
  cases h with
  | imm type value hroom => exact produce_valid _ hroom hv.stack
  | binary op type hstack hroom =>
      refine produce_valid _ hroom fun id hid => hv.stack id ?_
      rw [hstack]
      exact List.mem_cons_of_mem _ (List.mem_cons_of_mem _ hid)
  | ref hid =>
      refine ⟨?_, hv.size⟩
      intro id hmem
      rcases List.mem_cons.mp hmem with rfl | hrest
      · exact hid
      · exact hv.stack id hrest
  | chain hstack =>
      refine ⟨?_, by rw [List.length_modify]; exact hv.size⟩
      intro id hmem
      simp only [List.length_modify]
      refine hv.stack id ?_
      rw [hstack]
      exact List.mem_cons_of_mem _ hmem

theorem Runs.valid {a b : Assembly} {records : List Record} (h : Runs a records b)
    (hv : a.Valid) : b.Valid := by
  induction h with
  | nil a => exact hv
  | cons hmove _ ih => exact ih (hmove.valid hv)

/-- What every record keeps when it is run, the whole run keeps. -/
theorem Runs.invariant {P : Assembly → Prop} {a b : Assembly} {records : List Record}
    (h : Runs a records b)
    (hstep : ∀ {a r b}, r ∈ records → a.Moves r b → a.Valid → P a → P b) (hv : a.Valid)
    (ha : P a) : P b := by
  induction h with
  | nil a => exact ha
  | cons hmove _ ih =>
      exact ih (fun hr => hstep (List.mem_cons_of_mem _ hr)) (hmove.valid hv)
        (hstep List.mem_cons_self hmove hv ha)

/-! ### The machine that reads bytes takes the same steps -/

/-- The machine in the same state. -/
def toMachine (a : Assembly) : Machine :=
  { graph := { nodes := a.nodes.toArray, root := none }, stack := a.stack }

theorem produce_toMachine {a : Assembly} {n : IrNode} {rest : List NodeId}
    (h : ∀ id ∈ n.refs, id < a.nodes.length) :
    Machine.produce rest (a.toMachine.graph.create n) = (a.grow n rest).map toMachine := by
  have hsize : a.toMachine.graph.size = a.nodes.length := rfl
  unfold grow
  by_cases hroom : a.nodes.length < 2 ^ 32
  · rw [if_pos hroom, Graph.create_of_lt (hsize ▸ hroom) (hsize ▸ h)]
    show Except.ok (Machine.mk ⟨a.nodes.toArray.push n, none⟩ _) = _
    rw [List.push_toArray]
    rfl
  · rw [if_neg hroom, Graph.create_of_le (hsize ▸ Nat.not_lt.mp hroom)]
    rfl

/-- The id of a node fits in 32 bits, so that cutting it to them changes nothing. -/
theorem toNat_toUInt32_of_lt {a : Assembly} {id : UInt64} (hv : a.Valid)
    (hid : id.toNat < a.nodes.length) : id.toUInt32.toNat = id.toNat := by
  rw [UInt64.toNat_toUInt32]
  exact Nat.mod_eq_of_lt (Nat.lt_of_lt_of_le hid hv.size)

/-- A step of the machine on a stored record is a step on the record. -/
theorem step_toMachine {a : Assembly} (hv : a.Valid) (index : Nat) (r : Record) :
    a.toMachine.step index r.stored = (a.step index r).map toMachine := by
  cases r with
  | imm type value => exact produce_toMachine (by simp [Node.refs])
  | binary op type =>
      obtain ⟨nodes, stack⟩ := a
      rcases stack with _ | ⟨rhs, _ | ⟨lhs, rest⟩⟩
      · rfl
      · rfl
      · refine produce_toMachine fun id hid => hv.stack id ?_
        simp only [Node.refs, Option.toList_none, List.append_nil, List.mem_cons] at hid ⊢
        rcases hid with rfl | rfl | hid
        · exact Or.inr (Or.inl rfl)
        · exact Or.inl rfl
        · cases hid
  | ref id =>
      by_cases hlt : id.toNat < a.nodes.length
      · have hlt' : id.toNat < a.toMachine.graph.size := hlt
        simp only [Machine.step, Record.stored, step, if_pos hlt, if_pos hlt',
          toNat_toUInt32_of_lt hv hlt]
        rfl
      · have hlt' : ¬id.toNat < a.toMachine.graph.size := hlt
        simp only [Machine.step, Record.stored, step, if_neg hlt, if_neg hlt']
        rfl
  | chain =>
      obtain ⟨nodes, stack⟩ := a
      rcases stack with _ | ⟨first, _ | ⟨top, rest⟩⟩
      · rfl
      · rfl
      · have htop : top < nodes.length := hv.stack top (by simp)
        simp only [Machine.step, Record.stored, step, toMachine]
        rw [Graph.update_of_lt (by simpa [Graph.size] using htop), List.modify_toArray]
        rfl

theorem finish_toMachine {a : Assembly} (hv : a.Valid) : a.toMachine.finish = a.finish := by
  obtain ⟨nodes, stack⟩ := a
  rcases stack with _ | ⟨root, _ | ⟨below, rest⟩⟩
  · rfl
  · have hroot : root < nodes.length := hv.stack root (by simp)
    simp only [Machine.finish, finish, toMachine]
    rw [Graph.setRoot_of_lt (by simpa [Graph.size] using hroot)]
    rfl
  · rfl

/-! ### Running written records -/

theorem answers_advance {a : Assembly} (hv : a.Valid) (index : Nat) {r : Record}
    (hr : r.isRegular) :
    Reader.Answers (a.toMachine.advance index) r.encode ((a.step index r).map toMachine) := by
  have hstep : Reader.Answers (Reader.ofExcept (a.toMachine.step index r.stored)) []
      ((a.step index r).map toMachine) := by
    rw [step_toMachine hv]
    exact Reader.answers_ofExcept _
  rw [← List.append_nil r.encode]
  exact (Record.reads_read hr).bind_answers
    (f := fun record => Reader.ofExcept (a.toMachine.step index record)) hstep

theorem answers_run {records : List Record} (hregular : ∀ r ∈ records, r.isRegular) :
    ∀ {a : Assembly} (index : Nat), a.Valid →
      Reader.Answers (a.toMachine.run index records.length) (records.flatMap Record.encode)
        ((a.run index records).map toMachine) := by
  induction records with
  | nil =>
      intro a index _
      exact Reader.Reads.pure a.toMachine
  | cons r records ih =>
      intro a index hv
      have hhead := answers_advance hv index (hregular r List.mem_cons_self)
      rw [List.flatMap_cons]
      cases hstep : a.step index r with
      | error stop =>
          rw [hstep] at hhead
          simp only [run, hstep]
          exact (Reader.Halts.bind hhead _).append _
      | ok next =>
          rw [hstep] at hhead
          simp only [run, hstep]
          exact Reader.Reads.bind_answers hhead
            (ih (fun r hr => hregular r (List.mem_cons_of_mem _ hr)) (index + 1)
              ((moves_of_step hstep).valid hv))

/-- On the bytes of regular records the decoder ends as the records do. -/
theorem answers_decodeFunction {records : List Record}
    (hregular : ∀ r ∈ records, r.isRegular) :
    Reader.Answers (decodeFunction records.length) (records.flatMap Record.encode)
      (ofRecords records) := by
  have hrun := answers_run hregular 0 start_valid
  cases hend : start.run 0 records with
  | error stop =>
      rw [hend] at hrun
      simp only [ofRecords, hend]
      exact Reader.Halts.bind hrun _
  | ok a =>
      rw [hend] at hrun
      have hfinish : Reader.Answers (Reader.ofExcept a.toMachine.finish) [] a.finish := by
        rw [finish_toMachine ((runs_of_run records hend).valid start_valid)]
        exact Reader.answers_ofExcept _
      simp only [ofRecords, hend]
      rw [← List.append_nil (records.flatMap Record.encode)]
      exact Reader.Reads.bind_answers (f := fun m => Reader.ofExcept m.finish) hrun hfinish

/-! ### Running whatever bytes there are -/

/-- Where the machine goes on, it has read a record and taken the step of that record. -/
theorem of_advance_ok {a : Assembly} {index : Nat} {m : Machine} {c c' : Cursor} (hv : a.Valid)
    (h : a.toMachine.advance index c = .ok m c') :
    ∃ r b, Record.read c = .ok r c' ∧ a.step index r = .ok b ∧ m = b.toMachine ∧
      r.isRegular ∧ r.stored = r := by
  obtain ⟨r, c₁, hread, hstep⟩ := Reader.of_bind_ok h
  have hr := Record.of_read_ok hread
  -- What was read is already cut, so the machine takes the step of the record itself.
  rw [← hr.2, step_toMachine hv] at hstep
  cases hnext : a.step index r with
  | error stop =>
      rw [hnext] at hstep
      cases hstep
  | ok b =>
      rw [hnext] at hstep
      cases hstep
      exact ⟨r, b, hread, hnext, rfl, hr⟩

theorem of_run_ok (count : Nat) :
    ∀ {a : Assembly} {index : Nat} {m : Machine} {c c' : Cursor}, a.Valid →
      a.toMachine.run index count c = .ok m c' →
      ∃ records b, Reader.many Record.read count c = .ok records c' ∧
        a.run index records = .ok b ∧ m = b.toMachine ∧
        ∀ r ∈ records, r.isRegular ∧ r.stored = r := by
  induction count with
  | zero =>
      intro a index m c c' _ h
      cases h
      exact ⟨[], a, rfl, rfl, rfl, by simp⟩
  | succ count ih =>
      intro a index m c c' hv h
      obtain ⟨next, c₁, hadvance, h⟩ := Reader.of_bind_ok h
      obtain ⟨r, b, hread, hstep, rfl, hr⟩ := of_advance_ok hv hadvance
      obtain ⟨records, d, hmany, hrun, hm, hall⟩ := ih ((moves_of_step hstep).valid hv) h
      refine ⟨r :: records, d, ?_, ?_, hm, ?_⟩
      · rw [Reader.many, Reader.bind_ok hread, Reader.bind_ok hmany]
        rfl
      · simp only [run, hstep]
        exact hrun
      · intro r' hr'
        rcases List.mem_cons.mp hr' with rfl | hmem
        · exact hr
        · exact hall r' hmem

/-- Where the decoder succeeds, it has read records, and the graph is what they build. -/
theorem of_decodeFunction_ok {count : Nat} {g : IrGraph} {c c' : Cursor}
    (h : decodeFunction count c = .ok g c') :
    ∃ records, Reader.many Record.read count c = .ok records c' ∧ ofRecords records = .ok g ∧
      ∀ r ∈ records, r.isRegular ∧ r.stored = r := by
  obtain ⟨m, c₁, hrun, hfinish⟩ := Reader.of_bind_ok h
  obtain ⟨records, a, hmany, ha, rfl, hall⟩ := of_run_ok count start_valid hrun
  rw [finish_toMachine ((runs_of_run records ha).valid start_valid)] at hfinish
  cases hend : a.finish with
  | error stop =>
      rw [hend] at hfinish
      cases hfinish
  | ok g' =>
      rw [hend] at hfinish
      cases hfinish
      refine ⟨records, hmany, ?_, hall⟩
      simp only [ofRecords, ha]
      exact hend

end Assembly

end Codegen
