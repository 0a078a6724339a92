/-
Decoding keeps the meaning of a function.

The records of a function can be run without building a graph: an immediate pushes its
value, an operation pops two values and pushes one, a reference pushes once more what an
earlier record produced, and a chain pops a value that is not used.  `ValueMachine` does
that, over any values and any operations on them.

Building the graph and running the values go in step.  The relation between the two is
`Follows`: the node with a given id has the value that was produced in its turn, and the
stack of ids, looked up, is the stack of values.  Appending a node leaves the values of
the earlier nodes alone, because they ask for earlier nodes only, and setting a chain
leaves all values alone, because no value depends on a chain.
-/
import Codegen.Proofs.Bytecode.Assembly
import Codegen.Proofs.Graph.Value

namespace Codegen

universe u

/-- What immediates and binary operations stand for. -/
structure Interpretation (V : Type u) where
  imm : Primitive → UInt64 → V
  binary : Opcode → Primitive → V → V → V

/-- The value of a node of a graph, from the values of its operands. -/
def Interpretation.meaning {V : Type u} (I : Interpretation V) : Meaning Opcode ValueType V :=
  fun value n =>
    n.type.primitive?.bind fun type =>
      if n.opcode.isBinary then
        match n.operands with
        | [lhs, rhs] =>
          (value lhs).bind fun a => (value rhs).map fun b => I.binary n.opcode type a b
        | _ => none
      else if n.opcode = .imm then n.imms.head?.map (I.imm type)
      else none

/-- The values that records have produced, in order, and those waiting to be used, the last
one first. -/
structure ValueMachine (V : Type u) where
  produced : List V
  stack : List V

namespace ValueMachine

variable {V : Type u} (I : Interpretation V)

def start : ValueMachine V := { produced := [], stack := [] }

/-- Produce a value and push it, with `rest` left below. -/
def produce (m : ValueMachine V) (v : V) (rest : List V) : ValueMachine V :=
  { produced := m.produced ++ [v], stack := v :: rest }

/-- Run one record.  There is no result if the stack is too short or a reference leads nowhere. -/
def step (m : ValueMachine V) : Record → Option (ValueMachine V)
  | .imm type value => some (m.produce (I.imm type value) m.stack)
  | .binary op type =>
    match m.stack with
    | rhs :: lhs :: rest => some (m.produce (I.binary op type lhs rhs) rest)
    | _ => none
  | .ref id => m.produced[id.toNat]?.map fun v => { m with stack := v :: m.stack }
  | .chain =>
    match m.stack with
    | _ :: rest => some { m with stack := rest }
    | [] => none

/-- Run records in order. -/
def run (m : ValueMachine V) : List Record → Option (ValueMachine V)
  | [] => some m
  | r :: records => (m.step I r).bind fun next => next.run records

end ValueMachine

namespace Assembly

variable {V : Type u} {I : Interpretation V}

/-- The nodes as a graph without a root. -/
def graph (a : Assembly) : IrGraph := { nodes := a.nodes.toArray, root := none }

theorem node?_graph (a : Assembly) (id : NodeId) : a.graph.node? id = a.nodes[id]? :=
  List.getElem?_toArray ..

/-! ### What a change to the nodes does to values -/

theorem value_produce_of_lt {a : Assembly} {n : IrNode} {rest : List NodeId} {id : NodeId}
    (h : id < a.nodes.length) :
    (a.produce n rest).graph.value I.meaning id = a.graph.value I.meaning id := by
  refine (Graph.value_congr id fun i hi => ?_).symm
  have hlt : i < a.nodes.length := Nat.lt_of_le_of_lt hi h
  rw [node?_graph, node?_graph, produce, List.getElem?_append_left hlt]

theorem value_produce_new {a : Assembly} {n : IrNode} {rest : List NodeId} :
    (a.produce n rest).graph.value I.meaning a.nodes.length
      = I.meaning ((a.produce n rest).graph.below I.meaning a.nodes.length) n := by
  refine Graph.value_of_node ?_
  rw [node?_graph, produce]
  exact List.getElem?_concat_length

theorem value_chain {a : Assembly} {first top : NodeId} {rest : List NodeId} {id : NodeId} :
    Graph.value I.meaning
        (Assembly.graph { nodes := a.nodes.modify top (·.withChain first), stack := rest }) id
      = a.graph.value I.meaning id := by
  refine Graph.value_congr id ?_
  intro i _
  rw [node?_graph, node?_graph]
  exact bind_modify_withChain (fun n => rfl) a.nodes top i

/-! ### The two machines in step -/

/-- The graph built so far computes the values produced so far, and the stacks agree. -/
structure Follows (I : Interpretation V) (a : Assembly) (m : ValueMachine V) : Prop where
  length : m.produced.length = a.nodes.length
  value : ∀ id, id < a.nodes.length → a.graph.value I.meaning id = m.produced[id]?
  stack : a.stack.map (m.produced[·]?) = m.stack.map some

theorem start_follows : Follows I start ValueMachine.start :=
  ⟨rfl, fun _ hid => absurd hid (Nat.not_lt_zero _), rfl⟩

theorem produce_follows {a : Assembly} {m : ValueMachine V} {n : IrNode} {v : V}
    {rest : List NodeId} {rest' : List V} (h : Follows I a m)
    (hvalue : (a.produce n rest).graph.value I.meaning a.nodes.length = some v)
    (hrest : rest.map (m.produced[·]?) = rest'.map some)
    (hrange : ∀ id ∈ rest, id < a.nodes.length) :
    Follows I (a.produce n rest) (m.produce v rest') := by
  have hnew : (m.produced ++ [v])[a.nodes.length]? = some v := by
    rw [← h.length]
    exact List.getElem?_concat_length
  have hold : ∀ id, id < a.nodes.length → (m.produced ++ [v])[id]? = m.produced[id]? := by
    intro id hid
    exact List.getElem?_append_left (h.length ▸ hid)
  refine ⟨by simp [produce, ValueMachine.produce, h.length], fun id hid => ?_, ?_⟩
  · rw [produce, List.length_append, List.length_singleton] at hid
    rcases Nat.lt_or_eq_of_le (Nat.le_of_lt_succ hid) with hlt | rfl
    · rw [value_produce_of_lt hlt, h.value id hlt]
      exact (hold id hlt).symm
    · rw [hvalue]
      exact hnew.symm
  · simp only [produce, ValueMachine.produce, List.map_cons, hnew, ← hrest]
    rw [List.map_congr_left fun id hid => hold id (hrange id hid)]

/-- A record that the graph takes is one that the values take, to states that still agree. -/
theorem Moves.follows {a b : Assembly} {r : Record} {m : ValueMachine V} (h : a.Moves r b)
    (hf : Follows I a m) (hv : a.Valid) (hregular : r.isRegular) (hstored : r.stored = r) :
    ∃ m', m.step I r = some m' ∧ Follows I b m' := by
  cases h with
  | imm type value =>
      have hcut : type.cut value = value := (Record.imm.inj hstored).2
      refine ⟨_, rfl, produce_follows hf ?_ hf.stack hv.stack⟩
      rw [value_produce_new, hcut]
      rfl
  | @binary op type lhs rhs rest hstack =>
      have hlhs : lhs < a.nodes.length := hv.stack lhs (by simp [hstack])
      have hrhs : rhs < a.nodes.length := hv.stack rhs (by simp [hstack])
      have hvalues := hf.stack
      rw [hstack, List.map_cons, List.map_cons] at hvalues
      -- The stack of values is as deep, so it holds the values of both operands.
      obtain ⟨y, ys, hm, hy, hys⟩ := List.map_eq_cons_iff.mp hvalues.symm
      obtain ⟨x, xs, rfl, hx, hxs⟩ := List.map_eq_cons_iff.mp hys
      refine ⟨m.produce (I.binary op type x y) xs, by simp only [ValueMachine.step, hm],
        produce_follows hf ?_ hxs.symm fun id hid => hv.stack id (by simp [hstack, hid])⟩
      have hop : op.isBinary := hregular
      rw [value_produce_new, Interpretation.meaning]
      simp only [ValueType.primitive?, Option.bind_some, hop, if_true]
      rw [Graph.below_of_lt _ _ hlhs, Graph.below_of_lt _ _ hrhs, value_produce_of_lt hlhs,
        value_produce_of_lt hrhs, hf.value lhs hlhs, hf.value rhs hrhs, ← hx, ← hy]
      rfl
  | @ref id hid =>
      have hlt : id.toNat < m.produced.length := hf.length ▸ hid
      obtain ⟨v, hget⟩ : ∃ v, m.produced[id.toNat]? = some v :=
        ⟨_, List.getElem?_eq_getElem hlt⟩
      refine ⟨{ m with stack := v :: m.stack }, by rw [ValueMachine.step, hget]; rfl, hf.length,
        hf.value, ?_⟩
      simp only [List.map_cons, hget, hf.stack]
  | @chain first top rest hstack =>
      have hvalues := hf.stack
      rw [hstack, List.map_cons] at hvalues
      obtain ⟨y, ys, hm, -, hys⟩ := List.map_eq_cons_iff.mp hvalues.symm
      refine ⟨{ m with stack := ys }, by simp only [ValueMachine.step, hm], ?_, ?_, hys.symm⟩
      · simpa using hf.length
      · intro id hid
        rw [value_chain]
        exact hf.value id (by simpa using hid)

/-- A run that builds a graph is a run of values, to states that still agree. -/
theorem Runs.follows {a b : Assembly} {records : List Record} (h : Runs a records b) :
    ∀ {m : ValueMachine V}, Follows I a m → a.Valid →
      (∀ r ∈ records, r.isRegular ∧ r.stored = r) →
      ∃ m', m.run I records = some m' ∧ Follows I b m' := by
  induction h with
  | nil a =>
      intro m hf _ _
      exact ⟨m, rfl, hf⟩
  | @cons a next b r records hmove _ ih =>
      intro m hf hv hrecords
      obtain ⟨hregular, hstored⟩ := hrecords r List.mem_cons_self
      obtain ⟨m₁, hstep, hf₁⟩ := hmove.follows hf hv hregular hstored
      obtain ⟨m₂, hrun, hf₂⟩ := ih hf₁ (hmove.valid hv) fun r' hr' =>
        hrecords r' (List.mem_cons_of_mem r hr')
      refine ⟨m₂, ?_, hf₂⟩
      rw [ValueMachine.run, hstep, Option.bind_some]
      exact hrun

end Assembly

/--
**Decoding keeps the meaning.**  Where the decoder succeeds, the records it has read run
on values, for every interpretation, without ever missing one; exactly one value is left,
and it is the value of the root of the graph.
-/
theorem decodeFunction_value {V : Type u} (I : Interpretation V) {count : Nat} {g : IrGraph}
    {c c' : Cursor} (h : decodeFunction count c = .ok g c') :
    ∃ records m root v, Reader.many Record.read count c = .ok records c' ∧
      ValueMachine.start.run I records = some m ∧ m.stack = [v] ∧
      g.root = some root ∧ g.value I.meaning root = some v := by
  obtain ⟨records, hmany, hbuild, hrecords⟩ := Assembly.of_decodeFunction_ok h
  obtain ⟨a, root, hruns, hstack, rfl⟩ := Assembly.runs_of_ofRecords hbuild
  obtain ⟨m, hrun, hf⟩ := hruns.follows (I := I) Assembly.start_follows Assembly.start_valid
    hrecords
  have hroot : root < a.nodes.length :=
    (hruns.valid Assembly.start_valid).stack root (by simp [hstack])
  have hvalues := hf.stack
  rw [hstack, List.map_cons, List.map_nil] at hvalues
  obtain ⟨v, vs, hm, hv, hvs⟩ := List.map_eq_cons_iff.mp hvalues.symm
  refine ⟨records, m, root, v, hmany, hrun, ?_, rfl, ?_⟩
  · rw [hm, List.map_eq_nil_iff.mp hvs]
  · -- The root is not part of what a value depends on.
    have hgraph : Graph.value I.meaning ⟨a.nodes.toArray, some root⟩ root
        = a.graph.value I.meaning root := Graph.value_congr root fun i _ => rfl
    rw [hgraph, hf.value root hroot, ← hv]

/-- `5 - (3 - 5)`, with the first immediate shared. -/
theorem decodeFunction_value_shared :
    let bytes : List UInt8 := [1, 1, 5, 1, 1, 3, 0x40, 0, 3, 1, 3, 1]
    let g : IrGraph :=
      { nodes :=
          #[{ opcode := .imm, type := .prim .u8, imms := [5] },
            { opcode := .imm, type := .prim .u8, imms := [3] },
            { opcode := .sub, type := .prim .u8, operands := [1, 0] },
            { opcode := .sub, type := .prim .u8, operands := [0, 2] }]
        root := some 3 }
    let I : Interpretation Int :=
      { imm := fun _ value => value.toNat
        binary := fun op _ a b => if op = .sub then a - b else a + b }
    decodeFunction 5 (Cursor.start bytes) = .ok g ⟨12, []⟩ ∧
      ∃ records m root v, Reader.many Record.read 5 (Cursor.start bytes) = .ok records ⟨12, []⟩ ∧
        ValueMachine.start.run I records = some m ∧ m.stack = [v] ∧
        g.root = some root ∧ g.value I.meaning root = some v := by
  intro bytes g I
  have hdecode : decodeFunction 5 (Cursor.start bytes) = .ok g ⟨12, []⟩ := rfl
  exact ⟨hdecode, decodeFunction_value I hdecode⟩

end Codegen
