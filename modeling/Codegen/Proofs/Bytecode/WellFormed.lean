/-
What a decoded function looks like.

A function comes from bytes that anybody may have written, and what is done with it later
rests on its form: the nodes are immediates and binary operations and nothing else, an
immediate is one value that its type has room for, an operation has two operands and they
come before it.  None of this is checked on the finished graph.  It is a matter of what a
record can create, since the node that a record creates keeps its form: all that later
records do to it is to set its chain, and a chain leads to a node that was on the stack.
-/
import Codegen.Proofs.Bytecode.Circles

namespace Codegen

/-- A node with a given id as a record creates it: an immediate that its type has room for, or an
operation on two nodes with smaller ids. -/
inductive Node.WellFormed (id : NodeId) : IrNode → Prop
  | imm {type : Primitive} {width : Nat} {value : UInt64} {chain : Option NodeId}
      (htype : type ∈ [.u8, .u16, .u32, .u64, .bool]) (hwidth : type.immWidth? = some width)
      (hvalue : value.toNat < 2 ^ (8 * width)) :
      Node.WellFormed id { opcode := .imm, type := .prim type, imms := [value], chain }
  | binary {op : Opcode} {type : Primitive} {lhs rhs : NodeId} {chain : Option NodeId}
      (hop : op ∈ [.add, .sub, .mul, .udiv, .sdiv]) (hlhs : lhs < id) (hrhs : rhs < id) :
      Node.WellFormed id { opcode := op, type := .prim type, operands := [lhs, rhs], chain }

/-- The form of a function: there are nodes, one of them is the root, each is as a record creates
it, and chains lead to nodes. -/
structure Graph.WellFormed (g : IrGraph) : Prop where
  nonempty : 0 < g.size
  root : ∃ root, g.root = some root ∧ root < g.size
  nodes : ∀ id n, g.node? id = some n → n.WellFormed id
  chains : ∀ id n first, g.node? id = some n → n.chain = some first → first < g.size

/-! ### What a record can create -/

theorem Primitive.mem_of_immWidth? {type : Primitive} {width : Nat}
    (h : type.immWidth? = some width) : type ∈ [.u8, .u16, .u32, .u64, .bool] := by
  cases type with
  | u8 | u16 | u32 | u64 | bool => decide
  | void | ptrU8 | ptrU16 | ptrU32 | ptrU64 | ptrBool | ptr => cases h

theorem Opcode.mem_of_isBinary {op : Opcode} (h : op.isBinary) :
    op ∈ [.add, .sub, .mul, .udiv, .sdiv] := by
  cases op with
  | add | sub | mul | udiv | sdiv => decide
  | blank | imm => cases h

/-- What is cut to the width of a type is below the bound of that width. -/
theorem Primitive.cut_lt {type : Primitive} {width : Nat} (h : type.immWidth? = some width)
    (value : UInt64) : (type.cut value).toNat < 2 ^ (8 * width) := by
  rw [cut, h, Option.getD_some, UInt64.toNat_ofNat']
  exact Nat.lt_of_le_of_lt (Nat.mod_le ..) (Nat.mod_lt _ (Nat.two_pow_pos _))

theorem Node.WellFormed.withChain {id : NodeId} {n : IrNode} (h : n.WellFormed id)
    (first : NodeId) : (n.withChain first).WellFormed id := by
  cases h with
  | imm htype hwidth hvalue => exact .imm htype hwidth hvalue
  | binary hop hlhs hrhs => exact .binary hop hlhs hrhs

namespace Assembly

variable {a b : Assembly} {r : Record} {records : List Record} {n : IrNode} {rest : List NodeId}

/-- Every node is as a record creates it. -/
def Formed (a : Assembly) : Prop :=
  ∀ (id : NodeId) (n : IrNode), a.nodes[id]? = some n → n.WellFormed id

theorem start_formed : start.Formed := by
  intro id n hn
  cases hn

theorem produce_formed (h : a.Formed) (hn : n.WellFormed a.nodes.length) :
    (a.produce n rest).Formed := by
  intro id m hm
  rcases getElem?_produce.mp hm with hold | ⟨rfl, rfl⟩
  · exact h id m hold
  · exact hn

theorem Moves.formed (h : a.Moves r b) (hv : a.Valid) (hregular : r.isRegular) (hf : a.Formed) :
    b.Formed := by
  cases h with
  | imm type value =>
      obtain ⟨width, hwidth⟩ := Option.isSome_iff_exists.mp hregular
      exact produce_formed hf
        (.imm (Primitive.mem_of_immWidth? hwidth) hwidth (Primitive.cut_lt hwidth value))
  | @binary op type lhs rhs rest hstack =>
      have hlhs : lhs < a.nodes.length := hv.stack lhs (by simp [hstack])
      have hrhs : rhs < a.nodes.length := hv.stack rhs (by simp [hstack])
      exact produce_formed hf (.binary (Opcode.mem_of_isBinary hregular) hlhs hrhs)
  | ref hid => exact hf
  | @chain first top rest hstack =>
      intro id n hn
      simp only [List.getElem?_modify] at hn
      obtain ⟨m, hm, rfl⟩ := Option.map_eq_some_iff.mp hn
      have hm := hf id m hm
      by_cases htop : top = id
      · rw [if_pos htop]
        exact hm.withChain first
      · rw [if_neg htop]
        exact hm

theorem Runs.formed (h : Runs a records b) (hregular : ∀ r ∈ records, r.isRegular) (hv : a.Valid)
    (hf : a.Formed) : b.Formed :=
  h.invariant (fun hr hmove hv hf => hmove.formed hv (hregular _ hr) hf) hv hf

end Assembly

/--
**Every decoded function is well formed,** whatever the bytes and the number of records: where the
decoder succeeds, there are nodes and one of them is the root, every node is an immediate that its
type has room for or a binary operation on two nodes with smaller ids, and chains lead to nodes.
-/
theorem decodeFunction_wellFormed {count : Nat} {g : IrGraph} {c c' : Cursor}
    (h : decodeFunction count c = .ok g c') : g.WellFormed := by
  obtain ⟨records, -, hbuild, hrecords⟩ := Assembly.of_decodeFunction_ok h
  have hclosed := Assembly.closed_of_ofRecords hbuild
  obtain ⟨a, root, hruns, -, rfl⟩ := Assembly.runs_of_ofRecords hbuild
  have hroot := hclosed.root root rfl
  refine ⟨Nat.zero_lt_of_lt hroot, ⟨root, rfl, hroot⟩, ?_, ?_⟩
  · intro id n hn
    have hformed := hruns.formed (fun r hr => (hrecords r hr).1) Assembly.start_valid
      Assembly.start_formed
    refine hformed id n ?_
    rw [← Assembly.node?_graph]
    exact hn
  · intro id n first hn hchain
    have hlinked := hruns.linked Assembly.start_valid Assembly.start_linked
    exact hlinked id first ⟨n, hn, List.mem_append_right _ (Option.mem_toList.mpr hchain)⟩

/-- The largest immediate of two bytes, a truth value chained to an operation that comes after it,
and the operation shared. -/
theorem decodeFunction_wellFormed_chained :
    let bytes : List UInt8 :=
      [1, 2, 0xff, 0xff, 1, 5, 1, 6, 11, 0x40, 1, 0x40, 2, 0x41, 2, 4]
    let g : IrGraph :=
      { nodes :=
          #[{ opcode := .imm, type := .prim .u16, imms := [0xffff] },
            { opcode := .imm, type := .prim .bool, imms := [1], chain := some 2 },
            { opcode := .sdiv, type := .prim .ptr, operands := [0, 1] },
            { opcode := .add, type := .prim .u64, operands := [2, 1] }]
        root := some 3 }
    decodeFunction 7 (Cursor.start bytes) = .ok g ⟨16, []⟩ ∧ g.WellFormed := by
  intro bytes g
  have hdecode : decodeFunction 7 (Cursor.start bytes) = .ok g ⟨16, []⟩ := rfl
  exact ⟨hdecode, decodeFunction_wellFormed hdecode⟩

end Codegen
