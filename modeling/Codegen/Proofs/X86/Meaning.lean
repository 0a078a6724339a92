/-
Compiling for x86 keeps the meaning of a graph.

Nodes compute 64-bit words.  What a register of a given type does with a result is left
open: `wrap` may be any function.  An immediate is its constant, an operation is applied
to its first two operands and wrapped to the type that the target has for the node.  The
machine instructions mean what their names say.

On a graph whose operands lead backward, the instruction for a node computes what the
node computes.  The argument is about one node at a time: where an instruction carries a
constant, the node has an immediate for an operand, whose value is that constant, and for
an addition it does not matter on which side it stands.
-/
import Codegen.Proofs.Graph.Value
import Codegen.Proofs.X86.Forms

namespace Codegen.X86

/-! ### What nodes and instructions compute -/

/-- An operation on the values of the first two operands. -/
def onOperands (f : UInt64 → UInt64 → UInt64) (value : NodeId → Option UInt64) :
    List NodeId → Option UInt64
  | a :: b :: _ => (value a).bind fun x => (value b).map fun y => f x y
  | _ => none

/-- An operation on the value of the first operand and the first constant. -/
def onConstant (f : UInt64 → UInt64 → UInt64) (value : NodeId → Option UInt64) :
    List NodeId → List UInt64 → Option UInt64
  | a :: _, c :: _ => (value a).map fun x => f x c
  | _, _ => none

variable (wrap : RegType → UInt64 → UInt64)

/-- What a node of a graph computes, on words wrapped to the type the target has for it. -/
def sourceMeaning : Meaning Codegen.Opcode ValueType UInt64 := fun value n =>
  match n.opcode with
  | .imm => n.imms[0]?
  | .add => (types.lower? n.type).bind fun type =>
      onOperands (fun x y => wrap type (x + y)) value n.operands
  | .sub => (types.lower? n.type).bind fun type =>
      onOperands (fun x y => wrap type (x - y)) value n.operands
  | _ => none

/-- What an instruction computes. -/
def machineMeaning : Meaning Opcode RegType UInt64 := fun value m =>
  match m.opcode with
  | .movRi => m.imms[0]?
  | .addRi => onConstant (fun x y => wrap m.type (x + y)) value m.operands m.imms
  | .subRi => onConstant (fun x y => wrap m.type (x - y)) value m.operands m.imms
  | .addRr => onOperands (fun x y => wrap m.type (x + y)) value m.operands
  | .subRr => onOperands (fun x y => wrap m.type (x - y)) value m.operands
  | .blank => none

variable {wrap} {g : IrGraph} {n : IrNode} {form : Form} {type : RegType}
  {m : Node Opcode RegType} {value : NodeId → Option UInt64}

/-! ### One node -/

/-- The value of an immediate is its constant. -/
theorem value_of_isImm {id : NodeId} (h : g.isImm id = true) :
    g.value (sourceMeaning wrap) id = g.constant? id := by
  cases hn : g.node? id with
  | none => simp [Graph.isImm, hn] at h
  | some n =>
      have hop : n.opcode = .imm := by simpa [Graph.isImm, hn] using h
      rw [Graph.value_of_node hn, Graph.constant?, hn]
      simp only [sourceMeaning, hop, Option.bind_some]

/-- A known value on the right can be carried as a constant. -/
theorem onOperands_right {f : UInt64 → UInt64 → UInt64} {a b : NodeId} {rest : List NodeId}
    {c : UInt64} (hb : value b = some c) :
    onOperands f value (a :: b :: rest) = onConstant f value [a] [c] := by
  simp only [onOperands, onConstant, hb, Option.map_some]
  cases value a with
  | none => rfl
  | some x => rfl

/-- A known value on the left can, too, if the operation commutes. -/
theorem onOperands_left {f : UInt64 → UInt64 → UInt64} {a b : NodeId} {rest : List NodeId}
    {c : UInt64} (hcomm : ∀ x y, f x y = f y x) (ha : value a = some c) :
    onOperands f value (a :: b :: rest) = onConstant f value [b] [c] := by
  simp only [onOperands, onConstant, ha, Option.bind_some]
  exact congrArg (Option.map · (value b)) (funext fun x => hcomm c x)

/-- The instruction for a node computes what the node computes, wherever immediates have their
constants for values. -/
theorem machineMeaning_node? (htype : types.lower? n.type = some type) (htakes : Takes g n form)
    (hnode : form.node? g type n = some m)
    (himm : ∀ operand ∈ n.operands, g.isImm operand = true → value operand = g.constant? operand) :
    machineMeaning wrap value m = sourceMeaning wrap value n := by
  cases htakes with
  | load hop =>
      obtain ⟨c, hc, rfl⟩ := Option.map_eq_some_iff.mp hnode
      simp only [machineMeaning, sourceMeaning, hop, hc]
      rfl
  | @addLeft a b hop hoperands ha =>
      obtain ⟨c, hc, rfl⟩ := Option.map_eq_some_iff.mp hnode
      have hvalue : value a = some c := (himm a (by simp [hoperands]) ha).trans hc
      simp only [machineMeaning, sourceMeaning, hop, hoperands, htype, Option.bind_some]
      exact (onOperands_left (fun x y => by rw [UInt64.add_comm]) hvalue).symm
  | @addRight a b hop hoperands ha hb =>
      obtain ⟨c, hc, rfl⟩ := Option.map_eq_some_iff.mp hnode
      have hvalue : value b = some c := (himm b (by simp [hoperands]) hb).trans hc
      simp only [machineMeaning, sourceMeaning, hop, hoperands, htype, Option.bind_some]
      exact (onOperands_right hvalue).symm
  | @subImm a b rest hop hoperands hb =>
      obtain ⟨c, hc, rfl⟩ := Option.map_eq_some_iff.mp hnode
      have hvalue : value b = some c := (himm b (by simp [hoperands]) hb).trans hc
      simp only [machineMeaning, sourceMeaning, hop, hoperands, htype, Option.bind_some]
      exact (onOperands_right hvalue).symm
  | addRegisters hop hoperands | subRegisters hop hoperands =>
      cases hnode
      simp only [machineMeaning, sourceMeaning, hop, htype, Option.bind_some]

theorem isSome_onOperands {f : UInt64 → UInt64 → UInt64} {a b : NodeId} {rest : List NodeId}
    (ha : (value a).isSome) (hb : (value b).isSome) :
    (onOperands f value (a :: b :: rest)).isSome := by
  obtain ⟨x, hx⟩ := Option.isSome_iff_exists.mp ha
  obtain ⟨y, hy⟩ := Option.isSome_iff_exists.mp hb
  simp [onOperands, hx, hy]

/-- A node that has an instruction has a value if its operands do. -/
theorem isSome_sourceMeaning (htype : types.lower? n.type = some type) (htakes : Takes g n form)
    (hnode : form.node? g type n = some m)
    (hvalue : ∀ operand ∈ n.operands, (value operand).isSome) :
    (sourceMeaning wrap value n).isSome := by
  cases htakes with
  | load hop =>
      obtain ⟨c, hc, -⟩ := Option.map_eq_some_iff.mp hnode
      simp only [sourceMeaning, hop, hc, Option.isSome_some]
  | addLeft hop hoperands | addRight hop hoperands | addRegisters hop hoperands
  | subImm hop hoperands | subRegisters hop hoperands =>
      simp only [sourceMeaning, hop, htype, Option.bind_some, hoperands]
      exact isSome_onOperands (hvalue _ (by simp [hoperands])) (hvalue _ (by simp [hoperands]))

/-! ### Whole graphs -/

variable {t : MachineGraph}

theorem Compiled.value_eq (h : Compiled g t) (hback : g.Backward) (id : NodeId) :
    g.value (sourceMeaning wrap) id = t.value (machineMeaning wrap) id := by
  refine Graph.value_congr id fun i _ => ?_
  cases hn : g.node? i with
  | none =>
      rw [h.node?_eq_none hn]
      rfl
  | some n =>
      obtain ⟨m, form, type, hm, htype, hform, hnode⟩ := h.node i n hn
      rw [hm, Option.bind_some, Option.bind_some]
      refine (machineMeaning_node? htype (takes_of_form? hform) hnode ?_).symm
      -- An operand comes before its user, so its value here is its value in the graph.
      intro operand hmem himm
      rw [Graph.below_of_lt _ _ (hback i n hn operand hmem)]
      exact value_of_isImm himm

theorem Compiled.isSome_value (h : Compiled g t) (hback : g.Backward) {id : NodeId}
    (hid : id < g.size) : (g.value (sourceMeaning wrap) id).isSome := by
  induction id using Nat.strongRecOn with
  | ind id ih =>
      obtain ⟨n, hn⟩ := Graph.exists_node? hid
      obtain ⟨m, form, type, -, htype, hform, hnode⟩ := h.node id n hn
      rw [Graph.value_of_node hn]
      refine isSome_sourceMeaning htype (takes_of_form? hform) hnode ?_
      intro operand hmem
      have hlt : operand < id := hback id n hn operand hmem
      rw [Graph.below_of_lt _ _ hlt]
      exact ih operand hlt (Nat.lt_trans hlt hid)

/-- **Compiling keeps values.**  On a graph whose operands lead backward, every node has a value,
and the instruction with the same id computes it; root and size stay. -/
theorem compile_value (wrap : RegType → UInt64 → UInt64) {g : IrGraph} {t : MachineGraph}
    (hback : g.Backward) (h : compile.run g = .ok t) :
    t.root = g.root ∧ t.size = g.size ∧
      (∀ id, g.value (sourceMeaning wrap) id = t.value (machineMeaning wrap) id) ∧
      ∀ id < g.size, (g.value (sourceMeaning wrap) id).isSome := by
  have hcompiled : Compiled g t := compiled_of_ok hback.inRange h
  exact ⟨hcompiled.root, hcompiled.size, hcompiled.value_eq hback,
    fun _ hid => hcompiled.isSome_value hback hid⟩

/-- Immediates on both sides, on the right and on the left, pointers, a shared and a dead node, more
operands than two, and a chain that leads nowhere. -/
theorem compile_value_mixed :
    let wrap : RegType → UInt64 → UInt64
      | .u8, x => x % 256
      | .u16, x => x % 65536
      | _, x => x
    let g : IrGraph :=
      { nodes :=
          #[{ opcode := .imm, type := .prim .u8, imms := [200], chain := some 9 },
            { opcode := .imm, type := .prim .ptrU8, imms := [100] },
            { opcode := .add, type := .prim .u8, operands := [0, 1] },
            { opcode := .add, type := .prim .ptrBool, operands := [2, 1] },
            { opcode := .sub, type := .prim .u16, operands := [0, 3] },
            { opcode := .sub, type := .prim .u16, operands := [4, 1, 0] },
            { opcode := .add, type := .prim .bool, operands := [0, 1, 2] }]
        root := some 5 }
    let t : MachineGraph :=
      { nodes :=
          #[{ opcode := .movRi, type := .u8, imms := [200], chain := some 9 },
            { opcode := .movRi, type := .void, imms := [100] },
            { opcode := .addRi, type := .u8, operands := [1], imms := [200] },
            { opcode := .addRi, type := .void, operands := [2], imms := [100] },
            { opcode := .subRr, type := .u16, operands := [0, 3] },
            { opcode := .subRi, type := .u16, operands := [4], imms := [100] },
            { opcode := .addRr, type := .void, operands := [0, 1, 2] }]
        root := some 5 }
    g.Backward ∧ compile.run g = .ok t ∧ t.root = g.root ∧ t.size = g.size ∧
      (∀ id, g.value (sourceMeaning wrap) id = t.value (machineMeaning wrap) id) ∧
      ∀ id < g.size, (g.value (sourceMeaning wrap) id).isSome := by
  intro wrap g t
  have hback : g.Backward := by decide
  have hrun : compile.run g = .ok t := by with_unfolding_all rfl
  exact ⟨hback, hrun, compile_value wrap hback hrun⟩

end Codegen.X86
