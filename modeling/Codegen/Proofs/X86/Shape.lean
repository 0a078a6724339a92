/-
The shape of compiled graphs.

Nothing checks the instructions that are written: that a load has no operands, that an
addition of registers has two and no constant, is up to the rules.  Here it is read off the
forms.  Every node of a compiled graph is an instruction with as many operands and constants
as its opcode asks for, it uses nodes before it, and it has the type that the target has for
the type of the node it stands for.

The rules with a constant come first, so constants do not stay in registers without need.  A
loaded constant is an immediate of the source, on the way in as on the way out; hence an
addition of registers adds no loaded constant, on either side, and a subtraction of registers
subtracts none.  It may subtract from one, as there is no instruction for that.
-/
import Codegen.Proofs.X86.Forms

namespace Codegen

namespace X86

/-! ### Shapes -/

/-- How many operands and how many constants an instruction has. -/
def Opcode.arity? : Opcode → Option (Nat × Nat)
  | blank => none
  | movRi => some (0, 1)
  | addRi | subRi => some (1, 1)
  | addRr | subRr => some (2, 0)

/-- Is the instruction with this id a load of a constant? -/
def isLoad (t : MachineGraph) (id : NodeId) : Bool := (t.node? id).any fun m => m.opcode = .movRi

/-- No operand is a loaded constant that the instruction could have taken in. -/
structure Folded (t : MachineGraph) (m : Node Opcode RegType) : Prop where
  add : m.opcode = .addRr → ∀ operand ∈ m.operands, isLoad t operand = false
  sub : m.opcode = .subRr → ∀ operand ∈ m.operands[1]?, isLoad t operand = false

/-- Additions and subtractions have just two operands. -/
def Binary (g : IrGraph) : Prop :=
  ∀ id n, g.node? id = some n → n.opcode ∈ [.add, .sub] → n.operands.length = 2

instance (g : IrGraph) : Decidable (Binary g) := inferInstanceAs (Decidable (∀ _ _, _ → _))

/-! ### One instruction -/

variable {g : IrGraph} {t : MachineGraph} {id : NodeId} {n : IrNode} {m : Node Opcode RegType}
  {form : Form} {type : RegType}

theorem arity?_of_node? (htakes : Takes g n form) (hnode : form.node? g type n = some m)
    (htwo : n.opcode ∈ [.add, .sub] → n.operands.length = 2) :
    m.opcode.arity? = some (m.operands.length, m.imms.length) := by
  cases htakes with
  | load hop | addLeft hop hoperands | addRight hop hoperands | subImm hop hoperands =>
      obtain ⟨c, -, rfl⟩ := Option.map_eq_some_iff.mp hnode
      rfl
  | addRegisters hop hoperands | subRegisters hop hoperands =>
      cases hnode
      have hlength : n.operands.length = 2 := htwo (by simp [hop])
      simp [Opcode.arity?, hlength]

theorem type_of_node? (hnode : form.node? g type n = some m) : m.type = type := by
  cases form with
  | load | addImm | subImm =>
      obtain ⟨c, -, rfl⟩ := Option.map_eq_some_iff.mp hnode
      rfl
  | addRegisters | subRegisters =>
      cases hnode
      rfl

/-- Loads stand for immediates, and nothing else does. -/
theorem opcode_eq_movRi_iff (htakes : Takes g n form) (hnode : form.node? g type n = some m) :
    m.opcode = .movRi ↔ n.opcode = .imm := by
  cases htakes with
  | load hop | addLeft hop hoperands | addRight hop hoperands | subImm hop hoperands =>
      obtain ⟨c, -, rfl⟩ := Option.map_eq_some_iff.mp hnode
      simp [hop]
  | addRegisters hop hoperands | subRegisters hop hoperands =>
      cases hnode
      simp [hop]

/-- Registers are added if neither is an immediate. -/
theorem no_imm_of_addRr (htakes : Takes g n form) (hnode : form.node? g type n = some m)
    (htwo : n.opcode ∈ [.add, .sub] → n.operands.length = 2) (hop : m.opcode = .addRr) :
    ∀ operand ∈ m.operands, g.isImm operand = false := by
  cases htakes with
  | load | addLeft | addRight | subImm =>
      obtain ⟨c, -, rfl⟩ := Option.map_eq_some_iff.mp hnode
      cases hop
  | subRegisters =>
      cases hnode
      cases hop
  | @addRegisters a b rest hsource hoperands hplain =>
      cases hnode
      have hlength : n.operands.length = 2 := htwo (by simp [hsource])
      have hrest : rest = [] := by simpa [hoperands] using hlength
      obtain ⟨ha, hb⟩ := hplain hrest
      simp [hoperands, hrest, ha, hb]

/-- Registers are subtracted if the right one is no immediate. -/
theorem no_imm_of_subRr (htakes : Takes g n form) (hnode : form.node? g type n = some m)
    (hop : m.opcode = .subRr) : ∀ operand ∈ m.operands[1]?, g.isImm operand = false := by
  cases htakes with
  | load | addLeft | addRight | subImm =>
      obtain ⟨c, -, rfl⟩ := Option.map_eq_some_iff.mp hnode
      cases hop
  | addRegisters =>
      cases hnode
      cases hop
  | subRegisters _ hoperands hb =>
      cases hnode
      simp [hoperands, hb]

/-! ### Whole graphs -/

/-- The loads of a compiled graph are where the immediates were. -/
theorem Compiled.isLoad_eq (h : Compiled g t) (id : NodeId) : isLoad t id = g.isImm id := by
  cases hn : g.node? id with
  | none => simp [isLoad, Graph.isImm, hn, h.node?_eq_none hn]
  | some n =>
      obtain ⟨m, form, type, hm, -, hform, hnode⟩ := h.node id n hn
      simp [isLoad, Graph.isImm, hm, hn, opcode_eq_movRi_iff (takes_of_form? hform) hnode]

theorem Compiled.backward (h : Compiled g t) (hback : g.Backward) : t.Backward := by
  intro id m hm operand hmem
  obtain ⟨n, form, type, hn, -, htakes, hnode⟩ := h.exists_source hm
  exact hback id n hn operand (mem_operands_of_node? htakes hnode hmem)

theorem Compiled.folded (h : Compiled g t) (hbinary : Binary g) (hm : t.node? id = some m) :
    Folded t m := by
  obtain ⟨n, form, type, hn, -, htakes, hnode⟩ := h.exists_source hm
  refine ⟨fun hop operand hmem => ?_, fun hop operand hmem => ?_⟩
  · rw [h.isLoad_eq]
    exact no_imm_of_addRr htakes hnode (hbinary id n hn) hop operand hmem
  · rw [h.isLoad_eq]
    exact no_imm_of_subRr htakes hnode hop operand hmem

/--
**Compiled graphs are well shaped, and constants are folded into them.**  Let the operands of a
graph lead backward, two for each addition and subtraction.  If it is compiled, there is one
instruction for each node, operands still lead backward, and each instruction

* is not blank and has the operands and constants that its opcode asks for;
* has the target's type for the type of its node;
* leaves no loaded constant in a register that it could have taken in.
-/
theorem compile_shape (hback : g.Backward) (hbinary : Binary g) (h : compile.run g = .ok t) :
    t.size = g.size ∧ t.Backward ∧ ∀ id m, t.node? id = some m →
      m.opcode ≠ .blank ∧
      m.opcode.arity? = some (m.operands.length, m.imms.length) ∧
      (∃ n, g.node? id = some n ∧ types.lower? n.type = some m.type) ∧
      Folded t m := by
  have hcompiled : Compiled g t := compiled_of_ok hback.inRange h
  refine ⟨hcompiled.size, hcompiled.backward hback, fun id m hm => ?_⟩
  obtain ⟨n, form, type, hn, htype, htakes, hnode⟩ := hcompiled.exists_source hm
  have harity := arity?_of_node? htakes hnode (hbinary id n hn)
  refine ⟨?_, harity, ⟨n, hn, ?_⟩, hcompiled.folded hbinary hm⟩
  · intro hblank
    rw [hblank] at harity
    cases harity
  · rw [type_of_node? hnode]
    exact htype

/-- Constants on both sides, on the left of a subtraction and on the right of one, and registers
that hold pointers and truth values; a chain may lead forward. -/
theorem compile_shape_folded :
    let g : IrGraph :=
      { nodes :=
          #[{ opcode := .imm, type := .prim .ptrU8, imms := [5], chain := some 4 },
            { opcode := .imm, type := .prim .u16, imms := [7, 8] },
            { opcode := .add, type := .prim .u8, operands := [0, 1] },
            { opcode := .sub, type := .prim .bool, operands := [0, 2] },
            { opcode := .add, type := .prim .ptr, operands := [3, 2], imms := [1] },
            { opcode := .sub, type := .prim .u32, operands := [4, 1] }]
        root := some 5 }
    let t : MachineGraph :=
      { nodes :=
          #[{ opcode := .movRi, type := .void, imms := [5], chain := some 4 },
            { opcode := .movRi, type := .u16, imms := [7] },
            { opcode := .addRi, type := .u8, operands := [1], imms := [5] },
            { opcode := .subRr, type := .void, operands := [0, 2] },
            { opcode := .addRr, type := .void, operands := [3, 2] },
            { opcode := .subRi, type := .u32, operands := [4], imms := [7] }]
        root := some 5 }
    g.Backward ∧ Binary g ∧ compile.run g = .ok t ∧
      t.size = g.size ∧ t.Backward ∧ ∀ id m, t.node? id = some m →
        m.opcode ≠ .blank ∧
        m.opcode.arity? = some (m.operands.length, m.imms.length) ∧
        (∃ n, g.node? id = some n ∧ types.lower? n.type = some m.type) ∧
        Folded t m := by
  intro g t
  have hback : g.Backward := by decide
  have hbinary : Binary g := by decide
  have hrun : compile.run g = .ok t := by with_unfolding_all rfl
  exact ⟨hback, hbinary, hrun, compile_shape hback hbinary hrun⟩

end X86

end Codegen
