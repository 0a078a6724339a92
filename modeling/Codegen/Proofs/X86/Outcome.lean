/-
When a graph is compiled, and what is said when it is not.

A node can be wrong in three ways.  Its type may be one that no machine value has.  There
may be no instruction for it, because its opcode has none or it has too few operands.  Or
the instruction that it gets takes a constant, and there is none where it is taken from.

Types are checked before anything is selected, so the first node with a wrong type is
named even if a node before it has no instruction.  After that the first node that is
wrong in one of the other two ways is named.  The choice of an instruction is never taken
back: an addition with a constant missing on the left is refused, although a constant on
the right would do, and so would registers.

No order of the nodes is assumed.  Operands may lead forward or round in a circle, as long
as they are nodes.
-/
import Codegen.Proofs.X86.Safety

namespace Codegen

/-! ### Types -/

namespace ValueType

/-- Why no machine value has this type, if none has. -/
def unfit? : ValueType → Option String
  | .prim .void => some "primitive"
  | .prim _ => none
  | .descriptor _ => some "non-primitive"

/-- The types that are objected to, once pointers are general, are the unfit ones. -/
theorem objection?_generalize (type : ValueType) : type.generalize.objection? = type.unfit? := by
  cases type with
  | prim p => cases p <;> rfl
  | descriptor index => rfl

theorem generalize_of_unfit {type : ValueType} {reason : String} (h : type.unfit? = some reason) :
    type.generalize = type := by
  cases type with
  | prim p => cases p <;> first | rfl | cases h
  | descriptor index => rfl

end ValueType

namespace X86

variable {g : IrGraph} {id : NodeId} {n : IrNode} {form : Form} {type : RegType}

/-! ### Nodes without an instruction -/

/-- There is no instruction for the node. -/
def Uncovered (n : IrNode) : Prop :=
  n.opcode ∈ [.blank, .mul, .udiv, .sdiv] ∨ n.opcode ∈ [.add, .sub] ∧ n.operands.length < 2

instance (n : IrNode) : Decidable (Uncovered n) := inferInstanceAs (Decidable (_ ∨ _))

/-- The node's instruction takes a constant that is missing. -/
def Starved (g : IrGraph) (n : IrNode) : Prop :=
  n.opcode = .imm ∧ n.imms = [] ∨
    n.opcode = .add ∧ n.operands.length = 2 ∧
      (∃ c ∈ n.operands.find? g.isImm, g.constant? c = none) ∨
    n.opcode = .sub ∧ ∃ c ∈ n.operands[1]?, g.isImm c = true ∧ g.constant? c = none

instance (g : IrGraph) (n : IrNode) : Decidable (Starved g n) := inferInstanceAs (Decidable (_ ∨ _))

/-- The node becomes an instruction: it is an immediate with a constant, or an addition or a
subtraction of at least two operands that has its constant if it takes one. -/
def Selectable (g : IrGraph) (n : IrNode) : Prop :=
  n.opcode = .imm ∧ n.imms ≠ [] ∨
    2 ≤ n.operands.length ∧
      (n.opcode = .add ∧
          (n.operands.length = 2 → ∀ c ∈ n.operands.find? g.isImm, g.constant? c ≠ none) ∨
        n.opcode = .sub ∧ ∀ c ∈ n.operands[1]?, g.isImm c = true → g.constant? c ≠ none)

theorem form?_eq_none_iff : form? g n = none ↔ Uncovered n := by
  constructor
  · intro h
    cases hop : n.opcode with
    | blank | mul | udiv | sdiv => exact Or.inl (by simp [hop])
    | imm => simp [form?, hop] at h
    | add | sub =>
        refine Or.inr ⟨by simp [hop], ?_⟩
        by_contra hshort
        obtain ⟨a, b, rest, hoperands⟩ := exists_cons_cons hshort
        cases rest <;> grind [form?]
  · rintro (hop | ⟨hop, hshort⟩)
    · unfold form?
      split <;> simp_all
    · exact form?_of_short (by rintro himm; simp [himm] at hop) hshort

/-- The instruction of a form cannot be written down just if the node is starved. -/
theorem node?_eq_none_iff_starved (h : Takes g n form) :
    form.node? g type n = none ↔ Starved g n := by
  cases h with
  | load hop => simp [Form.node?, Starved, hop]
  | addLeft hop hoperands ha => simp [Form.node?, Starved, hop, hoperands, ha]
  | addRight hop hoperands ha hb => simp [Form.node?, Starved, hop, hoperands, ha, hb]
  | @addRegisters a b rest hop hoperands hplain =>
      cases rest with
      | nil => simp [Form.node?, Starved, hop, hoperands, hplain rfl]
      | cons c rest => simp [Form.node?, Starved, hop, hoperands]
  | subImm hop hoperands hb => simp [Form.node?, Starved, hop, hoperands, hb]
  | subRegisters hop hoperands hb => simp [Form.node?, Starved, hop, hoperands, hb]

/-- Forms that take a constant come first among the rules of their opcode. -/
theorem position_of_node?_eq_none (h : form.node? g type n = none) : form.position = 0 := by
  cases form with
  | addRegisters | subRegisters => cases h
  | load | addImm | subImm => rfl

/-- The node cannot be selected: it has no instruction, or a constant is missing. -/
def Unselectable (g : IrGraph) (n : IrNode) : Prop := Uncovered n ∨ Starved g n

instance (g : IrGraph) (n : IrNode) : Decidable (Unselectable g n) :=
  inferInstanceAs (Decidable (_ ∨ _))

theorem selectable_iff : Selectable g n ↔ ¬Unselectable g n := by
  by_cases hshort : n.operands.length < 2
  · have hlong : ¬2 ≤ n.operands.length := Nat.not_le.mpr hshort
    cases hop : n.opcode <;> simp [Selectable, Unselectable, Uncovered, Starved, hop, hshort, hlong]
  · have hlong : 2 ≤ n.operands.length := Nat.not_lt.mp hshort
    cases hop : n.opcode <;> simp [Selectable, Unselectable, Uncovered, Starved, hop, hshort, hlong]

/-! ### Selecting one node -/

/-- What is said about a node that cannot be selected.  If it has an instruction, it is the first
of its opcode that could not be made. -/
def refusal (id : NodeId) (n : IrNode) : Diagnostic :=
  { error := .unsupportedPattern id n.opcode.name
    subsystem := .isel
    pass := some "cg::x86::isel"
    notes :=
      if Uncovered n then []
      else ["while rewriting " ++ NodeId.label id ++ " with rule #0"] }

/-- What becomes of a node of fit type, once pointers are general. -/
theorem lower_generalizePointers (hrange : g.InRange) (hn : g.node? id = some n)
    (hfit : n.type.unfit? = none) :
    ∃ type, selector.lower g.generalizePointers id { n with type := n.type.generalize }
      = match form? g n with
        | none => .error (.reject (selector.noRule id n))
        | some form =>
          (required id n (form.node? g type n)).mapError
            (Stop.map (selector.badShape id form.position)) := by
  have hn' := Graph.node?_generalizePointers_of_some hn
  have hrange' : ∀ operand ∈ n.operands, operand < g.generalizePointers.size := by
    rw [Graph.size_generalizePointers]
    exact hrange id n hn
  obtain ⟨type, htype⟩ := types.exists_lower? (n.type.objection?_generalize.trans hfit)
  refine ⟨type, ?_⟩
  rw [lower_eq hn' hrange' htype, form?_generalizePointers]
  cases form? g n with
  | none => rfl
  | some form =>
      simp only [Form.node?_generalizePointers]
      rfl

theorem exists_lower_of_selectable (hrange : g.InRange) (hn : g.node? id = some n)
    (hfit : n.type.unfit? = none) (h : Selectable g n) :
    ∃ m, selector.lower g.generalizePointers id { n with type := n.type.generalize } = .ok m := by
  obtain ⟨hcovered, hfed⟩ := not_or.mp (selectable_iff.mp h)
  obtain ⟨type, hlower⟩ := lower_generalizePointers hrange hn hfit
  obtain ⟨form, hform⟩ := Option.ne_none_iff_exists'.mp (mt form?_eq_none_iff.mp hcovered)
  have hnode : form.node? g type n ≠ none :=
    mt (node?_eq_none_iff_starved (takes_of_form? hform)).mp hfed
  obtain ⟨m, hm⟩ := Option.ne_none_iff_exists'.mp hnode
  refine ⟨m, ?_⟩
  rw [hlower, hform]
  simp only [hm]
  rfl

theorem lower_of_unselectable (hrange : g.InRange) (hn : g.node? id = some n)
    (hfit : n.type.unfit? = none) (h : Unselectable g n) :
    selector.lower g.generalizePointers id { n with type := n.type.generalize }
      = .error (.reject (refusal id n)) := by
  obtain ⟨type, hlower⟩ := lower_generalizePointers hrange hn hfit
  rw [hlower]
  by_cases hcovered : Uncovered n
  · rw [form?_eq_none_iff.mpr hcovered, refusal, if_pos hcovered]
    rfl
  · have hstarved : Starved g n := h.resolve_left hcovered
    obtain ⟨form, hform⟩ := Option.ne_none_iff_exists'.mp (mt form?_eq_none_iff.mp hcovered)
    have hnode : form.node? g type n = none :=
      (node?_eq_none_iff_starved (takes_of_form? hform)).mpr hstarved
    rw [hform, refusal, if_neg hcovered]
    simp only [hnode, position_of_node?_eq_none hnode]
    rfl

/-! ### Compiling a graph -/

/-- The first node of unfit type stops the compilation. -/
theorem compile_of_unfit {reason : String}
    (hlowest : g.Lowest (fun _ n => n.type.unfit? ≠ none) id n)
    (hreason : n.type.unfit? = some reason) :
    compile.run g = .error (.reject (Pass.typeRefusal id n reason)) := by
  have hcheck := Pass.checkTypes_eq_error (Graph.node?_generalizePointers_of_some hlowest.node)
    (n.type.objection?_generalize.trans hreason) ?_
  · rw [compile_run, hcheck, ValueType.generalize_of_unfit hreason]
    rfl
  · intro i hi m hm
    obtain ⟨k, hk, rfl⟩ := Graph.of_node?_generalizePointers hm
    exact k.type.objection?_generalize.trans (not_not.mp (hlowest.before i hi k hk))

theorem exists_of_unfit (h : ∃ id n, g.node? id = some n ∧ n.type.unfit? ≠ none) :
    ∃ id n reason, g.Lowest (fun _ n => n.type.unfit? ≠ none) id n ∧
      n.type.unfit? = some reason ∧
      compile.run g = .error (.reject (Pass.typeRefusal id n reason)) := by
  obtain ⟨i, m, hm, htype⟩ := h
  obtain ⟨id, n, hlowest⟩ := Graph.exists_lowest (P := fun _ n => n.type.unfit? ≠ none) hm htype
  obtain ⟨reason, hreason⟩ := Option.ne_none_iff_exists'.mp hlowest.holds
  exact ⟨id, n, reason, hlowest, hreason, compile_of_unfit hlowest hreason⟩

/-- If all types are fit, it is up to the selection. -/
theorem compile_of_fit (hfit : ∀ id n, g.node? id = some n → n.type.unfit? = none) :
    compile.run g = selector.select g.generalizePointers := by
  have hcheck : Pass.checkTypes.run g.generalizePointers = .ok g.generalizePointers := by
    refine Pass.checkTypes_eq_ok fun id n hn => ?_
    obtain ⟨k, hk, rfl⟩ := Graph.of_node?_generalizePointers hn
    exact k.type.objection?_generalize.trans (hfit id k hk)
  rw [compile_run, hcheck]
  rfl

/-- If all types are fit, the first node that cannot be selected stops the compilation. -/
theorem compile_of_unselectable (hrange : g.InRange)
    (hfit : ∀ id n, g.node? id = some n → n.type.unfit? = none)
    (hlowest : g.Lowest (fun _ n => Unselectable g n) id n) :
    compile.run g = .error (.reject (refusal id n)) := by
  have hn := hlowest.node
  rw [compile_of_fit hfit]
  refine Selector.select_eq_error (Graph.node?_generalizePointers_of_some hn)
    (lower_of_unselectable hrange hn (hfit id n hn) hlowest.holds) ?_
  intro i hi m hm
  obtain ⟨k, hk, rfl⟩ := Graph.of_node?_generalizePointers hm
  exact exists_lower_of_selectable hrange hk (hfit i k hk)
    (selectable_iff.mpr (hlowest.before i hi k hk))

theorem exists_of_unselectable (hrange : g.InRange)
    (hfit : ∀ id n, g.node? id = some n → n.type.unfit? = none)
    (h : ∃ id n, g.node? id = some n ∧ Unselectable g n) :
    ∃ id n, g.Lowest (fun _ n => Unselectable g n) id n ∧
      compile.run g = .error (.reject (refusal id n)) := by
  obtain ⟨i, m, hm, hwrong⟩ := h
  obtain ⟨id, n, hlowest⟩ := Graph.exists_lowest (P := fun _ n => Unselectable g n) hm hwrong
  exact ⟨id, n, hlowest, compile_of_unselectable hrange hfit hlowest⟩

theorem exists_compile (hclosed : g.Closed)
    (h : ∀ id n, g.node? id = some n → n.type.unfit? = none ∧ Selectable g n) :
    ∃ t, compile.run g = .ok t := by
  rw [compile_of_fit fun id n hn => (h id n hn).1]
  refine Selector.exists_select hclosed.generalizePointers.root fun id n hn => ?_
  obtain ⟨k, hk, rfl⟩ := Graph.of_node?_generalizePointers hn
  obtain ⟨hfit, hselectable⟩ := h id k hk
  exact exists_lower_of_selectable hclosed.operands hk hfit hselectable

/--
**When a graph is compiled.**  Let the root and all operands of a graph be nodes of it.

* If a node has an unfit type, compiling fails in the check of types and names the first such node,
  its type and what is wrong with it.
* If all types are fit and a node cannot be selected, compiling fails in the selection and names the
  first such node and its opcode.
* If all types are fit and every node can be selected, the graph is compiled.

So what is compiled are the graphs of nodes of fit types that are immediates with a constant, or
additions and subtractions of two operands or more whose constant is there if they take one.
-/
theorem compile_outcome (hclosed : g.Closed) :
    ((∃ id n, g.node? id = some n ∧ n.type.unfit? ≠ none) →
        ∃ id n reason, g.Lowest (fun _ n => n.type.unfit? ≠ none) id n ∧
          n.type.unfit? = some reason ∧
          compile.run g = .error (.reject (Pass.typeRefusal id n reason))) ∧
      ((∀ id n, g.node? id = some n → n.type.unfit? = none) →
        ((∃ id n, g.node? id = some n ∧ Unselectable g n) →
          ∃ id n, g.Lowest (fun _ n => Unselectable g n) id n ∧
            compile.run g = .error (.reject (refusal id n))) ∧
        ((∀ id n, g.node? id = some n → ¬Unselectable g n) → ∃ t, compile.run g = .ok t)) ∧
      ((∃ t, compile.run g = .ok t) ↔
        ∀ id n, g.node? id = some n → n.type.unfit? = none ∧ Selectable g n) := by
  refine ⟨exists_of_unfit, fun hfit => ⟨exists_of_unselectable hclosed.operands hfit, ?_⟩, ?_,
    exists_compile hclosed⟩
  · intro h
    exact exists_compile hclosed fun id n hn => ⟨hfit id n hn, selectable_iff.mpr (h id n hn)⟩
  · rintro ⟨t, ht⟩
    have hfit : ∀ id n, g.node? id = some n → n.type.unfit? = none := by
      intro id n hn
      by_contra htype
      obtain ⟨_, _, _, -, -, herror⟩ := exists_of_unfit ⟨id, n, hn, htype⟩
      cases ht.symm.trans herror
    intro id n hn
    refine ⟨hfit id n hn, selectable_iff.mpr fun hwrong => ?_⟩
    obtain ⟨_, _, -, herror⟩ := exists_of_unselectable hclosed.operands hfit ⟨id, n, hn, hwrong⟩
    cases ht.symm.trans herror

/-- An addition that lacks the constant on its left and has one on its right, after a subtraction
of itself from a later node.  A type that is wrong, further on, comes to light first. -/
theorem compile_outcome_circle :
    let g : IrGraph :=
      { nodes :=
          #[{ opcode := .imm, type := .prim .ptrU8, imms := [5] },
            { opcode := .sub, type := .prim .bool, operands := [3, 1] },
            { opcode := .add, type := .prim .u8, operands := [4, 0] },
            { opcode := .mul, type := .prim .u32, operands := [2, 2] },
            { opcode := .imm, type := .prim .u8 }]
        root := some 2 }
    let g' : IrGraph := { g with nodes := g.nodes.push { opcode := .imm, type := .descriptor 7 } }
    g.Closed ∧ (∀ id n, g.node? id = some n → n.type.unfit? = none) ∧
      compile.run g = .error (.reject
        { error := .unsupportedPattern 2 "ADD"
          subsystem := .isel
          pass := some "cg::x86::isel"
          notes := ["while rewriting %2 with rule #0"] }) ∧
      g'.Closed ∧
      compile.run g' = .error (.reject
        { error := .illegalType 5 "desc#7" "non-primitive"
          subsystem := .isel
          pass := some "cg::isel::dag_check"
          notes := ["In pass cg::isel::dag_check"] }) := by
  intro g g'
  have hclosed : g.Closed := ⟨by decide, by decide⟩
  have hclosed' : g'.Closed := ⟨by decide, by decide⟩
  have hfit : ∀ id n, g.node? id = some n → n.type.unfit? = none := by decide
  have hadd : g.Lowest (fun _ n => Unselectable g n) 2
      { opcode := .add, type := .prim .u8, operands := [4, 0] } := by decide
  have hdescriptor : g'.Lowest (fun _ n => n.type.unfit? ≠ none) 5
      { opcode := .imm, type := .descriptor 7 } := by decide
  obtain ⟨-, hstop, -⟩ := compile_outcome hclosed
  obtain ⟨id, n, hlowest, hrun⟩ := (hstop hfit).1 ⟨2, _, hadd.node, hadd.holds⟩
  obtain ⟨rfl, rfl⟩ := hadd.eq hlowest
  obtain ⟨hstop', -, -⟩ := compile_outcome hclosed'
  obtain ⟨id', n', reason, hlowest', hreason, hrun'⟩ :=
    hstop' ⟨5, _, hdescriptor.node, hdescriptor.holds⟩
  obtain ⟨rfl, rfl⟩ := hdescriptor.eq hlowest'
  cases hreason
  exact ⟨hclosed, hfit, hrun, hclosed', hrun'⟩

end X86

end Codegen
