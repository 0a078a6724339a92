/-
Selection does not see what a pointer points to.

Pointers are made general before anything is selected.  With most tables that changes
nothing.  A rule cannot narrow to a typed pointer, since no table would hold it, and if no
rule narrows to the general pointer either, then no pattern ever tells one pointer from
another, at whatever depth it looks.  A target has one type for all of them, and nothing
else that goes into a machine node or a diagnostic depends on a type, apart from the name of
a type without a counterpart, which is no pointer.

Two whole selections are compared, on graphs that differ in types all over, and they end the
same way: with the same machine graph, or with the same diagnostic for the same node.
-/
import Codegen.Proofs.Prepare
import Codegen.Proofs.Rule.Scan
import Codegen.Proofs.Selection.Locality

namespace Codegen

/-! ### Types -/

/-- No rule narrows to a typed pointer. -/
theorem Primitive.isTypedPointer_of_narrowable {p : Primitive} (h : p ∈ narrowable) :
    p.isTypedPointer = false := by
  revert h
  cases p <;> decide

/-- A type that rules may narrow to, other than the general pointer, is the generalization of no
type but itself. -/
theorem ValueType.generalize_eq_prim_iff {type : ValueType} {p : Primitive}
    (hp : p ∈ Primitive.narrowable ∧ p ≠ .ptr) : type.generalize = .prim p ↔ type = .prim p := by
  by_cases htyped : type.isTypedPointer = true
  · obtain ⟨hnarrowable, hptr⟩ := hp
    have hleft : type.generalize ≠ .prim p := by
      simpa [generalize, htyped] using hptr.symm
    have hright : type ≠ .prim p := by
      rintro rfl
      have huntyped : p.isTypedPointer = false := Primitive.isTypedPointer_of_narrowable hnarrowable
      simp [isTypedPointer, huntyped] at htyped
    simp [hleft, hright]
  · simp [generalize, htyped]

theorem ValueType.generalize_generalize (type : ValueType) :
    type.generalize.generalize = type.generalize := by
  rcases type with p | index
  · cases p <;> rfl
  · rfl

/-- A type that generalizing changes has a counterpart in every target, and keeps it. -/
theorem TypeMap.lowered_generalize {T : Type} (types : TypeMap T) (type : ValueType) :
    type.generalize = type ∨ ∃ lowered, types.lower? type.generalize = some lowered ∧
      types.lower? type = some lowered := by
  rcases type with p | index
  · refine Or.inr ⟨types.lower p, ?_, rfl⟩
    rw [types.lower?_generalize]
    rfl
  · exact Or.inl rfl

/-! ### Graphs -/

namespace Graph

variable {g : IrGraph} {id : NodeId}

/-- Typed pointers are what changes. -/
theorem node?_generalizePointers_eq {n : IrNode} (hn : g.node? id = some n) :
    g.generalizePointers.node? id
      = some (if n.type.isTypedPointer then { n with type := .prim .ptr } else n) := by
  rw [node?_generalizePointers_of_some hn]
  by_cases htyped : n.type.isTypedPointer = true
  · simp [ValueType.generalize, htyped]
  · simp [ValueType.generalize, htyped]

theorem generalizePointers_generalizePointers (g : IrGraph) :
    g.generalizePointers.generalizePointers = g.generalizePointers := by
  simp [generalizePointers, Function.comp_def, ValueType.generalize_generalize]

/-- A graph looks the same with general pointers, to whoever does not ask for pointers. -/
theorem alikeFrom_generalizePointers (hrange : g.InRange) (hid : id < g.size) :
    g.AlikeFrom (fun p => p ∈ Primitive.narrowable ∧ p ≠ .ptr) g.generalizePointers id := by
  intro i hi
  obtain ⟨n, hn⟩ := exists_node? (hi.lt_size hrange hid)
  exact ⟨n, n.type.generalize, hn, node?_generalizePointers_of_some hn,
    fun p hp => ValueType.generalize_eq_prim_iff hp⟩

end Graph

namespace Selector

variable {O T : Type} [Inhabited O] [Inhabited T] {s : Selector O T} {g g' : IrGraph}

/-! ### Whole graphs -/

/-- Rows that are lowered alike node by node are lowered alike. -/
theorem lowerFrom_map {f : IrNode → IrNode} (ns : List IrNode) :
    ∀ {id : NodeId},
      (∀ i n, ns[i]? = some n → s.lower g' (id + i) (f n) = s.lower g (id + i) n) →
      s.lowerFrom g' id (ns.map f) = s.lowerFrom g id ns := by
  induction ns with
  | nil =>
      intro id _
      rfl
  | cons first rest ih =>
      intro id h
      have hfirst : s.lower g' id (f first) = s.lower g id first := h 0 first rfl
      have hrest : s.lowerFrom g' (id + 1) (rest.map f) = s.lowerFrom g (id + 1) rest := by
        refine ih fun i n hn => ?_
        rw [Nat.add_right_comm, Nat.add_assoc]
        exact h (i + 1) n hn
      rw [List.map_cons, lowerFrom, lowerFrom, hfirst, hrest]

/-- Selection gives the same, with general pointers and with typed ones. -/
theorem select_generalizePointers (hdeclared : s.table.IsDeclared)
    (hnarrows : s.table.NarrowsIn fun p => p ∈ Primitive.narrowable ∧ p ≠ .ptr)
    (hrange : g.InRange) : s.select g.generalizePointers = s.select g := by
  have hrow : s.lowerFrom g.generalizePointers 0 g.generalizePointers.nodes.toList
      = s.lowerFrom g 0 g.nodes.toList := by
    have hnodes : g.generalizePointers.nodes.toList
        = g.nodes.toList.map fun n => { n with type := n.type.generalize } := Array.toList_map ..
    rw [hnodes]
    refine lowerFrom_map _ fun i n hn => ?_
    rw [Array.getElem?_toList] at hn
    rw [Nat.zero_add]
    exact lower_alike hdeclared hnarrows
      (Graph.alikeFrom_generalizePointers hrange (Graph.lt_size_of_node? hn))
      (s.table.types.lowered_generalize n.type)
  rw [select, select, hrow]
  rfl

/--
**Selection does not see what a pointer points to.**  Take a table of rules that keep the shape or
follow a template, none of which narrows to the general pointer.  On every graph whose operands are
in range, selection after making pointers general ends as selection on the graph itself: with the
same machine graph or the same diagnostic.  Making pointers general changes typed pointers to
general ones and nothing else, and a second time it changes nothing.
-/
theorem pointers_invisible {types : TypeMap T} {rules : List (Rule O T)}
    (hbuild : Table.build types rules = .ok s.table)
    (hcustom : ∀ rule ∈ rules, rule.shaping.isCustom = false)
    (hptr : ∀ rule ∈ rules, Primitive.ptr ∉ rule.pattern.narrowings) :
    (∀ g : IrGraph, g.InRange → ∃ general, Pass.generalizePointers.run g = .ok general ∧
        s.toPass.run general = s.toPass.run g) ∧
      ∀ g : IrGraph, ∃ general, Pass.generalizePointers.run g = .ok general ∧
        Pass.generalizePointers.run general = .ok general ∧
        general.root = g.root ∧ general.size = g.size ∧
        ∀ id n, g.node? id = some n → general.node? id
          = some (if n.type.isTypedPointer then { n with type := .prim .ptr } else n) := by
  have hdeclared := Table.isDeclared_of_build hbuild hcustom
  have hnarrows : s.table.NarrowsIn fun p => p ∈ Primitive.narrowable ∧ p ≠ .ptr := by
    refine Table.narrowsIn_of_build hbuild fun rule hrule type htype => ?_
    have husable : ¬rule.IsUnusable := (Table.of_addAll_ok hbuild).2 rule hrule
    refine ⟨?_, fun heq => hptr rule hrule (heq ▸ htype)⟩
    by_cases hnarrowable : type ∈ Primitive.narrowable
    · exact hnarrowable
    · exact absurd (Or.inr ⟨type, htype, hnarrowable⟩) husable
  refine ⟨?_, ?_⟩
  · intro g hrange
    exact ⟨g.generalizePointers, rfl, select_generalizePointers hdeclared hnarrows hrange⟩
  · intro g
    refine ⟨g.generalizePointers, rfl, ?_, rfl, g.size_generalizePointers, ?_⟩
    · exact congrArg Except.ok g.generalizePointers_generalizePointers
    · intro id n hn
      exact Graph.node?_generalizePointers_eq hn

/-- A rule that narrows an operand, on typed pointers; and a node whose type has no counterpart,
after typed pointers. -/
theorem pointers_invisible_narrowed :
    let rules : List (Rule X86.Opcode X86.RegType) :=
      [ { pattern := .commuting .add (.typed .u16 (.markedOp .imm [])) .bind
          shaping := .template .addRi [.copyImm 0 0, .copyOperand 1, .mapType] },
        .exchange .add .addRr,
        { pattern := .markedOp .imm [], shaping := .template .movRi [.mapType, .copyImm 0 0] } ]
    let s : Selector X86.Opcode X86.RegType :=
      { name := "narrowed"
        table :=
          { index := [(.add, [rules[0], rules[1]]), (.imm, [rules[2]])]
            types := { X86.types with ptr := .u64 }
            count := 3 } }
    let g : IrGraph :=
      { nodes :=
          #[{ opcode := .imm, type := .prim .ptrU8, imms := [5] },
            { opcode := .imm, type := .prim .u16, imms := [7] },
            { opcode := .add, type := .prim .ptrBool, operands := [0, 1] },
            { opcode := .add, type := .prim .ptr, operands := [0, 2] }]
        root := some 3 }
    let general : IrGraph :=
      { nodes :=
          #[{ opcode := .imm, type := .prim .ptr, imms := [5] },
            { opcode := .imm, type := .prim .u16, imms := [7] },
            { opcode := .add, type := .prim .ptr, operands := [0, 1] },
            { opcode := .add, type := .prim .ptr, operands := [0, 2] }]
        root := some 3 }
    let t : Graph X86.Opcode X86.RegType :=
      { nodes :=
          #[{ opcode := .movRi, type := .u64, imms := [5] },
            { opcode := .movRi, type := .u16, imms := [7] },
            { opcode := .addRi, type := .u64, operands := [0], imms := [7] },
            { opcode := .addRr, type := .u64, operands := [0, 2] }]
        root := some 3 }
    let described : IrNode := { opcode := .imm, type := .descriptor 3, imms := [1] }
    let bad : IrGraph := { g with nodes := g.nodes.push described }
    let badGeneral : IrGraph := { general with nodes := general.nodes.push described }
    Table.build { X86.types with ptr := .u64 } rules = .ok s.table ∧
      (∀ rule ∈ rules, rule.shaping.isCustom = false) ∧
      (∀ rule ∈ rules, Primitive.ptr ∉ rule.pattern.narrowings) ∧ g.InRange ∧ bad.InRange ∧
      Pass.generalizePointers.run g = .ok general ∧ s.toPass.run general = .ok t ∧
      Pass.generalizePointers.run bad = .ok badGeneral ∧
      s.toPass.run badGeneral
        = .error (.reject (s.badShape 4 0 (.illegalType 4 "desc#3" "non-lowerable"))) := by
  intro rules s g general t described bad badGeneral
  have hbuild : Table.build { X86.types with ptr := .u64 } rules = .ok s.table := rfl
  have hcustom : ∀ rule ∈ rules, rule.shaping.isCustom = false := by
    simp [rules, Rule.exchange, Shaping.isCustom]
  have hptr : ∀ rule ∈ rules, Primitive.ptr ∉ rule.pattern.narrowings := by decide
  have hrange : g.InRange := by decide
  have hrange' : bad.InRange := by decide
  have hgeneral : Pass.generalizePointers.run g = .ok general := by with_unfolding_all rfl
  have hgeneral' : Pass.generalizePointers.run bad = .ok badGeneral := by with_unfolding_all rfl
  have hselect : s.toPass.run g = .ok t := by with_unfolding_all rfl
  have hfail : s.toPass.run bad
      = .error (.reject (s.badShape 4 0 (.illegalType 4 "desc#3" "non-lowerable"))) := by
    with_unfolding_all rfl
  obtain ⟨hsame, -⟩ := pointers_invisible hbuild hcustom hptr
  obtain ⟨other, hrun, hequal⟩ := hsame g hrange
  obtain rfl : general = other := Except.ok.inj (hgeneral.symm.trans hrun)
  obtain ⟨other', hrun', hequal'⟩ := hsame bad hrange'
  obtain rfl : badGeneral = other' := Except.ok.inj (hgeneral'.symm.trans hrun')
  exact ⟨hbuild, hcustom, hptr, hrange, hrange', hgeneral, hequal.trans hselect, hgeneral',
    hequal'.trans hfail⟩

end Selector

end Codegen
