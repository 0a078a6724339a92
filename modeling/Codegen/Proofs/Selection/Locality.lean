/-
Selection is local.

What becomes of a node is decided by the nodes it reaches along operands and by nothing
else in the graph.  Choosing a rule and recording are local because patterns follow
operands, and shaping is, because it looks up only what was recorded, which is reached
from the node in the first graph and so is the same node in the second.  The types of these
nodes matter only where a rule narrows to one, and the node's own for its counterpart.

Appending nodes to a graph whose operands are in range changes nothing that is reached
from an old node.  So the machine nodes of the old graph stay what they were, and the
machine nodes of the extended graph begin with them.
-/
import Codegen.Proofs.Rule.Table
import Codegen.Proofs.Selection
import Codegen.X86

namespace Codegen

namespace Selector

variable {O T : Type} [Inhabited O] [Inhabited T] {s : Selector O T} {g g' : IrGraph} {id : NodeId}
  {rule : Rule O T}

/-- What a rule makes of a node is the same in graphs that the rule cannot tell apart, if the node's
type has the same counterpart in both. -/
theorem applyRule_alike {S : Primitive → Prop} {n : IrNode} {type : ValueType}
    (hnarrows : ∀ type ∈ rule.pattern.narrowings, S type)
    (hcustom : rule.shaping.isCustom = false) (halike : g.AlikeFrom S g' id)
    (hlowered : type = n.type ∨ ∃ lowered, s.table.types.lower? type = some lowered ∧
      s.table.types.lower? n.type = some lowered) :
    s.applyRule g' id { n with type } rule = s.applyRule g id n rule := by
  rw [applyRule, applyRule, Pattern.capture_alike rule.pattern hnarrows halike]
  cases hcapture : rule.pattern.capture g id rule.pattern.freshBuffer with
  | error fault => rfl
  | ok captures =>
      rw [Stop.ofFault_ok, ok_bind, ok_bind]
      let site : Site T := { graph := g, id, node := n, captures, types := s.table.types }
      have hsite : site.Alike g' type := by
        refine ⟨hlowered, fun i hi => ?_⟩
        -- What is recorded is reached, and what is reached looks alike.
        obtain ⟨k, other, hk, hk', -⟩ := halike i (Pattern.reaches_of_capture hcapture hi)
        exact ⟨k, other, hk, hk'⟩
      show rule.shaping.apply (site.inGraph g' type) Node.placeholder
        = rule.shaping.apply site Node.placeholder
      exact Shaping.apply_alike hcustom hsite

/-- A node is lowered to the same in graphs that the rules cannot tell apart, if its type has the
same counterpart in both. -/
theorem lower_alike {S : Primitive → Prop} {n : IrNode} {type : ValueType}
    (hdeclared : s.table.IsDeclared) (hnarrows : s.table.NarrowsIn S)
    (halike : g.AlikeFrom S g' id)
    (hlowered : type = n.type ∨ ∃ lowered, s.table.types.lower? type = some lowered ∧
      s.table.types.lower? n.type = some lowered) :
    s.lower g' id { n with type } = s.lower g id n := by
  rw [lower, lower, Table.choose_alike hnarrows halike]
  cases hchoose : s.table.choose g id with
  | error fault => rfl
  | ok found =>
      rcases found with _ | ⟨position, rule⟩
      · rfl
      · show (s.applyRule g' id { n with type } rule).mapError _
          = (s.applyRule g id n rule).mapError _
        obtain ⟨k, -, hmem, -⟩ := Table.of_choose_some hchoose
        rw [applyRule_alike (hnarrows k.opcode rule hmem) (hdeclared k.opcode rule hmem) halike
          hlowered]

/-- What a rule makes of a node depends on what the node reaches. -/
theorem applyRule_congr (hagrees : g.AgreesFrom g' id) (hcustom : rule.shaping.isCustom = false)
    (n : IrNode) : s.applyRule g' id n rule = s.applyRule g id n rule :=
  applyRule_alike (S := fun _ => True) (fun _ _ => trivial) hcustom hagrees.alikeFrom (Or.inl rfl)

/-- What a node is lowered to depends on what the node reaches. -/
theorem lower_congr (hdeclared : s.table.IsDeclared) (hagrees : g.AgreesFrom g' id) (n : IrNode) :
    s.lower g' id n = s.lower g id n :=
  lower_alike (S := fun _ => True) hdeclared (fun _ _ _ _ _ => trivial) hagrees.alikeFrom
    (Or.inl rfl)

/-- The machine nodes of a graph are the first machine nodes of a graph that extends it. -/
theorem isPrefix_of_select_ok {t t' : Graph O T} (hdeclared : s.table.IsDeclared) (hrange : g.InRange)
    (hbegins : g.nodes.toList <+: g'.nodes.toList) (h : s.select g = .ok t)
    (h' : s.select g' = .ok t') : t.nodes.toList <+: t'.nodes.toList := by
  obtain ⟨-, hsize, hnodes⟩ := of_select_ok h
  obtain ⟨-, -, hnodes'⟩ := of_select_ok h'
  rw [Graph.isPrefix_iff]
  intro id m hm
  have hid : id < g.size := hsize ▸ Graph.lt_size_of_node? hm
  obtain ⟨n, hn⟩ := Graph.exists_node? hid
  obtain ⟨k, hk, hlower⟩ := hnodes id n hn
  obtain ⟨k', hk', hlower'⟩ := hnodes' id n (Graph.isPrefix_iff.mp hbegins id n hn)
  rw [lower_congr hdeclared (Graph.agreesFrom_of_isPrefix hrange hid hbegins), hlower]
    at hlower'
  cases hlower'
  cases hm.symm.trans hk
  exact hk'

/--
**Selection is local.**  With rules that keep the shape or follow a template, take any two graphs
and a node from which on they agree.  The same rule is chosen for the node in both, it makes the
same of a placeholder or fails with the same error, and the node is lowered to the same machine node
or with the same diagnostic.  So if a graph whose operands are in range is extended by more nodes
and both are selected, the machine nodes of the extended graph begin with those of the first.
-/
theorem select_local {types : TypeMap T} {rules : List (Rule O T)}
    (hbuild : Table.build types rules = .ok s.table)
    (hcustom : ∀ rule ∈ rules, rule.shaping.isCustom = false) :
    (∀ (g g' : IrGraph) (id : NodeId), g.AgreesFrom g' id →
        s.table.choose g' id = s.table.choose g id ∧
          ∃ n, g.node? id = some n ∧ g'.node? id = some n ∧
            (∀ position rule, s.table.choose g id = .ok (some (position, rule)) →
              s.applyRule g' id n rule = s.applyRule g id n rule) ∧
            s.lower g' id n = s.lower g id n) ∧
      ∀ (g g' : IrGraph) (t t' : Graph O T), g.InRange → g.nodes.toList <+: g'.nodes.toList →
        s.select g = .ok t → s.select g' = .ok t' → t.nodes.toList <+: t'.nodes.toList := by
  have hdeclared := Table.isDeclared_of_build hbuild hcustom
  refine ⟨?_, ?_⟩
  · intro g g' id hagrees
    obtain ⟨n, hn, hn'⟩ := hagrees.node
    refine ⟨s.table.choose_congr hagrees, n, hn, hn', ?_, lower_congr hdeclared hagrees n⟩
    intro position rule hchoose
    exact applyRule_congr hagrees (hdeclared.of_choose hchoose) n
  · intro g g' t t' hrange hbegins h h'
    exact isPrefix_of_select_ok hdeclared hrange hbegins h h'

/-- Two graphs of different sizes that share an addition and what it adds, and differ in all the
rest; and the first of them extended. -/
theorem select_local_extended :
    let shared : Array IrNode :=
      #[{ opcode := .imm, type := .prim .u8, imms := [5] },
        { opcode := .sub, type := .prim .u8, operands := [0, 0], chain := some 7 },
        { opcode := .add, type := .prim .u8, operands := [1, 0] }]
    let g : IrGraph :=
      { nodes := shared.push { opcode := .imm, type := .prim .u16, imms := [1, 2] }
        root := some 2 }
    let other : IrGraph :=
      { nodes := (shared.push { opcode := .mul, type := .descriptor 3, operands := [9] }).push
          { opcode := .blank, type := .prim .void }
        root := none }
    let extended : IrGraph :=
      { nodes := g.nodes.push { opcode := .add, type := .prim .u16, operands := [3, 4] }
        root := some 4 }
    let t : X86.MachineGraph :=
      { nodes :=
          #[{ opcode := .movRi, type := .u8, imms := [5] },
            { opcode := .subRi, type := .u8, operands := [0], imms := [5], chain := some 7 },
            { opcode := .addRi, type := .u8, operands := [1], imms := [5] },
            { opcode := .movRi, type := .u16, imms := [1] }]
        root := some 2 }
    let t' : X86.MachineGraph :=
      { nodes := t.nodes.push { opcode := .addRi, type := .u16, operands := [4], imms := [1] }
        root := some 4 }
    Table.build X86.types X86.rules = .ok X86.selector.table ∧
      (∀ rule ∈ X86.rules, rule.shaping.isCustom = false) ∧ g.AgreesFrom other 2 ∧
      X86.selector.table.choose other 2 = X86.selector.table.choose g 2 ∧
      (∃ n, g.node? 2 = some n ∧ other.node? 2 = some n ∧
        X86.selector.lower other 2 n = X86.selector.lower g 2 n) ∧
      g.InRange ∧ g.nodes.toList <+: extended.nodes.toList ∧ X86.selector.select g = .ok t ∧
      X86.selector.select extended = .ok t' ∧ t.nodes.toList <+: t'.nodes.toList := by
  intro shared g other extended t t'
  have hbuild : Table.build X86.types X86.rules = .ok X86.selector.table := rfl
  have hcustom : ∀ rule ∈ X86.rules, rule.shaping.isCustom = false := by
    simp [X86.rules, Rule.exchange, Shaping.isCustom]
  have hagrees : g.AgreesFrom other 2 := by
    refine Graph.agreesFrom_of_closed (S := (· < 3)) (by decide) ?_
    intro (i : Nat) (hi : i < 3)
    obtain rfl | rfl | rfl : i = 0 ∨ i = 1 ∨ i = 2 := by omega
    · exact ⟨_, rfl, rfl, by decide⟩
    · exact ⟨_, rfl, rfl, by decide⟩
    · exact ⟨_, rfl, rfl, by decide⟩
  have hrange : g.InRange := by decide
  have hbegins : g.nodes.toList <+: extended.nodes.toList := ⟨[_], rfl⟩
  have hselect : X86.selector.select g = .ok t := by with_unfolding_all rfl
  have hselect' : X86.selector.select extended = .ok t' := by with_unfolding_all rfl
  obtain ⟨hagreed, hextended⟩ := select_local hbuild hcustom
  obtain ⟨hchoose, n, hn, hn', -, hlower⟩ := hagreed g other 2 hagrees
  exact ⟨hbuild, hcustom, hagrees, hchoose, ⟨n, hn, hn', hlower⟩, hrange, hbegins, hselect,
    hselect', hextended g extended t t' hrange hbegins hselect hselect'⟩

end Selector

end Codegen
