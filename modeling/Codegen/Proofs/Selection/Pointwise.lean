/-
Selection with declared rules, node by node.

The rules of a table may be anything that says what to do; here they are rules that keep
the shape of a node or follow a template, with patterns as deep as they like.  Then each
node has one of three outcomes by itself: there is no rule for it, the rule that is chosen
refuses it, or the rule makes a machine node of a placeholder.  `Rewrites` lists them.
That there is always one of the three rests on the pattern of the chosen rule, which finds
every node it looks at, and on the template, which is given only nodes that are there.

A graph is selected if the third is the outcome everywhere, and otherwise the first node
with another outcome is the diagnostic.  No node of the result leads anywhere that the
node with the same id did not lead, directly or through its operands.
-/
import Codegen.Proofs.Graph.Walk
import Codegen.Proofs.Pattern.Recording
import Codegen.Proofs.Rule.Table
import Codegen.Proofs.Selection
import Codegen.X86

namespace Codegen

namespace Selector

variable {O T : Type} {s : Selector O T} {g : IrGraph} {id : NodeId} {n : IrNode} {rule : Rule O T}
  {m : Node O T} {position : Nat}

/-! ### One node -/

/-- What a shaping is given is as it should be. -/
theorem sound_site {captures : Captures} {types : TypeMap T} (hn : g.node? id = some n)
    (hcapture : rule.pattern.capture g id rule.pattern.freshBuffer = .ok captures) :
    Site.Sound { graph := g, id, node := n, captures, types } :=
  ⟨hn, fun _ hi => Pattern.reaches_of_capture hcapture hi⟩

variable [Inhabited O] [Inhabited T]

/-- The outcome for one node: the diagnostic that there is no rule for it or that its rule cannot
shape it, or what its rule makes of a placeholder. -/
inductive Rewrites (s : Selector O T) (g : IrGraph) (id : NodeId) (n : IrNode) :
    Except Diagnostic (Node O T) → Prop
  | noRule (hchoose : s.table.choose g id = .ok none) :
      Rewrites s g id n (.error (s.noRule id n))
  | refused {position : Nat} {rule : Rule O T} {error : CompileError}
      (hchoose : s.table.choose g id = .ok (some (position, rule)))
      (happly : s.applyRule g id n rule = .error (.reject error)) :
      Rewrites s g id n (.error (s.badShape id position error))
  | made {position : Nat} {rule : Rule O T} {m : Node O T}
      (hchoose : s.table.choose g id = .ok (some (position, rule)))
      (happly : s.applyRule g id n rule = .ok m) : Rewrites s g id n (.ok m)

theorem lower_of_choose (h : s.table.choose g id = .ok (some (position, rule))) :
    s.lower g id n = (s.applyRule g id n rule).mapError (Stop.map (s.badShape id position)) := by
  rw [lower, h]
  rfl

/-- Lowering a node gives its outcome. -/
theorem Rewrites.lower_eq {outcome : Except Diagnostic (Node O T)}
    (h : s.Rewrites g id n outcome) : s.lower g id n = Stop.ofReject outcome := by
  cases h with
  | noRule hchoose =>
      rw [lower, hchoose]
      rfl
  | refused hchoose happly | made hchoose happly =>
      rw [lower_of_choose hchoose, happly]
      rfl

/-- A rule breaks no rule of use on a node that its pattern accepts. -/
theorem noFault_applyRule (hrange : g.InRange) (hn : g.node? id = some n)
    (hcustom : rule.shaping.isCustom = false) (haccepts : rule.pattern.accepts g id = .ok true) :
    NoFault (s.applyRule g id n rule) := by
  obtain ⟨captures, hcapture, -⟩ := Pattern.exists_capture_of_accepts haccepts
  rw [applyRule, hcapture, Stop.ofFault_ok, ok_bind]
  exact Shaping.noFault_apply hcustom (sound_site hn hcapture) hrange

theorem drawnFrom_applyRule (hn : g.node? id = some n) (hcustom : rule.shaping.isCustom = false)
    (h : s.applyRule g id n rule = .ok m) : DrawnFrom g id m ∧ m.chain = n.chain := by
  obtain ⟨captures, hcapture, h⟩ := of_bind_eq_ok h
  exact Shaping.drawnFrom_apply hcustom (sound_site hn (Stop.of_ofFault_ok hcapture)) h

/-! ### Every node -/

/-- Every node has an outcome. -/
theorem exists_rewrites (hdeclared : s.table.IsDeclared) (hrange : g.InRange)
    (hn : g.node? id = some n) : ∃ outcome, s.Rewrites g id n outcome := by
  obtain ⟨found, hchoose⟩ := s.table.exists_choose hrange (Graph.lt_size_of_node? hn)
  rcases found with _ | ⟨position, rule⟩
  · exact ⟨_, Rewrites.noRule hchoose⟩
  · obtain ⟨-, -, -, haccepts⟩ := Table.of_choose_some hchoose
    obtain ⟨outcome, happly⟩ :=
      (noFault_applyRule hrange hn (hdeclared.of_choose hchoose) haccepts).exists_ofReject
    cases outcome with
    | ok m => exact ⟨_, Rewrites.made hchoose happly⟩
    | error e => exact ⟨_, Rewrites.refused hchoose happly⟩

/-- There is no other way for lowering to end. -/
theorem rewrites_iff (hdeclared : s.table.IsDeclared) (hrange : g.InRange)
    (hn : g.node? id = some n) {outcome : Except Diagnostic (Node O T)} :
    s.Rewrites g id n outcome ↔ s.lower g id n = Stop.ofReject outcome := by
  refine ⟨Rewrites.lower_eq, fun h => ?_⟩
  obtain ⟨outcome', h'⟩ := exists_rewrites hdeclared hrange hn
  rwa [Stop.ofReject_inj (h.symm.trans h'.lower_eq)]

/-- What a node becomes keeps its chain and is drawn from what it reaches. -/
theorem Rewrites.drawnFrom (h : s.Rewrites g id n (.ok m)) (hdeclared : s.table.IsDeclared)
    (hn : g.node? id = some n) :
    m.chain = n.chain ∧ DrawnFrom g id m := by
  cases h with
  | made hchoose happly =>
      obtain ⟨hdrawn, hchain⟩ := drawnFrom_applyRule hn (hdeclared.of_choose hchoose) happly
      exact ⟨hchain, hdrawn⟩

/--
**Selection is a map over the nodes that adds no edges.**  With rules that keep the shape or follow
a template, a graph whose operands are in range is selected just if every node is made into a
machine node by the rule chosen for it.  The result has the same size and root; its node at an id is
what was made of the node there, has the chain of that node, and takes operands and immediates from
nodes which that node reaches along operands.  Otherwise the selection ends with the diagnostic of
the first node that has no rule or is refused.  All this is the same where placeholders are
overwritten in place, one after the other, as long as there are ids for them.
-/
theorem select_pointwise {types : TypeMap T} {rules : List (Rule O T)}
    (hbuild : Table.build types rules = .ok s.table)
    (hcustom : ∀ rule ∈ rules, rule.shaping.isCustom = false) (hclosed : g.Closed) :
    (g.size ≤ 2 ^ 32 → s.selectInPlace g = s.select g) ∧
      ((∃ t, s.select g = .ok t) ↔
        ∀ id n, g.node? id = some n → ∃ m, s.Rewrites g id n (.ok m)) ∧
      (∀ t, s.select g = .ok t → t.root = g.root ∧ t.size = g.size ∧
        ∀ id n, g.node? id = some n → ∃ m, t.node? id = some m ∧ s.Rewrites g id n (.ok m) ∧
          m.chain = n.chain ∧ DrawnFrom g id m) ∧
      ∀ stop, s.select g = .error stop → ∃ id n d,
        g.Lowest (fun id n => ∃ d, s.Rewrites g id n (.error d)) id n ∧
          s.Rewrites g id n (.error d) ∧ stop = .reject d := by
  have hdeclared := Table.isDeclared_of_build hbuild hcustom
  have hrange := hclosed.operands
  refine ⟨selectInPlace_eq, ⟨?_, ?_⟩, ?_, ?_⟩
  · rintro ⟨t, ht⟩ id n hn
    obtain ⟨m, -, hlower⟩ := (of_select_ok ht).2.2 id n hn
    exact ⟨m, (rewrites_iff hdeclared hrange hn).mpr hlower⟩
  · intro h
    refine exists_select hclosed.root fun id n hn => ?_
    obtain ⟨m, hm⟩ := h id n hn
    exact ⟨m, hm.lower_eq⟩
  · intro t ht
    obtain ⟨hroot, hsize, hnodes⟩ := of_select_ok ht
    refine ⟨hroot, hsize, fun id n hn => ?_⟩
    obtain ⟨m, hm, hlower⟩ := hnodes id n hn
    have hmade : s.Rewrites g id n (.ok m) := (rewrites_iff hdeclared hrange hn).mpr hlower
    exact ⟨m, hm, hmade, hmade.drawnFrom hdeclared hn⟩
  · intro stop hstop
    rcases s.select_cases hclosed.root with ⟨⟨t, ht⟩, -⟩ | ⟨id, n, stop', hlowest, hlower, hselect⟩
    · rw [hstop] at ht
      cases ht
    · rw [hstop] at hselect
      cases hselect
      obtain ⟨outcome, houtcome⟩ := exists_rewrites hdeclared hrange hlowest.node
      have hsame := houtcome.lower_eq
      rw [hlower] at hsame
      cases outcome with
      | ok m => cases hsame
      | error d =>
          cases hsame
          refine ⟨id, n, d, ⟨hlowest.node, ⟨d, houtcome⟩, ?_⟩, houtcome, rfl⟩
          intro i hi k hk hrefused
          obtain ⟨d', hd'⟩ := hrefused
          exact hlowest.before i hi k hk ⟨.reject d', hd'.lower_eq⟩

/-- A rule that looks two operands deep, on a graph with a circle; and a graph with two nodes that
are not selected. -/
theorem select_pointwise_circle :
    let rules : List (Rule X86.Opcode X86.RegType) :=
      [ { pattern := .op .add [.marked (.op .sub [.bind, .markedOp .imm []]), .wildcard]
          shaping := .template .addRi [.copyOperand 1, .copyImm 2 0, .mapType] },
        .exchange .sub .subRr,
        { pattern := .markedOp .imm [], shaping := .template .movRi [.copyImm 0 0, .mapType] } ]
    let s : Selector X86.Opcode X86.RegType :=
      { name := "deep"
        table :=
          { index := [(.add, [rules[0]]), (.sub, [rules[1]]), (.imm, [rules[2]])]
            types := X86.types
            count := 3 } }
    let good : IrGraph :=
      { nodes :=
          #[{ opcode := .imm, type := .prim .u8, imms := [5] },
            { opcode := .sub, type := .prim .u16, operands := [2, 0], chain := some 2 },
            { opcode := .add, type := .prim .u16, operands := [1, 2] }]
        root := some 2 }
    let t : Graph X86.Opcode X86.RegType :=
      { nodes :=
          #[{ opcode := .movRi, type := .u8, imms := [5] },
            { opcode := .subRr, type := .u16, operands := [2, 0], chain := some 2 },
            { opcode := .addRi, type := .u16, operands := [2], imms := [5] }]
        root := some 2 }
    let bad : IrGraph :=
      { nodes :=
          #[{ opcode := .imm, type := .prim .u8, imms := [5] },
            { opcode := .imm, type := .prim .u8 },
            { opcode := .mul, type := .prim .u8, operands := [0, 1] }]
        root := none }
    Table.build X86.types rules = .ok s.table ∧
      (∀ rule ∈ rules, rule.shaping.isCustom = false) ∧ good.Closed ∧ bad.Closed ∧
      s.select good = .ok t ∧ s.selectInPlace good = .ok t ∧
      (∀ id n, good.node? id = some n → ∃ m, t.node? id = some m ∧ s.Rewrites good id n (.ok m) ∧
        m.chain = n.chain ∧ DrawnFrom good id m) ∧
      ∃ id n d, bad.Lowest (fun id n => ∃ d, s.Rewrites bad id n (.error d)) id n ∧
        s.Rewrites bad id n (.error d) ∧ d = s.badShape 1 0 (.unsupportedPattern 1 "IMM") := by
  intro rules s good t bad
  have hbuild : Table.build X86.types rules = .ok s.table := rfl
  have hcustom : ∀ rule ∈ rules, rule.shaping.isCustom = false := by simp [rules, Rule.exchange,
    Shaping.isCustom]
  have hgood : good.Closed := ⟨by decide, by decide⟩
  have hbad : bad.Closed := ⟨by decide, by decide⟩
  have hselect : s.select good = .ok t := by with_unfolding_all rfl
  have hfail : s.select bad
      = .error (.reject (s.badShape 1 0 (.unsupportedPattern 1 "IMM"))) := by
    with_unfolding_all rfl
  obtain ⟨hplace, -, hmade, -⟩ := select_pointwise hbuild hcustom hgood
  obtain ⟨-, -, -, hrefused⟩ := select_pointwise hbuild hcustom hbad
  obtain ⟨id, n, d, hlowest, hd, hstop⟩ := hrefused _ hfail
  refine ⟨hbuild, hcustom, hgood, hbad, hselect, (hplace (by decide)).trans hselect,
    (hmade t hselect).2.2, id, n, d, hlowest, hd, ?_⟩
  exact (Stop.reject.inj hstop).symm

end Selector

end Codegen
