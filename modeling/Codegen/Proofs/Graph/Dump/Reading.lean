/-
A dump shows the part of a graph that its root reaches, and all of it.

The lines of a dump are read one after the other.  A record tells the number of its node, the
opcode, the type and the immediates.  The names of anchors and immediates depend on the opcode,
which stands behind them, so they are read past: anchors end with the first closing brace, and
the name of an immediate with a colon.  The edges below the record, up to the first line that
is none, tell the chain and the operands.  Below the last node stands no record, so the end is
told as well, and from a dump follows everything that the walk has handed over.

How the anchors are named is the one thing that is not read: it adds nothing to the opcode and
the edges.
-/
import Codegen.Proofs.Graph.Dump.Lines

namespace Codegen

open Text

/-! ### Reading a record -/

namespace Node

variable {O T : Type} [InstructionSet O] [ToString T] {n m : Node O T} {u v : String}

/-- The anchors end with the first brace; if the record does not start with one, there are none. -/
theorem anchorField_append_inj (legible : Legible O T) (hu : Stops (· == '\x7b') u)
    (hv : Stops (· == '\x7b') v) (h : n.anchorField ++ u = m.anchorField ++ v) : u = v := by
  have hbrace : isAnchorChar '\x7d' = false := by decide
  unfold anchorField at h
  split at h <;> split at h
  · simpa using h
  · rw [String.empty_append] at h
    simp [h, Stops] at hu
  · rw [String.empty_append] at h
    simp [← h, Stops] at hv
  · simp only [String.append_assoc, String.append_right_inj] at h
    obtain ⟨-, h⟩ := append_inj_of_stops ((over_anchors legible n).avoids hbrace)
      ((over_anchors legible m).avoids hbrace) (by simp [Stops]) (by simp [Stops]) h
    exact (String.append_right_inj _).mp h

/-- One immediate is read, whatever the opcodes call it. -/
theorem immField_append_inj (legible : Legible O T) {op op' : O} {k : Nat} {a b : UInt64}
    (h : immField op k a ++ u = immField op' k b ++ v) : a = b ∧ u = v := by
  have hname : ∀ op : O, IsName ((InstructionSet.immName? op k).getD "imm") :=
    fun op => isName_getD (legible.immName op k) (by decide)
  simp only [immField, String.append_assoc, String.append_right_inj] at h
  obtain ⟨-, h⟩ := append_inj_of_stops (hname op) (hname op') (by simp [Stops, isNameChar])
    (by simp [Stops, isNameChar]) h
  obtain ⟨hvalue, h⟩ := numeral_append_inj (by simp [Stops]) (by simp [Stops])
    ((String.append_right_inj _).mp h)
  exact ⟨UInt64.toNat_inj.mp hvalue, (String.append_right_inj _).mp h⟩

/-- The immediates end where no field of this kind follows. -/
theorem immFieldsFrom_append_inj (legible : Legible O T) {op op' : O} (hu : Stops (· == '<') u)
    (hv : Stops (· == '<') v) :
    ∀ {k : Nat} {as bs : List UInt64},
      immFieldsFrom op k as ++ u = immFieldsFrom op' k bs ++ v → as = bs ∧ u = v
  | _, [], [], h => ⟨rfl, by simpa [immFieldsFrom] using h⟩
  | _, [], _ :: _, h => by
      have hhead : u.toList.head? = some '<' := by
        rw [show immFieldsFrom op _ [] = "" from rfl, String.empty_append, immFieldsFrom_cons] at h
        simp [h, immField]
      simpa using hu '<' hhead
  | _, _ :: _, [], h => by
      have hhead : v.toList.head? = some '<' := by
        rw [show immFieldsFrom op' _ [] = "" from rfl, String.empty_append, immFieldsFrom_cons] at h
        simp [← h, immField]
      simpa using hv '<' hhead
  | _, _ :: _, _ :: _, h => by
      rw [immFieldsFrom_cons, immFieldsFrom_cons, String.append_assoc, String.append_assoc] at h
      obtain ⟨hhead, hrest⟩ := immField_append_inj legible h
      obtain ⟨htail, hend⟩ := immFieldsFrom_append_inj legible hu hv hrest
      exact ⟨by rw [hhead, htail], hend⟩

theorem kind_inj (legible : Legible O T) (h : n.kind = m.kind) :
    n.type = m.type ∧ n.opcode = m.opcode := by
  obtain ⟨htype, h⟩ := append_inj_of_stops (legible.type n.type) (legible.type m.type)
    (by simp [Stops, isNameChar]) (by simp [Stops, isNameChar]) ((String.append_right_inj _).mp h)
  simp only [String.append_right_inj, String.append_left_inj] at h
  exact ⟨legible.type_inj _ _ htype, legible.mnemonic_inj _ _ h⟩

/-- A record tells its node but for the edges to it. -/
theorem recordLine_inj (legible : Legible O T) {a b : NodeId}
    (h : n.recordLine a = m.recordLine b) :
    a = b ∧ n.opcode = m.opcode ∧ n.type = m.type ∧ n.imms = m.imms := by
  have hfields : ∀ n : Node O T, Stops (· == '\x7b') (n.immFields ++ n.kind) := by
    intro n
    rw [immFields_eq]
    cases n.imms with
    | nil => simp [Stops, kind, immFieldsFrom]
    | cons value values => simp [Stops, immFieldsFrom_cons, immField]
  obtain ⟨hid, h⟩ := labelled_inj h
  have h := anchorField_append_inj legible (hfields n) (hfields m)
    ((String.append_right_inj _).mp h)
  rw [immFields_eq, immFields_eq] at h
  obtain ⟨himms, h⟩ := immFieldsFrom_append_inj legible (by simp [Stops, kind])
    (by simp [Stops, kind]) h
  obtain ⟨htype, hopcode⟩ := kind_inj legible h
  exact ⟨hid, hopcode, htype, himms⟩

end Node

/-! ### Reading the edges below it -/

namespace Node

variable {O T : Type} {n m : Node O T} {id : NodeId}

theorem uses_inj (h : n.uses = m.uses) : n.chain = m.chain ∧ n.operands = m.operands := by
  have hchain : ∀ n : Node O T, ∀ use ∈ n.chainUses, (use.2 == chainAnchor) = true := by
    intro n use huse
    obtain ⟨first, -, rfl⟩ := List.mem_map.mp huse
    simp
  have hoperand : ∀ n : Node O T, ∀ use ∈ n.operandUses.head?, (use.2 == chainAnchor) = false := by
    intro n use huse
    obtain ⟨⟨used, i⟩, -, rfl⟩ := List.mem_map.mp (List.mem_of_head? huse)
    simp [operandAnchor_ne_chainAnchor]
  obtain ⟨hfirst, hrest⟩ := append_inj_of_head? (hchain n) (hchain m) (hoperand n) (hoperand m) h
  refine ⟨?_, ?_⟩
  · have hhead := congrArg List.head? (congrArg (List.map Prod.fst) hfirst)
    simpa [chainUses, Function.comp_def] using hhead
  · have hmap := congrArg (List.map Prod.fst) hrest
    simpa [operandUses, Function.comp_def] using hmap

theorem edgeLines_inj (h : n.edgeLines id = m.edgeLines id) :
    n.chain = m.chain ∧ n.operands = m.operands := by
  refine uses_inj ((List.map_inj_right ?_).mp h)
  rintro ⟨a, u⟩ ⟨b, v⟩ heq
  obtain ⟨hsource, -, hanchor⟩ := edgeLine_inj heq
  rw [hsource, hanchor]

end Node

/-! ### Reading the whole dump -/

namespace Graph

section Lines

variable {O T : Type} [InstructionSet O] [ToString T] {g h : Graph O T}
  {visited visited' : List (NodeId × Node O T)} {root root' : Option NodeId}

/-- No edge stands where the lines of another node could start. -/
theorem isEdge_of_head? :
    ∀ l ∈ (bodyLines visited ++ footLines root).head?, isEdge l = false := by
  intro l hl
  cases visited with
  | nil => exact isEdge_of_mem_footLines (List.mem_of_head? hl)
  | cons v visited =>
      obtain ⟨id, n⟩ := v
      obtain rfl : n.recordLine id = l := Option.some.inj hl
      exact isEdge_labelled id _

/-- Below the last node stands no record. -/
theorem footLines_ne_record {id : NodeId} {n : Node O T} {ls : List String} :
    footLines root ≠ n.recordLine id :: ls := by
  intro heq
  cases root with
  | none =>
      have hline : "\x7d" = n.recordLine id := (List.cons.inj heq).1
      have hhead := congrArg (fun s : String => s.toList.head?) hline
      simp [Node.recordLine, labelled, named] at hhead
  | some root =>
      have hline : rootLine root = n.recordLine id := (List.cons.inj heq).1
      exact rootLine_ne_labelled hline

theorem footLines_inj {root root' : Option NodeId} (heq : footLines root = footLines root') :
    root = root' := by
  cases root <;> cases root' <;> simp [footLines] at heq ⊢
  exact (named_inj (by decide) (by decide) heq).1

/-- The lines of the nodes and the mark of the root tell both. -/
theorem bodyLines_inj (legible : Legible O T) :
    ∀ {visited visited' : List (NodeId × Node O T)},
      bodyLines visited ++ footLines root = bodyLines visited' ++ footLines root' →
      visited = visited' ∧ root = root'
  | [], [], heq => ⟨rfl, footLines_inj heq⟩
  | [], _ :: _, heq => absurd heq footLines_ne_record
  | _ :: _, [], heq => absurd heq.symm footLines_ne_record
  | (a, n) :: visited, (b, m) :: visited', heq => by
      have hlines : n.recordLine a :: (n.edgeLines a ++ (bodyLines visited ++ footLines root))
          = m.recordLine b :: (m.edgeLines b ++ (bodyLines visited' ++ footLines root')) := by
        simpa [bodyLines, Node.dumpLines] using heq
      obtain ⟨hrecord, hrest⟩ := List.cons.inj hlines
      obtain ⟨rfl, hopcode, htype, himms⟩ := Node.recordLine_inj legible hrecord
      obtain ⟨hedges, hrest⟩ := append_inj_of_head? (fun _ => Node.isEdge_of_mem_edgeLines)
        (fun _ => Node.isEdge_of_mem_edgeLines) isEdge_of_head? isEdge_of_head? hrest
      obtain ⟨hchain, hoperands⟩ := Node.edgeLines_inj hedges
      obtain ⟨rfl, hroot⟩ := bodyLines_inj legible hrest
      have hnode : n = m := Node.ext hopcode htype hoperands himms hchain
      rw [hnode]
      exact ⟨rfl, hroot⟩

/-- Dumps that are alike come from the same nodes and the same root. -/
theorem walk_inj_of_toDot (legible : Legible O T) (hg : g.walk = .ok visited)
    (hh : h.walk = .ok visited') (heq : g.toDot = h.toDot) :
    visited = visited' ∧ g.root = h.root := by
  rw [toDot_of_walk hg, toDot_of_walk hh] at heq
  have hlines := unlines_inj (fun _ => over_of_mem_dump legible) (fun _ => over_of_mem_dump legible)
    (Except.ok.inj heq)
  exact bodyLines_inj legible (List.append_cancel_left hlines)

end Lines

/-! ### What the root reaches -/

section Reached

variable {O T : Type} {g h : Graph O T} {visited visited' : List (NodeId × Node O T)}

/-- Neither the root nor an operand of a node that it reaches leads out of the graph. -/
structure Enclosed (g : Graph O T) : Prop where
  root : ∀ root, g.root = some root → root < g.size
  operands : ∀ root, g.root = some root → ¬g.Dangles root

/-- The same root, the same nodes reached from it in the same order, and each of them alike. -/
structure ReachesAlike (g h : Graph O T) : Prop where
  root : g.root = h.root
  reachable : g.reachable = h.reachable
  node : ∀ ids, g.reachable = .ok ids → ∀ id ∈ ids, g.node? id = h.node? id

theorem enclosed_iff : g.Enclosed ↔ ∃ visited, g.walk = .ok visited := by
  cases hroot : g.root with
  | none =>
      have hwalk : g.walk = .ok [] := by simp [walk, hroot]
      exact ⟨fun _ => ⟨[], hwalk⟩, fun _ => ⟨by simp [hroot], by simp [hroot]⟩⟩
  | some root =>
      rw [exists_walk_iff hroot, ← not_not (a := ∀ id, g.Reaches root id → id < g.size),
        not_forall_lt_size_iff, not_or, Nat.not_le]
      constructor
      · exact fun henclosed => ⟨henclosed.root root hroot, henclosed.operands root hroot⟩
      · rintro ⟨hlt, hdangles⟩
        refine ⟨fun id hid => ?_, fun id hid => ?_⟩
        · rwa [← Option.some.inj (hroot.symm.trans hid)]
        · rwa [← Option.some.inj (hroot.symm.trans hid)]

theorem exists_walk_of_reachable {ids : List NodeId} (hids : g.reachable = .ok ids) :
    ∃ visited, g.walk = .ok visited := by
  cases hwalk : g.walk with
  | ok visited => exact ⟨visited, rfl⟩
  | error fault =>
      rw [reachable, hwalk] at hids
      cases hids

theorem nodes_of_walk (hg : g.walk = .ok visited) :
    visited.map (fun v => (v.1, some v.2))
      = (visited.map (·.1)).map fun id => (id, g.node? id) := by
  rw [List.map_map]
  refine List.map_congr_left fun v hv => ?_
  rw [Function.comp_apply, node?_of_walk hg v hv]

theorem reachesAlike_iff (hg : g.walk = .ok visited) (hh : h.walk = .ok visited') :
    g.ReachesAlike h ↔ visited = visited' ∧ g.root = h.root := by
  constructor
  · intro halike
    have hids : visited.map (·.1) = visited'.map (·.1) := by
      have hreachable := halike.reachable
      rw [reachable_of_walk hg, reachable_of_walk hh] at hreachable
      exact Except.ok.inj hreachable
    refine ⟨?_, halike.root⟩
    have hnodes : visited.map (fun v => (v.1, some v.2))
        = visited'.map fun v => (v.1, some v.2) := by
      rw [nodes_of_walk hg, nodes_of_walk hh, ← hids]
      refine List.map_congr_left fun id hid => ?_
      rw [halike.node _ (reachable_of_walk hg) id hid]
    refine (List.map_inj_right ?_).mp hnodes
    rintro ⟨a, n⟩ ⟨b, m⟩ heq
    simpa using heq
  · rintro ⟨rfl, hroot⟩
    refine ⟨hroot, by rw [reachable_of_walk hg, reachable_of_walk hh], ?_⟩
    intro ids hids id hid
    rw [reachable_of_walk hg] at hids
    obtain rfl := Except.ok.inj hids
    obtain ⟨v, hv, rfl⟩ := List.mem_map.mp hid
    rw [node?_of_walk hg v hv, node?_of_walk hh v hv]

variable [InstructionSet O] [ToString T] {text : String}

/-- A graph has a dump just if the walk from its root stays inside. -/
theorem exists_toDot_iff : (∃ text, g.toDot = .ok text) ↔ g.Enclosed := by
  rw [enclosed_iff]
  constructor
  · rintro ⟨text, htext⟩
    exact exists_walk_of_toDot htext
  · rintro ⟨visited, hwalk⟩
    exact ⟨_, toDot_of_walk hwalk⟩

/-- A graph has the same dump as another just if they are alike as far as their roots reach. -/
theorem toDot_eq_ok_iff (legible : Legible O T) (htext : g.toDot = .ok text) :
    h.toDot = .ok text ↔ g.ReachesAlike h := by
  obtain ⟨visited, hwalk⟩ := exists_walk_of_toDot htext
  constructor
  · intro htext'
    obtain ⟨visited', hwalk'⟩ := exists_walk_of_toDot htext'
    exact (reachesAlike_iff hwalk hwalk').mpr
      (walk_inj_of_toDot legible hwalk hwalk' (htext.trans htext'.symm))
  · intro halike
    obtain ⟨visited', hwalk'⟩ :=
      exists_walk_of_reachable (halike.reachable.symm.trans (reachable_of_walk hwalk))
    obtain ⟨rfl, hroot⟩ := (reachesAlike_iff hwalk hwalk').mp halike
    rw [toDot_of_walk hwalk', ← hroot, ← toDot_of_walk hwalk, htext]

end Reached

/--
**A dump determines what the root reaches.**  A graph over the target-independent instructions, or
over those of the machine, has a dump just if neither its root nor an operand that is reached from
there leads out of it.  Another graph over the same instructions has the same dump just if it has
the same root, the same nodes are reached from there in the same order, and each of these nodes has
the same opcode, type, operands, immediates and chain in both.
-/
theorem dump_determines :
    (∀ g h : IrGraph, ((∃ text, g.toDot = .ok text) ↔ g.Enclosed) ∧
        ∀ text, g.toDot = .ok text → (h.toDot = .ok text ↔ g.ReachesAlike h)) ∧
      (∀ g h : X86.MachineGraph, ((∃ text, g.toDot = .ok text) ↔ g.Enclosed) ∧
        ∀ text, g.toDot = .ok text → (h.toDot = .ok text ↔ g.ReachesAlike h)) :=
  ⟨fun _ _ => ⟨exists_toDot_iff, fun _ => toDot_eq_ok_iff legible_ir⟩,
    fun _ _ => ⟨exists_toDot_iff, fun _ => toDot_eq_ok_iff X86.legible⟩⟩

/-- What is not reached does not show, be it a node that only a chain leads to or one whose operand
is no node; the chain of a node that is reached does, and so does the root of a machine graph. -/
theorem dump_determines_chained :
    let g : IrGraph :=
      { nodes :=
          #[{ opcode := .imm, type := .prim .u8, imms := [1] },
            { opcode := .imm, type := .prim .u8, imms := [2], chain := some 0 },
            { opcode := .add, type := .prim .u8, operands := [1, 1], chain := some 0 },
            { opcode := .sub, type := .prim .u8, operands := [9, 2] }]
        root := some 2 }
    let other : IrGraph :=
      { nodes :=
          #[{ opcode := .imm, type := .prim .u16, imms := [7] },
            { opcode := .imm, type := .prim .u8, imms := [2], chain := some 0 },
            { opcode := .add, type := .prim .u8, operands := [1, 1], chain := some 0 }]
        root := some 2 }
    let freed : IrGraph :=
      { nodes :=
          #[{ opcode := .imm, type := .prim .u8, imms := [1] },
            { opcode := .imm, type := .prim .u8, imms := [2] },
            { opcode := .add, type := .prim .u8, operands := [1, 1], chain := some 0 }]
        root := some 2 }
    let machine : X86.MachineGraph :=
      { nodes := #[{ opcode := .movRi, type := .u8, imms := [1] }], root := some 0 }
    g.Enclosed ∧ (∃ text, g.toDot = .ok text ∧ other.toDot = .ok text ∧ freed.toDot ≠ .ok text) ∧
      (∀ text, { g with root := some 3 }.toDot ≠ .ok text) ∧
      ∃ text, machine.toDot = .ok text ∧ { machine with root := none }.toDot ≠ .ok text := by
  intro g other freed machine
  have hg : g.walk = .ok [(2, g.nodes[2]), (1, g.nodes[1])] := by
    simp [g, walk, walkFrom, size, node, node?, ok_bind]
  have hother : other.walk = .ok [(2, g.nodes[2]), (1, g.nodes[1])] := by
    simp [g, other, walk, walkFrom, size, node, node?, ok_bind]
  have hfreed : freed.walk = .ok [(2, g.nodes[2]), (1, freed.nodes[1])] := by
    simp [g, freed, walk, walkFrom, size, node, node?, ok_bind]
  have hmachine : machine.walk = .ok [(0, machine.nodes[0])] := by
    simp [machine, walk, walkFrom, size, node, node?, ok_bind]
  have henclosed : g.Enclosed := enclosed_iff.mpr ⟨_, hg⟩
  obtain ⟨text, htext⟩ := (dump_determines.1 g g).1.mpr henclosed
  obtain ⟨shown, hshown⟩ :=
    (dump_determines.2 machine machine).1.mpr (enclosed_iff.mpr ⟨_, hmachine⟩)
  refine ⟨henclosed, ⟨text, htext, ?_, ?_⟩, ?_, shown, hshown, ?_⟩
  · have halike : g.ReachesAlike other := (reachesAlike_iff hg hother).mpr ⟨rfl, rfl⟩
    exact ((dump_determines.1 g other).2 text htext).mpr halike
  · intro hsame
    have halike := ((dump_determines.1 g freed).2 text htext).mp hsame
    exact absurd ((reachesAlike_iff hg hfreed).mp halike).1 (by decide)
  · intro text htext
    have hdangles := ((dump_determines.1 _ g).1.mp ⟨text, htext⟩).operands 3 rfl
    exact hdangles ⟨3, _, Reaches.refl _ 3, rfl, 9, by decide, by decide⟩
  · intro hsame
    have halike := ((dump_determines.2 machine _).2 shown hshown).mp hsame
    exact absurd halike.root (by decide)

end Graph

end Codegen
