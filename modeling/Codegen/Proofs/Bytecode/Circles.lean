/-
Circles in what is decoded.

Every record but one keeps the nodes of a function in an order: a new node waits for nodes
that are there already, and nothing waits for it yet.  The exception is the chain, which is
set on a node that exists, to any node that exists, without asking whether that node waits
for the first.  So three records suffice to make a node wait for itself: an immediate, a
reference to it, and a chain.

What holds is this.  Operands lead backward, so every circle goes along a chain.  If no
chain is set to a node that leads back, there is no circle.  And unless a chain is replaced
by a later one, a circle that has been closed stays.
-/
import Codegen.Proofs.Bytecode.Meaning
import Codegen.Proofs.Bytecode.Safety
import Codegen.Proofs.Graph.Reach

namespace Codegen

namespace Assembly

variable {a b : Assembly} {r : Record} {records : List Record} {n : IrNode} {x y : NodeId}
  {first top : NodeId} {rest : List NodeId}

/-! ### What a record does to the nodes -/

/-- A record appends a node that refers to nodes which are there, or leaves the nodes alone, or sets
a chain. -/
theorem Moves.nodes_cases (h : a.Moves r b) (hv : a.Valid) :
    (∃ n rest, (∀ id ∈ n.refs, id < a.nodes.length) ∧ b = a.produce n rest) ∨
      b.nodes = a.nodes ∨
      ∃ first top rest, r = .chain ∧ a.stack = first :: top :: rest ∧
        b.nodes = a.nodes.modify top (·.withChain first) := by
  cases h with
  | imm type value =>
      refine Or.inl ⟨_, _, ?_, rfl⟩
      intro id hid
      cases hid
  | @binary op type lhs rhs rest hstack =>
      refine Or.inl ⟨_, _, ?_, rfl⟩
      intro id hid
      refine hv.stack id ?_
      rw [hstack]
      simp only [Node.refs, Option.toList_none, List.append_nil, List.mem_cons, List.not_mem_nil,
        or_false] at hid ⊢
      rcases hid with rfl | rfl
      · exact Or.inr (Or.inl rfl)
      · exact Or.inl rfl
  | ref hid => exact Or.inr (Or.inl rfl)
  | chain hstack => exact Or.inr (Or.inr ⟨_, _, _, rfl, hstack, rfl⟩)

theorem Moves.unique {b' : Assembly} (h : a.Moves r b) (h' : a.Moves r b') : b = b' := by
  cases h with
  | imm type value =>
      cases h'
      rfl
  | binary op type hstack =>
      cases h' with
      | binary _ _ hstack' =>
          cases hstack.symm.trans hstack'
          rfl
  | ref hid =>
      cases h'
      rfl
  | chain hstack =>
      cases h' with
      | chain hstack' =>
          cases hstack.symm.trans hstack'
          rfl

theorem graph_congr (h : b.nodes = a.nodes) : b.graph = a.graph := by
  rw [graph, graph, h]

theorem awaits_produce :
    (a.produce n rest).graph.Awaits x y ↔
      a.graph.Awaits x y ∨ x = a.nodes.length ∧ y ∈ n.refs := by
  simp only [Graph.Awaits, node?_graph, getElem?_produce]
  constructor
  · rintro ⟨m, hm | ⟨hx, rfl⟩, hmem⟩
    · exact Or.inl ⟨m, hm, hmem⟩
    · exact Or.inr ⟨hx, hmem⟩
  · rintro (⟨m, hm, hmem⟩ | ⟨hx, hmem⟩)
    · exact ⟨m, Or.inl hm, hmem⟩
    · exact ⟨n, Or.inr ⟨hx, rfl⟩, hmem⟩

section Chain

variable (hnodes : b.nodes = a.nodes.modify top (·.withChain first))

include hnodes

theorem node?_graph_modify (id : NodeId) :
    b.graph.node? id
      = (a.graph.node? id).map fun n => if top = id then n.withChain first else n := by
  rw [node?_graph, node?_graph, hnodes, List.getElem?_modify]
  rfl

/-- Setting a chain adds one edge, and may take the edge away that was the chain before. -/
theorem awaits_modify (h : b.graph.Awaits x y) : a.graph.Awaits x y ∨ x = top ∧ y = first := by
  obtain ⟨m, hm, hmem⟩ := h
  rw [node?_graph_modify hnodes] at hm
  obtain ⟨n, hn, rfl⟩ := Option.map_eq_some_iff.mp hm
  by_cases htop : top = x
  · rw [if_pos htop] at hmem
    rcases List.mem_append.mp hmem with hoperand | hchain
    · exact Or.inl ⟨n, hn, List.mem_append_left _ hoperand⟩
    · exact Or.inr ⟨htop.symm, List.mem_singleton.mp hchain⟩
  · rw [if_neg htop] at hmem
    exact Or.inl ⟨n, hn, hmem⟩

theorem awaits_modify_new (htop : top < a.nodes.length) : b.graph.Awaits top first := by
  obtain ⟨n, hn⟩ : ∃ n, a.graph.node? top = some n := Graph.exists_node? htop
  refine ⟨n.withChain first, ?_, List.mem_append_right _ (List.mem_singleton_self first)⟩
  rw [node?_graph_modify hnodes, hn, Option.map_some, if_pos rfl]

/-- Nothing is lost if there was no chain before. -/
theorem awaits_modify_old (hfree : ∀ id, ¬a.graph.Chained top id) (h : a.graph.Awaits x y) :
    b.graph.Awaits x y := by
  obtain ⟨n, hn, hmem⟩ := h
  refine ⟨if top = x then n.withChain first else n, ?_, ?_⟩
  · rw [node?_graph_modify hnodes, hn, Option.map_some]
  · by_cases htop : top = x
    · subst htop
      have hchain : y ∉ n.chain.toList := by
        intro hy
        exact hfree y ⟨n, hn, Option.mem_toList.mp hy⟩
      rw [if_pos rfl]
      exact List.mem_append_left _ ((List.mem_append.mp hmem).resolve_right hchain)
    · rw [if_neg htop]
      exact hmem

end Chain

/-! ### References stay in range -/

/-- Every node waits for nodes that are there. -/
def Linked (a : Assembly) : Prop := ∀ x y, a.graph.Awaits x y → y < a.nodes.length

theorem start_linked : start.Linked := by
  rintro x y ⟨n, hn, -⟩
  cases hn

theorem Moves.linked (h : a.Moves r b) (hv : a.Valid) (hl : a.Linked) : b.Linked := by
  intro x y hawaits
  rcases h.nodes_cases hv with ⟨n, rest, hrefs, rfl⟩ | hsame |
    ⟨first, top, rest, -, hstack, hnodes⟩
  · rw [produce, List.length_append]
    refine Nat.lt_add_right _ ?_
    rcases awaits_produce.mp hawaits with hold | ⟨-, hmem⟩
    · exact hl x y hold
    · exact hrefs y hmem
  · rw [graph_congr hsame] at hawaits
    rw [hsame]
    exact hl x y hawaits
  · rw [hnodes, List.length_modify]
    rcases awaits_modify hnodes hawaits with hold | ⟨-, rfl⟩
    · exact hl x y hold
    · exact hv.stack y (by simp [hstack])

theorem Runs.linked (h : Runs a records b) (hv : a.Valid) (hl : a.Linked) : b.Linked :=
  h.invariant (fun _ hmove hv hl => hmove.linked hv hl) hv hl

/-! ### Closing a circle -/

/-- The record chains a node to one that leads back to it. -/
def Closes (a : Assembly) (r : Record) : Prop :=
  r = .chain ∧ ∃ first top rest, a.stack = first :: top :: rest ∧ a.graph.Leads first top

/-- The record chains a node that has a chain already. -/
def Rechains (a : Assembly) (r : Record) : Prop :=
  r = .chain ∧ ∃ first top rest id, a.stack = first :: top :: rest ∧ a.graph.Chained top id

/-- A record that closes no circle leaves a state without circles without circles. -/
theorem Moves.acyclic (h : a.Moves r b) (hv : a.Valid) (hl : a.Linked) (hopen : ¬a.Closes r)
    (hacyclic : a.graph.Acyclic) : b.graph.Acyclic := by
  rcases h.nodes_cases hv with ⟨n, rest, hrefs, rfl⟩ | hsame |
    ⟨first, top, rest, rfl, hstack, hnodes⟩
  · have hunused : ∀ x, ¬(a.produce n rest).graph.Awaits x a.nodes.length := by
      intro x hawaits
      rcases awaits_produce.mp hawaits with hold | ⟨-, hmem⟩
      · exact Nat.lt_irrefl _ (hl x _ hold)
      · exact Nat.lt_irrefl _ (hrefs _ hmem)
    exact hacyclic.of_new (fun x y h => (awaits_produce.mp h).imp_right And.left) hunused
  · rw [graph_congr hsame]
    exact hacyclic
  · refine hacyclic.of_added (fun x y => awaits_modify hnodes) fun hleads => ?_
    exact hopen ⟨rfl, first, top, rest, hstack, hleads⟩

/-- A record that replaces no chain keeps all edges. -/
theorem Moves.awaits_mono (h : a.Moves r b) (hv : a.Valid) (hkeep : ¬a.Rechains r)
    (hawaits : a.graph.Awaits x y) : b.graph.Awaits x y := by
  rcases h.nodes_cases hv with ⟨n, rest, -, rfl⟩ | hsame |
    ⟨first, top, rest, rfl, hstack, hnodes⟩
  · exact awaits_produce.mpr (Or.inl hawaits)
  · rw [graph_congr hsame]
    exact hawaits
  · refine awaits_modify_old hnodes (fun id hchained => ?_) hawaits
    exact hkeep ⟨rfl, first, top, rest, id, hstack, hchained⟩

/-- A record that closes a circle and replaces no chain leaves a circle behind. -/
theorem Moves.not_acyclic (h : a.Moves r b) (hv : a.Valid) (hkeep : ¬a.Rechains r)
    (hcloses : a.Closes r) : ¬b.graph.Acyclic := by
  obtain ⟨rfl, first, top, rest, hstack, hleads⟩ := hcloses
  have hback : b.graph.Leads first top :=
    Relation.ReflTransGen.mono (fun x y => h.awaits_mono hv hkeep) _ _ hleads
  cases h with
  | chain hstack' =>
      cases hstack.symm.trans hstack'
      intro hacyclic
      exact hacyclic.not_leads (awaits_modify_new rfl (hv.stack top (by simp [hstack]))) hback

/-! ### Whole runs -/

/-- `P` holds of every record and the state in which it is run. -/
def Always (P : Assembly → Record → Prop) (a : Assembly) : List Record → Prop
  | [] => True
  | r :: records => P a r ∧ ∀ b, a.Moves r b → b.Always P records

theorem Runs.acyclic (h : Runs a records b) (hv : a.Valid) (hl : a.Linked)
    (hopen : a.Always (fun a r => ¬a.Closes r) records) (hacyclic : a.graph.Acyclic) :
    b.graph.Acyclic := by
  induction h with
  | nil a => exact hacyclic
  | cons hmove _ ih =>
      obtain ⟨hr, hrest⟩ := hopen
      exact ih (hmove.valid hv) (hmove.linked hv hl) (hrest _ hmove)
        (hmove.acyclic hv hl hr hacyclic)

theorem Runs.awaits_mono (h : Runs a records b) (hv : a.Valid)
    (hkeep : a.Always (fun a r => ¬a.Rechains r) records) (hawaits : a.graph.Awaits x y) :
    b.graph.Awaits x y := by
  induction h with
  | nil a => exact hawaits
  | cons hmove _ ih =>
      obtain ⟨hr, hrest⟩ := hkeep
      exact ih (hmove.valid hv) (hrest _ hmove) (hmove.awaits_mono hv hr hawaits)

/-- If no chain is replaced and there is no circle in the end, none was ever closed. -/
theorem Runs.always_open (h : Runs a records b) (hv : a.Valid)
    (hkeep : a.Always (fun a r => ¬a.Rechains r) records) (hacyclic : b.graph.Acyclic) :
    a.Always (fun a r => ¬a.Closes r) records := by
  induction h with
  | nil a => trivial
  | cons hmove hruns ih =>
      obtain ⟨hr, hrest⟩ := hkeep
      have hnext := hrest _ hmove
      refine ⟨fun hcloses => hmove.not_acyclic hv hr hcloses ?_, fun c hc => ?_⟩
      · exact hacyclic.mono fun x y => hruns.awaits_mono (hmove.valid hv) hnext
      · cases hmove.unique hc
        exact ih (hmove.valid hv) hnext hacyclic

theorem start_acyclic : start.graph.Acyclic := by
  intro id hcircle
  obtain ⟨_, -, n, hn, -⟩ := Relation.TransGen.tail'_iff.mp hcircle
  cases hn

end Assembly

/--
**When a decoded function has no circle.**  Operands lead backward, and so there is no circle just
if no node is chained to one that leads back to it.  As the records are run, there is none in the
end if no record closes one; and if no record replaces a chain, there is none only then.
-/
theorem decodeFunction_acyclic {count : Nat} {g : IrGraph} {c c' : Cursor}
    (h : decodeFunction count c = .ok g c') :
    g.Backward ∧ (g.Acyclic ↔ ∀ id first, g.Chained id first → ¬g.Leads first id) ∧
      ∃ records, Reader.many Record.read count c = .ok records c' ∧
        (Assembly.start.Always (fun a r => ¬a.Closes r) records → g.Acyclic) ∧
        (Assembly.start.Always (fun a r => ¬a.Rechains r) records → g.Acyclic →
          Assembly.start.Always (fun a r => ¬a.Closes r) records) := by
  obtain ⟨records, hmany, hbuild, -⟩ := Assembly.of_decodeFunction_ok h
  have hbackward := Assembly.backward_of_ofRecords hbuild
  obtain ⟨a, root, hruns, -, rfl⟩ := Assembly.runs_of_ofRecords hbuild
  refine ⟨hbackward, hbackward.acyclic_iff, records, hmany, fun hopen => ?_, fun hkeep hacyclic => ?_⟩
  · exact hruns.acyclic Assembly.start_valid Assembly.start_linked hopen Assembly.start_acyclic
  · exact hruns.always_open Assembly.start_valid hkeep hacyclic

/-- Two immediates, the second of which waits for the first, and their sum. -/
theorem decodeFunction_acyclic_sum :
    let bytes : List UInt8 := [1, 1, 1, 1, 1, 2, 0x40, 0, 0x41, 2, 1]
    let g : IrGraph :=
      { nodes :=
          #[{ opcode := .imm, type := .prim .u8, imms := [1] },
            { opcode := .imm, type := .prim .u8, imms := [2], chain := some 0 },
            { opcode := .add, type := .prim .u8, operands := [0, 1] }]
        root := some 2 }
    let records : List Record :=
      [.imm .u8 1, .imm .u8 2, .ref 0, .chain, .binary .add .u8]
    decodeFunction 5 (Cursor.start bytes) = .ok g ⟨11, []⟩ ∧
      Reader.many Record.read 5 (Cursor.start bytes) = .ok records ⟨11, []⟩ ∧
      Assembly.start.Always (fun a r => ¬a.Closes r) records ∧ g.Acyclic := by
  intro bytes g records
  have hdecode : decodeFunction 5 (Cursor.start bytes) = .ok g ⟨11, []⟩ := rfl
  have hrecords : Reader.many Record.read 5 (Cursor.start bytes) = .ok records ⟨11, []⟩ := rfl
  have hopen : Assembly.start.Always (fun a r => ¬a.Closes r) records := by
    refine ⟨nofun, fun a ha => ?_⟩
    cases ha
    refine ⟨nofun, fun b hb => ?_⟩
    cases hb
    refine ⟨nofun, fun c hc => ?_⟩
    cases hc
    refine ⟨?_, fun d hd => ?_⟩
    · rintro ⟨-, first, top, rest, hstack, hleads⟩
      cases hstack
      rcases hleads.cases_head with heq | ⟨i, ⟨n, hn, hmem⟩, -⟩
      · cases heq
      · cases hn
        cases hmem
    · exact ⟨nofun, fun e he => trivial⟩
  obtain ⟨-, -, records', hrecords', hacyclic, -⟩ := decodeFunction_acyclic hdecode
  cases hrecords.symm.trans hrecords'
  exact ⟨hdecode, hrecords, hopen, hacyclic hopen⟩

/-- An immediate that is chained to itself is decoded. -/
theorem decodeFunction_circle :
    ¬∀ (data : List UInt8) (count : Nat) (g : IrGraph) (c : Cursor),
      decodeFunction count (Cursor.start data) = .ok g c → g.Acyclic := by
  intro h
  let g : IrGraph :=
    { nodes := #[{ opcode := .imm, type := .prim .u8, imms := [7], chain := some 0 }]
      root := some 0 }
  have hdecode : decodeFunction 3 (Cursor.start [1, 1, 7, 0x40, 0, 0x41]) = .ok g ⟨6, []⟩ := rfl
  have hawaits : g.Awaits 0 0 := ⟨_, rfl, by decide⟩
  exact h _ 3 g _ hdecode 0 (Relation.TransGen.single hawaits)

end Codegen
