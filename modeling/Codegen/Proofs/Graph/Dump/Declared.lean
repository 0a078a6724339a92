/-
Which nodes a dump declares.

A node is declared by its record.  Records are written for the nodes of the walk, so for what
the root reaches along operands, and an edge is drawn below the record of the node that uses
its source.  So this end of an edge is always declared, and the other end too if the edge is
that of an operand, since the walk goes on there.

It does not go on along chains.  The node that a chain comes from has a record if the root also
reaches it along operands; otherwise the dump names it at an edge and says nothing else of it.
-/
import Codegen.Proofs.Bytecode.Safety
import Codegen.Proofs.Graph.Dump.Lines

namespace Codegen

open Text

/-- The text has a line that declares the node. -/
def HasRecord (text : String) (id : NodeId) : Prop := ∃ label, labelled id label ∈ Text.lines text

/-! ### What is drawn to a node -/

namespace Node

variable {O T : Type} {n : Node O T} {source : NodeId}

theorem mem_uses_operand {i : Nat} :
    (source, operandAnchor i) ∈ n.uses ↔ n.operands[i]? = some source := by
  rw [uses, chainUses, operandUses, List.mem_append, List.mem_map, List.mem_map]
  constructor
  · rintro (⟨first, -, heq⟩ | ⟨⟨used, j⟩, hmem, heq⟩)
    · exact absurd (Prod.mk.inj heq).2.symm (operandAnchor_ne_chainAnchor i)
    · obtain ⟨rfl, hanchor⟩ := Prod.mk.inj heq
      rw [← operandAnchor_inj hanchor]
      exact List.mk_mem_zipIdx_iff_getElem?.mp hmem
  · intro hoperand
    exact Or.inr ⟨(source, i), List.mk_mem_zipIdx_iff_getElem?.mpr hoperand, rfl⟩

theorem mem_uses_chain : (source, chainAnchor) ∈ n.uses ↔ n.chain = some source := by
  rw [uses, chainUses, operandUses, List.mem_append, List.mem_map, List.mem_map]
  constructor
  · rintro (⟨first, hmem, heq⟩ | ⟨⟨used, j⟩, -, heq⟩)
    · rw [← (Prod.mk.inj heq).1]
      exact Option.mem_toList.mp hmem
    · exact absurd (Prod.mk.inj heq).2 (operandAnchor_ne_chainAnchor j)
  · intro hchain
    exact Or.inl ⟨source, Option.mem_toList.mpr hchain, rfl⟩

end Node

/-! ### Records and edges of a dump -/

/-- A line that declares a node has a digit where its number starts. -/
theorem ne_labelled {l : String} (hl : l.toList[4]?.any Char.isDigit = false) {id : NodeId}
    {label : String} : l ≠ labelled id label := by
  rintro rfl
  have hne : (toString id).toList ≠ [] := by
    rw [Nat.toString_eq_ofList_toDigits, String.toList_ofList]
    exact Nat.toDigits_ne_nil
  obtain ⟨c, cs, hcs⟩ := List.exists_cons_of_ne_nil hne
  have hc : c.isDigit = true := by
    refine over_isDigit id c ?_
    rw [hcs]
    exact List.mem_cons_self
  rw [labelled, named, String.toList_append, String.toList_append, hcs] at hl
  simp [hc] at hl

theorem ne_labelled_of_mem_headLines {l : String} (h : l ∈ headLines) {id : NodeId}
    {label : String} : l ≠ labelled id label := by
  have hnone : ∀ l ∈ headLines, l.toList[4]?.any Char.isDigit = false := by decide
  exact ne_labelled (hnone l h)

theorem ne_labelled_of_mem_footLines {root : Option NodeId} {l : String} (h : l ∈ footLines root)
    {id : NodeId} {label : String} : l ≠ labelled id label := by
  rcases List.mem_append.mp h with hroot | hbrace
  · obtain ⟨root, -, rfl⟩ := List.mem_map.mp hroot
    exact rootLine_ne_labelled
  · rw [List.mem_singleton.mp hbrace]
    exact ne_labelled (by decide)

namespace Graph

variable {O T : Type} [InstructionSet O] [ToString T] {g : Graph O T}
  {visited : List (NodeId × Node O T)} {text anchor : String} {root id source user : NodeId}

theorem edgeLine_mem_iff (legible : Legible O T) (hwalk : g.walk = .ok visited)
    (htext : g.toDot = .ok text) :
    edgeLine source user anchor ∈ Text.lines text ↔
      ∃ n, (user, n) ∈ visited ∧ (source, anchor) ∈ n.uses := by
  have hedge := isEdge_edgeLine source user anchor
  rw [lines_of_toDot legible hwalk htext]
  simp only [List.mem_append]
  constructor
  · rintro ((hhead | hbody | hfoot) | hend)
    · simp [isEdge_of_mem_headLines _ hhead] at hedge
    · obtain ⟨⟨id, n⟩, hmem, hline⟩ := List.mem_flatMap.mp hbody
      rcases List.mem_cons.mp hline with heq | hline
      · rw [heq, Node.recordLine, isEdge_labelled] at hedge
        cases hedge
      · obtain ⟨⟨used, place⟩, huse, heq⟩ := List.mem_map.mp hline
        obtain ⟨rfl, rfl, rfl⟩ := edgeLine_inj heq
        exact ⟨n, hmem, huse⟩
    · simp [isEdge_of_mem_footLines hfoot] at hedge
    · rw [List.mem_singleton.mp hend] at hedge
      cases hedge
  · rintro ⟨n, hmem, huse⟩
    refine Or.inl (Or.inr (Or.inl (List.mem_flatMap.mpr ⟨(user, n), hmem, ?_⟩)))
    exact List.mem_cons_of_mem _ (List.mem_map.mpr ⟨(source, anchor), huse, rfl⟩)

theorem hasRecord_iff_mem (legible : Legible O T) (hwalk : g.walk = .ok visited)
    (htext : g.toDot = .ok text) : HasRecord text id ↔ ∃ n, (id, n) ∈ visited := by
  simp only [HasRecord, lines_of_toDot legible hwalk htext, List.mem_append]
  constructor
  · rintro ⟨label, (hhead | hbody | hfoot) | hend⟩
    · exact absurd rfl (ne_labelled_of_mem_headLines hhead)
    · obtain ⟨⟨id', n⟩, hmem, hline⟩ := List.mem_flatMap.mp hbody
      rcases List.mem_cons.mp hline with heq | hline
      · rw [(labelled_inj heq).1]
        exact ⟨n, hmem⟩
      · have hedge := Node.isEdge_of_mem_edgeLines hline
        rw [isEdge_labelled] at hedge
        cases hedge
    · exact absurd rfl (ne_labelled_of_mem_footLines hfoot)
    · exact absurd (List.mem_singleton.mp hend).symm (ne_labelled (by decide))
  · rintro ⟨n, hmem⟩
    exact ⟨_, Or.inl (Or.inr (Or.inl
      (List.mem_flatMap.mpr ⟨(id, n), hmem, List.mem_cons_self⟩)))⟩

/-- The nodes that have a record are those that the root reaches along operands. -/
theorem hasRecord_iff_reaches (legible : Legible O T) (hroot : g.root = some root)
    (htext : g.toDot = .ok text) : HasRecord text id ↔ g.Reaches root id := by
  obtain ⟨visited, hwalk⟩ := exists_walk_of_toDot htext
  rw [hasRecord_iff_mem legible hwalk htext, ← (breadthFirst_of_walk hroot hwalk).mem_iff]
  simp

/-- An edge is drawn where a node that has a record has a use for it. -/
theorem edgeLine_mem_iff_uses (legible : Legible O T) (htext : g.toDot = .ok text) :
    edgeLine source user anchor ∈ Text.lines text ↔
      HasRecord text user ∧ ∃ n, g.node? user = some n ∧ (source, anchor) ∈ n.uses := by
  obtain ⟨visited, hwalk⟩ := exists_walk_of_toDot htext
  rw [edgeLine_mem_iff legible hwalk htext, hasRecord_iff_mem legible hwalk htext]
  constructor
  · rintro ⟨n, hmem, huse⟩
    exact ⟨⟨n, hmem⟩, n, node?_of_walk hwalk _ hmem, huse⟩
  · rintro ⟨⟨n, hmem⟩, m, hm, huse⟩
    obtain rfl : n = m := Option.some.inj ((node?_of_walk hwalk _ hmem).symm.trans hm)
    exact ⟨n, hmem, huse⟩

theorem operandEdge_mem_iff (legible : Legible O T) (htext : g.toDot = .ok text) {i : Nat} :
    edgeLine source user (operandAnchor i) ∈ Text.lines text ↔
      HasRecord text user ∧ (g.operandsOf user)[i]? = some source := by
  rw [edgeLine_mem_iff_uses legible htext, operandsOf]
  cases g.node? user with
  | none => simp
  | some n => simp [Node.mem_uses_operand]

theorem chainEdge_mem_iff (legible : Legible O T) (htext : g.toDot = .ok text) :
    edgeLine source user chainAnchor ∈ Text.lines text ↔
      HasRecord text user ∧ g.Chained user source := by
  simp only [edgeLine_mem_iff_uses legible htext, Node.mem_uses_chain, Chained]

end Graph

/-! ### Functions that have been read -/

theorem Assembly.exists_root_of_decodeFunction_ok {count : Nat} {g : IrGraph} {c c' : Cursor}
    (h : decodeFunction count c = .ok g c') : ∃ root, g.root = some root := by
  obtain ⟨records, -, hbuild, -⟩ := of_decodeFunction_ok h
  obtain ⟨a, root, -, -, rfl⟩ := runs_of_ofRecords hbuild
  exact ⟨root, rfl⟩

/--
**A dump declares what operands lead to.**  A function that has been read has a root and a dump.
The nodes that the dump declares are those that the root reaches along operands.  For each of these,
and for no other node, there is an edge from each operand and one from the chain.  Both ends of the
edge of an operand are declared, and of the edge of a chain the end that is chained; the node that
it comes from is declared just if the root reaches it.
-/
theorem dump_declares_operands {count : Nat} {g : IrGraph} {c c' : Cursor}
    (h : decodeFunction count c = .ok g c') :
    ∃ root text, g.root = some root ∧ g.toDot = .ok text ∧
      (∀ id, HasRecord text id ↔ g.Reaches root id) ∧
      (∀ source user i, edgeLine source user (operandAnchor i) ∈ Text.lines text ↔
        HasRecord text user ∧ (g.operandsOf user)[i]? = some source) ∧
      (∀ source user, edgeLine source user chainAnchor ∈ Text.lines text ↔
        HasRecord text user ∧ g.Chained user source) ∧
      ∀ source user i, edgeLine source user (operandAnchor i) ∈ Text.lines text →
        HasRecord text source ∧ HasRecord text user := by
  obtain ⟨root, hroot⟩ := Assembly.exists_root_of_decodeFunction_ok h
  obtain ⟨text, htext⟩ := (Assembly.closed_of_decodeFunction_ok h).1.exists_toDot
  have hrecord : ∀ id, HasRecord text id ↔ g.Reaches root id :=
    fun _ => Graph.hasRecord_iff_reaches legible_ir hroot htext
  refine ⟨root, text, hroot, htext, hrecord,
    fun _ _ _ => Graph.operandEdge_mem_iff legible_ir htext,
    fun _ _ => Graph.chainEdge_mem_iff legible_ir htext, ?_⟩
  intro source user i hedge
  obtain ⟨huser, hoperand⟩ := (Graph.operandEdge_mem_iff legible_ir htext).mp hedge
  have huses : g.Uses user source := Graph.uses_iff.mpr (List.mem_of_getElem? hoperand)
  exact ⟨(hrecord source).mpr (Relation.ReflTransGen.tail ((hrecord user).mp huser) huses), huser⟩

/-- A sum of two numbers, the second of which is chained to the first, and the sum to a third
number: the first number is declared, as an operand, and the third is not. -/
theorem dump_declares_operands_sum :
    let bytes : List UInt8 := [1, 1, 1, 1, 1, 2, 0x40, 0, 0x41, 2, 1, 1, 1, 3, 0x41]
    ∃ g c text, decodeFunction 7 (Cursor.start bytes) = .ok g c ∧ g.toDot = .ok text ∧
      edgeLine 0 2 (operandAnchor 0) ∈ Text.lines text ∧
      edgeLine 0 1 chainAnchor ∈ Text.lines text ∧ HasRecord text 0 ∧
      edgeLine 3 2 chainAnchor ∈ Text.lines text ∧ ¬HasRecord text 3 := by
  intro bytes
  let g : IrGraph :=
    { nodes :=
        #[{ opcode := .imm, type := .prim .u8, imms := [1] },
          { opcode := .imm, type := .prim .u8, imms := [2], chain := some 0 },
          { opcode := .add, type := .prim .u8, operands := [0, 1], chain := some 3 },
          { opcode := .imm, type := .prim .u8, imms := [3] }]
      root := some 2 }
  have hdecode : decodeFunction 7 (Cursor.start bytes) = .ok g ⟨15, []⟩ := rfl
  have hwalk : g.walk = .ok [(2, g.nodes[2]), (0, g.nodes[0]), (1, g.nodes[1])] := by
    simp [g, Graph.walk, Graph.walkFrom, Graph.size, Graph.node, Graph.node?, ok_bind]
  have hreaches := (Graph.breadthFirst_of_walk rfl hwalk).mem_iff
  obtain ⟨root, text, hroot, htext, hrecord, hoperand, hchain, -⟩ := dump_declares_operands hdecode
  obtain rfl : 2 = root := Option.some.inj hroot
  have hdeclared : ∀ id ∈ [2, 0, 1], HasRecord text id :=
    fun id hid => (hrecord id).mpr ((hreaches id).mp hid)
  refine ⟨g, _, text, hdecode, htext, ?_, ?_, hdeclared 0 (by decide), ?_, ?_⟩
  · exact (hoperand 0 2 0).mpr ⟨hdeclared 2 (by decide), rfl⟩
  · exact (hchain 0 1).mpr ⟨hdeclared 1 (by decide), _, rfl, rfl⟩
  · exact (hchain 3 2).mpr ⟨hdeclared 2 (by decide), _, rfl, rfl⟩
  · intro hthird
    exact absurd ((hreaches 3).mpr ((hrecord 3).mp hthird)) (by decide)

/-- A number that is chained to another one, which nothing else refers to: the dump names this one
at the edge and does not declare it. -/
theorem dump_undeclared_chain :
    ¬∀ (data : List UInt8) (count : Nat) (g : IrGraph) (c : Cursor) (text : String),
      decodeFunction count (Cursor.start data) = .ok g c → g.toDot = .ok text →
      ∀ source user anchor, (anchor = chainAnchor ∨ ∃ i, anchor = operandAnchor i) →
        edgeLine source user anchor ∈ Text.lines text →
        HasRecord text source ∧ HasRecord text user := by
  intro h
  let g : IrGraph :=
    { nodes :=
        #[{ opcode := .imm, type := .prim .u8, imms := [1], chain := some 1 },
          { opcode := .imm, type := .prim .u8, imms := [2] }]
      root := some 0 }
  have hdecode : decodeFunction 3 (Cursor.start [1, 1, 1, 1, 1, 2, 0x41]) = .ok g ⟨7, []⟩ := rfl
  have hwalk : g.walk = .ok [(0, g.nodes[0])] := by
    simp [g, Graph.walk, Graph.walkFrom, Graph.size, Graph.node, Graph.node?, ok_bind]
  have htext := Graph.toDot_of_walk hwalk
  have hedge : edgeLine 1 0 chainAnchor ∈ Text.lines _ :=
    (Graph.edgeLine_mem_iff legible_ir hwalk htext).mpr
      ⟨_, List.mem_cons_self, Node.mem_uses_chain.mpr rfl⟩
  have hsource := (h _ 3 g _ _ hdecode htext 1 0 chainAnchor (Or.inl rfl) hedge).1
  obtain ⟨n, hmem⟩ := (Graph.hasRecord_iff_mem legible_ir hwalk htext).mp hsource
  simp at hmem

end Codegen
