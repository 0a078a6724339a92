/-
The lines of a dump.

A dump is put together as one text.  Here it is taken apart: three lines stand above, then for
each node of the walk come its record and the edges that are drawn to it, and the mark of the
root and a brace stand below.  A line about a node starts with its number, and what stands
behind the number tells an edge from a record.

The names of an instruction set are made of letters, digits and two signs, so no line has a
line end in it, and the lines of the text are these lines.
-/
import Codegen.Proofs.Graph.BreadthFirst
import Codegen.Proofs.InstructionSet

namespace Codegen

open Text

/-! ### Lines that start with a node -/

/-- A node and what is said of it. -/
def named (id : NodeId) (what : String) : String := "node" ++ (toString id ++ what)

theorem named_inj {a b : NodeId} {u v : String} (hu : Stops Char.isDigit u)
    (hv : Stops Char.isDigit v) (h : named a u = named b v) : a = b ∧ u = v :=
  numeral_append_inj hu hv ((String.append_right_inj _).mp h)

/-- Whether a line is an edge is told by what stands behind the first node. -/
def isEdge (line : String) : Bool :=
  ((line.toList.drop 4).dropWhile Char.isDigit).head? == some ':'

theorem isEdge_named (id : NodeId) {what : String} (h : Stops Char.isDigit what) :
    isEdge (named id what) = (what.toList.head? == some ':') := by
  have hnode : (named id what).toList.drop 4 = (toString id).toList ++ what.toList := by
    simp [named]
  rw [isEdge, hnode, dropWhile_append_of_stops (over_isDigit id) h]

/-- An edge from `source`, drawn to an anchor of `user`. -/
def edgeLine (source user : NodeId) (anchor : String) : String :=
  named source (":opc:s -> " ++ named user (":" ++ anchor))

/-- The line that declares a node. -/
def labelled (id : NodeId) (label : String) : String := named id (" [label=" ++ label)

/-- The line that marks the root. -/
def rootLine (root : NodeId) : String := named root " -> InstrRoot [style=dotted]"

/-- The anchor of a chain, with how the edge is drawn. -/
def chainAnchor : String := "chain [style=dotted,color=blue]"

/-- The anchor of an operand. -/
def operandAnchor (i : Nat) : String := toString i ++ ":n"

theorem edgeLine_inj {a b c d : NodeId} {u v : String} (h : edgeLine a b u = edgeLine c d v) :
    a = c ∧ b = d ∧ u = v := by
  obtain ⟨hsource, huser⟩ := named_inj (by simp [Stops]) (by simp [Stops]) h
  obtain ⟨huser, hanchor⟩ := named_inj (by simp [Stops]) (by simp [Stops])
    ((String.append_right_inj _).mp huser)
  exact ⟨hsource, huser, (String.append_right_inj _).mp hanchor⟩

theorem operandAnchor_inj {i j : Nat} (h : operandAnchor i = operandAnchor j) : i = j :=
  (numeral_append_inj (by decide) (by decide) h).1

theorem operandAnchor_ne_chainAnchor (i : Nat) : operandAnchor i ≠ chainAnchor := by
  intro h
  have hempty : toString i ++ ":n" = "" ++ chainAnchor := h
  obtain ⟨-, h⟩ := append_inj_of_stops (over_isDigit i) (by decide) (by decide) (by decide) hempty
  exact absurd h (by decide)

theorem labelled_inj {a b : NodeId} {u v : String} (h : labelled a u = labelled b v) :
    a = b ∧ u = v := by
  obtain ⟨hid, hlabel⟩ := named_inj (by simp [Stops]) (by simp [Stops]) h
  exact ⟨hid, (String.append_right_inj _).mp hlabel⟩

/-- The mark of the root declares nothing. -/
theorem rootLine_ne_labelled {root id : NodeId} {label : String} :
    rootLine root ≠ labelled id label := by
  intro h
  obtain ⟨-, hrest⟩ := named_inj (by decide) (by simp [Stops]) h
  have hsecond := congrArg (fun s : String => s.toList[1]?) hrest
  simp at hsecond

theorem isEdge_labelled (id : NodeId) (label : String) : isEdge (labelled id label) = false := by
  rw [labelled, isEdge_named id (by simp [Stops])]
  simp

theorem isEdge_edgeLine (a b : NodeId) (anchor : String) : isEdge (edgeLine a b anchor) = true := by
  rw [edgeLine, isEdge_named a (by simp [Stops])]
  simp

/-! ### The lines of a dump -/

namespace Node

variable {O T : Type} {n m : Node O T} {id : NodeId}

def chainUses (n : Node O T) : List (NodeId × String) :=
  n.chain.toList.map fun first => (first, chainAnchor)

def operandUses (n : Node O T) : List (NodeId × String) :=
  n.operands.zipIdx.map fun (used, i) => (used, operandAnchor i)

/-- What is drawn to the anchors of a node, and to which. -/
def uses (n : Node O T) : List (NodeId × String) := n.chainUses ++ n.operandUses

def edgeLines (id : NodeId) (n : Node O T) : List String :=
  n.uses.map fun (source, anchor) => edgeLine source id anchor

theorem dotEdge_eq (source user : NodeId) (anchor attributes : String) :
    dotEdge source user anchor attributes
      = edgeLine source user (anchor ++ attributes) ++ "\n" := by
  have harrow : ":opc:s -> node" = ":opc:s -> " ++ "node" := rfl
  unfold dotEdge edgeLine named
  simp only [harrow, String.append_assoc]

theorem dotEdges_eq (id : NodeId) (n : Node O T) : n.dotEdges id = unlines (n.edgeLines id) := by
  have hchain : "chain" ++ " [style=dotted,color=blue]" = chainAnchor := rfl
  simp only [dotEdges, edgeLines, uses, chainUses, operandUses, unlines, dotEdge_eq,
    List.map_append, List.map_map, String.join_append, Function.comp_def, hchain,
    String.append_empty, operandAnchor]

variable [InstructionSet O] [ToString T]

/-- What the record of a node shows behind its anchors and its immediates. -/
def kind (n : Node O T) : String :=
  "T:" ++ (toString n.type ++ ("|<opc>" ++ (InstructionSet.setName O ++
    ("::" ++ (InstructionSet.mnemonic n.opcode ++ "\x7d\"]")))))

def recordLine (id : NodeId) (n : Node O T) : String :=
  labelled id ("\"\x7b" ++ (n.anchorField ++ (n.immFields ++ n.kind)))

theorem dotRecord_eq (id : NodeId) (n : Node O T) :
    n.dotRecord id = n.recordLine id ++ "\n" := by
  have hlabel : " [label=\"\x7b" = " [label=" ++ "\"\x7b" := rfl
  have hend : "\x7d\"]\n" = "\x7d\"]" ++ "\n" := rfl
  unfold dotRecord recordLine labelled kind named
  simp only [hlabel, hend, String.append_assoc]

/-- The lines of a node: its record and below it the edges to it. -/
def dumpLines (id : NodeId) (n : Node O T) : List String := n.recordLine id :: n.edgeLines id

theorem unlines_dumpLines (id : NodeId) (n : Node O T) :
    unlines (n.dumpLines id) = n.dotRecord id ++ n.dotEdges id := by
  rw [dumpLines, unlines_cons, dotRecord_eq, dotEdges_eq, String.append_assoc]

end Node

/-- The lines above the first node. -/
def headLines : List String :=
  ["digraph G \x7b", "node [shape=record,style=rounded]", "edge [dir=\"back\"]"]

/-- The lines below the last node. -/
def footLines (root : Option NodeId) : List String := root.toList.map rootLine ++ ["\x7d"]

namespace Graph

variable {O T : Type} [InstructionSet O] [ToString T] {g h : Graph O T}

def bodyLines (visited : List (NodeId × Node O T)) : List String :=
  visited.flatMap fun (id, n) => n.dumpLines id

theorem unlines_bodyLines (visited : List (NodeId × Node O T)) :
    unlines (bodyLines visited)
      = String.join (visited.map fun (id, n) => n.dotRecord id ++ n.dotEdges id) := by
  induction visited with
  | nil => rfl
  | cons v visited ih =>
      obtain ⟨id, n⟩ := v
      show unlines (n.dumpLines id ++ bodyLines visited) = _
      rw [unlines_append, ih, Node.unlines_dumpLines, List.map_cons, String.join_cons]

theorem toDot_of_walk {visited : List (NodeId × Node O T)} (h : g.walk = .ok visited) :
    g.toDot = .ok (unlines (headLines ++ (bodyLines visited ++ footLines g.root))) := by
  have hfoot : unlines (footLines g.root)
      = String.join (g.root.toList.map fun root =>
          "node" ++ toString root ++ " -> InstrRoot [style=dotted]\n") ++ "\x7d\n" := by
    cases g.root with
    | none => rfl
    | some root =>
        have hend : " -> InstrRoot [style=dotted]\n" = " -> InstrRoot [style=dotted]" ++ "\n" := rfl
        simp [footLines, rootLine, named, unlines, hend, String.append_assoc]
  have hhead : unlines headLines
      = "digraph G \x7b\nnode [shape=record,style=rounded]\nedge [dir=\"back\"]\n" := rfl
  rw [unlines_append, unlines_append, hhead, unlines_bodyLines, hfoot, toDot, h, ok_bind]
  simp only [String.append_assoc]
  rfl

theorem exists_walk_of_toDot {text : String} (htext : g.toDot = .ok text) :
    ∃ visited, g.walk = .ok visited := by
  obtain ⟨visited, hwalk, -⟩ := of_bind_eq_ok htext
  exact ⟨visited, hwalk⟩

end Graph

/-! ### Which lines are edges -/

theorem Node.isEdge_of_mem_edgeLines {O T : Type} {n : Node O T} {id : NodeId} {l : String}
    (h : l ∈ n.edgeLines id) : isEdge l = true := by
  obtain ⟨⟨source, anchor⟩, -, rfl⟩ := List.mem_map.mp h
  exact isEdge_edgeLine source id anchor

theorem isEdge_of_mem_headLines : ∀ l ∈ headLines, isEdge l = false := by
  decide

theorem isEdge_of_mem_footLines {root : Option NodeId} {l : String} (hl : l ∈ footLines root) :
    isEdge l = false := by
  rcases List.mem_append.mp hl with hroot | hend
  · obtain ⟨id, -, rfl⟩ := List.mem_map.mp hroot
    rw [rootLine, isEdge_named id (by simp [Stops])]
    simp
  · rw [List.mem_singleton.mp hend]
    rfl

/-! ### Every line is one line -/

theorem over_numeral (n : Nat) : Over (· != '\n') (toString n) :=
  (over_isDigit n).avoids (by decide)

theorem over_named (id : NodeId) {what : String} (h : Over (· != '\n') what) :
    Over (· != '\n') (named id what) := by
  simp only [named, over_append]
  exact ⟨by decide, over_numeral id, h⟩

theorem over_edgeLine (source user : NodeId) {anchor : String} (h : Over (· != '\n') anchor) :
    Over (· != '\n') (edgeLine source user anchor) :=
  over_named source (over_append.mpr ⟨by decide, over_named user (over_append.mpr ⟨by decide, h⟩)⟩)

namespace Node

variable {O T : Type} {n : Node O T} {id : NodeId}

theorem over_of_mem_edgeLines {l : String} (h : l ∈ n.edgeLines id) : Over (· != '\n') l := by
  obtain ⟨⟨source, anchor⟩, huse, rfl⟩ := List.mem_map.mp h
  refine over_edgeLine source id ?_
  rcases List.mem_append.mp huse with hchain | hoperand
  · obtain ⟨first, -, heq⟩ := List.mem_map.mp hchain
    rw [← (Prod.mk.inj heq).2]
    decide
  · obtain ⟨⟨used, i⟩, -, heq⟩ := List.mem_map.mp hoperand
    rw [← (Prod.mk.inj heq).2]
    exact over_append.mpr ⟨over_numeral i, by decide⟩

variable [InstructionSet O] [ToString T]

/-- The characters of anchors. -/
def isAnchorChar (c : Char) : Bool := isNameChar c || c == '<' || c == '>' || c == '|'

theorem over_isAnchorChar {s : String} (h : IsName s) : Over isAnchorChar s :=
  h.mono fun c hc => by simp [isAnchorChar, hc]

theorem isName_getD {name? : Option String} {other : String} (h : ∀ name ∈ name?, IsName name)
    (hother : IsName other) : IsName (name?.getD other) := by
  cases name? with
  | none => exact hother
  | some name => exact h name rfl

theorem over_anchors (legible : Legible O T) (n : Node O T) :
    Over isAnchorChar ("|".intercalate n.anchors) := by
  refine over_intercalate (by decide) fun a ha => ?_
  rcases List.mem_append.mp ha with hchain | hoperand
  · obtain ⟨first, -, rfl⟩ := List.mem_map.mp hchain
    decide
  · obtain ⟨⟨used, i⟩, -, rfl⟩ := List.mem_map.mp hoperand
    have hname := isName_getD (legible.operandName n.opcode i) (isName_numeral i)
    simp only [over_append]
    exact ⟨⟨⟨by decide, over_isAnchorChar (isName_numeral i)⟩, by decide⟩, over_isAnchorChar hname⟩

theorem over_anchorField (legible : Legible O T) (n : Node O T) :
    Over (· != '\n') n.anchorField := by
  unfold anchorField
  split
  · decide
  · simp only [over_append]
    exact ⟨⟨by decide, (over_anchors legible n).avoids (by decide)⟩, by decide⟩

/-- An immediate at a position, as a field of a record. -/
def immField (op : O) (i : Nat) (value : UInt64) : String :=
  "<i" ++ (toString i ++ (">[I]" ++ ((InstructionSet.immName? op i).getD "imm" ++
    (": " ++ (toString value ++ "|")))))

/-- The fields of immediates from a position on. -/
def immFieldsFrom (op : O) (k : Nat) (values : List UInt64) : String :=
  String.join ((values.zipIdx k).map fun (value, i) => immField op i value)

theorem immFieldsFrom_cons (op : O) (k : Nat) (value : UInt64) (values : List UInt64) :
    immFieldsFrom op k (value :: values)
      = immField op k value ++ immFieldsFrom op (k + 1) values := by
  rw [immFieldsFrom, List.zipIdx_cons, List.map_cons, String.join_cons]
  rfl

omit [ToString T] in
theorem immFields_eq (n : Node O T) : n.immFields = immFieldsFrom n.opcode 0 n.imms := by
  simp only [immFields, immFieldsFrom, immField, String.append_assoc]

theorem over_immFields (legible : Legible O T) (n : Node O T) : Over (· != '\n') n.immFields := by
  rw [immFields_eq]
  refine over_join fun field hfield => ?_
  obtain ⟨⟨value, i⟩, -, rfl⟩ := List.mem_map.mp hfield
  have hname := isName_getD (legible.immName n.opcode i) (show IsName "imm" by decide)
  simp only [immField, over_append]
  exact ⟨by decide, over_numeral i, by decide, hname.avoids (by decide), by decide,
    over_numeral value.toNat, by decide⟩

theorem over_kind (legible : Legible O T) (n : Node O T) : Over (· != '\n') n.kind := by
  simp only [kind, over_append]
  exact ⟨by decide, (legible.type n.type).avoids (by decide), by decide,
    legible.setName.avoids (by decide), by decide, (legible.mnemonic n.opcode).avoids (by decide),
    by decide⟩

theorem over_recordLine (legible : Legible O T) (id : NodeId) (n : Node O T) :
    Over (· != '\n') (n.recordLine id) := by
  refine over_named id ?_
  simp only [over_append]
  exact ⟨by decide, by decide, over_anchorField legible n, over_immFields legible n,
    over_kind legible n⟩

end Node

namespace Graph

variable {O T : Type} [InstructionSet O] [ToString T] {g : Graph O T}
  {visited : List (NodeId × Node O T)}

theorem over_of_mem_dump (legible : Legible O T) {root : Option NodeId} {l : String}
    (hl : l ∈ headLines ++ (bodyLines visited ++ footLines root)) : Over (· != '\n') l := by
  simp only [List.mem_append] at hl
  rcases hl with hhead | hbody | hfoot
  · revert l
    decide
  · obtain ⟨⟨id, n⟩, -, hline⟩ := List.mem_flatMap.mp hbody
    rcases List.mem_cons.mp hline with rfl | hedge
    · exact Node.over_recordLine legible id n
    · exact Node.over_of_mem_edgeLines hedge
  · rcases List.mem_append.mp hfoot with hroot | hend
    · obtain ⟨id, -, rfl⟩ := List.mem_map.mp hroot
      exact over_named id (by decide)
    · rw [List.mem_singleton.mp hend]
      decide

/-- The lines of a dump; behind the last line end there is nothing. -/
theorem lines_of_toDot (legible : Legible O T) {text : String} (hwalk : g.walk = .ok visited)
    (htext : g.toDot = .ok text) :
    Text.lines text = headLines ++ (bodyLines visited ++ footLines g.root) ++ [""] := by
  rw [toDot_of_walk hwalk] at htext
  rw [← Except.ok.inj htext]
  exact lines_unlines fun _ => over_of_mem_dump legible

end Graph

end Codegen
