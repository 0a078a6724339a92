/-
Matching finds a solution whenever there is one, and the first of all.

A commuting pattern can fit a node in two ways, and commuting patterns inside it double
that again.  `solutions` lists all the ways, each as what it records, and puts operands
as they stand before operands exchanged.  Matching keeps no such list and never goes
back: it decides for each commuting pattern by itself, once when it accepts the node and
once more when it fills the buffer.

Nothing is lost by that.  Whether a part of a pattern fits a node does not depend on how
the other parts were made to fit, so the list for a pattern is a product of the lists for
its parts, and the first element of a product is made of first elements.  A part whose
list is empty empties the product, which is what accepting sees; the rest is that the
stretches of the buffer are as long as the parts say.
-/
import Codegen.Pattern.Match
import Codegen.Proofs.Fault
import Codegen.Proofs.Graph.Construction

namespace Codegen

namespace Pattern

/-- To show something of every pattern, show it of a pattern whose parts have it. -/
@[elab_as_elim]
theorem induction {motive : Pattern → Prop} (bind : motive .bind) (wildcard : motive .wildcard)
    (ignore : motive .ignore)
    (op : ∀ opcode operands, (∀ p ∈ operands, motive p) → motive (.op opcode operands))
    (commuting : ∀ opcode left right, motive left → motive right →
      motive (.commuting opcode left right))
    (typed : ∀ type inner, motive inner → motive (.typed type inner))
    (marked : ∀ inner, motive inner → motive (.marked inner)) (p : Pattern) : motive p := by
  refine Pattern.rec (motive_2 := fun ps => ∀ p ∈ ps, motive p) bind wildcard ignore op commuting
    typed marked ?_ ?_ p
  · intro p hp
    cases hp
  · intro head tail hhead htail p hp
    rcases List.mem_cons.mp hp with rfl | hmem
    · exact hhead
    · exact htail p hmem

/-! ### All solutions -/

/-- Every list of the first row followed by every list of the second. -/
def product (fronts backs : List Captures) : List Captures :=
  fronts.flatMap fun front => backs.map fun back => front ++ back

mutual

/-- What is recorded in each of the ways in which a node fits a pattern, the preferred one first. -/
def solutions (g : IrGraph) : Pattern → NodeId → List Captures
  | .bind, id => [[some id]]
  | .wildcard, _ => [[none]]
  | .ignore, _ => [[]]
  | .op opcode operands, id =>
    match g.node? id with
    | some n =>
      if n.opcode = opcode ∧ operands.length ≤ n.operands.length then
        solutionsAll g operands n.operands
      else []
    | none => []
  | .commuting opcode left right, id =>
    match g.node? id with
    | some n =>
      match n.operands with
      | [a, b] =>
        if n.opcode = opcode then
          product (solutions g left a) (solutions g right b) ++
            product (solutions g left b) (solutions g right a)
        else []
      | _ => []
    | none => []
  | .typed type inner, id =>
    match g.node? id with
    | some n => if n.type = .prim type then solutions g inner id else []
    | none => []
  | .marked inner, id => (solutions g inner id).map fun captures => some id :: captures

/-- What is recorded in each of the ways in which the first operands fit the patterns. -/
def solutionsAll (g : IrGraph) : List Pattern → List NodeId → List Captures
  | [], _ => [[]]
  | p :: ps, id :: ids => product (solutions g p id) (solutionsAll g ps ids)
  | _ :: _, [] => []

end

theorem isEmpty_product (fronts backs : List Captures) :
    (product fronts backs).isEmpty = (fronts.isEmpty || backs.isEmpty) := by
  cases fronts with
  | nil => rfl
  | cons front fronts => cases backs <;> simp [product]

/-- The first element of a product is made of first elements. -/
theorem of_product_eq_cons {fronts backs later : List Captures} {first : Captures}
    (h : product fronts backs = first :: later) :
    ∃ front fronts' back backs', fronts = front :: fronts' ∧ backs = back :: backs' ∧
      first = front ++ back := by
  rcases fronts with _ | ⟨front, fronts'⟩
  · cases h
  · rcases backs with _ | ⟨back, backs'⟩
    · have hempty := isEmpty_product (front :: fronts') []
      rw [h] at hempty
      simp at hempty
    · simp only [product, List.flatMap_cons, List.map_cons, List.cons_append,
        List.cons.injEq] at h
      exact ⟨front, fronts', back, backs', rfl, rfl, h.1.symm⟩

variable {g : IrGraph} {id : NodeId} {n : IrNode} {front back buffer : Captures}

/-! ### Filling a buffer part by part -/

theorem capture_op {opcode : Opcode} {patterns : List Pattern}
    (hn : g.node? id = some n) (hall : captureAll g patterns n.operands buffer = .ok front) :
    (Pattern.op opcode patterns).capture g id buffer = .ok front := by
  simp only [capture, Graph.node_eq_ok hn, ok_bind, hall]

/-- Patterns in a row fill the stretches of the buffer one after the other. -/
theorem captureAll_cons {p : Pattern} {ps : List Pattern} {ids : List NodeId}
    (hslots : p.slots ≤ buffer.length) (hfront : p.capture g id (buffer.take p.slots) = .ok front)
    (hback : captureAll g ps ids (buffer.drop p.slots) = .ok back) :
    captureAll g (p :: ps) (id :: ids) buffer = .ok (front ++ back) := by
  simp only [captureAll, if_pos hslots, hfront, hback, ok_bind]
  rfl

/-- A commuting pattern takes the operands as they stand if they are accepted so, and exchanged
otherwise. -/
theorem capture_commuting {opcode : Opcode} {left right : Pattern} {a b : NodeId}
    {rest : List NodeId} {straight : Bool} (hn : g.node? id = some n)
    (hoperands : n.operands = a :: b :: rest)
    (hstraight : both (left.accepts g a) (right.accepts g b) = .ok straight)
    (hslots : left.slots ≤ buffer.length)
    (hfront : left.capture g (if straight then a else b) (buffer.take left.slots) = .ok front)
    (hback : right.capture g (if straight then b else a) (buffer.drop left.slots) = .ok back) :
    (Pattern.commuting opcode left right).capture g id buffer = .ok (front ++ back) := by
  simp only [capture, Graph.node_eq_ok hn, ok_bind, hoperands, hstraight, if_pos hslots,
    hfront, hback]
  rfl

/-- An empty buffer for two parts is an empty buffer for each. -/
theorem take_replicate_add (a b : Nat) :
    (List.replicate (a + b) (none : Option NodeId)).take a = List.replicate a none := by
  rw [List.take_replicate, Nat.min_eq_left (Nat.le_add_right a b)]

theorem drop_replicate_add (a b : Nat) :
    (List.replicate (a + b) (none : Option NodeId)).drop a = List.replicate b none := by
  rw [List.drop_replicate, Nat.add_sub_cancel_left]

theorem both_ok (x y : Bool) : both (.ok x) (.ok y) = .ok (x && y) := by
  cases x <;> rfl

theorem either_ok (x y : Bool) : either (.ok x) (.ok y) = .ok (x || y) := by
  cases x <;> rfl

/-! ### Matching against the list -/

/-- Matching and the list of solutions agree on a node: it is accepted if there is a solution, and
the first one is what an empty buffer is filled with. -/
structure Agrees (g : IrGraph) (p : Pattern) (id : NodeId) : Prop where
  accepts : p.accepts g id = .ok (!(p.solutions g id).isEmpty)
  capture : ∀ first later, p.solutions g id = first :: later →
    p.capture g id p.freshBuffer = .ok first

/-- A node that is not accepted and has no solution is one to agree on. -/
theorem agrees_of_refused {p : Pattern} (haccepts : p.accepts g id = .ok false)
    (hsolutions : p.solutions g id = []) : Agrees g p id := by
  refine ⟨?_, ?_⟩
  · rw [haccepts, hsolutions]
    rfl
  · intro first later hfirst
    rw [hsolutions] at hfirst
    cases hfirst

/-- The same for the operands of a node, against as many patterns or fewer. -/
theorem agrees_all {ps : List Pattern} (h : ∀ p ∈ ps, ∀ id < g.size, Agrees g p id) :
    ∀ ids : List NodeId, ps.length ≤ ids.length → (∀ id ∈ ids, id < g.size) →
      acceptsAll g ps ids = .ok (!(solutionsAll g ps ids).isEmpty) ∧
        ∀ first later, solutionsAll g ps ids = first :: later →
          captureAll g ps ids (List.replicate (slotsAll ps) none) = .ok first := by
  induction ps with
  | nil =>
      intro ids _ _
      refine ⟨rfl, ?_⟩
      intro first later hfirst
      cases hfirst
      rfl
  | cons p ps ih =>
      intro ids hlength hids
      rcases ids with _ | ⟨id, ids⟩
      · simp at hlength
      · have hhead : Agrees g p id := h p List.mem_cons_self id (hids id List.mem_cons_self)
        obtain ⟨haccepts, hcapture⟩ := ih (fun q hq => h q (List.mem_cons_of_mem p hq)) ids
          (Nat.le_of_succ_le_succ hlength) fun i hi => hids i (List.mem_cons_of_mem id hi)
        refine ⟨?_, ?_⟩
        · rw [acceptsAll, hhead.accepts, haccepts, both_ok, solutionsAll, isEmpty_product,
            Bool.not_or]
        · intro first later hfirst
          rw [solutionsAll] at hfirst
          obtain ⟨front, fronts, back, backs, hfronts, hbacks, rfl⟩ := of_product_eq_cons hfirst
          rw [slotsAll]
          refine captureAll_cons (by simp) ?_ ?_
          · rw [take_replicate_add]
            exact hhead.capture front fronts hfronts
          · rw [drop_replicate_add]
            exact hcapture back backs hbacks

theorem agrees_op {opcode : Opcode} {operands : List Pattern} (hrange : g.InRange)
    (hid : id < g.size) (h : ∀ p ∈ operands, ∀ id < g.size, Agrees g p id) :
    Agrees g (.op opcode operands) id := by
  obtain ⟨n, hn⟩ := Graph.exists_node? hid
  by_cases hfits : n.opcode = opcode ∧ operands.length ≤ n.operands.length
  · obtain ⟨haccepts, hcapture⟩ := agrees_all h n.operands hfits.2 (hrange id n hn)
    have hsolutions : (Pattern.op opcode operands).solutions g id
        = solutionsAll g operands n.operands := by
      simp only [solutions, hn, if_pos hfits]
    refine ⟨?_, ?_⟩
    · rw [hsolutions, ← haccepts]
      simp only [accepts, Graph.node_eq_ok hn, ok_bind, if_pos hfits]
    · intro first later hfirst
      rw [hsolutions] at hfirst
      exact capture_op hn (hcapture first later hfirst)
  · refine agrees_of_refused ?_ ?_
    · simp only [accepts, Graph.node_eq_ok hn, ok_bind, if_neg hfits]
    · simp only [solutions, hn, if_neg hfits]

/-- Whichever way a commuting pattern takes, its buffer is filled with the first solution that way. -/
theorem capture_commuting_first {opcode : Opcode} {left right : Pattern} {a b : NodeId}
    {straight : Bool} {first : Captures} {later : List Captures} (hn : g.node? id = some n)
    (hoperands : n.operands = [a, b])
    (hstraight : both (left.accepts g a) (right.accepts g b) = .ok straight)
    (hleft : Agrees g left (if straight then a else b))
    (hright : Agrees g right (if straight then b else a))
    (hfirst : product (left.solutions g (if straight then a else b))
      (right.solutions g (if straight then b else a)) = first :: later) :
    (Pattern.commuting opcode left right).capture g id
      (List.replicate (left.slots + right.slots) none) = .ok first := by
  obtain ⟨front, fronts, back, backs, hfronts, hbacks, rfl⟩ := of_product_eq_cons hfirst
  refine capture_commuting hn hoperands hstraight (by simp) ?_ ?_
  · rw [take_replicate_add]
    exact hleft.capture front fronts hfronts
  · rw [drop_replicate_add]
    exact hright.capture back backs hbacks

/-- The first solution of a commuting pattern has the operands as they stand if there is a solution
with them so, and exchanged otherwise; the buffer is filled by the same choice. -/
theorem agrees_commuting {opcode : Opcode} {left right : Pattern} {a b : NodeId}
    (hn : g.node? id = some n) (hop : n.opcode = opcode) (hoperands : n.operands = [a, b])
    (hleft : ∀ i ∈ [a, b], Agrees g left i) (hright : ∀ i ∈ [a, b], Agrees g right i) :
    Agrees g (.commuting opcode left right) id := by
  obtain ⟨hla, hlb⟩ : Agrees g left a ∧ Agrees g left b := by simpa using hleft
  obtain ⟨hra, hrb⟩ : Agrees g right a ∧ Agrees g right b := by simpa using hright
  have hsolutions : (Pattern.commuting opcode left right).solutions g id
      = product (left.solutions g a) (right.solutions g b) ++
          product (left.solutions g b) (right.solutions g a) := by
    simp only [solutions, hn, hoperands, if_pos hop]
  have hstraight : both (left.accepts g a) (right.accepts g b)
      = .ok (!(product (left.solutions g a) (right.solutions g b)).isEmpty) := by
    rw [hla.accepts, hrb.accepts, both_ok, isEmpty_product, Bool.not_or]
  have hexchanged : both (right.accepts g a) (left.accepts g b)
      = .ok (!(product (left.solutions g b) (right.solutions g a)).isEmpty) := by
    rw [hra.accepts, hlb.accepts, both_ok, isEmpty_product, Bool.not_or, Bool.and_comm]
  refine ⟨?_, ?_⟩
  · simp only [accepts, Graph.node_eq_ok hn, ok_bind, hoperands, if_pos hop]
    rw [hstraight, hexchanged, either_ok, hsolutions]
    cases product (left.solutions g a) (right.solutions g b) <;> rfl
  · intro first later hfirst
    rw [hsolutions] at hfirst
    rw [freshBuffer, slots]
    by_cases hempty : product (left.solutions g a) (right.solutions g b) = []
    · rw [hempty, List.nil_append] at hfirst
      rw [hempty] at hstraight
      exact capture_commuting_first hn hoperands hstraight hlb hra hfirst
    · obtain ⟨head, tail, hcons⟩ := List.exists_cons_of_ne_nil hempty
      rw [hcons] at hstraight hfirst
      cases hfirst
      exact capture_commuting_first hn hoperands hstraight hla hrb hcons

/-- Matching and the list agree on every node of a graph whose operands are in range. -/
theorem agrees (hrange : g.InRange) (p : Pattern) : ∀ id < g.size, Agrees g p id := by
  induction p using Pattern.induction with
  | bind | wildcard | ignore =>
      intro id _
      refine ⟨rfl, ?_⟩
      intro first later hfirst
      cases hfirst
      rfl
  | op opcode operands ih =>
      intro id hid
      exact agrees_op hrange hid ih
  | commuting opcode left right ihleft ihright =>
      intro id hid
      obtain ⟨n, hn⟩ := Graph.exists_node? hid
      by_cases htwo : ∃ a b, n.operands = [a, b]
      · obtain ⟨a, b, hoperands⟩ := htwo
        have hlt : ∀ i ∈ [a, b], i < g.size := by
          rw [← hoperands]
          exact hrange id n hn
        by_cases hop : n.opcode = opcode
        · exact agrees_commuting hn hop hoperands (fun i hi => ihleft i (hlt i hi))
            fun i hi => ihright i (hlt i hi)
        · refine agrees_of_refused ?_ ?_
          · simp only [accepts, Graph.node_eq_ok hn, ok_bind, hoperands, if_neg hop]
          · simp only [solutions, hn, hoperands, if_neg hop]
      · -- A node with other than two operands is refused before its opcode is looked at.
        refine agrees_of_refused ?_ ?_
        · simp only [accepts, Graph.node_eq_ok hn, ok_bind]
          split
          · next a b hoperands => exact absurd ⟨a, b, hoperands⟩ htwo
          · rfl
        · simp only [solutions, hn]
          split
          · next a b hoperands => exact absurd ⟨a, b, hoperands⟩ htwo
          · rfl
  | typed type inner ih =>
      intro id hid
      obtain ⟨n, hn⟩ := Graph.exists_node? hid
      by_cases htype : n.type = .prim type
      · have hinner := ih id hid
        refine ⟨?_, ?_⟩
        · simp only [accepts, solutions, Graph.node_eq_ok hn, hn, ok_bind, if_pos htype]
          exact hinner.accepts
        · intro first later hfirst
          simp only [solutions, hn, if_pos htype] at hfirst
          exact hinner.capture first later hfirst
      · refine agrees_of_refused ?_ ?_
        · simp only [accepts, Graph.node_eq_ok hn, ok_bind, if_neg htype]
        · simp only [solutions, hn, if_neg htype]
  | marked inner ih =>
      intro id hid
      have hinner := ih id hid
      refine ⟨?_, ?_⟩
      · rw [accepts, hinner.accepts, solutions, List.isEmpty_map]
      · intro first later hfirst
        rw [solutions] at hfirst
        obtain ⟨captures, rest, hcaptures, rfl, -⟩ := List.map_eq_cons_iff.mp hfirst
        have hfill := hinner.capture captures rest hcaptures
        rw [freshBuffer, slots, Nat.add_comm, List.replicate_succ, capture]
        show (inner.capture g id inner.freshBuffer >>= _) = _
        rw [hfill]
        rfl

/--
**Matching is complete and takes the first solution.**  On a graph whose operands are in range, a
node is accepted just if the pattern has a solution there; both phases together give the same
answer, and an empty buffer with a slot for each slot of the pattern then holds the first solution.
-/
theorem matchInto_eq_first (p : Pattern) {g : IrGraph} {id : NodeId} (hrange : g.InRange)
    (hid : id < g.size) :
    (∃ accepted, p.accepts g id = .ok accepted ∧ (accepted = true ↔ p.solutions g id ≠ [])) ∧
      p.matchInto g id (List.replicate p.slots none)
        = .ok (match p.solutions g id with
          | [] => (false, List.replicate p.slots none)
          | first :: _ => (true, first)) := by
  have hagrees := agrees hrange p id hid
  refine ⟨⟨_, hagrees.accepts, by simp⟩, ?_⟩
  rw [matchInto, hagrees.accepts, ok_bind]
  cases hsolutions : p.solutions g id with
  | nil => rfl
  | cons first later =>
      show (p.capture g id p.freshBuffer >>= _) = _
      rw [hagrees.capture first later hsolutions]
      rfl

/-- An addition inside an addition: the outer one fits exchanged only, the inner one both ways. -/
theorem matchInto_eq_first_nested :
    let g : IrGraph :=
      { nodes :=
          #[{ opcode := .imm, type := .prim .u8, imms := [1] },
            { opcode := .imm, type := .prim .u16, imms := [2] },
            { opcode := .add, type := .prim .u8, operands := [1, 0] },
            { opcode := .add, type := .prim .u8, operands := [0, 2] }]
        root := some 3 }
    let p : Pattern :=
      .commuting .add (.commuting .add .bind (.markedOp .imm [])) (.typed .u8 .wildcard)
    g.InRange ∧ 3 < g.size ∧ p.slots = 3 ∧
      p.solutions g 3 = [[some 1, some 0, none], [some 0, some 1, none]] ∧
      p.accepts g 3 = .ok true ∧
      p.matchInto g 3 [none, none, none] = .ok (true, [some 1, some 0, none]) := by
  intro g p
  have hback : g.Backward := by decide
  have hid : 3 < g.size := by decide
  have hsolutions : p.solutions g 3 = [[some 1, some 0, none], [some 0, some 1, none]] := rfl
  obtain ⟨⟨accepted, haccepts, hiff⟩, hmatch⟩ := matchInto_eq_first p hback.inRange hid
  rw [hsolutions] at hiff hmatch
  rw [hiff.mpr (List.cons_ne_nil _ _)] at haccepts
  exact ⟨hback.inRange, hid, rfl, hsolutions, haccepts, hmatch⟩

end Pattern

end Codegen
