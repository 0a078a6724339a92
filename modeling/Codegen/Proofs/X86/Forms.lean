/-
Which instruction a node becomes, said without the table.

An immediate becomes a load.  An addition of exactly two operands takes an immediate into
itself, the left one if both are immediates; a subtraction takes an immediate on the
right, whatever comes after it.  Every other addition or subtraction of at least two
operands keeps its operands.  No other node has an instruction.

`Form` lists these ways, `form?` chooses among them and `Form.node?` writes the machine
node down.  The main statement is `lower_eq`: on a node whose operands exist and whose
type has a counterpart, the table does just that, and the only way to fail besides having
no form is an immediate that carries no constant.
-/
import Codegen.Proofs.Pass
import Codegen.Proofs.Pattern.Solutions
import Codegen.Proofs.Prepare
import Codegen.Proofs.Rule.Table
import Codegen.Proofs.Selection
import Codegen.X86

namespace Codegen

namespace Graph

/-- Is the node with this id an immediate? -/
def isImm (g : IrGraph) (id : NodeId) : Bool := (g.node? id).any fun n => n.opcode = .imm

/-- The first constant that the node with this id carries. -/
def constant? (g : IrGraph) (id : NodeId) : Option UInt64 := (g.node? id).bind fun n => n.imms[0]?

end Graph

/-! ### Rules in general -/

/-- What a node needs in order to be shaped, or the refusal of the node for want of it. -/
def required {α : Type} (id : NodeId) (n : IrNode) : Option α → Except (Stop CompileError) α
  | some a => .ok a
  | none => .error (.reject (.unsupportedPattern id n.opcode.name))

theorem Site.capturedImm_zero {T : Type} {site : Site T} {slot : Nat} {id : NodeId}
    (hslot : site.captures[slot]? = some (some id)) (hid : id < site.graph.size) :
    site.capturedImm slot 0 = required site.id site.node (site.graph.constant? id) := by
  obtain ⟨n, hn⟩ := Graph.exists_node? hid
  simp only [capturedImm, captured, hslot, ok_bind, Graph.node_eq_ok hn, Stop.ofFault_ok,
    Graph.constant?, hn, Option.bind_some]
  cases n.imms[0]? <;> rfl

namespace X86

/-! ### Forms -/

/-- The ways in which a node becomes an instruction. -/
inductive Form where
  | load
  | addImm (register constant : NodeId)
  | addRegisters
  | subImm (register constant : NodeId)
  | subRegisters
deriving DecidableEq, Repr

/-- The way that a node goes, if there is one. -/
def form? (g : IrGraph) (n : IrNode) : Option Form :=
  match n.opcode, n.operands with
  | .imm, _ => some .load
  | .add, [a, b] =>
    if g.isImm a then some (.addImm b a)
    else if g.isImm b then some (.addImm a b)
    else some .addRegisters
  | .add, _ :: _ :: _ => some .addRegisters
  | .sub, a :: b :: _ => if g.isImm b then some (.subImm a b) else some .subRegisters
  | _, _ => none

namespace Form

/-- The rule for a form. -/
def rule : Form → Rule Opcode RegType
  | addImm .. => rules[0]
  | addRegisters => rules[1]
  | subImm .. => rules[2]
  | subRegisters => rules[3]
  | load => rules[4]

/-- The place of the rule among those of the same opcode. -/
def position : Form → Nat
  | addRegisters | subRegisters => 1
  | _ => 0

/-- The instruction of a given type for a node.  There is none if a constant is missing. -/
def node? (g : IrGraph) (type : RegType) (n : IrNode) : Form → Option (Node Opcode RegType)
  | load =>
    n.imms[0]?.map fun value => { opcode := .movRi, type, imms := [value], chain := n.chain }
  | addImm register constant =>
    (g.constant? constant).map fun value =>
      { opcode := .addRi, type, operands := [register], imms := [value], chain := n.chain }
  | addRegisters => some { opcode := .addRr, type, operands := n.operands, chain := n.chain }
  | subImm register constant =>
    (g.constant? constant).map fun value =>
      { opcode := .subRi, type, operands := [register], imms := [value], chain := n.chain }
  | subRegisters => some { opcode := .subRr, type, operands := n.operands, chain := n.chain }

end Form

variable {g : IrGraph} {id : NodeId} {n : IrNode}

/-! ### What the patterns accept -/

theorem accepts_imm (h : id < g.size) :
    (Pattern.markedOp .imm []).accepts g id = .ok (g.isImm id) := by
  obtain ⟨n, hn⟩ := Graph.exists_node? h
  simp only [Pattern.markedOp, Pattern.accepts, Graph.node_eq_ok hn, Graph.isImm, hn]
  by_cases hop : n.opcode = .imm
  · simp [hop, Pattern.acceptsAll, ok_bind]
  · simp [hop, ok_bind]

/-- An addition of two operands, one of them an immediate. -/
theorem accepts_addImm {a b : NodeId} (hn : g.node? id = some n) (hop : n.opcode = .add)
    (hoperands : n.operands = [a, b]) (ha : a < g.size) (hb : b < g.size) :
    rules[0].pattern.accepts g id = .ok (g.isImm a || g.isImm b) := by
  show (Pattern.commuting .add (.markedOp .imm []) .bind).accepts g id = _
  simp only [Pattern.accepts, Graph.node_eq_ok hn, ok_bind, hoperands, hop, if_true]
  rw [accepts_imm ha, accepts_imm hb]
  cases g.isImm a <;> cases g.isImm b <;> rfl

theorem accepts_addImm_of_length (hn : g.node? id = some n) (hlength : n.operands.length ≠ 2) :
    rules[0].pattern.accepts g id = .ok false := by
  show (Pattern.commuting .add (.markedOp .imm []) .bind).accepts g id = _
  simp only [Pattern.accepts, Graph.node_eq_ok hn, ok_bind]
  split
  · next hoperands => exact absurd (by rw [hoperands]; rfl) hlength
  · rfl

/-- A subtraction with an immediate on the right. -/
theorem accepts_subImm {a b : NodeId} {rest : List NodeId} (hn : g.node? id = some n)
    (hop : n.opcode = .sub) (hoperands : n.operands = a :: b :: rest) (hb : b < g.size) :
    rules[2].pattern.accepts g id = .ok (g.isImm b) := by
  show (Pattern.op .sub [.bind, .markedOp .imm []]).accepts g id = _
  simp only [Pattern.accepts, Graph.node_eq_ok hn, ok_bind, hop, hoperands]
  rw [if_pos ⟨trivial, by simp⟩]
  simp only [Pattern.acceptsAll, Pattern.accepts, accepts_imm hb]
  cases g.isImm b <;> rfl

/-- A pattern with two operands does not take fewer. -/
theorem accepts_op_of_short {source : Codegen.Opcode} {p q : Pattern} (hn : g.node? id = some n)
    (hshort : n.operands.length < 2) : (Pattern.op source [p, q]).accepts g id = .ok false := by
  simp only [Pattern.accepts, Graph.node_eq_ok hn, ok_bind]
  exact if_neg fun h => Nat.not_le_of_lt hshort h.2

theorem accepts_wildcards {source : Codegen.Opcode} {a b : NodeId} {rest : List NodeId}
    (hn : g.node? id = some n) (hop : n.opcode = source) (hoperands : n.operands = a :: b :: rest) :
    (Pattern.op source [.wildcard, .wildcard]).accepts g id = .ok true := by
  simp only [Pattern.accepts, Graph.node_eq_ok hn, ok_bind, hop, hoperands]
  rw [if_pos ⟨trivial, by simp⟩]
  rfl

/-! ### The rule that is chosen -/

theorem exists_cons_cons {α : Type} {xs : List α} (h : ¬ xs.length < 2) :
    ∃ a b rest, xs = a :: b :: rest := by
  rcases xs with _ | ⟨a, _ | ⟨b, rest⟩⟩
  · simp at h
  · simp at h
  · exact ⟨a, b, rest, rfl⟩

/-- An operation with fewer than two operands has no form. -/
theorem form?_of_short (hop : n.opcode ≠ .imm) (hshort : n.operands.length < 2) :
    form? g n = none := by
  unfold form?
  split
  · next himm => exact absurd himm hop
  · next hoperands => exact absurd hshort (by simp [hoperands])
  · next hoperands => exact absurd hshort (by simp [hoperands])
  · next hoperands => exact absurd hshort (by simp [hoperands])
  · rfl

theorem rulesFor_add : table.rulesFor .add = [rules[0], rules[1]] := rfl

theorem rulesFor_sub : table.rulesFor .sub = [rules[2], rules[3]] := rfl

theorem rulesFor_imm : table.rulesFor .imm = [rules[4]] := rfl

theorem choose_add (hn : g.node? id = some n) (hop : n.opcode = .add)
    (hrange : ∀ operand ∈ n.operands, operand < g.size) :
    Table.firstAccepting g id 0 (table.rulesFor .add)
      = .ok ((form? g n).map fun form => (form.position, form.rule)) := by
  rw [rulesFor_add]
  by_cases hshort : n.operands.length < 2
  · rw [Table.firstAccepting_cons (accepts_addImm_of_length hn (Nat.ne_of_lt hshort)),
      Table.firstAccepting_cons (accepts_op_of_short hn hshort),
      form?_of_short (by simp [hop]) hshort]
    rfl
  · obtain ⟨a, b, rest, hoperands⟩ := exists_cons_cons hshort
    have ha : a < g.size := hrange a (by simp [hoperands])
    have hb : b < g.size := hrange b (by simp [hoperands])
    cases rest with
    | nil =>
        rw [Table.firstAccepting_cons (accepts_addImm hn hop hoperands ha hb),
          Table.firstAccepting_cons (accepts_wildcards hn hop hoperands)]
        simp only [form?, hop, hoperands]
        cases g.isImm a <;> cases g.isImm b <;> rfl
    | cons c rest =>
        -- A third operand rules the commuting pattern out, whatever the first two are.
        rw [Table.firstAccepting_cons (accepts_addImm_of_length hn (by simp [hoperands])),
          Table.firstAccepting_cons (accepts_wildcards hn hop hoperands)]
        simp only [form?, hop, hoperands]
        rfl

theorem choose_sub (hn : g.node? id = some n) (hop : n.opcode = .sub)
    (hrange : ∀ operand ∈ n.operands, operand < g.size) :
    Table.firstAccepting g id 0 (table.rulesFor .sub)
      = .ok ((form? g n).map fun form => (form.position, form.rule)) := by
  rw [rulesFor_sub]
  by_cases hshort : n.operands.length < 2
  · rw [Table.firstAccepting_cons (accepts_op_of_short hn hshort),
      Table.firstAccepting_cons (accepts_op_of_short hn hshort),
      form?_of_short (by simp [hop]) hshort]
    rfl
  · obtain ⟨a, b, rest, hoperands⟩ := exists_cons_cons hshort
    have hb : b < g.size := hrange b (by simp [hoperands])
    rw [Table.firstAccepting_cons (accepts_subImm hn hop hoperands hb),
      Table.firstAccepting_cons (accepts_wildcards hn hop hoperands)]
    simp only [form?, hop, hoperands]
    cases g.isImm b <;> rfl

/-- The table chooses the rule of the node's form, and none if there is no form. -/
theorem choose_eq (hn : g.node? id = some n) (hrange : ∀ operand ∈ n.operands, operand < g.size) :
    table.choose g id = .ok ((form? g n).map fun form => (form.position, form.rule)) := by
  have hrules : table.choose g id = Table.firstAccepting g id 0 (table.rulesFor n.opcode) := by
    simp only [Table.choose, Graph.node_eq_ok hn, ok_bind]
  rw [hrules]
  cases hop : n.opcode with
  | blank | mul | udiv | sdiv =>
      simp only [form?, hop]
      rfl
  | imm =>
      have himm : g.isImm id = true := by simp [Graph.isImm, hn, hop]
      have hid : id < g.size := Graph.lt_size_of_node? hn
      have haccepts : rules[4].pattern.accepts g id = .ok (g.isImm id) := accepts_imm hid
      rw [rulesFor_imm, Table.firstAccepting_cons haccepts, himm]
      simp only [form?, hop]
      rfl
  | add => exact choose_add hn hop hrange
  | sub => exact choose_sub hn hop hrange

/-! ### The instruction that is built -/

/-- What a form says about the node that goes this way.  Registers are the last resort: an addition
of two operands has no immediate among them then, and a subtraction none on the right. -/
inductive Takes (g : IrGraph) (n : IrNode) : Form → Prop where
  | load (hop : n.opcode = .imm) : Takes g n .load
  | addLeft {a b : NodeId} (hop : n.opcode = .add) (hoperands : n.operands = [a, b])
      (ha : g.isImm a = true) : Takes g n (.addImm b a)
  | addRight {a b : NodeId} (hop : n.opcode = .add) (hoperands : n.operands = [a, b])
      (ha : g.isImm a = false) (hb : g.isImm b = true) : Takes g n (.addImm a b)
  | addRegisters {a b : NodeId} {rest : List NodeId} (hop : n.opcode = .add)
      (hoperands : n.operands = a :: b :: rest)
      (hplain : rest = [] → g.isImm a = false ∧ g.isImm b = false) : Takes g n .addRegisters
  | subImm {a b : NodeId} {rest : List NodeId} (hop : n.opcode = .sub)
      (hoperands : n.operands = a :: b :: rest) (hb : g.isImm b = true) : Takes g n (.subImm a b)
  | subRegisters {a b : NodeId} {rest : List NodeId} (hop : n.opcode = .sub)
      (hoperands : n.operands = a :: b :: rest) (hb : g.isImm b = false) : Takes g n .subRegisters

theorem takes_of_form? {form : Form} (h : form? g n = some form) : Takes g n form := by
  unfold form? at h
  split at h
  · next hop =>
      cases h
      exact Takes.load hop
  · next a b hop hoperands =>
      by_cases ha : g.isImm a = true
      · rw [if_pos ha] at h
        cases h
        exact Takes.addLeft hop hoperands ha
      · rw [if_neg ha] at h
        rw [Bool.not_eq_true] at ha
        by_cases hb : g.isImm b = true
        · rw [if_pos hb] at h
          cases h
          exact Takes.addRight hop hoperands ha hb
        · rw [if_neg hb] at h
          rw [Bool.not_eq_true] at hb
          cases h
          exact Takes.addRegisters hop hoperands fun _ => ⟨ha, hb⟩
  · next hlong hop hoperands =>
      cases h
      exact Takes.addRegisters hop hoperands fun hrest => absurd hrest hlong
  · next a b rest hop hoperands =>
      by_cases hb : g.isImm b = true
      · rw [if_pos hb] at h
        cases h
        exact Takes.subImm hop hoperands hb
      · rw [if_neg hb] at h
        rw [Bool.not_eq_true] at hb
        cases h
        exact Takes.subRegisters hop hoperands hb
  · cases h

/-- What the pattern of a form records. -/
def Form.captures (id : NodeId) : Form → Captures
  | load => [some id]
  | addImm register constant => [some constant, some register]
  | subImm register constant => [some register, some constant]
  | addRegisters | subRegisters => [none, none]

theorem capture_imm (h : id < g.size) :
    (Pattern.markedOp .imm []).capture g id [none] = .ok [some id] := by
  obtain ⟨n, hn⟩ := Graph.exists_node? h
  have hop : (Pattern.op .imm []).capture g id [] = .ok [] := Pattern.capture_op hn rfl
  rw [Pattern.markedOp, Pattern.capture, hop]
  rfl

theorem captureAll_wildcards {a b : NodeId} {rest : List NodeId} :
    Pattern.captureAll g [.wildcard, .wildcard] (a :: b :: rest) [none, none] = .ok [none, none] :=
  rfl

/-- Each form records its register and its constant, and the pattern of an addition the constant
first, on whichever side it stands. -/
theorem capture_eq {form : Form} (hn : g.node? id = some n)
    (hrange : ∀ operand ∈ n.operands, operand < g.size) (h : Takes g n form) :
    form.rule.pattern.capture g id form.rule.pattern.freshBuffer = .ok (form.captures id) := by
  cases h with
  | load hop => exact capture_imm (Graph.lt_size_of_node? hn)
  | @addLeft a b hop hoperands ha =>
      have hlt : a < g.size := hrange a (by simp [hoperands])
      have hstraight : both ((Pattern.markedOp .imm []).accepts g a) (Pattern.bind.accepts g b)
          = .ok true := by
        rw [accepts_imm hlt, ha]
        rfl
      show (Pattern.commuting .add (.markedOp .imm []) .bind).capture g id [none, none]
        = .ok ([some a] ++ [some b])
      exact Pattern.capture_commuting hn hoperands hstraight (by decide) (capture_imm hlt) rfl
  | @addRight a b hop hoperands ha hb =>
      have hlt : b < g.size := hrange b (by simp [hoperands])
      have hstraight : both ((Pattern.markedOp .imm []).accepts g a) (Pattern.bind.accepts g b)
          = .ok false := by
        rw [accepts_imm (hrange a (by simp [hoperands])), ha]
        rfl
      show (Pattern.commuting .add (.markedOp .imm []) .bind).capture g id [none, none]
        = .ok ([some b] ++ [some a])
      exact Pattern.capture_commuting hn hoperands hstraight (by decide) (capture_imm hlt) rfl
  | addRegisters hop hoperands | subRegisters hop hoperands =>
      refine Pattern.capture_op hn ?_
      rw [hoperands]
      exact captureAll_wildcards
  | @subImm a b rest hop hoperands hb =>
      have hlt : b < g.size := hrange b (by simp [hoperands])
      have hback : Pattern.captureAll g [.markedOp .imm []] (b :: rest) [none]
          = .ok ([some b] ++ []) :=
        Pattern.captureAll_cons (by decide) (capture_imm hlt) rfl
      have hall : Pattern.captureAll g [.bind, .markedOp .imm []] (a :: b :: rest) [none, none]
          = .ok ([some a] ++ [some b]) :=
        Pattern.captureAll_cons (by decide) rfl hback
      exact Pattern.capture_op hn (hoperands ▸ hall)

variable {type : RegType} {captures : Captures}

theorem loweredType_eq (htype : types.lower? n.type = some type) :
    Site.loweredType ⟨g, id, n, captures, types⟩ = .ok type := by
  simp only [Site.loweredType, htype]

theorem apply_load {opcode : Opcode} {constant : NodeId} {i : Nat}
    (htype : types.lower? n.type = some type) (hconstant : captures[i]? = some (some constant))
    (hlt : constant < g.size) :
    (Shaping.template opcode [.mapType, .copyImm i 0]).apply ⟨g, id, n, captures, types⟩
        Node.placeholder
      = required id n ((g.constant? constant).map fun value =>
          { opcode, type, imms := [value], chain := n.chain }) := by
  have himm : Site.capturedImm ⟨g, id, n, captures, types⟩ i 0
      = required id n (g.constant? constant) := Site.capturedImm_zero hconstant hlt
  simp only [Shaping.apply, Step.applyAll, Step.apply, loweredType_eq htype, ok_bind, himm]
  cases g.constant? constant <;> rfl

theorem apply_withImm {opcode : Opcode} {constant register : NodeId} {i j : Nat}
    (htype : types.lower? n.type = some type) (hconstant : captures[i]? = some (some constant))
    (hregister : captures[j]? = some (some register)) (hlt : constant < g.size) :
    (Shaping.template opcode [.copyImm i 0, .copyOperand j, .mapType]).apply
        ⟨g, id, n, captures, types⟩ Node.placeholder
      = required id n ((g.constant? constant).map fun value =>
          { opcode, type, operands := [register], imms := [value], chain := n.chain }) := by
  have himm : Site.capturedImm ⟨g, id, n, captures, types⟩ i 0
      = required id n (g.constant? constant) := Site.capturedImm_zero hconstant hlt
  have hoperand : Site.captured ⟨g, id, n, captures, types⟩ j = .ok register := by
    simp only [Site.captured, hregister]
  simp only [Shaping.apply, Step.applyAll, Step.apply, himm, hoperand, loweredType_eq htype]
  cases g.constant? constant <;> rfl

theorem apply_sameShape {opcode : Opcode} (htype : types.lower? n.type = some type) :
    (Shaping.sameShape opcode).apply ⟨g, id, n, captures, types⟩ Node.placeholder
      = .ok { opcode, type, operands := n.operands, chain := n.chain } := by
  simp only [Shaping.apply, loweredType_eq htype]
  rfl

theorem apply_eq {form : Form} (hn : g.node? id = some n)
    (hrange : ∀ operand ∈ n.operands, operand < g.size) (htype : types.lower? n.type = some type)
    (h : Takes g n form) :
    form.rule.shaping.apply ⟨g, id, n, form.captures id, types⟩ Node.placeholder
      = required id n (form.node? g type n) := by
  cases h with
  | load hop =>
      have hconstant : g.constant? id = n.imms[0]? := by
        simp only [Graph.constant?, hn, Option.bind_some]
      simp only [Form.node?, ← hconstant]
      exact apply_load htype rfl (Graph.lt_size_of_node? hn)
  | addLeft hop hoperands ha =>
      exact apply_withImm htype rfl rfl (hrange _ (by simp [hoperands]))
  | addRight hop hoperands ha hb =>
      exact apply_withImm htype rfl rfl (hrange _ (by simp [hoperands]))
  | subImm hop hoperands hb =>
      exact apply_withImm htype rfl rfl (hrange _ (by simp [hoperands]))
  | addRegisters hop hoperands | subRegisters hop hoperands => exact apply_sameShape htype

/-- **What becomes of a node.**  It is refused if it has no form; otherwise it becomes the
instruction of its form, or is refused because a constant is missing. -/
theorem lower_eq (hn : g.node? id = some n) (hrange : ∀ operand ∈ n.operands, operand < g.size)
    (htype : types.lower? n.type = some type) :
    selector.lower g id n
      = match form? g n with
        | none => .error (.reject (selector.noRule id n))
        | some form =>
          (required id n (form.node? g type n)).mapError
            (Stop.map (selector.badShape id form.position)) := by
  unfold Selector.lower
  rw [show selector.table.choose g id = _ from choose_eq hn hrange]
  cases hform : form? g n with
  | none => rfl
  | some form =>
      have htakes : Takes g n form := takes_of_form? hform
      have happly : selector.applyRule g id n form.rule = required id n (form.node? g type n) := by
        rw [Selector.applyRule, capture_eq hn hrange htakes, Stop.ofFault_ok, ok_bind]
        exact apply_eq hn hrange htype htakes
      show (selector.applyRule g id n form.rule).mapError _ = _
      rw [happly]

/-- A node that is lowered has a form and is lowered to the instruction of that form. -/
theorem of_lower_ok {m : Node Opcode RegType} (hn : g.node? id = some n)
    (hrange : ∀ operand ∈ n.operands, operand < g.size) (htype : types.lower? n.type = some type)
    (h : selector.lower g id n = .ok m) :
    ∃ form, form? g n = some form ∧ form.node? g type n = some m := by
  rw [lower_eq hn hrange htype] at h
  cases hform : form? g n with
  | none =>
      rw [hform] at h
      cases h
  | some form =>
      simp only [hform] at h
      refine ⟨form, rfl, ?_⟩
      cases hnode : form.node? g type n with
      | none =>
          rw [hnode] at h
          cases h
      | some m' =>
          rw [hnode] at h
          cases h
          rfl

/-- An instruction uses no node that the node it stands for does not use. -/
theorem mem_operands_of_node? {form : Form} {m : Node Opcode RegType} (htakes : Takes g n form)
    (hnode : form.node? g type n = some m) {operand : NodeId} (h : operand ∈ m.operands) :
    operand ∈ n.operands := by
  cases htakes with
  | load hop =>
      obtain ⟨c, -, rfl⟩ := Option.map_eq_some_iff.mp hnode
      cases h
  | addLeft hop hoperands | addRight hop hoperands | subImm hop hoperands =>
      obtain ⟨c, -, rfl⟩ := Option.map_eq_some_iff.mp hnode
      rw [hoperands, List.mem_singleton.mp h]
      simp
  | addRegisters hop hoperands | subRegisters hop hoperands =>
      cases hnode
      exact h

/-! ### The whole way -/

theorem isImm_generalizePointers (g : IrGraph) (id : NodeId) :
    g.generalizePointers.isImm id = g.isImm id := by
  simp only [Graph.isImm, Graph.node?_generalizePointers, Option.any_map]

theorem constant?_generalizePointers (g : IrGraph) (id : NodeId) :
    g.generalizePointers.constant? id = g.constant? id := by
  simp only [Graph.constant?, Graph.node?_generalizePointers, Option.bind_map]
  rfl

/-- Forms do not look at types. -/
theorem form?_generalizePointers (g : IrGraph) (n : IrNode) :
    form? g.generalizePointers { n with type := n.type.generalize } = form? g n := by
  simp only [form?, isImm_generalizePointers]

theorem Form.node?_generalizePointers (g : IrGraph) (type : RegType) (n : IrNode) (form : Form) :
    form.node? g.generalizePointers type { n with type := n.type.generalize }
      = form.node? g type n := by
  cases form <;> simp only [node?, constant?_generalizePointers]

/-- To compile is to make pointers general, check the types and select. -/
theorem compile_run (g : IrGraph) :
    compile.run g = (Pass.checkTypes.run g.generalizePointers >>= selector.select) := by
  have hchecked : (Pass.pipeline [Pass.generalizePointers, Pass.checkTypes]).run g
      = Pass.checkTypes.run g.generalizePointers := by
    rw [Pass.pipeline, NotingPass.run_inOrder_cons]
    show (NotingPass.inOrder Pass.announcement [Pass.checkTypes]).run g.generalizePointers = _
    rw [NotingPass.run_inOrder_cons]
    exact bind_pure _
  rw [compile, NotingPass.run_andThen, hchecked]
  rfl

/-- What a compiled graph looks like: each of its nodes is the instruction for the form of the node
with the same id, in the type that the target has for that node. -/
structure Compiled (g : IrGraph) (t : MachineGraph) : Prop where
  root : t.root = g.root
  size : t.size = g.size
  node : ∀ id n, g.node? id = some n → ∃ m form type, t.node? id = some m ∧
    types.lower? n.type = some type ∧ form? g n = some form ∧ form.node? g type n = some m

theorem compiled_of_ok {t : MachineGraph} (hrange : g.InRange) (h : compile.run g = .ok t) :
    Compiled g t := by
  rw [compile_run] at h
  obtain ⟨g', hcheck, hselect⟩ := of_bind_eq_ok h
  obtain ⟨rfl, htypes⟩ := Pass.of_checkTypes_ok hcheck
  obtain ⟨hroot, hsize, hnodes⟩ := Selector.of_select_ok hselect
  refine ⟨hroot, hsize.trans (Graph.size_generalizePointers g), fun id n hn => ?_⟩
  have hn' := Graph.node?_generalizePointers_of_some hn
  have hrange' : ∀ operand ∈ n.operands, operand < g.generalizePointers.size := by
    rw [Graph.size_generalizePointers]
    exact hrange id n hn
  obtain ⟨m, hm, hlower⟩ := hnodes id _ hn'
  obtain ⟨type, htype⟩ := types.exists_lower? (htypes id _ hn')
  obtain ⟨form, hform, hnode⟩ := of_lower_ok hn' hrange' htype hlower
  rw [TypeMap.lower?_generalize] at htype
  rw [form?_generalizePointers] at hform
  rw [Form.node?_generalizePointers] at hnode
  exact ⟨m, form, type, hm, htype, hform, hnode⟩

theorem Compiled.node?_eq_none {t : MachineGraph} (h : Compiled g t) (hn : g.node? id = none) :
    t.node? id = none := by
  rw [Graph.node?_eq_none_iff, h.size]
  exact Graph.node?_eq_none_iff.mp hn

/-- Every instruction stands for a node. -/
theorem Compiled.exists_source {t : MachineGraph} {m : Node Opcode RegType} (h : Compiled g t)
    (hm : t.node? id = some m) :
    ∃ n form type, g.node? id = some n ∧ types.lower? n.type = some type ∧ Takes g n form ∧
      form.node? g type n = some m := by
  obtain ⟨n, hn⟩ := Graph.exists_node? (h.size ▸ Graph.lt_size_of_node? hm)
  obtain ⟨m', form, type, hm', htype, hform, hnode⟩ := h.node id n hn
  cases hm.symm.trans hm'
  exact ⟨n, form, type, hn, htype, takes_of_form? hform, hnode⟩

end X86

end Codegen
