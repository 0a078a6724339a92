/-
The order of the operands of an addition.

Take a graph whose operands lead backward and turn the operands of some of its additions
round.  It is compiled if it was compiled before, and refused in the same words if not.

That the refusal is the same has to do with the order in which nodes are looked at.  Whether
an addition of two immediates has its constant depends on which comes first.  But if it has
none, then the immediate that lacks it comes before the addition and is refused itself.  So
the first node that is refused is always refused for its own opcode, its own constants and
the number of its operands, and none of these depends on an order.

If the graph is compiled, an addition of a register and an immediate gives the same
instruction either way.  An addition of two registers keeps their order, and an addition of
two immediates takes in the first of them, so these show what was done, but only in operands
and constants.
-/
import Codegen.Proofs.X86.Outcome
import Mathlib.Data.Finset.Insert

namespace Codegen

/-! ### Turning operands round -/

section Swap

variable {O T : Type}

/-- The node with its operands in the opposite order. -/
def Node.swap (n : Node O T) : Node O T := { n with operands := n.operands.reverse }

theorem Node.swap_swap (n : Node O T) : n.swap.swap = n := by
  simp [swap]

namespace Graph

/-- The graph with the operands of the nodes in `S` in the opposite order. -/
def swapAt (g : Graph O T) (S : Finset NodeId) : Graph O T :=
  { g with nodes := g.nodes.mapIdx fun id n => if id ∈ S then n.swap else n }

variable {g : Graph O T} {S : Finset NodeId} {id : NodeId} {n : Node O T}

theorem size_swapAt : (g.swapAt S).size = g.size := Array.size_mapIdx

theorem node?_swapAt :
    (g.swapAt S).node? id = (g.node? id).map fun n => if id ∈ S then n.swap else n :=
  Array.getElem?_mapIdx

theorem node?_swapAt_of_mem (hid : id ∈ S) (hn : g.node? id = some n) :
    (g.swapAt S).node? id = some n.swap := by
  rw [node?_swapAt, hn, Option.map_some, if_pos hid]

theorem node?_swapAt_of_not_mem (hid : id ∉ S) : (g.swapAt S).node? id = g.node? id := by
  simp only [node?_swapAt, if_neg hid, Option.map_id']

/-- To do it twice is to do nothing. -/
theorem swapAt_swapAt (g : Graph O T) (S : Finset NodeId) : (g.swapAt S).swapAt S = g := by
  have hnodes : ((g.swapAt S).swapAt S).nodes = g.nodes := by
    refine Array.ext_getElem? fun id => ?_
    show ((g.swapAt S).swapAt S).node? id = g.node? id
    by_cases hid : id ∈ S
    · simp only [node?_swapAt, if_pos hid, Option.map_map, Function.comp_def, Node.swap_swap,
        Option.map_id']
    · rw [node?_swapAt_of_not_mem hid, node?_swapAt_of_not_mem hid]
  exact congrArg (Graph.mk · g.root) hnodes

theorem of_node?_swapAt (hn : (g.swapAt S).node? id = some n) :
    ∃ k, g.node? id = some k ∧ (n = k ∨ n = k.swap) := by
  rw [node?_swapAt] at hn
  obtain ⟨k, hk, rfl⟩ := Option.map_eq_some_iff.mp hn
  refine ⟨k, hk, ?_⟩
  by_cases hid : id ∈ S
  · exact Or.inr (if_pos hid)
  · exact Or.inl (if_neg hid)

theorem Backward.swapAt (h : g.Backward) : (g.swapAt S).Backward := by
  intro id n hn operand hmem
  obtain ⟨k, hk, rfl | rfl⟩ := of_node?_swapAt hn
  · exact h id n hk operand hmem
  · exact h id k hk operand (List.mem_reverse.mp hmem)

section Unordered

/- A property of nodes that does not depend on the order of operands. -/
variable {P : Node O T → Prop} (hP : ∀ n, P n.swap ↔ P n)
include hP

theorem forall_swapAt (h : ∀ id n, g.node? id = some n → P n) :
    ∀ id n, (g.swapAt S).node? id = some n → P n := by
  intro id n hn
  obtain ⟨k, hk, rfl | rfl⟩ := of_node?_swapAt hn
  · exact h id n hk
  · exact (hP k).mpr (h id k hk)

/-- The first node with the property stays the first. -/
theorem Lowest.swapAt (h : g.Lowest (fun _ n => P n) id n) :
    ∃ m, (g.swapAt S).Lowest (fun _ n => P n) id m ∧ (m = n ∨ m = n.swap) := by
  obtain ⟨m, hm⟩ : ∃ m, (g.swapAt S).node? id = some m :=
    exists_node? (size_swapAt.symm ▸ lt_size_of_node? h.node)
  obtain ⟨k, hk, hcases⟩ := of_node?_swapAt hm
  cases h.node.symm.trans hk
  refine ⟨m, ⟨hm, ?_, ?_⟩, hcases⟩
  · obtain rfl | rfl := hcases
    · exact h.holds
    · exact (hP n).mpr h.holds
  · intro i hi l hl
    obtain ⟨k', hk', rfl | rfl⟩ := of_node?_swapAt hl
    · exact h.before i hi l hk'
    · exact mt (hP k').mp (h.before i hi k' hk')

end Unordered

end Graph

end Swap

namespace X86

variable {g : IrGraph} {S : Finset NodeId} {id : NodeId} {n : IrNode}

/-! ### Where compiling stops -/

/-- The node cannot be selected, whatever nodes it uses. -/
def Bare (n : IrNode) : Prop := Uncovered n ∨ n.opcode = .imm ∧ n.imms = []

theorem Bare.unselectable (h : Bare n) : Unselectable g n := h.imp_right Or.inl

theorem exists_bare_of_isImm (himm : g.isImm id = true) (hnone : g.constant? id = none) :
    ∃ n, g.node? id = some n ∧ Bare n := by
  unfold Graph.isImm at himm
  unfold Graph.constant? at hnone
  cases hn : g.node? id with
  | none => simp [hn] at himm
  | some n =>
      have hop : n.opcode = .imm := by simpa [hn] using himm
      have himms : n.imms = [] := by simpa [hn] using hnone
      exact ⟨n, rfl, Or.inr ⟨hop, himms⟩⟩

/-- If a node lacks a constant, the immediate that should have it comes no later. -/
theorem exists_bare_le (hback : g.Backward) (hn : g.node? id = some n) (h : Unselectable g n) :
    ∃ i ≤ id, ∃ m, g.node? i = some m ∧ Bare m := by
  have hoperand : ∀ c ∈ n.operands, g.isImm c = true → g.constant? c = none →
      ∃ i ≤ id, ∃ m, g.node? i = some m ∧ Bare m := by
    intro c hmem himm hnone
    exact ⟨c, Nat.le_of_lt (hback id n hn c hmem), exists_bare_of_isImm himm hnone⟩
  rcases h with hcovered | himm | ⟨-, -, c, hc, hnone⟩ | ⟨-, c, hc, himm, hnone⟩
  · exact ⟨id, Nat.le_refl id, n, hn, Or.inl hcovered⟩
  · exact ⟨id, Nat.le_refl id, n, hn, Or.inr himm⟩
  · exact hoperand c (List.mem_of_find?_eq_some hc) (List.find?_some hc) hnone
  · exact hoperand c (List.mem_of_getElem? hc) himm hnone

/-- So the first node that cannot be selected is one that could not be, whatever it used. -/
theorem lowest_unselectable_iff (hback : g.Backward) :
    g.Lowest (fun _ n => Unselectable g n) id n ↔ g.Lowest (fun _ n => Bare n) id n := by
  constructor
  · intro h
    have hbefore : ∀ i < id, ∀ m, g.node? i = some m → ¬Bare m := by
      intro i hi m hm hbare
      exact h.before i hi m hm hbare.unselectable
    -- There is a bare node no later than this one, and none before it.
    obtain ⟨i, hi, m, hm, hbare⟩ := exists_bare_le hback h.node h.holds
    obtain hlt | rfl := Nat.lt_or_eq_of_le hi
    · exact absurd hbare (hbefore i hlt m hm)
    · cases h.node.symm.trans hm
      exact ⟨hm, hbare, hbefore⟩
  · intro h
    refine ⟨h.node, h.holds.unselectable, fun i hi m hm hwrong => ?_⟩
    obtain ⟨j, hj, k, hk, hbare⟩ := exists_bare_le hback hm hwrong
    exact h.before j (Nat.lt_of_le_of_lt hj hi) k hk hbare

/-- Why a graph is not compiled: for the first type that is unfit, or, if there is none, for the
first node that is bare, or, if there is none either, for a root that is not a node. -/
inductive Stops (g : IrGraph) : Stop Diagnostic → Prop where
  | type {id : NodeId} {n : IrNode} {reason : String}
      (hlowest : g.Lowest (fun _ n => n.type.unfit? ≠ none) id n)
      (hreason : n.type.unfit? = some reason) :
      Stops g (.reject (Pass.typeRefusal id n reason))
  | node {id : NodeId} {n : IrNode} (hfit : ∀ id n, g.node? id = some n → n.type.unfit? = none)
      (hlowest : g.Lowest (fun _ n => Bare n) id n) : Stops g (.reject (refusal id n))
  | root {root : NodeId} (hfit : ∀ id n, g.node? id = some n → n.type.unfit? = none)
      (hbare : ∀ id n, g.node? id = some n → ¬Bare n) (hroot : g.root = some root)
      (hsize : g.size ≤ root) : Stops g (.fault (g.outside root))

variable {stop : Stop Diagnostic}

theorem compile_of_not_bare (hback : g.Backward)
    (hfit : ∀ id n, g.node? id = some n → n.type.unfit? = none)
    (hbare : ∀ id n, g.node? id = some n → ¬Bare n) :
    compile.run g = .error stop ↔
      ∃ root, g.root = some root ∧ g.size ≤ root ∧ stop = .fault (g.outside root) := by
  have hlower : ∀ id n, g.generalizePointers.node? id = some n →
      ∃ m, selector.lower g.generalizePointers id n = .ok m := by
    intro id n hn
    obtain ⟨k, hk, rfl⟩ := Graph.of_node?_generalizePointers hn
    refine exists_lower_of_selectable hback.inRange hk (hfit id k hk) (selectable_iff.mpr ?_)
    intro hwrong
    obtain ⟨i, -, m, hm, h⟩ := exists_bare_le hback hk hwrong
    exact hbare i m hm h
  rw [compile_of_fit hfit, Selector.select_eq_error_iff hlower]
  simp only [Graph.outside, Graph.size_generalizePointers]
  rfl

theorem compile_eq_error_iff (hback : g.Backward) : compile.run g = .error stop ↔ Stops g stop := by
  constructor
  · intro h
    by_cases hfit : ∀ id n, g.node? id = some n → n.type.unfit? = none
    · by_cases hbare : ∀ id n, g.node? id = some n → ¬Bare n
      · obtain ⟨root, hroot, hsize, rfl⟩ := (compile_of_not_bare hback hfit hbare).mp h
        exact Stops.root hfit hbare hroot hsize
      · simp only [not_forall, not_not] at hbare
        obtain ⟨id, n, hn, hbare⟩ := hbare
        obtain ⟨i, m, hlowest, hrun⟩ :=
          exists_of_unselectable hback.inRange hfit ⟨id, n, hn, hbare.unselectable⟩
        cases h.symm.trans hrun
        exact Stops.node hfit ((lowest_unselectable_iff hback).mp hlowest)
    · simp only [not_forall] at hfit
      obtain ⟨id, n, hn, hunfit⟩ := hfit
      obtain ⟨i, m, reason, hlowest, hreason, hrun⟩ := exists_of_unfit ⟨id, n, hn, hunfit⟩
      cases h.symm.trans hrun
      exact Stops.type hlowest hreason
  · intro h
    cases h with
    | type hlowest hreason => exact compile_of_unfit hlowest hreason
    | node hfit hlowest =>
        exact compile_of_unselectable hback.inRange hfit
          ((lowest_unselectable_iff hback).mpr hlowest)
    | root hfit hbare hroot hsize =>
        exact (compile_of_not_bare hback hfit hbare).mpr ⟨_, hroot, hsize, rfl⟩

theorem uncovered_swap (n : IrNode) : Uncovered n.swap ↔ Uncovered n := by
  simp [Uncovered, Node.swap]

theorem bare_swap (n : IrNode) : Bare n.swap ↔ Bare n := or_congr (uncovered_swap n) Iff.rfl

theorem refusal_swap (id : NodeId) (n : IrNode) : refusal id n.swap = refusal id n := by
  simp only [refusal, uncovered_swap]
  rfl

/-- A graph with operands turned round is not compiled for the same reason. -/
theorem Stops.swapAt (h : Stops g stop) : Stops (g.swapAt S) stop := by
  cases h with
  | @type id n reason hlowest hreason =>
      obtain ⟨m, hm, rfl | rfl⟩ := hlowest.swapAt (S := S) fun _ => Iff.rfl
      · exact Stops.type hm hreason
      · show Stops (g.swapAt S) (.reject (Pass.typeRefusal id n.swap reason))
        exact Stops.type hm hreason
  | node hfit hlowest =>
      have hfit' := Graph.forall_swapAt (S := S) (fun _ => Iff.rfl) hfit
      obtain ⟨m, hm, rfl | rfl⟩ := hlowest.swapAt (S := S) bare_swap
      · exact Stops.node hfit' hm
      · rw [← refusal_swap]
        exact Stops.node hfit' hm
  | root hfit hbare hroot hsize =>
      have hfit' := Graph.forall_swapAt (S := S) (fun _ => Iff.rfl) hfit
      have hbare' := Graph.forall_swapAt (S := S) (fun n => not_congr (bare_swap n)) hbare
      have hstop := Stops.root hfit' hbare' hroot (Graph.size_swapAt.symm ▸ hsize)
      rwa [Graph.outside, Graph.size_swapAt] at hstop

/-- A graph with operands turned round is not compiled just if the graph itself is not, and what is
said is the same. -/
theorem compile_swapAt_eq_error_iff (hback : g.Backward) :
    compile.run (g.swapAt S) = .error stop ↔ compile.run g = .error stop := by
  rw [compile_eq_error_iff hback.swapAt, compile_eq_error_iff hback]
  constructor
  · intro h
    -- Turning round what has been turned round gives the graph back.
    have hstops : Stops ((g.swapAt S).swapAt S) stop := h.swapAt
    rwa [Graph.swapAt_swapAt] at hstops
  · exact Stops.swapAt

/-! ### Instructions -/

/-- The instruction of a given type that a node becomes, if it becomes one. -/
def instruction? (g : IrGraph) (type : RegType) (n : IrNode) : Option (Node Opcode RegType) :=
  (form? g n).bind fun form => form.node? g type n

theorem Compiled.node?_eq {t : MachineGraph} (h : Compiled g t) (hn : g.node? id = some n) :
    ∃ type, types.lower? n.type = some type ∧ t.node? id = instruction? g type n := by
  obtain ⟨m, form, type, hm, htype, hform, hnode⟩ := h.node id n hn
  refine ⟨type, htype, ?_⟩
  rw [instruction?, hform, Option.bind_some, hnode, hm]

theorem isImm_swapAt (g : IrGraph) (S : Finset NodeId) (id : NodeId) :
    (g.swapAt S).isImm id = g.isImm id := by
  unfold Graph.isImm
  by_cases hid : id ∈ S
  · simp only [Graph.node?_swapAt, if_pos hid, Option.any_map]
    rfl
  · rw [Graph.node?_swapAt_of_not_mem hid]

theorem constant?_swapAt (g : IrGraph) (S : Finset NodeId) (id : NodeId) :
    (g.swapAt S).constant? id = g.constant? id := by
  unfold Graph.constant?
  by_cases hid : id ∈ S
  · simp only [Graph.node?_swapAt, if_pos hid, Option.bind_map]
    rfl
  · rw [Graph.node?_swapAt_of_not_mem hid]

theorem Form.node?_swapAt (g : IrGraph) (S : Finset NodeId) (type : RegType) (n : IrNode)
    (form : Form) : form.node? (g.swapAt S) type n = form.node? g type n := by
  cases form <;> simp only [node?, constant?_swapAt]

/-- What a node becomes does not depend on the order of other nodes' operands. -/
theorem instruction?_swapAt (g : IrGraph) (S : Finset NodeId) (type : RegType) (n : IrNode) :
    instruction? (g.swapAt S) type n = instruction? g type n := by
  simp only [instruction?, form?, isImm_swapAt, Form.node?_swapAt]

section Addition

variable {type : RegType} {a b : NodeId} (hop : n.opcode = .add) (hoperands : n.operands = [a, b])
include hop hoperands

theorem instruction?_add :
    instruction? g type n
      = if g.isImm a then (Form.addImm b a).node? g type n
        else if g.isImm b then (Form.addImm a b).node? g type n
        else Form.addRegisters.node? g type n := by
  simp only [instruction?, form?, hop, hoperands]
  split
  · rfl
  · split
    · rfl
    · rfl

theorem instruction?_swap :
    instruction? g type n.swap
      = if g.isImm b then (Form.addImm a b).node? g type n
        else if g.isImm a then (Form.addImm b a).node? g type n
        else (Form.addRegisters.node? g type n).map Node.swap :=
  instruction?_add hop (by rw [Node.swap, hoperands]; rfl)

/-- Of one register and one immediate, the sides do not matter. -/
theorem instruction?_swap_of_one (hone : n.operands.countP g.isImm = 1) :
    instruction? g type n.swap = instruction? g type n := by
  rw [instruction?_swap hop hoperands, instruction?_add hop hoperands]
  rw [hoperands] at hone
  by_cases ha : g.isImm a = true
  · by_cases hb : g.isImm b = true
    · simp [ha, hb] at hone
    · simp [ha, hb]
  · by_cases hb : g.isImm b = true
    · simp [ha, hb]
    · simp [ha, hb] at hone

/-- Registers stay in their order. -/
theorem instruction?_swap_of_none (hnone : n.operands.countP g.isImm = 0) :
    instruction? g type n.swap = (instruction? g type n).map Node.swap := by
  rw [instruction?_swap hop hoperands, instruction?_add hop hoperands]
  rw [hoperands, List.countP_eq_zero] at hnone
  have ha : ¬g.isImm a = true := hnone a (by simp)
  have hb : ¬g.isImm b = true := hnone b (by simp)
  rw [if_neg ha, if_neg hb, if_neg ha, if_neg hb]

/-- The opcode depends on whether there is an immediate, on whichever side. -/
theorem of_instruction?_add {m : Node Opcode RegType} (h : instruction? g type n = some m) :
    m.opcode = (if g.isImm a || g.isImm b then .addRi else .addRr) ∧ m.type = type ∧
      m.chain = n.chain := by
  have himm : ∀ {register constant : NodeId},
      (Form.addImm register constant).node? g type n = some m →
      m.opcode = .addRi ∧ m.type = type ∧ m.chain = n.chain := by
    intro register constant h
    obtain ⟨value, -, rfl⟩ := Option.map_eq_some_iff.mp h
    exact ⟨rfl, rfl, rfl⟩
  rw [instruction?_add hop hoperands] at h
  by_cases ha : g.isImm a = true
  · rw [if_pos ha] at h
    simpa [ha] using himm h
  · rw [if_neg ha] at h
    by_cases hb : g.isImm b = true
    · rw [if_pos hb] at h
      simpa [hb] using himm h
    · rw [if_neg hb] at h
      cases h
      simp [ha, hb]

end Addition

/-! ### Compiled graphs -/

variable {t t' : MachineGraph}

/-- Nodes whose operands stay give the same instruction. -/
theorem Compiled.node?_swapAt_of_not_mem (h : Compiled g t) (h' : Compiled (g.swapAt S) t')
    (hid : id ∉ S) : t'.node? id = t.node? id := by
  cases hn : g.node? id with
  | none =>
      rw [h.node?_eq_none hn, h'.node?_eq_none ((Graph.node?_swapAt_of_not_mem hid).trans hn)]
  | some n =>
      obtain ⟨type, htype, hnode⟩ := h.node?_eq hn
      obtain ⟨type', htype', hnode'⟩ := h'.node?_eq ((Graph.node?_swapAt_of_not_mem hid).trans hn)
      cases htype.symm.trans htype'
      rw [hnode, hnode', instruction?_swapAt]

/-- Nodes whose operands are turned round give what the table makes of the node turned round. -/
theorem Compiled.node?_swapAt_of_mem (h : Compiled g t) (h' : Compiled (g.swapAt S) t')
    (hid : id ∈ S) (hn : g.node? id = some n) :
    ∃ type m m', t.node? id = some m ∧ t'.node? id = some m' ∧
      instruction? g type n = some m ∧ instruction? g type n.swap = some m' := by
  have hn' := Graph.node?_swapAt_of_mem hid hn
  obtain ⟨type, htype, hnode⟩ := h.node?_eq hn
  obtain ⟨type', htype', hnode'⟩ := h'.node?_eq hn'
  cases htype.symm.trans htype'
  rw [instruction?_swapAt] at hnode'
  obtain ⟨m, hm⟩ := Graph.exists_node? (h.size ▸ Graph.lt_size_of_node? hn)
  obtain ⟨m', hm'⟩ := Graph.exists_node? (h'.size ▸ Graph.lt_size_of_node? hn')
  exact ⟨type, m, m', hm, hm', hnode.symm.trans hm, hnode'.symm.trans hm'⟩

/--
**The order of an addition's operands shows only in operands.**  Let the operands of a graph lead
backward, and turn round the operands of any set of additions of two.

* The graph is compiled just if it was, and refused for the same node in the same words if not.
* The compiled graphs have the same root and the same nodes outside the set.
* In the set, an addition of one immediate gives the same instruction, an addition without one gives
  the same instruction with its operands turned round, and every addition gives an instruction of the
  same opcode, type and chain.
-/
theorem compile_swapAt (hback : g.Backward)
    (hS : ∀ id ∈ S, ∃ n, g.node? id = some n ∧ n.opcode = .add ∧ n.operands.length = 2) :
    (∀ stop, compile.run (g.swapAt S) = .error stop ↔ compile.run g = .error stop) ∧
      ((∃ t', compile.run (g.swapAt S) = .ok t') ↔ ∃ t, compile.run g = .ok t) ∧
      ∀ t t', compile.run g = .ok t → compile.run (g.swapAt S) = .ok t' →
        t'.root = t.root ∧ t'.size = t.size ∧ (∀ id ∉ S, t'.node? id = t.node? id) ∧
        ∀ id ∈ S, ∀ n, g.node? id = some n →
          (n.operands.countP g.isImm = 1 → t'.node? id = t.node? id) ∧
          (n.operands.countP g.isImm = 0 → t'.node? id = (t.node? id).map Node.swap) ∧
          ∃ m m', t.node? id = some m ∧ t'.node? id = some m' ∧
            m'.opcode = m.opcode ∧ m'.type = m.type ∧ m'.chain = m.chain := by
  have herror : ∀ stop, compile.run (g.swapAt S) = .error stop ↔ compile.run g = .error stop :=
    fun stop => compile_swapAt_eq_error_iff hback
  refine ⟨herror, exists_ok_iff herror, fun t t' ht ht' => ?_⟩
  have hc : Compiled g t := compiled_of_ok hback.inRange ht
  have hc' : Compiled (g.swapAt S) t' := compiled_of_ok hback.swapAt.inRange ht'
  refine ⟨hc'.root.trans hc.root.symm, ?_, fun id hid => hc.node?_swapAt_of_not_mem hc' hid, ?_⟩
  · rw [hc'.size, hc.size, Graph.size_swapAt]
  intro id hid n hn
  obtain ⟨k, hk, hop, hlength⟩ := hS id hid
  cases hn.symm.trans hk
  obtain ⟨a, b, hoperands⟩ := List.length_eq_two.mp hlength
  obtain ⟨type, m, m', hm, hm', hnode, hnode'⟩ := hc.node?_swapAt_of_mem hc' hid hn
  refine ⟨fun hone => ?_, fun hnone => ?_, m, m', hm, hm', ?_⟩
  · rw [hm, hm', ← hnode, ← hnode', instruction?_swap_of_one hop hoperands hone]
  · rw [hm, hm', ← hnode, ← hnode', instruction?_swap_of_none hop hoperands hnone]
  · have hswap : n.swap.operands = [b, a] := by rw [Node.swap, hoperands]; rfl
    obtain ⟨hopcode, htype, hchain⟩ := of_instruction?_add hop hoperands hnode
    obtain ⟨hopcode', htype', hchain'⟩ := of_instruction?_add (n := n.swap) hop hswap hnode'
    rw [hopcode, hopcode', Bool.or_comm, htype, htype', hchain, hchain']
    exact ⟨rfl, rfl, rfl⟩

/-- Additions of two immediates, of one and of none, all but the last turned round.  If an immediate
without a constant is added, the graph is refused for it, and not for the addition after it that may
or may not take it in. -/
theorem compile_swapAt_mixed :
    let g : IrGraph :=
      { nodes :=
          #[{ opcode := .imm, type := .prim .u64, imms := [7] },
            { opcode := .imm, type := .prim .ptrU8, imms := [9] },
            { opcode := .add, type := .prim .u64, operands := [0, 1], chain := some 5 },
            { opcode := .add, type := .prim .u64, operands := [2, 0] },
            { opcode := .add, type := .prim .u8, operands := [3, 2] },
            { opcode := .add, type := .prim .u8, operands := [0, 1] }]
        root := some 4 }
    let bare : IrNode := { opcode := .imm, type := .prim .u8 }
    let g' : IrGraph :=
      { g with
        nodes := (g.nodes.push bare).push
          { opcode := .add, type := .prim .u8, operands := [0, 6] } }
    g.Backward ∧ g'.Backward ∧
      (∃ t', compile.run (g.swapAt {2, 3, 4}) = .ok t' ∧ t'.root = some 4 ∧
        t'.node? 5 = some { opcode := .addRi, type := .u8, operands := [1], imms := [7] } ∧
        t'.node? 3 = some { opcode := .addRi, type := .u64, operands := [2], imms := [7] } ∧
        t'.node? 4 = some { opcode := .addRr, type := .u8, operands := [2, 3] } ∧
        ∃ m, t'.node? 2 = some m ∧ m.opcode = .addRi ∧ m.type = .u64 ∧ m.chain = some 5) ∧
      compile.run (g'.swapAt {7}) = .error (.reject (refusal 6 bare)) := by
  intro g bare g'
  let t : MachineGraph :=
    { nodes :=
        #[{ opcode := .movRi, type := .u64, imms := [7] },
          { opcode := .movRi, type := .void, imms := [9] },
          { opcode := .addRi, type := .u64, operands := [1], imms := [7], chain := some 5 },
          { opcode := .addRi, type := .u64, operands := [2], imms := [7] },
          { opcode := .addRr, type := .u8, operands := [3, 2] },
          { opcode := .addRi, type := .u8, operands := [1], imms := [7] }]
      root := some 4 }
  have hback : g.Backward := by decide
  have hback' : g'.Backward := by decide
  have hrun : compile.run g = .ok t := by with_unfolding_all rfl
  have hlowest : g'.Lowest (fun _ n => Unselectable g' n) 6 bare := by decide
  have hrun' : compile.run g' = .error (.reject (refusal 6 bare)) :=
    compile_of_unselectable hback'.inRange (by decide) hlowest
  obtain ⟨-, hok, hsame⟩ := compile_swapAt (S := {2, 3, 4}) hback (by
    simp only [Finset.mem_insert, Finset.mem_singleton, forall_eq_or_imp, forall_eq]
    exact ⟨⟨_, rfl, rfl, rfl⟩, ⟨_, rfl, rfl, rfl⟩, ⟨_, rfl, rfl, rfl⟩⟩)
  obtain ⟨hstop, -, -⟩ := compile_swapAt (S := {7}) hback' (by
    simp only [Finset.mem_singleton, forall_eq]
    exact ⟨_, rfl, rfl, rfl⟩)
  obtain ⟨t', ht'⟩ := hok.mpr ⟨t, hrun⟩
  obtain ⟨hroot, -, hother, hturned⟩ := hsame t t' hrun ht'
  obtain ⟨hone, -, -⟩ := hturned 3 (by decide) _ rfl
  obtain ⟨-, hnone, -⟩ := hturned 4 (by decide) _ rfl
  obtain ⟨-, -, m, m', hm, hm', hopcode, htype, hchain⟩ := hturned 2 (by decide) _ rfl
  cases hm
  exact ⟨hback, hback', ⟨t', ht', hroot, hother 5 (by decide), hone (by decide), hnone (by decide),
    m', hm', hopcode, htype, hchain⟩, (hstop _).mpr hrun'⟩

end X86

end Codegen
