/-
What goes into a machine node.

A shaping that keeps the shape, or follows a template, has little to work with: the node
itself, and the nodes its pattern has recorded.  So the operands and immediates of the
machine node are those of nodes that the node reaches, whatever the template says, and
its chain is the chain of the node.  For the same reason a shaping never asks for a node
that is not there, and it makes the same of a node in any two graphs that look alike from
the node on.  Of types it knows only what the target makes of the node's own.  A shaping
that is an arbitrary function may look at the whole graph, and nothing of this holds of it.
-/
import Codegen.Proofs.Fault
import Codegen.Proofs.Graph.Reach
import Codegen.Rule.Basic

namespace Codegen

variable {O T : Type}

/-- Is the shaping an arbitrary function? -/
def Shaping.isCustom : Shaping O T → Bool
  | .custom _ => true
  | _ => false

/-- The operands of a machine node are reached from `id`, and so are nodes that carry its
immediates. -/
structure DrawnFrom (g : IrGraph) (id : NodeId) (m : Node O T) : Prop where
  operands : ∀ operand ∈ m.operands, g.Reaches id operand
  imms : ∀ value ∈ m.imms, ∃ i n, g.Reaches id i ∧ g.node? i = some n ∧ value ∈ n.imms

namespace Site

variable {site : Site T} {slot index : Nat} {i : NodeId}

/-- The site is at a node of its graph, and what is recorded there is reached from the node. -/
structure Sound (site : Site T) : Prop where
  node : site.graph.node? site.id = some site.node
  captures : ∀ i, some i ∈ site.captures → site.graph.Reaches site.id i

theorem mem_of_captured_ok (h : site.captured slot = .ok i) : some i ∈ site.captures := by
  unfold captured at h
  split at h
  · next i' hslot =>
      cases h
      exact List.mem_of_getElem? hslot
  · cases h

/-- An immediate that is found is one of a node that is reached. -/
theorem of_capturedImm_ok (hsound : site.Sound) {value : UInt64}
    (h : site.capturedImm slot index = .ok value) :
    ∃ i n, site.graph.Reaches site.id i ∧ site.graph.node? i = some n ∧ value ∈ n.imms := by
  obtain ⟨i, hi, h⟩ := of_bind_eq_ok h
  obtain ⟨n, hn, h⟩ := of_bind_eq_ok h
  split at h
  · next value' hvalue =>
      cases h
      exact ⟨i, n, hsound.captures i (mem_of_captured_ok hi),
        Graph.of_node_eq_ok (Stop.of_ofFault_ok hn), List.mem_of_getElem? hvalue⟩
  · cases h

/-! ### Rules of use -/

theorem noFault_captured (site : Site T) (slot : Nat) : NoFault (site.captured slot) := by
  unfold captured
  split
  · exact NoFault.ok _
  · exact NoFault.reject _

theorem noFault_loweredType (site : Site T) : NoFault site.loweredType := by
  unfold loweredType
  split
  · exact NoFault.ok _
  · exact NoFault.reject _

theorem noFault_capturedImm (hsound : site.Sound) (hrange : site.graph.InRange) :
    NoFault (site.capturedImm slot index) := by
  refine (site.noFault_captured slot).bind fun i hi => ?_
  -- What is recorded is reached, and what is reached is a node.
  have hreach := hsound.captures i (mem_of_captured_ok hi)
  obtain ⟨n, hn⟩ := Graph.exists_node?
    (hreach.lt_size hrange (Graph.lt_size_of_node? hsound.node))
  rw [Graph.node_eq_ok hn, Stop.ofFault_ok, ok_bind]
  split
  · exact NoFault.ok _
  · exact NoFault.reject _

/-! ### Other graphs -/

/-- The site as it would be in another graph, its node being of another type. -/
def inGraph (site : Site T) (g' : IrGraph) (type : ValueType) : Site T :=
  { site with graph := g', node := { site.node with type } }

/-- A shaping cannot tell the site from the one in the other graph: the type is the same, or has the
same counterpart, and what is recorded are the same nodes but for their types. -/
structure Alike (site : Site T) (g' : IrGraph) (type : ValueType) : Prop where
  lowered : type = site.node.type ∨
    ∃ lowered, site.types.lower? type = some lowered ∧
      site.types.lower? site.node.type = some lowered
  recorded : ∀ i, some i ∈ site.captures →
    ∃ n other, site.graph.node? i = some n ∧ g'.node? i = some { n with type := other }

variable {g' : IrGraph} {type : ValueType}

theorem loweredType_alike (h : site.Alike g' type) :
    (site.inGraph g' type).loweredType = site.loweredType := by
  rcases h.lowered with rfl | ⟨lowered, htype, hnode⟩
  · rfl
  · simp only [loweredType, inGraph, htype, hnode]

theorem capturedImm_alike (h : site.Alike g' type) (slot index : Nat) :
    (site.inGraph g' type).capturedImm slot index = site.capturedImm slot index := by
  have hcaptured : (site.inGraph g' type).captured slot = site.captured slot := rfl
  rw [capturedImm, capturedImm, hcaptured]
  cases hi : site.captured slot with
  | error stop => rfl
  | ok i =>
      obtain ⟨n, other, hn, hn'⟩ := h.recorded i (mem_of_captured_ok hi)
      rw [ok_bind, ok_bind, Graph.node_eq_ok hn]
      show (Stop.ofFault (g'.node i) >>= _) = _
      rw [Graph.node_eq_ok hn']
      rfl

end Site

variable {site : Site T} {target m : Node O T}

/-! ### One step of a template -/

theorem Step.drawnFrom_apply (step : Step) (hsound : site.Sound)
    (htarget : DrawnFrom site.graph site.id target) (h : step.apply site target = .ok m) :
    DrawnFrom site.graph site.id m ∧ m.chain = target.chain := by
  cases step with
  | copyImm slot index =>
      obtain ⟨value, hvalue, h⟩ := of_bind_eq_ok h
      cases h
      refine ⟨⟨htarget.operands, ?_⟩, rfl⟩
      intro v hv
      rcases List.mem_append.mp hv with hold | hnew
      · exact htarget.imms v hold
      · rw [List.mem_singleton.mp hnew]
        exact Site.of_capturedImm_ok hsound hvalue
  | copyOperand slot =>
      obtain ⟨i, hi, h⟩ := of_bind_eq_ok h
      cases h
      refine ⟨⟨?_, htarget.imms⟩, rfl⟩
      intro operand hoperand
      rcases List.mem_append.mp hoperand with hold | hnew
      · exact htarget.operands operand hold
      · rw [List.mem_singleton.mp hnew]
        exact hsound.captures i (Site.mem_of_captured_ok hi)
  | mapType =>
      obtain ⟨type, -, h⟩ := of_bind_eq_ok h
      cases h
      exact ⟨⟨htarget.operands, htarget.imms⟩, rfl⟩

theorem Step.noFault_apply (step : Step) (hsound : site.Sound) (hrange : site.graph.InRange) :
    NoFault (step.apply site target) := by
  cases step with
  | copyImm slot index =>
      exact (Site.noFault_capturedImm hsound hrange).bind fun value _ => NoFault.ok _
  | copyOperand slot => exact (site.noFault_captured slot).bind fun i _ => NoFault.ok _
  | mapType => exact site.noFault_loweredType.bind fun type _ => NoFault.ok _

theorem Step.apply_alike (step : Step) {g' : IrGraph} {type : ValueType}
    (h : site.Alike g' type) :
    step.apply (site.inGraph g' type) target = step.apply site target := by
  cases step with
  | copyImm slot index => rw [Step.apply, Step.apply, Site.capturedImm_alike h]
  | copyOperand slot => rfl
  | mapType => rw [Step.apply, Step.apply, Site.loweredType_alike h]

/-! ### Whole templates -/

theorem Step.drawnFrom_applyAll (steps : List Step) (hsound : site.Sound) :
    ∀ {target : Node O T}, DrawnFrom site.graph site.id target →
      Step.applyAll site target steps = .ok m →
      DrawnFrom site.graph site.id m ∧ m.chain = target.chain := by
  induction steps with
  | nil =>
      intro target htarget h
      cases h
      exact ⟨htarget, rfl⟩
  | cons step steps ih =>
      intro target htarget h
      obtain ⟨next, hnext, h⟩ := of_bind_eq_ok h
      obtain ⟨hdrawn, hchain⟩ := step.drawnFrom_apply hsound htarget hnext
      obtain ⟨hm, hchain'⟩ := ih hdrawn h
      exact ⟨hm, hchain'.trans hchain⟩

theorem Step.noFault_applyAll (steps : List Step) (hsound : site.Sound)
    (hrange : site.graph.InRange) :
    ∀ {target : Node O T}, NoFault (Step.applyAll site target steps) := by
  induction steps with
  | nil =>
      intro target
      exact NoFault.ok target
  | cons step steps ih =>
      intro target
      exact (step.noFault_apply hsound hrange).bind fun next _ => ih

theorem Step.applyAll_alike (steps : List Step) {g' : IrGraph} {type : ValueType}
    (h : site.Alike g' type) :
    ∀ {target : Node O T},
      Step.applyAll (site.inGraph g' type) target steps = Step.applyAll site target steps := by
  induction steps with
  | nil =>
      intro target
      rfl
  | cons step steps ih =>
      intro target
      rw [Step.applyAll, Step.applyAll, step.apply_alike h]
      exact congrArg _ (funext fun next => ih)

/-! ### Shapings -/

/-- There is nothing in a placeholder. -/
theorem drawnFrom_of_empty {g : IrGraph} {id : NodeId} (hoperands : m.operands = [])
    (himms : m.imms = []) : DrawnFrom g id m := by
  refine ⟨?_, ?_⟩
  · rw [hoperands]
    intro operand h
    cases h
  · rw [himms]
    intro value h
    cases h

variable {shaping : Shaping O T}

/-- A shaping that is no arbitrary function makes the same of sites it cannot tell apart. -/
theorem Shaping.apply_alike (hcustom : shaping.isCustom = false) {g' : IrGraph} {type : ValueType}
    (h : site.Alike g' type) :
    shaping.apply (site.inGraph g' type) target = shaping.apply site target := by
  cases shaping with
  | sameShape opcode =>
      rw [Shaping.apply, Shaping.apply, Site.loweredType_alike h]
      rfl
  | template opcode steps => exact Step.applyAll_alike steps h
  | custom shape => cases hcustom

variable [Inhabited O] [Inhabited T]

/-- **What a machine node is made of.**  A shaping that is no arbitrary function keeps the chain of
the node and takes operands and immediates from what the node reaches. -/
theorem Shaping.drawnFrom_apply (hcustom : shaping.isCustom = false) (hsound : site.Sound)
    (h : shaping.apply site Node.placeholder = .ok m) :
    DrawnFrom site.graph site.id m ∧ m.chain = site.node.chain := by
  cases shaping with
  | sameShape opcode =>
      obtain ⟨type, -, h⟩ := of_bind_eq_ok h
      cases h
      refine ⟨⟨?_, ?_⟩, rfl⟩
      · intro operand hoperand
        exact Graph.Reaches.of_operand hsound.node hoperand (Graph.Reaches.refl _ operand)
      · intro value hvalue
        cases hvalue
  | template opcode steps =>
      exact Step.drawnFrom_applyAll steps hsound (drawnFrom_of_empty rfl rfl) h
  | custom shape => cases hcustom

theorem Shaping.noFault_apply (hcustom : shaping.isCustom = false) (hsound : site.Sound)
    (hrange : site.graph.InRange) : NoFault (shaping.apply site Node.placeholder) := by
  cases shaping with
  | sameShape opcode => exact site.noFault_loweredType.bind fun type _ => NoFault.ok _
  | template opcode steps => exact Step.noFault_applyAll steps hsound hrange
  | custom shape => cases hcustom

end Codegen
