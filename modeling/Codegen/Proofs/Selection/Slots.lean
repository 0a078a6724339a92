/-
Templates and the slots they read.

A step of a template takes its node out of a slot, and a slot that is empty makes the rule
an invalid one.  Whether that can happen does not depend on the graph.  The slots a pattern
fills are known from the pattern, so a template that keeps to them never meets an empty slot
on a node that the pattern accepts, and one that does not keep to them makes nothing of any
such node: the step that reads the slot is refused, if no step before it is.
-/
import Codegen.Proofs.Selection.Pointwise

namespace Codegen

variable {O T : Type}

/-- The slot that a step reads, if it reads one. -/
def Step.slot? : Step → Option Nat
  | .copyImm slot _ => some slot
  | .copyOperand slot => some slot
  | .mapType => none

/-- The slots that the steps of a template read, in order. -/
def Step.slotsRead (steps : List Step) : List Nat := steps.filterMap Step.slot?

theorem Step.mem_slotsRead_cons {step : Step} {steps : List Step} {slot : Nat} :
    slot ∈ Step.slotsRead (step :: steps)
      ↔ step.slot? = some slot ∨ slot ∈ Step.slotsRead steps := by
  simp [Step.slotsRead]

theorem Site.captured_eq_ok_iff {site : Site T} {slot : Nat} {i : NodeId} :
    site.captured slot = .ok i ↔ site.captures[slot]? = some (some i) := by
  unfold captured
  split
  · next j hslot => simp [hslot]
  · next hempty =>
      constructor
      · intro h
        cases h
      · intro h
        exact absurd h (hempty i)

/-! ### Slots that hold a node -/

variable {site : Site T} {name reason : String}

theorem Site.capturedImm_ne_invalidRule {slot : Nat} (index : Nat)
    (h : ∃ i, site.captured slot = .ok i) :
    site.capturedImm slot index ≠ .error (.reject (.invalidRule name reason)) := by
  obtain ⟨i, hi⟩ := h
  rw [capturedImm, hi, ok_bind]
  refine bind_ne_error ?_ fun n _ => ?_
  · -- A node that is not there is a fault, not a wrong rule.
    cases site.graph.node i <;> simp [Stop.ofFault]
  · split <;> simp

theorem Site.loweredType_ne_invalidRule (site : Site T) :
    site.loweredType ≠ .error (.reject (.invalidRule name reason)) := by
  unfold loweredType
  split <;> simp

/-- A step whose slot holds a node does not find the rule wrong. -/
theorem Step.apply_ne_invalidRule (step : Step) {target : Node O T}
    (h : ∀ slot, step.slot? = some slot → ∃ i, site.captured slot = .ok i) :
    step.apply site target ≠ .error (.reject (.invalidRule name reason)) := by
  cases step with
  | copyImm slot index =>
      exact bind_ne_error (Site.capturedImm_ne_invalidRule index (h slot rfl)) fun value _ => by
        simp [pure, Except.pure]
  | copyOperand slot =>
      obtain ⟨i, hi⟩ := h slot rfl
      rw [Step.apply, hi, ok_bind]
      simp [pure, Except.pure]
  | mapType =>
      exact bind_ne_error site.loweredType_ne_invalidRule fun type _ => by simp [pure, Except.pure]

theorem Step.applyAll_ne_invalidRule (steps : List Step)
    (h : ∀ slot ∈ Step.slotsRead steps, ∃ i, site.captured slot = .ok i) :
    ∀ target : Node O T,
      Step.applyAll site target steps ≠ .error (.reject (.invalidRule name reason)) := by
  induction steps with
  | nil =>
      intro target
      simp [Step.applyAll]
  | cons step steps ih =>
      intro target
      refine bind_ne_error (step.apply_ne_invalidRule fun slot hslot => ?_) fun next _ => ?_
      · exact h slot (Step.mem_slotsRead_cons.mpr (Or.inl hslot))
      · refine ih (fun slot hslot => ?_) next
        exact h slot (Step.mem_slotsRead_cons.mpr (Or.inr hslot))

/-! ### Slots that a result came from -/

/-- A step that is followed has found a node in its slot. -/
theorem Step.exists_captured_of_apply {step : Step} {target m : Node O T} {slot : Nat}
    (h : step.apply site target = .ok m) (hslot : step.slot? = some slot) :
    ∃ i, site.captured slot = .ok i := by
  cases step with
  | copyImm slot' index =>
      cases hslot
      obtain ⟨value, hvalue, -⟩ := of_bind_eq_ok h
      obtain ⟨i, hi, -⟩ := of_bind_eq_ok hvalue
      exact ⟨i, hi⟩
  | copyOperand slot' =>
      cases hslot
      obtain ⟨i, hi, -⟩ := of_bind_eq_ok h
      exact ⟨i, hi⟩
  | mapType => cases hslot

theorem Step.exists_captured_of_applyAll {steps : List Step} {m : Node O T} {slot : Nat} :
    ∀ {target : Node O T}, Step.applyAll site target steps = .ok m →
      slot ∈ Step.slotsRead steps → ∃ i, site.captured slot = .ok i := by
  induction steps with
  | nil =>
      intro target _ hslot
      simp [Step.slotsRead] at hslot
  | cons step steps ih =>
      intro target h hslot
      obtain ⟨next, hnext, h⟩ := of_bind_eq_ok h
      rcases Step.mem_slotsRead_cons.mp hslot with hhere | hlater
      · exact Step.exists_captured_of_apply hnext hhere
      · exact ih h hlater

/-! ### Rules -/

namespace Selector

variable [Inhabited O] [Inhabited T] {s : Selector O T} {g : IrGraph} {id : NodeId} {n : IrNode}
  {rule : Rule O T} {opcode : O} {steps : List Step}

/-- For a node that its pattern accepts, a rule with a template comes down to the template, at a
site where the slots that hold a node are those that the pattern fills. -/
theorem exists_applyRule_eq (htemplate : rule.shaping = .template opcode steps)
    (haccepts : rule.pattern.accepts g id = .ok true) :
    ∃ (site : Site T) (target : Node O T),
      s.applyRule g id n rule = Step.applyAll site target steps ∧
        ∀ slot, (∃ i, site.captured slot = .ok i) ↔ rule.pattern.Records slot := by
  obtain ⟨captures, hcapture, hrecords⟩ := Pattern.exists_capture_of_accepts haccepts
  refine ⟨{ graph := g, id, node := n, captures, types := s.table.types },
    { (Node.placeholder : Node O T) with opcode, chain := n.chain }, ?_, fun slot => ?_⟩
  · rw [applyRule, hcapture, Stop.ofFault_ok, ok_bind, htemplate]
    rfl
  · simp only [Site.captured_eq_ok_iff]
    exact hrecords slot

/--
**Whether a template can meet an empty slot is decided by the rule.**  Take a node that the pattern
of a rule accepts, in a graph whose operands are in range.  Applying the rule breaks no rule of use.
If the slots that the template reads are slots of the pattern that the pattern fills, the rule is
not found invalid; if one of them is not, the rule makes no machine node.
-/
theorem applyRule_slots (s : Selector O T) (rule : Rule O T) (hrange : g.InRange)
    (hn : g.node? id = some n) (htemplate : rule.shaping = .template opcode steps)
    (haccepts : rule.pattern.accepts g id = .ok true) :
    NoFault (s.applyRule g id n rule) ∧
      ((∀ slot ∈ Step.slotsRead steps, slot < rule.pattern.slots ∧ rule.pattern.Records slot) →
        ∀ name reason,
          s.applyRule g id n rule ≠ .error (.reject (.invalidRule name reason))) ∧
      ((∃ slot ∈ Step.slotsRead steps,
          ¬rule.pattern.Records slot ∨ rule.pattern.slots ≤ slot) →
        ∀ m, s.applyRule g id n rule ≠ .ok m) := by
  have hcustom : rule.shaping.isCustom = false := by
    rw [htemplate]
    rfl
  refine ⟨noFault_applyRule hrange hn hcustom haccepts, ?_⟩
  obtain ⟨site, target, happly, hholds⟩ :=
    exists_applyRule_eq (s := s) (n := n) htemplate haccepts
  rw [happly]
  constructor
  · intro hslots name reason
    refine Step.applyAll_ne_invalidRule steps (fun slot hslot => ?_) target
    exact (hholds slot).mpr (hslots slot hslot).2
  · rintro ⟨slot, hslot, hbad⟩ m hm
    have hrecords := (hholds slot).mp (Step.exists_captured_of_applyAll hm hslot)
    rcases hbad with hnot | hpast
    · exact hnot hrecords
    · exact absurd hrecords.lt_slots (Nat.not_lt.mpr hpast)

/-- A commuting pattern that takes its operands exchanged, with a template that keeps to the slots
it fills, one that reads the slot of a wildcard and one that reads behind the last slot. -/
theorem applyRule_slots_exchanged :
    let p : Pattern := .commuting .add (.marked (.op .sub [.wildcard, .bind])) .bind
    let rule : List Step → Rule X86.Opcode X86.RegType := fun steps =>
      { pattern := p, shaping := .template .addRr steps }
    let good : List Step := [.copyOperand 2, .copyImm 3 0, .mapType]
    let s : Selector X86.Opcode X86.RegType :=
      { name := "slots", table := { index := [], types := X86.types, count := 0 } }
    let n : IrNode := { opcode := .add, type := .prim .u16, operands := [0, 1], chain := some 1 }
    let g : IrGraph :=
      { nodes :=
          #[{ opcode := .imm, type := .prim .u16, imms := [7] },
            { opcode := .sub, type := .prim .u16, operands := [0, 2] }, n]
        root := some 2 }
    g.InRange ∧ g.node? 2 = some n ∧ p.accepts g 2 = .ok true ∧
      p.recording = [true, false, true, true] ∧
      s.applyRule g 2 n (rule good) = .ok
        { opcode := .addRr, type := .u16, operands := [2], imms := [7], chain := some 1 } ∧
      (NoFault (s.applyRule g 2 n (rule good)) ∧ ∀ name reason,
        s.applyRule g 2 n (rule good) ≠ .error (.reject (.invalidRule name reason))) ∧
      (∀ m, s.applyRule g 2 n (rule [.mapType, .copyOperand 1]) ≠ .ok m) ∧
      ∀ m, s.applyRule g 2 n (rule [.copyImm 4 0]) ≠ .ok m := by
  intro p rule good s n g
  have hrange : g.InRange := (⟨by decide, by decide⟩ : g.Closed).operands
  have hn : g.node? 2 = some n := rfl
  have haccepts : p.accepts g 2 = .ok true := rfl
  have hresult : s.applyRule g 2 n (rule good) = .ok
      { opcode := .addRr, type := .u16, operands := [2], imms := [7], chain := some 1 } := by
    with_unfolding_all rfl
  obtain ⟨hfault, hvalid, -⟩ := applyRule_slots s (rule good) hrange hn rfl haccepts
  obtain ⟨-, -, hwildcard⟩ :=
    applyRule_slots s (rule [.mapType, .copyOperand 1]) hrange hn rfl haccepts
  obtain ⟨-, -, hbehind⟩ := applyRule_slots s (rule [.copyImm 4 0]) hrange hn rfl haccepts
  exact ⟨hrange, hn, haccepts, rfl, hresult, ⟨hfault, hvalid (by decide)⟩,
    hwildcard (by decide), hbehind (by decide)⟩

end Selector

end Codegen
