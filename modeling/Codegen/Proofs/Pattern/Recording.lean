/-
Which slots a pattern fills.

The slots of a pattern lie in a row, those of its parts one after the other.  A leaf that
binds and a mark fill theirs, and a wildcard leaves its slot alone, so it can be read off
the pattern which slots will hold a node: `recording` has an entry for each.  No graph
has a say in that.  In particular a commuting pattern that takes its operands exchanged
still records them where its parts lie, in the order of the parts.

What is recorded for an accepted node is then the buffer as it was, with some node in each
slot that is filled and nothing else touched.  That holds of any buffer that is long enough,
whatever it holds before.
-/
import Codegen.Proofs.Pattern.Outline

namespace Codegen

namespace Pattern

/-! ### The slots that are filled -/

mutual

/-- For each slot of a pattern, whether it is filled. -/
def recording : Pattern → List Bool
  | .bind => [true]
  | .wildcard => [false]
  | .ignore => []
  | .op _ operands => recordingAll operands
  | .commuting _ left right => left.recording ++ right.recording
  | .typed _ inner => inner.recording
  | .marked inner => true :: inner.recording

/-- The same for several patterns in a row. -/
def recordingAll : List Pattern → List Bool
  | [] => []
  | p :: ps => p.recording ++ recordingAll ps

end

/-- The pattern fills the slot. -/
def Records (p : Pattern) (slot : Nat) : Prop := p.recording[slot]? = some true

instance (p : Pattern) (slot : Nat) : Decidable (p.Records slot) :=
  inferInstanceAs (Decidable (_ = _))

theorem length_recordingAll {ps : List Pattern} (h : ∀ p ∈ ps, p.recording.length = p.slots) :
    (recordingAll ps).length = slotsAll ps := by
  induction ps with
  | nil => rfl
  | cons p ps ih =>
      obtain ⟨hp, hps⟩ := List.forall_mem_cons.mp h
      rw [recordingAll, List.length_append, slotsAll, hp, ih hps]

theorem length_recording (p : Pattern) : p.recording.length = p.slots := by
  induction p using Pattern.induction with
  | bind | wildcard | ignore => rfl
  | op opcode operands ih =>
      rw [recording, slots]
      exact length_recordingAll ih
  | commuting opcode left right ihleft ihright =>
      rw [recording, List.length_append, slots, ihleft, ihright]
  | typed type inner ih => rw [recording, slots, ih]
  | marked inner ih => rw [recording, List.length_cons, slots, ih, Nat.add_comm]

theorem Records.lt_slots {p : Pattern} {slot : Nat} (h : p.Records slot) : slot < p.slots := by
  rw [← length_recording]
  exact (List.getElem?_eq_some_iff.mp h).1

/-! ### Buffers before and after -/

/-- The second buffer is the first one with a node in each slot that is filled.  The slots behind
those spoken of are as they were. -/
inductive Overwrites : List Bool → Captures → Captures → Prop
  | done (rest : Captures) : Overwrites [] rest rest
  | filled {mask : List Bool} {buffer after : Captures} (old : Option NodeId) (id : NodeId)
      (h : Overwrites mask buffer after) :
      Overwrites (true :: mask) (old :: buffer) (some id :: after)
  | kept {mask : List Bool} {buffer after : Captures} (old : Option NodeId)
      (h : Overwrites mask buffer after) :
      Overwrites (false :: mask) (old :: buffer) (old :: after)

namespace Overwrites

variable {mask mask' : List Bool} {buffer buffer' after after' : Captures} {slot : Nat}

/-- Two stretches of a buffer, the first of them just as long as it needs to be. -/
theorem append (h : Overwrites mask buffer after) (hlength : buffer.length = mask.length)
    (h' : Overwrites mask' buffer' after') :
    Overwrites (mask ++ mask') (buffer ++ buffer') (after ++ after') := by
  induction h with
  | done rest =>
      obtain rfl : rest = [] := List.eq_nil_of_length_eq_zero hlength
      exact h'
  | filled old id _ ih => exact (ih (Nat.succ.inj hlength)).filled old id
  | kept old _ ih => exact (ih (Nat.succ.inj hlength)).kept old

/-- A slot that is filled holds a node. -/
theorem exists_getElem? (h : Overwrites mask buffer after) (hslot : mask[slot]? = some true) :
    ∃ id, after[slot]? = some (some id) := by
  induction h generalizing slot with
  | done rest => simp at hslot
  | filled old id _ ih =>
      cases slot with
      | zero => exact ⟨id, rfl⟩
      | succ slot => exact ih hslot
  | kept old _ ih =>
      cases slot with
      | zero => simp at hslot
      | succ slot => exact ih hslot

/-- Any other slot is as it was, and there are no new ones. -/
theorem getElem?_eq (h : Overwrites mask buffer after) (hslot : mask[slot]? ≠ some true) :
    after[slot]? = buffer[slot]? := by
  induction h generalizing slot with
  | done rest => rfl
  | filled old id _ ih =>
      cases slot with
      | zero => simp at hslot
      | succ slot => exact ih hslot
  | kept old _ ih =>
      cases slot with
      | zero => rfl
      | succ slot => exact ih hslot

end Overwrites

/-! ### What is recorded -/

variable {g : IrGraph}

/-- Whatever the node is, what is recorded for it if it is accepted. -/
def Fills (g : IrGraph) (p : Pattern) : Prop :=
  ∀ id buffer, p.accepts g id = .ok true → p.slots ≤ buffer.length →
    ∃ after, p.capture g id buffer = .ok after ∧ Overwrites p.recording buffer after

/-- Two parts of a pattern fill the two parts of the buffer. -/
theorem Overwrites.append_split {p : Pattern} {mask : List Bool} {buffer front back : Captures}
    (hslots : p.slots ≤ buffer.length)
    (hfront : Overwrites p.recording (buffer.take p.slots) front)
    (hback : Overwrites mask (buffer.drop p.slots) back) :
    Overwrites (p.recording ++ mask) buffer (front ++ back) := by
  have hlength : (buffer.take p.slots).length = p.recording.length := by
    rw [List.length_take_of_le hslots, length_recording]
  have happend := hfront.append hlength hback
  rwa [List.take_append_drop] at happend

theorem fills_all {ps : List Pattern} (h : ∀ p ∈ ps, Fills g p) :
    ∀ (ids : List NodeId) (buffer : Captures), ps.length ≤ ids.length →
      acceptsAll g ps ids = .ok true → slotsAll ps ≤ buffer.length →
      ∃ after, captureAll g ps ids buffer = .ok after ∧
        Overwrites (recordingAll ps) buffer after := by
  induction ps with
  | nil =>
      intro ids buffer _ _ _
      exact ⟨buffer, rfl, Overwrites.done buffer⟩
  | cons p ps ih =>
      intro ids buffer hlength haccepts hslots
      obtain ⟨hp, hps⟩ := List.forall_mem_cons.mp h
      rcases ids with _ | ⟨id, ids⟩
      · simp at hlength
      · rw [acceptsAll] at haccepts
        rw [slotsAll] at hslots
        obtain ⟨hhead, htail⟩ := of_both_true haccepts
        obtain ⟨front, hfront, hoverfront⟩ := hp id (buffer.take p.slots) hhead (by simp; omega)
        obtain ⟨back, hback, hoverback⟩ := ih hps ids (buffer.drop p.slots)
          (Nat.le_of_succ_le_succ hlength) htail (by simp; omega)
        have hle : p.slots ≤ buffer.length := by omega
        exact ⟨front ++ back, captureAll_cons hle hfront hback,
          Overwrites.append_split hle hoverfront hoverback⟩

theorem fills_commuting {opcode : Opcode} {left right : Pattern} (hleft : Fills g left)
    (hright : Fills g right) : Fills g (.commuting opcode left right) := by
  intro id buffer haccepts hslots
  rw [slots] at hslots
  -- Either way round, the left pattern has the first stretch of the buffer.
  obtain ⟨n, a, b, straight, hn, -, hoperands, hstraight, hacceptsleft, hacceptsright⟩ :=
    of_accepts_commuting haccepts
  obtain ⟨front, hfront, hoverfront⟩ :=
    hleft _ (buffer.take left.slots) hacceptsleft (by simp; omega)
  obtain ⟨back, hback, hoverback⟩ :=
    hright _ (buffer.drop left.slots) hacceptsright (by simp; omega)
  have hle : left.slots ≤ buffer.length := by omega
  exact ⟨front ++ back, capture_commuting hn hoperands hstraight hle hfront hback,
    Overwrites.append_split hle hoverfront hoverback⟩

/-- **What is recorded.**  A buffer that is long enough is filled for every node that a pattern
accepts, in the slots that the pattern says and in no others. -/
theorem fills (g : IrGraph) (p : Pattern) : Fills g p := by
  induction p using Pattern.induction with
  | bind =>
      intro id buffer _ hslots
      rcases buffer with _ | ⟨old, rest⟩
      · simp [slots] at hslots
      · exact ⟨some id :: rest, rfl, (Overwrites.done rest).filled old id⟩
  | wildcard =>
      intro id buffer _ hslots
      rcases buffer with _ | ⟨old, rest⟩
      · simp [slots] at hslots
      · exact ⟨old :: rest, rfl, (Overwrites.done rest).kept old⟩
  | ignore =>
      intro id buffer _ _
      exact ⟨buffer, rfl, Overwrites.done buffer⟩
  | op opcode operands ih =>
      intro id buffer haccepts hslots
      obtain ⟨n, hn, -, hlength, hall⟩ := of_accepts_op haccepts
      obtain ⟨after, hafter, hover⟩ := fills_all ih n.operands buffer hlength hall hslots
      exact ⟨after, capture_op hn hafter, hover⟩
  | commuting opcode left right ihleft ihright => exact fills_commuting ihleft ihright
  | typed type inner ih =>
      intro id buffer haccepts hslots
      exact ih id buffer (of_accepts_typed haccepts).2 hslots
  | marked inner ih =>
      intro id buffer haccepts hslots
      rw [slots] at hslots
      rcases buffer with _ | ⟨old, rest⟩
      · simp at hslots
      · obtain ⟨after, hafter, hover⟩ := ih id rest haccepts (by simp at hslots; omega)
        refine ⟨some id :: after, ?_, hover.filled old id⟩
        rw [capture, hafter]
        rfl

/-- An empty buffer with a slot for each slot of the pattern comes out with a node in just those
slots that the pattern fills. -/
theorem exists_capture_of_accepts {p : Pattern} {id : NodeId} (h : p.accepts g id = .ok true) :
    ∃ captures, p.capture g id p.freshBuffer = .ok captures ∧
      ∀ slot, (∃ i, captures[slot]? = some (some i)) ↔ p.Records slot := by
  obtain ⟨captures, hcapture, hover⟩ := fills g p id p.freshBuffer h (by simp [freshBuffer])
  refine ⟨captures, hcapture, fun slot => ⟨?_, hover.exists_getElem?⟩⟩
  rintro ⟨i, hi⟩
  by_cases hslot : p.Records slot
  · exact hslot
  · rw [hover.getElem?_eq hslot] at hi
    have hmem := List.mem_of_getElem? hi
    simp [freshBuffer] at hmem

end Pattern

end Codegen
