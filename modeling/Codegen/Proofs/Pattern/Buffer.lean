/-
What a buffer held before has no say in what is recorded.

A pattern is handed a buffer that may hold anything and may be longer than it needs, and
cuts it into stretches for its parts: of just the right length for all but the last, which
gets the rest.  So it is not plain from the code that nothing is written outside, nor that
what is written is the same whatever lies there.

Both come down to one equation.  Fill an empty buffer with just enough slots; then any other
buffer is filled by laying the outcome over it.  With what is known of empty buffers, which
slots of them are filled and where the nodes in them come from, this says of every buffer
what becomes of each slot.
-/
import Codegen.Proofs.Pattern.Reach
import Codegen.Proofs.Pattern.Recording

namespace Codegen

namespace Pattern

/-! ### One buffer over another -/

/-- The second buffer, with the nodes of the first one in place of what it holds there. -/
def overlay : Captures → Captures → Captures
  | found :: rest, old :: buffer => found.or old :: overlay rest buffer
  | _, buffer => buffer

section Overlay

variable {found found' buffer buffer' : Captures} {slot : Nat}

theorem overlay_nil (buffer : Captures) : overlay [] buffer = buffer := by
  rw [overlay]
  simp

theorem length_overlay (found buffer : Captures) :
    (overlay found buffer).length = buffer.length := by
  induction found generalizing buffer with
  | nil => rw [overlay_nil]
  | cons node found ih =>
      cases buffer with
      | nil => rfl
      | cons old buffer => rw [overlay, List.length_cons, ih, List.length_cons]

/-- An empty buffer over another changes nothing. -/
theorem overlay_replicate (count : Nat) (buffer : Captures) :
    overlay (List.replicate count none) buffer = buffer := by
  induction count generalizing buffer with
  | zero => exact overlay_nil buffer
  | succ count ih =>
      cases buffer with
      | nil => rfl
      | cons old buffer => rw [List.replicate_succ, overlay, ih, Option.none_or]

theorem overlay_append (hlength : found.length = buffer.length) :
    overlay (found ++ found') (buffer ++ buffer')
      = overlay found buffer ++ overlay found' buffer' := by
  induction found generalizing buffer with
  | nil =>
      obtain rfl : buffer = [] := List.eq_nil_of_length_eq_zero hlength.symm
      rfl
  | cons node found ih =>
      cases buffer with
      | nil => cases hlength
      | cons old buffer =>
          rw [List.cons_append, List.cons_append, overlay, ih (Nat.succ.inj hlength), overlay]
          rfl

/-- The slots of two parts: the first part lies over its stretch and the second over the rest. -/
theorem overlay_split {count : Nat} (hfound : found.length = count)
    (hbuffer : count ≤ buffer.length) :
    overlay (found ++ found') buffer
      = overlay found (buffer.take count) ++ overlay found' (buffer.drop count) := by
  rw [← overlay_append (by rw [hfound, List.length_take_of_le hbuffer]), List.take_append_drop]

theorem getElem?_overlay_of_found {i : NodeId} (hfound : found[slot]? = some (some i))
    (hslot : slot < buffer.length) : (overlay found buffer)[slot]? = some (some i) := by
  induction found generalizing buffer slot with
  | nil => simp at hfound
  | cons node found ih =>
      cases buffer with
      | nil => simp at hslot
      | cons old buffer =>
          rw [overlay]
          cases slot with
          | zero =>
              obtain rfl : node = some i := Option.some.inj hfound
              rfl
          | succ slot => exact ih hfound (Nat.lt_of_succ_lt_succ hslot)

theorem getElem?_overlay_of_not_found (hfound : ∀ i, found[slot]? ≠ some (some i)) :
    (overlay found buffer)[slot]? = buffer[slot]? := by
  induction found generalizing buffer slot with
  | nil => rw [overlay_nil]
  | cons node found ih =>
      cases buffer with
      | nil => rfl
      | cons old buffer =>
          rw [overlay]
          cases slot with
          | zero =>
              cases node with
              | none => rfl
              | some i => exact absurd rfl (hfound i)
          | succ slot => exact ih hfound

end Overlay

/-! ### Any buffer is filled as an empty one -/

variable {g : IrGraph} {id : NodeId}

/-- What an empty buffer is filled with for `id` is laid over any other buffer. -/
def LaysOver (g : IrGraph) (p : Pattern) : Prop :=
  ∀ id found, p.capture g id p.freshBuffer = .ok found →
    found.length = p.slots ∧ ∀ buffer, p.slots ≤ buffer.length →
      p.capture g id buffer = .ok (overlay found buffer)

theorem laysOver_all {ps : List Pattern} (h : ∀ p ∈ ps, LaysOver g p) :
    ∀ (ids : List NodeId) (found : Captures),
      captureAll g ps ids (List.replicate (slotsAll ps) none) = .ok found →
      found.length = slotsAll ps ∧ ∀ buffer, slotsAll ps ≤ buffer.length →
        captureAll g ps ids buffer = .ok (overlay found buffer) := by
  induction ps with
  | nil =>
      intro ids found hfound
      cases hfound
      refine ⟨rfl, fun buffer _ => ?_⟩
      rw [slotsAll, overlay_replicate]
      rfl
  | cons p ps ih =>
      intro ids found hfound
      obtain ⟨hp, hps⟩ := List.forall_mem_cons.mp h
      rcases ids with _ | ⟨id, ids⟩
      · -- Patterns without operands to go with leave their slots alone.
        cases hfound
        refine ⟨List.length_replicate, fun buffer _ => ?_⟩
        rw [overlay_replicate]
        rfl
      · rw [captureAll, slotsAll, if_pos (by simp), take_replicate_add,
          drop_replicate_add] at hfound
        obtain ⟨front, hfront, hfound⟩ := of_bind_eq_ok hfound
        obtain ⟨back, hback, hfound⟩ := of_bind_eq_ok hfound
        cases hfound
        obtain ⟨hlengthfront, hoverfront⟩ := hp id front hfront
        obtain ⟨hlengthback, hoverback⟩ := ih hps ids back hback
        refine ⟨by rw [List.length_append, slotsAll, hlengthfront, hlengthback], ?_⟩
        intro buffer hslots
        rw [slotsAll] at hslots
        have hle : p.slots ≤ buffer.length := by omega
        rw [overlay_split hlengthfront hle]
        exact captureAll_cons hle (hoverfront _ (by simp; omega)) (hoverback _ (by simp; omega))

theorem laysOver_commuting {opcode : Opcode} {left right : Pattern} (hleft : LaysOver g left)
    (hright : LaysOver g right) : LaysOver g (.commuting opcode left right) := by
  intro id found hfound
  rw [freshBuffer, slots, capture] at hfound
  obtain ⟨n, hn, hfound⟩ := of_bind_eq_ok hfound
  split at hfound
  · next a b rest hoperands =>
      obtain ⟨straight, hstraight, hfound⟩ := of_bind_eq_ok hfound
      rw [if_pos (by simp), take_replicate_add, drop_replicate_add] at hfound
      obtain ⟨front, hfront, hfound⟩ := of_bind_eq_ok hfound
      obtain ⟨back, hback, hfound⟩ := of_bind_eq_ok hfound
      cases hfound
      obtain ⟨hlengthfront, hoverfront⟩ := hleft _ front hfront
      obtain ⟨hlengthback, hoverback⟩ := hright _ back hback
      refine ⟨by rw [List.length_append, slots, hlengthfront, hlengthback], ?_⟩
      intro buffer hslots
      rw [slots] at hslots
      have hle : left.slots ≤ buffer.length := by omega
      rw [overlay_split hlengthfront hle]
      -- The way round depends on the graph alone, so it is the same for both buffers.
      exact capture_commuting (Graph.of_node_eq_ok hn) hoperands hstraight hle
        (hoverfront _ (by simp; omega)) (hoverback _ (by simp; omega))
  · cases hfound

/-- **Every buffer is filled as an empty one is**, on top of what it holds. -/
theorem laysOver (g : IrGraph) (p : Pattern) : LaysOver g p := by
  induction p using Pattern.induction with
  | bind =>
      intro id found hfound
      cases hfound
      refine ⟨rfl, fun buffer hslots => ?_⟩
      rcases buffer with _ | ⟨old, rest⟩
      · simp [slots] at hslots
      · rw [overlay, overlay_replicate]
        rfl
  | wildcard | ignore =>
      intro id found hfound
      cases hfound
      refine ⟨List.length_replicate, fun buffer _ => ?_⟩
      rw [freshBuffer, overlay_replicate]
      rfl
  | op opcode operands ih =>
      intro id found hfound
      rw [capture] at hfound
      obtain ⟨n, hn, hfound⟩ := of_bind_eq_ok hfound
      obtain ⟨hlength, hover⟩ := laysOver_all ih n.operands found hfound
      exact ⟨hlength, fun buffer hslots =>
        capture_op (Graph.of_node_eq_ok hn) (hover buffer hslots)⟩
  | commuting opcode left right ihleft ihright => exact laysOver_commuting ihleft ihright
  | typed type inner ih => exact ih
  | marked inner ih =>
      intro id found hfound
      rw [freshBuffer, slots, Nat.add_comm, List.replicate_succ, capture] at hfound
      obtain ⟨later, hlater, hfound⟩ := of_bind_eq_ok hfound
      cases hfound
      obtain ⟨hlength, hover⟩ := ih id later hlater
      refine ⟨by rw [List.length_cons, slots, hlength, Nat.add_comm], fun buffer hslots => ?_⟩
      rw [slots] at hslots
      rcases buffer with _ | ⟨old, rest⟩
      · simp at hslots
      · rw [capture, hover rest (by simp at hslots; omega), overlay]
        rfl

/-! ### What becomes of each slot -/

/-- The slot is that of a wildcard, which leaves it alone. -/
def Spares (p : Pattern) (slot : Nat) : Prop := p.recording[slot]? = some false

theorem records_or_spares {p : Pattern} {slot : Nat} (h : slot < p.slots) :
    p.Records slot ∨ p.Spares slot := by
  rw [← length_recording] at h
  rw [Records, Spares, List.getElem?_eq_getElem h]
  cases p.recording[slot]
  · exact Or.inr rfl
  · exact Or.inl rfl

theorem Spares.not_records {p : Pattern} {slot : Nat} (h : p.Spares slot) : ¬p.Records slot := by
  intro hrecords
  cases hrecords.symm.trans h

/--
**A buffer is written where the pattern fills it and nowhere else.**  Take a node that a pattern
accepts, in any graph.  Each slot of the pattern is one that it fills or that of a wildcard.  A
buffer with as many slots as the pattern or more, whatever it holds, is filled without a fault and
keeps its length.  A slot that the pattern fills then holds a node that is reached from the accepted
one, and which node that is does not depend on the buffer.  The slots of wildcards are as they were,
and so is every slot behind those of the pattern.
-/
theorem capture_frame {p : Pattern} (haccepts : p.accepts g id = .ok true) :
    (∀ slot, slot < p.slots → p.Records slot ∨ p.Spares slot) ∧
      ∃ found : Nat → NodeId, (∀ slot, p.Records slot → g.Reaches id (found slot)) ∧
        ∀ buffer : Captures, p.slots ≤ buffer.length →
          ∃ after, p.capture g id buffer = .ok after ∧ after.length = buffer.length ∧
            (∀ slot, p.Records slot → after[slot]? = some (some (found slot))) ∧
            (∀ slot, p.Spares slot → after[slot]? = buffer[slot]?) ∧
            ∀ slot, p.slots ≤ slot → after[slot]? = buffer[slot]? := by
  obtain ⟨captures, hcapture, hrecords⟩ := exists_capture_of_accepts haccepts
  obtain ⟨-, hover⟩ := laysOver g p id captures hcapture
  have hfound : ∀ slot, p.Records slot →
      captures[slot]? = some (some ((captures[slot]?.join).getD 0)) := by
    intro slot hslot
    obtain ⟨i, hi⟩ := (hrecords slot).mpr hslot
    rw [hi]
    rfl
  have hkept : ∀ (buffer : Captures) slot, ¬p.Records slot →
      (overlay captures buffer)[slot]? = buffer[slot]? := by
    intro buffer slot hslot
    exact getElem?_overlay_of_not_found fun i hi => hslot ((hrecords slot).mp ⟨i, hi⟩)
  refine ⟨fun slot => records_or_spares, fun slot => (captures[slot]?.join).getD 0, ?_, ?_⟩
  · intro slot hslot
    exact reaches_of_capture hcapture (List.mem_of_getElem? (hfound slot hslot))
  · intro buffer hslots
    refine ⟨overlay captures buffer, hover buffer hslots, length_overlay captures buffer,
      ?_, ?_, ?_⟩
    · intro slot hslot
      exact getElem?_overlay_of_found (hfound slot hslot)
        (Nat.lt_of_lt_of_le hslot.lt_slots hslots)
    · intro slot hslot
      exact hkept buffer slot hslot.not_records
    · intro slot hslot
      exact hkept buffer slot fun hrecord => absurd hrecord.lt_slots (Nat.not_lt.mpr hslot)

/-- A commuting pattern that takes its operands exchanged and records one that is no node, in a
buffer that was used before and is two slots too long. -/
theorem capture_frame_exchanged :
    let g : IrGraph :=
      { nodes :=
          #[{ opcode := .imm, type := .prim .u16, imms := [7] },
            { opcode := .sub, type := .prim .u16, operands := [0, 9] },
            { opcode := .add, type := .prim .u16, operands := [0, 1] }]
        root := some 2 }
    let p : Pattern :=
      .commuting .add (.marked (.op .sub [.wildcard, .bind])) (.typed .u16 .bind)
    let buffer : Captures := [some 70, some 71, some 72, some 73, some 74, none]
    p.accepts g 2 = .ok true ∧ p.recording = [true, false, true, true] ∧
      p.slots ≤ buffer.length ∧
      p.capture g 2 buffer = .ok [some 1, some 71, some 9, some 0, some 74, none] ∧
      ∃ after, p.capture g 2 buffer = .ok after ∧ after.length = 6 ∧
        (∃ i, after[2]? = some (some i) ∧ g.Reaches 2 i) ∧ after[1]? = some (some 71) ∧
        after[4]? = some (some 74) ∧ after[5]? = some none := by
  intro g p buffer
  have haccepts : p.accepts g 2 = .ok true := rfl
  have hslots : p.slots ≤ buffer.length := by decide
  obtain ⟨-, found, hreaches, hfill⟩ := capture_frame haccepts
  obtain ⟨after, hafter, hlength, hrecorded, hspared, hbehind⟩ := hfill buffer hslots
  exact ⟨haccepts, rfl, hslots, rfl, after, hafter, hlength,
    ⟨found 2, hrecorded 2 rfl, hreaches 2 rfl⟩, hspared 1 rfl, hbehind 4 (by decide),
    hbehind 5 (by decide)⟩

end Pattern

end Codegen
