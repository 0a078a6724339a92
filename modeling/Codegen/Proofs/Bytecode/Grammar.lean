/-
How the readers of a container are put together.

Every reader here is made from a few: bytes, numbers of variable length, blocks, the
offset, refusing and giving an answer.  A property that these have, and that a sequence
has if its parts do, is therefore a property of all of them.  `Pervasive` says that about
a property, and the lemmas go through the readers once, so that what is said later of the
whole container is said only of the few it is made from.

The body of a function is the exception: what is known of it may rest on the state that
its records are run in, so it is left to those who use `Pervasive.container`.
-/
import Codegen.Bytecode.Container
import Codegen.Proofs.Bytecode.Record

namespace Codegen

namespace Reader

/-- The property holds of the readers that all others are made from, and passes to sequences. -/
structure Pervasive (P : ∀ α : Type, Reader α → Prop) : Prop where
  pure : ∀ {α : Type} (a : α), P α (Pure.pure a)
  reject : ∀ {α : Type} (e : DecodeError), P α (Reader.reject e)
  bind : ∀ {α β : Type} {x : Reader α} {f : α → Reader β}, P α x → (∀ a, P β (f a)) → P β (x >>= f)
  offset : P Nat Reader.offset
  bytes : ∀ n, P (List UInt8) (Reader.bytes n)
  varint : P UInt64 Reader.varint
  block : P (List UInt8) Reader.block

namespace Pervasive

variable {P : ∀ α : Type, Reader α → Prop} (h : Pervasive P)

include h

theorem map {α β : Type} {x : Reader α} (hx : P α x) (f : α → β) : P β (do return f (← x)) :=
  h.bind hx fun a => h.pure (f a)

theorem many {α : Type} {item : Reader α} (hitem : P α item) (count : Nat) :
    P (List α) (Reader.many item count) := by
  induction count with
  | zero => exact h.pure []
  | succ count ih => exact h.bind hitem fun head => h.map ih fun tail => head :: tail

theorem word16 : P UInt16 Reader.word16 := h.map (h.bytes 2) _

theorem word32 : P UInt32 Reader.word32 := h.map (h.bytes 4) _

/-! ### Records -/

theorem readType : P Primitive Record.readType := by
  refine h.bind h.offset fun start => h.bind h.varint fun raw => ?_
  split
  · exact h.pure _
  · exact h.reject _

theorem readImm : P Record Record.readImm := by
  refine h.bind h.offset fun start => h.bind h.readType fun type => ?_
  split
  · next width hwidth =>
      rw [uint_of_le (Record.immWidth_le hwidth)]
      exact h.map (h.map (h.bytes width) _) _
  · exact h.reject _

theorem read : P Record Record.read := by
  refine h.bind h.offset fun start => h.bind h.varint fun kind => ?_
  split
  · exact h.readImm
  · split
    · exact h.map h.varint _
    · split
      · exact h.pure _
      · split
        · exact h.map h.readType _
        · exact h.reject _

/-! ### Containers -/

theorem header : P Header Header.read := by
  refine h.bind h.word32 fun found => ?_
  split
  · exact h.reject _
  · refine h.bind h.word16 fun major => h.bind h.word16 fun minor => ?_
    refine h.bind h.varint fun constantCount => h.bind h.varint fun functionCount => ?_
    exact h.map h.varint _

theorem constant : P Constant Constant.read := by
  refine h.bind (h.map (h.bytes 1) _) fun flags => ?_
  dsimp only
  split
  · exact h.map h.varint _
  · exact h.map h.block _

theorem registerEntry (f : Function) (index : Nat) (entry : Option Nat) :
    P (Option Nat) (f.registerEntry index entry) := by
  unfold Function.registerEntry
  split
  · split
    · exact h.reject _
    · exact h.pure _
  · exact h.pure _

variable (hbody : ∀ count, P IrGraph (decodeFunction count))

include hbody

theorem function : P Function Function.read := by
  have hheader : P (UInt32 × Nat) Function.readHeader :=
    h.bind h.word32 fun flags => h.map h.varint _
  exact h.bind hheader fun header => h.map (hbody header.2) _

theorem readPool (count : Nat) : ∀ (index : Nat) (entry : Option Nat),
    P (List Function × Option Nat) (Function.readPool index entry count) := by
  induction count with
  | zero =>
      intro index entry
      exact h.pure _
  | succ count ih =>
      intro index entry
      refine h.bind (h.function hbody) fun f => h.bind (h.registerEntry f index entry) fun entry => ?_
      exact h.map (ih (index + 1) entry) _

theorem container : P Container Container.read := by
  refine h.bind h.header fun header => h.bind (h.many h.constant _) fun constants => ?_
  refine h.bind (h.readPool hbody _ 0 none) fun pool => ?_
  exact h.map (h.many h.block _) _

end Pervasive

end Reader

end Codegen
