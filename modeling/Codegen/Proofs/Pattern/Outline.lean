/-
What a pattern says before it is held against a node.

Two things can be read off a pattern alone: the opcode it starts from, however deep that is
wrapped, and the types it narrows to.  The first is a promise, since a pattern that starts
from an opcode accepts no node of another; it is read off what each kind of pattern takes
to accept a node.  The second is what a table looks at when it refuses a rule, and it is all
that a pattern can ever find out about types.
-/
import Codegen.Proofs.Pattern.Solutions

namespace Codegen

namespace Pattern

/-! ### The types it narrows to -/

mutual

/-- The types that a pattern narrows to, from the outside in and from left to right. -/
def narrowings : Pattern → List Primitive
  | .bind | .wildcard | .ignore => []
  | .op _ operands => narrowingsAll operands
  | .commuting _ left right => left.narrowings ++ right.narrowings
  | .typed type inner => type :: inner.narrowings
  | .marked inner => inner.narrowings

/-- The types that several patterns narrow to. -/
def narrowingsAll : List Pattern → List Primitive
  | [] => []
  | p :: ps => p.narrowings ++ narrowingsAll ps

end

theorem mem_narrowingsAll {type : Primitive} {p : Pattern} {ps : List Pattern} (hp : p ∈ ps)
    (h : type ∈ p.narrowings) : type ∈ narrowingsAll ps := by
  induction ps with
  | nil => simp at hp
  | cons q ps ih =>
      rw [narrowingsAll, List.mem_append]
      rcases List.mem_cons.mp hp with rfl | hmem
      · exact Or.inl h
      · exact Or.inr (ih hmem)

theorem badTypeAll?_eq_find? {ps : List Pattern}
    (h : ∀ p ∈ ps, p.badType? = p.narrowings.find? fun type => !type.isScalar) :
    badTypeAll? ps = (narrowingsAll ps).find? fun type => !type.isScalar := by
  induction ps with
  | nil => rfl
  | cons p ps ih =>
      rw [badTypeAll?, narrowingsAll, List.find?_append, h p List.mem_cons_self,
        ih fun q hq => h q (List.mem_cons_of_mem p hq)]

/-- The type that a pattern is refused for is the first it narrows to that is no scalar. -/
theorem badType?_eq_find? (p : Pattern) :
    p.badType? = p.narrowings.find? fun type => !type.isScalar := by
  induction p using Pattern.induction with
  | bind | wildcard | ignore => rfl
  | op opcode operands ih =>
      rw [badType?, narrowings]
      exact badTypeAll?_eq_find? ih
  | commuting opcode left right ihleft ihright =>
      rw [badType?, narrowings, List.find?_append, ihleft, ihright]
  | typed type inner ih =>
      rw [badType?, narrowings, List.find?_cons, ih]
      by_cases hscalar : type.isScalar = true
      · simp [hscalar]
      · simp [hscalar]
  | marked inner ih => rw [badType?, narrowings, ih]

/-! ### What it takes to be accepted -/

variable {g : IrGraph} {id : NodeId}

theorem of_both_true {x y : Except Fault Bool} (h : both x y = .ok true) :
    x = .ok true ∧ y = .ok true := by
  unfold both at h
  split at h
  · exact ⟨rfl, h⟩
  · cases h
  · cases h

theorem of_either_true {x y : Except Fault Bool} (h : either x y = .ok true) :
    x = .ok true ∨ x = .ok false ∧ y = .ok true := by
  unfold either at h
  split at h
  · exact Or.inl rfl
  · exact Or.inr ⟨rfl, h⟩
  · cases h

theorem of_accepts_op {opcode : Opcode} {operands : List Pattern}
    (h : (Pattern.op opcode operands).accepts g id = .ok true) :
    ∃ n, g.node? id = some n ∧ n.opcode = opcode ∧ operands.length ≤ n.operands.length ∧
      acceptsAll g operands n.operands = .ok true := by
  rw [accepts] at h
  obtain ⟨n, hn, h⟩ := of_bind_eq_ok h
  split at h
  · next hfits => exact ⟨n, Graph.of_node_eq_ok hn, hfits.1, hfits.2, h⟩
  · cases h

/-- A commuting pattern accepts the two operands in the order in which it goes on to record them. -/
theorem of_accepts_commuting {opcode : Opcode} {left right : Pattern}
    (h : (Pattern.commuting opcode left right).accepts g id = .ok true) :
    ∃ n a b straight, g.node? id = some n ∧ n.opcode = opcode ∧ n.operands = [a, b] ∧
      both (left.accepts g a) (right.accepts g b) = .ok straight ∧
      left.accepts g (if straight then a else b) = .ok true ∧
      right.accepts g (if straight then b else a) = .ok true := by
  rw [accepts] at h
  obtain ⟨n, hn, h⟩ := of_bind_eq_ok h
  split at h
  · next a b hoperands =>
      split at h
      · next hopcode =>
          rcases of_either_true h with hstraight | ⟨hstraight, hexchanged⟩
          · obtain ⟨hleft, hright⟩ := of_both_true hstraight
            exact ⟨n, a, b, true, Graph.of_node_eq_ok hn, hopcode, hoperands, hstraight, hleft,
              hright⟩
          · obtain ⟨hright, hleft⟩ := of_both_true hexchanged
            exact ⟨n, a, b, false, Graph.of_node_eq_ok hn, hopcode, hoperands, hstraight, hleft,
              hright⟩
      · cases h
  · cases h

theorem of_accepts_typed {type : Primitive} {inner : Pattern}
    (h : (Pattern.typed type inner).accepts g id = .ok true) :
    (∃ n, g.node? id = some n ∧ n.type = .prim type) ∧ inner.accepts g id = .ok true := by
  rw [accepts] at h
  obtain ⟨n, hn, h⟩ := of_bind_eq_ok h
  split at h
  · next htype => exact ⟨⟨n, Graph.of_node_eq_ok hn, htype⟩, h⟩
  · cases h

/-- **A pattern accepts no node of another opcode** than the one it starts from. -/
theorem opcode_of_accepts {n : IrNode} {opcode : Opcode} (p : Pattern)
    (hn : g.node? id = some n) (hroot : p.rootOpcode? = some opcode)
    (haccepts : p.accepts g id = .ok true) : n.opcode = opcode := by
  induction p using Pattern.induction with
  | bind | wildcard | ignore => simp [rootOpcode?] at hroot
  | op opcode' operands =>
      obtain rfl : opcode' = opcode := Option.some.inj hroot
      obtain ⟨n', hn', hopcode, -⟩ := of_accepts_op haccepts
      rwa [Option.some.inj (hn.symm.trans hn')]
  | commuting opcode' left right =>
      obtain rfl : opcode' = opcode := Option.some.inj hroot
      obtain ⟨n', -, -, -, hn', hopcode, -⟩ := of_accepts_commuting haccepts
      rwa [Option.some.inj (hn.symm.trans hn')]
  | typed type inner ih => exact ih hroot (of_accepts_typed haccepts).2
  | marked inner ih => exact ih hroot haccepts

end Pattern

end Codegen
