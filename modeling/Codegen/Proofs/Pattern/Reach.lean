/-
Matching looks at nothing but the node and what it reaches.

A pattern goes from a node to its operands and from there on, as deep as the pattern is.
So the nodes it records are reached from the node it is matched against, and if two
graphs look alike from that node on, it accepts the node in both or in neither and records
the same.  To look alike the nodes need not be the same.  All that a pattern finds out about
a type is whether it is one of those it narrows to, so the types may differ where it does
not ask.

Both facts are proved along the pattern; for the operands of a node they are proved of a
row of patterns against a row of nodes, since that is how operands are met.
-/
import Codegen.Proofs.Graph.Reach
import Codegen.Proofs.Pattern.Outline

namespace Codegen

namespace Pattern

variable {g : IrGraph} {id : NodeId} {buffer filled : Captures}

/-! ### What is recorded -/

/-- Everything in `filled` was in `buffer` before or is reached from a node of the row. -/
def FilledFrom (g : IrGraph) (ids : List NodeId) (buffer filled : Captures) : Prop :=
  ∀ i, some i ∈ filled → some i ∈ buffer ∨ ∃ id ∈ ids, g.Reaches id i

theorem FilledFrom.rfl {ids : List NodeId} : FilledFrom g ids buffer buffer :=
  fun _ hi => Or.inl hi

/-- The node itself, recorded in front of what is filled from it. -/
theorem FilledFrom.cons {slot : Option NodeId} (h : FilledFrom g [id] buffer filled) :
    FilledFrom g [id] (slot :: buffer) (some id :: filled) := by
  intro i hi
  rcases List.mem_cons.mp hi with heq | hmem
  · rw [Option.some.inj heq]
    exact Or.inr ⟨id, List.mem_singleton_self id, Graph.Reaches.refl g id⟩
  · rcases h i hmem with hold | hreach
    · exact Or.inl (List.mem_cons_of_mem slot hold)
    · exact Or.inr hreach

/-- Two stretches of a buffer that are filled from a row make a buffer filled from it. -/
theorem FilledFrom.append {ids ids' : List NodeId} {k : Nat} {front back : Captures}
    (hfront : FilledFrom g ids (buffer.take k) front)
    (hback : FilledFrom g ids' (buffer.drop k) back) :
    FilledFrom g (ids ++ ids') buffer (front ++ back) := by
  intro i hi
  rcases List.mem_append.mp hi with hi | hi
  · rcases hfront i hi with hold | ⟨id, hid, hreach⟩
    · exact Or.inl (List.mem_of_mem_take hold)
    · exact Or.inr ⟨id, List.mem_append_left ids' hid, hreach⟩
  · rcases hback i hi with hold | ⟨id, hid, hreach⟩
    · exact Or.inl (List.mem_of_mem_drop hold)
    · exact Or.inr ⟨id, List.mem_append_right ids hid, hreach⟩

/-- What is reached from operands of a node is reached from the node. -/
theorem FilledFrom.of_operands {n : IrNode} {ids : List NodeId} (hn : g.node? id = some n)
    (hids : ∀ i ∈ ids, i ∈ n.operands) (h : FilledFrom g ids buffer filled) :
    FilledFrom g [id] buffer filled := by
  intro i hi
  rcases h i hi with hold | ⟨operand, hmem, hreach⟩
  · exact Or.inl hold
  · exact Or.inr ⟨id, List.mem_singleton_self id,
      Graph.Reaches.of_operand hn (hids operand hmem) hreach⟩

theorem filledFrom_captureAll {ps : List Pattern}
    (h : ∀ p ∈ ps, ∀ {id buffer filled}, p.capture g id buffer = .ok filled →
      FilledFrom g [id] buffer filled) :
    ∀ {ids : List NodeId} {buffer filled : Captures},
      captureAll g ps ids buffer = .ok filled → FilledFrom g ids buffer filled := by
  induction ps with
  | nil =>
      intro ids buffer filled hfill
      cases hfill
      exact FilledFrom.rfl
  | cons p ps ih =>
      intro ids buffer filled hfill
      rcases ids with _ | ⟨id, ids⟩
      · cases hfill
        exact FilledFrom.rfl
      · simp only [captureAll] at hfill
        split at hfill
        · obtain ⟨front, hfront, hfill⟩ := of_bind_eq_ok hfill
          obtain ⟨back, hback, hfill⟩ := of_bind_eq_ok hfill
          cases hfill
          exact (h p List.mem_cons_self hfront).append
            (ih (fun q hq => h q (List.mem_cons_of_mem p hq)) hback)
        · cases hfill

/-- **A pattern records what the node reaches.** -/
theorem filledFrom_capture (p : Pattern) :
    ∀ {id : NodeId} {buffer filled : Captures}, p.capture g id buffer = .ok filled →
      FilledFrom g [id] buffer filled := by
  induction p using Pattern.induction with
  | bind =>
      intro id buffer filled h
      rcases buffer with _ | ⟨slot, rest⟩
      · cases h
      · cases h
        exact FilledFrom.rfl.cons
  | wildcard | ignore =>
      intro id buffer filled h
      cases h
      exact FilledFrom.rfl
  | op opcode operands ih =>
      intro id buffer filled h
      simp only [capture] at h
      obtain ⟨n, hn, h⟩ := of_bind_eq_ok h
      exact (filledFrom_captureAll ih h).of_operands (Graph.of_node_eq_ok hn) fun i hi => hi
  | commuting opcode left right ihleft ihright =>
      intro id buffer filled h
      simp only [capture] at h
      obtain ⟨n, hn, h⟩ := of_bind_eq_ok h
      split at h
      · next a b rest hoperands =>
          obtain ⟨straight, -, h⟩ := of_bind_eq_ok h
          split at h
          · obtain ⟨front, hfront, h⟩ := of_bind_eq_ok h
            obtain ⟨back, hback, h⟩ := of_bind_eq_ok h
            cases h
            refine ((ihleft hfront).append (ihright hback)).of_operands
              (Graph.of_node_eq_ok hn) ?_
            -- Whichever way the operands are taken, both are operands of the node.
            intro i hi
            have hab : i = a ∨ i = b := by
              cases straight with
              | true => simpa using hi
              | false => simpa [or_comm] using hi
            rcases hab with rfl | rfl
            · simp [hoperands]
            · simp [hoperands]
          · cases h
      · cases h
  | typed type inner ih =>
      intro id buffer filled h
      exact ih h
  | marked inner ih =>
      intro id buffer filled h
      rcases buffer with _ | ⟨slot, rest⟩
      · cases h
      · simp only [capture] at h
        obtain ⟨later, hlater, h⟩ := of_bind_eq_ok h
        cases h
        exact (ih hlater).cons

/-- From an empty buffer, everything that is recorded is reached from the node. -/
theorem reaches_of_capture {p : Pattern} (h : p.capture g id p.freshBuffer = .ok filled)
    {i : NodeId} (hi : some i ∈ filled) : g.Reaches id i := by
  rcases filledFrom_capture p h i hi with hold | ⟨id', hid, hreach⟩
  · exact absurd (List.eq_of_mem_replicate hold) (Option.some_ne_none i)
  · rwa [List.mem_singleton.mp hid] at hreach

/-! ### Graphs that look alike -/

end Pattern

namespace Graph

variable {S : Primitive → Prop} {g g' : IrGraph} {a b : NodeId} {n : IrNode}

/-- Every node that is reached from `id` is a node of both graphs and the same in both, except that
its type may be another one, as long as neither is in `S`. -/
def AlikeFrom (S : Primitive → Prop) (g g' : IrGraph) (id : NodeId) : Prop :=
  ∀ i, g.Reaches id i → ∃ n type, g.node? i = some n ∧ g'.node? i = some { n with type } ∧
    ∀ p, S p → (type = .prim p ↔ n.type = .prim p)

theorem AlikeFrom.node (h : AlikeFrom S g g' a) :
    ∃ n type, g.node? a = some n ∧ g'.node? a = some { n with type } ∧
      ∀ p, S p → (type = .prim p ↔ n.type = .prim p) :=
  h a (Reaches.refl g a)

/-- Graphs that look alike from a node on look alike from its operands on. -/
theorem AlikeFrom.operand (h : AlikeFrom S g g' a) (hn : g.node? a = some n)
    (hmem : b ∈ n.operands) : AlikeFrom S g g' b := by
  intro i hi
  exact h i (Reaches.of_operand hn hmem hi)

theorem AgreesFrom.alikeFrom (h : AgreesFrom g g' a) : AlikeFrom S g g' a := by
  intro i hi
  obtain ⟨n, hn, hn'⟩ := h i hi
  exact ⟨n, n.type, hn, hn', fun _ _ => Iff.rfl⟩

end Graph

namespace Pattern

variable {S : Primitive → Prop} {g g' : IrGraph}

theorem acceptsAll_alike {ps : List Pattern}
    (h : ∀ p ∈ ps, ∀ {id}, g.AlikeFrom S g' id → p.accepts g' id = p.accepts g id) :
    ∀ {ids : List NodeId}, (∀ id ∈ ids, g.AlikeFrom S g' id) →
      acceptsAll g' ps ids = acceptsAll g ps ids := by
  induction ps with
  | nil =>
      intro ids _
      rfl
  | cons p ps ih =>
      intro ids hids
      rcases ids with _ | ⟨id, ids⟩
      · rfl
      · rw [acceptsAll, acceptsAll, h p List.mem_cons_self (hids id List.mem_cons_self),
          ih (fun q hq => h q (List.mem_cons_of_mem p hq))
            fun i hi => hids i (List.mem_cons_of_mem id hi)]

/-- A pattern that narrows to types in `S` accepts a node in both graphs or in neither. -/
theorem accepts_alike (p : Pattern) (hp : ∀ type ∈ p.narrowings, S type) :
    ∀ {id : NodeId}, g.AlikeFrom S g' id → p.accepts g' id = p.accepts g id := by
  induction p using Pattern.induction with
  | bind | wildcard | ignore =>
      intro id _
      rfl
  | op opcode operands ih =>
      intro id halike
      obtain ⟨n, type, hn, hn', -⟩ := halike.node
      have hoperands : ∀ p ∈ operands, ∀ {id}, g.AlikeFrom S g' id →
          p.accepts g' id = p.accepts g id :=
        fun p hmem => ih p hmem fun t ht => hp t (mem_narrowingsAll hmem ht)
      simp only [accepts, Graph.node_eq_ok hn, Graph.node_eq_ok hn', ok_bind]
      rw [acceptsAll_alike hoperands fun i hi => halike.operand hn hi]
  | commuting opcode left right ihleft ihright =>
      intro id halike
      obtain ⟨n, type, hn, hn', -⟩ := halike.node
      obtain ⟨hleft, hright⟩ := List.forall_mem_append.mp hp
      simp only [accepts, Graph.node_eq_ok hn, Graph.node_eq_ok hn', ok_bind]
      split
      · next a b hoperands =>
          have ha : g.AlikeFrom S g' a := halike.operand hn (by simp [hoperands])
          have hb : g.AlikeFrom S g' b := halike.operand hn (by simp [hoperands])
          rw [ihleft hleft ha, ihleft hleft hb, ihright hright ha, ihright hright hb]
      · rfl
  | typed narrowed inner ih =>
      intro id halike
      obtain ⟨n, type, hn, hn', htype⟩ := halike.node
      obtain ⟨hnarrowed, hinner⟩ := List.forall_mem_cons.mp hp
      simp only [accepts, Graph.node_eq_ok hn, Graph.node_eq_ok hn', ok_bind, ih hinner halike,
        htype narrowed hnarrowed]
  | marked inner ih =>
      intro id halike
      rw [accepts, accepts, ih hp halike]

theorem captureAll_alike {ps : List Pattern}
    (h : ∀ p ∈ ps, ∀ {id}, g.AlikeFrom S g' id → ∀ buffer,
      p.capture g' id buffer = p.capture g id buffer) :
    ∀ {ids : List NodeId}, (∀ id ∈ ids, g.AlikeFrom S g' id) → ∀ buffer,
      captureAll g' ps ids buffer = captureAll g ps ids buffer := by
  induction ps with
  | nil =>
      intro ids _ buffer
      rfl
  | cons p ps ih =>
      intro ids hids buffer
      rcases ids with _ | ⟨id, ids⟩
      · rfl
      · rw [captureAll, captureAll, h p List.mem_cons_self (hids id List.mem_cons_self),
          ih (fun q hq => h q (List.mem_cons_of_mem p hq))
            fun i hi => hids i (List.mem_cons_of_mem id hi)]

/-- A pattern that narrows to types in `S` records the same in both graphs, in any buffer. -/
theorem capture_alike (p : Pattern) (hp : ∀ type ∈ p.narrowings, S type) :
    ∀ {id : NodeId}, g.AlikeFrom S g' id → ∀ buffer,
      p.capture g' id buffer = p.capture g id buffer := by
  induction p using Pattern.induction with
  | bind | wildcard | ignore =>
      intro id _ buffer
      rfl
  | op opcode operands ih =>
      intro id halike buffer
      obtain ⟨n, type, hn, hn', -⟩ := halike.node
      have hoperands : ∀ p ∈ operands, ∀ {id}, g.AlikeFrom S g' id → ∀ buffer,
          p.capture g' id buffer = p.capture g id buffer :=
        fun p hmem => ih p hmem fun t ht => hp t (mem_narrowingsAll hmem ht)
      simp only [capture, Graph.node_eq_ok hn, Graph.node_eq_ok hn', ok_bind]
      rw [captureAll_alike hoperands fun i hi => halike.operand hn hi]
  | commuting opcode left right ihleft ihright =>
      intro id halike buffer
      obtain ⟨n, type, hn, hn', -⟩ := halike.node
      obtain ⟨hleft, hright⟩ := List.forall_mem_append.mp hp
      simp only [capture, Graph.node_eq_ok hn, Graph.node_eq_ok hn', ok_bind]
      split
      · next a b rest hoperands =>
          have ha : g.AlikeFrom S g' a := halike.operand hn (by simp [hoperands])
          have hb : g.AlikeFrom S g' b := halike.operand hn (by simp [hoperands])
          have hfront : ∀ straight : Bool, g.AlikeFrom S g' (if straight then a else b) := by
            intro straight
            cases straight
            · exact hb
            · exact ha
          have hback : ∀ straight : Bool, g.AlikeFrom S g' (if straight then b else a) := by
            intro straight
            cases straight
            · exact ha
            · exact hb
          simp only [accepts_alike left hleft ha, accepts_alike right hright hb,
            ihleft hleft (hfront _), ihright hright (hback _)]
      · rfl
  | typed narrowed inner ih =>
      intro id halike buffer
      rw [capture, capture, ih (List.forall_mem_cons.mp hp).2 halike]
  | marked inner ih =>
      intro id halike buffer
      rcases buffer with _ | ⟨slot, rest⟩
      · rfl
      · rw [capture, capture, ih hp halike]

end Pattern

end Codegen
