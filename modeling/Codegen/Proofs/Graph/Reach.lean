/-
What a node depends on.

Along operands a node reaches the nodes whose values go into its own.  A walk along
operands does not leave a graph whose operands are in range.  Two graphs may hold the same
nodes wherever one of them is reached from a given node: they need not be of one size and
may differ everywhere else, but what follows operands from that node cannot tell them
apart.

Together with its chain, its operands are the nodes that a node has to wait for.  A graph
in which no node waits for itself, directly or through others, can be put in order.  It
stays that way when a node is added that nothing waits for, and when a node is chained to
one that does not lead back to it.
-/
import Codegen.Proofs.Graph.Construction
import Mathlib.Logic.Relation

namespace Codegen

namespace Graph

variable {O T : Type} {g g' : Graph O T} {a b id : NodeId} {n : Node O T}

/-! ### Along operands -/

/-- `b` is an operand of `a`. -/
def Uses (g : Graph O T) (a b : NodeId) : Prop := ∃ n, g.node? a = some n ∧ b ∈ n.operands

/-- One comes from `a` to `b` along operands, in any number of steps. -/
def Reaches (g : Graph O T) : NodeId → NodeId → Prop := Relation.ReflTransGen g.Uses

theorem Reaches.refl (g : Graph O T) (id : NodeId) : g.Reaches id id := Relation.ReflTransGen.refl

theorem Reaches.of_operand {c : NodeId} (hn : g.node? a = some n) (hmem : b ∈ n.operands)
    (h : g.Reaches b c) : g.Reaches a c :=
  Relation.ReflTransGen.head ⟨n, hn, hmem⟩ h

/-- Nothing outside the graph is reached from inside. -/
theorem Reaches.lt_size (hrange : g.InRange) (ha : a < g.size) (h : g.Reaches a b) :
    b < g.size := by
  induction h with
  | refl => exact ha
  | tail _ huses _ =>
      obtain ⟨n, hn, hmem⟩ := huses
      exact hrange _ n hn _ hmem

/-! ### Graphs that agree from a node on -/

/-- Every node that is reached from `id` is a node of both graphs, and the same in both. -/
def AgreesFrom (g g' : Graph O T) (id : NodeId) : Prop :=
  ∀ i, g.Reaches id i → ∃ n, g.node? i = some n ∧ g'.node? i = some n

theorem AgreesFrom.node (h : AgreesFrom g g' id) :
    ∃ n, g.node? id = some n ∧ g'.node? id = some n :=
  h id (Reaches.refl g id)

/-- Graphs that agree from a node on agree from its operands on. -/
theorem AgreesFrom.operand (h : AgreesFrom g g' a) (hn : g.node? a = some n)
    (hmem : b ∈ n.operands) : AgreesFrom g g' b := by
  intro i hi
  exact h i (Reaches.of_operand hn hmem hi)

/-- To see that graphs agree from a node on, look at a set of ids that operands do not leave. -/
theorem agreesFrom_of_closed {S : NodeId → Prop} (hid : S id)
    (h : ∀ i, S i → ∃ n, g.node? i = some n ∧ g'.node? i = some n ∧ ∀ b ∈ n.operands, S b) :
    AgreesFrom g g' id := by
  intro i hi
  have hS : S i := by
    induction hi with
    | refl => exact hid
    | tail _ huses ih =>
        obtain ⟨n, hn, hmem⟩ := huses
        obtain ⟨n', hn', -, hclosed⟩ := h _ ih
        cases hn.symm.trans hn'
        exact hclosed _ hmem
  obtain ⟨n, hn, hn', -⟩ := h i hS
  exact ⟨n, hn, hn'⟩

/-- A graph begins with the nodes of another if it has each of them at its id. -/
theorem isPrefix_iff :
    g.nodes.toList <+: g'.nodes.toList ↔
      ∀ id n, g.node? id = some n → g'.node? id = some n := by
  rw [List.prefix_iff_getElem?]
  constructor
  · intro h id n hn
    obtain ⟨hid, rfl⟩ := Array.getElem?_eq_some_iff.mp hn
    have hnode := h id hid
    rwa [Array.getElem?_toList, Array.getElem_toList] at hnode
  · intro h id hid
    rw [Array.getElem?_toList, Array.getElem_toList]
    exact h id _ (Array.getElem?_eq_getElem hid)

/-- A graph agrees, from each of its nodes on, with a graph that begins with the same nodes. -/
theorem agreesFrom_of_isPrefix (hrange : g.InRange) (hid : id < g.size)
    (h : g.nodes.toList <+: g'.nodes.toList) : AgreesFrom g g' id := by
  refine agreesFrom_of_closed (S := (· < g.size)) hid fun i hi => ?_
  obtain ⟨n, hn⟩ := exists_node? hi
  exact ⟨n, hn, isPrefix_iff.mp h i n hn, hrange i n hn⟩

/-! ### What has to come first -/

/-- `b` is the chain of `a`. -/
def Chained (g : Graph O T) (a b : NodeId) : Prop := ∃ n, g.node? a = some n ∧ n.chain = some b

/-- `a` uses `b` or is chained to it, and so has to wait for it. -/
def Awaits (g : Graph O T) (a b : NodeId) : Prop := ∃ n, g.node? a = some n ∧ b ∈ n.refs

theorem awaits_iff : g.Awaits a b ↔ g.Uses a b ∨ g.Chained a b := by
  simp only [Awaits, Uses, Chained, Node.refs, List.mem_append, Option.mem_toList,
    ← exists_or, and_or_left]

/-- One comes from `a` to `b` by going on to what has to come first, in any number of steps. -/
def Leads (g : Graph O T) : NodeId → NodeId → Prop := Relation.ReflTransGen g.Awaits

/-- No node has to wait for itself, directly or through others. -/
def Acyclic (g : Graph O T) : Prop := ∀ id, ¬Relation.TransGen g.Awaits id id

/-- A node that waits for a node which leads back to it waits for itself. -/
theorem Acyclic.not_leads (h : g.Acyclic) (hawaits : g.Awaits a b) : ¬g.Leads b a :=
  fun hleads => h a (Relation.TransGen.head' hawaits hleads)

/-- Fewer edges make no circle. -/
theorem Acyclic.mono (hsub : ∀ x y, g.Awaits x y → g'.Awaits x y) (h : g'.Acyclic) : g.Acyclic :=
  fun id hcircle => h id (Relation.TransGen.mono hsub _ _ hcircle)

section Added

variable {top first : NodeId}

/-- A way through a graph with one more edge avoids that edge or can be cut down to what comes
before it and after it. -/
theorem Leads.of_added
    (hadded : ∀ x y, g'.Awaits x y → g.Awaits x y ∨ x = top ∧ y = first) (h : g'.Leads a b) :
    g.Leads a b ∨ g.Leads a top ∧ g.Leads first b := by
  induction h with
  | refl => exact Or.inl Relation.ReflTransGen.refl
  | tail _ hawaits ih =>
      rcases hadded _ _ hawaits with hold | ⟨rfl, rfl⟩
      · rcases ih with hway | ⟨hbefore, hafter⟩
        · exact Or.inl (hway.tail hold)
        · exact Or.inr ⟨hbefore, hafter.tail hold⟩
      · -- The way ends with the new edge; what came before it reached `top` without it.
        rcases ih with hway | ⟨hbefore, -⟩
        · exact Or.inr ⟨hway, Relation.ReflTransGen.refl⟩
        · exact Or.inr ⟨hbefore, Relation.ReflTransGen.refl⟩

/-- One more edge makes no circle if there is no way back. -/
theorem Acyclic.of_added (hadded : ∀ x y, g'.Awaits x y → g.Awaits x y ∨ x = top ∧ y = first)
    (h : g.Acyclic) (hopen : ¬g.Leads first top) : g'.Acyclic := by
  intro id hcircle
  obtain ⟨last, hway, hawaits⟩ := Relation.TransGen.tail'_iff.mp hcircle
  have hcut := Leads.of_added hadded hway
  rcases hadded _ _ hawaits with hold | ⟨rfl, rfl⟩
  · rcases hcut with hleads | ⟨hbefore, hafter⟩
    · exact h.not_leads hold hleads
    · exact hopen ((hafter.tail hold).trans hbefore)
  · rcases hcut with hleads | ⟨hbefore, -⟩
    · exact hopen hleads
    · exact hopen hbefore

/-- A node that nothing waits for is on no circle. -/
theorem Acyclic.of_new (hnew : ∀ x y, g'.Awaits x y → g.Awaits x y ∨ x = top)
    (hunused : ∀ x, ¬g'.Awaits x top) (h : g.Acyclic) : g'.Acyclic := by
  have hold : ∀ {x y}, x ≠ top → g'.Awaits x y → g.Awaits x y := by
    intro x y hx hawaits
    exact (hnew x y hawaits).resolve_right hx
  have hother : ∀ {x y}, g'.Awaits x y → y ≠ top := by
    rintro x y hawaits rfl
    exact hunused x hawaits
  have hway : ∀ {x y}, x ≠ top → g'.Leads x y → g.Leads x y ∧ y ≠ top := by
    intro x y hx hleads
    induction hleads with
    | refl => exact ⟨Relation.ReflTransGen.refl, hx⟩
    | tail _ hawaits ih => exact ⟨ih.1.tail (hold ih.2 hawaits), hother hawaits⟩
  intro id hcircle
  obtain ⟨last, hleads, hawaits⟩ := Relation.TransGen.tail'_iff.mp hcircle
  obtain ⟨hleads, hlast⟩ := hway (hother hawaits) hleads
  exact h.not_leads (hold hlast hawaits) hleads

end Added

/-- Where operands lead backward, every way leads backward or along a chain. -/
theorem Backward.lt_or_chained (h : g.Backward) (hway : Relation.TransGen g.Awaits a b) :
    b < a ∨ ∃ id first, g.Chained id first ∧ g.Leads a id ∧ g.Leads first b := by
  induction hway with
  | single hawaits =>
      rcases awaits_iff.mp hawaits with ⟨n, hn, hmem⟩ | hchained
      · exact Or.inl (h _ n hn _ hmem)
      · exact Or.inr ⟨_, _, hchained, Relation.ReflTransGen.refl, Relation.ReflTransGen.refl⟩
  | tail hway hawaits ih =>
      rcases awaits_iff.mp hawaits with ⟨n, hn, hmem⟩ | hchained
      · rcases ih with hlt | ⟨id, first, hchained, hbefore, hafter⟩
        · exact Or.inl (Nat.lt_trans (h _ n hn _ hmem) hlt)
        · exact Or.inr ⟨id, first, hchained, hbefore, hafter.tail hawaits⟩
      · exact Or.inr ⟨_, _, hchained, hway.to_reflTransGen, Relation.ReflTransGen.refl⟩

/-- Where operands lead backward, every circle goes along a chain. -/
theorem Backward.acyclic_iff (h : g.Backward) :
    g.Acyclic ↔ ∀ id first, g.Chained id first → ¬g.Leads first id := by
  constructor
  · intro hacyclic id first hchained
    exact hacyclic.not_leads (awaits_iff.mpr (Or.inr hchained))
  · intro hopen id hcircle
    rcases h.lt_or_chained hcircle with hlt | ⟨i, first, hchained, hbefore, hafter⟩
    · exact Nat.lt_irrefl id hlt
    · exact hopen i first hchained (hafter.trans hbefore)

/-! ### The first node with a property -/

/-- The node at `id` is the first, in the order of ids, of which `P` holds. -/
structure Lowest (g : Graph O T) (P : NodeId → Node O T → Prop) (id : NodeId) (n : Node O T) :
    Prop where
  node : g.node? id = some n
  holds : P id n
  before : ∀ i < id, ∀ m, g.node? i = some m → ¬P i m

theorem lowest_iff {P : NodeId → Node O T → Prop} :
    g.Lowest P id n ↔
      g.node? id = some n ∧ P id n ∧ ∀ i m, g.node? i = some m → i < id → ¬P i m := by
  constructor
  · rintro ⟨hn, hP, hbefore⟩
    exact ⟨hn, hP, fun i m hm hi => hbefore i hi m hm⟩
  · rintro ⟨hn, hP, hbefore⟩
    exact ⟨hn, hP, fun i hi m hm => hbefore i m hm hi⟩

instance [DecidableEq O] [DecidableEq T] {P : NodeId → Node O T → Prop}
    [∀ id n, Decidable (P id n)] : Decidable (g.Lowest P id n) :=
  decidable_of_iff _ lowest_iff.symm

/-- If `P` holds of a node, there is a first node of which it holds. -/
theorem exists_lowest {P : NodeId → Node O T → Prop} (hn : g.node? id = some n) (hP : P id n) :
    ∃ i m, g.Lowest P i m := by
  induction id using Nat.strongRecOn generalizing n with
  | ind id ih =>
      by_cases hbefore : ∃ i < id, ∃ m, g.node? i = some m ∧ P i m
      · obtain ⟨i, hi, m, hm, hPm⟩ := hbefore
        exact ih i hi hm hPm
      · refine ⟨id, n, hn, hP, ?_⟩
        intro i hi m hm hPm
        exact hbefore ⟨i, hi, m, hm, hPm⟩

/-- There is only one. -/
theorem Lowest.eq {P : NodeId → Node O T → Prop} {i : NodeId} {m : Node O T}
    (h : g.Lowest P id n) (h' : g.Lowest P i m) : id = i ∧ n = m := by
  have hid : id = i := by
    rcases Nat.lt_trichotomy id i with hlt | heq | hgt
    · exact absurd h.holds (h'.before id hlt n h.node)
    · exact heq
    · exact absurd h'.holds (h.before i hgt m h'.node)
  subst hid
  exact ⟨rfl, Option.some.inj (h.node.symm.trans h'.node)⟩

end Graph

end Codegen
