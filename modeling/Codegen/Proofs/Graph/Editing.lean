/-
Editing a graph, one request after another.

A graph grows by requests: a node given whole, a node built part by part, an immediate, an
operation on two nodes, and the choice of a root.  Each comes to one of two effects, one more
node at the end of the row or another root, and each is refused if the effect refers to a
node that is not there.  One more node is also refused by a graph that has no id left for it.

Requests may be refused along the way; the graph is then as it was.  That is no matter of
course once a graph is changed in place, so the effects are also written as programs that
ask for an id, look at one reference after another and change the graph they find.  They
change it last, and so agree with the functions that give a new graph back.

What holds after any number of requests: a node refers to nodes before it, by operands and by
chain; the root is a node; ids have been handed out in order, one for each node, and what a
node is does not change.

A node that is built can be given several chains, and the last one is meant.  The others are
not looked at, so a request can name a node that does not exist and still succeed.
-/
import Codegen.Ir
import Codegen.Proofs.Graph.Construction

namespace Codegen

/-! ### Appending -/

namespace Graph

variable {O T : Type} {g : Graph O T} {id : NodeId} {n : Node O T}

/-- One more node at the end of the row. -/
def push (g : Graph O T) (n : Node O T) : Graph O T := { g with nodes := g.nodes.push n }

theorem size_push : (g.push n).size = g.size + 1 := Array.size_push _

theorem node?_push : (g.push n).node? id = if id = g.size then some n else g.node? id :=
  Array.getElem?_push

/-- A node of the longer row is the new one, at the end, or an old one. -/
theorem of_node?_push {m : Node O T} (h : (g.push n).node? id = some m) :
    id = g.size ∧ m = n ∨ g.node? id = some m := by
  rw [node?_push] at h
  by_cases hid : id = g.size
  · rw [if_pos hid] at h
    exact Or.inl ⟨hid, (Option.some.inj h).symm⟩
  · rw [if_neg hid] at h
    exact Or.inr h

/-- Nodes refer to nodes before them, and the root is a node. -/
structure Ordered (g : Graph O T) : Prop where
  operands : ∀ id n, g.node? id = some n → ∀ operand ∈ n.operands, operand < id
  chain : ∀ id n, g.node? id = some n → ∀ first ∈ n.chain, first < id
  root : ∀ id ∈ g.root, id < g.size

theorem ordered_empty : (empty : Graph O T).Ordered := by
  refine ⟨?_, ?_, ?_⟩
  · intro id n hn
    cases hn
  · intro id n hn
    cases hn
  · intro id hid
    cases hid

theorem Ordered.push (h : g.Ordered) (hrefs : ∀ id ∈ n.refs, id < g.size) : (g.push n).Ordered := by
  refine ⟨?_, ?_, ?_⟩
  · intro id m hm operand hmem
    rcases of_node?_push hm with ⟨rfl, rfl⟩ | hm
    · exact hrefs operand (List.mem_append_left _ hmem)
    · exact h.operands id m hm operand hmem
  · intro id m hm first hmem
    rcases of_node?_push hm with ⟨rfl, rfl⟩ | hm
    · exact hrefs first (List.mem_append_right _ (Option.mem_toList.mpr hmem))
    · exact h.chain id m hm first hmem
  · intro id hid
    rw [size_push]
    exact Nat.lt_succ_of_lt (h.root id hid)

theorem Ordered.withRoot (h : g.Ordered) (hid : id < g.size) :
    ({ g with root := some id } : Graph O T).Ordered := by
  refine ⟨h.operands, h.chain, ?_⟩
  intro i hi
  cases hi
  exact hid

end Graph

/-! ### Building a node part by part -/

/-- A part that is given to a node while it is built. -/
inductive Part where
  | chain (id : NodeId)
  | operand (id : NodeId)
  | operands (ids : List NodeId)
  | imm (value : UInt64)
deriving DecidableEq, Repr

namespace Part

variable {O T : Type}

/-- Give the part to a node. -/
def add (n : Node O T) : Part → Node O T
  | chain id => n.withChain id
  | operand id => n.addOperand id
  | operands ids => n.addOperands ids
  | imm value => n.addImm value

/-- The operands among the parts. -/
def uses : Part → List NodeId
  | operand id => [id]
  | operands ids => ids
  | _ => []

def imm? : Part → Option UInt64
  | imm value => some value
  | _ => none

def chain? : Part → Option NodeId
  | chain id => some id
  | _ => none

/-- Operands and constants are kept in the order in which they are given, and the last chain is
kept. -/
theorem foldl_add (parts : List Part) (n : Node O T) :
    parts.foldl add n
      = { n with
          operands := n.operands ++ parts.flatMap uses
          imms := n.imms ++ parts.filterMap imm?
          chain := (parts.filterMap chain?).getLast?.or n.chain } := by
  induction parts generalizing n with
  | nil => simp
  | cons part rest ih =>
      rw [List.foldl_cons, ih]
      cases part with
      | chain id =>
          simp [add, Node.withChain, uses, imm?, chain?, List.filterMap_cons, List.getLast?_cons]
      | operand id => simp [add, Node.addOperand, uses, imm?, chain?, List.filterMap_cons]
      | operands ids => simp [add, Node.addOperands, uses, imm?, chain?, List.filterMap_cons]
      | imm value => simp [add, Node.addImm, uses, imm?, chain?, List.filterMap_cons]

end Part

/-! ### Requests and their effects -/

/-- A request to change a graph. -/
inductive Edit where
  | create (n : IrNode)
  | build (op : Opcode) (type : ValueType) (parts : List Part)
  | loadImm (type : ValueType) (value : UInt64)
  | binary (op : Opcode) (type : ValueType) (lhs rhs : NodeId)
  | setRoot (id : NodeId)
deriving DecidableEq, Repr

/-- What a request comes to: one more node, or another root. -/
inductive Effect where
  | append (n : IrNode)
  | root (id : NodeId)
deriving DecidableEq, Repr

namespace Effect

/-- The nodes that have to be there. -/
def refs : Effect → List NodeId
  | append n => n.refs
  | root id => [id]

/-- Whether an id is needed. -/
def appends : Effect → Bool
  | append _ => true
  | root _ => false

/-- Why an effect is refused, if it is: there is no id to give, or else for the first node that is
not there. -/
def fault? (g : IrGraph) : Effect → Option Fault
  | append n =>
    if g.size < 2 ^ 32 then (n.refs.find? (g.size ≤ ·)).map g.outside else some Graph.idsUsedUp
  | root id => if id < g.size then none else some (g.outside id)

/-- The graph with the effect, and the id of the new node if there is one. -/
def on (g : IrGraph) : Effect → IrGraph × Option NodeId
  | append n => (g.push n, some g.size)
  | root id => ({ g with root := some id }, none)

/-- What can be seen of the effect in the graph `g'` that `g` has become: a new node is at the end
and is answered with its position, and nothing else has changed; a new root is the only change. -/
def Seen (g g' : IrGraph) (answer : Option NodeId) : Effect → Prop
  | append n =>
    answer = some g.size ∧ g'.size = g.size + 1 ∧ g'.node? g.size = some n ∧
      (∀ id < g.size, g'.node? id = g.node? id) ∧ g'.root = g.root
  | root id => answer = none ∧ g'.nodes = g.nodes ∧ g'.root = some id

theorem fault?_append_of_lt {g : IrGraph} (hroom : g.size < 2 ^ 32) (n : IrNode) :
    (append n).fault? g = (n.refs.find? (g.size ≤ ·)).map g.outside :=
  if_pos hroom

theorem fault?_append_of_le {g : IrGraph} (hfull : 2 ^ 32 ≤ g.size) (n : IrNode) :
    (append n).fault? g = some Graph.idsUsedUp :=
  if_neg (Nat.not_lt.mpr hfull)

/-- What is lacking is a node that is referred to, or an id. -/
theorem exists_fault?_iff {g : IrGraph} {effect : Effect} :
    (∃ fault, effect.fault? g = some fault) ↔
      (∃ id ∈ effect.refs, g.size ≤ id) ∨ effect.appends ∧ 2 ^ 32 ≤ g.size := by
  cases effect with
  | root id =>
      by_cases hid : id < g.size
      · simp [fault?, refs, appends, hid]
      · simp [fault?, refs, appends, hid, Nat.not_lt.mp hid]
  | append n =>
      by_cases hroom : g.size < 2 ^ 32
      · have hmissing :
            (n.refs.find? (g.size ≤ ·)).isSome ↔ ∃ id ∈ n.refs, g.size ≤ id := by simp
        rw [fault?_append_of_lt hroom, ← Option.isSome_iff_exists, Option.isSome_map, hmissing]
        exact (or_iff_left fun hfull => absurd hroom (Nat.not_lt.mpr hfull.2)).symm
      · have hfull : 2 ^ 32 ≤ g.size := Nat.not_lt.mp hroom
        rw [fault?_append_of_le hfull]
        exact ⟨fun _ => Or.inr ⟨rfl, hfull⟩, fun _ => ⟨_, rfl⟩⟩

theorem seen_on (g : IrGraph) (effect : Effect) :
    effect.Seen g (effect.on g).1 (effect.on g).2 := by
  cases effect with
  | root id => exact ⟨rfl, rfl, rfl⟩
  | append n =>
      refine ⟨rfl, Graph.size_push, ?_, fun id hid => ?_, rfl⟩
      · exact Graph.node?_push.trans (if_pos rfl)
      · exact Graph.node?_push.trans (if_neg (Nat.ne_of_lt hid))

end Effect

namespace Edit

/-- Do what is requested.  A new node is answered with its id. -/
def apply (g : IrGraph) : Edit → Except Fault (IrGraph × Option NodeId)
  | create n => (g.create n).map (Prod.map id some)
  | build op type parts =>
    (g.create (parts.foldl Part.add { opcode := op, type })).map (Prod.map id some)
  | loadImm type value => (g.loadImm type value).map (Prod.map id some)
  | binary op type lhs rhs => (g.binary op type lhs rhs).map (Prod.map id some)
  | setRoot id => (g.setRoot id).map fun g' => (g', none)

def effect : Edit → Effect
  | create n => .append n
  | build op type parts =>
    .append
      { opcode := op
        type
        operands := parts.flatMap Part.uses
        imms := parts.filterMap Part.imm?
        chain := (parts.filterMap Part.chain?).getLast? }
  | loadImm type value => .append { opcode := .imm, type, imms := [value] }
  | binary op type lhs rhs => .append { opcode := op, type, operands := [lhs, rhs] }
  | setRoot id => .root id

variable (g : IrGraph) (e : Edit)

theorem create_map_eq (n : IrNode) :
    (g.create n).map (Prod.map id some)
      = match (Effect.append n).fault? g with
        | some fault => .error fault
        | none => .ok ((Effect.append n).on g) := by
  by_cases hroom : g.size < 2 ^ 32
  · rw [Graph.create_eq_of_lt hroom, Effect.fault?_append_of_lt hroom]
    cases n.refs.find? (g.size ≤ ·) with
    | none => rfl
    | some missing => rfl
  · have hfull : 2 ^ 32 ≤ g.size := Nat.not_lt.mp hroom
    rw [Graph.create_of_le hfull, Effect.fault?_append_of_le hfull]
    rfl

/-- A request is refused for what its effect lacks, and has its effect if that is nothing. -/
theorem apply_eq :
    e.apply g
      = match e.effect.fault? g with
        | some fault => .error fault
        | none => .ok (e.effect.on g) := by
  cases e with
  | create n => exact create_map_eq g n
  | build op type parts =>
      have hnode : parts.foldl Part.add { opcode := op, type }
          = { opcode := op
              type
              operands := parts.flatMap Part.uses
              imms := parts.filterMap Part.imm?
              chain := (parts.filterMap Part.chain?).getLast? } := by
        rw [Part.foldl_add]
        simp
      simp only [apply, hnode]
      exact create_map_eq g _
  | loadImm type value => exact create_map_eq g { opcode := .imm, type, imms := [value] }
  | binary op type lhs rhs => exact create_map_eq g { opcode := op, type, operands := [lhs, rhs] }
  | setRoot id =>
      simp only [apply, effect, Effect.fault?]
      by_cases hid : id < g.size
      · rw [Graph.setRoot_of_lt hid, if_pos hid]
        rfl
      · rw [Graph.setRoot, if_neg hid, if_neg hid]
        rfl

end Edit

/-! ### Effects in place -/

namespace Effect

/-- Go on only if there is an id for another node. -/
def nextId : EStateM Fault IrGraph NodeId := do
  match (← get).nextId with
  | .ok id => pure id
  | .error fault => throw fault

/-- Go on only if the node is there. -/
def checkRef (id : NodeId) : EStateM Fault IrGraph Unit := do
  let g ← get
  if id < g.size then pure () else throw (g.outside id)

def checkRefs : List NodeId → EStateM Fault IrGraph Unit
  | [] => pure ()
  | id :: rest => do
    checkRef id
    checkRefs rest

/-- The effect as a program that changes the graph it finds: the id comes first, operands are looked
at one by one, then the chain, and the node is appended last. -/
def perform : Effect → EStateM Fault IrGraph (Option NodeId)
  | append n => do
    let id ← nextId
    checkRefs n.operands
    checkRefs n.chain.toList
    modify fun g => g.push n
    return some id
  | root id => do
    checkRef id
    modify fun g => { g with root := some id }
    return none

variable {g : IrGraph} {id : NodeId}

theorem nextId_of_lt (h : g.size < 2 ^ 32) : nextId g = .ok g.size g := by
  show (match g.nextId with | .ok id => pure id | .error fault => throw fault : EStateM _ _ _) g = _
  rw [Graph.nextId_of_lt h]
  rfl

theorem nextId_of_le (h : 2 ^ 32 ≤ g.size) : nextId g = .error Graph.idsUsedUp g := by
  show (match g.nextId with | .ok id => pure id | .error fault => throw fault : EStateM _ _ _) g = _
  rw [Graph.nextId_of_le h]
  rfl

theorem checkRef_of_lt (h : id < g.size) : checkRef id g = .ok () g := by
  show (if id < g.size then pure () else throw (g.outside id) : EStateM _ _ _) g = _
  rw [if_pos h]
  rfl

theorem checkRef_of_le (h : g.size ≤ id) : checkRef id g = .error (g.outside id) g := by
  show (if id < g.size then pure () else throw (g.outside id) : EStateM _ _ _) g = _
  rw [if_neg (Nat.not_lt.mpr h)]
  rfl

/-- Looking at the nodes does not change the graph, however far it gets. -/
theorem checkRefs_eq (ids : List NodeId) :
    checkRefs ids g
      = match ids.find? (g.size ≤ ·) with
        | some id => .error (g.outside id) g
        | none => .ok () g := by
  induction ids with
  | nil => rfl
  | cons id rest ih =>
      show EStateM.bind (checkRef id) (fun _ => checkRefs rest) g = _
      by_cases hid : id < g.size
      · rw [EStateM.bind, checkRef_of_lt hid, List.find?_cons_of_neg (by simp [hid])]
        exact ih
      · have hle : g.size ≤ id := Nat.not_lt.mp hid
        rw [EStateM.bind, checkRef_of_le hle, List.find?_cons_of_pos (by simp [hle])]

/-- In place, too, an effect fails for what it lacks, and nothing has changed by then. -/
theorem perform_eq (effect : Effect) :
    effect.perform g
      = match effect.fault? g with
        | some fault => .error fault g
        | none => .ok (effect.on g).2 (effect.on g).1 := by
  cases effect with
  | append n =>
      show EStateM.bind nextId (fun id => EStateM.bind (checkRefs n.operands) fun _ =>
        EStateM.bind (checkRefs n.chain.toList) fun _ => do
          modify fun g => g.push n
          return some id) g = _
      by_cases hroom : g.size < 2 ^ 32
      · rw [EStateM.bind, nextId_of_lt hroom, fault?_append_of_lt hroom, Node.refs,
          List.find?_append]
        show EStateM.bind (checkRefs n.operands) _ g = _
        rw [EStateM.bind, checkRefs_eq]
        cases n.operands.find? (g.size ≤ ·) with
        | some missing => rfl
        | none =>
            rw [Option.none_or]
            show EStateM.bind (checkRefs n.chain.toList) _ g = _
            rw [EStateM.bind, checkRefs_eq]
            cases n.chain.toList.find? (g.size ≤ ·) with
            | some missing => rfl
            | none => rfl
      · have hfull : 2 ^ 32 ≤ g.size := Nat.not_lt.mp hroom
        rw [EStateM.bind, nextId_of_le hfull, fault?_append_of_le hfull]
  | root id =>
      show EStateM.bind (checkRef id) (fun _ => do
          modify fun g => { g with root := some id }
          return none) g = _
      rw [EStateM.bind, fault?]
      by_cases hid : id < g.size
      · rw [checkRef_of_lt hid, if_pos hid]
        rfl
      · rw [checkRef_of_le (Nat.not_lt.mp hid), if_neg hid]

end Effect

/-! ### One request -/

namespace Edit

/-- What is left in place of an operation that gives a new graph back: the new graph, or the graph
as it was. -/
def settled (g : IrGraph) :
    Except Fault (IrGraph × Option NodeId) → EStateM.Result Fault IrGraph (Option NodeId)
  | .ok (g', answer) => .ok answer g'
  | .error fault => .error fault g

/-- The graph that a request leaves behind in place, whether or not it succeeds. -/
def after (g : IrGraph) (e : Edit) : IrGraph :=
  match e.effect.perform g with
  | .ok _ g' => g'
  | .error _ g' => g'

/-- The id that a request is answered with, if there is one. -/
def id? (g : IrGraph) (e : Edit) : Option NodeId :=
  match e.apply g with
  | .ok (_, answer) => answer
  | .error _ => none

/-- All ids that a request gives, also those that come to nothing. -/
def named : Edit → List NodeId
  | create n => n.refs
  | build _ _ parts => parts.flatMap fun part => part.uses ++ part.chain?.toList
  | loadImm .. => []
  | binary _ _ lhs rhs => [lhs, rhs]
  | setRoot id => [id]

variable {g : IrGraph} {e : Edit}

theorem perform_effect (g : IrGraph) (e : Edit) : e.effect.perform g = settled g (e.apply g) := by
  rw [Effect.perform_eq, apply_eq]
  cases e.effect.fault? g with
  | some fault => rfl
  | none => rfl

theorem mem_named_of_mem_refs {id : NodeId} (h : id ∈ e.effect.refs) : id ∈ e.named := by
  cases e with
  | create n => exact h
  | loadImm type value => exact h
  | binary op type lhs rhs => exact h
  | setRoot id => exact h
  | build op type parts =>
      simp only [named, List.mem_flatMap, List.mem_append, Option.mem_toList]
      rcases List.mem_append.mp h with huse | hchain
      · obtain ⟨part, hpart, hmem⟩ := List.mem_flatMap.mp huse
        exact ⟨part, hpart, Or.inl hmem⟩
      · have hmem := List.mem_of_getLast? (Option.mem_toList.mp hchain)
        obtain ⟨part, hpart, heq⟩ := List.mem_filterMap.mp hmem
        exact ⟨part, hpart, Or.inr heq⟩

/-- What a request can do: it is refused and leaves the graph alone, or it has its effect. -/
theorem apply_cases (g : IrGraph) (e : Edit) :
    (∃ fault, e.effect.fault? g = some fault ∧ e.apply g = .error fault) ∧ e.after g = g ∨
      e.effect.fault? g = none ∧ e.apply g = .ok (e.effect.on g) ∧
        e.after g = (e.effect.on g).1 := by
  unfold after
  rw [Effect.perform_eq, apply_eq]
  cases e.effect.fault? g with
  | some fault => exact Or.inl ⟨⟨fault, rfl, rfl⟩, rfl⟩
  | none => exact Or.inr ⟨rfl, rfl, rfl⟩

theorem exists_error_iff :
    (∃ fault, e.apply g = .error fault) ↔
      (∃ id ∈ e.effect.refs, g.size ≤ id) ∨ e.effect.appends ∧ 2 ^ 32 ≤ g.size := by
  rw [← Effect.exists_fault?_iff]
  rcases apply_cases g e with ⟨⟨fault, hfault, herror⟩, -⟩ | ⟨hnone, hok, -⟩
  · exact ⟨fun _ => ⟨fault, hfault⟩, fun _ => ⟨fault, herror⟩⟩
  · constructor
    · rintro ⟨fault, herror⟩
      cases hok.symm.trans herror
    · rintro ⟨fault, hfault⟩
      cases hnone.symm.trans hfault

/-- A request that is not refused refers to nodes only, and has an id if it needs one. -/
theorem of_apply_ok {r : IrGraph × Option NodeId} (h : e.apply g = .ok r) :
    (∀ id ∈ e.effect.refs, id < g.size) ∧ (e.effect.appends → g.size < 2 ^ 32) := by
  have hfine : ¬∃ fault, e.apply g = .error fault := by
    rintro ⟨fault, herror⟩
    cases h.symm.trans herror
  rw [exists_error_iff] at hfine
  refine ⟨fun id hid => Nat.not_le.mp fun hle => ?_, fun happends => Nat.not_le.mp fun hfull => ?_⟩
  · exact hfine (Or.inl ⟨id, hid, hle⟩)
  · exact hfine (Or.inr ⟨happends, hfull⟩)

theorem after_eq (g : IrGraph) (e : Edit) :
    e.after g = match e.apply g with
      | .ok (g', _) => g'
      | .error _ => g := by
  unfold after
  rw [perform_effect]
  cases e.apply g with
  | ok r => rfl
  | error fault => rfl

theorem ordered_after (h : g.Ordered) : (e.after g).Ordered := by
  rcases apply_cases g e with ⟨-, hafter⟩ | ⟨-, hok, hafter⟩
  · rw [hafter]
    exact h
  · obtain ⟨hin, -⟩ := of_apply_ok hok
    rw [hafter]
    cases heffect : e.effect with
    | append n => exact h.push fun id hid => hin id (by rw [heffect]; exact hid)
    | root id => exact h.withRoot (hin id (by rw [heffect]; exact List.mem_singleton_self id))

/-- A graph never has more nodes than there are ids. -/
theorem size_after_le (h : g.size ≤ 2 ^ 32) : (e.after g).size ≤ 2 ^ 32 := by
  rcases apply_cases g e with ⟨-, hafter⟩ | ⟨-, hok, hafter⟩
  · rw [hafter]
    exact h
  · obtain ⟨-, hroom⟩ := of_apply_ok hok
    rw [hafter]
    cases heffect : e.effect with
    | root id => exact h
    | append n =>
        rw [heffect] at hroom
        show (g.push n).size ≤ 2 ^ 32
        rw [Graph.size_push]
        exact hroom rfl

/-- A request is answered with the next id, and only if there is one more node. -/
theorem range_append_id? (g : IrGraph) (e : Edit) :
    List.range g.size ++ (e.id? g).toList = List.range (e.after g).size := by
  unfold id?
  rcases apply_cases g e with ⟨⟨fault, -, herror⟩, hafter⟩ | ⟨-, hok, hafter⟩
  · rw [herror, hafter]
    exact List.append_nil _
  · rw [hok, hafter]
    cases e.effect with
    | append n =>
        show List.range g.size ++ [g.size] = List.range (g.push n).size
        rw [Graph.size_push, List.range_succ]
    | root id => exact List.append_nil _

theorem size_le_after (g : IrGraph) (e : Edit) : g.size ≤ (e.after g).size := by
  have hrange := congrArg List.length (range_append_id? g e)
  rw [List.length_append, List.length_range, List.length_range] at hrange
  omega

theorem node?_after {id : NodeId} (hid : id < g.size) : (e.after g).node? id = g.node? id := by
  rcases apply_cases g e with ⟨-, hafter⟩ | ⟨-, -, hafter⟩
  · rw [hafter]
  · rw [hafter]
    cases e.effect with
    | append n => exact Graph.node?_push.trans (if_neg (Nat.ne_of_lt hid))
    | root id => rfl

/-! ### One request after another -/

/-- The graph that requests leave behind. -/
def afterAll (g : IrGraph) (edits : List Edit) : IrGraph := edits.foldl after g

/-- The ids that requests are answered with. -/
def ids (g : IrGraph) : List Edit → List NodeId
  | [] => []
  | e :: rest => (e.id? g).toList ++ ids (e.after g) rest

theorem ordered_afterAll (h : g.Ordered) (edits : List Edit) : (afterAll g edits).Ordered := by
  induction edits generalizing g with
  | nil => exact h
  | cons e rest ih => exact ih (ordered_after h)

theorem size_afterAll_le (h : g.size ≤ 2 ^ 32) (edits : List Edit) :
    (afterAll g edits).size ≤ 2 ^ 32 := by
  induction edits generalizing g with
  | nil => exact h
  | cons e rest ih => exact ih (size_after_le h)

/-- Ids are handed out in order, one for each node. -/
theorem range_append_ids (g : IrGraph) (edits : List Edit) :
    List.range g.size ++ ids g edits = List.range (afterAll g edits).size := by
  induction edits generalizing g with
  | nil => exact List.append_nil _
  | cons e rest ih =>
      rw [ids, ← List.append_assoc, range_append_id?]
      exact ih (e.after g)

/-- Nodes stay what they are. -/
theorem node?_afterAll {id : NodeId} (edits : List Edit) (hid : id < g.size) :
    (afterAll g edits).node? id = g.node? id := by
  induction edits generalizing g with
  | nil => rfl
  | cons e rest ih =>
      have hlt : id < (e.after g).size := Nat.lt_of_lt_of_le hid (size_le_after g e)
      exact (ih hlt).trans (node?_after hid)

/--
**Graphs that are built by requests.**  Let any requests be made of the empty graph, successful or
not, and let `g` be the graph that they leave.

* In `g`, operands and chains lead to nodes before, and the root is a node.  The ids handed out are
  the positions in the row, in order, and there are at most 2 ^ 32 of them.  No later request
  changes a node.
* A further request is refused just if an operand, the last chain or the root that it gives is not
  a node of `g`, or if it needs an id and all are used up.  So where there are fewer than 2 ^ 32
  nodes, a refused request has named something that is not there.  It leaves the graph as it was,
  also where graphs are changed in place.
* If it is not refused, it adds a node or sets the root, and changes nothing else.  The node has
  its operands and constants in the order in which they were given, and the last chain.
-/
theorem edits_ordered (edits : List Edit) :
    let g := afterAll Graph.empty edits
    g.Ordered ∧
      g.size ≤ 2 ^ 32 ∧
      ids Graph.empty edits = List.range g.size ∧
      (∀ later, ∀ id < g.size, (afterAll g later).node? id = g.node? id) ∧
      ∀ e : Edit,
        e.effect.perform g = settled g (e.apply g) ∧
        ((∃ fault, e.apply g = .error fault) ↔
          (∃ id ∈ e.effect.refs, g.size ≤ id) ∨ e.effect.appends ∧ g.size = 2 ^ 32) ∧
        ((∃ fault, e.apply g = .error fault) →
          e.after g = g ∧ (g.size < 2 ^ 32 → ∃ id ∈ e.named, g.size ≤ id)) ∧
        ∀ g' answer, e.apply g = .ok (g', answer) →
          e.after g = g' ∧ e.effect.Seen g g' answer := by
  intro g
  have hsize : g.size ≤ 2 ^ 32 := size_afterAll_le (Nat.zero_le _) edits
  refine ⟨ordered_afterAll Graph.ordered_empty edits, hsize, range_append_ids Graph.empty edits,
    fun later id hid => node?_afterAll later hid, fun e => ?_⟩
  refine ⟨perform_effect g e, ?_, fun hfails => ⟨?_, fun hroom => ?_⟩, fun g' answer hok => ?_⟩
  · have hfull : 2 ^ 32 ≤ g.size ↔ g.size = 2 ^ 32 :=
      ⟨fun h => Nat.le_antisymm hsize h, fun h => Nat.le_of_eq h.symm⟩
    rw [exists_error_iff, hfull]
  · obtain ⟨fault, herror⟩ := hfails
    rw [after_eq, herror]
  · rcases exists_error_iff.mp hfails with ⟨id, hid, hle⟩ | ⟨-, hfull⟩
    · exact ⟨id, mem_named_of_mem_refs hid, hle⟩
    · exact absurd hroom (Nat.not_lt.mpr hfull)
  · refine ⟨by rw [after_eq, hok], ?_⟩
    rcases apply_cases g e with ⟨⟨fault, -, herror⟩, -⟩ | ⟨-, hon, -⟩
    · cases hok.symm.trans herror
    · have heq : e.effect.on g = (g', answer) := Except.ok.inj (hon.symm.trans hok)
      have hseen := Effect.seen_on g e.effect
      rw [heq] at hseen
      exact hseen

/-- Five of nine requests are refused: a root before there is a node, an operation on itself, a
node chained to itself, a last chain out of range after one in range, and the id after the last for
a root.  A chain out of range before one in range is not looked at. -/
theorem edits_ordered_refused :
    let edits : List Edit :=
      [.setRoot 0,
        .loadImm (.prim .u8) 7,
        .binary .add (.prim .u8) 0 1,
        .build .sub (.prim .u16) [.operand 0, .chain 9, .imm 5, .operands [0, 0], .chain 0, .imm 4],
        .create { opcode := .mul, type := .prim .u8, operands := [0, 1], chain := some 2 },
        .setRoot 1,
        .build .add (.prim .u8) [.chain 0, .operands [1, 1], .chain 2],
        .create { opcode := .mul, type := .prim .u8, operands := [1, 0], chain := some 1 },
        .setRoot 3]
    let g : IrGraph :=
      { nodes :=
          #[{ opcode := .imm, type := .prim .u8, imms := [7] },
            { opcode := .sub, type := .prim .u16, operands := [0, 0, 0], imms := [5, 4],
              chain := some 0 },
            { opcode := .mul, type := .prim .u8, operands := [1, 0], chain := some 1 }]
        root := some 1 }
    let e : Edit := .build .add (.prim .ptr) [.operand 2, .operands [0], .imm 1, .chain 2]
    afterAll Graph.empty edits = g ∧ g.Ordered ∧ ids Graph.empty edits = [0, 1, 2] ∧
      (Edit.setRoot 3).after g = g ∧
      ∃ g' answer, e.apply g = .ok (g', answer) ∧ e.after g = g' ∧ answer = some 3 ∧
        g'.node? 3
          = some
            { opcode := .add, type := .prim .ptr, operands := [2, 0], imms := [1],
              chain := some 2 } ∧
        (∀ id < 3, g'.node? id = g.node? id) ∧ g'.root = some 1 := by
  intro edits g e
  have hrun : afterAll Graph.empty edits = g := by rfl
  obtain ⟨hordered, -, hids, -, hnext⟩ := edits_ordered edits
  rw [hrun] at hordered hids hnext
  obtain ⟨-, -, hrefused, -⟩ := hnext (.setRoot 3)
  obtain ⟨-, -, -, hdone⟩ := hnext e
  obtain ⟨hafter, hanswer, -, hnode, hothers, hroot⟩ := hdone _ _ rfl
  exact ⟨hrun, hordered, hids, (hrefused ⟨_, rfl⟩).1, _, _, rfl, hafter, hanswer, hnode, hothers,
    hroot⟩

/-- To name a node that is not there is not enough to be refused, however few nodes there are: a
chain may be replaced by one that is. -/
theorem build_replaced_chain :
    ¬∀ (edits : List Edit) (e : Edit), (afterAll Graph.empty edits).size < 2 ^ 32 →
      ((∃ fault, e.apply (afterAll Graph.empty edits) = .error fault) ↔
        ∃ id ∈ e.named, (afterAll Graph.empty edits).size ≤ id) := by
  intro h
  obtain ⟨fault, herror⟩ :=
    (h [.loadImm (.prim .u8) 1] (.build .imm (.prim .u8) [.chain 5, .chain 0]) (by decide)).mpr
      ⟨5, by decide, by decide⟩
  cases herror

end Edit

end Codegen
