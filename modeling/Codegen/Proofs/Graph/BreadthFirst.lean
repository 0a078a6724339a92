/-
The walk from the root is breadth-first.

A node may stand in the queue several times, once for each time it is met as an operand,
and it is listed when the first of them comes up.  So the walk is best described by the
line of everything that is ever put in the queue: the root, then the operands of the first
node listed, then those of the second, and so on.  At any time the line has been taken up
to some place, and the rest of it is the queue; what has been listed is what has been
taken, each node once, in the order in which the line brings it first.  `Underway` says
this, and both kinds of step keep it.

When the queue is empty the whole line has been taken, and the rest follows from there.
The listing holds the operands of whatever it holds, so it holds all that the root
reaches.  Nodes are listed in the order in which they are first met.  And since a node is
met no later than any node that uses it is listed, one that is near the root cannot come
after one that is further away: the proof goes along a shortest way to the later of two
nodes, and finds at each of its steps a node not further from the root that leads to the
earlier one.
-/
import Codegen.Ir
import Codegen.Proofs.Graph.Reach
import Codegen.Proofs.Graph.Walk
import Mathlib.Order.Lattice.Nat

namespace Codegen

namespace Graph

variable {O T : Type} {g : Graph O T} {a b root id : NodeId} {n : Node O T} {k : Nat}
  {ids listed taken queue rest : List NodeId} {seen : Array Bool}

/-- The operands of a node; none if there is no such node. -/
def operandsOf (g : Graph O T) (id : NodeId) : List NodeId := (g.node? id).elim [] (·.operands)

theorem operandsOf_eq (hn : g.node? id = some n) : g.operandsOf id = n.operands := by
  rw [operandsOf, hn]
  rfl

theorem uses_iff : g.Uses a b ↔ b ∈ g.operandsOf a := by
  unfold Uses operandsOf
  cases g.node? a with
  | none => simp
  | some n => simp

/-! ### How far away a node is -/

/-- One comes from `a` to a node along a number of operands. -/
inductive Steps (g : Graph O T) (a : NodeId) : Nat → NodeId → Prop
  | refl : Steps g a 0 a
  | tail {k : Nat} {b c : NodeId} (h : Steps g a k b) (huses : g.Uses b c) : Steps g a (k + 1) c

theorem reaches_iff_exists_steps : g.Reaches a b ↔ ∃ k, g.Steps a k b := by
  constructor
  · intro h
    induction h with
    | refl => exact ⟨0, Steps.refl⟩
    | tail _ huses ih =>
        obtain ⟨k, hk⟩ := ih
        exact ⟨k + 1, hk.tail huses⟩
  · rintro ⟨k, hk⟩
    induction hk with
    | refl => exact Reaches.refl g a
    | tail _ huses ih => exact Relation.ReflTransGen.tail ih huses

/-- The length of a shortest way from `a` to `b` along operands. -/
noncomputable def distance (g : Graph O T) (a b : NodeId) : Nat := sInf { k | g.Steps a k b }

theorem Reaches.steps_distance (h : g.Reaches a b) : g.Steps a (g.distance a b) b :=
  Nat.sInf_mem (reaches_iff_exists_steps.mp h)

theorem Steps.distance_le (h : g.Steps a k b) : g.distance a b ≤ k := Nat.sInf_le h

/-! ### What a breadth-first listing is -/

/-- Where a listing first meets a node as an operand: the position of the first listed node that
uses it, and its first position among the operands of that node. -/
def discovery (g : Graph O T) (ids : List NodeId) (id : NodeId) : Nat × Nat :=
  (ids.findIdx (id ∈ g.operandsOf ·),
    match ids.find? (id ∈ g.operandsOf ·) with
    | some user => (g.operandsOf user).idxOf id
    | none => 0)

/-- The ids are those that `root` reaches, listed as a breadth-first search finds them. -/
structure BreadthFirst (g : Graph O T) (root : NodeId) (ids : List NodeId) : Prop where
  nodup : ids.Nodup
  mem_iff : ∀ id, id ∈ ids ↔ g.Reaches root id
  head : ids.head? = some root
  distance : ids.Pairwise fun a b => g.distance root a ≤ g.distance root b
  discovery : ids.tail.Pairwise fun a b =>
    Prod.Lex (· < ·) (· < ·) (g.discovery ids a) (g.discovery ids b)

/-- Somewhere a node that `root` reaches has an operand that is no node. -/
def Dangles (g : Graph O T) (root : NodeId) : Prop :=
  ∃ id n, g.Reaches root id ∧ g.node? id = some n ∧ ∃ operand ∈ n.operands, g.size ≤ operand

/-! ### The line and how far it has been taken -/

/-- Everything that is put in the queue when `ids` are listed, in order. -/
def line (g : Graph O T) (root : NodeId) (ids : List NodeId) : List NodeId :=
  root :: ids.flatMap g.operandsOf

/-- What the walk knows while it runs.  The lists are ids that have been listed, the part of the line
that has been taken, and the part that still waits. -/
structure Underway (g : Graph O T) (root : NodeId) (seen : Array Bool)
    (listed taken queue : List NodeId) : Prop where
  line : g.line root listed = taken ++ queue
  marked : ∀ id, seen[id]? = some true ↔ id ∈ listed
  mem_taken : ∀ id, id ∈ listed ↔ id ∈ taken
  order : listed.Pairwise fun a b => taken.idxOf a < taken.idxOf b
  reached : ∀ id ∈ listed, g.Reaches root id

theorem underway_start (g : Graph O T) (root : NodeId) :
    g.Underway root (Array.replicate g.size false) [] [] [root] where
  line := rfl
  marked := by
    intro id
    simp [Array.getElem?_replicate]
  mem_taken := fun _ => Iff.rfl
  order := List.Pairwise.nil
  reached := fun _ hid => absurd hid List.not_mem_nil

/-- Whatever waits is reached. -/
theorem Underway.reached_queue (h : g.Underway root seen listed taken queue) (hid : id ∈ queue) :
    g.Reaches root id := by
  have hline : id ∈ g.line root listed := h.line ▸ List.mem_append_right taken hid
  rcases List.mem_cons.mp hline with rfl | hmem
  · exact Reaches.refl g id
  · obtain ⟨user, huser, hoperand⟩ := List.mem_flatMap.mp hmem
    exact Relation.ReflTransGen.tail (h.reached user huser) (uses_iff.mpr hoperand)

/-- To take one more changes nothing about what was taken first. -/
theorem order_concat (hmem : ∀ id, id ∈ listed ↔ id ∈ taken)
    (horder : listed.Pairwise fun a b => taken.idxOf a < taken.idxOf b) (id : NodeId) :
    listed.Pairwise fun a b => (taken ++ [id]).idxOf a < (taken ++ [id]).idxOf b := by
  refine horder.imp_of_mem fun ha hb hlt => ?_
  rwa [List.idxOf_append, List.idxOf_append, if_pos ((hmem _).mp ha), if_pos ((hmem _).mp hb)]

/-- A node that was listed before is passed over. -/
theorem Underway.skip (h : g.Underway root seen listed taken (id :: rest)) (hid : id ∈ listed) :
    g.Underway root seen listed (taken ++ [id]) rest where
  line := by rw [h.line, List.append_assoc, List.singleton_append]
  marked := h.marked
  mem_taken := by
    intro i
    rw [h.mem_taken i, List.mem_append, List.mem_singleton]
    constructor
    · exact Or.inl
    · rintro (hi | rfl)
      · exact hi
      · exact (h.mem_taken i).mp hid
  order := order_concat h.mem_taken h.order id
  reached := h.reached

/-- A node that was not is listed, and its operands are put in the queue. -/
theorem Underway.list (h : g.Underway root seen listed taken (id :: rest)) (hid : id ∉ listed)
    (hn : g.node? id = some n) (hseen : id < seen.size) :
    g.Underway root (seen.set id true) (listed ++ [id]) (taken ++ [id]) (rest ++ n.operands) where
  line := by
    have hline : g.line root (listed ++ [id]) = g.line root listed ++ n.operands := by
      rw [Graph.line, Graph.line, List.flatMap_append, List.flatMap_singleton, operandsOf_eq hn,
        List.cons_append]
    rw [hline, h.line]
    simp only [List.append_assoc, List.cons_append, List.nil_append]
  marked := by
    intro i
    rw [Array.getElem?_set, List.mem_append, List.mem_singleton, ← h.marked i]
    by_cases hi : id = i
    · simp [hi]
    · simp [hi, Ne.symm hi]
  mem_taken := by
    intro i
    rw [List.mem_append, List.mem_append, h.mem_taken i]
  order := by
    have hnew : id ∉ taken := fun hmem => hid ((h.mem_taken id).mpr hmem)
    refine List.pairwise_append.mpr
      ⟨order_concat h.mem_taken h.order id, List.pairwise_singleton .., ?_⟩
    intro i hi j hj
    rw [List.mem_singleton.mp hj]
    have htaken := (h.mem_taken i).mp hi
    rw [List.idxOf_append, List.idxOf_append, if_pos htaken, if_neg hnew]
    exact Nat.lt_of_lt_of_le (List.idxOf_lt_length_of_mem htaken) (Nat.le_add_left ..)
  reached := by
    intro i hi
    rcases List.mem_append.mp hi with hold | hnew
    · exact h.reached i hold
    · rw [List.mem_singleton.mp hnew]
      exact h.reached_queue List.mem_cons_self

/-- A walk that comes to its end has taken the whole line. -/
theorem Underway.walkFrom {visited : List (NodeId × Node O T)}
    (h : g.Underway root seen listed taken queue) (hwalk : g.walkFrom seen queue = .ok visited) :
    ∃ seen' taken', g.Underway root seen' (listed ++ visited.map (·.1)) taken' [] := by
  fun_induction Graph.walkFrom g seen queue generalizing listed taken visited with
  | case1 seen =>
      cases hwalk
      exact ⟨seen, taken, by rwa [List.map_nil, List.append_nil]⟩
  | case2 seen id rest hlt hseen ih =>
      have hid : id ∈ listed := (h.marked id).mp (by rw [Array.getElem?_eq_getElem hlt, hseen])
      exact ih (h.skip hid) hwalk
  | case3 seen id rest hlt hseen ih =>
      have hid : id ∉ listed := by
        intro hmem
        have hmarked := (h.marked id).mpr hmem
        rw [Array.getElem?_eq_getElem hlt] at hmarked
        exact hseen (Option.some.inj hmarked)
      obtain ⟨n, hn, hwalk⟩ := of_bind_eq_ok hwalk
      obtain ⟨later, hlater, hwalk⟩ := of_bind_eq_ok hwalk
      cases hwalk
      obtain ⟨seen', taken', hend⟩ := ih n (h.list hid (of_node_eq_ok hn) hlt) hlater
      refine ⟨seen', taken', ?_⟩
      rwa [List.append_assoc] at hend
  | case4 seen id rest hlt => cases hwalk

/-! ### When the whole line has been taken -/

/-- All that has been listed is the line, and each node stands where the line first brings it. -/
structure Complete (g : Graph O T) (root : NodeId) (ids : List NodeId) : Prop where
  mem_line : ∀ id, id ∈ ids ↔ id ∈ g.line root ids
  order : ids.Pairwise fun a b => (g.line root ids).idxOf a < (g.line root ids).idxOf b
  reached : ∀ id ∈ ids, g.Reaches root id

theorem Underway.complete (h : g.Underway root seen listed taken []) : g.Complete root listed := by
  have hline : g.line root listed = taken := by rw [h.line, List.append_nil]
  refine ⟨?_, ?_, h.reached⟩
  · rw [hline]
    exact h.mem_taken
  · rw [hline]
    exact h.order

namespace Complete

variable (h : g.Complete root ids)

include h

theorem root_mem : root ∈ ids := (h.mem_line root).mpr List.mem_cons_self

theorem mem_of_uses (ha : a ∈ ids) (huses : g.Uses a b) : b ∈ ids :=
  (h.mem_line b).mpr
    (List.mem_cons_of_mem root (List.mem_flatMap.mpr ⟨a, ha, uses_iff.mp huses⟩))

theorem mem_iff (id : NodeId) : id ∈ ids ↔ g.Reaches root id := by
  refine ⟨h.reached id, fun hreaches => ?_⟩
  induction hreaches with
  | refl => exact h.root_mem
  | tail _ huses ih => exact h.mem_of_uses ih huses

theorem nodup : ids.Nodup := by
  refine h.order.imp ?_
  rintro a b hlt rfl
  exact Nat.lt_irrefl _ hlt

omit h in
theorem idxOf_root : (g.line root ids).idxOf root = 0 := List.idxOf_cons_self

omit h in
theorem idxOf_line (hid : id ≠ root) :
    (g.line root ids).idxOf id = (ids.flatMap g.operandsOf).idxOf id + 1 :=
  List.idxOf_cons_ne _ hid.symm

/-- The root is listed first. -/
theorem exists_cons : ∃ later, ids = root :: later := by
  have horder := h.order
  have hroot := h.root_mem
  generalize hline : g.line root ids = whole at horder
  rcases ids with _ | ⟨first, later⟩
  · cases hroot
  · rcases List.mem_cons.mp hroot with rfl | hlater
    · exact ⟨later, rfl⟩
    · have hlt := (List.pairwise_cons.mp horder).1 root hlater
      rw [← hline, idxOf_root] at hlt
      exact absurd hlt (Nat.not_lt_zero _)

/-! ### Nearer nodes come first -/

/-- A node that comes no later than an operand of `user` is used by a node that comes no later than
`user`. -/
theorem exists_user_of_le {user : NodeId} (hroot : a ≠ root) (huser : user ∈ ids)
    (huses : g.Uses user b) (hle : (g.line root ids).idxOf a ≤ (g.line root ids).idxOf b) :
    ∃ first ∈ ids, g.Uses first a ∧
      (g.line root ids).idxOf first ≤ (g.line root ids).idxOf user := by
  obtain ⟨before, after, hsplit⟩ := List.append_of_mem huser
  have hflat : ids.flatMap g.operandsOf
      = (before.flatMap g.operandsOf ++ g.operandsOf user) ++ after.flatMap g.operandsOf := by
    rw [hsplit, List.flatMap_append, List.flatMap_cons, List.append_assoc]
  -- Up to the operands of `user` the line brings `b`, and so it brings `a`.
  have hb : b ∈ before.flatMap g.operandsOf ++ g.operandsOf user :=
    List.mem_append_right _ (uses_iff.mp huses)
  have ha : a ∈ before.flatMap g.operandsOf ++ g.operandsOf user := by
    have hbound : (g.line root ids).idxOf b
        ≤ (before.flatMap g.operandsOf ++ g.operandsOf user).length := by
      rw [line, List.idxOf_cons, hflat, List.idxOf_append, if_pos hb]
      cases root == b
      · exact List.idxOf_lt_length_of_mem hb
      · exact Nat.zero_le _
    rw [idxOf_line hroot, hflat, List.idxOf_append] at hle
    by_contra hnot
    rw [if_neg hnot] at hle
    omega
  rcases List.mem_append.mp ha with hbefore | hhere
  · obtain ⟨first, hfirst, hmem⟩ := List.mem_flatMap.mp hbefore
    have horder := h.order
    generalize g.line root ids = whole at horder ⊢
    rw [hsplit] at horder ⊢
    have hlt := (List.pairwise_append.mp horder).2.2 first hfirst user List.mem_cons_self
    exact ⟨first, List.mem_append_left _ hfirst, uses_iff.mpr hmem, Nat.le_of_lt hlt⟩
  · exact ⟨user, huser, uses_iff.mpr hhere, Nat.le_refl _⟩

/-- A node that comes no later than the end of a way is no further from the root than the way is
long. -/
theorem distance_le (hway : g.Steps root k b) :
    ∀ {a}, a ∈ ids → (g.line root ids).idxOf a ≤ (g.line root ids).idxOf b →
      g.distance root a ≤ k := by
  induction hway with
  | refl =>
      intro a _ hle
      rw [idxOf_root] at hle
      by_cases hroot : a = root
      · rw [hroot]
        exact Steps.refl.distance_le
      · rw [idxOf_line hroot] at hle
        omega
  | @tail k user b hway huses ih =>
      intro a ha hle
      by_cases hroot : a = root
      · rw [hroot]
        exact Nat.le_trans Steps.refl.distance_le (Nat.zero_le _)
      · have huser : user ∈ ids :=
          (h.mem_iff user).mpr (reaches_iff_exists_steps.mpr ⟨k, hway⟩)
        obtain ⟨first, hfirst, huses', hbefore⟩ := h.exists_user_of_le hroot huser huses hle
        have hnear : g.distance root first ≤ k := ih hfirst hbefore
        have hsteps := (h.reached first hfirst).steps_distance
        exact Nat.le_trans (hsteps.tail huses').distance_le (Nat.succ_le_succ hnear)

theorem pairwise_distance :
    ids.Pairwise fun a b => g.distance root a ≤ g.distance root b := by
  refine h.order.imp_of_mem fun ha hb hlt => ?_
  exact h.distance_le (h.reached _ hb).steps_distance ha (Nat.le_of_lt hlt)

end Complete

/-! ### Nodes are listed as they are met -/

theorem discovery_cons_of_mem {user : NodeId} (h : id ∈ g.operandsOf user) :
    g.discovery (user :: ids) id = (0, (g.operandsOf user).idxOf id) := by
  simp [discovery, List.findIdx_cons, h]

theorem discovery_cons_of_not_mem {user : NodeId} (h : id ∉ g.operandsOf user) :
    g.discovery (user :: ids) id = ((g.discovery ids id).1 + 1, (g.discovery ids id).2) := by
  simp [discovery, List.findIdx_cons, h]

/-- What the operands of the listed nodes bring earlier is met earlier. -/
theorem discovery_lt (h : (ids.flatMap g.operandsOf).idxOf a < (ids.flatMap g.operandsOf).idxOf b) :
    Prod.Lex (· < ·) (· < ·) (g.discovery ids a) (g.discovery ids b) := by
  induction ids with
  | nil => exact absurd h (Nat.lt_irrefl _)
  | cons user ids ih =>
      rw [List.flatMap_cons, List.idxOf_append, List.idxOf_append] at h
      by_cases ha : a ∈ g.operandsOf user
      · rw [discovery_cons_of_mem ha]
        by_cases hb : b ∈ g.operandsOf user
        · rw [if_pos ha, if_pos hb] at h
          rw [discovery_cons_of_mem hb]
          exact Prod.Lex.right _ h
        · rw [discovery_cons_of_not_mem hb]
          exact Prod.Lex.left _ _ (Nat.succ_pos _)
      · have hb : b ∉ g.operandsOf user := by
          intro hb
          rw [if_neg ha, if_pos hb] at h
          have hlt := List.idxOf_lt_length_of_mem hb
          omega
        rw [if_neg ha, if_neg hb] at h
        rw [discovery_cons_of_not_mem ha, discovery_cons_of_not_mem hb]
        rcases Prod.lex_def.mp (ih (Nat.lt_of_add_lt_add_right h)) with hfirst | ⟨hsame, hsecond⟩
        · exact Prod.Lex.left _ _ (Nat.succ_lt_succ hfirst)
        · rw [hsame]
          exact Prod.Lex.right _ hsecond

theorem Complete.breadthFirst (h : g.Complete root ids) : g.BreadthFirst root ids where
  nodup := h.nodup
  mem_iff := h.mem_iff
  head := by
    obtain ⟨later, hids⟩ := h.exists_cons
    rw [hids]
    rfl
  distance := h.pairwise_distance
  discovery := by
    obtain ⟨later, hids⟩ := h.exists_cons
    have hlater : ∀ id ∈ ids.tail, id ≠ root := by
      have hnodup := h.nodup
      rw [hids] at hnodup ⊢
      rintro id hid rfl
      exact (List.nodup_cons.mp hnodup).1 hid
    refine (h.order.sublist (List.tail_sublist ids)).imp_of_mem fun ha hb hlt => discovery_lt ?_
    rw [Complete.idxOf_line (hlater _ ha), Complete.idxOf_line (hlater _ hb)] at hlt
    exact Nat.lt_of_succ_lt_succ hlt

/-! ### The walk -/

/-- A walk that comes to its end lists every node breadth-first. -/
theorem breadthFirst_of_walk {visited : List (NodeId × Node O T)} (hroot : g.root = some root)
    (h : g.walk = .ok visited) : g.BreadthFirst root (visited.map (·.1)) := by
  simp only [walk, hroot] at h
  obtain ⟨seen, taken, hend⟩ := (underway_start g root).walkFrom h
  exact hend.complete.breadthFirst

theorem node?_of_walkFrom {visited : List (NodeId × Node O T)}
    (h : g.walkFrom seen queue = .ok visited) : ∀ v ∈ visited, g.node? v.1 = some v.2 := by
  fun_induction walkFrom g seen queue generalizing visited with
  | case1 seen =>
      cases h
      exact fun v hv => absurd hv List.not_mem_nil
  | case2 seen id rest hlt hseen ih => exact ih h
  | case3 seen id rest hlt hseen ih =>
      obtain ⟨n, hn, h⟩ := of_bind_eq_ok h
      obtain ⟨later, hlater, h⟩ := of_bind_eq_ok h
      cases h
      intro v hv
      rcases List.mem_cons.mp hv with rfl | hmem
      · exact of_node_eq_ok hn
      · exact ih n hlater v hmem
  | case4 seen id rest hlt => cases h

/-- What is handed over with an id is the node there. -/
theorem node?_of_walk {visited : List (NodeId × Node O T)} (h : g.walk = .ok visited) :
    ∀ v ∈ visited, g.node? v.1 = some v.2 := by
  unfold walk at h
  split at h
  · cases h
    exact fun v hv => absurd hv List.not_mem_nil
  · exact node?_of_walkFrom h

/-- There is one reason only for a walk to stop. -/
theorem of_walkFrom_error {fault : Fault} (h : g.walkFrom seen queue = .error fault) :
    fault = .outOfRange := by
  fun_induction walkFrom g seen queue with
  | case1 seen => cases h
  | case2 seen id rest hlt hseen ih => exact ih h
  | case3 seen id rest hlt hseen ih =>
      rcases of_bind_eq_error h with hnode | ⟨n, -, h⟩
      · unfold node at hnode
        split at hnode <;> cases hnode
        rfl
      · rcases of_bind_eq_error h with hlater | ⟨later, -, h⟩
        · exact ih n hlater
        · cases h
  | case4 seen id rest hlt =>
      cases h
      rfl

/-- A walk comes to its end just if nothing that the root reaches lies outside the graph. -/
theorem exists_walk_iff (hroot : g.root = some root) :
    (∃ visited, g.walk = .ok visited) ↔ ∀ id, g.Reaches root id → id < g.size := by
  constructor
  · rintro ⟨visited, h⟩ id hreaches
    have hid := ((breadthFirst_of_walk hroot h).mem_iff id).mpr hreaches
    obtain ⟨v, hv, rfl⟩ := List.mem_map.mp hid
    exact lt_size_of_node? (node?_of_walk h v hv)
  · intro h
    simp only [walk, hroot]
    refine exists_walkFrom h ?_ _ [root] (Array.size_replicate ..) ?_
    · intro id n hreaches hn operand hmem
      exact Relation.ReflTransGen.tail hreaches ⟨n, hn, hmem⟩
    · intro id hid
      rw [List.mem_singleton.mp hid]
      exact Reaches.refl g root

/-- What lies outside is the root itself or an operand of a node that the root reaches. -/
theorem not_forall_lt_size_iff :
    (¬∀ id, g.Reaches root id → id < g.size) ↔ g.size ≤ root ∨ g.Dangles root := by
  constructor
  · intro h
    by_contra hnone
    obtain ⟨hroot, hdangles⟩ := not_or.mp hnone
    refine h fun id hreaches => ?_
    rcases hreaches.cases_tail with rfl | ⟨user, huser, n, hn, hmem⟩
    · exact Nat.lt_of_not_le hroot
    · by_contra hid
      exact hdangles ⟨user, n, huser, hn, id, hmem, Nat.le_of_not_lt hid⟩
  · rintro (hroot | ⟨id, n, hreaches, hn, operand, hmem, hle⟩) h
    · exact Nat.not_lt_of_le hroot (h root (Reaches.refl g root))
    · exact Nat.not_lt_of_le hle (h operand (Relation.ReflTransGen.tail hreaches ⟨n, hn, hmem⟩))

theorem Closed.exists_breadthFirst (h : g.Closed) (hroot : g.root = some root) :
    ∃ ids, g.reachable = .ok ids ∧ g.BreadthFirst root ids := by
  obtain ⟨visited, hwalk⟩ := h.exists_walk
  exact ⟨visited.map (·.1), reachable_of_walk hwalk, breadthFirst_of_walk hroot hwalk⟩

/--
**The walk is breadth-first search.**  On a graph with a root, whatever its edges, the walk stops
short just if the root is no node or some node that the root reaches has an operand that is none.
Otherwise it comes to its end, each node is handed over under its id, and the ids are those that
the root reaches along operands, each once, the root first, never a nearer one after one further
away, and in the order in which they are first met as operands.
-/
theorem reachable_breadthFirst (hroot : g.root = some root) :
    (g.reachable = .error .outOfRange ↔ g.size ≤ root ∨ g.Dangles root) ∧
      (¬(g.size ≤ root ∨ g.Dangles root) →
        ∃ visited, g.walk = .ok visited ∧ (∀ v ∈ visited, g.node? v.1 = some v.2) ∧
          g.reachable = .ok (visited.map (·.1)) ∧ g.BreadthFirst root (visited.map (·.1))) := by
  rw [← not_forall_lt_size_iff, ← exists_walk_iff hroot, not_not]
  cases hwalk : g.walk with
  | ok visited =>
      have hreachable := reachable_of_walk hwalk
      refine ⟨?_, fun _ => ⟨visited, rfl, node?_of_walk hwalk, hreachable,
        breadthFirst_of_walk hroot hwalk⟩⟩
      rw [hreachable]
      simp
  | error fault =>
      have hfault : fault = .outOfRange := by
        simp only [walk, hroot] at hwalk
        exact of_walkFrom_error hwalk
      refine ⟨?_, ?_⟩
      · rw [reachable, hwalk, hfault]
        simp [Except.map]
      · rintro ⟨visited, h⟩
        cases h

/-- Two nodes that use each other, and next to them one that is not reached and whose operand is no
node; and a graph where such a node is reached. -/
theorem reachable_breadthFirst_circle :
    let g : IrGraph :=
      { nodes :=
          #[{ opcode := .imm, type := .prim .u8, imms := [1], chain := some 4 },
            { opcode := .sub, type := .prim .u8, operands := [3, 0] },
            { opcode := .add, type := .prim .u8, operands := [1, 3] },
            { opcode := .add, type := .prim .u8, operands := [2, 0] },
            { opcode := .sub, type := .prim .u8, operands := [9, 2] }]
        root := some 2 }
    g.reachable = .ok [2, 1, 3, 0] ∧ g.BreadthFirst 2 [2, 1, 3, 0] ∧
      { g with root := some 4 }.reachable = .error .outOfRange := by
  intro g
  have hreachable : g.reachable = .ok [2, 1, 3, 0] := by
    simp [g, reachable, walk, walkFrom, size, node, node?, Except.map, ok_bind]
  obtain ⟨hfails, hlists⟩ := reachable_breadthFirst (g := g) rfl
  rw [hreachable] at hfails hlists
  have hinside : ¬(g.size ≤ 2 ∨ g.Dangles 2) := by
    rw [← hfails]
    simp
  obtain ⟨visited, -, -, hids, hbreadth⟩ := hlists hinside
  have hdangles : Dangles { g with root := some 4 } 4 :=
    ⟨4, _, Reaches.refl _ 4, rfl, 9, List.mem_cons_self, by decide⟩
  refine ⟨hreachable, ?_, (reachable_breadthFirst rfl).1.mpr (Or.inr hdangles)⟩
  rwa [Except.ok.inj hids]

end Graph

end Codegen
