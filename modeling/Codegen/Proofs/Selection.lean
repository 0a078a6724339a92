/-
Selection is a map over the nodes.

Whatever the table, a graph that is selected keeps its size and its root, and the
machine node at an id is what `lower` makes of the node at that id.  A graph that is not
selected has a first node that is not lowered, and that node's failure is the failure of
the whole.  So what is to be said about selection is said about `lower`, one node at a
time.

Selection in place comes to the same.  Between two nodes the graph is `halfway`: the nodes
before are what they were lowered to and the others are the placeholders they started as,
so the next one to be overwritten is there and is still a placeholder.
-/
import Codegen.Proofs.Fault
import Codegen.Proofs.Graph.Reach
import Codegen.Selection

namespace Codegen

namespace Selector

variable {O T : Type} {s : Selector O T} {g : IrGraph}

/-- Keeping a root changes nothing else. -/
theorem of_keepRoot_ok {target t : Graph O T} (hroot : target.root = none)
    (h : keepRoot g target = .ok t) : t = { target with root := g.root } := by
  unfold keepRoot at h
  cases hg : g.root with
  | none =>
      simp only [hg] at h
      cases h
      rw [← hroot]
  | some root =>
      simp only [hg, Graph.setRoot] at h
      split at h
      · cases h
        rfl
      · cases h

theorem exists_keepRoot {target : Graph O T} (hroot : ∀ root, g.root = some root → root < g.size)
    (hsize : target.size = g.size) : ∃ t, keepRoot g target = .ok t := by
  unfold keepRoot
  cases hg : g.root with
  | none => exact ⟨target, rfl⟩
  | some root => exact ⟨_, Graph.setRoot_of_lt (hsize ▸ hroot root hg)⟩

variable [Inhabited O] [Inhabited T]

/-- A row of nodes is lowered one by one, each under its own id. -/
theorem of_lowerFrom_ok {id : NodeId} {ns : List IrNode} {targets : List (Node O T)}
    (h : s.lowerFrom g id ns = .ok targets) :
    targets.length = ns.length ∧
      ∀ i n, ns[i]? = some n → ∃ m, targets[i]? = some m ∧ s.lower g (id + i) n = .ok m := by
  induction ns generalizing id targets with
  | nil =>
      cases h
      exact ⟨rfl, fun i n hn => by simp at hn⟩
  | cons first rest ih =>
      obtain ⟨target, htarget, h⟩ := of_bind_eq_ok h
      obtain ⟨later, hlater, h⟩ := of_bind_eq_ok h
      cases h
      obtain ⟨hlength, hnodes⟩ := ih hlater
      refine ⟨by simp [hlength], ?_⟩
      intro i n hn
      cases i with
      | zero =>
          cases hn
          exact ⟨target, rfl, htarget⟩
      | succ i =>
          obtain ⟨m, hm, hlower⟩ := hnodes i n hn
          exact ⟨m, hm, by rw [← hlower, Nat.add_right_comm, Nat.add_assoc]⟩

/-- A selected graph has the root and the size of the graph it was selected for, and each of its
nodes is what the node with the same id is lowered to. -/
theorem of_select_ok {t : Graph O T} (h : s.select g = .ok t) :
    t.root = g.root ∧ t.size = g.size ∧
      ∀ id n, g.node? id = some n → ∃ m, t.node? id = some m ∧ s.lower g id n = .ok m := by
  obtain ⟨targets, htargets, h⟩ := of_bind_eq_ok h
  have ht := of_keepRoot_ok rfl (Stop.of_ofFault_ok h)
  obtain ⟨hlength, hnodes⟩ := of_lowerFrom_ok htargets
  subst ht
  refine ⟨rfl, hlength, ?_⟩
  intro id n hn
  obtain ⟨m, hm, hlower⟩ := hnodes id n (by rw [Array.getElem?_toList]; exact hn)
  refine ⟨m, ?_, by rw [← hlower, Nat.zero_add]⟩
  show targets.toArray[id]? = some m
  rw [List.getElem?_toArray]
  exact hm

/-! ### Where selection stops -/

theorem exists_lowerFrom (ns : List IrNode) :
    ∀ {id : NodeId}, (∀ i n, ns[i]? = some n → ∃ m, s.lower g (id + i) n = .ok m) →
      ∃ targets, s.lowerFrom g id ns = .ok targets := by
  induction ns with
  | nil =>
      intro id _
      exact ⟨[], rfl⟩
  | cons first rest ih =>
      intro id h
      obtain ⟨target, htarget⟩ := h 0 first rfl
      obtain ⟨later, hlater⟩ : ∃ later, s.lowerFrom g (id + 1) rest = .ok later := by
        refine ih fun i n hn => ?_
        rw [Nat.add_right_comm, Nat.add_assoc]
        exact h (i + 1) n hn
      refine ⟨target :: later, ?_⟩
      rw [Nat.add_zero] at htarget
      rw [lowerFrom, htarget, ok_bind, hlater]
      rfl

/-- The first node of a row that is not lowered stops the row. -/
theorem lowerFrom_eq_error (ns : List IrNode) :
    ∀ {id i : NodeId} {n : IrNode} {stop : Stop Diagnostic}, ns[i]? = some n →
      s.lower g (id + i) n = .error stop →
      (∀ j < i, ∀ k, ns[j]? = some k → ∃ m, s.lower g (id + j) k = .ok m) →
      s.lowerFrom g id ns = .error stop := by
  induction ns with
  | nil =>
      intro id i n stop hn
      cases hn
  | cons first rest ih =>
      intro id i n stop hn hlower hbefore
      cases i with
      | zero =>
          cases hn
          rw [Nat.add_zero] at hlower
          rw [lowerFrom, hlower]
          rfl
      | succ i =>
          obtain ⟨target, htarget⟩ := hbefore 0 (Nat.succ_pos i) first rfl
          have hrest : s.lowerFrom g (id + 1) rest = .error stop := by
            refine ih hn (by rw [← hlower, Nat.add_right_comm, Nat.add_assoc]) ?_
            intro j hj k hk
            rw [Nat.add_right_comm, Nat.add_assoc]
            exact hbefore (j + 1) (Nat.succ_lt_succ hj) k hk
          rw [Nat.add_zero] at htarget
          rw [lowerFrom, htarget, ok_bind, hrest]
          rfl

theorem exists_lowerFrom_nodes (h : ∀ id n, g.node? id = some n → ∃ m, s.lower g id n = .ok m) :
    ∃ targets, s.lowerFrom g 0 g.nodes.toList = .ok targets ∧ targets.length = g.size := by
  obtain ⟨targets, htargets⟩ : ∃ targets, s.lowerFrom g 0 g.nodes.toList = .ok targets := by
    refine exists_lowerFrom _ fun i n hn => ?_
    rw [Array.getElem?_toList] at hn
    rw [Nat.zero_add]
    exact h i n hn
  exact ⟨targets, htargets, (of_lowerFrom_ok htargets).1⟩

/-- If every node is lowered and the root is a node, the graph is selected. -/
theorem exists_select (hroot : ∀ root, g.root = some root → root < g.size)
    (h : ∀ id n, g.node? id = some n → ∃ m, s.lower g id n = .ok m) :
    ∃ t, s.select g = .ok t := by
  obtain ⟨targets, htargets, hlength⟩ := exists_lowerFrom_nodes h
  obtain ⟨t, ht⟩ : ∃ t, keepRoot g { nodes := targets.toArray, root := none } = .ok t :=
    exists_keepRoot hroot hlength
  refine ⟨t, ?_⟩
  rw [select, htargets, ok_bind, ht]
  rfl

/-- If every node is lowered, the graph is not selected just if its root is not a node of it. -/
theorem select_eq_error_iff {stop : Stop Diagnostic}
    (h : ∀ id n, g.node? id = some n → ∃ m, s.lower g id n = .ok m) :
    s.select g = .error stop ↔
      ∃ root, g.root = some root ∧ g.size ≤ root ∧ stop = .fault (g.outside root) := by
  obtain ⟨targets, htargets, hlength⟩ := exists_lowerFrom_nodes h
  have hsize : Graph.size { nodes := targets.toArray, root := none } = g.size := hlength
  rw [select, htargets, ok_bind, keepRoot]
  cases hg : g.root with
  | none => simp
  | some root =>
      dsimp only
      by_cases hlt : root < g.size
      · rw [Graph.setRoot_of_lt (hsize ▸ hlt)]
        simp [Nat.not_le.mpr hlt]
      · simp only [Graph.setRoot, Graph.outside, hsize, if_neg hlt, Stop.ofFault_error,
          Except.error.injEq, Option.some.injEq]
        constructor
        · intro hstop
          exact ⟨root, rfl, Nat.not_lt.mp hlt, hstop.symm⟩
        · rintro ⟨_, rfl, -, hstop⟩
          exact hstop.symm

/-- The first node that is not lowered stops the selection. -/
theorem select_eq_error {id : NodeId} {n : IrNode} {stop : Stop Diagnostic}
    (hn : g.node? id = some n) (hlower : s.lower g id n = .error stop)
    (hbefore : ∀ i < id, ∀ m, g.node? i = some m → ∃ target, s.lower g i m = .ok target) :
    s.select g = .error stop := by
  have hrow : s.lowerFrom g 0 g.nodes.toList = .error stop := by
    refine lowerFrom_eq_error _ (i := id) (n := n) ?_ (by rw [Nat.zero_add]; exact hlower) ?_
    · rw [Array.getElem?_toList]
      exact hn
    · intro i hi m hm
      rw [Array.getElem?_toList] at hm
      rw [Nat.zero_add]
      exact hbefore i hi m hm
  rw [select, hrow]
  rfl

/-- A graph whose root is a node is selected, every node being lowered, or there is a first node
that is not, and it stops the selection. -/
theorem select_cases (s : Selector O T) (hroot : ∀ root, g.root = some root → root < g.size) :
    ((∃ t, s.select g = .ok t) ∧ ∀ id n, g.node? id = some n → ∃ m, s.lower g id n = .ok m) ∨
      ∃ id n stop, g.Lowest (fun id n => ∃ stop, s.lower g id n = .error stop) id n ∧
        s.lower g id n = .error stop ∧ s.select g = .error stop := by
  have hlower : ∀ id n, (¬∃ stop, s.lower g id n = .error stop) →
      ∃ m, s.lower g id n = .ok m := by
    intro id n h
    cases hcase : s.lower g id n with
    | ok m => exact ⟨m, rfl⟩
    | error stop => exact absurd ⟨stop, hcase⟩ h
  by_cases hfails : ∃ id n, g.node? id = some n ∧ ∃ stop, s.lower g id n = .error stop
  · obtain ⟨id, n, hn, hstops⟩ := hfails
    obtain ⟨i, m, hlowest⟩ := Graph.exists_lowest
      (P := fun id n => ∃ stop, s.lower g id n = .error stop) hn hstops
    obtain ⟨stop, hstop⟩ := hlowest.holds
    refine Or.inr ⟨i, m, stop, hlowest, hstop, select_eq_error hlowest.node hstop ?_⟩
    intro j hj k hk
    exact hlower j k (hlowest.before j hj k hk)
  · have hall : ∀ id n, g.node? id = some n → ∃ m, s.lower g id n = .ok m := by
      intro id n hn
      exact hlower id n fun hstop => hfails ⟨id, n, hn, hstop⟩
    exact Or.inl ⟨exists_select hroot hall, hall⟩

/-- If no node is lowered with a fault and the root is a node, nothing is selected with one. -/
theorem noFault_select (hroot : ∀ root, g.root = some root → root < g.size)
    (hlower : ∀ id n, g.node? id = some n → NoFault (s.lower g id n)) : NoFault (s.select g) := by
  rcases s.select_cases hroot with ⟨⟨t, ht⟩, -⟩ | ⟨id, n, stop, hlowest, hstop, hselect⟩
  · rw [ht]
    exact NoFault.ok t
  · intro fault h
    rw [hselect] at h
    cases h
    exact hlower id n hlowest.node fault hstop

/-! ### In place -/

/-- Some nodes are made, and those behind them are placeholders. -/
def halfway (made : List (Node O T)) (pending : Nat) : Graph O T :=
  { nodes := (made ++ List.replicate pending Node.placeholder).toArray, root := none }

theorem node?_halfway (made : List (Node O T)) (pending : Nat) :
    (halfway made (pending + 1)).node? made.length = some Node.placeholder := by
  show (made ++ List.replicate (pending + 1) Node.placeholder).toArray[made.length]? = _
  rw [List.getElem?_toArray, List.getElem?_append_right (Nat.le_refl _), Nat.sub_self]
  rfl

/-- To change the first placeholder is to add to the nodes that are made. -/
theorem update_halfway (made : List (Node O T)) (pending : Nat) (m : Node O T) :
    (halfway made (pending + 1)).update made.length (fun _ => m)
      = .ok (halfway (made ++ [m]) pending) := by
  have hmodify : (made ++ List.replicate (pending + 1) Node.placeholder).modify made.length
      (fun _ => m) = made ++ [m] ++ List.replicate pending Node.placeholder := by
    induction made with
    | nil => rfl
    | cons first rest ih => exact congrArg (first :: ·) ih
  rw [Graph.update_of_lt (Graph.lt_size_of_node? (node?_halfway made pending))]
  simp only [halfway, List.modify_toArray, hmodify]

/-- The step: the next placeholder becomes what its node is lowered to. -/
theorem rewriteAt_halfway (made : List (Node O T)) (pending : Nat) (n : IrNode) :
    s.rewriteAt g made.length n (halfway made (pending + 1))
      = (s.lower g made.length n).map fun m => halfway (made ++ [m]) pending := by
  unfold rewriteAt lower
  cases s.table.choose g made.length with
  | error fault => rfl
  | ok found =>
      rcases found with _ | ⟨position, rule⟩
      · rfl
      · simp only [applyRule, Stop.ofFault_ok, ok_bind,
          Graph.node_eq_ok (node?_halfway made pending)]
        cases rule.pattern.capture g made.length rule.pattern.freshBuffer with
        | error fault => rfl
        | ok captures =>
            simp only [Stop.ofFault_ok, ok_bind]
            cases rule.shaping.apply
                { graph := g, id := made.length, node := n, captures, types := s.table.types }
                Node.placeholder with
            | error stop => rfl
            | ok m =>
                show Stop.ofFault ((halfway made (pending + 1)).update made.length fun _ => m) = _
                rw [update_halfway]
                rfl

/-- The loop: the placeholders become, one after the other, what the row is lowered to. -/
theorem rewriteFrom_halfway (ns : List IrNode) :
    ∀ made : List (Node O T), s.rewriteFrom g made.length ns (halfway made ns.length)
      = (s.lowerFrom g made.length ns).map fun later => halfway (made ++ later) 0 := by
  induction ns with
  | nil =>
      intro made
      rw [lowerFrom, Except.map, List.append_nil]
      rfl
  | cons n rest ih =>
      intro made
      rw [rewriteFrom, lowerFrom, List.length_cons, rewriteAt_halfway]
      cases s.lower g made.length n with
      | error stop => rfl
      | ok m =>
          have hrest := ih (made ++ [m])
          rw [List.length_append, List.length_singleton] at hrest
          show s.rewriteFrom g (made.length + 1) rest _ = _
          rw [hrest, ok_bind]
          cases s.lowerFrom g (made.length + 1) rest with
          | error stop => rfl
          | ok later =>
              show Except.ok (halfway (made ++ [m] ++ later) 0) = _
              rw [List.append_assoc]
              rfl

/-- Selection in place is selection, on every graph whose nodes have ids. -/
theorem selectInPlace_eq (h : g.size ≤ 2 ^ 32) : s.selectInPlace g = s.select g := by
  have hblank : (Graph.placeholders g.size : Except Fault (Graph O T))
      = .ok (halfway [] g.nodes.toList.length) := by
    rw [Graph.placeholders_of_le h, halfway, List.nil_append, List.toArray_replicate,
      Array.length_toList, Graph.size]
  have hloop : s.rewriteFrom g 0 g.nodes.toList (halfway [] g.nodes.toList.length)
      = (s.lowerFrom g 0 g.nodes.toList).map fun later => halfway ([] ++ later) 0 :=
    rewriteFrom_halfway g.nodes.toList []
  unfold selectInPlace select
  rw [hblank, Stop.ofFault_ok, ok_bind, hloop]
  cases s.lowerFrom g 0 g.nodes.toList with
  | error stop => rfl
  | ok nodes =>
      show Stop.ofFault (keepRoot g (halfway ([] ++ nodes) 0)) = _
      rw [halfway, List.nil_append, List.replicate_zero, List.append_nil]
      rfl

end Selector

end Codegen
