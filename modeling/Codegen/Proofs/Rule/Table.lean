/-
Which rules a table holds and which of them it chooses.

Rules are filed under the opcode they start from and keep their order, so what a table
holds for an opcode is what a look through the whole list would leave of it.  The rule
that is chosen for a node is therefore one of the list, it accepts the node, and on a
graph whose operands are in range there is always an answer.  Like matching, choosing
looks at nothing but what the node reaches.
-/
import Codegen.Proofs.Pattern.Reach
import Codegen.Proofs.Rule.Shaping
import Codegen.Rule.Table

namespace Codegen

variable {O T : Type}

/-! ### The rules of a table -/

theorem RuleIndex.rulesFor_add (opcode key : Opcode) (rule : Rule O T) (index : RuleIndex O T) :
    (index.add opcode rule).rulesFor key
      = index.rulesFor key ++ if opcode = key then [rule] else [] := by
  induction index with
  | nil => rfl
  | cons entry rest ih =>
      obtain ⟨filed, rules⟩ := entry
      by_cases hfiled : filed = opcode
      · subst hfiled
        by_cases hkey : filed = key
        · simp only [add, rulesFor, if_true, if_pos hkey]
        · simp only [add, rulesFor, if_true, if_neg hkey, List.append_nil]
      · by_cases hkey : filed = key
        · have hne : opcode ≠ key := fun heq => hfiled (hkey.trans heq.symm)
          simp only [add, rulesFor, if_neg hfiled, if_pos hkey, if_neg hne, List.append_nil]
        · simp only [add, rulesFor, if_neg hfiled, if_neg hkey, ih]

theorem Rule.of_root_ok {rule : Rule O T} {opcode : Opcode} (h : rule.root = .ok opcode) :
    rule.pattern.rootOpcode? = some opcode := by
  unfold Rule.root at h
  split at h
  · cases h
  · next found hfound =>
      split at h
      · cases h
      · cases h
        exact hfound

namespace Table

variable {table table' : Table O T} {types : TypeMap T} {rules : List (Rule O T)} {rule : Rule O T}
  {g g' : IrGraph} {id : NodeId} {position : Nat}

theorem rulesFor_of_addAll (h : table.addAll rules = .ok table') (opcode : Opcode) :
    table'.rulesFor opcode = table.rulesFor opcode ++
      rules.filter fun rule => rule.pattern.rootOpcode? = some opcode := by
  induction rules generalizing table with
  | nil =>
      cases h
      rw [List.filter_nil, List.append_nil]
  | cons rule rules ih =>
      obtain ⟨root, hroot, h⟩ := of_bind_eq_ok h
      have hadded : ({ table with index := table.index.add root rule, count := table.count + 1 } :
          Table O T).rulesFor opcode
            = table.rulesFor opcode ++ if root = opcode then [rule] else [] :=
        RuleIndex.rulesFor_add root opcode rule table.index
      rw [ih h, hadded, List.append_assoc, List.filter_cons, Rule.of_root_ok hroot]
      by_cases hopcode : root = opcode
      · simp [hopcode]
      · simp [hopcode]

/-- A table holds for an opcode the rules of the list that start from it, in their order. -/
theorem rulesFor_of_build (h : build types rules = .ok table) (opcode : Opcode) :
    table.rulesFor opcode = rules.filter fun rule => rule.pattern.rootOpcode? = some opcode :=
  rulesFor_of_addAll h opcode

/-- No rule of the table is shaped by an arbitrary function. -/
def IsDeclared (table : Table O T) : Prop :=
  ∀ opcode, ∀ rule ∈ table.rulesFor opcode, rule.shaping.isCustom = false

theorem isDeclared_of_build (h : build types rules = .ok table)
    (hrules : ∀ rule ∈ rules, rule.shaping.isCustom = false) : table.IsDeclared := by
  intro opcode rule hrule
  rw [rulesFor_of_build h] at hrule
  exact hrules rule (List.mem_filter.mp hrule).1

/-! ### The rule that is chosen -/

/-- A rule that can answer for a node either is the first to accept it or leaves it to the next. -/
theorem firstAccepting_cons {accepted : Bool} (h : rule.pattern.accepts g id = .ok accepted) :
    firstAccepting g id position (rule :: rules)
      = if accepted then .ok (some (position, rule))
        else firstAccepting g id (position + 1) rules := by
  rw [firstAccepting, h]
  cases accepted <;> rfl

theorem of_firstAccepting_some {start : Nat}
    (h : firstAccepting g id start rules = .ok (some (position, rule))) :
    rule ∈ rules ∧ rule.pattern.accepts g id = .ok true := by
  induction rules generalizing start with
  | nil => cases h
  | cons first rules ih =>
      obtain ⟨accepted, haccepted, -⟩ := of_bind_eq_ok h
      rw [firstAccepting_cons haccepted] at h
      cases accepted with
      | true =>
          cases h
          exact ⟨List.mem_cons_self, haccepted⟩
      | false =>
          obtain ⟨hmem, haccepts⟩ := ih h
          exact ⟨List.mem_cons_of_mem first hmem, haccepts⟩

/-- A chosen rule is a rule for the node's opcode and accepts the node. -/
theorem of_choose_some (h : table.choose g id = .ok (some (position, rule))) :
    ∃ n, g.node? id = some n ∧ rule ∈ table.rulesFor n.opcode ∧
      rule.pattern.accepts g id = .ok true := by
  obtain ⟨n, hn, h⟩ := of_bind_eq_ok h
  exact ⟨n, Graph.of_node_eq_ok hn, of_firstAccepting_some h⟩

theorem IsDeclared.of_choose (hdeclared : table.IsDeclared)
    (h : table.choose g id = .ok (some (position, rule))) : rule.shaping.isCustom = false := by
  obtain ⟨n, -, hmem, -⟩ := of_choose_some h
  exact hdeclared n.opcode rule hmem

theorem exists_firstAccepting (hrange : g.InRange) (hid : id < g.size) (rules : List (Rule O T)) :
    ∀ start, ∃ found, firstAccepting g id start rules = .ok found := by
  induction rules with
  | nil =>
      intro start
      exact ⟨none, rfl⟩
  | cons rule rules ih =>
      intro start
      have haccepts := (Pattern.agrees hrange rule.pattern id hid).accepts
      obtain ⟨found, hfound⟩ := ih (start + 1)
      rw [firstAccepting_cons haccepts, hfound]
      split
      · exact ⟨_, rfl⟩
      · exact ⟨_, rfl⟩

/-- On a graph whose operands are in range, choosing a rule for a node has an answer. -/
theorem exists_choose (table : Table O T) (hrange : g.InRange) (hid : id < g.size) :
    ∃ found, table.choose g id = .ok found := by
  obtain ⟨n, hn⟩ := Graph.exists_node? hid
  obtain ⟨found, hfound⟩ := exists_firstAccepting hrange hid (table.rulesFor n.opcode) 0
  refine ⟨found, ?_⟩
  rw [choose, Graph.node_eq_ok hn, ok_bind]
  exact hfound

/-! ### Graphs that look alike -/

/-- The rules of the table narrow to types in `S` only. -/
def NarrowsIn (table : Table O T) (S : Primitive → Prop) : Prop :=
  ∀ opcode, ∀ rule ∈ table.rulesFor opcode, ∀ type ∈ rule.pattern.narrowings, S type

theorem narrowsIn_of_build {S : Primitive → Prop} (h : build types rules = .ok table)
    (hrules : ∀ rule ∈ rules, ∀ type ∈ rule.pattern.narrowings, S type) : table.NarrowsIn S := by
  intro opcode rule hrule
  rw [rulesFor_of_build h] at hrule
  exact hrules rule (List.mem_filter.mp hrule).1

theorem firstAccepting_congr {rules : List (Rule O T)}
    (h : ∀ rule ∈ rules, rule.pattern.accepts g' id = rule.pattern.accepts g id) :
    ∀ start, firstAccepting g' id start rules = firstAccepting g id start rules := by
  induction rules with
  | nil =>
      intro start
      rfl
  | cons rule rules ih =>
      intro start
      obtain ⟨hrule, hrules⟩ := List.forall_mem_cons.mp h
      rw [firstAccepting, firstAccepting, hrule, ih hrules (start + 1)]

/-- The same rule is chosen in graphs that the rules cannot tell apart. -/
theorem choose_alike {S : Primitive → Prop} (hnarrows : table.NarrowsIn S)
    (halike : g.AlikeFrom S g' id) : table.choose g' id = table.choose g id := by
  obtain ⟨n, type, hn, hn', -⟩ := halike.node
  rw [choose, choose, Graph.node_eq_ok hn, Graph.node_eq_ok hn', ok_bind, ok_bind]
  refine firstAccepting_congr (fun rule hrule => ?_) 0
  exact Pattern.accepts_alike rule.pattern (hnarrows n.opcode rule hrule) halike

/-- The rule that is chosen depends on what the node reaches. -/
theorem choose_congr (table : Table O T) (hagrees : g.AgreesFrom g' id) :
    table.choose g' id = table.choose g id :=
  choose_alike (S := fun _ => True) (fun _ _ _ _ _ => trivial) hagrees.alikeFrom

end Table

end Codegen
