/-
A table chooses what a look through the whole list of rules would choose.

A table files each rule under the opcode it starts from and, for a node, tries only the
rules that are filed under the node's opcode.  Nothing is missed by that: a rule filed
elsewhere accepts no node of this opcode, however its pattern is wrapped.  And since rules
keep their order inside a file, the first that accepts there is the first that accepts in
the list; its position in the file is the number of rules of the same opcode before it.

What a table cannot file is a rule that starts from no opcode, and what it will not file is
a rule that narrows to a type which is no scalar.  The first such rule in the list is the
error, whatever comes after it.
-/
import Codegen.Proofs.Pattern.Outline
import Codegen.Proofs.Rule.Table
import Codegen.X86

namespace Codegen

variable {O T : Type}

/-! ### Rules that cannot be used -/

/-- The types that a rule may narrow to. -/
def Primitive.narrowable : List Primitive := [.u8, .u16, .u32, .u64, .ptr]

theorem Primitive.isScalar_iff (type : Primitive) : type.isScalar = true ↔ type ∈ narrowable := by
  cases type <;> decide

/-- What is said against a rule: it starts from no opcode, or else the first type that it must not
narrow to. -/
inductive Rule.Refused (rule : Rule O T) : CompileError → Prop where
  | unrooted (hroot : rule.pattern.rootOpcode? = none) :
      Refused rule
        (.invalidRule "<any>" ("rule must root on an opcode: " ++ rule.pattern.describe))
  | narrowed {opcode : Opcode} {type : Primitive} {before after : List Primitive}
      (hroot : rule.pattern.rootOpcode? = some opcode)
      (htypes : rule.pattern.narrowings = before ++ type :: after)
      (hbefore : ∀ t ∈ before, t ∈ Primitive.narrowable) (htype : type ∉ Primitive.narrowable) :
      Refused rule
        (.invalidRule opcode.name ("type selection must be U8-U64 or PTR, got " ++ type.name))

/-- The rule starts from no opcode or narrows, at some depth, to a type that it must not narrow
to. -/
def Rule.IsUnusable (rule : Rule O T) : Prop :=
  rule.pattern.rootOpcode? = none ∨ ∃ type ∈ rule.pattern.narrowings, type ∉ Primitive.narrowable

instance (rule : Rule O T) : Decidable rule.IsUnusable := inferInstanceAs (Decidable (_ ∨ _))

namespace Rule

variable {rule : Rule O T} {opcode : Opcode} {error : CompileError}

theorem root_eq_ok (hroot : rule.pattern.rootOpcode? = some opcode)
    (htypes : ∀ type ∈ rule.pattern.narrowings, type ∈ Primitive.narrowable) :
    rule.root = .ok opcode := by
  have hgood : rule.pattern.badType? = none := by
    rw [Pattern.badType?_eq_find?, List.find?_eq_none]
    intro type hmem
    simpa using (Primitive.isScalar_iff type).mpr (htypes type hmem)
  simp only [root, hroot, hgood]

theorem root_eq_error (h : rule.Refused error) : rule.root = .error error := by
  rcases h with hroot | ⟨hroot, htypes, hbefore, htype⟩
  · simp only [root, hroot]
  · next opcode type before after =>
      have hbad : rule.pattern.badType? = some type := by
        have hscalar : ¬type.isScalar = true := mt (Primitive.isScalar_iff type).mp htype
        rw [Pattern.badType?_eq_find?, htypes, List.find?_eq_some_iff_append]
        refine ⟨by simpa using hscalar, before, after, rfl, ?_⟩
        intro t ht
        simpa using (Primitive.isScalar_iff t).mpr (hbefore t ht)
      simp only [root, hroot, hbad]
      rfl

/-- The first type in a row that must not be narrowed to. -/
theorem exists_first_unnarrowable {types : List Primitive}
    (h : ∃ type ∈ types, type ∉ Primitive.narrowable) :
    ∃ before type after, types = before ++ type :: after ∧
      (∀ t ∈ before, t ∈ Primitive.narrowable) ∧ type ∉ Primitive.narrowable := by
  obtain ⟨type, hmem, htype⟩ := h
  have hsome : (types.find? (· ∉ Primitive.narrowable)).isSome := by
    rw [List.find?_isSome]
    exact ⟨type, hmem, by simpa using htype⟩
  obtain ⟨first, hfirst⟩ := Option.isSome_iff_exists.mp hsome
  obtain ⟨hbad, before, after, htypes, hbefore⟩ := List.find?_eq_some_iff_append.mp hfirst
  exact ⟨before, first, after, htypes, by simpa using hbefore, by simpa using hbad⟩

/-- Against an unusable rule something is said. -/
theorem IsUnusable.exists_refused (h : rule.IsUnusable) : ∃ error, rule.Refused error := by
  cases hroot : rule.pattern.rootOpcode? with
  | none => exact ⟨_, Refused.unrooted hroot⟩
  | some opcode =>
      have hnarrows : ∃ type ∈ rule.pattern.narrowings, type ∉ Primitive.narrowable :=
        h.resolve_left (by simp [hroot])
      obtain ⟨before, type, after, htypes, hbefore, htype⟩ := exists_first_unnarrowable hnarrows
      exact ⟨_, Refused.narrowed hroot htypes hbefore htype⟩

theorem exists_root_of_not_isUnusable (h : ¬rule.IsUnusable) :
    ∃ opcode, rule.root = .ok opcode := by
  obtain ⟨hrooted, hnarrows⟩ := not_or.mp h
  obtain ⟨opcode, hroot⟩ := Option.ne_none_iff_exists'.mp hrooted
  refine ⟨opcode, root_eq_ok hroot fun type hmem => ?_⟩
  by_cases htype : type ∈ Primitive.narrowable
  · exact htype
  · exact absurd ⟨type, hmem, htype⟩ hnarrows

/-- A rule can be used or is unusable, and what `root` says is what is said against it. -/
theorem root_eq_error_iff : rule.root = .error error ↔ rule.IsUnusable ∧ rule.Refused error := by
  constructor
  · intro h
    by_cases hunusable : rule.IsUnusable
    · obtain ⟨error', hrefused⟩ := hunusable.exists_refused
      obtain rfl : error = error' := Except.error.inj (h.symm.trans (root_eq_error hrefused))
      exact ⟨hunusable, hrefused⟩
    · obtain ⟨opcode, hok⟩ := exists_root_of_not_isUnusable hunusable
      simp [hok] at h
  · rintro ⟨-, hrefused⟩
    exact root_eq_error hrefused

theorem not_isUnusable_of_root_ok (h : rule.root = .ok opcode) : ¬rule.IsUnusable := by
  intro hunusable
  obtain ⟨error, hrefused⟩ := hunusable.exists_refused
  simp [root_eq_error hrefused] at h

end Rule

namespace Table

variable {table table' : Table O T} {types : TypeMap T} {rules : List (Rule O T)} {rule : Rule O T}
  {g : IrGraph} {id : NodeId} {position : Nat}

/-! ### Building a table -/

/-- Every rule of a list that was added can be used, and all are counted. -/
theorem of_addAll_ok (h : table.addAll rules = .ok table') :
    table'.count = table.count + rules.length ∧ ∀ rule ∈ rules, ¬rule.IsUnusable := by
  induction rules generalizing table with
  | nil =>
      obtain rfl : table = table' := Except.ok.inj h
      simp
  | cons rule rules ih =>
      obtain ⟨opcode, hroot, h⟩ := of_bind_eq_ok h
      obtain ⟨hcount, hrules⟩ := ih h
      refine ⟨?_, ?_⟩
      · rw [hcount, List.length_cons]
        show table.count + 1 + rules.length = table.count + (rules.length + 1)
        omega
      · rw [List.forall_mem_cons]
        exact ⟨Rule.not_isUnusable_of_root_ok hroot, hrules⟩

/-- The first unusable rule of a list stops the adding. -/
theorem addAll_eq_error_iff {error : CompileError} :
    table.addAll rules = .error error ↔
      ∃ earlier rule later, rules = earlier ++ rule :: later ∧
        (∀ r ∈ earlier, ¬r.IsUnusable) ∧ rule.IsUnusable ∧ rule.Refused error := by
  induction rules generalizing table with
  | nil => simp [addAll]
  | cons first rules ih =>
      constructor
      · intro h
        rcases of_bind_eq_error h with hroot | ⟨opcode, hroot, h⟩
        · exact ⟨[], first, rules, rfl, by simp, Rule.root_eq_error_iff.mp hroot⟩
        · obtain ⟨earlier, rule, later, rfl, hearlier, hrule⟩ := ih.mp h
          refine ⟨first :: earlier, rule, later, rfl, ?_, hrule⟩
          rw [List.forall_mem_cons]
          exact ⟨Rule.not_isUnusable_of_root_ok hroot, hearlier⟩
      · rintro ⟨earlier, rule, later, hrules, hearlier, hrule⟩
        rw [addAll]
        rcases List.cons_eq_append_iff.mp hrules with ⟨rfl, hfirst⟩ | ⟨tail, rfl, hrest⟩
        · obtain ⟨rfl, rfl⟩ := List.cons.inj hfirst
          rw [Rule.root_eq_error_iff.mpr hrule]
          rfl
        · obtain ⟨hfirst, htail⟩ := List.forall_mem_cons.mp hearlier
          obtain ⟨opcode, hroot⟩ := Rule.exists_root_of_not_isUnusable hfirst
          rw [hroot, ok_bind]
          exact ih.mpr ⟨tail, rule, later, hrest, htail, hrule⟩

/-- A table is refused just if one of its rules is unusable. -/
theorem exists_build_error_iff :
    (∃ error, build types rules = .error error) ↔ ∃ rule ∈ rules, rule.IsUnusable := by
  constructor
  · rintro ⟨error, h⟩
    obtain ⟨earlier, rule, later, rfl, -, hrule, -⟩ := addAll_eq_error_iff.mp h
    exact ⟨rule, by simp, hrule⟩
  · rintro ⟨rule, hmem, hrule⟩
    cases h : build types rules with
    | error error => exact ⟨error, rfl⟩
    | ok table => exact absurd hrule ((of_addAll_ok h).2 rule hmem)

/-! ### Looking through rules -/

/-- What a look through a list in order finds: the first rule that accepts the node. -/
theorem firstAccepting_eq_some_iff {start : Nat} :
    firstAccepting g id start rules = .ok (some (position, rule)) ↔
      ∃ earlier later, rules = earlier ++ rule :: later ∧ rule.pattern.accepts g id = .ok true ∧
        (∀ r ∈ earlier, r.pattern.accepts g id = .ok false) ∧
        position = start + earlier.length := by
  induction rules generalizing start with
  | nil => simp [firstAccepting, pure, Except.pure]
  | cons first rules ih =>
      constructor
      · intro h
        obtain ⟨accepted, haccepted, -⟩ := of_bind_eq_ok h
        rw [firstAccepting_cons haccepted] at h
        by_cases hfirst : accepted = true
        · subst hfirst
          obtain ⟨rfl, rfl⟩ : start = position ∧ first = rule := by simpa using h
          exact ⟨[], rules, rfl, haccepted, by simp, rfl⟩
        · rw [if_neg hfirst] at h
          obtain ⟨earlier, later, rfl, hrule, hearlier, rfl⟩ := ih.mp h
          refine ⟨first :: earlier, later, rfl, hrule, ?_, by rw [List.length_cons]; omega⟩
          rw [List.forall_mem_cons]
          exact ⟨by simpa [hfirst] using haccepted, hearlier⟩
      · rintro ⟨earlier, later, hrules, hrule, hearlier, rfl⟩
        rcases List.cons_eq_append_iff.mp hrules with ⟨rfl, hfirst⟩ | ⟨tail, rfl, hrest⟩
        · obtain ⟨rfl, rfl⟩ := List.cons.inj hfirst
          rw [firstAccepting_cons hrule]
          rfl
        · obtain ⟨hfirst, htail⟩ := List.forall_mem_cons.mp hearlier
          rw [firstAccepting_cons hfirst]
          refine ih.mpr ⟨tail, later, hrest, hrule, htail, ?_⟩
          rw [List.length_cons]
          omega

theorem firstAccepting_eq_none_iff {start : Nat} :
    firstAccepting g id start rules = .ok none ↔
      ∀ rule ∈ rules, rule.pattern.accepts g id = .ok false := by
  induction rules generalizing start with
  | nil => simp [firstAccepting, pure, Except.pure]
  | cons first rules ih =>
      rw [List.forall_mem_cons]
      constructor
      · intro h
        obtain ⟨accepted, haccepted, -⟩ := of_bind_eq_ok h
        rw [firstAccepting_cons haccepted] at h
        by_cases hfirst : accepted = true
        · simp [hfirst] at h
        · rw [if_neg hfirst] at h
          exact ⟨by simpa [hfirst] using haccepted, ih.mp h⟩
      · rintro ⟨hfirst, hrest⟩
        rw [firstAccepting_cons hfirst]
        exact ih.mpr hrest

/-! ### The whole list -/

/-- `rule` is the first in the list that accepts the node, and `position` is how many rules before
it start from the same opcode. -/
def IsFirst (rules : List (Rule O T)) (g : IrGraph) (id : NodeId) (position : Nat)
    (rule : Rule O T) : Prop :=
  ∃ earlier later, rules = earlier ++ rule :: later ∧ rule.pattern.accepts g id = .ok true ∧
    (∀ r ∈ earlier, r.pattern.accepts g id = .ok false) ∧
    position = earlier.countP fun r => r.pattern.rootOpcode? = rule.pattern.rootOpcode?

/-- A usable rule that is not filed under the node's opcode does not accept the node. -/
theorem accepts_of_opcode_ne {n : IrNode} (hrange : g.InRange) (hn : g.node? id = some n)
    (husable : ¬rule.IsUnusable) (hne : rule.pattern.rootOpcode? ≠ some n.opcode) :
    rule.pattern.accepts g id = .ok false := by
  obtain ⟨opcode, hroot⟩ := Option.ne_none_iff_exists'.mp (not_or.mp husable).1
  -- On a graph whose operands are in range there is an answer, and it cannot be yes.
  have haccepts := (Pattern.agrees hrange rule.pattern id (Graph.lt_size_of_node? hn)).accepts
  by_cases hempty : (rule.pattern.solutions g id).isEmpty = true
  · rw [haccepts, hempty]
    rfl
  · have hyes : rule.pattern.accepts g id = .ok true := by
      rw [haccepts]
      simp [hempty]
    have hopcode := Pattern.opcode_of_accepts rule.pattern hn hroot hyes
    exact absurd (hroot.trans (congrArg some hopcode.symm)) hne

theorem choose_eq_firstAccepting {n : IrNode} (h : build types rules = .ok table)
    (hn : g.node? id = some n) :
    table.choose g id
      = firstAccepting g id 0
          (rules.filter fun rule => rule.pattern.rootOpcode? = some n.opcode) := by
  rw [choose, Graph.node_eq_ok hn, ok_bind, rulesFor_of_build h]

theorem isFirst_of_choose (h : build types rules = .ok table) (hrange : g.InRange)
    (hchoose : table.choose g id = .ok (some (position, rule))) :
    IsFirst rules g id position rule := by
  obtain ⟨n, hn, -, -⟩ := of_choose_some hchoose
  rw [choose_eq_firstAccepting h hn, firstAccepting_eq_some_iff] at hchoose
  obtain ⟨filed, later, hfiled, haccepts, hearlier, rfl⟩ := hchoose
  -- Put back what the file leaves out: `skipped` are the rules between the filed ones and `rule`.
  obtain ⟨front, back, rfl, rfl, hback⟩ := List.filter_eq_append_iff.mp hfiled
  obtain ⟨skipped, rest, rfl, hskipped, hroot, -⟩ := List.filter_eq_cons_iff.mp hback
  have hroot : rule.pattern.rootOpcode? = some n.opcode := by simpa using hroot
  refine ⟨front ++ skipped, rest, by simp, haccepts, ?_, ?_⟩
  · intro r hr
    by_cases hfile : r.pattern.rootOpcode? = some n.opcode
    · have hfront : r ∈ front := by
        rcases List.mem_append.mp hr with hfront | hskip
        · exact hfront
        · exact absurd hfile (by simpa using hskipped r hskip)
      exact hearlier r (List.mem_filter.mpr ⟨hfront, by simpa using hfile⟩)
    · refine accepts_of_opcode_ne hrange hn ((of_addAll_ok h).2 r ?_) hfile
      rw [← List.append_assoc]
      exact List.mem_append_left _ hr
  · have hnone : skipped.countP (fun r => r.pattern.rootOpcode? = some n.opcode) = 0 :=
      List.countP_eq_zero.mpr hskipped
    rw [hroot, List.countP_append, hnone, List.countP_eq_length_filter]
    omega

theorem choose_of_isFirst (h : build types rules = .ok table) (hrange : g.InRange)
    (hid : id < g.size) (hfirst : IsFirst rules g id position rule) :
    table.choose g id = .ok (some (position, rule)) := by
  obtain ⟨n, hn⟩ := Graph.exists_node? hid
  obtain ⟨earlier, later, rfl, haccepts, hearlier, rfl⟩ := hfirst
  have hroot : rule.pattern.rootOpcode? = some n.opcode := by
    by_cases hfile : rule.pattern.rootOpcode? = some n.opcode
    · exact hfile
    · rw [accepts_of_opcode_ne hrange hn ((of_addAll_ok h).2 rule (by simp)) hfile] at haccepts
      simp at haccepts
  rw [choose_eq_firstAccepting h hn, firstAccepting_eq_some_iff, List.filter_append,
    List.filter_cons_of_pos (by simpa using hroot)]
  refine ⟨_, _, rfl, haccepts, ?_, ?_⟩
  · intro r hr
    exact hearlier r (List.mem_filter.mp hr).1
  · rw [hroot, List.countP_eq_length_filter]
    omega

/-- There is no rule for a node just if no rule of the whole list accepts it. -/
theorem choose_eq_none_iff (h : build types rules = .ok table) (hrange : g.InRange)
    (hid : id < g.size) :
    table.choose g id = .ok none ↔ ∀ rule ∈ rules, rule.pattern.accepts g id = .ok false := by
  obtain ⟨n, hn⟩ := Graph.exists_node? hid
  rw [choose_eq_firstAccepting h hn, firstAccepting_eq_none_iff]
  constructor
  · intro hfiled rule hmem
    by_cases hfile : rule.pattern.rootOpcode? = some n.opcode
    · exact hfiled rule (List.mem_filter.mpr ⟨hmem, by simpa using hfile⟩)
    · exact accepts_of_opcode_ne hrange hn ((of_addAll_ok h).2 rule hmem) hfile
  · intro hall rule hmem
    exact hall rule (List.mem_filter.mp hmem).1

/--
**A table agrees with a look through its rules.**  A list of rules makes no table just if one of
them starts from no opcode or narrows at some depth to a type other than `U8`, `U16`, `U32`, `U64`
and `PTR`, and the error is what is said against the first of these.  Otherwise the table counts as
many rules as the list has.  For every node of a graph whose operands are in range it chooses the
first rule of the whole list that accepts the node, with the number of rules before it that start
from the same opcode, and no rule just if none accepts it.
-/
theorem build_eq_scan (types : TypeMap T) (rules : List (Rule O T)) :
    ((∃ error, build types rules = .error error) ↔ ∃ rule ∈ rules, rule.IsUnusable) ∧
      (∀ error, build types rules = .error error ↔
        ∃ earlier rule later, rules = earlier ++ rule :: later ∧
          (∀ r ∈ earlier, ¬r.IsUnusable) ∧ rule.IsUnusable ∧ rule.Refused error) ∧
      ∀ table, build types rules = .ok table → table.count = rules.length ∧
        ∀ (g : IrGraph) (id : NodeId), g.InRange → id < g.size →
          (∃ found, table.choose g id = .ok found) ∧
          (∀ position rule, table.choose g id = .ok (some (position, rule)) ↔
            IsFirst rules g id position rule) ∧
          (table.choose g id = .ok none ↔
            ∀ rule ∈ rules, rule.pattern.accepts g id = .ok false) := by
  refine ⟨exists_build_error_iff, fun error => addAll_eq_error_iff, ?_⟩
  intro table hbuild
  refine ⟨?_, ?_⟩
  · have hcount : table.count = 0 + rules.length := (of_addAll_ok hbuild).1
    rwa [Nat.zero_add] at hcount
  · intro g id hrange hid
    refine ⟨table.exists_choose hrange hid, fun position rule => ⟨?_, ?_⟩,
      choose_eq_none_iff hbuild hrange hid⟩
    · exact isFirst_of_choose hbuild hrange
    · exact choose_of_isFirst hbuild hrange hid

/-- Rules of three opcodes in turn, one of them wrapped twice, and a node for the last of the four;
and two unusable rules, the first of which narrows deep inside. -/
theorem build_eq_scan_interleaved :
    let rules : List (Rule X86.Opcode X86.RegType) :=
      [ { pattern := .typed .u16 (.marked (.op .add [.typed .u8 .bind]))
          shaping := .template .addRi [.copyOperand 0, .mapType] },
        .exchange .sub .subRr,
        { pattern := .markedOp .imm [], shaping := .template .movRi [.copyImm 0 0, .mapType] },
        .exchange .add .addRr ]
    let table : Table X86.Opcode X86.RegType :=
      { index := [(.add, [rules[0], rules[3]]), (.sub, [rules[1]]), (.imm, [rules[2]])]
        types := X86.types
        count := 4 }
    let bad : List (Rule X86.Opcode X86.RegType) :=
      [ .exchange .sub .subRr,
        { pattern := .op .add [.typed .u8 .bind, .marked (.typed .bool .wildcard)]
          shaping := .sameShape .addRr },
        { pattern := .bind, shaping := .sameShape .movRi } ]
    let g : IrGraph :=
      { nodes :=
          #[{ opcode := .imm, type := .prim .u16, imms := [5] },
            { opcode := .add, type := .prim .u16, operands := [0, 0] },
            { opcode := .mul, type := .prim .u16, operands := [0, 1] }]
        root := some 1 }
    build X86.types rules = .ok table ∧ table.count = rules.length ∧ g.InRange ∧
      table.choose g 1 = .ok (some (1, rules[3])) ∧ table.choose g 2 = .ok none ∧
      build X86.types bad
        = .error (.invalidRule "ADD" "type selection must be U8-U64 or PTR, got BOOL") := by
  intro rules table bad g
  have hbuild : build X86.types rules = .ok table := rfl
  have hrange : g.InRange := by decide
  obtain ⟨-, -, hgood⟩ := build_eq_scan X86.types rules
  obtain ⟨hcount, hchoose⟩ := hgood table hbuild
  obtain ⟨-, hfirst, -⟩ := hchoose g 1 hrange (by decide)
  obtain ⟨-, -, hnone⟩ := hchoose g 2 hrange (by decide)
  obtain ⟨-, hrefused, -⟩ := build_eq_scan X86.types bad
  refine ⟨hbuild, hcount, hrange, ?_, ?_, ?_⟩
  · refine (hfirst 1 rules[3]).mpr ⟨[rules[0], rules[1], rules[2]], [], rfl, rfl, ?_, rfl⟩
    intro r hr
    obtain rfl | rfl | rfl : r = rules[0] ∨ r = rules[1] ∨ r = rules[2] := by simpa using hr
    · rfl
    · rfl
    · rfl
  · refine hnone.mpr fun r (hr : r ∈ [rules[0], rules[1], rules[2], rules[3]]) => ?_
    obtain rfl | rfl | rfl | rfl : r = rules[0] ∨ r = rules[1] ∨ r = rules[2] ∨ r = rules[3] := by
      simpa using hr
    · rfl
    · rfl
    · rfl
    · rfl
  · refine (hrefused _).mpr ⟨[bad[0]], bad[1], [bad[2]], rfl, by decide, by decide, ?_⟩
    exact @Rule.Refused.narrowed _ _ bad[1] .add .bool [.u8] [] rfl rfl (by decide) (by decide)

end Table

end Codegen
