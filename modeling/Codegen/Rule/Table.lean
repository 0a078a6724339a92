/-
Tables of rules, indexed by the opcode that a rule starts from.

A table is built once from a list of rules.  Every rule has to fix an opcode and may
narrow to scalar types only; the first rule that does not is the error.  The rules
of one opcode keep their order, and the first of them that accepts a node is chosen.
-/
import Codegen.Journal
import Codegen.Pattern.Text
import Codegen.Rule.Basic

namespace Codegen

variable {O T : Type}

/-- The rules of each opcode, opcodes in order of first appearance. -/
abbrev RuleIndex (O T : Type) := List (Opcode × List (Rule O T))

namespace RuleIndex

/-- Put a rule behind those of the same opcode. -/
def add (opcode : Opcode) (rule : Rule O T) : RuleIndex O T → RuleIndex O T
  | [] => [(opcode, [rule])]
  | (key, rules) :: rest =>
    if key = opcode then (key, rules ++ [rule]) :: rest else (key, rules) :: add opcode rule rest

/-- The rules of an opcode, in the order in which they were added. -/
def rulesFor (index : RuleIndex O T) (opcode : Opcode) : List (Rule O T) :=
  match index with
  | [] => []
  | (key, rules) :: rest => if key = opcode then rules else rulesFor rest opcode

end RuleIndex

/-- The opcode a rule starts from, or why the rule cannot be used. -/
def Rule.root (r : Rule O T) : Except CompileError Opcode :=
  match r.pattern.rootOpcode? with
  | none =>
    .error (.invalidRule "<any>" ("rule must root on an opcode: " ++ r.pattern.describe))
  | some opcode =>
    match r.pattern.badType? with
    | some type => .error (.invalidRule opcode.name (Pattern.badTypeReason type))
    | none => .ok opcode

/-- Rules by opcode, and the types of the target. -/
structure Table (O T : Type) where
  index : RuleIndex O T
  types : TypeMap T
  /-- How many rules there are in all. -/
  count : Nat

namespace Table

/-- Add rules one after the other, up to the first that cannot be used. -/
def addAll (table : Table O T) : List (Rule O T) → Except CompileError (Table O T)
  | [] => .ok table
  | rule :: rules => do
    let opcode ← rule.root
    addAll { table with index := table.index.add opcode rule, count := table.count + 1 } rules

/-- The table of a list of rules. -/
def build (types : TypeMap T) (rules : List (Rule O T)) : Except CompileError (Table O T) :=
  addAll { index := [], types, count := 0 } rules

def rulesFor (table : Table O T) (opcode : Opcode) : List (Rule O T) := table.index.rulesFor opcode

def isEmpty (table : Table O T) : Bool := table.count == 0

/-- What `build` notes when it succeeds. -/
def buildJournal (table : Table O T) : Journal :=
  [.debug s!"built selector table: {table.count} rules over {table.index.length} opcodes"]

/-- The first of some rules that accepts a node, with its position counted from `position`. -/
def firstAccepting (g : IrGraph) (id : NodeId) (position : Nat) :
    List (Rule O T) → Except Fault (Option (Nat × Rule O T))
  | [] => return none
  | rule :: rules => do
    if ← rule.pattern.accepts g id then return some (position, rule)
    else firstAccepting g id (position + 1) rules

/-- The first rule for the node's opcode that accepts the node, with its position among them. -/
def choose (table : Table O T) (g : IrGraph) (id : NodeId) :
    Except Fault (Option (Nat × Rule O T)) := do
  let n ← g.node id
  firstAccepting g id 0 (table.rulesFor n.opcode)

end Table

end Codegen
