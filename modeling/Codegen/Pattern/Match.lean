/-
Matching a pattern against a node.

Matching has two phases.  `accepts` only decides, and stops at the first part that
does not fit; it faults when it has to look at a node that does not exist.  `capture`
fills a buffer for a node that was accepted, and takes the same turn at every
commuting pattern: the operands as they stand if that fits, otherwise exchanged.
The buffer may be longer than the pattern has slots; what lies behind them is left
alone.
-/
import Codegen.Pattern.Basic

namespace Codegen

/-- What has been recorded, slot by slot. -/
abbrev Captures := List (Option NodeId)

/-! ### Questions that may fault

The second question is asked only if the first does not settle the matter. -/

/-- Yes if both answers are yes. -/
@[macro_inline] def both (first second : Except Fault Bool) : Except Fault Bool :=
  match first with
  | .ok true => second
  | .ok false => .ok false
  | .error x => .error x

/-- Yes if one of the answers is yes. -/
@[macro_inline] def either (first second : Except Fault Bool) : Except Fault Bool :=
  match first with
  | .ok true => .ok true
  | .ok false => second
  | .error x => .error x

namespace Pattern

mutual

/-- Does the node fit the pattern? -/
def accepts (g : IrGraph) : Pattern → NodeId → Except Fault Bool
  | .bind, _ => .ok true
  | .wildcard, _ => .ok true
  | .ignore, _ => .ok true
  | .op opcode operands, id => do
    let n ← g.node id
    if n.opcode = opcode ∧ operands.length ≤ n.operands.length then
      acceptsAll g operands n.operands
    else .ok false
  | .commuting opcode left right, id => do
    let n ← g.node id
    match n.operands with
    | [a, b] =>
      if n.opcode = opcode then
        either (both (accepts g left a) (accepts g right b))
          (both (accepts g right a) (accepts g left b))
      else .ok false
    | _ => .ok false
  | .typed type inner, id => do
    let n ← g.node id
    if n.type = .prim type then accepts g inner id else .ok false
  | .marked inner, id => accepts g inner id

/-- Do the operands fit the patterns, as far as both go? -/
def acceptsAll (g : IrGraph) : List Pattern → List NodeId → Except Fault Bool
  | p :: ps, id :: ids => both (accepts g p id) (acceptsAll g ps ids)
  | _, _ => .ok true

end

mutual

/-- Fill the slots of an accepted node. -/
def capture (g : IrGraph) : Pattern → NodeId → Captures → Except Fault Captures
  | .bind, id, buffer =>
    match buffer with
    | _ :: rest => .ok (some id :: rest)
    | [] => .error .outOfRange
  | .wildcard, _, buffer => .ok buffer
  | .ignore, _, buffer => .ok buffer
  | .op _ operands, id, buffer => do
    let n ← g.node id
    captureAll g operands n.operands buffer
  | .commuting _ left right, id, buffer => do
    let n ← g.node id
    match n.operands with
    | a :: b :: _ =>
      let straight ← both (left.accepts g a) (right.accepts g b)
      if left.slots ≤ buffer.length then
        let front ← capture g left (if straight then a else b) (buffer.take left.slots)
        let back ← capture g right (if straight then b else a) (buffer.drop left.slots)
        return front ++ back
      else .error .outOfRange
    | _ => .error .outOfRange
  | .typed _ inner, id, buffer => capture g inner id buffer
  | .marked inner, id, buffer =>
    match buffer with
    | _ :: rest => do
      let filled ← capture g inner id rest
      return some id :: filled
    | [] => .error .outOfRange

/-- Fill the slots of several accepted nodes, one stretch of the buffer after the other. -/
def captureAll (g : IrGraph) : List Pattern → List NodeId → Captures → Except Fault Captures
  | p :: ps, id :: ids, buffer =>
    if p.slots ≤ buffer.length then do
      let front ← capture g p id (buffer.take p.slots)
      let back ← captureAll g ps ids (buffer.drop p.slots)
      return front ++ back
    else .error .outOfRange
  | _, _, buffer => .ok buffer

end

/-- Both phases: whether the node fits, and the buffer, changed only if it does. -/
def matchInto (g : IrGraph) (p : Pattern) (id : NodeId) (buffer : Captures) :
    Except Fault (Bool × Captures) := do
  if ← p.accepts g id then
    let filled ← p.capture g id buffer
    return (true, filled)
  else return (false, buffer)

/-- A buffer with an empty slot for each slot of the pattern. -/
def freshBuffer (p : Pattern) : Captures := List.replicate p.slots none

end Pattern

end Codegen
