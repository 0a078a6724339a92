/-
How an operation stops short.

There are two very different reasons for an operation not to answer.  Its input may
be refused, with an error that says why: that is an ordinary result, and every
caller has to deal with it.  Or the caller may have broken a rule of use, such as
naming a node that does not exist: that is a `Fault`, and a program that respects
the rules never sees one.  `Stop` keeps the two apart, so that "no input leads to a
fault" can be said and proved.
-/

namespace Codegen

/-- The part of the compiler that a diagnostic or a broken invariant belongs to. -/
inductive Subsystem where
  | jit
  | rawExec
  | opt
  | isel
  | lower
  | misc
deriving DecidableEq, Repr

def Subsystem.all : List Subsystem := [.jit, .rawExec, .opt, .isel, .lower, .misc]

/-- The tag that reports print for a subsystem. -/
def Subsystem.name : Subsystem → String
  | .jit => "JIT"
  | .rawExec => "RAW_EXEC"
  | .opt => "OPT"
  | .isel => "ISEL"
  | .lower => "LOWER"
  | .misc => "MISC"

instance : ToString Subsystem := ⟨Subsystem.name⟩

/-- A broken rule of use. -/
inductive Fault where
  /-- An access past the end of a graph, an operand list or a capture buffer. -/
  | outOfRange
  /-- A stated invariant of `area` does not hold. -/
  | broken (area : Subsystem) (text : String)
deriving DecidableEq, Repr

/-- Why an operation gave no result: it refused its input, or a rule of use was broken. -/
inductive Stop (ε : Type) where
  | reject (error : ε)
  | fault (fault : Fault)
deriving DecidableEq, Repr

namespace Stop

variable {ε δ α : Type}

/-- Restate the rejection; a fault stays what it is. -/
def map (f : ε → δ) : Stop ε → Stop δ
  | .reject e => .reject (f e)
  | .fault x => .fault x

/-- An operation that can only fault, as one that could also reject. -/
def ofFault : Except Fault α → Except (Stop ε) α
  | .ok a => .ok a
  | .error x => .error (.fault x)

/-- An operation that can only reject, as one that could also fault. -/
def ofReject : Except ε α → Except (Stop ε) α
  | .ok a => .ok a
  | .error e => .error (.reject e)

@[simp] theorem ofFault_ok (a : α) : (ofFault (.ok a) : Except (Stop ε) α) = .ok a := rfl

@[simp] theorem ofFault_error (x : Fault) :
    (ofFault (.error x) : Except (Stop ε) α) = .error (.fault x) := rfl

@[simp] theorem ofReject_ok (a : α) : (ofReject (.ok a) : Except (Stop ε) α) = .ok a := rfl

@[simp] theorem ofReject_error (e : ε) :
    (ofReject (.error e) : Except (Stop ε) α) = .error (.reject e) := rfl

end Stop

end Codegen
