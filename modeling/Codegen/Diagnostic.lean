/-
Why a compilation stops, and how that is told.

A `CompileError` is the cause.  A `Diagnostic` adds where it was met: the subsystem,
the pass, and notes that callers append on the way out.  Notes never change the
cause.
-/
import Codegen.Bytecode.Error
import Codegen.Fault
import Codegen.Graph.Basic

namespace Codegen

/-- The cause of a failed compilation step. -/
inductive CompileError where
  /-- No rule covers a node, or the one that does cannot shape it. -/
  | unsupportedPattern (node : NodeId) (opcode : String)
  | illegalType (node : NodeId) (type reason : String)
  /-- A selection rule is wrong in itself. -/
  | invalidRule (opcode reason : String)
  | bytecode (inner : DecodeError)
  | invariant (text : String)
deriving DecidableEq, Repr

namespace CompileError

def message : CompileError → String
  | unsupportedPattern node opcode =>
    "no selection rule matches node " ++ NodeId.label node ++ s!" ({opcode})"
  | illegalType node type reason => s!"illegal {reason} type {type} on node " ++ NodeId.label node
  | invalidRule opcode reason => s!"invalid selection rule for {opcode}: {reason}"
  | bytecode inner => "malformed bytecode: " ++ inner.message
  | invariant text => s!"internal invariant violated: {text}"

/-- The name of a cause. -/
def kind : CompileError → String
  | unsupportedPattern .. => "UnsupportedPattern"
  | illegalType .. => "IllegalType"
  | invalidRule .. => "InvalidRule"
  | bytecode .. => "Bytecode"
  | invariant .. => "Invariant"

/-- The node that the error is about. -/
def node? : CompileError → Option NodeId
  | unsupportedPattern node _ | illegalType node _ _ => some node
  | _ => none

/-- The error that this one only passes on. -/
def inner? : CompileError → Option DecodeError
  | bytecode inner => some inner
  | _ => none

end CompileError

/-- A broken invariant as a cause, with the subsystem it belongs to. -/
def Fault.violation? : Fault → Option (CompileError × Subsystem)
  | .outOfRange => none
  | .broken area text => some (.invariant text, area)

/-- A cause and where it was met. -/
structure Diagnostic where
  error : CompileError
  subsystem : Subsystem
  pass : Option String := none
  notes : List String := []
deriving DecidableEq, Repr

namespace Diagnostic

def inPass (d : Diagnostic) (pass : String) : Diagnostic := { d with pass := some pass }

def addNote (d : Diagnostic) (note : String) : Diagnostic := { d with notes := d.notes ++ [note] }

/-- The diagnostic on one line, without its notes. -/
def summary (d : Diagnostic) : String :=
  "[" ++ d.subsystem.name ++ "] " ++ String.join (d.pass.toList.map (· ++ ": ")) ++ d.error.message

/-- The full report.  `location` says where in the compiler the diagnostic was raised, and the
report ends where a stack trace would follow. -/
def report (d : Diagnostic) (location : String) : String :=
  "Fatal Error: " ++ d.error.message ++ "\n" ++
    "In " ++ location ++ "\n" ++
    "In submodule " ++ d.subsystem.name ++ "\n" ++
    String.join (d.pass.toList.map fun pass => "In pass " ++ pass ++ "\n") ++
    "Notes:\n" ++
    String.join (d.notes.zipIdx.map fun (note, i) => toString i ++ ": " ++ note ++ "\n") ++
    "\nStacktrace:\n"

end Diagnostic

end Codegen
