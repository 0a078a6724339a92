/-
One run of the command line, from arguments to what is printed.

A container is read, one of its functions is chosen and compiled, and the result is
printed as a listing or as Graphviz text.  Files are read through a function, so
that a session is a value.
-/
import Codegen.Bytecode.Draft
import Codegen.CommandLine.Options
import Codegen.Graph.Dot
import Codegen.Graph.Listing
import Codegen.X86

namespace Codegen.CommandLine

/-- How a session ends. -/
inductive Outcome where
  /-- There is something to print. -/
  | printed (text : String)
  /-- The arguments make no sense. -/
  | usage (error : UsageError)
  /-- The input cannot be read. -/
  | unreadable (path : String)
  /-- The container or the choice of the function is wrong. -/
  | refused (text : String)
  /-- The function cannot be compiled. -/
  | fatal (diagnostic : Diagnostic)
  | fault (fault : Fault)
deriving DecidableEq, Repr

/-- The exit code of the process. -/
def Outcome.code : Outcome → Nat
  | printed _ => 0
  | usage _ => 2
  | unreadable _ | refused _ | fatal _ => 1
  | fault _ => 101

/-- How a session ends, and what it notes. -/
structure Session where
  outcome : Outcome
  journal : Journal
deriving DecidableEq, Repr

def versionText : String := "dagsel 0.1.0\n"

def helpText : String :=
  "DAG instruction selection for bytecode functions\n\n" ++
  "Usage: dagsel [OPTIONS] [INPUT]\n\n" ++
  "Arguments:\n" ++
  "  [INPUT]  Bytecode container to load\n\n" ++
  "Options:\n" ++
  "  -f, --function <FUNCTION>  Function pool index to compile (defaults to the entrypoint)\n" ++
  "      --dot                  Print Graphviz instead of a listing\n" ++
  "      --ir                   Stop before selection and print the IR DAG\n" ++
  "      --demo                 Use a built-in sample container instead of INPUT\n" ++
  "  -v, --verbose...           Increase log verbosity (-v debug, -vv trace)\n" ++
  "  -h, --help                 Print help\n" ++
  "  -V, --version              Print version\n"

/-- The difference of an immediate and itself, added to the same difference. -/
def sample : List UInt8 :=
  let records : List Record :=
    [.imm .u32 1, .ref 0, .binary .sub .u32, .ref 0, .ref 0, .binary .sub .u32, .binary .add .u32]
  let entry : FunctionDraft := { flags := entrypointFlag, pieces := records.map .record }
  Draft.encode { major := 0, minor := 1, functions := [entry] }

/-- The least important entries that are shown. -/
def Options.level (options : Options) : Level :=
  match options.verbosity with
  | 0 => .warn
  | 1 => .debug
  | _ => .trace

/-- A graph as the options want it. -/
def Options.render {O T : Type} [InstructionSet O] [ToString T] (options : Options) (g : Graph O T) :
    Outcome :=
  if options.dot then
    match g.toDot with
    | .ok text => .printed text
    | .error x => .fault x
  else .printed g.listing

/-- The function to compile, with its position, or the text that says why there is none. -/
def Options.choose (options : Options) (container : Container) : Except String (Nat × Function) :=
  match options.function.or container.entrypoint with
  | none => .error "\"no entrypoint in container; pass --function\""
  | some index =>
    match container.functions[index]? with
    | some f => .ok (index, f)
    | none =>
      let count := container.functions.length
      .error s!"\"function {index} out of range ({count} functions)\""

/-- Compile a graph and print the result. -/
def Options.compile (options : Options) (g : IrGraph) : Session :=
  if options.ir then { outcome := options.render g, journal := [] }
  else
    { journal := X86.table.buildJournal ++ X86.compile.journal g
      outcome :=
        match X86.compile.run g with
        | .ok selected => options.render selected
        | .error (.reject d) => .fatal d
        | .error (.fault x) => .fault x }

/-- Read a container, and compile and print one of its functions. -/
def Options.process (options : Options) (data : List UInt8) : Session :=
  let parsed := Container.parseJournal data
  match Container.parse data with
  | .error (.reject e) => { outcome := .refused e.describe, journal := parsed }
  | .error (.fault x) => { outcome := .fault x, journal := parsed }
  | .ok container =>
    match options.choose container with
    | .error text => { outcome := .refused text, journal := parsed }
    | .ok (index, f) =>
      let session := options.compile f.graph
      let note : Entry := .debug s!"compiling function {index} ({f.graph.size} nodes)"
      { session with journal := parsed ++ note :: session.journal }

/-- The file that has to be read, if any; a sample needs none. -/
def Options.path? (options : Options) : Option String :=
  if options.demo then none else options.input

/-- Carry out the options. -/
def Options.run (options : Options) (readFile : String → Option (List UInt8)) : Session :=
  let session :=
    match options.path? with
    | none => options.process sample
    | some path =>
      match readFile path with
      | some data => options.process data
      | none => { outcome := .unreadable path, journal := [] }
  { session with journal := session.journal.atLeast options.level }

/-- A whole session. -/
def Session.run (args : List String) (readFile : String → Option (List UInt8)) : Session :=
  match Options.parse args with
  | .ok options => options.run readFile
  | .error .version => { outcome := .printed versionText, journal := [] }
  | .error .help => { outcome := .printed helpText, journal := [] }
  | .error (.usage e) => { outcome := .usage e, journal := [] }

/-- What goes to standard output. -/
def Outcome.output : Outcome → String
  | printed text => text
  | _ => ""

/-- What goes to standard error. -/
def Outcome.complaint (location : String) : Outcome → String
  | printed _ => ""
  | usage e => "error: " ++ e.message ++ "\n\nFor more information, try '--help'.\n"
  | unreadable path => "Error: cannot read " ++ path ++ "\n"
  | refused text => "Error: " ++ text ++ "\n"
  | fatal d => d.report location
  | fault .outOfRange => "access out of range\n"
  | fault (.broken area text) =>
    Diagnostic.report { error := .invariant text, subsystem := area } location

end Codegen.CommandLine
