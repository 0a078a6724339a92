/-
The options of the command line.

Short options may be joined behind one dash, and the value of `-f` may be attached,
with or without `=`.  Long options are written out in full.  A value that stands
alone must not look like an option, which a single dash does not.  `--` ends the
options.  Every option but `-v` may be given once.  Arguments are taken from left to
right, so an error in front of `--version` wins over it and one behind it does not.
-/

namespace Codegen.CommandLine

/-- What is wrong with the arguments. -/
inductive UsageError where
  | unknownOption (text : String)
  | missingValue (option : String)
  | unexpectedValue (option : String)
  | invalidNumber (text : String)
  | repeated (option : String)
  | emptyInput
  | surplusInput (text : String)
  | missingInput
deriving DecidableEq, Repr

def UsageError.message : UsageError → String
  | unknownOption text => s!"unexpected argument '{text}' found"
  | missingValue option => s!"a value is required for '{option}' but none was supplied"
  | unexpectedValue option => s!"unexpected value for '{option}' found"
  | invalidNumber text => s!"invalid value '{text}' for '--function <FUNCTION>'"
  | repeated option => s!"the argument '{option}' cannot be used multiple times"
  | emptyInput => "a value is required for '[INPUT]' but none was supplied"
  | surplusInput text => s!"unexpected argument '{text}' found"
  | missingInput => "the following required arguments were not provided: <INPUT>"

/-- What the arguments ask for. -/
structure Options where
  /-- The container to read. -/
  input : Option String := none
  /-- The function to compile, if not the entry point. -/
  function : Option Nat := none
  /-- Graphviz text instead of a listing. -/
  dot : Bool := false
  /-- Stop before selection. -/
  ir : Bool := false
  /-- A sample in place of the input. -/
  demo : Bool := false
  /-- How often `-v` was given. -/
  verbosity : Nat := 0
deriving DecidableEq, Repr

/-- Why the arguments are not read to the end. -/
inductive EarlyExit where
  | usage (error : UsageError)
  | version
  | help
deriving DecidableEq, Repr

/-- An unsigned 64-bit number in decimal, which may have a plus sign and leading zeros. -/
def parseIndex? (text : String) : Option Nat :=
  let digits :=
    match text.toList with
    | '+' :: rest => rest
    | all => all
  if digits.isEmpty ∨ ¬ digits.all Char.isDigit then none
  else
    let value := digits.foldl (fun n c => 10 * n + (c.toNat - '0'.toNat)) 0
    if value < UInt64.size then some value else none

/-- The state between two arguments. -/
structure Scan where
  options : Options := {}
  /-- The next argument has to be the value of `--function`. -/
  awaiting : Bool := false
  /-- No options any more. -/
  inputOnly : Bool := false
deriving DecidableEq, Repr

namespace Scan

def fail {α : Type} (e : UsageError) : Except EarlyExit α := .error (.usage e)

/-- Take the value of `--function`. -/
def setFunction (s : Scan) (text : String) : Except EarlyExit Scan :=
  match parseIndex? text with
  | none => fail (.invalidNumber text)
  | some index =>
    if s.options.function.isSome then fail (.repeated "--function")
    else .ok { s with options := { s.options with function := some index }, awaiting := false }

def setDot (s : Scan) : Except EarlyExit Scan :=
  if s.options.dot then fail (.repeated "--dot")
  else .ok { s with options := { s.options with dot := true } }

def setIr (s : Scan) : Except EarlyExit Scan :=
  if s.options.ir then fail (.repeated "--ir")
  else .ok { s with options := { s.options with ir := true } }

def setDemo (s : Scan) : Except EarlyExit Scan :=
  if s.options.demo then fail (.repeated "--demo")
  else .ok { s with options := { s.options with demo := true } }

def addVerbose (s : Scan) : Scan :=
  { s with options := { s.options with verbosity := s.options.verbosity + 1 } }

/-- Take the container to read. -/
def setInput (s : Scan) (text : String) : Except EarlyExit Scan :=
  if s.options.input.isSome then fail (.surplusInput text)
  else if text.isEmpty then fail .emptyInput
  else .ok { s with options := { s.options with input := some text } }

/-- A long option, with the value attached to it by `=`. -/
def long (s : Scan) (name : String) (value? : Option String) : Except EarlyExit Scan :=
  if name = "function" then
    match value? with
    | some value => s.setFunction value
    | none => .ok { s with awaiting := true }
  else if name ∈ ["dot", "ir", "demo", "verbose", "version", "help"] ∧ value?.isSome then
    fail (.unexpectedValue ("--" ++ name))
  else if name = "dot" then s.setDot
  else if name = "ir" then s.setIr
  else if name = "demo" then s.setDemo
  else if name = "verbose" then .ok s.addVerbose
  else if name = "version" then .error .version
  else if name = "help" then .error .help
  else fail (.unknownOption ("--" ++ name))

/-- Short options behind one dash. -/
def cluster (s : Scan) : List Char → Except EarlyExit Scan
  | [] => .ok s
  | 'v' :: rest => s.addVerbose.cluster rest
  | 'f' :: [] => .ok { s with awaiting := true }
  | 'f' :: '=' :: value => s.setFunction (String.ofList value)
  | 'f' :: value => s.setFunction (String.ofList value)
  | 'V' :: _ => .error .version
  | 'h' :: _ => .error .help
  | c :: _ => fail (.unknownOption ("-" ++ c.toString))

/-- Take one argument. -/
def step (s : Scan) (arg : String) : Except EarlyExit Scan :=
  if s.inputOnly then s.setInput arg
  else
    match arg.toList with
    | '-' :: c :: rest =>
      if s.awaiting then fail (.missingValue "--function")
      else if c ≠ '-' then s.cluster (c :: rest)
      else if rest.isEmpty then .ok { s with inputOnly := true }
      else
        let name := String.ofList (rest.takeWhile (· ≠ '='))
        match rest.dropWhile (· ≠ '=') with
        | [] => s.long name none
        | _ :: value => s.long name (some (String.ofList value))
    | _ => if s.awaiting then s.setFunction arg else s.setInput arg

/-- What is left to check when all arguments are taken. -/
def finish (s : Scan) : Except EarlyExit Options :=
  if s.awaiting then fail (.missingValue "--function")
  else if s.options.input.isNone ∧ ¬ s.options.demo then fail .missingInput
  else .ok s.options

end Scan

/-- The options that a list of arguments asks for. -/
def Options.parse (args : List String) : Except EarlyExit Options := do
  let s ← args.foldlM Scan.step {}
  s.finish

end Codegen.CommandLine
