/-
What a run notes about itself.

The operations of this library compute without side effects, so a log is a value
too: a run gives its entries back, in order, or there is a function that says which
entries a run on a given input writes.  Entries are kept at three levels, and a reader
who wants less filters by level.
-/

namespace Codegen

/-- How important an entry is, from detail to warning. -/
inductive Level where
  | trace
  | debug
  | warn
deriving DecidableEq, Repr

namespace Level

def name : Level → String
  | .trace => "TRACE"
  | .debug => "DEBUG"
  | .warn => "WARN"

/-- Higher ranks are more important. -/
def rank : Level → Nat
  | .trace => 0
  | .debug => 1
  | .warn => 2

end Level

/-- One line of the journal. -/
structure Entry where
  level : Level
  text : String
deriving DecidableEq, Repr

namespace Entry

def trace (text : String) : Entry := ⟨.trace, text⟩

def debug (text : String) : Entry := ⟨.debug, text⟩

def warn (text : String) : Entry := ⟨.warn, text⟩

/-- The line as it is printed. -/
def line (e : Entry) : String := e.level.name ++ " " ++ e.text

end Entry

/-- The entries of a run, oldest first. -/
abbrev Journal := List Entry

/-- The entries at `level` or above. -/
def Journal.atLeast (level : Level) (j : Journal) : Journal :=
  j.filter fun e => level.rank ≤ e.level.rank

end Codegen
