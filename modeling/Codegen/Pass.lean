/-
Passes and their composition.

A pass takes a value and gives another or stops with a diagnostic.  Passes on one
type form pipelines, which note each pass before it runs; two passes follow each
other if the types fit.  Either way the first diagnostic ends the run and is handed
on as it is.

A run gives back what it has noted together with how it ended, and a sequence of runs
notes what its parts note, as far as it gets.  What the compiler notes are entries of the
journal, but nothing in the composition of passes depends on that.

A `Plan` is a tree of pipelines and sequences over leaves of any kind.  It says how
passes are grouped, so that "grouping does not matter" can be stated.  Its leaves can be
made to note themselves, and then a run shows which of them it has reached.
-/
import Codegen.Diagnostic
import Codegen.Journal

namespace Codegen

/-- What a run leaves behind: its notes, the oldest first, and how it ended. -/
structure Run (ν β : Type) where
  notes : List ν
  outcome : Except (Stop Diagnostic) β

namespace Run

variable {ν β γ : Type}

/-- A run that notes nothing. -/
def quiet (outcome : Except (Stop Diagnostic) β) : Run ν β := { notes := [], outcome }

/-- Something is noted before the run. -/
def noting (note : ν) (r : Run ν β) : Run ν β := { r with notes := note :: r.notes }

/-- Go on from the result, if there is one. -/
def andThen (r : Run ν β) (next : β → Run ν γ) : Run ν γ :=
  match r.outcome with
  | .error stop => { notes := r.notes, outcome := .error stop }
  | .ok b =>
    let later := next b
    { notes := r.notes ++ later.notes, outcome := later.outcome }

end Run

/-- A named step of a compilation, with notes of type `ν`. -/
structure NotingPass (ν α β : Type) where
  name : String
  perform : α → Run ν β

namespace NotingPass

variable {ν α β γ : Type}

/-- How a run on the given value ends. -/
def run (p : NotingPass ν α β) (a : α) : Except (Stop Diagnostic) β := (p.perform a).outcome

/-- What a run on the given value notes, where that is a journal. -/
def journal (p : NotingPass Entry α β) (a : α) : Journal := (p.perform a).notes

/-- One pass, then another on its result. -/
def andThen (p : NotingPass ν α β) (q : NotingPass ν β γ) : NotingPass ν α γ where
  name := p.name ++ " -> " ++ q.name
  perform a := (p.perform a).andThen q.perform

/-- Run passes on one type in order, up to the first that stops, and note each before it runs. -/
def performAll (announce : String → ν) : List (NotingPass ν α α) → α → Run ν α
  | [], a => .quiet (.ok a)
  | p :: ps, a => ((p.perform a).noting (announce p.name)).andThen (performAll announce ps)

/-- Passes on one type as one pass. -/
def inOrder (announce : String → ν) (ps : List (NotingPass ν α α)) : NotingPass ν α α where
  name := "pipeline(" ++ ", ".intercalate (ps.map name) ++ ")"
  perform := performAll announce ps

end NotingPass

/-- A pass of the compiler, with entries of the journal for notes. -/
abbrev Pass := NotingPass Entry

namespace Pass

/-- The entry for a pass that is about to run. -/
def announcement (name : String) : Entry := .debug s!"running pass {name}"

/-- Passes on one type as one pass, which announces each of them. -/
def pipeline {α : Type} (ps : List (Pass α α)) : Pass α α := .inOrder announcement ps

end Pass

/-- How leaves of type `ι` are grouped into pipelines and sequences. -/
inductive Plan (ι : Type) where
  | leaf (step : ι)
  | pipeline (parts : List (Plan ι))
  | andThen (first second : Plan ι)

namespace Plan

variable {ι α ν : Type}

section Compose

variable (announce : String → ν) (meaning : ι → NotingPass ν α α)

mutual

/-- The leaves put together as the plan says. -/
def compose : Plan ι → NotingPass ν α α
  | .leaf step => meaning step
  | .pipeline parts => .inOrder announce (composeAll parts)
  | .andThen first second => (compose first).andThen (compose second)

/-- The same for several plans. -/
def composeAll : List (Plan ι) → List (NotingPass ν α α)
  | [] => []
  | p :: ps => compose p :: composeAll ps

end

end Compose

variable (meaning : ι → Pass α α)

/-- The pass that a plan stands for. -/
def toPass (p : Plan ι) : Pass α α := p.compose Pass.announcement meaning

/-- The pass of a leaf, which also notes the leaf. -/
def marked (step : ι) : NotingPass (Entry ⊕ ι) α α where
  name := (meaning step).name
  perform a :=
    let r := (meaning step).perform a
    { notes := .inr step :: r.notes.map .inl, outcome := r.outcome }

/-- The same pass, with a note of each leaf that is run. -/
def traced (p : Plan ι) : NotingPass (Entry ⊕ ι) α α :=
  p.compose (fun name => .inl (Pass.announcement name)) (marked meaning)

/-- The leaves that a run on `a` reaches, in order. -/
def reached (a : α) (p : Plan ι) : List ι :=
  ((p.traced meaning).perform a).notes.filterMap Sum.getRight?

end Plan

end Codegen
