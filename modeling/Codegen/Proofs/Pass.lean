/-
Grouping passes changes nothing.

A plan says how passes are grouped.  Its leaves, read from left to right, say which passes
there are and in what order, and that is all that counts: a run goes through the leaves
one by one, hands each the value that the one before has made, and ends behind the last or
at the first that stops.

`Course` says what it is to go through a row of steps like that, with the steps that are
reached and the outcome.  It knows nothing of groups.  That every plan takes the course of
its leaves is shown along the plan: a group of plans in a row takes the course of the row,
since a course may be cut wherever one likes.

Which leaves are reached is read off the notes of a run whose leaves note themselves.  That
run is the run of the plan in all other respects: without the marks of the leaves its notes
are the journal, and it ends in the same way.
-/
import Codegen.Ir
import Codegen.Pass
import Codegen.Proofs.Fault

namespace Codegen

/-! ### Runs in sequence -/

namespace Run

variable {ν μ β γ : Type}

theorem outcome_andThen (r : Run ν β) (next : β → Run ν γ) :
    (r.andThen next).outcome = r.outcome >>= fun b => (next b).outcome := by
  unfold andThen
  cases r.outcome with
  | error stop => rfl
  | ok b => rfl

theorem andThen_of_ok {r : Run ν β} {b : β} (h : r.outcome = .ok b) (next : β → Run ν γ) :
    r.andThen next = ⟨r.notes ++ (next b).notes, (next b).outcome⟩ := by
  simp only [andThen, h]

theorem andThen_of_error {r : Run ν β} {stop : Stop Diagnostic} (h : r.outcome = .error stop)
    (next : β → Run ν γ) : r.andThen next = ⟨r.notes, .error stop⟩ := by
  simp only [andThen, h]

/-- What two rows of notes have together if each has it, the notes of a sequence have. -/
theorem notes_andThen {Q : List ν → Prop} (happend : ∀ xs ys, Q xs → Q ys → Q (xs ++ ys))
    {r : Run ν β} {next : β → Run ν γ} (hr : Q r.notes) (hnext : ∀ b, Q (next b).notes) :
    Q (r.andThen next).notes := by
  cases h : r.outcome with
  | error stop =>
      rw [andThen_of_error h]
      exact hr
  | ok b =>
      rw [andThen_of_ok h]
      exact happend _ _ hr (hnext b)

/-- The run with only some of its notes, perhaps put in another way. -/
def keepNotes (f : ν → Option μ) (r : Run ν β) : Run μ β :=
  { notes := r.notes.filterMap f, outcome := r.outcome }

theorem keepNotes_andThen (f : ν → Option μ) (r : Run ν β) (next : β → Run ν γ) :
    (r.andThen next).keepNotes f = (r.keepNotes f).andThen fun b => (next b).keepNotes f := by
  cases h : r.outcome with
  | error stop =>
      rw [andThen_of_error h, andThen_of_error (r := r.keepNotes f) h, keepNotes, keepNotes]
  | ok b =>
      rw [andThen_of_ok h, andThen_of_ok (r := r.keepNotes f) h, keepNotes, keepNotes, keepNotes,
        List.filterMap_append]

theorem keepNotes_noting {f : ν → Option μ} {note : ν} {note' : μ} (h : f note = some note')
    (r : Run ν β) : (r.noting note).keepNotes f = (r.keepNotes f).noting note' := by
  simp only [keepNotes, noting, List.filterMap_cons_some h]

end Run

namespace NotingPass

variable {α β γ ν μ : Type} {announce : String → ν} {announce' : String → μ} {f : ν → Option μ}

theorem run_andThen (p : NotingPass ν α β) (q : NotingPass ν β γ) (a : α) :
    (p.andThen q).run a = p.run a >>= q.run :=
  Run.outcome_andThen _ _

theorem run_inOrder_cons (p : NotingPass ν α α) (ps : List (NotingPass ν α α)) (a : α) :
    (inOrder announce (p :: ps)).run a = p.run a >>= (inOrder announce ps).run :=
  Run.outcome_andThen _ _

/-- The pass with only some of its notes. -/
def keepNotes (f : ν → Option μ) (p : NotingPass ν α β) : NotingPass μ α β where
  name := p.name
  perform a := (p.perform a).keepNotes f

theorem keepNotes_andThen (p : NotingPass ν α β) (q : NotingPass ν β γ) :
    (p.andThen q).keepNotes f = (p.keepNotes f).andThen (q.keepNotes f) := by
  simp only [keepNotes, andThen, Run.keepNotes_andThen]

theorem keepNotes_performAll (h : ∀ name, f (announce name) = some (announce' name))
    (ps : List (NotingPass ν α α)) :
    ∀ a, (performAll announce ps a).keepNotes f
      = performAll announce' (ps.map (keepNotes f)) a := by
  induction ps with
  | nil =>
      intro a
      rfl
  | cons p ps ih =>
      intro a
      rw [performAll, Run.keepNotes_andThen, Run.keepNotes_noting (h p.name), funext ih]
      rfl

theorem keepNotes_inOrder (h : ∀ name, f (announce name) = some (announce' name))
    (ps : List (NotingPass ν α α)) :
    (inOrder announce ps).keepNotes f = inOrder announce' (ps.map (keepNotes f)) := by
  have hnames : (ps.map (keepNotes f)).map name = ps.map name := by
    rw [List.map_map]
    rfl
  simp only [keepNotes, inOrder, hnames, keepNotes_performAll h]

end NotingPass

namespace Plan

variable {ι α ν μ : Type} {meaning : ι → Pass α α}

/-- To show something of every plan, show it of a plan whose parts have it. -/
@[elab_as_elim]
theorem induction {motive : Plan ι → Prop} (leaf : ∀ step, motive (.leaf step))
    (pipeline : ∀ parts, (∀ p ∈ parts, motive p) → motive (.pipeline parts))
    (andThen : ∀ first second, motive first → motive second → motive (.andThen first second))
    (p : Plan ι) : motive p := by
  refine Plan.rec (motive_2 := fun ps => ∀ p ∈ ps, motive p) leaf pipeline andThen ?_ ?_ p
  · intro p hp
    cases hp
  · intro head tail hhead htail p hp
    rcases List.mem_cons.mp hp with rfl | hmem
    · exact hhead
    · exact htail p hmem

mutual

/-- The leaves of a plan from left to right. -/
def leaves : Plan ι → List ι
  | .leaf step => [step]
  | .pipeline parts => leavesAll parts
  | .andThen first second => first.leaves ++ second.leaves

/-- The leaves of several plans in a row. -/
def leavesAll : List (Plan ι) → List ι
  | [] => []
  | p :: ps => p.leaves ++ leavesAll ps

end

/-! ### Going through a row of steps -/

/-- From `a` on, one step after the other: the steps that are reached, and the outcome. -/
inductive Course (meaning : ι → Pass α α) :
    List ι → α → List ι → Except (Stop Diagnostic) α → Prop
  | done (a : α) : Course meaning [] a [] (.ok a)
  | stop {step : ι} {a : α} {stop : Stop Diagnostic} (steps : List ι)
      (h : (meaning step).run a = .error stop) :
      Course meaning (step :: steps) a [step] (.error stop)
  | next {step : ι} {a b : α} {steps reached : List ι} {outcome : Except (Stop Diagnostic) α}
      (h : (meaning step).run a = .ok b) (rest : Course meaning steps b reached outcome) :
      Course meaning (step :: steps) a (step :: reached) outcome

/-- What a row of steps makes of `a`, each step applied to what the one before it gives. -/
def handOn (meaning : ι → Pass α α) (steps : List ι) (a : α) : Except (Stop Diagnostic) α :=
  steps.foldlM (fun b step => (meaning step).run b) a

namespace Course

variable {steps later reached reached' : List ι} {a b : α} {stop : Stop Diagnostic}
  {outcome outcome' : Except (Stop Diagnostic) α}

/-- A course that comes to its end goes on. -/
theorem append (h : Course meaning steps a reached (.ok b))
    (hlater : Course meaning later b reached' outcome) :
    Course meaning (steps ++ later) a (reached ++ reached') outcome := by
  generalize hend : (Except.ok b : Except (Stop Diagnostic) α) = ending at h
  induction h with
  | done a =>
      cases hend
      exact hlater
  | stop steps h => cases hend
  | next h _ ih => exact Course.next h (ih hend)

/-- A course that has stopped does not see what comes behind. -/
theorem append_of_error (later : List ι) (h : Course meaning steps a reached (.error stop)) :
    Course meaning (steps ++ later) a reached (.error stop) := by
  generalize hend : (Except.error stop : Except (Stop Diagnostic) α) = ending at h ⊢
  induction h with
  | done a => cases hend
  | stop steps h => exact Course.stop (steps ++ later) h
  | next h _ ih => exact Course.next h (ih hend)

theorem outcome_eq (h : Course meaning steps a reached outcome) :
    outcome = handOn meaning steps a := by
  induction h with
  | done a => rfl
  | stop steps h =>
      rw [handOn, List.foldlM_cons, h]
      rfl
  | next h _ ih =>
      rw [handOn, List.foldlM_cons, h, ok_bind]
      exact ih

/-- A course has only one way to go. -/
theorem reached_unique (h : Course meaning steps a reached outcome)
    (h' : Course meaning steps a reached' outcome') : reached = reached' := by
  induction h generalizing reached' with
  | done a =>
      cases h'
      rfl
  | stop steps h =>
      cases h' with
      | stop _ h' => rfl
      | next h' _ => cases h.symm.trans h'
  | next h _ ih =>
      cases h' with
      | stop _ h' => cases h.symm.trans h'
      | next h' rest' =>
          cases h.symm.trans h'
          rw [ih rest']

theorem reached_eq_of_ok (h : Course meaning steps a reached (.ok b)) : reached = steps := by
  generalize hend : (Except.ok b : Except (Stop Diagnostic) α) = ending at h
  induction h with
  | done a => rfl
  | stop steps h => cases hend
  | next h _ ih => rw [ih hend]

/-- Where a course stops: the steps before go through, and the next one gives the reason. -/
theorem exists_stop (h : Course meaning steps a reached (.error stop)) :
    ∃ before step after b, steps = before ++ step :: after ∧ handOn meaning before a = .ok b ∧
      (meaning step).run b = .error stop ∧ reached = before ++ [step] := by
  generalize hend : (Except.error stop : Except (Stop Diagnostic) α) = ending at h
  induction h with
  | done a => cases hend
  | @stop step a _ steps h =>
      cases hend
      exact ⟨[], step, steps, a, rfl, rfl, h, rfl⟩
  | @next first a b steps reached _ h _ ih =>
      obtain ⟨before, step, after, c, rfl, hbefore, hstep, rfl⟩ := ih hend
      refine ⟨first :: before, step, after, c, rfl, ?_, hstep, rfl⟩
      rw [handOn, List.foldlM_cons, h, ok_bind]
      exact hbefore

end Course

/-! ### Leaves that note themselves -/

theorem composeAll_eq_map (announce : String → ν) (meaning : ι → NotingPass ν α α)
    (ps : List (Plan ι)) : composeAll announce meaning ps = ps.map (compose announce meaning) := by
  induction ps with
  | nil => rfl
  | cons p ps ih => rw [composeAll, ih, List.map_cons]

/-- To leave out notes of a plan is to leave them out of its leaves. -/
theorem keepNotes_compose {announce : String → ν} {announce' : String → μ} {f : ν → Option μ}
    (h : ∀ name, f (announce name) = some (announce' name)) (meaning : ι → NotingPass ν α α)
    (p : Plan ι) :
    (p.compose announce meaning).keepNotes f
      = p.compose announce' fun step => (meaning step).keepNotes f := by
  induction p using Plan.induction with
  | leaf step => rfl
  | pipeline parts ih =>
      rw [compose, compose, NotingPass.keepNotes_inOrder h, composeAll_eq_map, composeAll_eq_map,
        List.map_map]
      exact congrArg (NotingPass.inOrder announce') (List.map_congr_left ih)
  | andThen first second ihfirst ihsecond =>
      rw [compose, compose, NotingPass.keepNotes_andThen, ihfirst, ihsecond]

/-- The notes of a leaf that notes itself: its own, and the one mark. -/
theorem notes_marked (meaning : ι → Pass α α) (step : ι) (a : α) :
    ((marked meaning step).perform a).notes.filterMap Sum.getLeft? = (meaning step).journal a ∧
      ((marked meaning step).perform a).notes.filterMap Sum.getRight? = [step] := by
  simp only [marked, NotingPass.journal]
  constructor
  · rw [List.filterMap_cons_none rfl, List.filterMap_map]
    exact List.filterMap_some
  · show step :: (((meaning step).perform a).notes.map .inl).filterMap Sum.getRight? = [step]
    rw [List.filterMap_map]
    exact congrArg (step :: ·) (List.filterMap_eq_nil_iff.mpr fun _ _ => rfl)

theorem keepNotes_marked (meaning : ι → Pass α α) (step : ι) :
    (marked meaning step).keepNotes Sum.getLeft? = meaning step := by
  simp only [NotingPass.keepNotes, Run.keepNotes, (notes_marked meaning step _).1]
  rfl

/-- Without the marks of the leaves, the traced run is the run. -/
theorem keepNotes_traced (meaning : ι → Pass α α) (p : Plan ι) :
    (p.traced meaning).keepNotes Sum.getLeft? = p.toPass meaning := by
  have hplain : ∀ name, Sum.getLeft? (.inl (Pass.announcement name) : Entry ⊕ ι)
      = some (Pass.announcement name) := fun _ => rfl
  rw [traced, keepNotes_compose hplain, funext (keepNotes_marked meaning), toPass]

theorem run_traced (meaning : ι → Pass α α) (p : Plan ι) (a : α) :
    (p.traced meaning).run a = (p.toPass meaning).run a := by
  rw [← keepNotes_traced]
  rfl

theorem journal_eq (meaning : ι → Pass α α) (p : Plan ι) (a : α) :
    (p.toPass meaning).journal a
      = ((p.traced meaning).perform a).notes.filterMap Sum.getLeft? := by
  rw [← keepNotes_traced]
  rfl

/-! ### Plans -/

/-- The runs go through the steps. -/
def Takes (meaning : ι → Pass α α) (steps : List ι) (runs : α → Run (Entry ⊕ ι) α) : Prop :=
  ∀ a, Course meaning steps a ((runs a).notes.filterMap Sum.getRight?) (runs a).outcome

theorem Takes.andThen {steps later : List ι} {runs next : α → Run (Entry ⊕ ι) α}
    (h : Takes meaning steps runs) (hnext : Takes meaning later next) :
    Takes meaning (steps ++ later) fun a => (runs a).andThen next := by
  intro a
  have hcourse := h a
  dsimp only
  cases hend : (runs a).outcome with
  | error stop =>
      rw [hend] at hcourse
      rw [Run.andThen_of_error hend]
      exact hcourse.append_of_error later
  | ok b =>
      rw [hend] at hcourse
      rw [Run.andThen_of_ok hend, List.filterMap_append]
      exact hcourse.append (hnext b)

theorem takes_marked (meaning : ι → Pass α α) (step : ι) :
    Takes meaning [step] (marked meaning step).perform := by
  intro a
  rw [(notes_marked meaning step a).2]
  show Course meaning [step] a [step] ((meaning step).run a)
  cases hrun : (meaning step).run a with
  | error stop => exact Course.stop [] hrun
  | ok b => exact Course.next hrun (Course.done b)

theorem takes_performAll {announce : String → Entry} {parts : List (Plan ι)}
    {pass : Plan ι → NotingPass (Entry ⊕ ι) α α}
    (h : ∀ p ∈ parts, Takes meaning p.leaves (pass p).perform) :
    Takes meaning (leavesAll parts)
      (NotingPass.performAll (fun name => .inl (announce name)) (parts.map pass)) := by
  induction parts with
  | nil => exact fun a => Course.done a
  | cons p parts ih =>
      obtain ⟨hp, hparts⟩ := List.forall_mem_cons.mp h
      -- An announcement is no mark of a leaf, so the announced run takes the same course.
      have hannounced : Takes meaning p.leaves fun a =>
          ((pass p).perform a).noting (.inl (announce (pass p).name)) := hp
      exact hannounced.andThen (ih hparts)

/-- **A plan takes the course of its leaves.** -/
theorem takes_traced (meaning : ι → Pass α α) (p : Plan ι) :
    Takes meaning p.leaves (p.traced meaning).perform := by
  unfold traced
  induction p using Plan.induction with
  | leaf step => exact takes_marked meaning step
  | pipeline parts ih =>
      rw [leaves, compose, composeAll_eq_map]
      exact takes_performAll ih
  | andThen first second ihfirst ihsecond =>
      rw [leaves, compose]
      exact ihfirst.andThen ihsecond

theorem course (meaning : ι → Pass α α) (p : Plan ι) (a : α) :
    Course meaning p.leaves a (p.reached meaning a) ((p.toPass meaning).run a) := by
  rw [← run_traced]
  exact takes_traced meaning p a

/-! ### What the journal shows of it

Pipelines announce their passes below the level of warnings.  Above that level the journal is
that of the leaves, so it is there that a run shows which of them it has reached. -/

section Journal

/-- What holds of announcements and of the notes of leaves, and of two rows of notes together if it
holds of each, holds of the notes of a plan. -/
theorem notes_compose {Q : List ν → Prop} {announce : String → ν} {meaning : ι → NotingPass ν α α}
    (hnil : Q []) (happend : ∀ xs ys, Q xs → Q ys → Q (xs ++ ys))
    (hannounce : ∀ name, Q [announce name]) (hleaf : ∀ step a, Q ((meaning step).perform a).notes)
    (p : Plan ι) : ∀ a, Q ((p.compose announce meaning).perform a).notes := by
  induction p using Plan.induction with
  | leaf step => exact hleaf step
  | andThen first second ihfirst ihsecond =>
      intro a
      exact Run.notes_andThen happend (ihfirst a) ihsecond
  | pipeline parts ih =>
      rw [compose, composeAll_eq_map]
      induction parts with
      | nil => exact fun _ => hnil
      | cons p parts ihparts =>
          intro a
          obtain ⟨hp, hparts⟩ := List.forall_mem_cons.mp ih
          exact Run.notes_andThen happend (happend _ _ (hannounce _) (hp a)) (ihparts hparts)

theorem atLeast_journal {note : ι → Journal}
    (hnote : ∀ step b, ((meaning step).journal b).atLeast .warn = note step) (p : Plan ι) (a : α) :
    ((p.toPass meaning).journal a).atLeast .warn = (p.reached meaning a).flatMap note := by
  let shows (notes : List (Entry ⊕ ι)) : Prop :=
    Journal.atLeast .warn (notes.filterMap Sum.getLeft?)
      = (notes.filterMap Sum.getRight?).flatMap note
  rw [journal_eq]
  show shows _
  refine notes_compose (Q := shows) rfl ?_ ?_ ?_ p a
  · intro xs ys hxs hys
    simp only [shows, List.filterMap_append, List.flatMap_append, ← hxs, ← hys, Journal.atLeast,
      List.filter_append]
  · intro name
    rfl
  · intro step b
    obtain ⟨hown, hmark⟩ := notes_marked meaning step b
    simp only [shows, hown, hmark, hnote, List.flatMap_singleton]

end Journal

/--
**Only the leaves count, and only up to the first that stops.**  A plan makes of a value what its
leaves make of it one after the other.  If they all go through, each of them is reached; otherwise
the plan stops for the reason of the first leaf that stops on the value handed to it, and reaches
the leaves up to that one.  The leaves that are reached are read off a run in which each notes
itself, and but for these marks that is the run of the plan.  What the leaves note above the level
of announcements stands in the journal once for each time that a leaf is reached, in the same order.
Plans with the same leaves have the same outcome and reach the same leaves, however these are
grouped.
-/
theorem toPass_runs_leaves (meaning : ι → Pass α α) (p : Plan ι) (a : α) :
    (p.toPass meaning).run a = handOn meaning p.leaves a ∧
      (p.traced meaning).keepNotes Sum.getLeft? = p.toPass meaning ∧
      (∀ b, handOn meaning p.leaves a = .ok b → p.reached meaning a = p.leaves) ∧
      (∀ stop, handOn meaning p.leaves a = .error stop →
        ∃ before step after b, p.leaves = before ++ step :: after ∧
          handOn meaning before a = .ok b ∧ (meaning step).run b = .error stop ∧
          p.reached meaning a = before ++ [step]) ∧
      (∀ note : ι → Journal, (∀ step b, ((meaning step).journal b).atLeast .warn = note step) →
        ((p.toPass meaning).journal a).atLeast .warn = (p.reached meaning a).flatMap note) ∧
      ∀ q : Plan ι, q.leaves = p.leaves →
        (q.toPass meaning).run a = (p.toPass meaning).run a ∧
          q.reached meaning a = p.reached meaning a := by
  have hcourse := course meaning p a
  have hrun : (p.toPass meaning).run a = handOn meaning p.leaves a := hcourse.outcome_eq
  refine ⟨hrun, keepNotes_traced meaning p, ?_, ?_,
    fun note hnote => atLeast_journal hnote p a, ?_⟩
  · intro b hb
    rw [hrun, hb] at hcourse
    exact hcourse.reached_eq_of_ok
  · intro stop hstop
    rw [hrun, hstop] at hcourse
    exact hcourse.exists_stop
  · intro q hleaves
    have hcourse' := course meaning q a
    rw [hleaves] at hcourse'
    exact ⟨hcourse'.outcome_eq.trans hrun.symm, hcourse'.reached_unique hcourse⟩

/-- Passes that each add a node and refuse a graph that has two: however the four of them are
grouped, the third is the last that is reached. -/
theorem toPass_runs_leaves_nested :
    let refusal : Stop Diagnostic := .reject { error := .invariant "full", subsystem := .opt }
    let meaning : String → Pass IrGraph IrGraph := fun name =>
      { name
        perform := fun g =>
          { notes := [.debug "looking", .warn name]
            outcome :=
              if g.size < 2 then
                .ok
                  { g with
                    nodes := g.nodes.push { opcode := .imm, type := .prim .u8, imms := [7] } }
              else .error refusal } }
    let p : Plan String :=
      .andThen (.pipeline [.leaf "a", .pipeline [], .andThen (.leaf "b") (.leaf "c")]) (.leaf "d")
    let q : Plan String := .pipeline [.andThen (.leaf "a") (.pipeline [.leaf "b"]),
      .pipeline [.leaf "c", .leaf "d"]]
    p.leaves = ["a", "b", "c", "d"] ∧ q.leaves = p.leaves ∧
      (p.toPass meaning).run .empty = .error refusal ∧ p.reached meaning .empty = ["a", "b", "c"] ∧
      ((p.toPass meaning).journal .empty).atLeast .warn = [.warn "a", .warn "b", .warn "c"] ∧
      (q.toPass meaning).run .empty = .error refusal ∧
      q.reached meaning .empty = ["a", "b", "c"] := by
  intro refusal meaning p q
  have hleaves : q.leaves = p.leaves := rfl
  have hhandOn : handOn meaning p.leaves .empty = .error refusal := rfl
  have hreached : p.reached meaning .empty = ["a", "b", "c"] := rfl
  obtain ⟨hrun, -, -, -, hjournal, hgroups⟩ := toPass_runs_leaves meaning p .empty
  obtain ⟨hrunq, hreachedq⟩ := hgroups q hleaves
  have hnotes := hjournal (fun name => [.warn name]) fun _ _ => rfl
  rw [hreached] at hnotes
  exact ⟨rfl, hleaves, hrun.trans hhandOn, hreached, hnotes, hrunq.trans (hrun.trans hhandOn),
    hreachedq.trans hreached⟩

end Plan

end Codegen
