import Foreman.Proofs.Requests
import Foreman.Proofs.Run.Audit

/-!
# All that deal with a controller

While a build is led, tasks are requested of its controller, its graph is frozen and started,
workers use the run, the job ends or is given up, and any number of callers wait for the failures.
Each of them goes step by step, and the steps come in any order (`Controller.Dealing`). A call to
await the completion has three steps (`Call.next`), which make up `Controller.await?` where nothing
comes in between (`thrice_next`).
-/

namespace Foreman

namespace Controller

variable {c c' : Controller}

/-! ## Calls -/

def take? (c : Controller) : Option (List BuildFailure × Controller) :=
  if c.completion.finished then
    some (c.completion.failures, { c with completion := { c.completion with failures := [] } })
  else none

def conclude (c : Controller) : Except GraphError Controller := do
  return { c with graph := ← c.graph.complete, state := .finished }

/-- How far a call to await the completion has come. -/
inductive Call
  /-- Nothing was checked yet. -/
  | made
  /-- The right to collect is claimed; the job may not have ended. -/
  | waiting
  /-- The failures are taken; the controller does not know it yet. -/
  | taken (failures : List BuildFailure)
  | returned (answer : Except GraphError (List BuildFailure))

namespace Call

def next (call : Call) (c : Controller) : Call × Controller :=
  match call with
  | made =>
    match c.claim with
    | .ok c => (waiting, c)
    | .error e => (returned (.error e), c)
  | waiting =>
    match c.take? with
    | some (failures, c) => (taken failures, c)
    | none => (waiting, c)
  | taken failures =>
    match c.conclude with
    | .ok c => (returned (.ok failures), c)
    | .error e => (returned (.error e), c)
  | returned answer => (returned answer, c)

def failures : Call → List BuildFailure
  | taken failures => failures
  | returned (.ok failures) => failures
  | _ => []

/-- Three steps of a call, with nothing else in between. -/
def thrice (c : Controller) : Call × Controller :=
  let (call, c) := made.next c
  let (call, c) := call.next c
  call.next c

/-- Where nothing comes in between, the steps of a call claim the failures and collect them. -/
theorem thrice_next (c : Controller) :
    match c.await? with
    | some (answer, c') => thrice c = (returned answer, c')
    | none => (thrice c).1 = waiting := by
  rw [await?, thrice]
  cases hc : c.claim with
  | error e => simp only [next, hc]
  | ok c₁ =>
    simp only [next, hc, collect?, take?]
    by_cases hfinished : c₁.completion.finished = true
    · simp only [hfinished, if_true, conclude, bind, Except.bind, pure, Except.pure]
      cases c₁.graph.complete with
      | error e => rfl
      | ok g => rfl
    · simp only [hfinished, Bool.false_eq_true, if_false]

end Call

/-! ## Dealings -/

def jobFailures (c : Controller) (r : Run) : List BuildFailure :=
  match r.takeResult.1 with
  | .ok failures => failures
  | .error e => [.executionAborted c.build ⟨e.message, []⟩]

theorem finishJob_eq (c : Controller) (r : Run) : c.finishJob r =
    { c with
      graph := c.graph.keep r.takeResult.2
      completion := c.completion.finish (c.jobFailures r) } :=
  rfl

/-- A controller with the calls made to it, in their order, and the failures with which its job has
ended. -/
structure Desk where
  controller : Controller
  calls : List Call
  report : Option (List BuildFailure)

/-- What may be done with a controller. -/
inductive Dealing : Type 1
  | request (r : Request)
  | finalize
  | start
  | stop
  /-- Someone else calls to await the completion. -/
  | call
  /-- A call takes its next step. -/
  | proceed (k : Nat)
  /-- A worker of the job uses the run. -/
  | work (u : Run.Use)
  /-- The job has run to its end. -/
  | endJob
  /-- The job could not be submitted, or it broke off. -/
  | abort (error : ErrorChain)

namespace Desk

def new (build : BuildId) : Desk := ⟨.new (.empty build), [], none⟩

def atWork? (d : Desk) : Option Run :=
  if d.controller.state = .runningTasks ∧ d.report = none then d.controller.graph.run? else none

/-- What a dealing leaves; one that is refused, or that there is no occasion for, changes
nothing. -/
def after (d : Desk) : Dealing → Desk
  | .request r => { d with controller := d.controller.after r }
  | .finalize => { d with controller := d.controller.finalize.toOption.getD d.controller }
  | .start => { d with controller := d.controller.start.toOption.getD d.controller }
  | .stop => { d with controller := d.controller.stop.toOption.getD d.controller }
  | .call => { d with calls := d.calls ++ [.made] }
  | .proceed k =>
    match d.calls[k]? with
    | some call =>
      let (call, controller) := call.next d.controller
      { d with controller, calls := d.calls.set k call }
    | none => d
  | .work u =>
    match d.atWork? with
    | some r =>
      { d with controller := { d.controller with graph := d.controller.graph.keep (r.use u) } }
    | none => d
  | .endJob =>
    match d.atWork? with
    | some r =>
      { d with controller := d.controller.finishJob r, report := some (d.controller.jobFailures r) }
    | none => d
  | .abort error =>
    match d.atWork? with
    | some _ =>
      { d with
        controller := d.controller.refuse error
        report := some [.executionAborted d.controller.build error] }
    | none => d

def afterAll (d : Desk) (dealings : List Dealing) : Desk := dealings.foldl after d

end Desk

end Controller

end Foreman
