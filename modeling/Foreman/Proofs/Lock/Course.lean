import Foreman.Lock.Lease
import Foreman.Proofs.Lock.Sharing
import Mathlib.Logic.Relation

/-!
# Lease actions step by step

A worker goes through its lease actions one step at a time, and other workers use the table in
between (`Course.Moves`). A section around blocking work has a step at its start and one at its end.
Where nobody comes in between, the steps lead where `LeaseRun.performAll?` says (`Own.leads`).
-/

namespace Foreman

/-! ## Own actions -/

/-- The actions are all of one worker: it takes guards, drops them, and does more of the same around
blocking work. -/
inductive Own : List LeaseAction → Prop
  | nil : Own []
  | acquire {rest : List LeaseAction} (hrest : Own rest) : Own (.acquire :: rest)
  | drop {rest : List LeaseAction} (hrest : Own rest) : Own (.drop :: rest)
  | blocking {inner rest : List LeaseAction} (panics : Bool) (hinner : Own inner)
      (hrest : Own rest) :
    Own (.blocking inner panics :: rest)

/-- A section around blocking work: the holds that were surrendered for it, how it ends, and what
comes after it. -/
structure LeaseSection where
  count : Nat
  panics : Bool
  rest : List LeaseAction

/-- A worker on its way: what is left to do in the section that it is in, and the sections around
that, the inner ones first. -/
structure Course where
  run : LeaseRun
  todo : List LeaseAction
  sections : List LeaseSection

namespace Course

variable {worker : Worker} {s s' : Course}

/-- The next step of the worker; there is none if it has to wait, or has nothing left to do. -/
def next? (worker : Worker) (s : Course) : Option Course :=
  match s.todo, s.sections with
  | .blocking inner panics :: rest, sections =>
    some ⟨{ s.run with table := s.run.table.surrender worker }, inner,
      ⟨s.run.table.leaseCount worker, panics, rest⟩ :: sections⟩
  | action :: rest, sections => (s.run.perform? worker action).map (⟨·, rest, sections⟩)
  | [], last :: sections =>
    (s.run.table.restore? worker last.count).map fun table =>
      ⟨{ s.run with table }.report worker .blocking (if last.panics then .panicked else .returned),
        last.rest, sections⟩
  | [], [] => none

/-- The worker has something left to do and has to wait. -/
def Waits (worker : Worker) (s : Course) : Prop :=
  s.next? worker = none ∧ (s.todo ≠ [] ∨ s.sections ≠ [])

/-- The worker takes its next step, or another worker uses the table. -/
inductive Moves (worker : Worker) : Course → Course → Prop
  | own {s s' : Course} (h : s.next? worker = some s') : Moves worker s s'
  | other {s : Course} {table : LockTable} (v : Worker) (hv : v ≠ worker)
    (h : LockTable.ChangedBy v s.run.table table) :
    Moves worker s { s with run := { s.run with table } }

/-- What a worker comes to, whatever others do in between. -/
def Reaches (worker : Worker) : Course → Course → Prop := Relation.ReflTransGen (Moves worker)

/-- What a worker comes to alone. -/
def Goes (worker : Worker) : Course → Course → Prop :=
  Relation.ReflTransGen fun s s' => s.next? worker = some s'

theorem Goes.reaches (h : Goes worker s s') : Reaches worker s s' :=
  Relation.ReflTransGen.mono (fun _ _ => .own) _ _ h

def start (table : LockTable) (program : List LeaseAction) : Course := ⟨⟨table, 0, []⟩, program, []⟩

end Course

/-! ## Steps make up the whole -/

namespace Course

variable {worker : Worker} {s s' : Course} {sections : List LeaseSection} {result : Option LeaseRun}

/-- Alone the worker ends what it has to do in its section with this result, or waits for ever. -/
def Leads (worker : Worker) (s : Course) (sections : List LeaseSection) : Option LeaseRun → Prop
  | some r => Goes worker s ⟨r, [], sections⟩
  | none => ∃ s', Goes worker s s' ∧ s'.Waits worker

theorem Leads.of_goes (h : Leads worker s' sections result) (hgoes : Goes worker s s') :
    Leads worker s sections result := by
  cases result with
  | some r => exact hgoes.trans h
  | none =>
    obtain ⟨s'', hrest, hwaits⟩ := h
    exact ⟨s'', hgoes.trans hrest, hwaits⟩

/-- An action that is done in one step, and what comes after it. -/
theorem leads_cons {action : LeaseAction} {rest : List LeaseAction} {r : LeaseRun}
    (hnext : next? worker ⟨r, action :: rest, sections⟩ =
      (r.perform? worker action).map (⟨·, rest, sections⟩))
    (hrest : ∀ r', Leads worker ⟨r', rest, sections⟩ sections (r'.performAll? worker rest)) :
    Leads worker ⟨r, action :: rest, sections⟩ sections
      (r.performAll? worker (action :: rest)) := by
  rw [LeaseRun.performAll?]
  cases hp : r.perform? worker action with
  | none => exact ⟨_, .refl, by rw [hnext, hp]; rfl, .inl (List.cons_ne_nil _ _)⟩
  | some r' =>
    rw [hp] at hnext
    exact (hrest r').of_goes (.single hnext)

end Course

open Course in
/-- Alone a worker goes through all its actions to their result; or, if there is none, it comes to
wait for ever. -/
theorem Own.leads {worker : Worker} {l : List LeaseAction} (h : Own l) (r : LeaseRun)
    (sections : List LeaseSection) :
    Leads worker ⟨r, l, sections⟩ sections (r.performAll? worker l) := by
  induction h generalizing r sections with
  | nil =>
    rw [LeaseRun.performAll?]
    exact .refl
  | acquire _ ih => exact leads_cons rfl fun r' => ih r' sections
  | drop _ ih => exact leads_cons rfl fun r' => ih r' sections
  | @blocking inner rest panics _ _ ihinner ihrest =>
    rw [LeaseRun.performAll?, LeaseRun.perform?]
    have hstart : Goes worker ⟨r, .blocking inner panics :: rest, sections⟩
        ⟨{ r with table := r.table.surrender worker }, inner,
          ⟨r.table.leaseCount worker, panics, rest⟩ :: sections⟩ := .single rfl
    have hinner := ihinner { r with table := r.table.surrender worker }
      (⟨r.table.leaseCount worker, panics, rest⟩ :: sections)
    simp only [bind, Option.bind]
    cases hi : LeaseRun.performAll? { r with table := r.table.surrender worker } worker inner with
    | none =>
      rw [hi] at hinner
      exact hinner.of_goes hstart
    | some r₁ =>
      rw [hi] at hinner
      cases ht : r₁.table.restore? worker (r.table.leaseCount worker) with
      | none =>
        simp only [ht]
        exact ⟨_, hstart.trans hinner, by simp only [next?, ht]; rfl, .inr (List.cons_ne_nil _ _)⟩
      | some table =>
        simp only [ht, pure]
        refine (ihrest _ sections).of_goes ((hstart.trans hinner).tail ?_)
        simp only [next?, ht]
        rfl

end Foreman
