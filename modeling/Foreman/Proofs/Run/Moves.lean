import Foreman.Run.Select
import Mathlib.Logic.Relation
import Mathlib.Tactic.ByContra

/-!
# What a move changes

A legal move changes the state of one node and nothing else of it: `state?_move` says which states
a move leaves, and the field lemmas beside it say what it does not touch. Publishing touches the
exports alone.
-/

namespace Foreman

namespace Progress

variable {s : Progress} {i k : Nat} {old new state : NodeState}

theorem isIn_iff : s.isIn i state = true ↔ s.state? i = some state := by
  simp [isIn]

theorem isDone_iff : s.isDone i = true ↔ ∃ st, s.state? i = some st ∧ st.isTerminal = true := by
  simp [isDone, Option.any_eq_true]

theorem satisfies_iff : s.satisfies i = true ↔
    s.state? i = some .succeeded ∨ s.state? i = some .failed ∧ i ∈ s.tolerated := by
  simp [satisfies, isIn]

theorem blocks_iff : s.blocks i = true ↔ s.state? i = some .skipped ∨
    s.state? i = some .mustNotRun ∨ s.state? i = some .failed ∧ i ∉ s.tolerated := by
  simp [blocks, isIn, or_assoc]

theorem isDone_of_satisfies (h : s.satisfies i = true) : s.isDone i = true := by
  rw [isDone_iff]
  rcases satisfies_iff.1 h with h | ⟨h, _⟩
  · exact ⟨_, h, rfl⟩
  · exact ⟨_, h, rfl⟩

/-- A terminal node either lets its dependents run or keeps them from running. -/
theorem satisfies_or_blocks (h : s.isDone i = true) : s.satisfies i = true ∨ s.blocks i = true := by
  obtain ⟨st, hs, ht⟩ := isDone_iff.1 h
  rw [satisfies_iff, blocks_iff, hs]
  by_cases hi : i ∈ s.tolerated <;> cases st <;> simp_all [NodeState.isTerminal]

theorem not_blocks_of_satisfies (h : s.satisfies i = true) : s.blocks i = false := by
  rw [← Bool.not_eq_true, blocks_iff]
  rcases satisfies_iff.1 h with h | ⟨h, ht⟩
  · simp [h]
  · simp [h, ht]

/-- The node is not over. -/
def IsOpen (s : Progress) (i : Nat) : Prop := ∃ st, s.state? i = some st ∧ st.isTerminal = false

theorem isTerminal_of_not_isDone (h : s.isDone i = false) (hs : s.state? i = some state) :
    state.isTerminal = false := by
  rw [← Bool.not_eq_true] at h ⊢
  exact fun ht => h (isDone_iff.2 ⟨state, hs, ht⟩)

theorem isOpen_of_not_isSettled (h : Plan.isSettled s.states i = false) : s.IsOpen i := by
  cases hst : s.states[i]? with
  | none => simp [Plan.isSettled, hst] at h
  | some st => exact ⟨st, hst, by simpa [Plan.isSettled, hst] using h⟩

/-! ## The fields of a move -/

theorem move_eq (hs : s.state? i = some old) (hm : old.canBecome new = true) :
    s.move i new = { s with
      states := s.states.setIfInBounds i new
      remaining :=
        if !old.isTerminal && new.isTerminal then s.remaining - 1 else s.remaining } := by
  simp [move, hs, NodeState.become, hm]

theorem state?_move (hs : s.state? i = some old) (hm : old.canBecome new = true) :
    (s.move i new).state? k = if k = i then some new else s.state? k := by
  rw [move_eq hs hm]
  by_cases hk : k = i
  · subst hk
    have hlt : k < s.states.size := by
      by_contra hlt
      simp [state?, Array.getElem?_eq_none (Nat.le_of_not_lt hlt)] at hs
    simp [Progress.state?, hlt]
  · simp [Progress.state?, Ne.symm hk, hk]

@[simp] theorem size_states_move : (s.move i new).states.size = s.states.size := by
  unfold move
  split
  · rfl
  · split <;> simp

@[simp] theorem tolerated_move : (s.move i new).tolerated = s.tolerated := by
  unfold move
  split
  · rfl
  · split <;> rfl

@[simp] theorem running_move : (s.move i new).running = s.running := by
  unfold move
  split
  · rfl
  · split <;> rfl

@[simp] theorem failures_move : (s.move i new).failures = s.failures := by
  unfold move
  split
  · rfl
  · split <;> rfl

theorem error_move (hs : s.state? i = some old) (hm : old.canBecome new = true) :
    (s.move i new).error = s.error := by
  rw [move_eq hs hm]

end Progress

namespace Run

variable {r : Run} {i : Nat} {new : NodeState} {outcome : ExportOutcome}

@[simp] theorem plan_move : (r.move i new).plan = r.plan := rfl

@[simp] theorem progress_move : (r.move i new).progress = r.progress.move i new := rfl

@[simp] theorem exports_move : (r.move i new).exports = r.exports := rfl

@[simp] theorem plan_publish : (r.publish i outcome).plan = r.plan := by
  unfold publish
  split <;> rfl

@[simp] theorem progress_publish : (r.publish i outcome).progress = r.progress := by
  unfold publish
  split <;> rfl

@[simp] theorem plan_abandonExports (r : Run) : r.abandonExports.plan = r.plan := by
  rw [abandonExports]
  exact List.foldlRecOn (motive := fun q : Run => q.plan = r.plan) _ _ rfl
    fun q hq i _ => by rw [plan_publish, hq]

@[simp] theorem progress_abandonExports (r : Run) : r.abandonExports.progress = r.progress := by
  rw [abandonExports]
  exact List.foldlRecOn (motive := fun q : Run => q.progress = r.progress) _ _ rfl
    fun q hq i _ => by rw [progress_publish, hq]

@[simp] theorem plan_moveAndPublish : (r.moveAndPublish i new).plan = r.plan := by
  unfold moveAndPublish
  split <;> simp

@[simp] theorem progress_moveAndPublish :
    (r.moveAndPublish i new).progress = r.progress.move i new := by
  unfold moveAndPublish
  split <;> simp

/-- Before the first step every node is scheduled. -/
theorem eq_scheduled_of_start {plan : Plan} {st : NodeState}
    (h : (Progress.start plan).state? i = some st) : st = .scheduled := by
  simp only [Progress.start, Progress.state?, Array.getElem?_replicate] at h
  split at h
  · exact (Option.some.inj h).symm
  · cases h

def launch (r : Run) (i : Nat) : Run :=
  let r := r.move i .running
  { r with progress := { r.progress with running := r.progress.running ++ [i] } }

@[simp] theorem plan_launch : (r.launch i).plan = r.plan := rfl

@[simp] theorem exports_launch : (r.launch i).exports = r.exports := rfl

theorem state?_launch (hs : r.progress.state? i = some .ready) (k : Nat) :
    (r.launch i).progress.state? k = if k = i then some .running else r.progress.state? k :=
  Progress.state?_move hs rfl

/-! ## The end of a node -/

def endState : NodeOutcome → NodeState
  | .success => .succeeded
  | .failure _ | .foreignFailure => .failed

def outcomeOf (r : Run) (i : Nat) : NodeOutcome → ExportOutcome
  | .success => .succeeded
  | .failure _ => if r.ignoresFailures i then .succeeded else .failed
  | .foreignFailure => .failed

def failuresOf (r : Run) (i : Nat) : NodeOutcome → List BuildFailure
  | .failure error =>
    if r.ignoresFailures i then []
    else (((r.plan.nodes[i]?).bind (·.task?)).map fun t => .taskFailed t.path error).toList
  | .success | .foreignFailure => []

def toleratedOf (r : Run) (i : Nat) : NodeOutcome → List Nat
  | .failure _ => if r.ignoresFailures i then [i] else []
  | .success | .foreignFailure => []

def note (r : Run) (i : Nat) (outcome : NodeOutcome) : Run :=
  { r with progress := { r.progress with
      running := r.progress.running.filter (· ≠ i)
      tolerated := r.toleratedOf i outcome ++ r.progress.tolerated
      failures := r.progress.failures ++ r.failuresOf i outcome } }

theorem finish_eq (r : Run) (i : Nat) (outcome : NodeOutcome) :
    r.finish i outcome =
      ((r.note i outcome).move i (endState outcome)).publish i (r.outcomeOf i outcome) := by
  cases outcome with
  | success => simp [finish, note, toleratedOf, failuresOf, endState, outcomeOf]
  | foreignFailure => simp [finish, note, toleratedOf, failuresOf, endState, outcomeOf]
  | failure error =>
    have hi : ∀ p, ignoresFailures { r with progress := p } i = r.ignoresFailures i := fun _ => rfl
    simp only [finish, note, toleratedOf, failuresOf, endState, outcomeOf, hi, fail]
    cases r.ignoresFailures i with
    | true => simp
    | false =>
      cases (r.plan.nodes[i]?).bind (·.task?) with
      | none => simp
      | some t => simp

@[simp] theorem plan_finish (outcome : NodeOutcome) : (r.finish i outcome).plan = r.plan := by
  rw [finish_eq, plan_publish]
  rfl

theorem state?_finish (hs : r.progress.state? i = some .running) (outcome : NodeOutcome) (k : Nat) :
    (r.finish i outcome).progress.state? k =
      if k = i then some (endState outcome) else r.progress.state? k := by
  rw [finish_eq, progress_publish, progress_move]
  have hm : NodeState.canBecome .running (endState outcome) = true := by
    cases outcome <;> rfl
  exact Progress.state?_move (s := (r.note i outcome).progress) hs hm

theorem tolerated_finish (outcome : NodeOutcome) :
    (r.finish i outcome).progress.tolerated =
      r.toleratedOf i outcome ++ r.progress.tolerated := by
  rw [finish_eq, progress_publish, progress_move, Progress.tolerated_move]
  rfl

theorem failures_finish (outcome : NodeOutcome) :
    (r.finish i outcome).progress.failures =
      r.progress.failures ++ r.failuresOf i outcome := by
  rw [finish_eq, progress_publish, progress_move, Progress.failures_move]
  rfl

theorem running_finish (outcome : NodeOutcome) :
    (r.finish i outcome).progress.running = r.progress.running.filter (· ≠ i) := by
  rw [finish_eq, progress_publish, progress_move, Progress.running_move]
  rfl

end Run

end Foreman
