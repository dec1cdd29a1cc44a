import Foreman.Proofs.Run.History

/-!
# What a run keeps in its books

A run notes which nodes are running and how many are not yet over. Both notes agree with the states
of the nodes in every history (`History.consistent`), and no move is ever refused.
-/

namespace Foreman

def NodeState.unfinished (st : NodeState) : Nat := if st.isTerminal then 0 else 1

def Progress.unfinished (s : Progress) : Nat := total NodeState.unfinished s.states.toList

namespace Progress

variable {s : Progress} {i k : Nat} {old new : NodeState}

theorem unfinished_move (hs : s.state? i = some old) (hm : old.canBecome new = true) :
    (s.move i new).unfinished + old.unfinished = s.unfinished + new.unfinished := by
  rw [move_eq hs hm]
  simp only [unfinished, Array.toList_setIfInBounds]
  exact total_set _ (by simpa [state?] using hs) new

theorem remaining_move (hs : s.state? i = some old) (hm : old.canBecome new = true)
    (hr : s.remaining = s.unfinished) : (s.move i new).remaining = (s.move i new).unfinished := by
  have h := unfinished_move hs hm
  have hrem : (s.move i new).remaining =
      if !old.isTerminal && new.isTerminal then s.remaining - 1 else s.remaining := by
    rw [move_eq hs hm]
  rw [hrem, hr]
  cases hold : old.isTerminal with
  | true =>
    have hnew : new = old := by
      cases old <;> simp_all [NodeState.canBecome, NodeState.moves, NodeState.isTerminal]
    subst hnew
    simp only [NodeState.unfinished, hold] at h ⊢
    simp
    omega
  | false =>
    cases hnew : new.isTerminal with
    | true =>
      simp only [NodeState.unfinished, hold, hnew, Bool.false_eq_true, if_false, if_true] at h
      simp only [Bool.not_false, Bool.and_self, if_true]
      omega
    | false =>
      simp only [NodeState.unfinished, hold, hnew, Bool.false_eq_true, if_false] at h
      simp only [Bool.not_false, Bool.and_false, Bool.false_eq_true, if_false]
      omega

theorem unfinished_eq_zero_iff :
    s.unfinished = 0 ↔ ∀ i st, s.state? i = some st → st.isTerminal = true := by
  simp only [unfinished, total_eq_zero_iff, Array.mem_toList_iff, Array.mem_iff_getElem?,
    NodeState.unfinished, state?]
  constructor
  · intro h i st hi
    simpa using h st ⟨i, hi⟩
  · rintro h st ⟨i, hi⟩
    simp [h i st hi]

end Progress

namespace Run

variable {r r' : Run} {c : Cause} {i : Nat} {old new : NodeState}

/-- The books are right. -/
structure Consistent (r : Run) : Prop where
  size : r.progress.states.size = r.plan.size
  error : r.progress.error = none
  running : ∀ i, i ∈ r.progress.running ↔ r.progress.state? i = some .running
  remaining : r.progress.remaining = r.progress.unfinished
  known : ∀ i st, r.progress.state? i = some st → st ≠ .notScheduled ∧ st ≠ .queued

theorem start_consistent (plan : Plan) (exports : Exports) : (start plan exports).Consistent where
  size := by simp [start, Progress.start]
  error := rfl
  running i := by
    simp only [start, Progress.start, Progress.state?, Array.getElem?_replicate]
    split <;> simp
  remaining := by
    simp [start, Progress.start, Progress.unfinished, total_replicate, NodeState.unfinished,
      NodeState.isTerminal]
  known i st h := by
    rw [eq_scheduled_of_start h]
    decide

theorem consistent_of_start (h : r.progress = .start r.plan) : r.Consistent := by
  have hr : r = .start r.plan r.exports := by rw [start, ← h]
  rw [hr]
  exact start_consistent _ _

theorem not_running_of_start (h : r.progress = .start r.plan) (i : Nat) :
    r.progress.state? i ≠ some .running := by
  intro hi
  rw [h] at hi
  cases eq_scheduled_of_start hi

theorem Consistent.lt_size (h : r.Consistent) {st : NodeState}
    (hi : r.progress.state? i = some st) :
    i < r.plan.size := by
  rw [← h.size]
  by_contra hlt
  rw [Progress.state?, Array.getElem?_eq_none (Nat.le_of_not_lt hlt)] at hi
  cases hi

theorem Consistent.exists_node (h : r.Consistent) {st : NodeState}
    (hi : r.progress.state? i = some st) : ∃ n, r.plan.nodes[i]? = some n :=
  ⟨_, Array.getElem?_eq_getElem (h.lt_size hi)⟩

theorem Consistent.exists_state (h : r.Consistent) (hi : i < r.plan.size) :
    ∃ st, r.progress.state? i = some st := by
  rw [← h.size] at hi
  exact ⟨_, Array.getElem?_eq_getElem hi⟩

/-- A state that a move leads to is none from before the run. -/
theorem ne_of_mem_moves (hk : old ≠ .notScheduled ∧ old ≠ .queued) (hm : new ∈ old.moves) :
    new ≠ .notScheduled ∧ new ≠ .queued := by
  cases old <;> simp_all [NodeState.moves] <;> grind

/-- A move of a waiting node to a state in which it does not run. -/
theorem Consistent.moveAndPublish (h : r.Consistent) (hs : r.progress.state? i = some old)
    (hm : new ∈ old.moves) (hold : old ≠ .running) (hnew : new ≠ .running) :
    (r.moveAndPublish i new).Consistent := by
  have hmoved := moved_moveAndPublish hs hm
  have hbec : old.canBecome new = true := by simp [NodeState.canBecome, hm]
  refine ⟨?_, ?_, fun k => ?_, ?_, fun k st hk => ?_⟩
  · simpa using h.size
  · rw [progress_moveAndPublish, Progress.error_move hs hbec]
    exact h.error
  · rw [hmoved.after, progress_moveAndPublish, Progress.running_move, h.running]
    by_cases hk : k = i
    · subst hk
      simp [hs, hold, hnew]
    · simp [hk]
  · rw [progress_moveAndPublish]
    exact Progress.remaining_move hs hbec h.remaining
  · rw [hmoved.after] at hk
    split at hk
    · cases hk
      exact ne_of_mem_moves (h.known i old hs) hm
    · exact h.known k st hk

theorem Consistent.launch (h : r.Consistent) (hs : r.progress.state? i = some .ready) :
    (r.launch i).Consistent := by
  refine ⟨?_, ?_, fun k => ?_, ?_, fun k st hk => ?_⟩
  · simpa [Run.launch] using h.size
  · exact (Progress.error_move hs rfl).trans h.error
  · rw [state?_launch hs]
    simp only [Run.launch, progress_move, Progress.running_move, List.mem_append,
      List.mem_singleton, h.running]
    by_cases hk : k = i
    · simp [hk]
    · simp [hk]
  · exact Progress.remaining_move hs rfl h.remaining
  · rw [state?_launch hs] at hk
    split at hk
    · cases hk
      decide
    · exact h.known k st hk

theorem Consistent.finish (h : r.Consistent) (hs : r.progress.state? i = some .running)
    (outcome : NodeOutcome) : (r.finish i outcome).Consistent := by
  have hbec : NodeState.canBecome .running (endState outcome) = true := by cases outcome <;> rfl
  have hprogress : (r.finish i outcome).progress = (r.note i outcome).progress.move i
      (endState outcome) := by rw [finish_eq, progress_publish, progress_move]
  refine ⟨?_, ?_, fun k => ?_, ?_, fun k st hk => ?_⟩
  · rw [hprogress, plan_finish, Progress.size_states_move]
    exact h.size
  · rw [hprogress]
    exact (Progress.error_move (s := (r.note i outcome).progress) hs hbec).trans h.error
  · rw [state?_finish hs, running_finish, List.mem_filter, h.running]
    by_cases hk : k = i
    · cases outcome <;> simp [hk, endState]
    · simp [hk]
  · rw [hprogress]
    exact Progress.remaining_move (s := (r.note i outcome).progress) hs hbec h.remaining
  · rw [state?_finish hs] at hk
    split at hk
    · cases hk
      cases outcome <;> simp [endState]
    · exact h.known k st hk

theorem Consistent.change (h : r.Consistent) (hc : Change r c r') : r'.Consistent := by
  cases hc with
  | judge o hn hs hv =>
    refine h.moveAndPublish hs hv.mem_moves (by decide) ?_
    rcases hv.cases_new with rfl | rfl | rfl <;> decide
  | drop o ho hs => exact h.moveAndPublish hs (by decide) (by decide) (by decide)
  | start hs => exact h.launch hs
  | giveUp hs =>
    rcases hs with hs | hs
    · exact h.moveAndPublish hs (by decide) (by decide) (by decide)
    · exact h.moveAndPublish hs (by decide) (by decide) (by decide)
  | finish hs outcome => exact h.finish hs outcome

theorem Consistent.changes {admits : Cause → Prop} (h : r.Consistent) (hc : Changes admits r r') :
    r'.Consistent := by
  induction hc with
  | refl => exact h
  | tail _ hc ih =>
    obtain ⟨c, _, hc⟩ := hc
    exact ih.change hc

theorem Consistent.settle (h : r.Consistent) (o : Outlook) : (r.settle o).Consistent :=
  h.changes (settle_chain r o)

/-- A consistent run is finished when every node is over. -/
theorem Consistent.isFinished_iff (h : r.Consistent) :
    r.IsFinished ↔ ∀ i st, r.progress.state? i = some st → st.isTerminal = true := by
  rw [IsFinished, h.error, h.remaining, Progress.unfinished_eq_zero_iff]
  simp

end Run

namespace Stage

theorem History.consistent {plan : Plan} {exports : Exports} {foreign : Foreign}
    {turns : List Turn} {s : Stage} (h : History (start plan exports foreign) turns s) :
    s.run.Consistent :=
  h.preserves (P := fun r _ => r.Consistent) (fun _ _ _ _ hp hc _ => hp.change hc)
    (fun _ _ _ hp _ => hp) (Run.start_consistent plan exports)

end Stage

end Foreman
