import Foreman.Proofs.Run.Bookkeeping
import Foreman.Proofs.Run.Precedence

/-!
# An audit of the books

Whatever workers do with a run, its books are right (`Run.Audited`), and they get there entry by
entry: each entry moves one node as the table of moves allows and counts it off if it ends
(`Run.Entry`). So nothing is counted off twice, what is over stays as it is, and no move is ever
refused (`books_in_order`). A selection may see another request to stop, and other publications, in
its relaxed pass than in its first one.
-/

namespace Foreman

namespace Run

variable {r r' : Run} {c : Cause} {i : Nat} {old new : NodeState}

/-! ## What workers do with a run -/

/-- A selection that looks again, at the request to stop and at other builds, before its relaxed
pass. -/
def selectAnew (r : Run) (first second : Bool) (foreign later : Foreign) (locks : ProjectLocks)
    (worker : Worker) (table : LockTable) : Selection × Run × LockTable :=
  match r.attempt ⟨first, false, foreign⟩ locks worker table with
  | (some selection, r, table) => (selection, r, table)
  | (none, r, table) =>
    match r.attempt ⟨second, true, later⟩ locks worker table with
    | (some selection, r, table) => (selection, r, table)
    | (none, r, table) => (.done, r.skipStuck, table)

/-- Where both looks see the same it is the selection of a worker. -/
theorem selectAnew_same (r : Run) (stop : Bool) (foreign : Foreign) (locks : ProjectLocks)
    (worker : Worker) (table : LockTable) :
    r.selectAnew stop stop foreign foreign locks worker table =
      r.select stop foreign locks worker table := rfl

inductive Use
  | select (first second : Bool) (foreign later : Foreign) (locks : ProjectLocks) (worker : Worker)
    (table : LockTable)
  | finish (i : Nat) (outcome : NodeOutcome)

/-- The run after a use. Only a node that is running can be finished. -/
def use (r : Run) : Use → Run
  | .select first second foreign later locks worker table =>
    (r.selectAnew first second foreign later locks worker table).2.1
  | .finish i outcome => if r.progress.isIn i .running then r.finish i outcome else r

def useAll (r : Run) (uses : List Use) : Run := uses.foldl use r

/-- A selection is a chain of changes, whatever its passes see. -/
theorem selectAnew_chain (r : Run) (first second : Bool) (foreign later : Foreign)
    (locks : ProjectLocks) (worker : Worker) (table : LockTable) :
    Changes (fun _ => True) r
      (r.selectAnew first second foreign later locks worker table).2.1 := by
  have h₁ := (attempt_spec r ⟨first, false, foreign⟩ locks worker table).chain
  rw [selectAnew]
  generalize r.attempt ⟨first, false, foreign⟩ locks worker table = strict at h₁
  obtain ⟨selection, r₁, table₁⟩ := strict
  replace h₁ : Changes (fun _ => True) r r₁ := h₁.mono fun _ _ => trivial
  cases selection with
  | some selection => exact h₁
  | none =>
    have h₂ := (attempt_spec r₁ ⟨second, true, later⟩ locks worker table₁).chain
    simp only
    generalize r₁.attempt ⟨second, true, later⟩ locks worker table₁ = relaxed at h₂
    obtain ⟨selection, r₂, table₂⟩ := relaxed
    replace h₂ : Changes (fun _ => True) r₁ r₂ := h₂.mono fun _ _ => trivial
    cases selection with
    | some selection => exact h₁.trans h₂
    | none => exact h₁.trans (h₂.trans ((skipStuck_chain r₂).mono fun _ _ => trivial))

theorem use_chain (r : Run) (u : Use) : Changes (fun _ => True) r (r.use u) := by
  cases u with
  | select first second foreign later locks worker table =>
    exact selectAnew_chain r first second foreign later locks worker table
  | finish i outcome =>
    rw [use]
    split
    · rename_i hi
      exact .single ⟨_, trivial, .finish (Progress.isIn_iff.1 hi) outcome⟩
    · exact .refl

/-! ## The books -/

/-- The books are right: what is left is counted, what is running is listed, each once, a failure is
ignored only where the task asks for it, and no move was refused. -/
structure Audited (r : Run) : Prop extends r.Consistent where
  once : r.progress.running.Nodup
  tolerated : ∀ i ∈ r.progress.tolerated,
    r.progress.state? i = some .failed ∧ r.ignoresFailures i = true

/-- One entry in the books: a node moves as the table allows, it is counted off if it ends, and the
books are right again. -/
def Entry (r r' : Run) : Prop :=
  (∃ i old new, Moved r r' i old new ∧
      r.progress.remaining = r'.progress.remaining + if new.isTerminal then 1 else 0) ∧
    r'.Audited

theorem start_audited (plan : Plan) (exports : Exports) : (start plan exports).Audited where
  toConsistent := start_consistent plan exports
  once := List.nodup_nil
  tolerated i hi := by simp [start, Progress.start] at hi

/-- What moves no node off a failure leaves the ignored ones as they are. -/
theorem Audited.tolerated_of_moved (h : r.Audited) (hm : Moved r r' i old new)
    (heq : r'.progress.tolerated = r.progress.tolerated) :
    ∀ k ∈ r'.progress.tolerated,
      r'.progress.state? k = some .failed ∧ r'.ignoresFailures k = true := by
  intro k hk
  rw [heq] at hk
  obtain ⟨hfailed, hignores⟩ := h.tolerated k hk
  refine ⟨?_, ?_⟩
  · rw [hm.state?_of_isDone (Progress.isDone_iff.2 ⟨_, hfailed, rfl⟩)]
    exact hfailed
  · rw [ignoresFailures, hm.plan]
    exact hignores

theorem Audited.moveAndPublish (h : r.Audited) (hs : r.progress.state? i = some old)
    (hm : new ∈ old.moves) (hc : (r.moveAndPublish i new).Consistent) :
    (r.moveAndPublish i new).Audited where
  toConsistent := hc
  once := by
    rw [progress_moveAndPublish, Progress.running_move]
    exact h.once
  tolerated := h.tolerated_of_moved (moved_moveAndPublish hs hm) (by simp)

theorem Audited.launch (h : r.Audited) (hs : r.progress.state? i = some .ready)
    (hc : (r.launch i).Consistent) : (r.launch i).Audited where
  toConsistent := hc
  once := by
    have hnew : i ∉ r.progress.running := by
      rw [h.running, hs]
      simp
    have hrunning : (r.launch i).progress.running = r.progress.running ++ [i] := by
      simp [Run.launch]
    rw [hrunning, List.nodup_append]
    refine ⟨h.once, by simp, ?_⟩
    rintro a ha b hb rfl
    exact hnew (List.mem_singleton.1 hb ▸ ha)
  tolerated := h.tolerated_of_moved (moved_launch hs) (by simp [Run.launch])

/-- A failure that comes to be ignored is that of the node that ends, which asks for it. -/
theorem Audited.finish (h : r.Audited) (hs : r.progress.state? i = some .running)
    (outcome : NodeOutcome) (hc : (r.finish i outcome).Consistent) :
    (r.finish i outcome).Audited where
  toConsistent := hc
  once := by
    rw [running_finish]
    exact h.once.filter _
  tolerated k hk := by
    have hm := moved_finish hs outcome
    rw [tolerated_finish, List.mem_append] at hk
    rw [ignoresFailures, plan_finish]
    rcases hk with hk | hk
    · cases mem_toleratedOf hk
      rw [hm.after, if_pos rfl]
      cases outcome with
      | failure error =>
        rw [toleratedOf] at hk
        split at hk
        · rename_i hignores
          exact ⟨rfl, hignores⟩
        · cases hk
      | success => cases hk
      | foreignFailure => cases hk
    · obtain ⟨hfailed, hignores⟩ := h.tolerated k hk
      rw [hm.state?_of_isDone (Progress.isDone_iff.2 ⟨_, hfailed, rfl⟩)]
      exact ⟨hfailed, hignores⟩

theorem Audited.change (h : r.Audited) (hc : Change r c r') : r'.Audited := by
  have hcons := h.toConsistent.change hc
  cases hc with
  | judge o hn hs hv => exact h.moveAndPublish hs hv.mem_moves hcons
  | drop o ho hs => exact h.moveAndPublish hs (by decide) hcons
  | start hs => exact h.launch hs hcons
  | giveUp hs =>
    rcases hs with hs | hs
    · exact h.moveAndPublish hs (by decide) hcons
    · exact h.moveAndPublish hs (by decide) hcons
  | finish hs outcome => exact h.finish hs outcome hcons

/-! ## Entries -/

/-- The states after a move are those before it, with the new state in its place. -/
theorem Moved.states (h : Moved r r' i old new) :
    r'.progress.states = r.progress.states.setIfInBounds i new := by
  refine Array.ext_getElem? fun k => ?_
  have hk := h.after k
  rw [Progress.state?, Progress.state?] at hk
  rw [hk, Array.getElem?_setIfInBounds]
  by_cases hik : k = i
  · subst hik
    have hlt : k < r.progress.states.size := by
      by_contra hlt
      have hbefore := h.before
      rw [Progress.state?, Array.getElem?_eq_none (Nat.le_of_not_lt hlt)] at hbefore
      cases hbefore
    simp [hlt]
  · rw [if_neg hik, if_neg (Ne.symm hik)]

theorem Moved.unfinished (h : Moved r r' i old new) :
    r'.progress.unfinished + old.unfinished = r.progress.unfinished + new.unfinished := by
  rw [Progress.unfinished, h.states, Array.toList_setIfInBounds]
  exact total_set _ (by simpa [Progress.state?] using h.before) new

/-- A change is an entry. What ends was counted before, so that something is left to count off. -/
theorem Audited.entry (h : r.Audited) (hc : Change r c r') : Entry r r' := by
  have h' := h.change hc
  obtain ⟨i, old, new, hm⟩ := hc.moved
  refine ⟨⟨i, old, new, hm, ?_⟩, h'⟩
  have hcount := hm.unfinished
  have hold : old.unfinished = 1 := by rw [NodeState.unfinished, hm.not_isTerminal]; rfl
  rw [h.remaining, h'.remaining]
  rw [hold, NodeState.unfinished] at hcount
  split at hcount
  · rename_i hterm
    rw [if_pos hterm]
    omega
  · rename_i hterm
    rw [if_neg hterm]
    omega

theorem Audited.entries {admits : Cause → Prop} (h : r.Audited) (hc : Changes admits r r') :
    r'.Audited ∧ Relation.ReflTransGen Entry r r' := by
  induction hc with
  | refl => exact ⟨h, .refl⟩
  | tail _ hc ih =>
    obtain ⟨c, _, hc⟩ := hc
    exact ⟨ih.1.change hc, ih.2.tail (ih.1.entry hc)⟩

theorem Audited.useAll (h : r.Audited) (uses : List Use) : (r.useAll uses).Audited :=
  List.foldlRecOn (motive := Audited) _ _ h fun r hr u _ => (hr.entries (use_chain r u)).1

/-- What is over stays as it is through all entries. -/
theorem state?_of_entries {st : NodeState} (h : Relation.ReflTransGen Entry r r')
    (hterm : st.isTerminal = true) (hi : r.progress.state? i = some st) :
    r'.progress.state? i = some st := by
  induction h with
  | refl => exact hi
  | tail _ he ih =>
    obtain ⟨⟨k, old, new, hm, _⟩, _⟩ := he
    rw [hm.state?_of_isDone (Progress.isDone_iff.2 ⟨st, ih, hterm⟩)]
    exact ih

/-- Whatever workers do with a run of whatever plan, its books are right, and whatever they do next
is written down entry by entry: nodes move as the table allows, those that end are counted off, and
those that are over stay as they are. -/
theorem books_in_order (plan : Plan) (exports : Exports) (uses : List Use) :
    ((start plan exports).useAll uses).Audited ∧ ∀ u : Use,
      Relation.ReflTransGen Entry ((start plan exports).useAll uses)
        (((start plan exports).useAll uses).use u) ∧
      ∀ i st, ((start plan exports).useAll uses).progress.state? i = some st →
        st.isTerminal = true →
        (((start plan exports).useAll uses).use u).progress.state? i = some st := by
  have h := (start_audited plan exports).useAll uses
  refine ⟨h, fun u => ?_⟩
  have hentries := (h.entries (use_chain _ u)).2
  exact ⟨hentries, fun i st hi hterm => state?_of_entries hentries hterm hi⟩

/-- Of two nodes the second depends on the first, whose failure is to be ignored. -/
def lenientPlan : Plan :=
  let first := Stage.plainNode "first" [] [1]
  ⟨⟨"main"⟩, #[
    { first with
      work := .task { TaskDefinition.plain ⟨":", "first"⟩ with ignoreFailures := true } },
    Stage.plainNode "second" [0] []]⟩

def selection : Use := .select false false (fun _ _ => none) (fun _ _ => none) ⟨true⟩ 0 (.empty 1)

def lenientUses : List Use := [selection, .finish 0 (.failure ⟨"broken", []⟩), selection]

/-- One node is left and listed as running, the failure of the other one is ignored; and the other
one stays failed when the last one ends. -/
theorem lenient_books_in_order : ∃ r, r = (start lenientPlan ∅).useAll lenientUses ∧
    r.progress.remaining = 1 ∧ r.progress.running = [1] ∧ r.progress.tolerated = [0] ∧
    r.progress.state? 0 = some .failed ∧ r.Audited ∧
    (r.use (.finish 1 .success)).progress.state? 0 = some .failed ∧
    (r.use (.finish 1 .success)).progress.remaining = 0 := by
  have h := books_in_order lenientPlan ∅ lenientUses
  have hfailed : ((start lenientPlan ∅).useAll lenientUses).progress.state? 0 = some .failed := by
    decide +kernel
  exact ⟨_, rfl, by decide +kernel, by decide +kernel, by decide +kernel, hfailed, h.1,
    (h.2 (.finish 1 .success)).2 0 .failed hfailed rfl, by decide +kernel⟩

end Run

end Foreman
