import Foreman.Proofs.Run.Answering
import Mathlib.Data.List.Forall2

/-!
# What a run reports

A run reports in two ways: it publishes an outcome for each task that was handed out, and it lists
its failures. At any time the outcome of a task is the one that the state of its node stands for,
and none while the node is not over; the failures are those of the failed tasks whose failures
count, one for each (`Run.Reports`). A node that ends publishes in the same change, and only the
first publication counts, so that nothing is published early, late or twice.
-/

namespace Foreman

def Plan.Distinct (p : Plan) : Prop :=
  ∀ (i k : Nat) (n m : PlannedNode), p.nodes[i]? = some n → p.nodes[k]? = some m → n.key = m.key →
    i = k

theorem PlannedNode.key_of_task {n : PlannedNode} {t : TaskDefinition} (h : n.task? = some t) :
    n.key = .task t.path := by
  rw [task?] at h
  rw [key]
  split at h
  · rename_i hw
    cases h
    rw [hw]
    rfl
  · cases h

theorem PlannedNode.key_of_exportPath {n : PlannedNode} {path : TaskPath}
    (h : n.exportPath? = some path) : n.key = .task path := by
  rw [exportPath?] at h
  split at h
  · obtain ⟨t, ht, rfl⟩ := Option.map_eq_some_iff.1 h
    exact key_of_task ht
  · cases h

namespace Exports

variable {e : Exports} {path other : TaskPath} {outcome : ExportOutcome}

/-- A publication counts for its own task, if that was handed out and has no outcome. -/
theorem outcome?_publish : (e.publish other outcome).outcome? path =
    if path = other ∧ path ∈ e ∧ e.outcome? path = none then some outcome else e.outcome? path := by
  by_cases hpath : path = other
  · subst hpath
    have hmem : path ∈ e ↔ (e[path]?).isSome = true := Std.TreeMap.mem_iff_isSome_getElem?
    have hout : e.outcome? path = (e[path]?).join := rfl
    rw [publish]
    split
    · rename_i he
      rw [he] at hmem hout
      rw [if_pos ⟨rfl, hmem.2 rfl, hout⟩]
      simp [outcome?]
    · rename_i hnot
      rw [if_neg]
      rintro ⟨_, hin, hnone⟩
      obtain ⟨o, he⟩ := Option.isSome_iff_exists.1 (hmem.1 hin)
      rw [hout, he] at hnone
      exact hnot (he.trans (congrArg some hnone))
  · rw [outcome?_publish_of_ne hpath, if_neg fun h => hpath h.1]

/-- What has an outcome keeps it. -/
theorem outcome?_publish_of_some {o : ExportOutcome} (h : e.outcome? path = some o) :
    (e.publish other outcome).outcome? path = some o := by
  rw [outcome?_publish, if_neg (by simp [h]), h]

/-- Handing out publishes nothing. -/
theorem outcome?_handOut : (e.handOut other).outcome? path = e.outcome? path := by
  rw [outcome?, outcome?, handOut, Std.TreeMap.getElem?_insertIfNew]
  split
  · rename_i h
    have heq : other = path := Std.LawfulEqCmp.compare_eq_iff_eq.1 h.1
    subst heq
    rw [Std.TreeMap.getElem?_eq_none h.2]
    rfl
  · rfl

end Exports

namespace Run

variable {r r' : Run} {i k : Nat} {old new : NodeState} {ends : PlannedNode → NodeOutcome}
  {start : Exports} {path : TaskPath} {outcome : ExportOutcome}

/-! ## Reports -/

/-- The outcome that the state of a node stands for, once the node is over. -/
def exportOf (r : Run) (i : Nat) : Option ExportOutcome :=
  (r.progress.state? i).bind fun
    | .succeeded => some .succeeded
    | .failed => some (if r.ignoresFailures i then .succeeded else .failed)
    | .skipped | .mustNotRun => some .notExecuted
    | _ => none

/-- Node `i` is a task that failed, and its failure counts. -/
def Blames (r : Run) (i : Nat) : Prop :=
  ∃ n t, r.plan.nodes[i]? = some n ∧ n.task? = some t ∧ r.progress.state? i = some .failed ∧
    t.ignoreFailures = false

def IsFailureOf (ends : PlannedNode → NodeOutcome) (r : Run) (i : Nat) (failure : BuildFailure) :
    Prop :=
  ∃ n t error, r.plan.nodes[i]? = some n ∧ n.task? = some t ∧ ends n = .failure error ∧
    failure = .taskFailed t.path error

/-- What a run has published and noted, where `start` was published before it and `ends` tells how
each task ends when it runs. -/
structure Reports (ends : PlannedNode → NodeOutcome) (start : Exports) (r : Run) : Prop where
  handed : ∀ path, path ∈ r.exports ↔ path ∈ start
  offered : ∀ (i : Nat) n path, r.plan.nodes[i]? = some n → n.exportPath? = some path → path ∈ start
  told : ∀ (i : Nat) n path, r.plan.nodes[i]? = some n → n.exportPath? = some path →
    r.exports.outcome? path = r.exportOf i
  kept : ∀ path, (∀ (i : Nat) n, r.plan.nodes[i]? = some n → n.exportPath? ≠ some path) →
    r.exports.outcome? path = start.outcome? path
  tolerated : ∀ i, i ∈ r.progress.tolerated ↔
    r.progress.state? i = some .failed ∧ r.ignoresFailures i = true
  /-- One failure for each task to blame, in some order. -/
  blamed : ∃ failed : List Nat, failed.Nodup ∧ (∀ i, i ∈ failed ↔ r.Blames i) ∧
    List.Forall₂ (r.IsFailureOf ends) failed r.progress.failures

theorem ignoresFailures_congr (h : r'.plan = r.plan) (i : Nat) :
    r'.ignoresFailures i = r.ignoresFailures i := by
  rw [ignoresFailures, ignoresFailures, h]

theorem isFailureOf_congr (h : r'.plan = r.plan) : r'.IsFailureOf ends = r.IsFailureOf ends := by
  unfold IsFailureOf
  rw [h]

/-- A task is to blame for its failure exactly if it does not ask to ignore it. -/
theorem ignoresFailures_of_task {n : PlannedNode} {t : TaskDefinition}
    (hn : r.plan.nodes[i]? = some n) (ht : n.task? = some t) :
    r.ignoresFailures i = t.ignoreFailures := by
  simp [ignoresFailures, hn, PlannedNode.ignoresFailures, ht]

theorem exists_task_of_ignoresFailures (h : r.ignoresFailures i = true) :
    ∃ n t, r.plan.nodes[i]? = some n ∧ n.task? = some t := by
  obtain ⟨n, hn, h⟩ := (Option.any_eq_true ..).1 h
  obtain ⟨t, ht, _⟩ := (Option.any_eq_true ..).1 h
  exact ⟨n, t, hn, ht⟩

/-- Before the first step nothing has happened yet. -/
theorem start_reports {plan : Plan} {exports : Exports}
    (hoffered : ∀ (i : Nat) n path, plan.nodes[i]? = some n → n.exportPath? = some path →
      path ∈ exports ∧ exports.outcome? path = none) :
    (Run.start plan exports).Reports ends exports := by
  have hstate : ∀ i st, (Run.start plan exports).progress.state? i = some st → st = .scheduled :=
    fun i st h => eq_scheduled_of_start h
  have hfailed : ∀ i, (Run.start plan exports).progress.state? i ≠ some .failed :=
    fun i h => by cases hstate i _ h
  constructor
  case handed => exact fun path => .rfl
  case offered => exact fun i n path hn hp => (hoffered i n path hn hp).1
  case told =>
    intro i n path hn hp
    rw [exportOf]
    cases hs : (Run.start plan exports).progress.state? i with
    | none => exact (hoffered i n path hn hp).2
    | some st =>
      rw [hstate i st hs]
      exact (hoffered i n path hn hp).2
  case kept => exact fun path _ => rfl
  case tolerated => exact fun i => iff_of_false List.not_mem_nil fun h => hfailed i h.1
  case blamed =>
    refine ⟨[], List.nodup_nil, fun i => ?_, .nil⟩
    simp [Blames, hfailed]

/-- What a change of one node publishes: nothing while it is not over, then what its new state
stands for. -/
def TellsOwn (r : Run) (i : Nat) (new : NodeState) (r' : Run) : Prop :=
  new.isTerminal = false ∧ r'.exports = r.exports ∨
    ∃ outcome, r'.exportOf i = some outcome ∧ r'.exports = (r.publish i outcome).exports

/-- The outcomes after a change of one node. No other node has its key, so that none of them is
published for another node. -/
theorem Reports.told_of_moved (h : r.Reports ends start) (hp : r.plan.Distinct)
    (hm : Moved r r' i old new) (ht : r.TellsOwn i new r') :
    (∀ path, path ∈ r'.exports ↔ path ∈ start) ∧
    (∀ (k : Nat) n path, r'.plan.nodes[k]? = some n → n.exportPath? = some path →
      r'.exports.outcome? path = r'.exportOf k) ∧
    ∀ path, (∀ (k : Nat) n, r'.plan.nodes[k]? = some n → n.exportPath? ≠ some path) →
      r'.exports.outcome? path = start.outcome? path := by
  rw [hm.plan]
  have hother : ∀ k, k ≠ i → r'.exportOf k = r.exportOf k := by
    intro k hk
    rw [exportOf, exportOf, hm.state?_of_ne hk, ignoresFailures_congr hm.plan]
  have hnone : r.exportOf i = none := by
    rw [exportOf, hm.before]
    have := hm.not_isTerminal
    cases old <;> first | rfl | cases this
  rcases ht with ⟨hterm, hexp⟩ | ⟨outcome, hown, hexp⟩
  · rw [hexp]
    refine ⟨h.handed, fun k n path hn hpath => ?_, h.kept⟩
    rw [h.told k n path hn hpath]
    by_cases hk : k = i
    · subst hk
      rw [hnone, exportOf, hm.after, if_pos rfl]
      cases new <;> first | rfl | cases hterm
    · exact (hother k hk).symm
  · rcases r.exports_publish i outcome with ⟨q, hq, hpub⟩ | ⟨hq, hpub⟩
    · obtain ⟨m, hmi, hqm⟩ := Option.bind_eq_some_iff.1 hq
      rw [hexp, hpub]
      refine ⟨fun path => Exports.mem_publish.trans (h.handed path), fun k n path hn hpath => ?_,
        fun path hpath => ?_⟩
      · rw [Exports.outcome?_publish]
        by_cases hk : k = i
        · subst hk
          rw [hmi, Option.some.injEq] at hn
          subst hn
          rw [hqm, Option.some.injEq] at hpath
          subst hpath
          rw [if_pos ⟨rfl, (h.handed q).2 (h.offered k m q hmi hqm),
            (h.told k m q hmi hqm).trans hnone⟩, hown]
        · have hne : path ≠ q := by
            rintro rfl
            refine hk (hp k i n m hn hmi ?_)
            rw [PlannedNode.key_of_exportPath hpath, PlannedNode.key_of_exportPath hqm]
          rw [if_neg fun hc => hne hc.1, h.told k n path hn hpath, hother k hk]
      · have hne : path ≠ q := by
          rintro rfl
          exact hpath i m hmi hqm
        rw [Exports.outcome?_publish, if_neg fun hc => hne hc.1, h.kept path hpath]
    · rw [hexp, hpub]
      refine ⟨h.handed, fun k n path hn hpath => ?_, h.kept⟩
      have hk : k ≠ i := by
        rintro rfl
        rw [hn, Option.bind_some, hpath] at hq
        cases hq
      rw [h.told k n path hn hpath, hother k hk]

/-- A change in which nothing fails. -/
theorem Reports.moved (h : r.Reports ends start) (hp : r.plan.Distinct) (hm : Moved r r' i old new)
    (ht : r.TellsOwn i new r') (hnew : new ≠ .failed)
    (htolerated : r'.progress.tolerated = r.progress.tolerated)
    (hfailures : r'.progress.failures = r.progress.failures) : r'.Reports ends start := by
  obtain ⟨hhanded, htold, hkept⟩ := h.told_of_moved hp hm ht
  have hfailed := hm.state?_iff (show NodeState.failed.isTerminal = true from rfl) hnew
  refine ⟨hhanded, hm.plan ▸ h.offered, htold, hkept, fun k => ?_, ?_⟩
  · rw [htolerated, hfailed, ignoresFailures_congr hm.plan]
    exact h.tolerated k
  · obtain ⟨failed, hnodup, hmem, hlist⟩ := h.blamed
    refine ⟨failed, hnodup, fun k => ?_, ?_⟩
    · rw [hmem, Blames, Blames, hm.plan]
      simp only [hfailed]
    · rw [hfailures, isFailureOf_congr hm.plan]
      exact hlist

theorem exportOf_moveAndPublish (hs : r.progress.state? i = some old) (hm : new ∈ old.moves)
    (hnew : new = .ready ∨ new = .skipped ∨ new = .mustNotRun) :
    r.TellsOwn i new (r.moveAndPublish i new) := by
  have hmoved := moved_moveAndPublish hs hm
  have hstate := hmoved.after i
  rw [if_pos rfl] at hstate
  rw [TellsOwn, exportOf, hstate, moveAndPublish]
  rcases hnew with rfl | rfl | rfl
  · exact .inl ⟨rfl, rfl⟩
  · refine .inr ⟨.notExecuted, rfl, ?_⟩
    apply exports_publish_congr <;> rfl
  · refine .inr ⟨.notExecuted, rfl, ?_⟩
    apply exports_publish_congr <;> rfl

/-- What a change does that a selection makes: a node goes on or will not run, and nothing fails. -/
structure Passes (r r' : Run) (i : Nat) (old new : NodeState) :
    Prop extends Moved r r' i old new where
  unended : new ≠ .succeeded ∧ new ≠ .failed
  tells : r.TellsOwn i new r'
  tolerated_eq : r'.progress.tolerated = r.progress.tolerated
  failures_eq : r'.progress.failures = r.progress.failures

theorem passes_moveAndPublish (hs : r.progress.state? i = some old) (hm : new ∈ old.moves)
    (hnew : new = .ready ∨ new = .skipped ∨ new = .mustNotRun) :
    Passes r (r.moveAndPublish i new) i old new := by
  refine ⟨moved_moveAndPublish hs hm, ?_, exportOf_moveAndPublish hs hm hnew, by simp, by simp⟩
  rcases hnew with rfl | rfl | rfl <;> decide

theorem Change.passes {c : Cause} {stop : Bool} {foreign : Foreign} (hc : Change r c r')
    (hcause : c.OfSelection stop foreign) : ∃ i old new, Passes r r' i old new := by
  cases hc with
  | judge o hn hs hv =>
    exact ⟨_, _, _, passes_moveAndPublish hs hv.mem_moves
      (by rcases hv.cases_new with h | h | h <;> simp [h])⟩
  | drop o ho hs => exact ⟨_, _, _, passes_moveAndPublish hs (by decide) (.inr (.inl rfl))⟩
  | start hs =>
    exact ⟨_, _, _, moved_launch hs, by decide, .inl ⟨rfl, rfl⟩, by simp [launch], by simp [launch]⟩
  | giveUp hs =>
    rcases hs with hs | hs
    · exact ⟨_, _, _, passes_moveAndPublish hs (by decide) (.inr (.inl rfl))⟩
    · exact ⟨_, _, _, passes_moveAndPublish hs (by decide) (.inr (.inl rfl))⟩
  | finish hs outcome => exact absurd hcause (by simp [Cause.OfSelection, Cause.OfAttempt])

/-- A selection fails nothing. -/
theorem Reports.changes {stop : Bool} {foreign : Foreign} (h : r.Reports ends start)
    (hp : r.plan.Distinct) (hc : Changes (Cause.OfSelection stop foreign) r r') :
    r'.Reports ends start := by
  induction hc with
  | refl => exact h
  | @tail r₁ _ hbefore hc ih =>
    obtain ⟨c, hcause, hc⟩ := hc
    obtain ⟨i, old, new, hpass⟩ := hc.passes hcause
    exact ih.moved ((Changes.plan hbefore) ▸ hp) hpass.toMoved hpass.tells hpass.unended.2
      hpass.tolerated_eq hpass.failures_eq

/-- No node ends in a selection. -/
theorem Changes.state?_ended {stop : Bool} {foreign : Foreign} {st : NodeState}
    (hc : Changes (Cause.OfSelection stop foreign) r r') (hst : st = .succeeded ∨ st = .failed)
    (hk : r'.progress.state? k = some st) : r.progress.state? k = some st := by
  induction hc with
  | refl => exact hk
  | tail _ hc ih =>
    obtain ⟨c, hcause, hc⟩ := hc
    obtain ⟨i, old, new, hpass⟩ := hc.passes hcause
    rw [hpass.after] at hk
    split at hk
    · cases hk
      rcases hst with rfl | rfl
      · exact absurd rfl hpass.unended.1
      · exact absurd rfl hpass.unended.2
    · exact ih hk

/-- What is over stays as it is. -/
theorem Changes.state?_of_isTerminal {admits : Cause → Prop} {st : NodeState}
    (hc : Changes admits r r') (hterm : st.isTerminal = true)
    (hk : r.progress.state? k = some st) : r'.progress.state? k = some st := by
  induction hc with
  | refl => exact hk
  | tail _ hc ih =>
    obtain ⟨_, _, hc⟩ := hc
    obtain ⟨i, old, new, hmoved⟩ := hc.moved
    rw [hmoved.state?_of_isDone (Progress.isDone_iff.2 ⟨st, ih, hterm⟩)]
    exact ih

/-- What runs goes on to succeed or to fail. -/
theorem Changes.state?_of_running {admits : Cause → Prop} (hc : Changes admits r r')
    (hk : r.progress.state? k = some .running) :
    r'.progress.state? k = some .running ∨ r'.progress.state? k = some .succeeded ∨
      r'.progress.state? k = some .failed := by
  induction hc with
  | refl => exact .inl hk
  | tail _ hc ih =>
    obtain ⟨_, _, hc⟩ := hc
    obtain ⟨i, old, new, hmoved⟩ := hc.moved
    by_cases hki : k = i
    · subst hki
      have hlegal := hmoved.legal
      rw [hmoved.after, if_pos rfl]
      have hold := hmoved.before
      have hopen := hmoved.not_isTerminal
      rcases ih with h | h | h <;> rw [h, Option.some.injEq] at hold <;> subst hold
      · exact .inr (by simpa [NodeState.moves] using hlegal)
      · cases hopen
      · cases hopen
    · rw [hmoved.state?_of_ne hki]
      exact ih

/-! ## Nodes that end -/

/-- A node that ends publishes what its new state stands for. -/
theorem tellsOwn_finish (hs : r.progress.state? i = some .running) {ending : NodeOutcome}
    (hown : r.ignoresFailures i = true → ending ≠ .foreignFailure) :
    r.TellsOwn i (endState ending) (r.finish i ending) := by
  have hstate := (moved_finish hs ending).after i
  rw [if_pos rfl] at hstate
  refine .inr ⟨r.outcomeOf i ending, ?_, ?_⟩
  · rw [exportOf, hstate, ignoresFailures_congr (plan_finish ending)]
    cases ending with
    | success => rfl
    | failure error => rfl
    | foreignFailure =>
      have hno : r.ignoresFailures i = false := by
        by_contra hi
        exact hown (by simpa using hi) rfl
      simp [endState, outcomeOf, hno]
  · rw [finish_eq]
    apply exports_publish_congr <;> rfl

/-- Those failures are tolerated that ask for it. -/
theorem Reports.tolerated_finish (h : r.Reports ends start)
    (hs : r.progress.state? i = some .running) {ending : NodeOutcome}
    (hown : r.ignoresFailures i = true → ending ≠ .foreignFailure) (k : Nat) :
    k ∈ (r.finish i ending).progress.tolerated ↔
      (r.finish i ending).progress.state? k = some .failed ∧
        (r.finish i ending).ignoresFailures k = true := by
  have hm := moved_finish hs ending
  rw [Run.tolerated_finish, ignoresFailures_congr (plan_finish ending), List.mem_append,
    h.tolerated]
  by_cases hk : k = i
  · subst hk
    rw [hm.after, if_pos rfl, hs]
    cases ending with
    | success => simp [toleratedOf, endState]
    | failure error => cases hi : r.ignoresFailures k <;> simp [toleratedOf, endState, hi]
    | foreignFailure =>
      simp only [toleratedOf, endState, List.not_mem_nil, false_or, true_and]
      exact iff_of_false (fun hc => by cases hc.1) fun hi => hown hi rfl
  · rw [hm.state?_of_ne hk]
    exact or_iff_right fun hmem => hk (mem_toleratedOf hmem)

theorem failuresOf_task {n : PlannedNode} {t : TaskDefinition} (hn : r.plan.nodes[i]? = some n)
    (ht : n.task? = some t) (hignore : t.ignoreFailures = false) (error : ErrorChain) :
    r.failuresOf i (.failure error) = [.taskFailed t.path error] := by
  simp [failuresOf, ignoresFailures_of_task hn ht, hignore, hn, ht]

theorem failuresOf_eq_nil {ending : NodeOutcome} (hnone : ∀ n t error, r.plan.nodes[i]? = some n →
    n.task? = some t → t.ignoreFailures = false → ending ≠ .failure error) :
    r.failuresOf i ending = [] := by
  cases ending with
  | success => rfl
  | foreignFailure => rfl
  | failure error =>
    rw [failuresOf]
    split
    · rfl
    · rename_i hi
      cases htask : (r.plan.nodes[i]?).bind (·.task?) with
      | none => rfl
      | some t =>
        obtain ⟨n, hn, ht⟩ := Option.bind_eq_some_iff.1 htask
        rw [ignoresFailures_of_task hn ht, Bool.not_eq_true] at hi
        exact absurd rfl (hnone n t error hn ht hi)

/-- A node that ends adds its failure, if that counts. -/
theorem Reports.blamed_finish (h : r.Reports ends start) (hs : r.progress.state? i = some .running)
    {ending : NodeOutcome} (hout : ∀ n t, r.plan.nodes[i]? = some n → n.task? = some t →
      ending = ends n ∧ ending ≠ .foreignFailure) :
    ∃ failed : List Nat, failed.Nodup ∧ (∀ k, k ∈ failed ↔ (r.finish i ending).Blames k) ∧
      List.Forall₂ ((r.finish i ending).IsFailureOf ends) failed
        (r.finish i ending).progress.failures := by
  have hm := moved_finish hs ending
  have hplan : (r.finish i ending).plan = r.plan := plan_finish ending
  have hstate := hm.after i
  rw [if_pos rfl] at hstate
  obtain ⟨failed, hnodup, hmem, hlist⟩ := h.blamed
  have hbefore : i ∉ failed := by
    rw [hmem]
    rintro ⟨_, _, _, _, hfailed, _⟩
    rw [hs] at hfailed
    cases hfailed
  have hblames : ∀ k, k ≠ i → ((r.finish i ending).Blames k ↔ r.Blames k) := by
    intro k hk
    rw [Blames, Blames, hplan, hm.state?_of_ne hk]
  rw [failures_finish, isFailureOf_congr hplan]
  by_cases hblame : (r.finish i ending).Blames i
  · obtain ⟨n, t, hn, ht, hfailed, hignore⟩ := hblame
    rw [hplan] at hn
    obtain ⟨hends, hown⟩ := hout n t hn ht
    obtain ⟨error, rfl⟩ : ∃ error, ending = .failure error := by
      rw [hstate] at hfailed
      cases ending with
      | success => cases hfailed
      | failure error => exact ⟨error, rfl⟩
      | foreignFailure => exact absurd rfl hown
    refine ⟨failed ++ [i], ?_, fun k => ?_, ?_⟩
    · refine List.nodup_append.2 ⟨hnodup, by simp, ?_⟩
      rintro a ha b hb rfl
      exact hbefore (List.mem_singleton.1 hb ▸ ha)
    · rw [List.mem_append, List.mem_singleton]
      by_cases hk : k = i
      · subst hk
        exact iff_of_true (.inr rfl) ⟨n, t, hplan ▸ hn, ht, hstate, hignore⟩
      · rw [hblames k hk, ← hmem]
        exact or_iff_left hk
    · rw [failuresOf_task hn ht hignore]
      exact List.rel_append hlist (.cons ⟨n, t, error, hn, ht, hends.symm, rfl⟩ .nil)
  · have hnone : r.failuresOf i ending = [] := by
      refine failuresOf_eq_nil fun n t error hn ht hignore hend => hblame ?_
      rw [hend] at hstate
      exact ⟨n, t, hplan ▸ hn, ht, hend ▸ hstate, hignore⟩
    refine ⟨failed, hnodup, fun k => ?_, ?_⟩
    · by_cases hk : k = i
      · subst hk
        exact iff_of_false hbefore hblame
      · rw [hblames k hk, ← hmem]
    · rw [hnone, List.append_nil]
      exact hlist

/-- A node ends: what it publishes and notes is what its new state stands for. -/
theorem Reports.finish (h : r.Reports ends start) (hp : r.plan.Distinct)
    (hs : r.progress.state? i = some .running) (ending : NodeOutcome)
    (hout : ∀ n t, r.plan.nodes[i]? = some n → n.task? = some t →
      ending = ends n ∧ ending ≠ .foreignFailure) : (r.finish i ending).Reports ends start := by
  -- a failure that is to be ignored is that of a task, and no failure of another build
  have hown : r.ignoresFailures i = true → ending ≠ .foreignFailure := by
    intro hi
    obtain ⟨n, t, hn, ht⟩ := exists_task_of_ignoresFailures hi
    exact (hout n t hn ht).2
  have hplan : (r.finish i ending).plan = r.plan := plan_finish ending
  obtain ⟨hhanded, htold, hkept⟩ := h.told_of_moved hp (moved_finish hs ending)
    (tellsOwn_finish hs hown)
  exact ⟨hhanded, hplan ▸ h.offered, htold, hkept, h.tolerated_finish hs hown,
    h.blamed_finish hs hout⟩

/-! ## After the run -/

/-- Whatever changes, what has an outcome keeps it. -/
theorem Change.outcome? {c : Cause} (hc : Change r c r')
    (h : r.exports.outcome? path = some outcome) : r'.exports.outcome? path = some outcome := by
  have hpublish : ∀ i o, (r.publish i o).exports.outcome? path = some outcome := by
    intro i o
    rcases r.exports_publish i o with ⟨q, _, hpub⟩ | ⟨_, hpub⟩
    · rw [hpub, Exports.outcome?_publish_of_some h]
    · rw [hpub, h]
  have hmove : ∀ i new, (r.moveAndPublish i new).exports.outcome? path = some outcome := by
    intro i new
    rcases tells_moveAndPublish r i new with ⟨_, hexp⟩ | ⟨o, hexp⟩
    · rw [hexp, h]
    · rw [hexp, hpublish]
  cases hc with
  | judge => exact hmove _ _
  | drop => exact hmove _ _
  | start => exact h
  | giveUp => exact hmove _ _
  | @finish i _ ending =>
    have hexp : (r.finish i ending).exports = (r.publish i (r.outcomeOf i ending)).exports := by
      rw [finish_eq]
      apply exports_publish_congr <;> rfl
    rw [hexp, hpublish]

theorem Changes.outcome? {admits : Cause → Prop} (hc : Changes admits r r')
    (h : r.exports.outcome? path = some outcome) : r'.exports.outcome? path = some outcome := by
  induction hc with
  | refl => exact h
  | tail _ hc ih =>
    obtain ⟨_, _, hc⟩ := hc
    exact hc.outcome? ih

/-- A run that was not broken hands out its failures. -/
theorem takeResult_fst (h : r.progress.error = none) :
    r.takeResult.1 = .ok r.progress.failures := by
  rw [takeResult, progress_abandonExports, h]

/-- Handing out the result moves no node. -/
theorem states_takeResult (r : Run) : r.takeResult.2.progress.states = r.progress.states := by
  rw [takeResult, ← progress_abandonExports r]
  split <;> rfl

theorem isDone_takeResult (r : Run) (i : Nat) :
    r.takeResult.2.progress.isDone i = r.progress.isDone i := by
  simp only [Progress.isDone, Progress.state?, states_takeResult]

theorem plan_takeResult (r : Run) : r.takeResult.2.plan = r.plan := by
  rw [takeResult, ← plan_abandonExports r]
  split <;> rfl

theorem exports_takeResult (r : Run) : r.takeResult.2.exports = r.abandonExports.exports := by
  rw [takeResult]
  split <;> rfl

/-- When every node is over, all that was to be published has been published. -/
theorem Reports.outcome?_takeResult (h : r.Reports ends start)
    (hover : ∀ (i : Nat) n, r.plan.nodes[i]? = some n → r.exportOf i ≠ none) (path : TaskPath) :
    r.takeResult.2.exports.outcome? path = r.exports.outcome? path := by
  rw [exports_takeResult, abandonExports]
  refine (List.foldlRecOn (motive := fun q : Run => q.plan = r.plan ∧
    ∀ path, q.exports.outcome? path = r.exports.outcome? path) r.indices _ ⟨rfl, fun _ => rfl⟩
    fun q hq i _ => ?_).2 path
  obtain ⟨hplan, hsame⟩ := hq
  refine ⟨by rw [plan_publish, hplan], fun path => ?_⟩
  rcases q.exports_publish i .notExecuted with ⟨own, hown, hpub⟩ | ⟨_, hpub⟩
  · obtain ⟨n, hn, hpath⟩ := Option.bind_eq_some_iff.1 hown
    rw [hplan] at hn
    have hout : q.exports.outcome? own ≠ none := by
      rw [hsame, h.told i n own hn hpath]
      exact hover i n hn
    rw [hpub, Exports.outcome?_publish, if_neg, hsame]
    rintro ⟨rfl, _, hnone⟩
    exact hout hnone
  · rw [hpub, hsame]

theorem exportOf_ne_none (h : ∃ st, r.progress.state? i = some st ∧ st.isTerminal = true) :
    r.exportOf i ≠ none := by
  obtain ⟨st, hst, hterm⟩ := h
  rw [exportOf, hst]
  cases st <;> simp_all [NodeState.isTerminal]

end Run

end Foreman
