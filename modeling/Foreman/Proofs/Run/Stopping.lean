import Foreman.Proofs.Run.Choosing
import Foreman.Proofs.Run.Reporting

/-!
# Runs that are to stop

While a stop is asked for, a selection starts nothing and leaves no node waiting (`select_stopped`):
settling skips every node that waits, also those that were ready.
-/

namespace Foreman

def Progress.IsWaiting (s : Progress) (i : Nat) : Prop :=
  s.state? i = some .scheduled ∨ s.state? i = some .ready

namespace Run

variable {r r' r'' : Run} {c : Cause} {o : Outlook} {i k : Nat} {foreign : Foreign}
  {locks : ProjectLocks} {worker : Worker} {table table' : LockTable}
  {selection : Option Selection}

/-! ## Selections -/

/-- No change makes a node wait. -/
theorem isWaiting_of_changes {admits : Cause → Prop} (hc : r.Consistent) (h : Changes admits r r')
    (hk : r'.progress.IsWaiting k) : r.progress.IsWaiting k := by
  induction h with
  | refl => exact hk
  | @tail r₁ r₂ hbefore hch ih =>
    obtain ⟨c, _, hch⟩ := hch
    obtain ⟨i, old, new, hm⟩ := hch.moved
    apply ih
    by_cases hki : k = i
    · subst hki
      have hknown := (hc.changes hbefore).known k old hm.before
      have hlegal := hm.legal
      rw [Progress.IsWaiting, hm.after, if_pos rfl] at hk
      rw [Progress.IsWaiting, hm.before]
      cases old <;> rcases hk with hk | hk <;> simp_all [NodeState.moves]
    · rw [Progress.IsWaiting, hm.state?_of_ne hki] at hk
      exact hk

theorem settle_stopped (hc : r.Consistent) (hp : r.plan.Layered) (ho : o.stop = true) (k : Nat) :
    ¬ (r.settle o).progress.IsWaiting k := by
  have hcs := hc.settle o
  have hgo : o.stop ≠ false := by simp [ho]
  rintro (hk | hk)
  · obtain ⟨n, hn⟩ := hcs.exists_node hk
    have hlt : k < r.plan.size := plan_settle r o ▸ hcs.lt_size hk
    exact hgo ((settle_rests r o hlt).scheduled n hn hk (plan_settle r o ▸ hp)).stop
  · obtain ⟨n, hn⟩ := hcs.exists_node hk
    have hlt : k < r.plan.size := plan_settle r o ▸ hcs.lt_size hk
    exact hgo ((settle_rests r o hlt).ready (by rw [hn]; rfl) hk)

/-- A node that could start would be ready after settling. -/
theorem Attempted.not_run (ho : o.stop = true)
    (h : Attempted r o locks worker table selection r' table') (i : Nat) (keys : List ResourceKey) :
    selection ≠ some (.run i keys) := by
  rintro rfl
  cases h with
  | run _ hl =>
    have hready := mem_readyNodes.1 hl.ready
    have hgo := (settle_rests r o (plan_settle r o ▸ hready.1)).ready
      (by rw [hl.node]; rfl) hready.2
    rw [ho] at hgo
    cases hgo

theorem Attempted.not_isWaiting (hc : r.Consistent) (hp : r.plan.Layered) (ho : o.stop = true)
    (h : Attempted r o locks worker table selection r' table') (k : Nat) :
    ¬ r'.progress.IsWaiting k := by
  have hnot := h.not_run ho
  cases h with
  | finished => exact settle_stopped hc hp ho k
  | run => exact absurd rfl (hnot _ _)
  | wait => exact settle_stopped hc hp ho k
  | nothing => exact settle_stopped hc hp ho k

/-- A selection that is to stop starts nothing and leaves nothing waiting. -/
theorem select_stopped (hc : r.Consistent) {stop : Bool} (hs : stop = true) (foreign : Foreign)
    (locks : ProjectLocks) (worker : Worker) (table : LockTable) :
    (∀ i keys, (r.select stop foreign locks worker table).1 ≠ .run i keys) ∧
      (r.plan.Layered →
        ∀ k, ¬ (r.select stop foreign locks worker table).2.1.progress.IsWaiting k) := by
  have hsel := select_spec r stop foreign locks worker table
  generalize r.select stop foreign locks worker table = answer at hsel
  obtain ⟨selection, r', table'⟩ := answer
  dsimp only at hsel ⊢
  cases hsel with
  | strict h => exact ⟨fun i keys he => h.not_run hs i keys (congrArg some he),
      fun hp => h.not_isWaiting hc hp hs⟩
  | relaxed h₁ h =>
    have hc₁ := hc.changes h₁.chain
    have hplan := h₁.chain.plan
    exact ⟨fun i keys he => h.not_run hs i keys (congrArg some he),
      fun hp => h.not_isWaiting hc₁ (hplan ▸ hp) hs⟩
  | @gaveUp r₁ r₂ h₁ h₂ =>
    refine ⟨nofun, fun _ k => ?_⟩
    have hskip := state?_skipStuck r₂ (hc.changes (h₁.chain.trans h₂.chain)) k
    rintro (hk | hk) <;> rw [hskip] at hk <;> split at hk
    · cases hk
    · rename_i hnot
      exact hnot (.inl hk)
    · cases hk
    · rename_i hnot
      exact hnot (.inr hk)

theorem Verdict.eq_skipped {n : PlannedNode} {new : NodeState} (h : r.Verdict o i n new)
    (ho : o.stop = true) : new = .skipped := by
  have hgo : o.stop ≠ false := by simp [ho]
  cases h with
  | stopped => rfl
  | needless hs => exact absurd hs hgo
  | blocked => rfl
  | cleared hs => exact absurd hs hgo

/-- While a stop is asked for, nodes are skipped or start. -/
theorem Change.moved_stopped (h : Change r c r') (hcause : c.OfSelection true foreign) :
    ∃ i old new, Moved r r' i old new ∧ (new = .skipped ∨ new = .running) := by
  cases h with
  | judge o hn hs hv =>
    have ho : o.stop = true := by
      rcases hcause with hcause | hcause
      · exact hcause.1
      · cases hcause
    exact ⟨_, _, _, moved_moveAndPublish hs hv.mem_moves, .inl (hv.eq_skipped ho)⟩
  | drop _ _ hs => exact ⟨_, _, _, moved_moveAndPublish hs (by decide), .inl rfl⟩
  | start hs => exact ⟨_, _, _, moved_launch hs, .inr rfl⟩
  | giveUp hs =>
    obtain ⟨old, hm⟩ := moved_giveUp hs
    exact ⟨_, _, _, hm, .inl rfl⟩
  | finish =>
    rcases hcause with hcause | hcause
    · exact hcause.elim
    · cases hcause

theorem Changes.state?_stopped (hc : Changes (Cause.OfSelection true foreign) r r') (k : Nat) :
    r'.progress.state? k = r.progress.state? k ∨ r'.progress.state? k = some .skipped ∨
      r'.progress.state? k = some .running := by
  induction hc with
  | refl => exact .inl rfl
  | tail _ hc ih =>
    obtain ⟨c, hcause, hc⟩ := hc
    obtain ⟨i, old, new, hm, hnew⟩ := hc.moved_stopped hcause
    rw [hm.after]
    split
    · rcases hnew with rfl | rfl
      · exact .inr (.inl rfl)
      · exact .inr (.inr rfl)
    · exact ih

/-! ## Draining -/

/-- The run has gone on without starting a node, and what waited still does or was skipped. -/
structure Drains (r r' : Run) : Prop where
  changes : Changes (fun _ => True) r r'
  started : ∀ k, r'.progress.state? k = some .running → r.progress.state? k = some .running
  waiting : ∀ k, r.progress.IsWaiting k →
    r'.progress.state? k = r.progress.state? k ∨ r'.progress.state? k = some .skipped

theorem Drains.refl (r : Run) : r.Drains r := ⟨.refl, fun _ h => h, fun _ _ => .inl rfl⟩

theorem Drains.trans (h : r.Drains r') (h' : r'.Drains r'') : r.Drains r'' where
  changes := h.changes.trans h'.changes
  started k hk := h.started k (h'.started k hk)
  waiting k hk := by
    rcases h.waiting k hk with hs | hs
    · rw [← hs]
      refine h'.waiting k ?_
      rw [Progress.IsWaiting, hs]
      exact hk
    · exact .inr (h'.changes.state?_of_isTerminal rfl hs)

/-- A selection that starts nothing although a stop is asked for. -/
theorem Changes.drains (hc : Changes (Cause.OfSelection true foreign) r r')
    (hrunning : ∀ k, r'.progress.state? k = some .running ↔ r.progress.state? k = some .running) :
    r.Drains r' where
  changes := hc.mono fun _ _ => trivial
  started k := (hrunning k).1
  waiting k hk := by
    rcases hc.state?_stopped k with hs | hs | hs
    · exact .inl hs
    · exact .inr hs
    · rw [Progress.IsWaiting, (hrunning k).1 hs] at hk
      rcases hk with hk | hk <;> cases hk

theorem drains_finish (hi : r.progress.state? i = some .running) (outcome : NodeOutcome) :
    r.Drains (r.finish i outcome) where
  changes := .single ⟨_, trivial, .finish hi outcome⟩
  started k hk := by
    rw [state?_finish hi] at hk
    split at hk
    · cases outcome <;> cases hk
    · exact hk
  waiting k hk := by
    rw [state?_finish hi]
    split
    · rename_i hki
      rw [Progress.IsWaiting, hki, hi] at hk
      rcases hk with hk | hk <;> cases hk
    · exact .inl rfl

/-! ## Failures -/

/-- The failure of a task counts exactly if it is noted. -/
theorem failuresOf_ne_nil_iff {n : PlannedNode} {outcome : NodeOutcome}
    (hn : r.plan.nodes[i]? = some n)
    (hown : ∀ error, outcome = .failure error → ∃ t, n.task? = some t) :
    r.failuresOf i outcome ≠ [] ↔ r.countsAsFailure i outcome = true := by
  cases outcome with
  | success => simp [failuresOf, countsAsFailure]
  | foreignFailure => simp [failuresOf, countsAsFailure]
  | failure error =>
    obtain ⟨t, ht⟩ := hown error rfl
    rw [failuresOf, countsAsFailure]
    cases r.ignoresFailures i <;> simp [hn, ht]

theorem Changes.failures {stop : Bool} {foreign : Foreign}
    (hc : Changes (Cause.OfSelection stop foreign) r r') :
    r'.progress.failures = r.progress.failures := by
  induction hc with
  | refl => rfl
  | tail _ hc ih =>
    obtain ⟨c, hcause, hc⟩ := hc
    obtain ⟨i, old, new, hpass⟩ := hc.passes hcause
    rw [hpass.failures_eq, ih]

/-- Failures are noted exactly where some task is to blame. -/
theorem Reports.failures_ne_nil_iff {ends : PlannedNode → NodeOutcome} {start : Exports}
    (h : r.Reports ends start) : r.progress.failures ≠ [] ↔ ∃ i, r.Blames i := by
  obtain ⟨failed, _, hmem, hlist⟩ := h.blamed
  rw [← List.length_pos_iff, ← hlist.length_eq, List.length_pos_iff]
  constructor
  · intro hne
    obtain ⟨i, hi⟩ := List.exists_mem_of_ne_nil _ hne
    exact ⟨i, (hmem i).1 hi⟩
  · rintro ⟨i, hi⟩
    exact List.ne_nil_of_mem ((hmem i).2 hi)

/-- The failure of a task that is to blame is noted. -/
theorem Reports.exists_failure {ends : PlannedNode → NodeOutcome} {start : Exports}
    (h : r.Reports ends start) (hi : r.Blames i) :
    ∃ failure ∈ r.progress.failures, r.IsFailureOf ends i failure := by
  obtain ⟨failed, _, hmem, hlist⟩ := h.blamed
  obtain ⟨k, hk, rfl⟩ := List.getElem_of_mem ((hmem i).2 hi)
  have hk' : k < r.progress.failures.length := hlist.length_eq ▸ hk
  exact ⟨_, List.getElem_mem hk', (List.forall₂_iff_get.1 hlist).2 k hk hk'⟩

end Run

end Foreman
