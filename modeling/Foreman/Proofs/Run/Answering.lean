import Foreman.Proofs.Run.Bookkeeping

/-!
# What other builds hear of a run

A task that was handed out either has an outcome, or some node that is not over stands for it and
will publish one (`Run.Answers`). Every change of a run keeps this: a node that ends publishes in
the same change.
-/

namespace Foreman

namespace Exports

variable {e : Exports} {path other : TaskPath} {outcome : ExportOutcome}

theorem mem_publish : path ∈ e.publish other outcome ↔ path ∈ e := by
  rw [publish]
  split
  · rename_i hother
    rw [Std.TreeMap.mem_insert, Std.LawfulEqCmp.compare_eq_iff_eq]
    refine ⟨fun h => h.elim (fun he => ?_) id, .inr⟩
    subst he
    rw [Std.TreeMap.mem_iff_isSome_getElem?, hother]
    rfl
  · rfl

theorem outcome?_publish_of_ne (h : path ≠ other) :
    (e.publish other outcome).outcome? path = e.outcome? path := by
  rw [publish]
  split
  · rw [outcome?, Std.TreeMap.getElem?_insert, if_neg]
    · rfl
    · rw [Std.LawfulEqCmp.compare_eq_iff_eq]
      exact fun he => h he.symm
  · rfl

/-- What was handed out has an outcome once one is published. -/
theorem outcome?_publish_self (h : path ∈ e) : (e.publish path outcome).outcome? path ≠ none := by
  rw [Std.TreeMap.mem_iff_isSome_getElem?] at h
  rw [publish]
  split
  · simp [outcome?]
  · rename_i hnot
    rw [outcome?]
    cases hv : e[path]? with
    | none => simp [hv] at h
    | some v =>
      cases v with
      | none => exact absurd hv hnot
      | some o => simp

end Exports

namespace Run

variable {r r' : Run} {c : Cause} {i : Nat} {old new : NodeState} {path : TaskPath}

/-- The task was handed out, and it has an outcome unless a node that stands for it is not over. -/
def Answers (r : Run) (path : TaskPath) : Prop :=
  path ∈ r.exports ∧ (r.exports.outcome? path = none →
    ∃ k n, r.plan.nodes[k]? = some n ∧ n.exportPath? = some path ∧ r.progress.IsOpen k)

theorem exports_publish (r : Run) (i : Nat) (outcome : ExportOutcome) :
    (∃ q, (r.plan.nodes[i]?).bind (·.exportPath?) = some q ∧
        (r.publish i outcome).exports = r.exports.publish q outcome) ∨
      (r.plan.nodes[i]?).bind (·.exportPath?) = none ∧
        (r.publish i outcome).exports = r.exports := by
  rw [publish]
  split
  · rename_i q hq
    exact .inl ⟨q, hq, rfl⟩
  · rename_i hq
    exact .inr ⟨hq, rfl⟩

theorem exports_publish_congr (hp : r'.plan = r.plan) (he : r'.exports = r.exports) (i : Nat)
    (outcome : ExportOutcome) : (r'.publish i outcome).exports = (r.publish i outcome).exports := by
  rw [publish, publish, hp, he]
  split
  · rfl
  · exact he

/-- A node that stays open or publishes what became of it. -/
def Tells (r : Run) (i : Nat) (new : NodeState) (r' : Run) : Prop :=
  new.isTerminal = false ∧ r'.exports = r.exports ∨
    ∃ outcome, r'.exports = (r.publish i outcome).exports

theorem Answers.moved (h : r.Answers path) (hm : Moved r r' i old new) (ht : r.Tells i new r') :
    r'.Answers path := by
  obtain ⟨hmem, hopen⟩ := h
  have hother : ∀ k, k ≠ i → r.progress.IsOpen k → r'.progress.IsOpen k := by
    rintro k hk ⟨st, hst, hterm⟩
    exact ⟨st, (hm.state?_of_ne hk).trans hst, hterm⟩
  rcases ht with ⟨hterm, hexp⟩ | ⟨outcome, hexp⟩
  · refine ⟨hexp ▸ hmem, fun hnone => ?_⟩
    rw [hexp] at hnone
    obtain ⟨k, n, hn, hpath, hk⟩ := hopen hnone
    refine ⟨k, n, hm.plan ▸ hn, hpath, ?_⟩
    by_cases hki : k = i
    · subst hki
      exact ⟨new, by rw [hm.after, if_pos rfl], hterm⟩
    · exact hother k hki hk
  · rcases r.exports_publish i outcome with ⟨q, hq, hpub⟩ | ⟨hq, hpub⟩
    · rw [hpub] at hexp
      refine ⟨by rw [hexp, Exports.mem_publish]; exact hmem, fun hnone => ?_⟩
      rw [hexp] at hnone
      have hne : path ≠ q := by
        rintro rfl
        exact Exports.outcome?_publish_self hmem hnone
      rw [Exports.outcome?_publish_of_ne hne] at hnone
      obtain ⟨k, n, hn, hpath, hk⟩ := hopen hnone
      refine ⟨k, n, hm.plan ▸ hn, hpath, hother k ?_ hk⟩
      rintro rfl
      rw [hn, Option.bind_some, hpath, Option.some.injEq] at hq
      exact hne hq
    · rw [hpub] at hexp
      refine ⟨hexp ▸ hmem, fun hnone => ?_⟩
      rw [hexp] at hnone
      obtain ⟨k, n, hn, hpath, hk⟩ := hopen hnone
      refine ⟨k, n, hm.plan ▸ hn, hpath, hother k ?_ hk⟩
      rintro rfl
      rw [hn, Option.bind_some, hpath] at hq
      cases hq

theorem tells_moveAndPublish (r : Run) (i : Nat) (new : NodeState) :
    r.Tells i new (r.moveAndPublish i new) := by
  rw [Tells, moveAndPublish]
  cases hnew : new.isTerminal with
  | false => exact .inl ⟨rfl, rfl⟩
  | true =>
    refine .inr ⟨.notExecuted, ?_⟩
    rw [if_pos rfl]
    apply exports_publish_congr <;> rfl

theorem Answers.change (h : r.Answers path) (hc : Change r c r') : r'.Answers path := by
  cases hc with
  | judge _ hn hs hv =>
    exact h.moved (moved_moveAndPublish hs hv.mem_moves) (tells_moveAndPublish r _ _)
  | drop _ _ hs => exact h.moved (moved_moveAndPublish hs (by decide)) (tells_moveAndPublish r _ _)
  | start hs => exact h.moved (moved_launch hs) (.inl ⟨rfl, rfl⟩)
  | giveUp hs =>
    obtain ⟨old, hm⟩ := moved_giveUp hs
    exact h.moved hm (tells_moveAndPublish r _ _)
  | @finish i hs outcome =>
    refine h.moved (moved_finish hs outcome) (.inr ⟨r.outcomeOf i outcome, ?_⟩)
    rw [finish_eq]
    apply exports_publish_congr <;> rfl

theorem Answers.changes {admits : Cause → Prop} (h : r.Answers path) (hc : Changes admits r r') :
    r'.Answers path := by
  induction hc with
  | refl => exact h
  | tail _ hc ih =>
    obtain ⟨c, _, hc⟩ := hc
    exact ih.change hc

end Run

end Foreman
