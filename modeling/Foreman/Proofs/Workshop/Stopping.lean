import Foreman.Proofs.Workshop.Reporting

/-!
# Failing fast

With fail-fast the first failure that counts asks all runs of a workshop to stop
(`Ready.stopRequested_iff`); failures that are ignored and those of tasks of other builds do not.
From then on no node of any run starts, those that are running end as they would have done, and
those that wait are skipped as soon as a worker of their build asks for work (`Ready.drained`).
-/

namespace Foreman

open Relation

/-- The member is about to record a failure that counts. -/
def Member.raises (m : Member) (r : Run) : Bool :=
  match m.activity with
  | .acting i _ [] outcome => r.countsAsFailure i outcome
  | _ => false

namespace Workshop

variable {w₀ w w' : Workshop} {j : Nat} {m : Member} {r r' : Run} {activity : Activity}
  {table : LockTable} {b : BuildId}

/-! ## Asking for a stop -/

/-- What can happen while nobody begins a run or asks for a stop from outside: a member steps,
others take and give back locks and leases, and builds elsewhere publish. -/
inductive Drifts : Workshop → Workshop → Prop
  | step (w : Workshop) (j : Nat) : Drifts w (w.step j)
  | trade (w : Workshop) (table : LockTable) : Drifts w (w.setTable table)
  | news (w : Workshop) (outside : Foreign)
      (h : ∀ b path o, w.outside b path = some o → outside b path = some o) :
      Drifts w { w with outside }

theorem Drifts.shifts (h : Drifts w w') : Shifts w w' := by
  cases h with
  | step j => exact .step w j
  | trade table => exact .services w _ rfl
  | news outside h => exact .news w outside h

theorem shifts_of_drifts (h : ReflTransGen Drifts w w') : ReflTransGen Shifts w w' :=
  ReflTransGen.mono (fun _ _ => Drifts.shifts) _ _ h

/-- Some run has noted a failure. -/
def Failing (w : Workshop) : Prop :=
  ∃ (b : BuildId) (r : Run), w.runs[b]? = some r ∧ r.progress.failures ≠ []

/-- With fail-fast a step asks for a stop exactly if it records a failure that counts. -/
theorem services_step (hm : w.crew[j]? = some m) (hr : w.runs[m.build]? = some r) :
    (w.step j).services.failFast = w.services.failFast ∧
      (w.step j).services.stopRequested =
        (w.services.stopRequested || w.services.failFast && m.raises r) := by
  rw [step, Member.raises]
  simp only [hm, hr]
  cases hact : m.activity with
  | off => simp
  | idle =>
    simp only [stepIdle, Run.beginTurn, setRun, Bool.and_false, Bool.or_false]
    split <;> try split
    all_goals simp [setActivity]
  | acting i keys steps outcome =>
    cases steps with
    | nil =>
      simp only [stepFinish, Run.endTurn, setRun, setActivity]
      cases hfast : w.services.failFast <;> cases r.countsAsFailure i outcome <;>
        simp [Services.requestStop, hfast]
    | cons step rest =>
      dsimp only
      split
      · rw [stepAction]
        split
        · simp
        · split <;> simp [setTable, setActivity]
      · simp
  | calling i keys b path => simp [setTable, setActivity]
  | awaiting i keys b path holds =>
    dsimp only
    split <;> simp [setActivity]
  | resuming i keys holds outcome =>
    dsimp only
    split <;> simp [setTable, setActivity]

/-- What a deed makes of the failures of its run. -/
theorem Deed.failures_ne_nil_iff (hd : w.Deed m r r' activity table)
    (hmanned : r.Manned w.services.locks m.activity)
    (hown : ∀ (i : Nat) n error, m.activity.index? = some i → r.plan.nodes[i]? = some n →
      m.activity.outcome? = some (.failure error) → ∃ t, n.task? = some t) :
    r'.progress.failures ≠ [] ↔ r.progress.failures ≠ [] ∨ m.raises r = true := by
  cases hd with
  | rest hact _ hchanges => simp [hchanges.failures, Member.raises, hact]
  | begin hact _ _ _ hchanges => simp [hchanges.failures, Member.raises, hact]
  | @finish i keys outcome hact =>
    obtain ⟨n, hn, _⟩ := hmanned.exists_node (i := i) (by rw [hact]; rfl)
    rw [Run.failures_finish, Member.raises, hact, ← Run.failuresOf_ne_nil_iff hn]
    · rw [ne_eq, List.append_eq_nil_iff, not_and_or]
    · rintro error rfl
      exact hown i n error (by rw [hact]; rfl) hn (by rw [hact]; rfl)
  | trade hact | call hact | answer hact | resume hact => simp [Member.raises, hact]

/-- What a member has to record of a task of another build is no failure of its own. -/
theorem Reporting.task_of_failure (h : Reporting w₀ w) (hm : w.crew[j]? = some m)
    (hr : w.runs[m.build]? = some r) {i : Nat} {n : PlannedNode} {error : ErrorChain}
    (hi : m.activity.index? = some i) (hn : r.plan.nodes[i]? = some n)
    (hout : m.activity.outcome? = some (.failure error)) : ∃ t, n.task? = some t := by
  rcases n.task?_or_foreign with ⟨t, ht, _⟩ | ⟨d, path, hw, _⟩
  · exact ⟨t, ht⟩
  · obtain ⟨o, _, ho⟩ := h.hears j m r i n d path _ hm hr hi hn hw hout
    cases o <;> cases ho

theorem Reporting.manned (h : Reporting w₀ w) (hm : w.crew[j]? = some m)
    (hr : w.runs[m.build]? = some r) : r.Manned w.services.locks m.activity := by
  obtain ⟨q, hq, hmanned⟩ := h.crewed.manned j m hm
  cases hr.symm.trans hq
  exact hmanned

/-- What a deed makes of the failures of all runs. -/
theorem Reporting.failing_iff (h : Reporting w₀ w) (hm : w.crew[j]? = some m)
    (hr : w.runs[m.build]? = some r) (hdeed : w.Deed m r r' activity table)
    (hdone : w.Done j m r' activity table w') :
    w'.Failing ↔ w.Failing ∨ m.raises r = true := by
  have hown := hdeed.failures_ne_nil_iff (h.manned hm hr) fun _ _ _ => h.task_of_failure hm hr
  have hself : w'.runs[m.build]? = some r' := by rw [hdone.runs, if_pos rfl]
  constructor
  · rintro ⟨b, q, hq, hne⟩
    rw [hdone.runs] at hq
    split at hq
    · cases hq
      exact (hown.1 hne).imp_left fun hold => ⟨_, r, hr, hold⟩
    · exact .inl ⟨b, q, hq, hne⟩
  · rintro (⟨b, q, hq, hne⟩ | hraises)
    · by_cases hb : b = m.build
      · subst hb
        cases hr.symm.trans hq
        exact ⟨_, r', hself, hown.2 (.inl hne)⟩
      · exact ⟨b, q, by rw [hdone.runs, if_neg hb, hq], hne⟩
    · exact ⟨_, r', hself, hown.2 (.inr hraises)⟩

/-- With fail-fast a stop is asked for, if it was not from the beginning, exactly where a failure
has been noted. -/
theorem Reporting.stopRequested_step (h : Reporting w₀ w) {before : Prop}
    (hfast : w.services.failFast = true)
    (hstop : w.services.stopRequested = true ↔ before ∨ w.Failing) (j : Nat) :
    (w.step j).services.failFast = true ∧
      ((w.step j).services.stopRequested = true ↔ before ∨ (w.step j).Failing) := by
  rcases h.crewed.step_cases j with hstay | ⟨m, r, r', activity, table, hm, hr, hdeed, _, hdone⟩
  · rw [hstay]
    exact ⟨hfast, hstop⟩
  · obtain ⟨hkeeps, hasks⟩ := services_step hm hr
    refine ⟨hkeeps.trans hfast, ?_⟩
    rw [hasks, h.failing_iff hm hr hdeed hdone, Bool.or_eq_true, hstop, hfast, Bool.true_and,
      or_assoc]

theorem Ready.stopRequested_iff (h : w₀.Ready) (hfast : w₀.services.failFast = true)
    (hw : ReflTransGen Drifts w₀ w) :
    w.services.stopRequested = true ↔ w₀.services.stopRequested = true ∨ w.Failing := by
  have hnone : ¬ w₀.Failing := by
    rintro ⟨b, r, hr, hne⟩
    rw [(h.cleanStart hr).progress] at hne
    exact hne rfl
  suffices w.services.failFast = true ∧
      (w.services.stopRequested = true ↔ w₀.services.stopRequested = true ∨ w.Failing) from this.2
  induction hw with
  | refl => exact ⟨hfast, by simp [hnone]⟩
  | tail hbefore hs ih =>
    obtain ⟨hrep, _⟩ := h.reporting.shiftsAll h (shifts_of_drifts hbefore)
    cases hs with
    | step j => exact hrep.stopRequested_step ih.1 ih.2 j
    | trade => exact ih
    | news => exact ih

/-! ## Draining -/

/-- A deed while a stop is asked for. -/
theorem Deed.drains (hd : w.Deed m r r' activity table) (hstop : w.services.stopRequested = true)
    (hmanned : r.Manned w.services.locks m.activity) : r.Drains r' := by
  cases hd with
  | rest _ _ hchanges hrunning => exact (hstop ▸ hchanges).drains hrunning
  | begin _ _ _ _ _ _ _ _ hgo =>
    rw [hstop] at hgo
    cases hgo
  | finish hact => exact Run.drains_finish (hmanned.running (by rw [hact]; rfl)) _
  | trade | call | answer | resume => exact .refl r

/-- While a stop is asked for, it stays so, and no run starts a node. -/
theorem Reporting.drains (h : Reporting w₀ w) (hstop : w.services.stopRequested = true)
    (hs : Drifts w w') : w'.services.stopRequested = true ∧
      ∀ (b : BuildId) (r : Run), w.runs[b]? = some r → ∃ r', w'.runs[b]? = some r' ∧
        r.Drains r' := by
  cases hs with
  | step j =>
    rcases h.crewed.step_cases j with hstay | ⟨m, r, r', activity, table, hm, hr, hdeed, _, hdone⟩
    · rw [hstay]
      exact ⟨hstop, fun b r hr => ⟨r, hr, .refl r⟩⟩
    · refine ⟨by rw [(services_step hm hr).2, hstop, Bool.true_or], fun b q hq => ?_⟩
      rw [hdone.runs]
      split
      · rename_i hb
        subst hb
        cases hr.symm.trans hq
        exact ⟨r', rfl, hdeed.drains hstop (h.manned hm hr)⟩
      · exact ⟨q, hq, .refl q⟩
  | trade => exact ⟨hstop, fun b r hr => ⟨r, hr, .refl r⟩⟩
  | news => exact ⟨hstop, fun b r hr => ⟨r, hr, .refl r⟩⟩

theorem Reporting.drainsAll (h : Reporting w₀ w) (h₀ : w₀.Ready)
    (hstop : w.services.stopRequested = true) (hs : ReflTransGen Drifts w w') :
    w'.services.stopRequested = true ∧
      ∀ (b : BuildId) (r : Run), w.runs[b]? = some r → ∃ r', w'.runs[b]? = some r' ∧
        r.Drains r' := by
  induction hs with
  | refl => exact ⟨hstop, fun b r hr => ⟨r, hr, .refl r⟩⟩
  | tail hbefore hs ih =>
    obtain ⟨hrep, _⟩ := h.shiftsAll h₀ (shifts_of_drifts hbefore)
    obtain ⟨hstop', hdrains⟩ := hrep.drains ih.1 hs
    refine ⟨hstop', fun b r hr => ?_⟩
    obtain ⟨r₁, hr₁, hd₁⟩ := ih.2 b r hr
    obtain ⟨r₂, hr₂, hd₂⟩ := hdrains b r₁ hr₁
    exact ⟨r₂, hr₂, hd₁.trans hd₂⟩

/-- A member that asks for work while a stop is asked for leaves nothing waiting. -/
theorem Reporting.step_idle (h : Reporting w₀ w) (hstop : w.services.stopRequested = true)
    (hm : w.crew[j]? = some m) (hr : w.runs[m.build]? = some r) (hp : r.plan.Layered)
    (hact : m.activity = .idle) :
    ∃ r', (w.step j).runs[m.build]? = some r' ∧ ∀ k, ¬ r'.progress.IsWaiting k := by
  obtain ⟨r', activity, table, hdeed, hdone⟩ := stepIdle_spec hm (h.crewed.consistent _ _ hr) hact
  rw [← step_eq_stepIdle hm hr hact] at hdone
  refine ⟨r', by rw [hdone.runs, if_pos rfl], ?_⟩
  cases hdeed with
  | rest _ _ _ _ _ hstopped => exact hstopped hstop hp
  | begin _ _ _ _ _ _ _ _ hgo =>
    rw [hstop] at hgo
    cases hgo
  | trade h | finish h | call h | answer h | resume h =>
    rw [hact] at h
    cases h

/-! ## The end of it -/

/-- What node `i` of a build that started in `w₀` has come to that was running: it has ended, its
failure is noted where it is one of its own, and its outcome is published if it was handed out. -/
structure Ended (w₀ : Workshop) (b : BuildId) (r : Run) (i : Nat) (n : PlannedNode) : Prop where
  state : r.progress.state? i = some .succeeded ∨ r.progress.state? i = some .failed
  failure : ∀ t, n.task? = some t → r.progress.state? i = some .failed →
    if t.ignoreFailures then i ∈ r.progress.tolerated
    else ∃ error, w₀.ends b n = .failure error ∧ .taskFailed t.path error ∈ r.progress.failures
  told : ∀ path, n.key = .task path → path ∈ r.exports →
    ∃ o, r.exportOf i = some o ∧ r.exports.outcome? path = some o

/-- What node `i` has come to that will not run: it is skipped, and that is published if it was
handed out. -/
structure Omitted (r : Run) (i : Nat) (n : PlannedNode) : Prop where
  state : r.progress.state? i = some .skipped
  told : ∀ path, n.key = .task path → path ∈ r.exports →
    r.exports.outcome? path = some .notExecuted

/-- A node that has ended has been reported. -/
theorem Reporting.has_ended (h : Reporting w₀ w) (hpublished : Published w₀ w b r)
    (hr : w.runs[b]? = some r) {i : Nat} {n : PlannedNode} (hn : r.plan.nodes[i]? = some n)
    (hst : r.progress.state? i = some .succeeded ∨ r.progress.state? i = some .failed) :
    w₀.Ended b r i n := by
  obtain ⟨r₀, hr₀, hplan, hreports⟩ := h.runs b r hr
  refine ⟨hst, fun t ht hfailed => ?_, fun path hkey hpath => ?_⟩
  · split
    · rename_i hignore
      rw [hreports.tolerated, Run.ignoresFailures_of_task hn ht]
      exact ⟨hfailed, hignore⟩
    · rename_i hcounts
      obtain ⟨failure, hmem, m, u, error, hm, hu, hends, rfl⟩ :=
        hreports.exists_failure ⟨n, t, hn, ht, hfailed, by simpa using hcounts⟩
      cases hn.symm.trans hm
      cases ht.symm.trans hu
      exact ⟨error, hends, hmem⟩
  · obtain ⟨o, ho⟩ : ∃ o, r.exportOf i = some o := by
      rw [Run.exportOf]
      rcases hst with hst | hst <;> rw [hst] <;> exact ⟨_, rfl⟩
    exact ⟨o, ho, (hpublished.outcome i n path hn hkey hpath).trans ho⟩

theorem Published.omitted (h : Published w₀ w b r) {i : Nat} {n : PlannedNode}
    (hn : r.plan.nodes[i]? = some n) (hst : r.progress.state? i = some .skipped) :
    Omitted r i n := by
  refine ⟨hst, fun path hkey hpath => ?_⟩
  rw [h.outcome i n path hn hkey hpath, Run.exportOf, hst]
  rfl

/-- What has become of a run by the time of `w'`, if a stop was asked for when it had come to
`r`. -/
structure Drained (w₀ w' : Workshop) (b : BuildId) (r r' : Run) : Prop where
  started : ∀ i, r'.progress.state? i = some .running → r.progress.state? i = some .running
  running : ∀ (i : Nat) n, r.plan.nodes[i]? = some n → r.progress.state? i = some .running →
    (r'.progress.state? i = some .running ∧ ∃ (j : Nat) (m : Member), w'.crew[j]? = some m ∧
      m.build = b ∧ m.activity.index? = some i) ∨ w₀.Ended b r' i n
  waiting : ∀ (i : Nat) n, r.plan.nodes[i]? = some n → r.progress.IsWaiting i →
    r'.progress.state? i = r.progress.state? i ∨ Omitted r' i n
  /-- No node waits on once a member of the build has asked for work. -/
  asked : ∀ (j : Nat) (m : Member), w'.crew[j]? = some m → m.build = b → m.activity = .idle →
    ∃ r'', (w'.step j).runs[b]? = some r'' ∧ ∀ k, ¬ r''.progress.IsWaiting k
  /-- When the members of the build are off, all nodes have come to their end. -/
  ended : (∀ (j : Nat) (m : Member), w'.crew[j]? = some m → m.build = b → m.activity = .off) →
    ∀ (i : Nat) n, r.plan.nodes[i]? = some n →
      (r.progress.state? i = some .running → w₀.Ended b r' i n) ∧
        (r.progress.IsWaiting i → Omitted r' i n)

/-- While a stop is asked for, every run drains. -/
theorem Ready.drained (h : w₀.Ready) (hw : ReflTransGen Drifts w₀ w)
    (hstop : w.services.stopRequested = true) (hs : ReflTransGen Drifts w w')
    (hr : w.runs[b]? = some r) : ∃ r', w'.runs[b]? = some r' ∧ Drained w₀ w' b r r' := by
  obtain ⟨hrep, _⟩ := h.reporting.shiftsAll h (shifts_of_drifts hw)
  obtain ⟨hstop', hdrains⟩ := hrep.drainsAll h hstop hs
  obtain ⟨r', hr', hd⟩ := hdrains b r hr
  have hrep' := (hrep.shiftsAll h (shifts_of_drifts hs)).1
  have hpublished := h.published (shifts_of_drifts (hw.trans hs)) hr'
  have hplan : r'.plan = r.plan := hd.changes.plan
  obtain ⟨r₀, hr₀, hplan₀, _⟩ := hrep'.runs b r' hr'
  have hlayered : r'.plan.Layered := hplan₀ ▸ (h.cleanStart hr₀).sound.layered
  refine ⟨r', hr', ?_⟩
  constructor
  case started => exact hd.started
  case running =>
    intro i n hn hi
    rcases hd.changes.state?_of_running hi with hi' | hi'
    · exact .inl ⟨hi', hrep'.crewed.tended b r' i hr' hi'⟩
    · exact .inr (hrep'.has_ended hpublished hr' (hplan ▸ hn) hi')
  case waiting =>
    intro i n hn hi
    exact (hd.waiting i hi).imp_right (hpublished.omitted (hplan ▸ hn))
  case asked =>
    rintro j m hm rfl hact
    exact hrep'.step_idle hstop' hm hr' hlayered hact
  case ended =>
    intro hoff i n hn
    have hlt : i < r'.plan.size := hplan ▸ (Array.getElem?_eq_some_iff.1 hn).1
    obtain ⟨st, hst, hterm⟩ := hrep'.isTerminal_of_off hr' hoff hlt
    constructor
    · intro hi
      rcases hd.changes.state?_of_running hi with hi' | hi'
      · rw [hst, Option.some.injEq] at hi'
        subst hi'
        cases hterm
      · exact hrep'.has_ended hpublished hr' (hplan ▸ hn) hi'
    · intro hi
      rcases hd.waiting i hi with hi' | hi'
      · rw [Progress.IsWaiting, ← hi', hst] at hi
        rcases hi with hi | hi <;> cases hi <;> cases hterm
      · exact hpublished.omitted (hplan ▸ hn) hi'

end Workshop

end Foreman
