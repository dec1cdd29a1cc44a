import Foreman.Proofs.Run.Answering
import Foreman.Proofs.Run.Choosing
import Foreman.Workshop

/-!
# The crew and its books

Whatever the order of steps, what the members of a crew are doing agrees with the runs and with the
lock table (`Workshop.Orderly`): each running node has exactly one member that is busy with it, and
leases and keys are held by members that are working and by nobody else. `Orderly.update` is the one
argument for all steps; `Orderly.step` goes through what a member can do.
-/

namespace Foreman

def Script.StaysHome : Script → Prop
  | .done | .panic _ => True
  | .within .. => False

theorem Script.StaysHome.steps {s : Script} (h : s.StaysHome) (locks : ProjectLocks)
    (own : Option ResourceKey) : (s.steps locks own).1 = [] := by
  cases s with
  | done => rfl
  | panic payload => rfl
  | within => exact h.elim

/-! ## The plans of a tree -/

abbrev Plans := BuildId → Option Plan

/-- A node of the plan waits for a task of another build, or comes after one. -/
def Plan.Asks (p : Plan) (b : BuildId) (path : TaskPath) : Prop :=
  ∃ (i : Nat) (n : PlannedNode), p.nodes[i]? = some n ∧
    (n.work = .foreign b path ∨ (b, path) ∈ n.afterExports)

def Plan.StaysHome (p : Plan) : Prop :=
  ∀ (i : Nat) (n : PlannedNode) (t : TaskDefinition) (action : Action), p.nodes[i]? = some n →
    n.work = .task t → t.action = some action → action.script.StaysHome

/-- What is known of the plans of a tree. -/
structure Plans.Sound (plans : Plans) : Prop where
  build : ∀ b p, plans b = some p → p.build = b
  sound : ∀ b p, plans b = some p → p.Sound
  footprint : ∀ b p (i : Nat) (n : PlannedNode) d path, plans b = some p →
    p.nodes[i]? = some n → n.work = .foreign d path → n.footprint = .none
  home : ∀ b p, plans b = some p → p.StaysHome

/-! ## Activities -/

namespace Activity

def index? : Activity → Option Nat
  | acting i .. | calling i .. | awaiting i .. | resuming i .. => some i
  | idle | off => none

def keys : Activity → List ResourceKey
  | acting _ keys .. | calling _ keys .. | awaiting _ keys .. | resuming _ keys .. => keys
  | idle | off => []

/-- The member is at work, which takes a lease. -/
def Working : Activity → Prop
  | acting .. | calling .. => True
  | _ => False

end Activity

namespace Run

variable {r r' : Run} {activity : Activity}

/-- What a member is doing agrees with its run. -/
inductive Fits (r : Run) : Activity → Prop
  | idle : Fits r .idle
  | off (hover : ∀ k st, r.progress.state? k = some st → st.isTerminal = true) : Fits r .off
  | acting {i : Nat} {keys : List ResourceKey} {outcome : NodeOutcome}
      (hi : r.progress.state? i = some .running) : Fits r (.acting i keys [] outcome)
  | calling {i : Nat} {n : PlannedNode} {b : BuildId} {path : TaskPath}
      (hi : r.progress.state? i = some .running) (hn : r.plan.nodes[i]? = some n)
      (hw : n.work = .foreign b path) : Fits r (.calling i [] b path)
  | awaiting {i : Nat} {n : PlannedNode} {b : BuildId} {path : TaskPath} {holds : Nat}
      (hi : r.progress.state? i = some .running) (hn : r.plan.nodes[i]? = some n)
      (hw : n.work = .foreign b path) (hholds : holds ≤ 1) : Fits r (.awaiting i [] b path holds)
  | resuming {i : Nat} {holds : Nat} {outcome : NodeOutcome}
      (hi : r.progress.state? i = some .running) (hholds : holds ≤ 1) :
      Fits r (.resuming i [] holds outcome)

theorem Fits.running (h : r.Fits activity) {i : Nat} (hi : activity.index? = some i) :
    r.progress.state? i = some .running := by
  cases h <;> cases hi <;> assumption

/-- What others do leaves a member's node running, and what is over stays over. -/
theorem Fits.congr (h : r.Fits activity) (hplan : r'.plan = r.plan)
    (hrunning : ∀ i, activity.index? = some i → r'.progress.state? i = some .running)
    (hover : (∀ k st, r.progress.state? k = some st → st.isTerminal = true) → r' = r) :
    r'.Fits activity := by
  cases h with
  | idle => exact .idle
  | off h =>
    rw [hover h]
    exact .off h
  | acting hi => exact .acting (hrunning _ rfl)
  | calling hi hn hw => exact .calling (hrunning _ rfl) (hplan ▸ hn) hw
  | awaiting hi hn hw hholds => exact .awaiting (hrunning _ rfl) (hplan ▸ hn) hw hholds
  | resuming hi hholds => exact .resuming (hrunning _ rfl) hholds

/-- Nothing changes in a run that is over. -/
theorem eq_of_changes_of_over {admits : Cause → Prop} (hc : Changes admits r r')
    (hover : ∀ k st, r.progress.state? k = some st → st.isTerminal = true) : r' = r := by
  induction hc with
  | refl => rfl
  | tail _ hc ih =>
    obtain ⟨c, _, hc⟩ := hc
    obtain ⟨i, old, new, hm⟩ := hc.moved
    subst ih
    have hterm := hover i old hm.before
    rw [hm.not_isTerminal] at hterm
    cases hterm

end Run

namespace Workshop

variable {plans : Plans} {staff : BuildId → Nat} {w w' : Workshop} {j : Nat} {m : Member}
  {r r' : Run} {activity : Activity}

/-- The books of a workshop agree with each other. -/
structure Orderly (plans : Plans) (staff : BuildId → Nat) (w : Workshop) : Prop where
  plan : ∀ b : BuildId, (w.runs[b]?).map (·.plan) = plans b
  consistent : ∀ (b : BuildId) (r : Run), w.runs[b]? = some r → r.Consistent
  answers : ∀ b p d path, plans b = some p → p.Asks d path →
    ∃ r, w.runs[d]? = some r ∧ r.Answers path
  fits : ∀ (j : Nat) (m : Member), w.crew[j]? = some m →
    ∃ r, w.runs[m.build]? = some r ∧ r.Fits m.activity
  apart : ∀ (j k : Nat) (m m' : Member) i, w.crew[j]? = some m → w.crew[k]? = some m' →
    m.build = m'.build → m.activity.index? = some i → m'.activity.index? = some i → j = k
  tended : ∀ (b : BuildId) (r : Run) (i : Nat), w.runs[b]? = some r →
    r.progress.state? i = some .running →
    ∃ (j : Nat) (m : Member), w.crew[j]? = some m ∧ m.build = b ∧ m.activity.index? = some i
  workers : ∀ (j k : Nat) (m m' : Member), w.crew[j]? = some m → w.crew[k]? = some m' →
    m.worker = m'.worker → j = k
  staffed : ∀ b p, plans b = some p → 0 < p.size → ∃ start, ∀ k < staff b, ∃ m : Member,
    w.crew[start + k]? = some m ∧ m.build = b
  leases : ∀ (v : Worker) count, w.services.table.leases[v]? = some count →
    count = 1 ∧ ∃ (j : Nat) (m : Member), w.crew[j]? = some m ∧ m.worker = v ∧ m.activity.Working
  owners : ∀ key v, w.services.table.owner? key = some v →
    ∃ (j : Nat) (m : Member), w.crew[j]? = some m ∧ m.worker = v ∧ key ∈ m.activity.keys

/-- A step of member `j`, who leads its run from `r` to `r'` and does `activity` next. -/
structure Steps (w : Workshop) (j : Nat) (m : Member) (r r' : Run) (activity : Activity)
    (w' : Workshop) : Prop where
  runs : ∀ b : BuildId, w'.runs[b]? = if b = m.build then some r' else w.runs[b]?
  crew : ∀ k : Nat, w'.crew[k]? = if k = j then some { m with activity } else w.crew[k]?
  fits : r'.Fits activity
  changes : Run.Changes (fun _ => True) r r'
  running : ∀ k, r'.progress.state? k = some .running ↔
    activity.index? = some k ∨ r.progress.state? k = some .running ∧ m.activity.index? ≠ some k
  fresh : ∀ k, activity.index? = some k → r.progress.state? k = some .running →
    m.activity.index? = some k
  leases : ∀ (v : Worker) count, w'.services.table.leases[v]? = some count →
    v ≠ m.worker ∧ w.services.table.leases[v]? = some count ∨
      v = m.worker ∧ count = 1 ∧ activity.Working
  owners : ∀ key v, w'.services.table.owner? key = some v →
    v ≠ m.worker ∧ w.services.table.owner? key = some v ∨ v = m.worker ∧ key ∈ activity.keys

theorem Steps.crew_self (hs : w.Steps j m r r' activity w') :
    w'.crew[j]? = some { m with activity } := by
  rw [hs.crew, if_pos rfl]

theorem Steps.crew_other (hs : w.Steps j m r r' activity w') {k : Nat} (hk : k ≠ j) :
    w'.crew[k]? = w.crew[k]? := by
  rw [hs.crew, if_neg hk]

theorem Steps.build (hs : w.Steps j m r r' activity w') (hm : w.crew[j]? = some m) {k : Nat}
    {m₁ : Member} (hm₁ : w.crew[k]? = some m₁) :
    ∃ m₂ : Member, w'.crew[k]? = some m₂ ∧ m₂.build = m₁.build := by
  by_cases hk : k = j
  · subst hk
    cases hm.symm.trans hm₁
    exact ⟨_, hs.crew_self, rfl⟩
  · exact ⟨m₁, (hs.crew_other hk).trans hm₁, rfl⟩

/-- Members other than the one that steps stay what they are. -/
theorem Steps.exists_other (hs : w.Steps j m r r' activity w') (hm : w.crew[j]? = some m)
    {Q : Member → Prop} (hQ : ¬ Q m) (h : ∃ (k : Nat) (m₁ : Member), w.crew[k]? = some m₁ ∧ Q m₁) :
    ∃ (k : Nat) (m₁ : Member), w'.crew[k]? = some m₁ ∧ Q m₁ := by
  obtain ⟨k, m₁, hm₁, hQ₁⟩ := h
  have hk : k ≠ j := by
    rintro rfl
    cases hm.symm.trans hm₁
    exact hQ hQ₁
  exact ⟨k, m₁, (hs.crew_other hk).trans hm₁, hQ₁⟩

/-- Where no two members were related, no two are after a step of one that is then related to
nobody else. -/
theorem Steps.unique (hs : w.Steps j m r r' activity w') {R : Member → Member → Prop}
    (hsymm : ∀ a b, R a b → R b a)
    (h : ∀ (k l : Nat) (mk ml : Member), w.crew[k]? = some mk → w.crew[l]? = some ml →
      R mk ml → k = l)
    (hnew : ∀ (k : Nat) (m₁ : Member), k ≠ j → w.crew[k]? = some m₁ → ¬ R { m with activity } m₁)
    {k l : Nat} {mk ml : Member} (hmk : w'.crew[k]? = some mk) (hml : w'.crew[l]? = some ml)
    (hR : R mk ml) : k = l := by
  by_cases hk : k = j <;> by_cases hl : l = j
  · rw [hk, hl]
  · subst hk
    rw [hs.crew_other hl] at hml
    cases hs.crew_self.symm.trans hmk
    exact absurd hR (hnew l ml hl hml)
  · subst hl
    rw [hs.crew_other hk] at hmk
    cases hs.crew_self.symm.trans hml
    exact absurd (hsymm _ _ hR) (hnew k mk hk hmk)
  · rw [hs.crew_other hk] at hmk
    rw [hs.crew_other hl] at hml
    exact h k l mk ml hmk hml hR

/-- The node of another member of the same build is none that the step is about. -/
theorem Orderly.running_of_other (h : w.Orderly plans staff) (hm : w.crew[j]? = some m)
    (hr : w.runs[m.build]? = some r) (hs : w.Steps j m r r' activity w') {k i : Nat} {m₁ : Member}
    (hk : k ≠ j) (hm₁ : w.crew[k]? = some m₁) (hb : m₁.build = m.build)
    (hi : m₁.activity.index? = some i) :
    r'.progress.state? i = some .running ∧ activity.index? ≠ some i := by
  have hne : m.activity.index? ≠ some i := by
    intro hmi
    exact hk (h.apart k j m₁ m i hm₁ hm hb hi hmi)
  obtain ⟨q, hq, hfits⟩ := h.fits k m₁ hm₁
  rw [hb, hr, Option.some.injEq] at hq
  subst hq
  have hrun := hfits.running hi
  exact ⟨(hs.running i).2 (.inr ⟨hrun, hne⟩), fun ha => hne (hs.fresh i ha hrun)⟩

theorem Orderly.update (h : w.Orderly plans staff) (hm : w.crew[j]? = some m)
    (hr : w.runs[m.build]? = some r) (hs : w.Steps j m r r' activity w') :
    w'.Orderly plans staff := by
  have hplan : r'.plan = r.plan := hs.changes.plan
  constructor
  case plan =>
    intro b
    rw [hs.runs, ← h.plan]
    split
    · rename_i hb
      rw [hb, hr, Option.map_some, Option.map_some, hplan]
    · rfl
  case consistent =>
    intro b q hq
    rw [hs.runs] at hq
    split at hq
    · cases hq
      exact (h.consistent m.build r hr).changes hs.changes
    · exact h.consistent b q hq
  case answers =>
    intro b p d path hp hasks
    obtain ⟨q, hq, hans⟩ := h.answers b p d path hp hasks
    rw [hs.runs]
    split
    · rename_i hd
      rw [hd, hr, Option.some.injEq] at hq
      subst hq
      exact ⟨r', rfl, hans.changes hs.changes⟩
    · exact ⟨q, hq, hans⟩
  case fits =>
    intro k m₁ hm₁
    by_cases hk : k = j
    · subst hk
      cases hs.crew_self.symm.trans hm₁
      exact ⟨r', by rw [hs.runs, if_pos rfl], hs.fits⟩
    · rw [hs.crew_other hk] at hm₁
      obtain ⟨q, hq, hfits⟩ := h.fits k m₁ hm₁
      rw [hs.runs]
      split
      · rename_i hb
        rw [hb, hr, Option.some.injEq] at hq
        subst hq
        exact ⟨r', rfl, hfits.congr hplan
          (fun i hi => (h.running_of_other hm hr hs hk hm₁ hb hi).1)
          (Run.eq_of_changes_of_over hs.changes)⟩
      · exact ⟨q, hq, hfits⟩
  case apart =>
    intro k l mk ml i hmk hml hb hik hil
    refine hs.unique
      (R := fun a b => a.build = b.build ∧ a.activity.index? = some i ∧ b.activity.index? = some i)
      ?_ ?_ ?_ hmk hml ⟨hb, hik, hil⟩
    · rintro a b ⟨hab, ha, hb⟩
      exact ⟨hab.symm, hb, ha⟩
    · rintro k l mk ml hmk hml ⟨hb, hik, hil⟩
      exact h.apart k l mk ml i hmk hml hb hik hil
    · rintro k m₁ hk hm₁ ⟨hb, hji, hki⟩
      exact (h.running_of_other hm hr hs hk hm₁ hb.symm hki).2 hji
  case tended =>
    intro b q i hq hi
    rw [hs.runs] at hq
    split at hq
    · rename_i hb
      cases hq
      rcases (hs.running i).1 hi with ha | ⟨hrun, hne⟩
      · exact ⟨j, _, hs.crew_self, hb.symm, ha⟩
      · exact hs.exists_other hm (fun hmi => hne hmi.2) (h.tended b r i (hb ▸ hr) hrun)
    · rename_i hb
      exact hs.exists_other hm (fun hmi => hb hmi.1.symm) (h.tended b q i hq hi)
  case workers =>
    intro k l mk ml hmk hml hv
    refine hs.unique (R := fun a b => a.worker = b.worker) (fun _ _ => Eq.symm) h.workers ?_
      hmk hml hv
    intro k m₁ hk hm₁ hv
    exact hk (h.workers j k m m₁ hm hm₁ hv).symm
  case staffed =>
    intro b p hp hsize
    obtain ⟨start, hstaff⟩ := h.staffed b p hp hsize
    refine ⟨start, fun k hk => ?_⟩
    obtain ⟨m₁, hm₁, hb⟩ := hstaff k hk
    obtain ⟨m₂, hm₂, hb'⟩ := hs.build hm hm₁
    exact ⟨m₂, hm₂, hb'.trans hb⟩
  case leases =>
    intro v count hv
    rcases hs.leases v count hv with ⟨hne, hold⟩ | ⟨rfl, hcount, hwork⟩
    · obtain ⟨hcount, hholder⟩ := h.leases v count hold
      exact ⟨hcount, hs.exists_other hm (fun hmv => hne hmv.1.symm) hholder⟩
    · exact ⟨hcount, j, _, hs.crew_self, rfl, hwork⟩
  case owners =>
    intro key v hv
    rcases hs.owners key v hv with ⟨hne, hold⟩ | ⟨rfl, hkey⟩
    · exact hs.exists_other hm (fun hmv => hne hmv.1.symm) (h.owners key v hold)
    · exact ⟨j, _, hs.crew_self, rfl, hkey⟩

/-! ## What a member can do -/

theorem step_eq_stepIdle (hm : w.crew[j]? = some m) (hr : w.runs[m.build]? = some r)
    (hact : m.activity = .idle) : w.step j = w.stepIdle j m r := by
  rw [step]
  simp only [hm, hr, hact]

theorem crew_setActivity (hm : w.crew[j]? = some m) (activity : Activity) (k : Nat) :
    (w.setActivity j activity).crew[k]? =
      if k = j then some { m with activity } else w.crew[k]? := by
  simp only [setActivity, Array.getElem?_modify]
  by_cases hk : j = k
  · subst hk
    simp [hm]
  · rw [if_neg hk, if_neg fun he => hk he.symm]

theorem runs_setRun (r : Run) (b d : BuildId) :
    (w.setRun b r).runs[d]? = if d = b then some r else w.runs[d]? :=
  getElem?_insert_eq_ite b d r

/-- A run that nobody leads on stays what it is. -/
theorem runs_of_eq (hr : w.runs[m.build]? = some r) (hruns : w'.runs = w.runs) (b : BuildId) :
    w'.runs[b]? = if b = m.build then some r else w.runs[b]? := by
  rw [hruns]
  split
  · rename_i hb
    rw [hb, hr]
  · rfl

/-- A member that is not at work holds no lease. -/
theorem Orderly.not_leased (h : w.Orderly plans staff) (hm : w.crew[j]? = some m)
    (hw : ¬ m.activity.Working) : w.services.table.leases[m.worker]? = none := by
  cases hv : w.services.table.leases[m.worker]? with
  | none => rfl
  | some count =>
    obtain ⟨_, k, m', hm', hworker, hwork⟩ := h.leases _ _ hv
    have hk := h.workers k j m' m hm' hm hworker
    subst hk
    rw [hm, Option.some.injEq] at hm'
    subst hm'
    exact absurd hwork hw

theorem Orderly.leaseCount_le (h : w.Orderly plans staff) (v : Worker) :
    w.services.table.leaseCount v ≤ 1 := by
  rw [LockTable.leaseCount]
  cases hv : w.services.table.leases[v]? with
  | none => exact Nat.zero_le 1
  | some count => exact Nat.le_of_eq (h.leases v count hv).1

/-- A key that the member of a step does not hold is held by another, or by nobody. -/
theorem Orderly.owner_ne (h : w.Orderly plans staff) (hm : w.crew[j]? = some m) {key : ResourceKey}
    {v : Worker} (hkey : w.services.table.owner? key = some v) (hnot : key ∉ m.activity.keys) :
    v ≠ m.worker := by
  rintro rfl
  obtain ⟨k, m', hm', hworker, hmem⟩ := h.owners key _ hkey
  have hk := h.workers k j m' m hm' hm hworker
  subst hk
  rw [hm, Option.some.injEq] at hm'
  subst hm'
  exact hnot hmem

theorem Orderly.lease_ne (h : w.Orderly plans staff) (hm : w.crew[j]? = some m)
    (hw : ¬ m.activity.Working) {v : Worker} {count : Nat}
    (hv : w.services.table.leases[v]? = some count) : v ≠ m.worker := by
  rintro rfl
  rw [h.not_leased hm hw] at hv
  cases hv

theorem Orderly.plan_eq (h : w.Orderly plans staff) {b : BuildId} (hr : w.runs[b]? = some r) :
    plans b = some r.plan := by
  rw [← h.plan b, hr]
  rfl

/-- What a member does that has just started a node. -/
theorem activity_spec (b : BuildId) (locks : ProjectLocks) {n : PlannedNode} {i : Nat}
    (hhome : r.plan.StaysHome) (hn : r.plan.nodes[i]? = some n)
    (hi : r.progress.state? i = some .running) :
    r.Fits (n.activity b locks i (n.lockKeys b locks)) ∧
      (n.activity b locks i (n.lockKeys b locks)).index? = some i ∧
      (n.activity b locks i (n.lockKeys b locks)).keys = n.lockKeys b locks ∧
      (n.activity b locks i (n.lockKeys b locks)).Working := by
  rw [PlannedNode.activity]
  cases hw : n.work with
  | foreign d path =>
    have hkeys : n.lockKeys b locks = [] := by simp [PlannedNode.lockKeys, PlannedNode.task?, hw]
    rw [hkeys]
    exact ⟨.calling hi hn hw, rfl, rfl, trivial⟩
  | task t =>
    simp only
    cases ha : t.action with
    | none => exact ⟨.acting hi, rfl, rfl, trivial⟩
    | some action =>
      have hsteps : (n.performance b locks action).1 = [] := by
        have hs := (hhome i n t action hn hw ha).steps locks (n.ownState? b locks)
        rw [PlannedNode.performance]
        generalize action.script.steps locks (n.ownState? b locks) = answer at hs
        obtain ⟨steps, panic⟩ := answer
        simp only at hs ⊢
        split <;> exact hs
      simp only
      generalize n.performance b locks action = answer at hsteps
      obtain ⟨steps, outcome⟩ := answer
      simp only at hsteps ⊢
      subst hsteps
      exact ⟨.acting hi, rfl, rfl, trivial⟩

/-- A member that takes up nothing keeps what it had, which is nothing. -/
theorem Orderly.steps_rest (h : w.Orderly plans staff) (hm : w.crew[j]? = some m)
    (hidle : m.activity = .idle)
    (hruns : ∀ b : BuildId, w'.runs[b]? = if b = m.build then some r' else w.runs[b]?)
    (hcrew : ∀ k : Nat, w'.crew[k]? = if k = j then some { m with activity } else w.crew[k]?)
    (htable : w'.services.table = w.services.table) (hfits : r'.Fits activity)
    (hindex : activity.index? = none) (hchanges : Run.Changes (fun _ => True) r r')
    (hrunning : ∀ k, r'.progress.state? k = some .running ↔
      r.progress.state? k = some .running) : w.Steps j m r r' activity w' where
  runs := hruns
  crew := hcrew
  fits := hfits
  changes := hchanges
  running k := by
    rw [hrunning, hindex, hidle]
    simp [Activity.index?]
  fresh k hk := by
    rw [hindex] at hk
    cases hk
  leases v count hv := by
    rw [htable] at hv
    refine .inl ⟨h.lease_ne hm ?_ hv, hv⟩
    rw [hidle]
    exact id
  owners key v hv := by
    rw [htable] at hv
    refine .inl ⟨h.owner_ne hm hv ?_, hv⟩
    rw [hidle]
    exact List.not_mem_nil

/-- A member that takes up a node gets a lease and the keys of the node. -/
theorem Orderly.steps_begin (h : w.Orderly plans staff) (hm : w.crew[j]? = some m)
    (hidle : m.activity = .idle)
    (hruns : ∀ b : BuildId, w'.runs[b]? = if b = m.build then some r' else w.runs[b]?)
    (hcrew : ∀ k : Nat, w'.crew[k]? = if k = j then some { m with activity } else w.crew[k]?)
    {leased : LockTable} {keys : List ResourceKey}
    (hlease : w.services.table.lease? m.worker = some leased)
    (hkeys : leased.acquire? keys m.worker = some w'.services.table) {i : Nat}
    (hfits : r'.Fits activity) (hindex : activity.index? = some i) (hkeep : activity.keys = keys)
    (hwork : activity.Working) (hchanges : Run.Changes (fun _ => True) r r')
    (hnew : r.progress.state? i ≠ some .running)
    (hrunning : ∀ k, r'.progress.state? k = some .running ↔
      k = i ∨ r.progress.state? k = some .running) : w.Steps j m r r' activity w' where
  runs := hruns
  crew := hcrew
  fits := hfits
  changes := hchanges
  running k := by
    rw [hrunning, hindex, hidle]
    simp [Activity.index?, eq_comm]
  fresh k hk hrun := by
    rw [hindex, Option.some.injEq] at hk
    subst hk
    exact absurd hrun hnew
  leases v count hv := by
    have hcount : w.services.table.leaseCount m.worker = 0 := by
      rw [LockTable.leaseCount, h.not_leased hm (by rw [hidle]; exact id)]
      rfl
    rw [LockTable.leases_acquire? hkeys, LockTable.leases_lease? hlease, hcount] at hv
    split at hv
    · rename_i hvw
      cases hv
      exact .inr ⟨hvw, rfl, hwork⟩
    · rename_i hvw
      exact .inl ⟨hvw, hv⟩
  owners key v hv := by
    rw [LockTable.owner?_acquire? hkeys] at hv
    split at hv
    · rename_i hmem
      cases hv
      exact .inr ⟨rfl, hkeep ▸ hmem⟩
    · rw [LockTable.owner?, LockTable.owners_lease? hlease] at hv
      refine .inl ⟨h.owner_ne hm hv ?_, hv⟩
      rw [hidle]
      exact List.not_mem_nil

theorem Orderly.steps_idle (hp : plans.Sound) (h : w.Orderly plans staff)
    (hm : w.crew[j]? = some m) (hr : w.runs[m.build]? = some r) (hidle : m.activity = .idle) :
    ∃ r' activity, w.Steps j m r r' activity (w.stepIdle j m r) := by
  have hplan := h.plan_eq hr
  have hc := h.consistent _ _ hr
  have hchanges := (Run.select_spec r w.services.stopRequested w.foreign w.services.locks m.worker
    w.services.table).chain
  have hchosen := Run.select_chosen hc (hp.sound _ _ hplan) w.services.stopRequested w.foreign
    w.services.locks m.worker w.services.table
  rw [stepIdle, Run.beginTurn]
  generalize r.select w.services.stopRequested w.foreign w.services.locks m.worker
    w.services.table = answer at hchanges hchosen
  obtain ⟨selection, r', table'⟩ := answer
  simp only at hchanges hchosen ⊢
  have hchanges : Run.Changes (fun _ => True) r r' := hchanges.mono fun _ _ => trivial
  cases hchosen with
  | wait hrunning =>
    refine ⟨r', .idle, h.steps_rest hm hidle (fun b => runs_setRun r' m.build b) (fun k => ?_) rfl
      .idle rfl hchanges hrunning⟩
    show w.crew[k]? = _
    split
    · rename_i hk
      rw [hk, hm, ← hidle]
    · rfl
  | done hrunning hover =>
    exact ⟨r', .off, h.steps_rest hm hidle (fun b => runs_setRun r' m.build b)
      (fun k => crew_setActivity hm .off k) rfl (.off hover) rfl hchanges hrunning⟩
  | @run _ i n leased _ hn hnew hrunning hlease hkeys =>
    have hn' : r'.plan.nodes[i]? = some n := by rwa [hchanges.plan]
    have hhome : r'.plan.StaysHome := by
      rw [hchanges.plan]
      exact hp.home _ _ hplan
    obtain ⟨hfits, hindex, hkeep, hwork⟩ := activity_spec m.build w.services.locks hhome hn'
      ((hrunning i).2 (.inl rfl))
    rw [hp.build _ _ hplan] at hkeys ⊢
    simp only [hn']
    exact ⟨r', _, h.steps_begin hm hidle (fun b => runs_setRun r' m.build b)
      (fun k => crew_setActivity hm _ k) hlease hkeys hfits hindex hkeep hwork hchanges hnew
      hrunning⟩

theorem Orderly.steps_finish (h : w.Orderly plans staff) (hm : w.crew[j]? = some m) {i : Nat}
    {keys : List ResourceKey} {outcome : NodeOutcome}
    (hact : m.activity = .acting i keys [] outcome) (hi : r.progress.state? i = some .running) :
    ∃ r' activity, w.Steps j m r r' activity (w.stepFinish j m r i keys outcome) := by
  have hchange : Run.Change r (.ended outcome) (r.finish i outcome) := .finish hi outcome
  have htable : (w.stepFinish j m r i keys outcome).services.table =
      (w.services.table.release keys m.worker).unlease m.worker := by
    simp only [stepFinish, Run.endTurn, setActivity, setRun]
    split <;> rfl
  refine ⟨r.finish i outcome, .idle, fun b => ?_, fun k => ?_, .idle,
    .single ⟨_, trivial, hchange⟩, fun k => ?_, fun k hk => ?_, fun v count hv => ?_,
    fun key v hv => ?_⟩
  · exact runs_setRun _ m.build b
  · exact crew_setActivity hm .idle k
  · rw [Run.state?_finish hi, hact]
    by_cases hk : k = i
    · subst hk
      cases outcome <;> simp [Run.endState, Activity.index?]
    · simp [Activity.index?, hk, Ne.symm hk]
  · cases hk
  · have hcount : (w.services.table.release keys m.worker).leaseCount m.worker ≤ 1 := by
      rw [LockTable.leaseCount, LockTable.leases_release]
      exact h.leaseCount_le m.worker
    rw [htable, LockTable.leases_unlease hcount, LockTable.leases_release] at hv
    split at hv
    · cases hv
    · rename_i hne
      exact .inl ⟨hne, hv⟩
  · rw [htable, LockTable.owner?, LockTable.owners_unlease, ← LockTable.owner?,
      LockTable.owner?_release] at hv
    split at hv
    · cases hv
    · rename_i hnot
      refine .inl ⟨fun hvw => ?_, hv⟩
      subst hvw
      refine h.owner_ne hm hv (fun hmem => hnot ⟨?_, hv⟩) rfl
      rwa [hact] at hmem

/-- A member that stays with its node changes nothing of its run. -/
theorem Steps.stay (hr : w.runs[m.build]? = some r) (hruns : w'.runs = w.runs)
    (hcrew : ∀ k : Nat, w'.crew[k]? = if k = j then some { m with activity } else w.crew[k]?)
    (hfits : r.Fits activity) (hindex : activity.index? = m.activity.index?)
    (hleases : ∀ (v : Worker) count, w'.services.table.leases[v]? = some count →
      v ≠ m.worker ∧ w.services.table.leases[v]? = some count ∨
        v = m.worker ∧ count = 1 ∧ activity.Working)
    (howners : ∀ key v, w'.services.table.owner? key = some v →
      v ≠ m.worker ∧ w.services.table.owner? key = some v ∨ v = m.worker ∧ key ∈ activity.keys) :
    w.Steps j m r r activity w' where
  runs := runs_of_eq hr hruns
  crew := hcrew
  fits := hfits
  changes := .refl
  running k := by
    rw [← hindex]
    constructor
    · intro hk
      by_cases hi : activity.index? = some k
      · exact .inl hi
      · exact .inr ⟨hk, hi⟩
    · rintro (hi | ⟨hk, _⟩)
      · exact hfits.running hi
      · exact hk
  fresh k hk _ := hindex ▸ hk
  leases := hleases
  owners := howners

theorem Orderly.steps_call (h : w.Orderly plans staff) (hm : w.crew[j]? = some m)
    (hr : w.runs[m.build]? = some r) {i : Nat} {n : PlannedNode} {b : BuildId} {path : TaskPath}
    (hact : m.activity = .calling i [] b path) (hi : r.progress.state? i = some .running)
    (hn : r.plan.nodes[i]? = some n) (hw : n.work = .foreign b path) :
    w.Steps j m r r (.awaiting i [] b path (w.services.table.leaseCount m.worker))
      ((w.setTable (w.services.table.surrender m.worker)).setActivity j
        (.awaiting i [] b path (w.services.table.leaseCount m.worker))) := by
  refine .stay hr rfl (fun k => ?_) (.awaiting hi hn hw (h.leaseCount_le _)) (by rw [hact]; rfl)
    (fun v count hv => ?_) (fun key v hv => ?_)
  · exact crew_setActivity (w := w.setTable _) hm _ k
  · have hv' : (w.services.table.surrender m.worker).leases[v]? = some count := hv
    rw [LockTable.leases_surrender] at hv'
    split at hv'
    · cases hv'
    · rename_i hne
      exact .inl ⟨hne, hv'⟩
  · refine .inl ⟨h.owner_ne hm hv ?_, hv⟩
    rw [hact]
    exact List.not_mem_nil

theorem Orderly.steps_answer (h : w.Orderly plans staff) (hm : w.crew[j]? = some m)
    (hr : w.runs[m.build]? = some r) {i : Nat} {b : BuildId} {path : TaskPath} {holds : Nat}
    (hact : m.activity = .awaiting i [] b path holds) (hi : r.progress.state? i = some .running)
    (hholds : holds ≤ 1) (outcome : NodeOutcome) :
    w.Steps j m r r (.resuming i [] holds outcome)
      (w.setActivity j (.resuming i [] holds outcome)) := by
  have hnot : ¬ m.activity.Working := by
    rw [hact]
    exact id
  refine .stay hr rfl (fun k => ?_) (.resuming hi hholds) (by rw [hact]; rfl)
    (fun v count hv => ?_) (fun key v hv => ?_)
  · exact crew_setActivity hm _ k
  · exact .inl ⟨h.lease_ne hm hnot hv, hv⟩
  · refine .inl ⟨h.owner_ne hm hv ?_, hv⟩
    rw [hact]
    exact List.not_mem_nil

theorem Orderly.steps_resume (h : w.Orderly plans staff) (hm : w.crew[j]? = some m)
    (hr : w.runs[m.build]? = some r) {i : Nat} {holds : Nat} {outcome : NodeOutcome}
    {table : LockTable} (hact : m.activity = .resuming i [] holds outcome)
    (hi : r.progress.state? i = some .running) (hholds : holds ≤ 1)
    (ht : w.services.table.restore? m.worker holds = some table) :
    w.Steps j m r r (.acting i [] [] outcome)
      ((w.setTable table).setActivity j (.acting i [] [] outcome)) := by
  have hnot : ¬ m.activity.Working := by
    rw [hact]
    exact id
  refine .stay hr rfl (fun k => ?_) (.acting hi) (by rw [hact]; rfl)
    (fun v count hv => ?_) (fun key v hv => ?_)
  · exact crew_setActivity (w := w.setTable table) hm _ k
  · have hv' : table.leases[v]? = some count := hv
    rw [LockTable.leases_restore? ht] at hv'
    split at hv'
    · rename_i hw
      cases hv'
      exact .inr ⟨hw.1, by omega, trivial⟩
    · exact .inl ⟨h.lease_ne hm hnot hv', hv'⟩
  · have hv' : table.owner? key = some v := hv
    rw [LockTable.owner?, LockTable.owners_restore? ht] at hv'
    refine .inl ⟨h.owner_ne hm hv' ?_, hv'⟩
    rw [hact]
    exact List.not_mem_nil

/-- Every step keeps the books in order. -/
theorem Orderly.step (hp : plans.Sound) (h : w.Orderly plans staff) (j : Nat) :
    (w.step j).Orderly plans staff := by
  rw [Workshop.step]
  cases hm : w.crew[j]? with
  | none => exact h
  | some m =>
    obtain ⟨r, hr, hfits⟩ := h.fits j m hm
    simp only [hr]
    cases hact : m.activity with
    | off => exact h
    | idle =>
      obtain ⟨r', activity, hs⟩ := h.steps_idle hp hm hr hact
      exact h.update hm hr hs
    | acting i keys steps outcome =>
      rw [hact] at hfits
      cases hfits with
      | acting hi =>
        obtain ⟨r', activity, hs⟩ := h.steps_finish hm hact hi
        exact h.update hm hr hs
    | calling i keys b path =>
      rw [hact] at hfits
      cases hfits with
      | calling hi hn hw => exact h.update hm hr (h.steps_call hm hr hact hi hn hw)
    | awaiting i keys b path holds =>
      rw [hact] at hfits
      cases hfits with
      | awaiting hi hn hw hholds =>
        simp only
        split
        · exact h.update hm hr (h.steps_answer hm hr hact hi hholds _)
        · exact h
    | resuming i keys holds outcome =>
      rw [hact] at hfits
      cases hfits with
      | resuming hi hholds =>
        simp only
        split
        · rename_i table ht
          exact h.update hm hr (h.steps_resume hm hr hact hi hholds ht)
        · exact h

/-- Every order of steps keeps the books in order. -/
theorem Orderly.steps (hp : plans.Sound) (h : w.Orderly plans staff) (js : List Nat) :
    (js.foldl Workshop.step w).Orderly plans staff := by
  induction js generalizing w with
  | nil => exact h
  | cons j js ih => exact ih (h.step hp j)

end Workshop

end Foreman
