import Foreman.Proofs.Run.Stopping
import Foreman.Proofs.Workshop.Crew

/-!
# What a step of a member comes to

`Workshop.Deed` lists all that one step of a member can do to its run, to what it does next and to
the lock table, also while its task visits other projects. A step is a deed or changes nothing
(`step_spec`); the plans need not be sound for this.
-/

namespace Foreman

namespace Run

variable {r r' : Run} {o : Outlook} {stop : Bool} {foreign : Foreign} {locks : ProjectLocks}
  {worker : Worker} {table table' : LockTable} {selection : Selection}

/-- What a selection means for the worker: nothing new, or one more running node that conflicts with
none, with its lease and its keys. -/
inductive Picked (r : Run) (locks : ProjectLocks) (worker : Worker) (table : LockTable) :
    Selection → Run → LockTable → Prop
  | rest {selection : Selection} {r' : Run} (hsel : selection = .wait ∨ selection = .done)
      (hrunning : ∀ k, r'.progress.state? k = some .running ↔ r.progress.state? k = some .running) :
      Picked r locks worker table selection r' table
  | run {r' : Run} {i : Nat} {n : PlannedNode} {leased table' : LockTable}
      (hn : r.plan.nodes[i]? = some n) (hnew : r.progress.state? i ≠ some .running)
      (hclash : ∀ (k : Nat) (m : PlannedNode), r.progress.state? k = some .running →
        r.plan.nodes[k]? = some m → m.footprint.conflicts n.footprint = false)
      (hrunning : ∀ k, r'.progress.state? k = some .running ↔
        k = i ∨ r.progress.state? k = some .running)
      (hlease : table.lease? worker = some leased)
      (hkeys : leased.acquire? (n.lockKeys r.plan.build locks) worker = some table') :
      Picked r locks worker table (.run i (n.lockKeys r.plan.build locks)) r' table'

theorem Attempted.picked (hc : r.Consistent)
    (h : Attempted r o locks worker table (some selection) r' table') :
    Picked r locks worker table selection r' table' := by
  have hsettle := fun k => state?_running_settle (k := k) r o
  have hcs := hc.settle o
  cases h with
  | finished => exact .rest (.inr rfl) hsettle
  | @run n i keys table' _ hl =>
    obtain ⟨hn, hready, hclash, rfl, leased, hlease, hkeys⟩ := hl
    have hs := (mem_readyNodes.1 hready).2
    rw [plan_settle] at hn hkeys ⊢
    refine .run hn (fun hrun => ?_) (fun k m hk hm => ?_) (fun k => ?_) hlease hkeys
    · rw [← hsettle, hs] at hrun
      cases hrun
    · rw [← hsettle, ← hcs.running] at hk
      rw [clashes, List.any_eq_false] at hclash
      have := hclash k hk
      rw [plan_settle, hm] at this
      simpa using this
    · rw [state?_launch hs]
      by_cases hk : k = i
      · simp [hk]
      · simp [hk, hsettle]
  | wait => exact .rest (.inl rfl) hsettle

/-- What runs after the first attempt ran before. -/
theorem Picked.of_settled {r₁ : Run} (hplan : r₁.plan = r.plan)
    (hsame : ∀ k, r₁.progress.state? k = some .running ↔ r.progress.state? k = some .running)
    (h : Picked r₁ locks worker table selection r' table') :
    Picked r locks worker table selection r' table' := by
  cases h with
  | rest hsel hrunning => exact .rest hsel fun k => (hrunning k).trans (hsame k)
  | run hn hnew hclash hrunning hlease hkeys =>
    rw [hplan] at hn hkeys ⊢
    refine .run hn (fun hrun => hnew ((hsame _).2 hrun))
      (fun k m hk hm => hclash k m ((hsame k).2 hk) (hplan ▸ hm)) (fun k => ?_) hlease hkeys
    rw [hrunning, hsame]

theorem Attempted.running_of_none
    (h : Attempted r o locks worker table none r' table') (k : Nat) :
    r'.progress.state? k = some .running ↔ r.progress.state? k = some .running := by
  cases h
  exact state?_running_settle r o

theorem select_picked (hc : r.Consistent) (stop : Bool) (foreign : Foreign) (locks : ProjectLocks)
    (worker : Worker) (table : LockTable) :
    Picked r locks worker table (r.select stop foreign locks worker table).1
      (r.select stop foreign locks worker table).2.1
      (r.select stop foreign locks worker table).2.2 := by
  have hsel := select_spec r stop foreign locks worker table
  generalize r.select stop foreign locks worker table = answer at hsel
  obtain ⟨selection, r', table'⟩ := answer
  dsimp only at hsel ⊢
  cases hsel with
  | strict h => exact h.picked hc
  | relaxed h₁ h =>
    exact (h.picked (hc.changes h₁.chain)).of_settled h₁.chain.plan h₁.running_of_none
  | @gaveUp r₁ r₂ h₁ h₂ =>
    refine .rest (.inr rfl) fun k => ?_
    rw [state?_running_changes (skipStuck_chain r₂) fun c hc => by subst hc; trivial]
    exact (h₂.running_of_none k).trans (h₁.running_of_none k)

/-- A node that is picked was waiting and is running now. -/
theorem isWaiting_of_select_run (hc : r.Consistent) {i : Nat} {keys : List ResourceKey}
    (hrun : (r.select stop foreign locks worker table).1 = .run i keys) :
    r.progress.IsWaiting i ∧
      (r.select stop foreign locks worker table).2.1.progress.state? i = some .running := by
  have hpicked := select_picked hc stop foreign locks worker table
  have hchain := (select_spec r stop foreign locks worker table).chain
  generalize r.select stop foreign locks worker table = answer at hrun hpicked hchain ⊢
  obtain ⟨selection, r', table'⟩ := answer
  dsimp only at hrun hpicked hchain ⊢
  subst hrun
  cases hpicked with
  | rest hsel => rcases hsel with hsel | hsel <;> cases hsel
  | run _ hnew _ hrunning =>
    have hi : r'.progress.state? i = some .running := (hrunning i).2 (.inl rfl)
    obtain ⟨st, hst, hopen⟩ := isOpen_of_changes hc hchain ⟨_, hi, rfl⟩
    have hknown := hc.known i st hst
    rw [hst] at hnew
    refine ⟨?_, hi⟩
    rw [Progress.IsWaiting, hst]
    cases st <;> simp_all [NodeState.isTerminal]

end Run

namespace PlannedNode

variable {n : PlannedNode} {t : TaskDefinition} {action : Action} {b : BuildId}
  {locks : ProjectLocks}

/-- The steps that a node takes itself and the outcome it comes to; waiting for another build is no
such step. -/
def course (n : PlannedNode) (build : BuildId) (locks : ProjectLocks) :
    List AccessStep × NodeOutcome :=
  match n.task?.bind (·.action) with
  | some action => n.performance build locks action
  | none => ([], .success)

theorem activity_task (ht : n.task? = some t) (i : Nat) (keys : List ResourceKey) :
    n.activity b locks i keys = .acting i keys (n.course b locks).1 (n.course b locks).2 := by
  rw [task?] at ht
  rw [activity, course, task?]
  cases hw : n.work with
  | foreign d path => simp [hw] at ht
  | task definition =>
    simp only [Option.bind_some]
    cases definition.action <;> rfl

theorem activity_foreign {d : BuildId} {path : TaskPath} (hw : n.work = .foreign d path) (i : Nat)
    (keys : List ResourceKey) : n.activity b locks i keys = .calling i keys d path := by
  rw [activity, hw]

/-- A node runs a task or waits for another build, and then it has no keys. -/
theorem task?_or_foreign (n : PlannedNode) : (∃ t, n.task? = some t ∧ n.work = .task t) ∨
    ∃ d path, n.work = .foreign d path ∧ n.task? = none ∧ ∀ b locks, n.lockKeys b locks = [] := by
  cases hw : n.work with
  | task t => exact .inl ⟨t, by rw [task?, hw], rfl⟩
  | foreign d path => exact .inr ⟨d, path, rfl, by rw [task?, hw], by simp [lockKeys, task?, hw]⟩

/-- A member that has started a node is busy with it. -/
theorem index?_activity (n : PlannedNode) (b : BuildId) (locks : ProjectLocks) (i : Nat)
    (keys : List ResourceKey) : (n.activity b locks i keys).index? = some i := by
  rcases n.task?_or_foreign with ⟨t, ht, _⟩ | ⟨d, path, hw, _⟩
  · rw [activity_task ht]
    rfl
  · rw [activity_foreign hw]
    rfl

end PlannedNode

namespace Workshop

variable {w w' : Workshop} {j : Nat} {m : Member} {r r' : Run} {activity : Activity}
  {table : LockTable}

/-- What member `m` can do in one step: its run and its activity afterwards, and the lock table. -/
inductive Deed (w : Workshop) (m : Member) (r : Run) : Run → Activity → LockTable → Prop
  /-- It selects a node and gets none. -/
  | rest {r' : Run} {activity : Activity} (hact : m.activity = .idle)
      (hnext : activity = .idle ∨ activity = .off)
      (hchanges : Run.Changes (Run.Cause.OfSelection w.services.stopRequested w.foreign) r r')
      (hrunning : ∀ k, r'.progress.state? k = some .running ↔ r.progress.state? k = some .running)
      (hover : activity = .off → r.plan.Sound →
        ∀ k st, r'.progress.state? k = some st → st.isTerminal = true)
      (hstopped : w.services.stopRequested = true → r.plan.Layered →
        ∀ k, ¬ r'.progress.IsWaiting k)
      (hturn : r' = (r.beginTurn w.services w.foreign m.worker).2.1)
      (hwait : activity = .idle → (r.beginTurn w.services w.foreign m.worker).1 = .wait) :
      Deed w m r r' activity w.services.table
  /-- It selects a node and starts it. -/
  | begin {r' : Run} {i : Nat} {n : PlannedNode} {leased table : LockTable}
      (hact : m.activity = .idle) (hn : r.plan.nodes[i]? = some n)
      (hnew : r.progress.state? i ≠ some .running)
      (hclash : ∀ (k : Nat) (q : PlannedNode), r.progress.state? k = some .running →
        r.plan.nodes[k]? = some q → q.footprint.conflicts n.footprint = false)
      (hchanges : Run.Changes (Run.Cause.OfSelection w.services.stopRequested w.foreign) r r')
      (hrunning : ∀ k, r'.progress.state? k = some .running ↔
        k = i ∨ r.progress.state? k = some .running)
      (hlease : w.services.table.lease? m.worker = some leased)
      (hkeys : leased.acquire? (n.lockKeys r.plan.build w.services.locks) m.worker = some table)
      (hgo : w.services.stopRequested = false) :
      Deed w m r r' (n.activity m.build w.services.locks i
        (n.lockKeys r.plan.build w.services.locks)) table
  /-- It takes a step of an action. -/
  | trade {i : Nat} {keys : List ResourceKey} {step : AccessStep} {rest : List AccessStep}
      {outcome : NodeOutcome} {n : PlannedNode} {t : TaskDefinition} {table : LockTable}
      {sight : Option Sight} (hact : m.activity = .acting i keys (step :: rest) outcome)
      (hn : r.plan.nodes[i]? = some n) (ht : n.task? = some t)
      (htake : w.services.table.take? w.services.locks ⟨m.build, t.path.project⟩ m.worker step =
        some (table, sight)) : Deed w m r r (.acting i keys rest outcome) table
  /-- It records the outcome of its node. -/
  | finish {i : Nat} {keys : List ResourceKey} {outcome : NodeOutcome}
      (hact : m.activity = .acting i keys [] outcome) :
      Deed w m r (r.finish i outcome) .idle
        ((w.services.table.release keys m.worker).unlease m.worker)
  /-- It gives up its lease to wait for another build. -/
  | call {i : Nat} {keys : List ResourceKey} {b : BuildId} {path : TaskPath}
      (hact : m.activity = .calling i keys b path) :
      Deed w m r r (.awaiting i keys b path (w.services.table.leaseCount m.worker))
        (w.services.table.surrender m.worker)
  /-- It hears what it waited for. -/
  | answer {i : Nat} {keys : List ResourceKey} {b : BuildId} {path : TaskPath} {holds : Nat}
      {outcome : ExportOutcome} (hact : m.activity = .awaiting i keys b path holds)
      (hforeign : w.foreign b path = some outcome) :
      Deed w m r r (.resuming i keys holds (.ofExport outcome)) w.services.table
  /-- It gets its lease back. -/
  | resume {i : Nat} {keys : List ResourceKey} {holds : Nat} {outcome : NodeOutcome}
      {table : LockTable} (hact : m.activity = .resuming i keys holds outcome)
      (hrestore : w.services.table.restore? m.worker holds = some table) :
      Deed w m r r (.acting i keys [] outcome) table

/-- The workshop after a deed of member `j`. -/
structure Done (w : Workshop) (j : Nat) (m : Member) (r' : Run) (activity : Activity)
    (table : LockTable) (w' : Workshop) : Prop where
  runs : ∀ b : BuildId, w'.runs[b]? = if b = m.build then some r' else w.runs[b]?
  crew : ∀ k : Nat, w'.crew[k]? = if k = j then some { m with activity } else w.crew[k]?
  table : w'.services.table = table
  locks : w'.services.locks = w.services.locks
  outside : w'.outside = w.outside

theorem Done.crew_self (h : w.Done j m r' activity table w') :
    w'.crew[j]? = some { m with activity } := by
  rw [h.crew, if_pos rfl]

theorem Done.crew_other (h : w.Done j m r' activity table w') {k : Nat} (hk : k ≠ j) :
    w'.crew[k]? = w.crew[k]? := by
  rw [h.crew, if_neg hk]

/-- A member that stays idle is what it was. -/
theorem crew_of_eq (hm : w.crew[j]? = some m) (hact : m.activity = activity) (k : Nat) :
    w.crew[k]? = if k = j then some { m with activity } else w.crew[k]? := by
  split
  · rename_i hk
    rw [hk, hm, ← hact]
  · rfl

theorem stepIdle_spec (hm : w.crew[j]? = some m)
    (hc : r.Consistent) (hact : m.activity = .idle) :
    ∃ r' activity table, w.Deed m r r' activity table ∧
      w.Done j m r' activity table (w.stepIdle j m r) := by
  have hchain := (Run.select_spec r w.services.stopRequested w.foreign w.services.locks m.worker
    w.services.table).chain
  have hpicked := Run.select_picked hc w.services.stopRequested w.foreign w.services.locks m.worker
    w.services.table
  have hchosen := fun hp => Run.select_chosen hc hp w.services.stopRequested w.foreign
    w.services.locks m.worker w.services.table
  have hstopped := fun hs : w.services.stopRequested = true => Run.select_stopped hc hs w.foreign
    w.services.locks m.worker w.services.table
  rw [stepIdle]
  generalize hanswer : r.select w.services.stopRequested w.foreign w.services.locks m.worker
    w.services.table = answer at hchain hpicked hchosen hstopped
  obtain ⟨selection, r', table'⟩ := answer
  have hturn : r.beginTurn w.services w.foreign m.worker =
      (selection, r', { w.services with table := table' }) := by rw [Run.beginTurn, hanswer]
  rw [hturn]
  dsimp only at hchain hpicked hchosen hstopped ⊢
  cases hpicked with
  | rest hsel hrunning =>
    rcases hsel with rfl | rfl
    · exact ⟨r', .idle, _, .rest hact (.inl rfl) hchain hrunning (fun h => by cases h)
        (fun hs => (hstopped hs).2) (by rw [hturn]) (fun _ => by rw [hturn]),
        fun b => runs_setRun r' m.build b, crew_of_eq hm hact, rfl, rfl, rfl⟩
    · refine ⟨r', .off, _, .rest hact (.inr rfl) hchain hrunning (fun _ hp => ?_)
        (fun hs => (hstopped hs).2) (by rw [hturn]) (fun h => by cases h),
        fun b => runs_setRun r' m.build b, fun k => crew_setActivity hm .off k, rfl, rfl, rfl⟩
      cases hchosen hp with
      | done _ hover => exact hover
  | run hn hnew hclash hrunning hlease hkeys =>
    simp only [hchain.plan, hn]
    have hgo : w.services.stopRequested = false := by
      by_contra hs
      exact (hstopped (by simpa using hs)).1 _ _ rfl
    exact ⟨r', _, _, .begin hact hn hnew hclash hchain hrunning hlease hkeys hgo,
      fun b => runs_setRun r' m.build b, fun k => crew_setActivity hm _ k, rfl, rfl, rfl⟩

theorem stepFinish_spec (hm : w.crew[j]? = some m) {i : Nat} {keys : List ResourceKey}
    {outcome : NodeOutcome} :
    w.Done j m (r.finish i outcome) .idle
      ((w.services.table.release keys m.worker).unlease m.worker)
      (w.stepFinish j m r i keys outcome) := by
  refine ⟨fun b => runs_setRun _ m.build b, fun k => crew_setActivity hm .idle k, ?_, ?_, rfl⟩
  · simp only [stepFinish, Run.endTurn, setActivity, setRun]
    split <;> rfl
  · simp only [stepFinish, Run.endTurn, setActivity, setRun]
    split <;> rfl

/-- A step of a member that changes nothing about its run. -/
theorem done_setActivity (hm : w.crew[j]? = some m) (hr : w.runs[m.build]? = some r)
    (log : List Event) (table : LockTable) (activity : Activity) :
    w.Done j m r activity table
      (({ w with log }.setTable table).setActivity j activity) where
  runs := runs_of_eq hr rfl
  crew k := crew_setActivity (w := { w with log }.setTable table) hm activity k
  table := rfl
  locks := rfl
  outside := rfl

/-- A step is a deed of the member, or it changes nothing. -/
theorem step_spec (hm : w.crew[j]? = some m) (hr : w.runs[m.build]? = some r) (hc : r.Consistent) :
    w.step j = w ∨ ∃ r' activity table, w.Deed m r r' activity table ∧
      w.Done j m r' activity table (w.step j) := by
  rw [step]
  simp only [hm, hr]
  cases hact : m.activity with
  | off => exact .inl rfl
  | idle => exact .inr (stepIdle_spec hm hc hact)
  | acting i keys steps outcome =>
    cases steps with
    | nil => exact .inr ⟨_, _, _, .finish hact, stepFinish_spec hm⟩
    | cons step rest =>
      dsimp only
      split
      · rename_i n hn
        rw [stepAction]
        split
        · exact .inl rfl
        · rename_i t ht
          split
          · exact .inl rfl
          · rename_i table sight htake
            exact .inr ⟨_, _, _, .trade hact hn ht htake, done_setActivity hm hr _ table _⟩
      · exact .inl rfl
  | calling i keys b path => exact .inr ⟨_, _, _, .call hact, done_setActivity hm hr w.log _ _⟩
  | awaiting i keys b path holds =>
    dsimp only
    split
    · rename_i outcome hforeign
      exact .inr ⟨_, _, _, .answer hact hforeign, done_setActivity hm hr w.log w.services.table _⟩
    · exact .inl rfl
  | resuming i keys holds outcome =>
    dsimp only
    split
    · rename_i table hrestore
      exact .inr ⟨_, _, _, .resume hact hrestore, done_setActivity hm hr w.log table _⟩
    · exact .inl rfl

end Workshop

end Foreman
