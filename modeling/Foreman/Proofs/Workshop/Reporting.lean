import Foreman.Proofs.WorkGraph.Starting
import Foreman.Proofs.Workshop.Effects

/-!
# What the runs of a workshop report

The runs of frozen graphs begin in a workshop (`Workshop.Ready`). Whatever its members do, in
whatever order, while others trade locks and publish (`Workshop.Shifts`): each run publishes what
its nodes come to (`Ready.published`) and lists its failures, and once its members are off every
node is over and every task that was handed out has its outcome (`Ready.reported`). A node for a
task of another build ends as that task does.
-/

namespace Foreman

open Relation

/-- A task fails with an error of its own. -/
theorem PlannedNode.course_ne_foreignFailure (n : PlannedNode) (b : BuildId)
    (locks : ProjectLocks) :
    (n.course b locks).2 ≠ .foreignFailure := by
  rw [course]
  split
  · rw [performance]
    dsimp only
    split <;> simp
  · simp

def Activity.outcome? : Activity → Option NodeOutcome
  | .acting _ _ _ outcome | .resuming _ _ _ outcome => some outcome
  | _ => none

namespace Workshop

variable {w₀ w₁ w w' : Workshop} {j : Nat} {m : Member} {r r' : Run} {activity : Activity}
  {table : LockTable} {b d : BuildId} {path : TaskPath}

/-- The runs of frozen graphs are about to begin, each with a crew. -/
structure Ready (w : Workshop) : Prop where
  frozen : ∀ (b : BuildId) (r : Run), w.runs[b]? = some r → ∃ g g' : WorkGraph, g.Unpublished ∧
    g.build = b ∧ g.freeze = .ok g' ∧ g'.run? = some r
  idle : ∀ (j : Nat) (m : Member), w.crew[j]? = some m →
    m.activity = .idle ∧ ∃ r, w.runs[m.build]? = some r
  staffed : ∀ (b : BuildId) (r : Run), w.runs[b]? = some r → 0 < r.plan.size →
    ∃ (j : Nat) (m : Member), w.crew[j]? = some m ∧ m.build = b

/-- What can happen to a workshop: a member steps, others take and give back locks and leases or ask
the builds to stop, and builds elsewhere publish. -/
inductive Shifts : Workshop → Workshop → Prop
  | step (w : Workshop) (j : Nat) : Shifts w (w.step j)
  | services (w : Workshop) (services : Services) (h : services.locks = w.services.locks) :
      Shifts w { w with services }
  | news (w : Workshop) (outside : Foreign)
      (h : ∀ b path o, w.outside b path = some o → outside b path = some o) :
      Shifts w { w with outside }

/-- How each task of a build ends when it runs. -/
def ends (w : Workshop) (b : BuildId) (n : PlannedNode) : NodeOutcome :=
  (n.course b w.services.locks).2

theorem Ready.cleanStart (h : w.Ready) (hr : w.runs[b]? = some r) : WorkGraph.CleanStart b r := by
  obtain ⟨g, g', hg, rfl, hf, hrun⟩ := h.frozen b r hr
  exact hg.cleanStart hf hrun

/-! ## What later workshops still know -/

/-- The runs go on, and what was published stays so. -/
structure Later (w w' : Workshop) : Prop where
  locks : w'.services.locks = w.services.locks
  runs : ∀ (b : BuildId) (r : Run), w.runs[b]? = some r →
    ∃ r', w'.runs[b]? = some r' ∧ Run.Changes (fun _ => True) r r'
  foreign : ∀ (b : BuildId) (path : TaskPath) o, w.foreign b path = some o →
    w'.foreign b path = some o

theorem Later.refl (w : Workshop) : Later w w :=
  ⟨rfl, fun _ r hr => ⟨r, hr, .refl⟩, fun _ _ _ h => h⟩

theorem Later.trans (h : Later w₀ w) (h' : Later w w') : Later w₀ w' where
  locks := h'.locks.trans h.locks
  runs b r hr := by
    obtain ⟨r₁, hr₁, hc₁⟩ := h.runs b r hr
    obtain ⟨r₂, hr₂, hc₂⟩ := h'.runs b r₁ hr₁
    exact ⟨r₂, hr₂, hc₁.trans hc₂⟩
  foreign b path o ho := h'.foreign b path o (h.foreign b path o ho)

theorem foreign_eq (w : Workshop) (b : BuildId) (path : TaskPath) :
    w.foreign b path = ((w.runs[b]?).map fun r => r.exports.outcome? path).getD
      (w.outside b path) := by
  rw [foreign]
  split <;> simp [*]

theorem Done.later (hd : w.Done j m r' activity table w') (hr : w.runs[m.build]? = some r)
    (hc : Run.Changes (fun _ => True) r r') : Later w w' where
  locks := hd.locks
  runs b q hq := by
    rw [hd.runs]
    split
    · rename_i hb
      rw [hb, hr, Option.some.injEq] at hq
      exact ⟨r', rfl, hq ▸ hc⟩
    · exact ⟨q, hq, .refl⟩
  foreign b path o ho := by
    rw [foreign_eq] at ho ⊢
    rw [hd.runs, hd.outside]
    split
    · rename_i hb
      rw [hb, hr] at ho
      exact hc.outcome? ho
    · exact ho

/-- A run after a deed has come from one before it. -/
theorem Done.earlier {q : Run} (hd : w.Done j m r' activity table w')
    (hr : w.runs[m.build]? = some r) (hc : Run.Changes (fun _ => True) r r')
    (hq : w'.runs[b]? = some q) :
    ∃ q₀, w.runs[b]? = some q₀ ∧ Run.Changes (fun _ => True) q₀ q := by
  rw [hd.runs] at hq
  split at hq
  · rename_i hb
    cases hq
    exact ⟨r, hb ▸ hr, hc⟩
  · exact ⟨q, hq, .refl⟩

/-! ## The invariant -/

/-- What holds of a workshop that started as `w₀`. -/
structure Reporting (w₀ w : Workshop) : Prop where
  crewed : w.Crewed
  locks : w.services.locks = w₀.services.locks
  runs : ∀ (b : BuildId) (r : Run), w.runs[b]? = some r → ∃ r₀, w₀.runs[b]? = some r₀ ∧
    r.plan = r₀.plan ∧ r.Reports (w₀.ends b) r₀.exports
  staffed : ∀ (b : BuildId) (r : Run), w.runs[b]? = some r → 0 < r.plan.size →
    ∃ (j : Nat) (m : Member), w.crew[j]? = some m ∧ m.build = b
  /-- A member goes off when every node is over. -/
  ended : ∀ (j : Nat) (m : Member) r, w.crew[j]? = some m → w.runs[m.build]? = some r →
    m.activity = .off → ∀ k st, r.progress.state? k = some st → st.isTerminal = true
  /-- What a member is to record of a task of another build is what that build has published. -/
  hears : ∀ (j : Nat) (m : Member) r (i : Nat) n d path outcome, w.crew[j]? = some m →
    w.runs[m.build]? = some r → m.activity.index? = some i → r.plan.nodes[i]? = some n →
    n.work = .foreign d path → m.activity.outcome? = some outcome →
    ∃ o, w.foreign d path = some o ∧ outcome = .ofExport o
  learnt : ∀ (b : BuildId) r (i : Nat) n d path, w.runs[b]? = some r → r.plan.nodes[i]? = some n →
    n.work = .foreign d path →
    (r.progress.state? i = some .succeeded → w.foreign d path = some .succeeded) ∧
      (r.progress.state? i = some .failed → ∃ o, w.foreign d path = some o ∧ o ≠ .succeeded)

theorem Ready.reporting (h : w.Ready) : Reporting w w := by
  have hwaits : ∀ (b : BuildId) (r : Run), w.runs[b]? = some r → ∀ i st,
      r.progress.state? i = some st → st = .scheduled := by
    intro b r hr i st hst
    rw [(h.cleanStart hr).progress] at hst
    exact Run.eq_scheduled_of_start hst
  have hidle : ∀ (j : Nat) (m : Member), w.crew[j]? = some m → m.activity = .idle :=
    fun j m hm => (h.idle j m hm).1
  constructor
  case crewed =>
    exact crewed_of_idle (fun b r hr => (h.cleanStart hr).build)
      (fun b r hr => (h.cleanStart hr).progress) h.idle
  case locks => rfl
  case runs =>
    intro b r hr
    refine ⟨r, hr, rfl, ?_⟩
    have hstart : r = .start r.plan r.exports := by rw [Run.start, ← (h.cleanStart hr).progress]
    have hreports : (Run.start r.plan r.exports).Reports (w.ends b) r.exports :=
      Run.start_reports (h.cleanStart hr).offered
    exact hstart ▸ hreports
  case staffed => exact h.staffed
  case ended =>
    intro j m r hm _ hoff
    rw [hidle j m hm] at hoff
    cases hoff
  case hears =>
    intro j m r i n d path outcome hm _ hi
    rw [hidle j m hm] at hi
    cases hi
  case learnt =>
    intro b r i n d path hr _ _
    constructor <;> intro hi <;> cases hwaits b r hr i _ hi

/-- What a deed makes of the reports of its run. -/
theorem Deed.reports {ends : PlannedNode → NodeOutcome} {start : Exports}
    (hd : w.Deed m r r' activity table) (h : r.Reports ends start) (hp : r.plan.Distinct)
    (hmanned : r.Manned w.services.locks m.activity)
    (hends : ∀ n, ends n = (n.course r.plan.build w.services.locks).2) : r'.Reports ends start := by
  cases hd with
  | rest _ _ hchanges => exact h.changes hp hchanges
  | begin _ _ _ _ hchanges => exact h.changes hp hchanges
  | @finish i keys outcome hact =>
    rw [hact] at hmanned
    cases hmanned with
    | acting hi hn _ hout =>
      refine h.finish hp hi outcome fun n t hn' ht => ?_
      rw [hn, Option.some.injEq] at hn'
      subst hn'
      rw [hends, hout t ht]
      exact ⟨rfl, PlannedNode.course_ne_foreignFailure _ _ _⟩
  | trade | call | answer | resume => exact h

/-- What a deed lets its member hear of a task of another build. -/
theorem Deed.hears (hd : w.Deed m r r' activity table)
    (hmanned : r.Manned w.services.locks m.activity) (hplan : r'.plan = r.plan) {i : Nat}
    {n : PlannedNode} {outcome : NodeOutcome} (hi : activity.index? = some i)
    (hn : r'.plan.nodes[i]? = some n) (hw : n.work = .foreign d path)
    (hout : activity.outcome? = some outcome) :
    (∃ o, w.foreign d path = some o ∧ outcome = .ofExport o) ∨
      m.activity.index? = some i ∧ m.activity.outcome? = some outcome := by
  rw [hplan] at hn
  cases hd with
  | rest _ hnext => rcases hnext with rfl | rfl <;> cases hi
  | @begin _ k n₁ _ _ hact hn₁ =>
    rcases n₁.task?_or_foreign with ⟨t, ht, hwork⟩ | ⟨d', path', hwork, _⟩
    · rw [PlannedNode.activity_task ht] at hi
      cases hi
      rw [hn, Option.some.injEq] at hn₁
      rw [← hn₁, hw] at hwork
      cases hwork
    · rw [PlannedNode.activity_foreign hwork] at hout
      cases hout
  | trade hact =>
    cases hi
    rw [hact]
    exact .inr ⟨rfl, hout⟩
  | finish => cases hi
  | call => cases hout
  | answer hact hforeign =>
    rw [hact] at hmanned
    cases hmanned with
    | awaiting _ hn' hw' =>
      cases hi
      cases hout
      rw [hn, Option.some.injEq] at hn'
      rw [← hn', hw] at hw'
      cases hw'
      exact .inl ⟨_, hforeign, rfl⟩
  | resume hact =>
    cases hi
    rw [hact]
    exact .inr ⟨rfl, hout⟩

/-- A node that has ended after a deed had ended before, or its member has just recorded how. -/
theorem Deed.ended (hd : w.Deed m r r' activity table)
    (hmanned : r.Manned w.services.locks m.activity) {i : Nat} {st : NodeState}
    (hst : st = .succeeded ∨ st = .failed) (hi : r'.progress.state? i = some st) :
    r.progress.state? i = some st ∨ ∃ outcome, m.activity.index? = some i ∧
      m.activity.outcome? = some outcome ∧ Run.endState outcome = st := by
  cases hd with
  | rest _ _ hchanges => exact .inl (hchanges.state?_ended hst hi)
  | begin _ _ _ _ hchanges => exact .inl (hchanges.state?_ended hst hi)
  | @finish k keys outcome hact =>
    have hk : r.progress.state? k = some .running := hmanned.running (by rw [hact]; rfl)
    rw [Run.state?_finish hk] at hi
    split at hi
    · rename_i hik
      cases hi
      exact .inr ⟨outcome, by rw [hact, hik]; rfl, by rw [hact]; rfl, rfl⟩
    · exact .inl hi
  | trade | call | answer | resume => exact .inl hi

section Update

variable (h : Reporting w₀ w) (hm : w.crew[j]? = some m) (hr : w.runs[m.build]? = some r)
  (hdeed : w.Deed m r r' activity table) (hleads : Leads w.services.locks m r r' activity)
  (hdone : w.Done j m r' activity table w')

include h hm hr hdeed hleads hdone

theorem Reporting.update_ended (hsound : r.plan.Sound) {k : Nat} {m' : Member} {q : Run}
    (hm' : w'.crew[k]? = some m') (hq : w'.runs[m'.build]? = some q) (hoff : m'.activity = .off)
    {i : Nat} {st : NodeState} (hst : q.progress.state? i = some st) : st.isTerminal = true := by
  by_cases hk : k = j
  · subst hk
    cases hdone.crew_self.symm.trans hm'
    have hq : some r' = some q := by rw [← hq, hdone.runs, if_pos rfl]
    cases hq
    cases hdeed with
    | rest _ _ _ _ hover => exact hover hoff hsound i st hst
    | begin => exact (off_ne_activity _ _ _ _ _ hoff).elim
    | trade | finish | call | answer | resume => cases hoff
  · rw [hdone.crew_other hk] at hm'
    obtain ⟨q₀, hq₀, hchanges⟩ := hdone.earlier hr hleads.changes hq
    have hc := h.crewed.consistent _ _ hq₀
    have hlt : i < q₀.plan.size := hchanges.plan ▸ (hc.changes hchanges).lt_size hst
    obtain ⟨old, hold⟩ := hc.exists_state hlt
    have hterm := h.ended k m' q₀ hm' hq₀ hoff i old hold
    rw [hchanges.state?_of_isTerminal hterm hold, Option.some.injEq] at hst
    exact hst ▸ hterm

theorem Reporting.update_hears (hmanned : r.Manned w.services.locks m.activity) {k : Nat}
    {m' : Member} {q : Run} {i : Nat} {n : PlannedNode} {outcome : NodeOutcome}
    (hm' : w'.crew[k]? = some m') (hq : w'.runs[m'.build]? = some q)
    (hi : m'.activity.index? = some i) (hn : q.plan.nodes[i]? = some n)
    (hw : n.work = .foreign d path) (hout : m'.activity.outcome? = some outcome) :
    ∃ o, w'.foreign d path = some o ∧ outcome = .ofExport o := by
  have hforeign := (hdone.later hr hleads.changes).foreign d path
  suffices hold : ∃ o, w.foreign d path = some o ∧ outcome = .ofExport o by
    obtain ⟨o, ho, rfl⟩ := hold
    exact ⟨o, hforeign o ho, rfl⟩
  have hplan : r'.plan = r.plan := hleads.changes.plan
  by_cases hk : k = j
  · subst hk
    cases hdone.crew_self.symm.trans hm'
    have hq : some r' = some q := by rw [← hq, hdone.runs, if_pos rfl]
    cases hq
    rcases hdeed.hears hmanned hplan hi hn hw hout with hnew | ⟨hi', hout'⟩
    · exact hnew
    · exact h.hears k m r i n d path outcome hm hr hi' (hplan ▸ hn) hw hout'
  · rw [hdone.crew_other hk] at hm'
    obtain ⟨q₀, hq₀, hchanges⟩ := hdone.earlier hr hleads.changes hq
    exact h.hears k m' q₀ i n d path outcome hm' hq₀ hi (hchanges.plan ▸ hn) hw hout

theorem Reporting.update_learnt (hmanned : r.Manned w.services.locks m.activity) {q : Run} {i : Nat}
    {n : PlannedNode} (hq : w'.runs[b]? = some q) (hn : q.plan.nodes[i]? = some n)
    (hw : n.work = .foreign d path) :
    (q.progress.state? i = some .succeeded → w'.foreign d path = some .succeeded) ∧
      (q.progress.state? i = some .failed → ∃ o, w'.foreign d path = some o ∧ o ≠ .succeeded) := by
  have hforeign := (hdone.later hr hleads.changes).foreign d path
  have hold : ∀ q', w.runs[b]? = some q' → q'.plan.nodes[i]? = some n →
      (q'.progress.state? i = some .succeeded → w'.foreign d path = some .succeeded) ∧
        (q'.progress.state? i = some .failed → ∃ o, w'.foreign d path = some o ∧
          o ≠ .succeeded) := by
    intro q' hq' hn'
    obtain ⟨hs, hf⟩ := h.learnt b q' i n d path hq' hn' hw
    refine ⟨fun hi => hforeign _ (hs hi), fun hi => ?_⟩
    obtain ⟨o, ho, hne⟩ := hf hi
    exact ⟨o, hforeign o ho, hne⟩
  rw [hdone.runs] at hq
  split at hq
  · rename_i hb
    cases hq
    have hplan : r'.plan = r.plan := hleads.changes.plan
    obtain ⟨hs, hf⟩ := hold r (hb ▸ hr) (hplan ▸ hn)
    -- what the member has just recorded is what the other build had published
    have hown : ∀ outcome, m.activity.index? = some i → m.activity.outcome? = some outcome →
        ∃ o, w'.foreign d path = some o ∧ outcome = .ofExport o := by
      intro outcome hi hout
      obtain ⟨o, ho, he⟩ := h.hears j m r i n d path outcome hm hr hi (hplan ▸ hn) hw hout
      exact ⟨o, hforeign o ho, he⟩
    constructor
    · intro hi
      rcases hdeed.ended hmanned (.inl rfl) hi with hi | ⟨outcome, hindex, hout, hend⟩
      · exact hs hi
      · obtain ⟨o, ho, rfl⟩ := hown outcome hindex hout
        cases o <;> first | exact ho | cases hend
    · intro hi
      rcases hdeed.ended hmanned (.inr rfl) hi with hi | ⟨outcome, hindex, hout, hend⟩
      · exact hf hi
      · obtain ⟨o, ho, rfl⟩ := hown outcome hindex hout
        refine ⟨o, ho, ?_⟩
        rintro rfl
        cases hend
  · exact hold q hq hn

theorem Reporting.update (h₀ : w₀.Ready) : Reporting w₀ w' := by
  obtain ⟨r₀, hr₀, hplan₀, hreports⟩ := h.runs m.build r hr
  have hclean := h₀.cleanStart hr₀
  have hbuild : r.plan.build = m.build := h.crewed.build _ _ hr
  have hmanned : r.Manned w.services.locks m.activity := by
    obtain ⟨q, hq, hmanned⟩ := h.crewed.manned j m hm
    cases hr.symm.trans hq
    exact hmanned
  constructor
  case crewed => exact h.crewed.update hm hr hleads hdone
  case locks => exact hdone.locks.trans h.locks
  case runs =>
    intro b q hq
    rw [hdone.runs] at hq
    split at hq
    · rename_i hb
      cases hq
      rw [hb]
      refine ⟨r₀, hr₀, hleads.changes.plan.trans hplan₀, ?_⟩
      refine hdeed.reports hreports (hplan₀ ▸ hclean.distinct) hmanned fun n => ?_
      rw [ends, hbuild, h.locks]
    · exact h.runs b q hq
  case staffed =>
    intro b q hq hsize
    obtain ⟨q₀, hq₀, hchanges⟩ := hdone.earlier hr hleads.changes hq
    rw [hchanges.plan] at hsize
    obtain ⟨k, m', hm', hb⟩ := h.staffed b q₀ hq₀ hsize
    by_cases hk : k = j
    · subst hk
      cases hm.symm.trans hm'
      exact ⟨k, _, hdone.crew_self, hb⟩
    · exact ⟨k, m', (hdone.crew_other hk).trans hm', hb⟩
  case ended =>
    intro k m' q hm' hq hoff i st hst
    exact h.update_ended hm hr hdeed hleads hdone (hplan₀ ▸ hclean.sound) hm' hq hoff hst
  case hears =>
    intro k m' q i n d path outcome hm' hq hi hn hw hout
    exact h.update_hears hm hr hdeed hleads hdone hmanned hm' hq hi hn hw hout
  case learnt =>
    intro b q i n d path hq hn hw
    exact h.update_learnt hm hr hdeed hleads hdone hmanned hq hn hw

end Update

theorem Reporting.shifts (h : Reporting w₀ w) (h₀ : w₀.Ready) (hs : Shifts w w') :
    Reporting w₀ w' ∧ Later w w' := by
  cases hs with
  | step j =>
    rcases h.crewed.step_cases j with hstay |
      ⟨m, r, r', activity, table, hm, hr, hdeed, hleads, hdone⟩
    · rw [hstay]
      exact ⟨h, .refl w⟩
    · exact ⟨h.update hm hr hdeed hleads hdone h₀, hdone.later hr hleads.changes⟩
  | services services hlocks =>
    refine ⟨⟨?_, hlocks.trans h.locks, h.runs, h.staffed, h.ended, h.hears, h.learnt⟩,
      ⟨hlocks, fun _ r hr => ⟨r, hr, .refl⟩, fun _ _ _ ho => ho⟩⟩
    exact h.crewed.congr rfl rfl hlocks
  | news outside hnews =>
    have hforeign : ∀ b path o, w.foreign b path = some o →
        ({ w with outside } : Workshop).foreign b path = some o := by
      intro b path o ho
      rw [foreign_eq] at ho ⊢
      cases hr : w.runs[b]? with
      | none =>
        rw [hr] at ho
        exact hnews b path o ho
      | some r =>
        rw [hr] at ho
        exact ho
    refine ⟨⟨h.crewed.congr rfl rfl rfl, h.locks, h.runs, h.staffed, h.ended, ?_, ?_⟩,
      ⟨rfl, fun _ r hr => ⟨r, hr, .refl⟩, hforeign⟩⟩
    · intro j m r i n d path outcome hm hr hi hn hw hout
      obtain ⟨o, ho, he⟩ := h.hears j m r i n d path outcome hm hr hi hn hw hout
      exact ⟨o, hforeign d path o ho, he⟩
    · intro b r i n d path hr hn hw
      obtain ⟨hsucc, hfail⟩ := h.learnt b r i n d path hr hn hw
      refine ⟨fun hi => hforeign d path _ (hsucc hi), fun hi => ?_⟩
      obtain ⟨o, ho, hne⟩ := hfail hi
      exact ⟨o, hforeign d path o ho, hne⟩

theorem Reporting.shiftsAll (h : Reporting w₀ w) (h₀ : w₀.Ready) (hs : ReflTransGen Shifts w w') :
    Reporting w₀ w' ∧ Later w w' := by
  induction hs with
  | refl => exact ⟨h, .refl w⟩
  | tail _ hstep ih =>
    obtain ⟨hrep, hlater⟩ := ih.1.shifts h₀ hstep
    exact ⟨hrep, ih.2.trans hlater⟩

/-! ## What is reported -/

/-- What a build that started in `w₀` has published by the time of `w`. -/
structure Published (w₀ w : Workshop) (b : BuildId) (r : Run) : Prop where
  /-- What was handed out and has a node has the outcome that the node has come to, and none while
  the node is not over. -/
  outcome : ∀ (i : Nat) n path, r.plan.nodes[i]? = some n → n.key = .task path → path ∈ r.exports →
    r.exports.outcome? path = r.exportOf i
  /-- What was handed out and never joined the run has been published as not executed. -/
  absent : ∀ path ∈ r.exports, (∀ (i : Nat) n, r.plan.nodes[i]? = some n → n.key ≠ .task path) →
    r.exports.outcome? path = some .notExecuted
  lasting : ∀ w', ReflTransGen Shifts w w' → ∃ r', w'.runs[b]? = some r' ∧
    ∀ path o, r.exports.outcome? path = some o → r'.exports.outcome? path = some o

/-- What a build that started in `w₀` has reported when its members are off. -/
structure Reported (w₀ w : Workshop) (b : BuildId) (r : Run) : Prop where
  ended : ∀ i < r.plan.size, ∃ st, r.progress.state? i = some st ∧ st.isTerminal = true
  /-- One failure, with its own error, for each task that failed and does not ask to ignore that. -/
  failures : ∃ failures failed, r.takeResult.1 = .ok failures ∧ failed.Nodup ∧
    (∀ i, i ∈ failed ↔ r.Blames i) ∧ List.Forall₂ (r.IsFailureOf (w₀.ends b)) failed failures
  outcome : ∀ path ∈ r.exports, r.exports.outcome? path ≠ none
  closed : ∀ path, r.takeResult.2.exports.outcome? path = r.exports.outcome? path
  /-- A node that ran for a task of another build ended as that has published, and that is how the
  task ended there. -/
  foreign : ∀ (i : Nat) n d path, r.plan.nodes[i]? = some n → n.work = .foreign d path →
    (∃ w₁ r₁, ReflTransGen Shifts w₀ w₁ ∧ ReflTransGen Shifts w₁ w ∧ w₁.runs[b]? = some r₁ ∧
      r₁.progress.state? i = some .running) →
    r.progress.state? i =
        some (if w.foreign d path = some .succeeded then .succeeded else .failed) ∧
      ∀ q, w.runs[d]? = some q → (w.foreign d path = some .succeeded ↔
        ∃ (k : Nat) (m : PlannedNode), q.plan.nodes[k]? = some m ∧ m.key = .task path ∧
          (q.progress.state? k = some .succeeded ∨
            q.progress.state? k = some .failed ∧ q.ignoresFailures k = true))

theorem Ready.published (h : w₀.Ready) (hw : ReflTransGen Shifts w₀ w)
    (hr : w.runs[b]? = some r) : Published w₀ w b r := by
  obtain ⟨hrep, _⟩ := h.reporting.shiftsAll h hw
  obtain ⟨r₀, hr₀, hplan, hreports⟩ := hrep.runs b r hr
  have hclean := h.cleanStart hr₀
  constructor
  case outcome =>
    intro i n path hn hkey hpath
    exact hreports.told i n path hn
      (hclean.exported i n path (hplan ▸ hn) hkey ((hreports.handed path).1 hpath))
  case absent =>
    intro path hpath habsent
    rw [hreports.kept path fun i n hn hexport =>
      habsent i n hn (PlannedNode.key_of_exportPath hexport)]
    exact hclean.absent path ((hreports.handed path).1 hpath) (hplan ▸ habsent)
  case lasting =>
    intro w' hw'
    obtain ⟨r', hr', hchanges⟩ := (hrep.shiftsAll h hw').2.runs b r hr
    exact ⟨r', hr', fun path o ho => hchanges.outcome? ho⟩

/-- When its members are off, every node of a build is over. -/
theorem Reporting.isTerminal_of_off (h : Reporting w₀ w) (hr : w.runs[b]? = some r)
    (hoff : ∀ (j : Nat) (m : Member), w.crew[j]? = some m → m.build = b → m.activity = .off)
    {i : Nat} (hi : i < r.plan.size) :
    ∃ st, r.progress.state? i = some st ∧ st.isTerminal = true := by
  obtain ⟨j, m, hm, hb⟩ := h.staffed b r hr (Nat.lt_of_le_of_lt (Nat.zero_le i) hi)
  obtain ⟨st, hst⟩ := (h.crewed.consistent b r hr).exists_state hi
  exact ⟨st, hst, h.ended j m r hm (hb ▸ hr) (hoff j m hm hb) i st hst⟩

theorem outcome?_eq_none_of_not_mem {e : Exports} (h : path ∉ e) : e.outcome? path = none := by
  rw [Exports.outcome?, Std.TreeMap.getElem?_eq_none h]
  rfl

/-- What is published as succeeded has succeeded, or nobody minds that it failed. -/
theorem Published.succeeded_iff (h : Published w₀ w d r) (hknown : r.exports.outcome? path ≠ none) :
    r.exports.outcome? path = some .succeeded ↔ ∃ (k : Nat) (m : PlannedNode),
      r.plan.nodes[k]? = some m ∧ m.key = .task path ∧ (r.progress.state? k = some .succeeded ∨
        r.progress.state? k = some .failed ∧ r.ignoresFailures k = true) := by
  have hpath : path ∈ r.exports := by
    by_contra hnot
    exact hknown (outcome?_eq_none_of_not_mem hnot)
  have hexport : ∀ k, r.exportOf k = some .succeeded ↔ r.progress.state? k = some .succeeded ∨
      r.progress.state? k = some .failed ∧ r.ignoresFailures k = true := by
    intro k
    rw [Run.exportOf]
    cases r.progress.state? k with
    | none => simp
    | some st =>
      cases hi : r.ignoresFailures k <;> cases st <;> simp
  constructor
  · intro hout
    by_cases hnode : ∃ (k : Nat) (m : PlannedNode), r.plan.nodes[k]? = some m ∧ m.key = .task path
    · obtain ⟨k, m, hm, hkey⟩ := hnode
      rw [h.outcome k m path hm hkey hpath, hexport] at hout
      exact ⟨k, m, hm, hkey, hout⟩
    · rw [h.absent path hpath fun i n hn hkey => hnode ⟨i, n, hn, hkey⟩] at hout
      cases hout
  · rintro ⟨k, m, hm, hkey, hend⟩
    rw [h.outcome k m path hm hkey hpath, hexport]
    exact hend

theorem Ready.reported (h : w₀.Ready) (hw : ReflTransGen Shifts w₀ w) (hr : w.runs[b]? = some r)
    (hoff : ∀ (j : Nat) (m : Member), w.crew[j]? = some m → m.build = b → m.activity = .off) :
    Reported w₀ w b r := by
  obtain ⟨hrep, _⟩ := h.reporting.shiftsAll h hw
  obtain ⟨r₀, hr₀, hplan, hreports⟩ := hrep.runs b r hr
  have hover : ∀ i < r.plan.size, ∃ st, r.progress.state? i = some st ∧ st.isTerminal = true :=
    fun i hi => hrep.isTerminal_of_off hr hoff hi
  have hknown : ∀ (i : Nat) n, r.plan.nodes[i]? = some n → r.exportOf i ≠ none := fun i n hn =>
    Run.exportOf_ne_none (hover i (Array.getElem?_eq_some_iff.1 hn).1)
  have hpublished := h.published hw hr
  constructor
  case ended => exact hover
  case failures =>
    obtain ⟨failed, hnodup, hmem, hlist⟩ := hreports.blamed
    exact ⟨_, failed, Run.takeResult_fst (hrep.crewed.consistent b r hr).error, hnodup, hmem, hlist⟩
  case outcome =>
    intro path hpath
    by_cases hnode : ∃ (i : Nat) (n : PlannedNode), r.plan.nodes[i]? = some n ∧ n.key = .task path
    · obtain ⟨i, n, hn, hkey⟩ := hnode
      rw [hpublished.outcome i n path hn hkey hpath]
      exact hknown i n hn
    · rw [hpublished.absent path hpath fun i n hn hkey => hnode ⟨i, n, hn, hkey⟩]
      simp
  case closed => exact hreports.outcome?_takeResult hknown
  case foreign =>
    rintro i n d path hn hwork ⟨w₁, r₁, hw₁, hw₁', hr₁, hrunning⟩
    obtain ⟨hsucc, hfail⟩ := hrep.learnt b r i n d path hr hn hwork
    have hend : r.progress.state? i = some .succeeded ∨ r.progress.state? i = some .failed := by
      obtain ⟨r', hr', hchanges⟩ :=
        ((h.reporting.shiftsAll h hw₁).1.shiftsAll h hw₁').2.runs b r₁ hr₁
      cases hr.symm.trans hr'
      obtain ⟨st, hst, hterm⟩ := hover i (Array.getElem?_eq_some_iff.1 hn).1
      rw [hst]
      rcases hchanges.state?_of_running hrunning with hrun | hrun | hrun
      · rw [hst, Option.some.injEq] at hrun
        subst hrun
        cases hterm
      · exact .inl (hst.symm.trans hrun)
      · exact .inr (hst.symm.trans hrun)
    have hheard : w.foreign d path ≠ none := by
      rcases hend with hi | hi
      · rw [hsucc hi]
        simp
      · obtain ⟨o, ho, _⟩ := hfail hi
        rw [ho]
        simp
    constructor
    · rcases hend with hi | hi
      · rw [hi, if_pos (hsucc hi)]
      · obtain ⟨o, ho, hne⟩ := hfail hi
        rw [hi, if_neg]
        rw [ho, Option.some.injEq]
        exact hne
    · intro q hq
      have hforeign : w.foreign d path = q.exports.outcome? path := by
        rw [foreign_eq, hq]
        rfl
      rw [hforeign] at hheard ⊢
      exact (h.published hw hq).succeeded_iff hheard

end Workshop

end Foreman
