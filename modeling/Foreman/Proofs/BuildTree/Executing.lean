import Foreman.Proofs.Controller.Leading
import Foreman.Proofs.Workshop.Logging

/-!
# The jobs of a started tree

What each kind of executor makes of the jobs of a tree (`BuildTree.Executes`): threads work on all
of them together, one thread works on one after the other, and where nobody takes them each ends
with the error of its refusal. Jobs are worked on until nobody can take another step (`Works`), and
what is logged are just the actions that have begun (`Executes.spec`). That is what `runAll` does
(`AllAtStart.executes`).
-/

namespace Foreman

namespace Workshop

variable {w : Workshop} {services : Services} {rs : List Run} {next : Worker}

/-- Everybody who works for the build is done. -/
def IsOff (w : Workshop) (b : BuildId) : Prop := ∀ m ∈ w.crew, m.build = b → m.activity = .off

theorem isOff_iff {b : BuildId} :
    w.crew.all (fun m => m.build ≠ b || m.activity = .off) = true ↔ w.IsOff b := by
  rw [Array.all_eq_true', IsOff]
  refine forall₂_congr fun m _ => ?_
  by_cases hb : m.build = b <;> simp [hb]

/-- Those who were just taken in are not busy, so that the crew is in order. -/
theorem Enrolled.crewed (h : w.Enrolled services rs next)
    (hstart : ∀ r ∈ rs, r.progress = .start r.plan) : w.Crewed := by
  refine crewed_of_idle (fun b r hr => ((h.runs b r).1 hr).2)
    (fun b r hr => hstart r ((h.runs b r).1 hr).1) fun j m hm => ?_
  obtain ⟨hidle, -, r, hr, hb⟩ := h.crew j m hm
  exact ⟨hidle, r, (h.runs _ r).2 ⟨hr, hb⟩⟩

/-- Runs are taken in without a word, and without a look at what others publish. -/
theorem enrollAll_keeps (w : Workshop) (rs : List Run) (next : Worker) :
    (w.enrollAll rs next).outside = w.outside ∧ (w.enrollAll rs next).log = w.log :=
  List.foldlRecOn (motive := fun state : Workshop × Nat =>
    state.1.outside = w.outside ∧ state.1.log = w.log) rs _ ⟨rfl, rfl⟩ fun _ h _ _ => h

end Workshop

namespace Controller

variable {b : BuildId} {c c' : Controller} {r : Run} {ended : Option (List BuildFailure)}
  {path : TaskPath}

/-- The action of the task has begun. -/
def Acted (c : Controller) (path : TaskPath) : Prop :=
  ∃ r, c.graph.run? = some r ∧ r.Acted path

/-- The tasks of the build are running, and nobody has claimed the failures. -/
structure Engaged (b : BuildId) (c : Controller) : Prop where
  build : c.build = b
  state : c.state = .runningTasks
  phase : c.graph.phase = .running
  claimed : c.completion.claimed = false
  run : ∃ r, c.graph.run? = some r ∧ r.plan.build = b

/-- The build was started, and nothing of it has run yet. -/
structure AtStart (b : BuildId) (c : Controller) : Prop extends Engaged b c where
  unstarted : ∀ r, c.graph.run? = some r → r.progress = .start r.plan

/-- What a job that has come as far as `r` leaves of its build: it has ended with some failures, or
it never ends. -/
inductive Left (c : Controller) (r : Run) : Option (List BuildFailure) → Controller → Prop
  | ended {r' : Run} (hplan : r'.plan = r.plan) (hstates : r'.progress.states = r.progress.states)
      (failures : List BuildFailure) :
      Left c r (some failures)
        { c with graph := c.graph.keep r', completion := c.completion.finish failures }
  | stuck {r' : Run} (hplan : r'.plan = r.plan)
      (hstates : r'.progress.states = r.progress.states) :
      Left c r none { c with graph := c.graph.keep r' }

/-- The run of a build that a job has left. -/
theorem Left.exists_run (h : Left c r ended c') {q : Run} (hq : c.graph.run? = some q)
    (hplan : r.plan = q.plan) : ∃ r', c'.graph.run? = some r' ∧ r'.plan = r.plan ∧
      r'.progress.states = r.progress.states := by
  cases h with
  | ended hp hs => exact ⟨_, run?_keep hq (hp.trans hplan), hp, hs⟩
  | stuck hp hs => exact ⟨_, run?_keep hq (hp.trans hplan), hp, hs⟩

theorem Left.acted_iff (h : Left c r ended c') {q : Run} (hq : c.graph.run? = some q)
    (hplan : r.plan = q.plan) : c'.Acted path ↔ r.Acted path := by
  obtain ⟨r', hr', hp, hs⟩ := h.exists_run hq hplan
  simp only [Acted, hr', Option.some.injEq, exists_eq_left']
  exact Run.acted_congr hp hs

theorem Left.engaged (h : Left c r ended c') (hc : c.Engaged b) {q : Run}
    (hq : c.graph.run? = some q) (hplan : r.plan = q.plan) : c'.Engaged b := by
  obtain ⟨r', hr', hp, -⟩ := h.exists_run hq hplan
  have hbuild : r'.plan.build = b := by
    obtain ⟨q', hq', hb⟩ := hc.run
    cases hq.symm.trans hq'
    rw [hp, hplan, hb]
  cases h with
  | ended => exact ⟨hc.build, hc.state, hc.phase, hc.claimed, r', hr', hbuild⟩
  | stuck => exact ⟨hc.build, hc.state, hc.phase, hc.claimed, r', hr', hbuild⟩

theorem left_finishJob (h : r.progress.error = none) (c : Controller) :
    Left c r (some r.progress.failures) (c.finishJob r) := by
  rw [finishJob_eq, jobFailures_eq h]
  exact .ended r.plan_takeResult r.states_takeResult _

theorem AtStart.not_acted (h : c.AtStart b) : ¬ c.Acted path := by
  rintro ⟨r, hr, hacted⟩
  exact Run.not_acted_of_start (h.unstarted r hr) hacted

/-- A job that was never taken ends with the error of its refusal. -/
theorem Engaged.refuse (h : c.Engaged b) (error : ErrorChain) : ∃ r, c.graph.run? = some r ∧
    Left c r (some [.executionAborted b error]) (c.refuse error) := by
  obtain ⟨r, hr, -⟩ := h.run
  refine ⟨r, hr, ?_⟩
  rw [refuse_eq hr, h.build]
  exact .ended (Run.plan_abandonExports r) (congrArg _ (Run.progress_abandonExports r)) _

end Controller

namespace BuildTree

variable {t t' t'' : BuildTree} {b : BuildId} {c c' : Controller} {builds : List BuildId}
  {log log' : List Event} {path : TaskPath} {caller : Worker} {executor : Executor}

/-! ## What executors do -/

/-- The action of the task has begun. -/
def Acted (t : BuildTree) (b : BuildId) (path : TaskPath) : Prop :=
  ∃ c, t.builds[b]? = some c ∧ c.Acted path

/-- What the jobs in a workshop leave of a build. A job has ended when everybody who works for the
build is done. -/
structure Leaves (w : Workshop) (b : BuildId) (c c' : Controller) : Prop where
  ended : ∀ r, w.runs[b]? = some r → w.IsOff b → Controller.Left c r (some r.progress.failures) c'
  stuck : ∀ r, w.runs[b]? = some r → ¬ w.IsOff b → Controller.Left c r none c'
  other : w.runs[b]? = none → c' = c

theorem Leaves.exists_left {w : Workshop} {r : Run} (h : Leaves w b c c')
    (hr : w.runs[b]? = some r) : ∃ ended, Controller.Left c r ended c' := by
  by_cases hoff : w.IsOff b
  · exact ⟨_, h.ended r hr hoff⟩
  · exact ⟨_, h.stuck r hr hoff⟩

/-- The jobs of these builds are worked on together, until nobody can take another step. -/
inductive Works (builds : List BuildId) (t : BuildTree) : BuildTree → List Event → Prop
  | mk {w₀ w : Workshop} {next : Worker} {t' : BuildTree} (js : List Nat)
      (henrolled : w₀.Enrolled t.services (t.runsOf builds) next)
      (houtside : w₀.outside = t.foreign) (hlog : w₀.log = [])
      (hsteps : w = js.foldl Workshop.step w₀) (hrests : w.Rests)
      (hservices : t'.services = w.services)
      (hleaves : ∀ b : BuildId, Option.Rel (Leaves w b) t.builds[b]? t'.builds[b]?) :
      Works builds t t' w.log

/-- The jobs of these builds are worked on one after the other. -/
inductive WorksInTurn : List BuildId → BuildTree → BuildTree → List Event → Prop
  | nil (t : BuildTree) : WorksInTurn [] t t []
  | cons {b : BuildId} {builds : List BuildId} {t t' t'' : BuildTree} {log log' : List Event}
      (h : Works [b] t t' log) (hrest : WorksInTurn builds t' t'' log') :
      WorksInTurn (b :: builds) t t'' (log ++ log')

/-- What the executors make of the jobs of a tree, for a caller who waits for them. -/
inductive Executes (caller : Worker) (t : BuildTree) : Executor → BuildTree → List Event → Prop
  /-- All jobs together, while the caller gives up its lease, to get it back afterwards. -/
  | threads {t' : BuildTree} {log : List Event} {table : LockTable}
      (h : Works t.builds.keys (t.setTable (t.services.table.surrender caller)) t' log)
      (htable : table = (t'.services.table.restore? caller
        (t.services.table.leaseCount caller)).getD t'.services.table) :
      Executes caller t .threads (t'.setTable table) log
  /-- One job after the other, first those that are named. -/
  | sequential {order queue : List BuildId} {t' : BuildTree} {log : List Event}
      (hqueue : queue.Perm t.builds.keys)
      (hfirst : (order.filter (· ∈ t.builds.keys)).eraseDups <+: queue)
      (h : WorksInTurn queue t t' log) : Executes caller t (.sequential order) t' log
  /-- No job at all. -/
  | refusing {error : BuildId → ErrorChain} {t' : BuildTree} (hservices : t'.services = t.services)
      (h : ∀ b : BuildId, Option.Rel (fun c c' => ∃ r, c.graph.run? = some r ∧
        Controller.Left c r (some [.executionAborted b (error b)]) c') t.builds[b]? t'.builds[b]?) :
      Executes caller t (.refusing error) t' []

/-- Every build was started, and nothing has run yet. -/
def AllAtStart (t : BuildTree) : Prop :=
  ∀ (b : BuildId) (c : Controller), t.builds[b]? = some c → c.AtStart b

/-- The tasks of every build are running. -/
def AtWork (t : BuildTree) : Prop :=
  ∀ (b : BuildId) (c : Controller), t.builds[b]? = some c → c.Engaged b

/-! ## Working on jobs -/

theorem alter_spec (t : BuildTree) (b : BuildId) (f : Controller → Controller) :
    (t.alter b f).services = t.services ∧ (t.alter b f).builds[b]? = (t.builds[b]?).map f ∧
      ∀ d, d ≠ b → (t.alter b f).builds[d]? = t.builds[d]? := by
  rw [alter, controller?]
  cases hc : t.builds[b]? with
  | none => exact ⟨rfl, hc, fun _ _ => rfl⟩
  | some c => exact ⟨rfl, Std.TreeMap.getElem?_insert_self, fun d hd => getElem?_insert_ne hd⟩

/-- Where builds are changed one by one, each takes the change that is meant for it. -/
theorem foldl_alter {α : Type} (key : α → BuildId) (f : α → Controller → Controller) {l : List α}
    (hl : (l.map key).Nodup) (t : BuildTree) :
    (l.foldl (fun t a => t.alter (key a) (f a)) t).services = t.services ∧
      (∀ a ∈ l, (l.foldl (fun t a => t.alter (key a) (f a)) t).builds[key a]? =
        (t.builds[key a]?).map (f a)) ∧
      ∀ b, b ∉ l.map key →
        (l.foldl (fun t a => t.alter (key a) (f a)) t).builds[b]? = t.builds[b]? := by
  induction l generalizing t with
  | nil => exact ⟨rfl, nofun, fun _ _ => rfl⟩
  | cons a l ih =>
    rw [List.map_cons, List.nodup_cons] at hl
    obtain ⟨hnew, hl⟩ := hl
    obtain ⟨hservices, hself, hother⟩ := alter_spec t (key a) (f a)
    obtain ⟨hservices', hin, hout⟩ := ih hl (t.alter (key a) (f a))
    rw [List.foldl_cons]
    refine ⟨hservices'.trans hservices, fun a' ha' => ?_, fun b hb => ?_⟩
    · rcases List.mem_cons.1 ha' with rfl | ha'
      · rw [hout _ hnew, hself]
      · rw [hin a' ha', hother]
        exact fun heq => hnew (heq ▸ List.mem_map_of_mem ha')
    · rw [List.map_cons, List.mem_cons, not_or] at hb
      rw [hout b hb.2, hother b hb.1]

/-- Where all builds are changed, every build is. -/
theorem foldl_alter_keys (f : BuildId → Controller → Controller) (t : BuildTree) :
    (t.builds.keys.foldl (fun t b => t.alter b (f b)) t).services = t.services ∧
      ∀ b : BuildId, (t.builds.keys.foldl (fun t b => t.alter b (f b)) t).builds[b]? =
        (t.builds[b]?).map (f b) := by
  obtain ⟨hservices, hin, hout⟩ := foldl_alter id f (l := t.builds.keys)
    (by simpa using Std.TreeMap.nodup_keys) t
  refine ⟨hservices, fun b => ?_⟩
  by_cases hb : b ∈ t.builds.keys
  · exact hin b hb
  · have hnone : t.builds[b]? = none := by
      rw [Std.TreeMap.mem_keys, Std.TreeMap.mem_iff_isSome_getElem?] at hb
      simpa using hb
    rw [hnone]
    exact (hout b (by simpa using hb)).trans hnone

theorem leaves_settleJob {w : Workshop} {r : Run} (hr : w.runs[b]? = some r)
    (herror : r.progress.error = none) (c : Controller) : Leaves w b c (settleJob w b r c) := by
  constructor
  case ended =>
    intro q hq hoff
    cases hr.symm.trans hq
    rw [settleJob, if_pos (Workshop.isOff_iff.2 hoff)]
    exact Controller.left_finishJob herror c
  case stuck =>
    intro q hq hon
    cases hr.symm.trans hq
    rw [settleJob, if_neg fun hoff => hon (Workshop.isOff_iff.1 hoff)]
    exact .stuck rfl rfl
  case other =>
    intro hnone
    cases hr.symm.trans hnone

/-- What a workshop has come to is recorded build by build. -/
theorem settleJobs_spec {w : Workshop} (hcrewed : w.Crewed) (t : BuildTree) :
    (t.settleJobs w).services = w.services ∧
      ∀ b : BuildId, Option.Rel (Leaves w b) t.builds[b]? (t.settleJobs w).builds[b]? := by
  obtain ⟨hservices, hin, hout⟩ := foldl_alter Prod.fst (fun x => settleJob w x.1 x.2)
    (l := w.runs.toList) (by simpa using Std.TreeMap.nodup_keys) { t with services := w.services }
  refine ⟨hservices, fun b => ?_⟩
  cases hr : w.runs[b]? with
  | none =>
    have hnot : b ∉ w.runs.toList.map Prod.fst := by
      rw [Std.TreeMap.map_fst_toList_eq_keys, Std.TreeMap.mem_keys,
        Std.TreeMap.mem_iff_isSome_getElem?, hr]
      exact Bool.false_ne_true
    have hsame : (t.settleJobs w).builds[b]? = t.builds[b]? := hout b hnot
    rw [hsame]
    cases t.builds[b]? with
    | none => exact .none
    | some c =>
      exact .some ⟨fun r h => by simp [hr] at h, fun r h => by simp [hr] at h, fun _ => rfl⟩
  | some r =>
    have hnext : (t.settleJobs w).builds[b]? = (t.builds[b]?).map (settleJob w b r) :=
      hin (b, r) (Std.TreeMap.mem_toList_iff_getElem?_eq_some.2 hr)
    rw [hnext]
    cases t.builds[b]? with
    | none => exact .none
    | some c => exact .some (leaves_settleJob hr (hcrewed.consistent b r hr).error c)

section Jobs

variable (hstart : ∀ b ∈ builds, ∀ c, t.builds[b]? = some c → c.AtStart b)

include hstart

theorem mem_runsOf {r : Run} : r ∈ t.runsOf builds ↔ ∃ b ∈ builds, ∃ c, t.builds[b]? = some c ∧
    c.graph.run? = some r ∧ r.plan.build = b := by
  simp only [runsOf, List.mem_filterMap, Option.bind_eq_some_iff, controller?]
  refine exists_congr fun b => and_congr_right fun hb => exists_congr fun c =>
    and_congr_right fun hc => ⟨fun hr => ⟨hr, ?_⟩, fun hr => hr.1⟩
  obtain ⟨q, hq, hbuild⟩ := (hstart b hb c hc).run
  cases hr.symm.trans hq
  exact hbuild

theorem start_of_mem_runsOf {r : Run} (hr : r ∈ t.runsOf builds) : r.progress = .start r.plan := by
  obtain ⟨b, hb, c, hc, hr, -⟩ := (mem_runsOf hstart).1 hr
  exact (hstart b hb c hc).unstarted r hr

theorem nodup_runsOf (hnodup : builds.Nodup) : ((t.runsOf builds).map (·.plan.build)).Nodup := by
  induction builds with
  | nil => exact List.nodup_nil
  | cons b builds ih =>
    obtain ⟨hb, hnodup⟩ := List.nodup_cons.1 hnodup
    have hrest := ih (fun d hd => hstart d (List.mem_cons_of_mem b hd)) hnodup
    rw [runsOf, List.filterMap_cons]
    split
    · exact hrest
    · rename_i r hr
      obtain ⟨c, hc, hr⟩ := Option.bind_eq_some_iff.1 hr
      obtain ⟨q, hq, hbuild⟩ := (hstart b (List.mem_cons_self ..) c hc).run
      cases hr.symm.trans hq
      refine List.nodup_cons.2 ⟨fun hmem => ?_, hrest⟩
      obtain ⟨q', hq', hsame⟩ := List.mem_map.1 hmem
      obtain ⟨d, hd, -, -, -, hd'⟩ :=
        (mem_runsOf fun d hd => hstart d (List.mem_cons_of_mem b hd)).1 hq'
      exact hb (hbuild.symm.trans (hsame.symm.trans hd') ▸ hd)

/-- The runs in a workshop are those of the builds that are worked on, each with its plan. -/
theorem exists_run_of_steps {w₀ : Workshop} {next : Worker} (js : List Nat)
    (henrolled : w₀.Enrolled t.services (t.runsOf builds) next) (b : BuildId) :
    (∀ c, b ∈ builds → t.builds[b]? = some c → ∃ r q,
      (js.foldl Workshop.step w₀).runs[b]? = some r ∧ c.graph.run? = some q ∧ r.plan = q.plan) ∧
    ((b ∈ builds → t.builds[b]? = none) → (js.foldl Workshop.step w₀).runs[b]? = none) := by
  have hcrewed := henrolled.crewed fun r hr => start_of_mem_runsOf hstart hr
  have hplan := hcrewed.plan_steps js b
  constructor
  · intro c hb hc
    obtain ⟨q, hq, hbuild⟩ := (hstart b hb c hc).run
    have hr := (henrolled.runs b q).2 ⟨(mem_runsOf hstart).2 ⟨b, hb, c, hc, hq, hbuild⟩, hbuild⟩
    rw [hr, Option.map_some, Option.map_eq_some_iff] at hplan
    obtain ⟨r, hr, hsame⟩ := hplan
    exact ⟨r, q, hr, hq, hsame⟩
  · intro hnone
    have habsent : w₀.runs[b]? = none := by
      by_contra hsome
      obtain ⟨r, hr⟩ := Option.ne_none_iff_exists'.1 hsome
      obtain ⟨hmem, hb⟩ := (henrolled.runs b r).1 hr
      obtain ⟨d, hd, c, hc, -, hbuild⟩ := (mem_runsOf hstart).1 hmem
      obtain rfl : d = b := hbuild.symm.trans hb
      rw [hnone hd] at hc
      cases hc
    rw [habsent, Option.map_none, Option.map_eq_none_iff] at hplan
    exact hplan

/-- Builds that are not worked on stay as they are. -/
theorem Works.eq_of_not_mem (h : Works builds t t' log) (hb : b ∉ builds) :
    t'.builds[b]? = t.builds[b]? := by
  obtain ⟨js, henrolled, -, -, rfl, -, -, hleaves⟩ := h
  have hnone := (exists_run_of_steps hstart js henrolled b).2 fun hmem => absurd hmem hb
  have hrel := hleaves b
  generalize t'.builds[b]? = after at hrel ⊢
  generalize t.builds[b]? = before at hrel ⊢
  cases hrel with
  | none => rfl
  | some h => rw [h.other hnone]

/-- The log of the jobs tells of just those actions of their builds that have begun. -/
theorem Works.started_iff (h : Works builds t t' log) :
    .started b path ∈ log ↔ b ∈ builds ∧ t'.Acted b path := by
  obtain ⟨js, henrolled, -, hlog, rfl, -, -, hleaves⟩ := h
  have hstarts := fun r hr => start_of_mem_runsOf (r := r) hstart hr
  have hcrewed := henrolled.crewed hstarts
  have hlogged := (Workshop.logged_of_start hlog fun d r hr =>
    hstarts r ((henrolled.runs d r).1 hr).1).steps hcrewed js
  obtain ⟨hin, hout⟩ := exists_run_of_steps hstart js henrolled b
  have hrel := hleaves b
  rw [hlogged b path, Acted]
  cases hc : t.builds[b]? with
  | none =>
    rw [hc] at hrel
    rw [eq_none_of_none_rel hrel, hout fun _ => hc]
    simp
  | some c =>
    by_cases hb : b ∈ builds
    · obtain ⟨r, q, hr, hq, hplan⟩ := hin c hb hc
      rw [hc] at hrel
      obtain ⟨c', hc', hleft⟩ := exists_of_some_rel hrel
      obtain ⟨ended, hleft⟩ := hleft.exists_left hr
      simp [hr, hc', hb, hleft.acted_iff hq hplan]
    · rw [hout fun hmem => absurd hmem hb]
      simp [hb]

theorem Works.logged (h : Works builds t t' log')
    (hlog : ∀ b path, .started b path ∈ log ↔ t.Acted b path) (b : BuildId) (path : TaskPath) :
    .started b path ∈ log ++ log' ↔ t'.Acted b path := by
  rw [List.mem_append, hlog, h.started_iff hstart]
  by_cases hb : b ∈ builds
  · have hnot : ¬ t.Acted b path := by
      rintro ⟨c, hc, hacted⟩
      exact (hstart b hb c hc).not_acted hacted
    simp [hb, hnot]
  · simp [hb, Acted, h.eq_of_not_mem hstart hb]

theorem Works.atWork (h : Works builds t t' log) (hwork : t.AtWork) : t'.AtWork := by
  intro b c' hc'
  by_cases hb : b ∈ builds
  · obtain ⟨js, henrolled, -, -, rfl, -, -, hleaves⟩ := h
    have hrel := hleaves b
    rw [hc'] at hrel
    obtain ⟨c, hc, hleft⟩ := exists_of_rel_some hrel
    obtain ⟨r, q, hr, hq, hplan⟩ := (exists_run_of_steps hstart js henrolled b).1 c hb hc
    obtain ⟨ended, hleft⟩ := hleft.exists_left hr
    exact hleft.engaged (hwork b c hc) hq hplan
  · rw [h.eq_of_not_mem hstart hb] at hc'
    exact hwork b c' hc'

/-- Jobs that are run together are worked on. -/
theorem works_runJobs (hnodup : builds.Nodup) (leader : Worker) :
    Works builds t (t.runJobs builds leader).1 (t.runJobs builds leader).2 := by
  obtain ⟨next, henrolled⟩ := (Workshop.new_enrolled t.services t.foreign leader).enrollAll
    (nodup_runsOf hstart hnodup)
  obtain ⟨houtside, hlog⟩ := (Workshop.new t.services t.foreign).enrollAll_keeps
    (t.runsOf builds) leader
  have hcrewed := henrolled.crewed fun r hr => start_of_mem_runsOf hstart hr
  rw [runJobs]
  generalize (Workshop.new t.services t.foreign).enrollAll (t.runsOf builds) leader = w₀ at *
  obtain ⟨js, hsteps⟩ := w₀.exists_steps_execute
  have hended := hcrewed.steps js
  rw [← hsteps] at hended
  obtain ⟨hservices, hleaves⟩ := settleJobs_spec hended t
  exact .mk js henrolled houtside hlog hsteps hcrewed.rests_execute hservices hleaves

end Jobs

/-- Jobs that are run one after the other are worked on in turn. Those that are still to come have
not started. -/
theorem worksInTurn_foldl (hnodup : builds.Nodup)
    (hstart : ∀ b ∈ builds, ∀ c, t.builds[b]? = some c → c.AtStart b) (leader : Worker)
    (log : List Event) : ∃ t' log', WorksInTurn builds t t' log' ∧
      builds.foldl (fun (t, log) build =>
        let (t, more) := t.runJobs [build] leader
        (t, log ++ more)) (t, log) = (t', log ++ log') := by
  induction builds generalizing t log with
  | nil => exact ⟨t, [], .nil t, by simp⟩
  | cons b builds ih =>
    obtain ⟨hb, hnodup⟩ := List.nodup_cons.1 hnodup
    have hfirst : ∀ d ∈ [b], ∀ c, t.builds[d]? = some c → c.AtStart d := fun d hd =>
      hstart d (List.mem_cons.2 (.inl (List.mem_singleton.1 hd)))
    have hworks := works_runJobs hfirst (List.nodup_singleton b) leader
    have hlater : ∀ d ∈ builds, ∀ c, (t.runJobs [b] leader).1.builds[d]? = some c →
        c.AtStart d := by
      intro d hd c hc
      rw [hworks.eq_of_not_mem hfirst fun hmem => hb (List.mem_singleton.1 hmem ▸ hd)] at hc
      exact hstart d (List.mem_cons_of_mem b hd) c hc
    obtain ⟨t', log', hrest, heq⟩ := ih hnodup hlater (log ++ (t.runJobs [b] leader).2)
    refine ⟨t', _, .cons hworks hrest, ?_⟩
    rw [List.foldl_cons, heq, List.append_assoc]

theorem nodup_eraseDups (l : List BuildId) : l.eraseDups.Nodup := by
  induction hl : l.length using Nat.strongRecOn generalizing l with
  | _ k ih =>
    cases l with
    | nil => exact List.nodup_nil
    | cons b l =>
      rw [List.eraseDups_cons, List.nodup_cons]
      refine ⟨by simp [List.mem_eraseDups], ih _ ?_ _ rfl⟩
      have hle := List.length_filter_le (fun d => !d == b) l
      rw [List.length_cons] at hl
      omega

/-- The builds in the order in which one thread comes to them. -/
theorem queue_perm (order : List BuildId) (hnodup : builds.Nodup) :
    ((order.filter (· ∈ builds)).eraseDups ++
      builds.filter (· ∉ (order.filter (· ∈ builds)).eraseDups)).Perm builds := by
  have hnamed : ∀ b, b ∈ (order.filter (· ∈ builds)).eraseDups ↔ b ∈ order ∧ b ∈ builds := by
    intro b
    rw [List.mem_eraseDups, List.mem_filter, decide_eq_true_eq]
  refine (List.perm_ext_iff_of_nodup ?_ hnodup).2 fun b => ?_
  · refine List.nodup_append.2 ⟨nodup_eraseDups _, hnodup.filter _, fun b hb d hd => ?_⟩
    rintro rfl
    simp only [List.mem_filter, decide_eq_true_eq] at hd
    exact hd.2 hb
  · simp only [List.mem_append, List.mem_filter, hnamed, decide_eq_true_eq]
    by_cases hb : b ∈ order <;> simp [hb]

/-- The executors do as they should. -/
theorem AllAtStart.executes (h : t.AllAtStart) (executor : Executor) (caller : Worker) :
    Executes caller t executor (t.runAll executor caller).1 (t.runAll executor caller).2 := by
  have hnodup : t.builds.keys.Nodup := Std.TreeMap.nodup_keys
  cases executor with
  | threads =>
    exact .threads (works_runJobs (t := t.setTable (t.services.table.surrender caller))
      (fun b _ => h b) hnodup (caller + 1)) rfl
  | sequential order =>
    have hqueue := queue_perm order hnodup
    obtain ⟨t', log, hworks, heq⟩ := worksInTurn_foldl (t := t) (hqueue.nodup_iff.2 hnodup)
      (fun b _ => h b) caller []
    have hrun : t.runAll (.sequential order) caller = (t', log) := by
      rw [runAll, runInOrder]
      exact heq
    rw [hrun]
    exact .sequential hqueue (List.prefix_append _ _) hworks
  | refusing error =>
    obtain ⟨hservices, hnext⟩ := foldl_alter_keys (fun b c => c.refuse (error b)) t
    have hnext : ∀ b : BuildId, (t.runAll (.refusing error) caller).1.builds[b]? =
        (t.builds[b]?).map (·.refuse (error b)) := hnext
    refine .refusing hservices fun b => ?_
    rw [hnext b]
    cases hc : t.builds[b]? with
    | none => exact .none
    | some c => exact .some ((h b c hc).refuse (error b))

/-! ## What executors leave -/

theorem AllAtStart.atWork (h : t.AllAtStart) : t.AtWork := fun b c hc => (h b c hc).toEngaged

theorem AllAtStart.not_acted (h : t.AllAtStart) : ¬ t.Acted b path := by
  rintro ⟨c, hc, hacted⟩
  exact (h b c hc).not_acted hacted

/-- Jobs that are worked on in turn leave the tasks of every build running, and the log tells of
just those actions that have begun. -/
theorem WorksInTurn.spec (h : WorksInTurn builds t t' log') (hwork : t.AtWork)
    (hlog : ∀ b path, .started b path ∈ log ↔ t.Acted b path) (hnodup : builds.Nodup)
    (hstart : ∀ b ∈ builds, ∀ c, t.builds[b]? = some c → c.AtStart b) :
    t'.AtWork ∧ ∀ b path, .started b path ∈ log ++ log' ↔ t'.Acted b path := by
  induction h generalizing log with
  | nil t => exact ⟨hwork, by simpa using hlog⟩
  | @cons b builds t t' t'' more rest hworks _ ih =>
    obtain ⟨hb, hnodup⟩ := List.nodup_cons.1 hnodup
    have hfirst : ∀ d ∈ [b], ∀ c, t.builds[d]? = some c → c.AtStart d := fun d hd =>
      hstart d (List.mem_cons.2 (.inl (List.mem_singleton.1 hd)))
    rw [← List.append_assoc]
    refine ih (hworks.atWork hfirst hwork) (hworks.logged hfirst hlog) hnodup fun d hd c hc => ?_
    rw [hworks.eq_of_not_mem hfirst fun hmem => hb (List.mem_singleton.1 hmem ▸ hd)] at hc
    exact hstart d (List.mem_cons_of_mem b hd) c hc

/-- Whatever the executor, the tasks of every build are running then, and the log tells of just
those actions that have begun. -/
theorem Executes.spec (h : Executes caller t executor t' log) (hstart : t.AllAtStart) :
    t'.AtWork ∧ ∀ b path, .started b path ∈ log ↔ t'.Acted b path := by
  have hsilent : ∀ b path, .started b path ∈ ([] : List Event) ↔ t.Acted b path := fun b path =>
    iff_of_false List.not_mem_nil hstart.not_acted
  cases h with
  | @threads t' log table h _ =>
    have hsurrendered : ∀ b ∈ t.builds.keys, ∀ c,
        (t.setTable (t.services.table.surrender caller)).builds[b]? = some c → c.AtStart b :=
      fun b _ => hstart b
    have hwork : t'.AtWork := h.atWork hsurrendered hstart.atWork
    have hlogged : ∀ b path, .started b path ∈ log ↔ t'.Acted b path :=
      h.logged hsurrendered hsilent
    exact ⟨hwork, hlogged⟩
  | sequential hqueue _ h =>
    exact h.spec hstart.atWork hsilent (hqueue.nodup_iff.2 Std.TreeMap.nodup_keys)
      fun b _ => hstart b
  | refusing _ h =>
    have hleft : ∀ (b : BuildId) (c' : Controller), t'.builds[b]? = some c' →
        ∃ c r ended, t.builds[b]? = some c ∧ c.graph.run? = some r ∧
          Controller.Left c r ended c' := by
      intro b c' hc'
      have hrel := h b
      rw [hc'] at hrel
      obtain ⟨c, hc, r, hr, hleft⟩ := exists_of_rel_some hrel
      exact ⟨c, r, _, hc, hr, hleft⟩
    refine ⟨fun b c' hc' => ?_, fun b path => iff_of_false List.not_mem_nil ?_⟩
    · obtain ⟨c, r, ended, hc, hr, hleft⟩ := hleft b c' hc'
      exact hleft.engaged (hstart.atWork b c hc) hr rfl
    · rintro ⟨c', hc', hacted⟩
      obtain ⟨c, r, ended, hc, hr, hleft⟩ := hleft b c' hc'
      exact (hstart b c hc).not_acted ⟨r, hr, (hleft.acted_iff hr rfl).1 hacted⟩

end BuildTree

end Foreman
