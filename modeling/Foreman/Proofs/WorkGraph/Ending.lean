import Foreman.Proofs.WorkGraph.Losses
import Foreman.Proofs.Workshop.Ending
import Foreman.Proofs.Workshop.Site
import Foreman.Controller

/-!
# Executions of a single graph end

A plan without references to other builds whose actions visit no project, executed by a crew of its
own: nobody waits while nothing is running, nobody is sent home before every node is over, each node
starts at most once, and every fair execution ends with all nodes over (`Workshop.Ends`). So does
the execution of every frozen work graph of that kind (`WorkGraph.runWork_ends`).
-/

namespace Foreman

theorem Plan.Local.not_asks {p : Plan} (h : p.Local) (d : BuildId) (path : TaskPath) :
    ¬ p.Asks d path := by
  rintro ⟨i, n, hn, hw | he⟩
  · obtain ⟨t, ht⟩ := h.task i n hn
    rw [PlannedNode.task?, hw] at ht
    cases ht
  · rw [h.afterExports i n hn] at he
    cases he

/-- One plan and no others. -/
def Plans.only (p : Plan) : Plans := fun b => if b = p.build then some p else none

theorem Plans.only_eq_some_iff {p q : Plan} {b : BuildId} :
    Plans.only p b = some q ↔ q = p ∧ p.build = b := by
  rw [Plans.only]
  split
  · rename_i hb
    simp [hb, eq_comm]
  · rename_i hb
    simp [Ne.symm hb]

theorem Plans.only_local {p : Plan} (h : p.Local) : ∀ b q, Plans.only p b = some q → q.Local := by
  intro b q hq
  obtain ⟨rfl, _⟩ := only_eq_some_iff.1 hq
  exact h

theorem Plans.only_sound {p : Plan} (hp : p.Sound) (hlocal : p.Local) (hhome : p.StaysHome) :
    (Plans.only p).Sound where
  build b q hq := by
    obtain ⟨rfl, hb⟩ := only_eq_some_iff.1 hq
    exact hb
  sound b q hq := by
    obtain ⟨rfl, _⟩ := only_eq_some_iff.1 hq
    exact hp
  footprint b q i n d path hq hn hw := by
    obtain ⟨rfl, _⟩ := only_eq_some_iff.1 hq
    exact absurd ⟨i, n, hn, .inl hw⟩ (hlocal.not_asks d path)
  home b q hq := by
    obtain ⟨rfl, _⟩ := only_eq_some_iff.1 hq
    exact hhome

namespace Workshop

variable {w : Workshop} {p : Plan} {services : Services} {outside : Foreign} {r : Run}
  {leader : Worker}

def alone (services : Services) (outside : Foreign) (r : Run) (leader : Worker) : Workshop :=
  (new services outside).enroll r leader leader

/-- Some order of steps leads there. -/
def Reaches (w v : Workshop) : Prop := ∃ js : List Nat, js.foldl step w = v

/-- Everybody is done, no move was refused, and every node of the plan is over. -/
def Over (w : Workshop) (p : Plan) : Prop :=
  w.isOver = true ∧ ∃ r : Run, w.runs[p.build]? = some r ∧ r.plan = p ∧ r.progress.error = none ∧
    ∀ i < p.size, r.progress.isDone i = true

/-- Every execution of the plan from here on ends. -/
structure Ends (w : Workshop) (p : Plan) : Prop where
  stands : ∀ v, w.Reaches v → ∃ r, v.runs[p.build]? = some r ∧ r.plan = p
  /-- A worker that asks while nothing is running need not wait. -/
  answered : ∀ v r worker, w.Reaches v → v.runs[p.build]? = some r →
    (∃ i, r.progress.state? i = some .running) ∨
      (r.beginTurn v.services v.foreign worker).1 ≠ .wait
  /-- A worker is sent home when every node is over. -/
  dismissed : ∀ v r worker, w.Reaches v → v.runs[p.build]? = some r →
    (r.beginTurn v.services v.foreign worker).1 = .done →
    ∀ i < p.size, (r.beginTurn v.services v.foreign worker).2.1.progress.isDone i = true
  /-- No node starts twice. -/
  starts : ∀ js, (w.starts js).Nodup ∧ (w.starts js).length ≤ p.size
  fair : ∀ σ, w.Fair σ → ∃ n, ∀ k, n ≤ k → (w.after σ k).Over p
  executed : w.execute.Over p

theorem alone_enrolled (services : Services) (outside : Foreign) (r : Run) (leader : Worker) :
    (alone services outside r leader).Enrolled services [r] (leader + r.plan.size + 1) := by
  have hnew : ∀ q ∈ ([] : List Run), q.plan.build ≠ r.plan.build := by simp
  exact (new_enrolled services outside leader).enroll hnew

theorem alone_orderly (hstart : r.progress = .start r.plan) (hlocal : r.plan.Local)
    (hleases : services.table.Unleased) (hkeys : services.table.Unlocked) :
    (alone services outside r leader).Orderly (.only r.plan) fun _ => 1 := by
  refine (alone_enrolled services outside r leader).orderly (fun b q => ?_) ?_ ?_ ?_ hleases hkeys
  · rw [Plans.only_eq_some_iff]
    simp only [List.mem_singleton, exists_eq_left]
    constructor
    · rintro ⟨rfl, hb⟩
      exact ⟨rfl, hb⟩
    · rintro ⟨rfl, hb⟩
      exact ⟨rfl, hb⟩
  · rintro q hq
    rw [List.mem_singleton.1 hq, hstart]
  · intro b q d path hq hasks
    obtain ⟨rfl, _⟩ := Plans.only_eq_some_iff.1 hq
    exact absurd hasks (hlocal.not_asks d path)
  · intro q _ _
    exact Nat.le_max_left ..

theorem alone_crewed (hstart : r.progress = .start r.plan) :
    (alone services outside r leader).Crewed := by
  have hfresh := (alone_enrolled services outside r leader).fresh fun q hq => by
    rw [List.mem_singleton.1 hq, hstart]
  exact hfresh.crewed services

theorem Orderly.run_of_only {staff : BuildId → Nat} (ho : w.Orderly (.only p) staff) :
    ∃ r, w.runs[p.build]? = some r ∧ r.plan = p :=
  Option.map_eq_some_iff.1 ((ho.plan p.build).trans (Plans.only_eq_some_iff.2 ⟨rfl, rfl⟩))

theorem Orderly.eq_of_only {staff : BuildId → Nat} {b : BuildId} (ho : w.Orderly (.only p) staff)
    (hr : w.runs[b]? = some r) : r.plan = p ∧ p.build = b :=
  Plans.only_eq_some_iff.1 (ho.plan_eq hr)

/-- Where nobody can take a step the execution has ended. -/
theorem Jammed.finished (h : w.Jammed) (hlocal : p.Local) (ho : w.Orderly (.only p) fun _ => 1) :
    w.Over p := by
  have hall := Plans.only_local hlocal
  obtain ⟨r, hr, rfl⟩ := ho.run_of_only
  exact ⟨h.isOver ho hall, r, hr, rfl, (ho.consistent _ _ hr).error,
    fun i hi => h.isDone ho hall Nat.one_pos hr hi⟩

/-- There are no more nodes to start than the plan has. -/
theorem Crewed.length_starts_le (hc : w.Crewed) (ho : w.Orderly (.only p) fun _ => 1)
    (js : List Nat) : (w.starts js).length ≤ p.size := by
  obtain ⟨hnodup, hwaiting⟩ := hc.starts js
  have hnode : ∀ x ∈ w.starts js, x.1 = p.build ∧ x.2 < p.size := by
    intro x hx
    obtain ⟨r, hr, hwait⟩ := hwaiting x hx
    obtain ⟨rfl, hb⟩ := ho.eq_of_only hr
    refine ⟨hb.symm, ?_⟩
    rcases hwait with hwait | hwait <;> exact (ho.consistent _ _ hr).lt_size hwait
  have hsub : w.starts js ⊆ (List.range p.size).map (p.build, ·) := by
    intro x hx
    obtain ⟨hb, hlt⟩ := hnode x hx
    exact List.mem_map.2 ⟨x.2, List.mem_range.2 hlt, Prod.ext hb.symm rfl⟩
  have hle := (hnodup.subperm hsub).length_le
  rwa [List.length_map, List.length_range] at hle

/-- A run with a crew of its own ends. -/
theorem alone_ends (hstart : r.progress = .start r.plan) (hp : r.plan.Sound)
    (hlocal : r.plan.Local) (hhome : r.plan.StaysHome) (hleases : services.table.Unleased)
    (hkeys : services.table.Unlocked) : (alone services outside r leader).Ends r.plan := by
  have ho : (alone services outside r leader).Orderly (.only r.plan) fun _ => 1 :=
    alone_orderly hstart hlocal hleases hkeys
  have hc : (alone services outside r leader).Crewed := alone_crewed hstart
  have hplans := Plans.only_sound hp hlocal hhome
  generalize alone services outside r leader = w at ho hc
  generalize r.plan = p at *
  have hreach : ∀ v, w.Reaches v → v.Orderly (.only p) fun _ => 1 := by
    rintro v ⟨js, rfl⟩
    exact ho.steps hplans js
  constructor
  case stands => exact fun v hv => (hreach v hv).run_of_only
  case answered =>
    intro v q worker hv hq
    by_contra hnot
    obtain ⟨hstill, hwait⟩ := not_or.1 hnot
    refine hwait ((hreach v hv).answered hplans (Plans.only_local hlocal) ?_ hq worker)
    intro b q' i hq' hi
    obtain ⟨_, hb⟩ := (hreach v hv).eq_of_only hq'
    rw [← hb, hq, Option.some.injEq] at hq'
    subst hq'
    exact hstill ⟨i, hi⟩
  case dismissed =>
    intro v q worker hv hq hdone i hi
    obtain ⟨rfl, _⟩ := (hreach v hv).eq_of_only hq
    exact Run.isDone_of_select_done ((hreach v hv).consistent _ _ hq) hp hdone hi
  case starts => exact fun js => ⟨(hc.starts js).1, hc.length_starts_le ho js⟩
  case fair =>
    intro σ hfair
    obtain ⟨n, hn⟩ := hfair.jams hplans ho hc
    exact ⟨n, fun k hk => (hn k hk).finished hlocal (ho.after hplans σ k)⟩
  case executed =>
    obtain ⟨hjam, ho'⟩ := jammed_execute hplans ho hc
    exact hjam.finished hlocal ho'

end Workshop

namespace WorkGraph

open Workshop

variable {g g' : WorkGraph} {plan : Plan} {services : Services} {outside : Foreign}
  {leader : Worker}

theorem progress_of_freeze (hf : g.freeze = .ok g') (hp : g'.plan = some plan) :
    g'.progress = .start plan := by
  obtain ⟨footprints, p, hto⟩ := freeze_spec hf
  rw [hto.eq] at hp ⊢
  cases hp
  rfl

/-- What the execution of a frozen graph comes to. -/
theorem runWork_eq (hphase : g.phase = .finalized) (hp : g.plan = some plan) {r : Run}
    (hr : (alone services outside ⟨plan, g.progress, g.exports⟩ leader).execute.runs[g.build]? =
      some r) : ∃ services' log, g.runWork services outside leader =
        (r.takeResult.1, { g.keep r.takeResult.2 with phase := .completed }, services', log) := by
  have hbegin : g.beginExecution = .ok (plan, { g with phase := .running }) := by
    simp [beginExecution, require, hphase, hp, bind, Except.bind]
  have hr' : ((Workshop.new services outside).enroll ⟨plan, g.progress, g.exports⟩ leader
      leader).execute.runs[({ g with phase := .running } : WorkGraph).build]? = some r := hr
  simp only [runWork, hbegin, hr', Option.getD_some, keep, complete, require, if_pos, bind,
    Except.bind, pure, Except.pure]
  exact ⟨_, _, rfl⟩

/-- Every execution of a frozen graph ends whose plan refers to no other build and whose actions
visit no project, if nobody else holds a lease or a key; stepping in turn comes to its failures. -/
theorem runWork_ends (hb : Built g) (hf : g.freeze = .ok g') (hp : g'.plan = some plan)
    (hlocal : plan.Local) (hhome : plan.StaysHome) (hleases : services.table.Unleased)
    (hkeys : services.table.Unlocked) (outside : Foreign) (leader : Worker) :
    (alone services outside ⟨plan, g'.progress, g'.exports⟩ leader).Ends plan ∧
      ∃ failures after services' log,
        g'.runWork services outside leader = (.ok failures, after, services', log) ∧
          after.phase = .completed ∧ ∀ i < plan.size, after.progress.isDone i = true := by
  have hstart := progress_of_freeze hf hp
  obtain ⟨footprints, p, hto⟩ := freeze_spec hf
  have hkept : g'.plan = some (g.planOf footprints p) ∧ g'.phase = .finalized ∧
      g'.build = (g.planOf footprints p).build := by
    rw [hto.eq]
    exact ⟨rfl, rfl, rfl⟩
  obtain ⟨hplan, hphase, hbuild⟩ := hkept
  cases hp.symm.trans hplan
  have hends : (alone services outside ⟨g.planOf footprints p, g'.progress, g'.exports⟩
      leader).Ends (g.planOf footprints p) :=
    alone_ends hstart (planOf_sound hb.sound hto) hlocal hhome hleases hkeys
  refine ⟨hends, ?_⟩
  obtain ⟨_, r, hr, _, herror, hdone⟩ := hends.executed
  obtain ⟨services', log, hrun⟩ := runWork_eq hphase hplan (by rw [hbuild]; exact hr)
  rw [Run.takeResult_fst herror] at hrun
  exact ⟨_, _, _, _, hrun, rfl, fun i hi => (r.isDone_takeResult i).trans (hdone i hi)⟩

/-- After `x` has failed its finalizer `f` waits for `y`, which waits to be needed by `g`, which
waits for `z` to run, which waits for `f`. -/
def tangledGraph : WorkGraph :=
  requested [{ smallTask "x" [] ["f"] [] with action := some ⟨.done, some ⟨"disk full", []⟩⟩ },
    smallTask "z" [] ["g"] ["f"], smallTask "y" [] ["f"] [], smallTask "f" [] [] [],
    smallTask "g" ["y"] [] []] ["x", "z"]

def pairAt (g : WorkGraph) : Workshop :=
  alone ⟨2, false, ⟨true⟩, .empty 2, false⟩ (fun _ _ => none)
    ⟨g.firstStage.run.plan, g.frozen.progress, g.frozen.exports⟩ 0

/-- Two workers who take turns come to an end, though the nodes that are left wait for each
other. -/
theorem tangledGraph_ends : (pairAt tangledGraph).Ends tangledGraph.firstStage.run.plan ∧
    ∃ n, ∀ k, n ≤ k →
      ((pairAt tangledGraph).after (· % 2) k).Over tangledGraph.firstStage.run.plan := by
  have hfreeze := freeze_eq_frozen (g := tangledGraph) (by decide +kernel)
  have hplan := plan_frozen (g := tangledGraph) (by decide +kernel)
  have hlocal : tangledGraph.firstStage.run.plan.Local :=
    (regular_of_freeze (requested_built _ _) (isLocal_of_all (by decide +kernel)) hfreeze hplan
      tangledGraph.frozen.exports fun _ _ => none).isLocal
  have hscripts : ∀ n ∈ tangledGraph.firstStage.run.plan.nodes,
      ∀ action ∈ n.task?.bind (·.action), action.script = .done := by decide +kernel
  have hhome : tangledGraph.firstStage.run.plan.StaysHome := by
    intro i n t action hn hw haction
    rw [hscripts n (Array.mem_of_getElem? hn) action (by simp [PlannedNode.task?, hw, haction])]
    trivial
  have hends : (pairAt tangledGraph).Ends tangledGraph.firstStage.run.plan :=
    (runWork_ends (requested_built _ _) hfreeze hplan hlocal hhome (fun _ => rfl) (fun _ => rfl)
      (fun _ _ => none) 0).1
  have hcrewed : (pairAt tangledGraph).Crewed := alone_crewed (progress_of_freeze hfreeze hplan)
  have hsize : (pairAt tangledGraph).crew.size = 2 := by decide +kernel
  refine ⟨hends, hends.fair _ (hcrewed.fair fun j hj k => ⟨2 * k + j, by omega, ?_⟩)⟩
  rw [hsize] at hj
  omega

end WorkGraph

end Foreman
