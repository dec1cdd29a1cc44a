import Foreman.Proofs.BuildTree.Hanging
import Foreman.Proofs.BuildTree.Starting
import Foreman.Proofs.Workshop.Reporting

/-!
# What the runs of a tree report

Whatever the members of a workshop come to, in whatever order they step, is published and reported,
if the workshop was ready (`Ready.accounted`). Where a fresh tree starts, nothing has been published
for its tasks, so that the workshop in which the jobs of its builds run is ready (`Fresh.ready`).
-/

namespace Foreman

open Relation

namespace Workshop

variable {w₀ w : Workshop} {b : BuildId} {r : Run}

theorem shifts_foldl (w : Workshop) (js : List Nat) : ReflTransGen Shifts w (js.foldl step w) := by
  induction js generalizing w with
  | nil => exact .refl
  | cons j js ih => exact .head (.step w j) (ih (w.step j))

/-- Stepping in turn is one of the orders in which the members can step. -/
theorem shifts_execute (w : Workshop) : ReflTransGen Shifts w w.execute := by
  fun_induction execute w with
  | case1 w next _ ih => exact (shifts_foldl w _).trans ih
  | case2 w next _ => exact shifts_foldl w _

/-- Whatever the members of a workshop do and in whatever order, the runs that began in it publish
and report what became of their tasks, neither more nor less. -/
theorem Ready.accounted (h : w₀.Ready) (hw : ReflTransGen Shifts w₀ w) (hr : w.runs[b]? = some r) :
    Published w₀ w b r ∧ ((∀ (j : Nat) (m : Member), w.crew[j]? = some m → m.build = b →
      m.activity = .off) → Reported w₀ w b r) :=
  ⟨h.published hw hr, h.reported hw hr⟩

end Workshop

namespace BuildTree

variable {t t₁ t₂ : BuildTree} {b : BuildId} {c : Controller}

/-- The graph of a build whose tree was scheduled lets a run start. -/
theorem Explored.unpublished (h : Explored t.resumed t.findings t.scheduled)
    (hc : t.scheduled.builds[b]? = some c) : c.graph.Unpublished := by
  obtain ⟨_, _, hdisc⟩ := h.exists hc
  refine ⟨h.sound.sound_true hc, hdisc.surveyed.tidy.wired.distinct, fun path outcome ho => ?_⟩
  rw [hdisc.unpublished] at ho
  cases ho

/-- The jobs of a fresh tree that has started are ready to run. -/
theorem Fresh.ready (h : t.Fresh) (hprepare : t.prepare = (t₁, none))
    (hstart : t₁.eachController (·.start) = (t₂, none)) (caller : Worker) :
    (t₂.opened caller).Ready := by
  obtain ⟨hschedule, hfinalize, _⟩ := prepare_eq_none_iff.1 hprepare
  have hfresh : t.resumed.Fresh := h
  have hexplored : Explored t.resumed t.findings t.scheduled := (hfresh.schedule_spec hschedule).1
  have horigin : Origin t.scheduled t₂ := .of_start hexplored.sound hfinalize hstart
  obtain ⟨last, henrolled⟩ := (Workshop.new_enrolled
    (t₂.setTable (t₂.services.table.surrender caller)).services
    (t₂.setTable (t₂.services.table.surrender caller)).foreign (caller + 1)).enrollAll
      horigin.nodup_launchedRuns
  constructor
  case frozen =>
    intro b r hr
    obtain ⟨hmem, rfl⟩ := (henrolled.runs b r).1 hr
    obtain ⟨b, c₂, hc₂, hrun, rfl⟩ := horigin.mem_launchedRuns.1 hmem
    obtain ⟨c₁, hc₁, hs⟩ := exists_of_eachController hstart hc₂
    obtain ⟨c₀, hc₀, hfin⟩ := exists_of_eachController hfinalize hc₁
    refine ⟨c₀.graph, c₁.graph, hexplored.unpublished hc₀, (hexplored.sound _ c₀ hc₀).build,
      (finalize_spec hfin).1, ?_⟩
    rw [start_spec hs] at hrun
    exact hrun
  case idle =>
    intro j m hm
    obtain ⟨hidle, _, r, hmem, hb⟩ := henrolled.crew j m hm
    exact ⟨hidle, r, (henrolled.runs m.build r).2 ⟨hmem, hb⟩⟩
  case staffed =>
    intro b r hr hsize
    obtain ⟨hmem, rfl⟩ := (henrolled.runs b r).1 hr
    obtain ⟨start, hmembers⟩ := henrolled.staffed r hmem
    have hcount : 0 < Workshop.crewFor t₂.services r := by
      rw [Workshop.crewFor, if_neg (Nat.ne_of_gt hsize), Services.workersFor]
      omega
    obtain ⟨m, hm, hb⟩ := hmembers 0 hcount
    exact ⟨start + 0, m, hm, hb⟩

/-! ## A tree that fails -/

/-- Task `a` of the application depends on task `b` of the library, which fails. -/
def failingTree : BuildTree :=
  freshTree
    [registryOf "app"
      [{ TaskDefinition.plain ⟨":", "a"⟩ with dependsOn := [.inBuild ⟨"lib"⟩ ⟨":", "b"⟩] }],
      registryOf "lib"
        [{ TaskDefinition.plain ⟨":", "b"⟩ with action := some ⟨.done, some ⟨"disk full", []⟩⟩ }]]
    ⟨"app"⟩ [⟨":", "a"⟩]

theorem failingTree_fresh : failingTree.Fresh := by
  refine freshTree_fresh (fun r hr => ?_) _ _
  simp only [List.mem_cons, List.not_mem_nil, or_false] at hr
  rcases hr with rfl | rfl <;> exact registryOf_keyed _ _

def failingEnd : Workshop :=
  ((List.range 12).flatMap fun _ => [0, 1, 2]).foldl Workshop.step (failingTree.launched.opened 0)

/-- The library reports its failure, and the application nothing but that `a` was skipped. -/
theorem failingTree_accounted : (failingTree.launched.opened 0).Ready ∧
    (failingEnd.runs[BuildId.mk "lib"]?).map (·.progress.states) = some #[.failed] ∧
    (failingEnd.runs[BuildId.mk "app"]?).map (·.progress.states) = some #[.skipped, .failed] ∧
    ∀ (b : BuildId) (r : Run), failingEnd.runs[b]? = some r →
      Workshop.Published (failingTree.launched.opened 0) failingEnd b r ∧
        Workshop.Reported (failingTree.launched.opened 0) failingEnd b r := by
  have hprepare : failingTree.prepare.2 = none := Option.isNone_iff_eq_none.1 (by decide +kernel)
  obtain ⟨t₂, hstart⟩ := start_of_prepare (Prod.ext rfl hprepare)
  have hready : (failingTree.launched.opened 0).Ready := by
    rw [launched, hstart]
    exact failingTree_fresh.ready (Prod.ext rfl hprepare) hstart 0
  have hover : failingEnd.isOver = true := by decide +kernel
  refine ⟨hready, by decide +kernel, by decide +kernel, fun b r hr => ?_⟩
  obtain ⟨hpublished, hreported⟩ := hready.accounted (Workshop.shifts_foldl _ _) hr
  refine ⟨hpublished, hreported fun j m hm _ => ?_⟩
  simpa using Array.all_eq_true'.1 hover m (Array.mem_of_getElem? hm)

end BuildTree

end Foreman
