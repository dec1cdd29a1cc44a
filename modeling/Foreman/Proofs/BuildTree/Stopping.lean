import Foreman.Proofs.BuildTree.Reporting
import Foreman.Proofs.Workshop.Stopping

/-!
# How a tree stops

With fail-fast the first failure that counts, of whichever build, keeps all builds of the tree from
starting anything else (`Ready.fails_fast`).
-/

namespace Foreman

open Relation

namespace Workshop

variable {w₀ w : Workshop}

theorem drifts_foldl (w : Workshop) (js : List Nat) : ReflTransGen Drifts w (js.foldl step w) := by
  induction js generalizing w with
  | nil => exact .refl
  | cons j js ih => exact .head (.step w j) (ih (w.step j))

/-- With fail-fast a stop is asked for just when a failure has been noted, and that is when some
task of a build has failed that does not ask to ignore it; tasks of other builds are none of these.
From then on, whatever the members of all builds do and in whatever order, no node of any run
starts, each node that was running ends and is reported, and each node that was still waiting is
skipped. -/
theorem Ready.fails_fast (h : w₀.Ready) (hfast : w₀.services.failFast = true)
    (hw : ReflTransGen Drifts w₀ w) :
    (w.services.stopRequested = true ↔ w₀.services.stopRequested = true ∨ w.Failing) ∧
      (w.Failing ↔ ∃ (b : BuildId) (r : Run) (i : Nat), w.runs[b]? = some r ∧ r.Blames i) ∧
      (w.Failing → ∀ w', ReflTransGen Drifts w w' → ∀ (b : BuildId) (r : Run),
        w.runs[b]? = some r → ∃ r', w'.runs[b]? = some r' ∧ Drained w₀ w' b r r') := by
  have hstop := h.stopRequested_iff hfast hw
  refine ⟨hstop, ?_, fun hfailing w' hw' b r hr => h.drained hw (hstop.2 (.inr hfailing)) hw' hr⟩
  obtain ⟨hrep, _⟩ := h.reporting.shiftsAll h (shifts_of_drifts hw)
  have hblames : ∀ (b : BuildId) (r : Run), w.runs[b]? = some r →
      (r.progress.failures ≠ [] ↔ ∃ i, r.Blames i) := by
    intro b r hr
    obtain ⟨_, _, _, hreports⟩ := hrep.runs b r hr
    exact hreports.failures_ne_nil_iff
  constructor
  · rintro ⟨b, r, hr, hne⟩
    obtain ⟨i, hi⟩ := (hblames b r hr).1 hne
    exact ⟨b, r, i, hr, hi⟩
  · rintro ⟨b, r, i, hr, hi⟩
    exact ⟨b, r, hr, (hblames b r hr).2 ⟨i, hi⟩⟩

end Workshop

namespace BuildTree

/-- The application fails to compile while the library packs a jar that it is going to publish. -/
def stoppingTree : BuildTree :=
  let t := freshTree
    [registryOf "app"
      [{ TaskDefinition.plain ⟨":", "compile"⟩ with action := some ⟨.done, some ⟨"syntax", []⟩⟩ },
        { TaskDefinition.plain ⟨":", "test"⟩ with dependsOn := [.path "compile"] }],
      registryOf "lib"
        [.plain ⟨":", "jar"⟩,
          { TaskDefinition.plain ⟨":", "publish"⟩ with dependsOn := [.path "jar"] }]]
    ⟨"app"⟩ [⟨":", "test"⟩]
  { (t.request ⟨"lib"⟩ [⟨":", "publish"⟩]).1 with
    services := { t.services with failFast := true } }

theorem stoppingTree_fresh : stoppingTree.Fresh := by
  refine Fresh.request (freshTree_fresh (fun r hr => ?_) _ _) _ _
  simp only [List.mem_cons, List.not_mem_nil, or_false] at hr
  rcases hr with rfl | rfl <;> exact registryOf_keyed _ _

def stoppingMoment : Workshop := [0, 2, 0].foldl Workshop.step (stoppingTree.launched.opened 0)

def stoppingEnd : Workshop := [2, 2, 3, 0, 1].foldl Workshop.step stoppingMoment

/-- The jar is still packed, and not published. -/
theorem stoppingTree_fails_fast : (stoppingTree.launched.opened 0).Ready ∧
    stoppingEnd.isOver = true ∧ ∃ r r', stoppingMoment.runs[BuildId.mk "lib"]? = some r ∧
      stoppingEnd.runs[BuildId.mk "lib"]? = some r' ∧
      r.progress.states = #[.scheduled, .running] ∧ r'.progress.states = #[.skipped, .succeeded] ∧
      Workshop.Drained (stoppingTree.launched.opened 0) stoppingEnd ⟨"lib"⟩ r r' := by
  have hprepare : stoppingTree.prepare.2 = none := Option.isNone_iff_eq_none.1 (by decide +kernel)
  obtain ⟨t₂, hstart⟩ := start_of_prepare (Prod.ext rfl hprepare)
  have hready : (stoppingTree.launched.opened 0).Ready := by
    rw [launched, hstart]
    exact stoppingTree_fresh.ready (Prod.ext rfl hprepare) hstart 0
  have hlib : (stoppingMoment.runs[BuildId.mk "lib"]?).map (·.progress.states) =
      some #[.scheduled, .running] := by decide +kernel
  have hlib' : (stoppingEnd.runs[BuildId.mk "lib"]?).map (·.progress.states) =
      some #[.skipped, .succeeded] := by decide +kernel
  have happ : (stoppingMoment.runs[BuildId.mk "app"]?).map (·.progress.failures) =
      some [.taskFailed ⟨":", "compile"⟩ ⟨"syntax", []⟩] := by decide +kernel
  obtain ⟨q, hq, hfailures⟩ := Option.map_eq_some_iff.1 happ
  obtain ⟨r, hr, hstates⟩ := Option.map_eq_some_iff.1 hlib
  obtain ⟨r₁, hr₁, hstates'⟩ := Option.map_eq_some_iff.1 hlib'
  obtain ⟨_, _, hdrains⟩ := hready.fails_fast (by decide +kernel)
    (Workshop.drifts_foldl _ [0, 2, 0])
  obtain ⟨r', hr', hdrained⟩ := hdrains ⟨_, q, hq, by simp [hfailures]⟩ stoppingEnd
    (Workshop.drifts_foldl _ _) _ r hr
  cases hr₁.symm.trans hr'
  exact ⟨hready, by decide +kernel, r, _, hr, hr', hstates, hstates', hdrained⟩

end BuildTree

end Foreman
