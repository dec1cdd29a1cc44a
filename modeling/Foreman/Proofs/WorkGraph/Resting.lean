import Foreman.Proofs.Run.Fixpoint
import Foreman.Proofs.WorkGraph.Coherence
import Foreman.Proofs.WorkGraph.Losses

/-!
# Plans that settle

The plan of a frozen graph is layered, whatever was called of the graph before, so a run of it
settles in every state, however the run goes on (`settles_to_rest`).
-/

namespace Foreman

namespace WorkGraph

variable {g g' : WorkGraph} {plan : Plan} {r : Run}

theorem Shaped.layered_of_freeze (h : g.Shaped) (hf : g.freeze = .ok g')
    (hp : g'.plan = some plan) :
    plan.Layered := by
  obtain ⟨exports, hbuilt⟩ := h
  obtain ⟨footprints, p, hto⟩ := freeze_spec hf
  obtain rfl := hto.eq_planOf hp
  have hsound : g.Sound fun _ _ => True := hbuilt.sound.congr rfl rfl rfl
  exact (planOf_sound hsound hto).layered

theorem Kept.layered_of_freeze (h : g.Kept) (hf : g.freeze = .ok g') (hp : g'.plan = some plan) :
    plan.Layered := by
  rcases h with hshaped | ⟨-, hclosed⟩
  · exact hshaped.layered_of_freeze hf hp
  · obtain ⟨footprints, p, hto⟩ := freeze_spec hf
    exact absurd hto.phase hclosed

/-- Every run of a frozen graph's plan settles, in whatever state it is. -/
theorem settles_to_rest (registry : Registry) (calls : List Call)
    (hf : ((new registry).afterAll calls).freeze = .ok g') (hp : g'.plan = some plan)
    (hr : r.plan = plan) (o : Outlook) : r.Settles o := by
  have hnew : (new registry).Kept := .inl ⟨∅, .new registry⟩
  have hlayered : plan.Layered := (hnew.afterAll calls).layered_of_freeze hf hp
  exact Run.settles (hr.symm ▸ hlayered) o

/-- A test is requested, and its report comes after it, which needs what is collected for it. -/
def surveyCalls : List Call :=
  [.declare [] (smallTask "test" [] ["report"] []),
    .declare [] (smallTask "report" ["collect"] [] []), .declare [] (smallTask "collect" [] [] []),
    .schedule (none : Option (CrossBuild Unit)) [⟨":", "test"⟩] ()]

/-- At first the test can start, and it is not known whether the other two will be needed. -/
theorem surveyCalls_settle : ∃ r : Run, ((new (.empty ⟨"main"⟩)).afterAll surveyCalls).frozen.plan =
      some r.plan ∧
    r.Settles ⟨false, true, fun _ _ => none⟩ ∧
    (r.settle ⟨false, true, fun _ _ => none⟩).progress.states = #[.ready, .scheduled, .scheduled] ∧
    r.plan.demandOf r.progress.states 2 = .pending := by
  have hplan := plan_frozen (g := (new (.empty ⟨"main"⟩)).afterAll surveyCalls) (by decide +kernel)
  refine ⟨_, hplan, ?_, by decide +kernel, by decide +kernel⟩
  exact settles_to_rest (.empty ⟨"main"⟩) surveyCalls (freeze_eq_frozen (by decide +kernel))
    hplan rfl _

end WorkGraph

end Foreman
