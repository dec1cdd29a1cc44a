import Foreman.Proofs.Workshop.Progress

/-!
# Steps that only prepare others

A member may move nodes that will not run, or begin to wait for another build, and nobody's work
goes on by that. Such steps come to an end (`unrest`), so that in a workshop that cannot jam some
member starts a node, ends its work, or carries on a node after finitely many of them
(`exists_advances`).
-/

namespace Foreman

open Relation

namespace Workshop

variable {plans : Plans} {staff : BuildId → Nat} {w w' : Workshop} {j : Nat} {m : Member} {r : Run}
  {b : BuildId}

/-- Member `j` is about to wait for a task of another build. -/
def Calls (w : Workshop) (j : Nat) : Prop :=
  ∃ (m : Member) (i : Nat) (keys : List ResourceKey) (d : BuildId) (path : TaskPath),
    w.crew[j]? = some m ∧ m.activity = .calling i keys d path

/-- A step of a member that moves nodes as it selects, or begins to wait. -/
def Stirs (w w' : Workshop) : Prop := ∃ j, (w.Settles j ∨ w.Calls j) ∧ w' = w.step j

def openNodes (w : Workshop) : Set (BuildId × Nat) :=
  {x | ∃ r : Run, w.runs[x.1]? = some r ∧ r.progress.IsOpen x.2}

/-- What steps that only prepare others use up. -/
noncomputable def unrest (w : Workshop) : Nat := w.openNodes.ncard + {j | w.Calls j}.ncard

theorem finite_openNodes (ho : w.Orderly plans staff) : w.openNodes.Finite := by
  let size : BuildId → Nat := fun b => (plans b).elim 0 (·.size)
  refine (w.finite_left.biUnion fun b _ =>
    (Set.finite_singleton b).prod (Set.finite_lt_nat (size b))).subset ?_
  rintro ⟨b, i⟩ ⟨r, hr, hopen⟩
  rw [Set.mem_iUnion₂]
  refine ⟨b, ⟨r, i, hr, hopen⟩, rfl, ?_⟩
  obtain ⟨st, hst, _⟩ := hopen
  have hlt := (ho.consistent b r hr).lt_size hst
  show i < size b
  simpa [size, ho.plan_eq hr] using hlt

theorem finite_calls (w : Workshop) : {j | w.Calls j}.Finite := by
  refine (Set.finite_lt_nat w.crew.size).subset ?_
  rintro j ⟨m, _, _, _, _, hm, _⟩
  exact (Array.getElem?_eq_some_iff.1 hm).1

/-- A call leaves the runs alone and is not made again. -/
theorem step_of_calls (ho : w.Orderly plans staff) (hc : w.Calls j) :
    (w.step j).runs = w.runs ∧ (∀ k, (w.step j).Calls k → w.Calls k) ∧ ¬ (w.step j).Calls j := by
  obtain ⟨m, i, keys, d, path, hm, hact⟩ := hc
  obtain ⟨r, hr, _⟩ := ho.fits j m hm
  have hcrew : ∀ k : Nat, (w.step j).crew[k]? = if k = j then
      some { m with activity := .awaiting i keys d path (w.services.table.leaseCount m.worker) }
      else w.crew[k]? := by
    simp only [step, hm, hr, hact]
    exact crew_setActivity (w := w.setTable _) hm _
  refine ⟨by simp only [step, hm, hr, hact]; rfl, fun k hk => ?_, fun hk => ?_⟩
  · obtain ⟨m', i', keys', d', path', hm', hact'⟩ := hk
    rw [hcrew] at hm'
    split at hm'
    · cases hm'
      cases hact'
    · exact ⟨m', i', keys', d', path', hm', hact'⟩
  · obtain ⟨m', _, _, _, _, hm', hact'⟩ := hk
    rw [hcrew, if_pos rfl, Option.some.injEq] at hm'
    subst hm'
    cases hact'

theorem unrest_of_calls (ho : w.Orderly plans staff) (hc : w.Calls j) :
    (w.step j).unrest < w.unrest := by
  obtain ⟨hruns, hsub, hnot⟩ := step_of_calls ho hc
  have hopen : (w.step j).openNodes = w.openNodes := by rw [openNodes, openNodes, hruns]
  have hlt : {k | (w.step j).Calls k}.ncard < {k | w.Calls k}.ncard := by
    refine Set.ncard_lt_ncard ⟨fun k hk => hsub k hk, fun h => ?_⟩ w.finite_calls
    exact hnot (h hc)
  rw [unrest, unrest, hopen]
  exact Nat.add_lt_add_left hlt _

/-- Where no member advances, one that settles has to wait, and some node has come to its end while
others are left. -/
theorem step_of_settles (hp : plans.Sound) (ho : w.Orderly plans staff) (h : ∀ j, ¬ w.Advances j)
    (hs : w.Settles j) : (w.step j).crew = w.crew ∧
      ((∀ x ∈ (w.step j).openNodes, x ∈ w.openNodes) ∧
        ∃ x ∈ w.openNodes, x ∉ (w.step j).openNodes) ∧
      ∃ b, (w.step j).Left b := by
  obtain ⟨m, r, hm, hr, hidle, hne⟩ := hs
  have hc := ho.consistent _ _ hr
  obtain ⟨hwait, hheld⟩ := heldUp_of_not_advances hp ho h hm hr hidle
  have hchosen := Run.select_chosen hc (hp.sound _ _ (ho.plan_eq hr)) w.services.stopRequested
    w.foreign w.services.locks m.worker w.services.table
  have hchain := (Run.select_spec r w.services.stopRequested w.foreign w.services.locks m.worker
    w.services.table).chain
  rw [step_eq_stepIdle hm hr hidle, stepIdle]
  rw [Run.beginTurn] at hne ⊢
  generalize r.select w.services.stopRequested w.foreign w.services.locks m.worker
    w.services.table = answer at hne hwait hheld hchosen hchain
  obtain ⟨selection, r', table'⟩ := answer
  simp only at hne hwait hheld hchosen hchain ⊢
  subst hwait
  have hrunning : ∀ k, r'.progress.state? k = some .running ↔
      r.progress.state? k = some .running := by
    cases hchosen with
    | wait hrunning => exact hrunning
  let w' : Workshop := { w with services := { w.services with table := table' } }.setRun m.build r'
  have hruns : ∀ d : BuildId, w'.runs[d]? = if d = m.build then some r' else w.runs[d]? :=
    runs_setRun r' m.build
  obtain ⟨k, hk, hover⟩ := Run.exists_over_of_changes hc hchain hrunning hheld.ready
    fun he => hne (congrArg Run.progress he)
  refine ⟨rfl, ⟨?_, (m.build, k), ⟨r, hr, hk⟩, ?_⟩, m.build, r', ?_⟩
  · rintro ⟨d, i⟩ ⟨q, hq, hopen⟩
    have hq : w'.runs[d]? = some q := hq
    rw [hruns] at hq
    split at hq
    · rename_i hd
      cases hq
      exact ⟨r, hd ▸ hr, Run.isOpen_of_changes hc hchain hopen⟩
    · exact ⟨q, hq, hopen⟩
  · rintro ⟨q, hq, hopen⟩
    have hq : w'.runs[m.build]? = some q := hq
    rw [hruns, if_pos rfl, Option.some.injEq] at hq
    subst hq
    exact hover hopen
  · have hleft : ∃ i, r'.progress.IsOpen i := by
      rcases hheld.busy with ⟨i, hi⟩ | ⟨i, _, hi, _⟩
      · exact ⟨i, _, hi, rfl⟩
      · exact ⟨i, _, hi, rfl⟩
    obtain ⟨i, hi⟩ := hleft
    refine ⟨i, ?_, hi⟩
    show w'.runs[m.build]? = some r'
    rw [hruns, if_pos rfl]

theorem unrest_of_settles (hp : plans.Sound) (ho : w.Orderly plans staff)
    (h : ∀ j, ¬ w.Advances j) (hs : w.Settles j) : (w.step j).unrest < w.unrest := by
  obtain ⟨hcrew, ⟨hsub, x, hx, hnew⟩, _⟩ := step_of_settles hp ho h hs
  have hlt := Set.ncard_lt_ncard ⟨hsub, fun h => hnew (h hx)⟩ (finite_openNodes ho)
  have hcalls : {k | (w.step j).Calls k} = {k | w.Calls k} := by
    ext k
    show (w.step j).Calls k ↔ w.Calls k
    rw [Calls, Calls, hcrew]
  rw [unrest, unrest, hcalls]
  exact Nat.add_lt_add_right hlt _

/-- While something is left, some member starts a node, ends its work or carries on a node, at the
latest after finitely many steps that only prepare that. Induction is on what these use up. -/
theorem exists_advances (hp : plans.Sound) (ho : w.Orderly plans staff) (hroomy : plans.Roomy staff)
    (hdecisive : plans.Decisive) (hb : w.Left b) :
    ∃ w' j, ReflTransGen Stirs w w' ∧ w'.Advances j ∧ ¬ w'.Calls j := by
  induction hn : w.unrest using Nat.strong_induction_on generalizing w b with
  | _ n ih =>
    subst hn
    by_cases hdone : ∃ j, w.Advances j ∧ ¬ w.Calls j
    · obtain ⟨j, hj⟩ := hdone
      exact ⟨w, j, .refl, hj⟩
    · push Not at hdone
      by_cases hcall : ∃ j, w.Calls j
      · obtain ⟨j, hj⟩ := hcall
        have hleft : (w.step j).Left b := by
          rw [Left, (step_of_calls ho hj).1]
          exact hb
        obtain ⟨w', k, hw', hk⟩ := ih _ (unrest_of_calls ho hj) (ho.step hp j) hleft rfl
        exact ⟨w', k, .head ⟨j, .inr hj, rfl⟩ hw', hk⟩
      · have hadv : ∀ j, ¬ w.Advances j := fun j hj => hcall ⟨j, hdone j hj⟩
        have henabled : ∃ j, w.Enabled j := by
          by_contra hnone
          push Not at hnone
          exact not_jammed hp ho hroomy hdecisive hb ((jammed_iff hp ho).2 hnone)
        obtain ⟨j, hj | hj⟩ := henabled
        · exact absurd hj (hadv j)
        · obtain ⟨_, _, d, hd⟩ := step_of_settles hp ho hadv hj
          obtain ⟨w', k, hw', hk⟩ := ih _ (unrest_of_settles hp ho hadv hj) (ho.step hp j) hd rfl
          exact ⟨w', k, .head ⟨j, .inl hj, rfl⟩ hw', hk⟩

end Workshop

end Foreman
