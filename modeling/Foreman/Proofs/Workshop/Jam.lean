import Foreman.Proofs.Workshop.Crew

/-!
# Where a workshop can get stuck

No member of an orderly workshop can take a step exactly where it is jammed (`jammed_iff`): each
member is done, waits for a task of another build that has no outcome, or finds its run held up. A
jam lasts (`Jammed.steps`).
-/

namespace Foreman

namespace Workshop

variable {plans : Plans} {staff : BuildId → Nat} {w w' : Workshop} {j : Nat} {m : Member} {r : Run}

/-- What makes a step of a member more than a look at its run: it starts a node, is done, or carries
on the node that it has. -/
inductive CanAdvance (w : Workshop) (m : Member) (r : Run) : Activity → Prop
  | select (h : (r.beginTurn w.services w.foreign m.worker).1 ≠ .wait) : CanAdvance w m r .idle
  | finish {i : Nat} {keys : List ResourceKey} {outcome : NodeOutcome} :
      CanAdvance w m r (.acting i keys [] outcome)
  | visit {i : Nat} {n : PlannedNode} {t : TaskDefinition} {keys : List ResourceKey}
      {step : AccessStep} {steps : List AccessStep} {outcome : NodeOutcome}
      (hn : r.plan.nodes[i]? = some n) (ht : n.task? = some t)
      (h : (w.services.table.take? w.services.locks ⟨m.build, t.path.project⟩ m.worker
        step).isSome = true) : CanAdvance w m r (.acting i keys (step :: steps) outcome)
  | call {i : Nat} {keys : List ResourceKey} {b : BuildId} {path : TaskPath} :
      CanAdvance w m r (.calling i keys b path)
  | answer {i : Nat} {keys : List ResourceKey} {b : BuildId} {path : TaskPath} {holds : Nat}
      (h : w.foreign b path ≠ none) : CanAdvance w m r (.awaiting i keys b path holds)
  | resume {i : Nat} {keys : List ResourceKey} {holds : Nat} {outcome : NodeOutcome}
      (h : (w.services.table.restore? m.worker holds).isSome = true) :
      CanAdvance w m r (.resuming i keys holds outcome)

/-- A step of member `j` starts a node, ends its work, or carries on the node that it has. -/
def Advances (w : Workshop) (j : Nat) : Prop :=
  ∃ (m : Member) (r : Run), w.crew[j]? = some m ∧ w.runs[m.build]? = some r ∧
    w.CanAdvance m r m.activity

/-- A step of member `j`, who selects, moves nodes of its run. -/
def Settles (w : Workshop) (j : Nat) : Prop :=
  ∃ (m : Member) (r : Run), w.crew[j]? = some m ∧ w.runs[m.build]? = some r ∧
    m.activity = .idle ∧ (r.beginTurn w.services w.foreign m.worker).2.1.progress ≠ r.progress

/-- A step of member `j` changes something. -/
def Enabled (w : Workshop) (j : Nat) : Prop := w.Advances j ∨ w.Settles j

/-- The member waits for a task of another build that has no outcome. -/
def Awaits (w : Workshop) (m : Member) : Prop :=
  ∃ i keys b path holds, m.activity = .awaiting i keys b path holds ∧ w.foreign b path = none

/-- Everybody is done, waits for another build, or finds the run held up. -/
def Jammed (w : Workshop) : Prop :=
  ∀ (j : Nat) (m : Member) (r : Run), w.crew[j]? = some m → w.runs[m.build]? = some r →
    m.activity = .off ∨ w.Awaits m ∨
      m.activity = .idle ∧ r.HeldUp w.services.stopRequested w.foreign

/-- Where its run is held up a member that selects has to wait, and nothing changes. -/
theorem beginTurn_of_heldUp (hp : plans.Sound) (ho : w.Orderly plans staff)
    (hr : w.runs[m.build]? = some r) (hheld : r.HeldUp w.services.stopRequested w.foreign) :
    r.beginTurn w.services w.foreign m.worker = (.wait, r, w.services) := by
  have hselect := hheld.select (ho.consistent _ _ hr) (hp.sound _ _ (ho.plan_eq hr))
    w.services.locks m.worker w.services.table
  simp only [Run.beginTurn, hselect]

theorem Jammed.not_enabled (h : w.Jammed) (hp : plans.Sound) (ho : w.Orderly plans staff) :
    ¬ w.Enabled j := by
  rintro (⟨m, r, hm, hr, hstep⟩ | ⟨m, r, hm, hr, hact, hmoves⟩)
  · rcases h j m r hm hr with hoff | ⟨i, keys, b, path, holds, hact, hnone⟩ | ⟨hidle, hrun⟩
    · rw [hoff] at hstep
      cases hstep
    · rw [hact] at hstep
      cases hstep with
      | answer h => exact h hnone
    · rw [hidle] at hstep
      cases hstep with
      | select h =>
        rw [beginTurn_of_heldUp hp ho hr hrun] at h
        exact h rfl
  · rcases h j m r hm hr with hoff | ⟨i, keys, b, path, holds, hact', _⟩ | ⟨_, hrun⟩
    · rw [hact] at hoff
      cases hoff
    · rw [hact] at hact'
      cases hact'
    · rw [beginTurn_of_heldUp hp ho hr hrun] at hmoves
      exact hmoves rfl

/-! ## A jam lasts -/

/-- The same but for how the runs are stored. -/
structure Alike (w w' : Workshop) : Prop where
  crew : w'.crew = w.crew
  runs : ∀ b : BuildId, w'.runs[b]? = w.runs[b]?
  services : w'.services = w.services
  foreign : w'.foreign = w.foreign

theorem Alike.refl (w : Workshop) : Alike w w := ⟨rfl, fun _ => rfl, rfl, rfl⟩

theorem Alike.trans {w'' : Workshop} (h : Alike w w') (h' : Alike w' w'') : Alike w w'' :=
  ⟨h'.crew.trans h.crew, fun b => (h'.runs b).trans (h.runs b), h'.services.trans h.services,
    h'.foreign.trans h.foreign⟩

theorem Jammed.congr (h : w.Jammed) (ha : Alike w w') : w'.Jammed := by
  intro j m r hm hr
  rw [ha.crew] at hm
  rw [ha.runs] at hr
  rw [Awaits, ha.services, ha.foreign]
  exact h j m r hm hr

/-- Storing a run where it is stored already changes nothing. -/
theorem alike_setRun (hr : w.runs[m.build]? = some r) : Alike w (w.setRun m.build r) := by
  have hruns : ∀ b : BuildId, (w.setRun m.build r).runs[b]? = w.runs[b]? := by
    intro b
    rw [runs_setRun]
    split
    · rename_i hb
      rw [hb, hr]
    · rfl
  refine ⟨rfl, hruns, rfl, ?_⟩
  funext b path
  rw [Workshop.foreign, Workshop.foreign, hruns]
  rfl

theorem Jammed.step (h : w.Jammed) (hp : plans.Sound) (ho : w.Orderly plans staff) (j : Nat) :
    Alike w (w.step j) := by
  rw [Workshop.step]
  cases hm : w.crew[j]? with
  | none => exact .refl w
  | some m =>
    obtain ⟨r, hr, _⟩ := ho.fits j m hm
    simp only [hr]
    rcases h j m r hm hr with hoff | ⟨i, keys, b, path, holds, hact, hnone⟩ | ⟨hidle, hheld⟩
    · simp only [hoff]
      exact .refl w
    · simp only [hact, hnone]
      exact .refl w
    · simp only [hidle, stepIdle, beginTurn_of_heldUp hp ho hr hheld]
      exact alike_setRun hr

/-- Whatever the members do, a jam stays as it is. -/
theorem Jammed.steps (h : w.Jammed) (hp : plans.Sound) (ho : w.Orderly plans staff)
    (js : List Nat) : Alike w (js.foldl Workshop.step w) := by
  induction js generalizing w with
  | nil => exact .refl w
  | cons j js ih =>
    have hstep := h.step hp ho j
    exact hstep.trans (ih (h.congr hstep) (ho.step hp j))

/-! ## Where nobody advances -/

/-- Where no member advances nobody is at work. -/
theorem not_working_of_not_advances (ho : w.Orderly plans staff) (h : ∀ j, ¬ w.Advances j)
    (hm : w.crew[j]? = some m) : ¬ m.activity.Working := by
  obtain ⟨r, hr, hfits⟩ := ho.fits j m hm
  intro hwork
  cases hact : m.activity with
  | acting i keys steps outcome =>
    rw [hact] at hfits
    cases hfits with
    | acting => exact h j ⟨m, r, hm, hr, hact ▸ .finish⟩
  | calling => exact h j ⟨m, r, hm, hr, hact ▸ .call⟩
  | _ =>
    rw [hact] at hwork
    exact hwork

theorem unleased_of_not_working (ho : w.Orderly plans staff)
    (h : ∀ (j : Nat) (m : Member), w.crew[j]? = some m → ¬ m.activity.Working) :
    w.services.table.Unleased := by
  intro v
  cases hv : w.services.table.leases[v]? with
  | none => rfl
  | some count =>
    obtain ⟨_, k, m, hm, _, hwork⟩ := ho.leases v count hv
    exact absurd hwork (h k m hm)

theorem unlocked_of_not_working (ho : w.Orderly plans staff)
    (h : ∀ (j : Nat) (m : Member), w.crew[j]? = some m → ¬ m.activity.Working) :
    w.services.table.Unlocked := by
  intro key
  cases hv : w.services.table.owner? key with
  | none => rfl
  | some v =>
    obtain ⟨k, m, hm, _, hkey⟩ := ho.owners key v hv
    obtain ⟨r, hr, hfits⟩ := ho.fits k m hm
    have hwork := h k m hm
    generalize m.activity = activity at hkey hfits hwork
    cases hfits with
    | acting => exact absurd trivial hwork
    | _ => exact absurd hkey List.not_mem_nil

theorem heldUp_congr {r' : Run} {stop : Bool} {foreign : Foreign} (h : r'.HeldUp stop foreign)
    (hplan : r'.plan = r.plan) (hprogress : r'.progress = r.progress) :
    r.HeldUp stop foreign := by
  obtain ⟨plan, progress, exports⟩ := r
  obtain ⟨plan', progress', exports'⟩ := r'
  simp only at hplan hprogress
  subst hplan hprogress
  refine ⟨h.ready, fun i n hs hn => ?_, h.busy⟩
  have hheld := h.held i n hs hn
  exact ⟨hheld.stop, hheld.dependencies, hheld.reason⟩

/-- Where no member advances a busy one can only be one that waits for another build. -/
theorem awaits_of_busy (ho : w.Orderly plans staff) (h : ∀ j, ¬ w.Advances j)
    (hm : w.crew[j]? = some m) (hr : w.runs[m.build]? = some r) (hbusy : m.activity.index? ≠ none) :
    w.Awaits m := by
  have hwork := not_working_of_not_advances ho h hm
  cases hact : m.activity with
  | idle => simp [hact, Activity.index?] at hbusy
  | off => simp [hact, Activity.index?] at hbusy
  | acting => exact absurd (by rw [hact]; trivial) hwork
  | calling => exact absurd (by rw [hact]; trivial) hwork
  | awaiting i keys b path holds =>
    refine ⟨i, keys, b, path, holds, hact, ?_⟩
    by_contra hsome
    exact h j ⟨m, r, hm, hr, hact ▸ .answer hsome⟩
  | resuming i keys holds outcome =>
    have hunleased := unleased_of_not_working ho fun _ _ hm => not_working_of_not_advances ho h hm
    exact absurd ⟨m, r, hm, hr, hact ▸ .resume (hunleased.restore? m.worker holds)⟩ (h j)

theorem free_of_not_advances (hp : plans.Sound) (ho : w.Orderly plans staff)
    (h : ∀ j, ¬ w.Advances j) {b : BuildId} (hr : w.runs[b]? = some r) :
    r.Free w.services.table := by
  have hwork : ∀ (j : Nat) (m : Member), w.crew[j]? = some m → ¬ m.activity.Working :=
    fun _ _ hm => not_working_of_not_advances ho h hm
  refine ⟨unleased_of_not_working ho hwork, unlocked_of_not_working ho hwork, fun i n hi hn => ?_⟩
  obtain ⟨k, m, hm, rfl, hindex⟩ := ho.tended b r i hr hi
  obtain ⟨i', keys, d, path, holds, hact, _⟩ := awaits_of_busy ho h hm hr (by simp [hindex])
  obtain ⟨r', hr', hfits⟩ := ho.fits k m hm
  rw [hr, Option.some.injEq] at hr'
  subst hr'
  rw [hact] at hindex hfits
  cases hindex
  cases hfits with
  | awaiting _ hn' hw =>
    cases hn.symm.trans hn'
    exact hp.footprint _ _ i _ d path (ho.plan_eq hr) hn hw

/-- Where no member advances, a member that selects has to wait and finds its run held up. -/
theorem heldUp_of_not_advances (hp : plans.Sound) (ho : w.Orderly plans staff)
    (h : ∀ j, ¬ w.Advances j) (hm : w.crew[j]? = some m) (hr : w.runs[m.build]? = some r)
    (hidle : m.activity = .idle) :
    (r.select w.services.stopRequested w.foreign w.services.locks m.worker
        w.services.table).1 = .wait ∧
      (r.select w.services.stopRequested w.foreign w.services.locks m.worker
        w.services.table).2.1.HeldUp w.services.stopRequested w.foreign := by
  have hwait : (r.select w.services.stopRequested w.foreign w.services.locks m.worker
      w.services.table).1 = .wait := by
    by_contra hne
    exact h j ⟨m, r, hm, hr, hidle ▸ .select hne⟩
  exact ⟨hwait, Run.heldUp_of_wait (free_of_not_advances hp ho h hr) (ho.consistent _ _ hr)
    (hp.sound _ _ (ho.plan_eq hr)) hwait⟩

theorem jammed_of_not_enabled (hp : plans.Sound) (ho : w.Orderly plans staff)
    (h : ∀ j, ¬ w.Enabled j) : w.Jammed := by
  have hadv : ∀ j, ¬ w.Advances j := fun j hj => h j (.inl hj)
  intro j m r hm hr
  cases hact : m.activity with
  | off => exact .inl rfl
  | idle =>
    refine .inr (.inr ⟨rfl, ?_⟩)
    have hprogress : (r.select w.services.stopRequested w.foreign w.services.locks m.worker
        w.services.table).2.1.progress = r.progress := by
      by_contra hne
      exact h j (.inr ⟨m, r, hm, hr, hact, hne⟩)
    have hplan := (Run.select_spec r w.services.stopRequested w.foreign w.services.locks m.worker
      w.services.table).chain.plan
    exact heldUp_congr (heldUp_of_not_advances hp ho hadv hm hr hact).2 hplan hprogress
  | _ => exact .inr (.inl (awaits_of_busy ho hadv hm hr (by simp [hact, Activity.index?])))

/-- No member can take a step exactly where the workshop is jammed. -/
theorem jammed_iff (hp : plans.Sound) (ho : w.Orderly plans staff) :
    w.Jammed ↔ ∀ j, ¬ w.Enabled j :=
  ⟨fun h _ => h.not_enabled hp ho, jammed_of_not_enabled hp ho⟩

end Workshop

end Foreman
