import Foreman.Proofs.Controller.Leading

/-!
# The failures change hands once

However many callers await the completion of a build, and in whatever order they, the job and
everyone else take their steps, the failures that the job ends with are with the controller until
the one call that has claimed them takes them, and that call returns them whole; any other call is
told that the controller is not in the state for it, and leaves it alone (`handed_over`).

The proof follows the call that has claimed the failures (`Desk.Stage`).
-/

namespace Foreman

namespace Controller

variable {c : Controller} {k : Nat}

/-! ## The one that collects -/

namespace Call

/-- The call has not claimed anything, or was refused. -/
inductive Idle : Call → Prop
  | made : Idle made
  | refused (obstacle : Obstacle) :
      Idle (returned (.error (.illegalState .awaitCompletion obstacle)))

theorem not_idle_waiting : ¬ waiting.Idle := nofun

theorem not_idle_taken (failures : List BuildFailure) : ¬ (taken failures).Idle := nofun

theorem not_idle_returned (failures : List BuildFailure) : ¬ (returned (.ok failures)).Idle := nofun

theorem Idle.failures {call : Call} (h : call.Idle) : call.failures = [] := by
  cases h <;> rfl

end Call

namespace Desk

variable {d : Desk} {owner : Option Nat} {failures : List BuildFailure}

/-- Where the failures are, by the call that has claimed them. -/
inductive Stage (d : Desk) : Option Nat → Prop
  | free (hstate : d.controller.state ≠ .finished)
    (hkept : d.controller.completion.failures = d.report.getD []) : Stage d none
  | waiting (k : Nat) (hcall : d.calls[k]? = some .waiting)
      (hstate : d.controller.state = .runningTasks)
    (hkept : d.controller.completion.failures = d.report.getD []) : Stage d (some k)
  | taken (k : Nat) (failures : List BuildFailure) (hcall : d.calls[k]? = some (.taken failures))
    (hstate : d.controller.state = .runningTasks) (hreport : d.report = some failures)
    (hempty : d.controller.completion.failures = []) : Stage d (some k)
  | returned (k : Nat) (failures : List BuildFailure)
    (hcall : d.calls[k]? = some (.returned (.ok failures)))
    (hstate : d.controller.state = .finished)
    (hreport : d.report = some failures) (hempty : d.controller.completion.failures = []) :
    Stage d (some k)

/-- The controller, its calls and the report go together. -/
structure Orderly (d : Desk) (owner : Option Nat) : Prop where
  led : Led d.controller d.report
  claimed : d.controller.completion.claimed = owner.isSome
  finished : d.controller.completion.finished = d.report.isSome
  idle : ∀ (k : Nat) call, d.calls[k]? = some call → owner ≠ some k → call.Idle
  stage : d.Stage owner

theorem new_orderly (build : BuildId) : (new build).Orderly none where
  led := .discovering (new_open (Registry.empty_keyed build)) rfl
  claimed := rfl
  finished := rfl
  idle k call hk := by simp [new] at hk
  stage := .free (by simp [new, Controller.new]) rfl

/-- The controller changes, but neither its state nor what has ended. -/
theorem Orderly.carry (h : d.Orderly owner) (hled : Led c d.report)
    (hstate : c.state = d.controller.state) (hcompletion : c.completion = d.controller.completion) :
    Orderly { d with controller := c } owner where
  led := hled
  claimed := by rw [hcompletion, h.claimed]
  finished := by rw [hcompletion, h.finished]
  idle := h.idle
  stage := by
    cases h.stage with
    | free hs hkept => exact .free (hstate ▸ hs) (by rw [hcompletion, hkept])
    | waiting k hcall hs hkept =>
      exact .waiting k hcall (hstate.trans hs) (by rw [hcompletion, hkept])
    | taken k failures hcall hs hreport hempty =>
      exact .taken k failures hcall (hstate.trans hs) hreport (by rw [hcompletion, hempty])
    | returned k failures hcall hs hreport hempty =>
      exact .returned k failures hcall (hstate.trans hs) hreport (by rw [hcompletion, hempty])

/-- Before the start nobody has claimed anything, so that the state may go on. -/
theorem Orderly.advance (h : d.Orderly owner) (hled : Led c d.report)
    (hs : d.controller.state = .discoveringTasks ∨ d.controller.state = .readyToRun)
    (hstate : c.state ≠ .finished) (hcompletion : c.completion = d.controller.completion) :
    Orderly { d with controller := c } owner := by
  have hpending := h.led.pending hs
  have hclaimed := h.claimed
  rw [hpending] at hclaimed
  have howner : owner = none := Option.isNone_iff_eq_none.1 (by
    rw [← Option.not_isSome, ← hclaimed]
    rfl)
  subst howner
  refine ⟨hled,
    by rw [hcompletion, h.claimed], by rw [hcompletion, h.finished], h.idle, .free hstate ?_⟩
  cases h.stage with
  | free _ hkept => rw [hcompletion, hkept]

/-- One more call. -/
theorem Orderly.call (h : d.Orderly owner) : (d.after .call).Orderly owner := by
  have hold : ∀ (k : Nat) call, d.calls[k]? = some call →
      (d.calls ++ [Call.made])[k]? = some call := by
    intro k call hk
    rw [List.getElem?_append_left (List.getElem?_eq_some_iff.1 hk).1, hk]
  refine ⟨h.led, h.claimed, h.finished, fun k call hk hne => ?_, ?_⟩
  · rw [after, List.getElem?_append] at hk
    split at hk
    · exact h.idle k call hk hne
    · cases List.mem_singleton.1 (List.mem_of_getElem? hk)
      exact .made
  · cases h.stage with
    | free hs hkept => exact .free hs hkept
    | waiting k hcall hs hkept => exact .waiting k (hold k _ hcall) hs hkept
    | taken k failures hcall hs hreport hempty =>
      exact .taken k failures (hold k _ hcall) hs hreport hempty
    | returned k failures hcall hs hreport hempty =>
      exact .returned k failures (hold k _ hcall) hs hreport hempty

/-! ## The job ends -/

theorem atWork?_eq_some {r : Run} (h : d.atWork? = some r) : d.controller.state = .runningTasks ∧
    d.report = none ∧ d.controller.graph.run? = some r := by
  rw [atWork?] at h
  split at h
  · rename_i hwork
    exact ⟨hwork.1, hwork.2, h⟩
  · cases h

/-- While the job is at it its run is in order. -/
theorem Orderly.audited (h : d.Orderly owner) {r : Run} (hr : d.atWork? = some r) : r.Audited := by
  obtain ⟨hstate, hreport, hrun⟩ := atWork?_eq_some hr
  obtain ⟨r', hr', haudited⟩ := (h.led.at_work hstate).2 hreport
  cases hrun.symm.trans hr'
  exact haudited

/-- The job ends, and tells the controller. -/
theorem Orderly.ends (h : d.Orderly owner) {r : Run} (hr : d.atWork? = some r)
    (hstate : c.state = d.controller.state) (hphase : c.graph.phase = d.controller.graph.phase)
    (hcompletion : c.completion = d.controller.completion.finish failures) :
    Orderly { d with controller := c, report := some failures } owner := by
  obtain ⟨hs, hreport, _⟩ := atWork?_eq_some hr
  refine ⟨.running _ (hstate.trans hs) (hphase.trans (h.led.at_work hs).1) (by simp), ?_, ?_,
    h.idle, ?_⟩
  · rw [hcompletion]
    exact h.claimed
  · rw [hcompletion]
    rfl
  · have hkept : ∀ {kept}, d.controller.completion.failures = kept → kept = d.report.getD [] →
        c.completion.failures = failures := by
      rintro _ hfailures rfl
      rw [hcompletion, Completion.finish, hfailures, hreport]
      rfl
    cases h.stage with
    | free hne hfree => exact .free (hstate ▸ hne) (hkept hfree rfl)
    | waiting k hcall _ hwaits => exact .waiting k hcall (hstate.trans hs) (hkept hwaits rfl)
    | taken k _ _ _ htaken => simp [htaken] at hreport
    | returned k _ _ hfinished => simp [hfinished] at hs

/-! ## A call goes on -/

/-- The first claim while the tasks are running is granted. -/
theorem claim_eq_error (h : ¬ (c.state = .runningTasks ∧ c.completion.claimed = false)) :
    ∃ obstacle, c.claim = .error (.illegalState .awaitCompletion obstacle) := by
  by_cases hs : c.state = .runningTasks
  · have hclaimed : c.completion.claimed = true := by simpa [hs] using h
    refine ⟨.alreadyAwaited c.build, ?_⟩
    simp [claim, require, hs, hclaimed, bind, Except.bind]
  · refine ⟨.controllerIs c.build c.state, ?_⟩
    simp [claim, require, hs, bind, Except.bind]

/-- A controller that is told while its tasks are running takes note. -/
theorem conclude_eq (hphase : c.graph.phase = .running) : c.conclude =
    .ok { c with graph := { c.graph with phase := .completed }, state := .finished } := by
  simp [conclude, WorkGraph.complete, WorkGraph.require, hphase, bind, Except.bind, pure,
    Except.pure]

/-- The call that has claimed the failures is not idle, and it is the only one. -/
theorem Orderly.owner_eq (h : d.Orderly owner) {call : Call} (hk : d.calls[k]? = some call)
    (hidle : ¬ call.Idle) : owner = some k := by
  by_contra hne
  exact hidle (h.idle k call hk hne)

/-- An idle call has not claimed the failures. -/
theorem Orderly.ne_owner (h : d.Orderly owner) {call : Call} (hk : d.calls[k]? = some call)
    (hidle : call.Idle) : owner ≠ some k := by
  rintro rfl
  cases h.stage with
  | waiting _ hcall =>
    cases hk.symm.trans hcall
    exact Call.not_idle_waiting hidle
  | taken _ failures hcall =>
    cases hk.symm.trans hcall
    exact Call.not_idle_taken failures hidle
  | returned _ failures hcall =>
    cases hk.symm.trans hcall
    exact Call.not_idle_returned failures hidle

/-- A call that has claimed nothing returns. -/
theorem Orderly.reply (h : d.Orderly owner) {call : Call} (hidle : call.Idle)
    (hk : owner ≠ some k) :
    Orderly { d with calls := d.calls.set k call } owner where
  led := h.led
  claimed := h.claimed
  finished := h.finished
  idle j other hj hne := by
    rw [List.getElem?_set] at hj
    split at hj
    · split at hj
      · cases hj
        exact hidle
      · cases hj
    · exact h.idle j other hj hne
  stage := by
    have hother : ∀ {j : Nat} {other : Call}, owner = some j → d.calls[j]? = some other →
        (d.calls.set k call)[j]? = some other := by
      rintro j other rfl hj
      rwa [List.getElem?_set_ne fun hkj => hk (congrArg some hkj.symm)]
    cases h.stage with
    | free hs hkept => exact .free hs hkept
    | waiting j hcall hs hkept => exact .waiting j (hother rfl hcall) hs hkept
    | taken j failures hcall hs hreport hempty =>
      exact .taken j failures (hother rfl hcall) hs hreport hempty
    | returned j failures hcall hs hreport hempty =>
      exact .returned j failures (hother rfl hcall) hs hreport hempty

/-- The call that has claimed the failures, or is about to, goes on. -/
theorem Orderly.own (h : d.Orderly owner) {call : Call} (howner : ∀ j, owner = some j → j = k)
    (hled : Led c d.report) (hclaimed : c.completion.claimed = true)
    (hfinished : c.completion.finished = d.report.isSome)
    (hstage : Stage { d with controller := c, calls := d.calls.set k call } (some k)) :
    Orderly { d with controller := c, calls := d.calls.set k call } (some k) where
  led := hled
  claimed := hclaimed
  finished := hfinished
  idle j other hj hne := by
    have hjk : k ≠ j := fun hkj => hne (congrArg some hkj)
    rw [List.getElem?_set_ne hjk] at hj
    exact h.idle j other hj fun ho => hjk (howner j ho).symm
  stage := hstage

theorem getElem?_set_of_getElem? {calls : List Call} {old : Call} (hk : calls[k]? = some old)
    (new : Call) : (calls.set k new)[k]? = some new := by
  rw [List.getElem?_set_self (List.getElem?_eq_some_iff.1 hk).1]

theorem set_of_getElem? {calls : List Call} {call : Call} (hk : calls[k]? = some call) :
    calls.set k call = calls := by
  obtain ⟨hlt, rfl⟩ := List.getElem?_eq_some_iff.1 hk
  exact List.set_getElem_self hlt

theorem after_proceed {call : Call} (hk : d.calls[k]? = some call) : d.after (.proceed k) =
    { d with
      controller := (call.next d.controller).2
      calls := d.calls.set k (call.next d.controller).1 } := by
  rw [after, hk]

/-- The first call that looks while the tasks are running claims the failures. -/
theorem Orderly.proceed_claim (h : d.Orderly owner) (hk : d.calls[k]? = some .made)
    (hstate : d.controller.state = .runningTasks)
    (hclaimed : d.controller.completion.claimed = false) :
    (d.after (.proceed k)).Orderly (some k) := by
  -- no call has claimed anything before, so this one becomes the owner
  have howner : owner = none := by
    rw [h.claimed] at hclaimed
    simpa using hclaimed
  subst howner
  simp only [after_proceed hk, Call.next, claim_eq_ok hstate hclaimed]
  refine h.own (fun j hj => absurd hj (Option.some_ne_none j).symm) ?_ rfl h.finished ?_
  · obtain ⟨hphase, hrun⟩ := h.led.at_work hstate
    exact .running _ hstate hphase hrun
  · cases h.stage with
    | free _ hkept => exact .waiting k (getElem?_set_of_getElem? hk _) hstate hkept

/-- The call that has claimed the failures takes them, once the job has ended. -/
theorem Orderly.proceed_waiting (h : d.Orderly owner) (hk : d.calls[k]? = some .waiting) :
    (d.after (.proceed k)).Orderly owner := by
  have howner := h.owner_eq hk Call.not_idle_waiting
  subst howner
  rw [after_proceed hk]
  cases hf : d.controller.completion.finished with
  | false =>
    simp only [Call.next, take?, hf, Bool.false_eq_true, if_false]
    rw [set_of_getElem? hk]
    exact h
  | true =>
    simp only [Call.next, take?, hf, if_true]
    obtain ⟨failures, hreport⟩ := Option.isSome_iff_exists.1 (h.finished.symm.trans hf)
    cases h.stage with
    | waiting _ _ hstate hkept =>
      rw [hreport, Option.getD_some] at hkept
      rw [hkept]
      obtain ⟨hphase, hrun⟩ := h.led.at_work hstate
      exact h.own (fun j hj => (Option.some.inj hj).symm) (.running _ hstate hphase hrun) h.claimed
        (by simp [hreport]) (.taken k failures (getElem?_set_of_getElem? hk _) hstate hreport rfl)
    | taken _ _ hcall => simp [hk] at hcall
    | returned _ _ hcall => simp [hk] at hcall

/-- The call that has taken the failures returns them, and the controller is finished. -/
theorem Orderly.proceed_taken (h : d.Orderly owner) (hk : d.calls[k]? = some (.taken failures)) :
    (d.after (.proceed k)).Orderly owner := by
  have howner := h.owner_eq hk (Call.not_idle_taken failures)
  subst howner
  rw [after_proceed hk]
  cases h.stage with
  | waiting _ hcall => simp [hk] at hcall
  | taken _ failures' hcall hstate hreport hempty =>
    cases hk.symm.trans hcall
    simp only [Call.next, conclude_eq (h.led.at_work hstate).1]
    exact h.own (fun j hj => (Option.some.inj hj).symm) (.finished _ rfl) h.claimed h.finished
      (.returned k failures (getElem?_set_of_getElem? hk _) rfl hreport hempty)
  | returned _ _ hcall => simp [hk] at hcall

/-- A call goes on. -/
theorem Orderly.proceed (h : d.Orderly owner) (k : Nat) :
    ∃ owner', (d.after (.proceed k)).Orderly owner' := by
  cases hk : d.calls[k]? with
  | none =>
    rw [after, hk]
    exact ⟨owner, h⟩
  | some call =>
    cases call with
    | made =>
      by_cases hgrant : d.controller.state = .runningTasks ∧ d.controller.completion.claimed = false
      · exact ⟨some k, h.proceed_claim hk hgrant.1 hgrant.2⟩
      · obtain ⟨obstacle, hclaim⟩ := claim_eq_error hgrant
        simp only [after_proceed hk, Call.next, hclaim]
        exact ⟨owner, h.reply (.refused obstacle) (h.ne_owner hk .made)⟩
    | waiting => exact ⟨owner, h.proceed_waiting hk⟩
    | taken failures => exact ⟨owner, h.proceed_taken hk⟩
    | returned answer =>
      simp only [after_proceed hk, Call.next]
      rw [set_of_getElem? hk]
      exact ⟨owner, h⟩

/-- Whatever is done with the controller, everything goes together again. -/
theorem Orderly.after (h : d.Orderly owner) (x : Dealing) :
    ∃ owner', (d.after x).Orderly owner' := by
  have hsame : ∃ owner', d.Orderly owner' := ⟨owner, h⟩
  cases x with
  | request r =>
    exact ⟨owner, h.carry (h.led.after r) (state_after h.led r) (completion_after _ r)⟩
  | finalize =>
    rw [Desk.after]
    cases hok : d.controller.finalize with
    | error e => exact hsame
    | ok c =>
      have hled := h.led.finalize hok
      obtain ⟨hs, g, _, rfl⟩ := eq_of_finalize hok
      exact ⟨owner, h.advance hled (.inl hs) (by simp [Except.toOption]) rfl⟩
  | start =>
    rw [Desk.after]
    cases hok : d.controller.start with
    | error e => exact hsame
    | ok c =>
      have hled := h.led.start hok
      obtain ⟨hs, rfl⟩ := eq_of_start hok
      exact ⟨owner, h.advance hled (.inr hs) (by simp [Except.toOption]) rfl⟩
  | stop =>
    rw [Desk.after]
    cases hok : d.controller.stop with
    | error e => exact hsame
    | ok c =>
      have hled := h.led.stop hok
      cases eq_of_stop hok
      exact ⟨owner, h.carry hled rfl rfl⟩
  | call => exact ⟨owner, h.call⟩
  | proceed k => exact h.proceed k
  | work u =>
    rw [Desk.after]
    cases hr : d.atWork? with
    | none => exact hsame
    | some r =>
      obtain ⟨hs, hreport, hrun⟩ := atWork?_eq_some hr
      have hchain := Run.use_chain r u
      refine ⟨owner, h.carry (.running _ hs (h.led.at_work hs).1 fun _ => ⟨r.use u, ?_, ?_⟩) rfl
        rfl⟩
      · exact run?_keep hrun hchain.plan
      · exact ((h.audited hr).entries hchain).1
  | endJob =>
    rw [Desk.after]
    cases hr : d.atWork? with
    | none => exact hsame
    | some r => exact ⟨owner, h.ends hr rfl rfl rfl⟩
  | abort error =>
    rw [Desk.after]
    cases hr : d.atWork? with
    | none => exact hsame
    | some r =>
      dsimp only
      rw [refuse_eq (atWork?_eq_some hr).2.2]
      exact ⟨owner, h.ends hr rfl rfl rfl⟩

theorem exists_orderly (build : BuildId) (dealings : List Dealing) :
    ∃ owner, ((new build).afterAll dealings).Orderly owner :=
  List.foldlRecOn (motive := fun d => ∃ owner, Orderly d owner) _ _ ⟨none, new_orderly build⟩
    fun _ ⟨_, h⟩ x _ => h.after x

/-! ## The handover -/

/-- All the failures there are, by who has them: the controller, then each call. -/
def holdings (d : Desk) : List (List BuildFailure) :=
  d.controller.completion.failures :: d.calls.map Call.failures

/-- What the job has reported is in one place and whole, and one call at most returns it. -/
structure HandedOver (d : Desk) : Prop where
  once : ∀ (k l : Nat) fs gs, d.calls[k]? = some (.returned (.ok fs)) →
    d.calls[l]? = some (.returned (.ok gs)) → k = l
  whole : ∀ (k : Nat) fs, d.calls[k]? = some (.returned (.ok fs)) → d.report = some fs
  refused : ∀ (k : Nat) e, d.calls[k]? = some (.returned (.error e)) →
    ∃ obstacle, e = .illegalState .awaitCompletion obstacle
  finished : d.controller.state = .finished →
    ∃ (k : Nat) (fs : _), d.calls[k]? = some (.returned (.ok fs))
  held : d.holdings.filter (· ≠ []) = d.report.toList.filter (· ≠ [])

/-- What the next dealing does about the failures. -/
structure HandsOver (d : Desk) : Prop where
  /-- The job reports all failures of its run. -/
  ended : ∀ r, d.atWork? = some r → (d.after .endJob).report = some r.progress.failures
  aborted : ∀ r error, d.atWork? = some r →
    (d.after (.abort error)).report = some [.executionAborted d.controller.build error]
  lasting : ∀ fs x, d.report = some fs → (d.after x).report = some fs
  /-- A call claims the failures if it is the first while the tasks are running. -/
  claimed : ∀ k : Nat, d.calls[k]? = some .made → d.controller.state = .runningTasks →
    d.controller.completion.claimed = false → (d.after (.proceed k)).calls[k]? = some .waiting
  /-- Any other call is refused. -/
  refuses : ∀ k : Nat, d.calls[k]? = some .made →
    ¬ (d.controller.state = .runningTasks ∧ d.controller.completion.claimed = false) →
    ∃ obstacle, (d.after (.proceed k)).calls[k]? =
      some (.returned (.error (.illegalState .awaitCompletion obstacle)))
  /-- A call that is refused changes nothing. -/
  unchanged : ∀ (k : Nat) e, (d.after (.proceed k)).calls[k]? = some (.returned (.error e)) →
    (d.after (.proceed k)).controller = d.controller
  taken : ∀ (k : Nat) fs, d.calls[k]? = some .waiting → d.report = some fs →
    (d.after (.proceed k)).calls[k]? = some (.taken fs)
  returned : ∀ (k : Nat) fs, d.calls[k]? = some (.taken fs) →
    (d.after (.proceed k)).calls[k]? = some (.returned (.ok fs)) ∧
      (d.after (.proceed k)).controller.state = .finished
  /-- Only the call that has taken the failures ends the running. -/
  finishing : ∀ x, d.controller.state ≠ .finished → (d.after x).controller.state = .finished →
    ∃ (k : Nat) (fs : _), x = .proceed k ∧ d.calls[k]? = some (.taken fs) ∧ d.report = some fs

theorem filter_eq_nil_of_idle {calls : List Call}
    (h : ∀ (k : Nat) call, calls[k]? = some call → call.failures = []) :
    (calls.map Call.failures).filter (· ≠ []) = [] := by
  refine List.filter_eq_nil_iff.2 fun failures hmem => ?_
  obtain ⟨call, hcall, rfl⟩ := List.mem_map.1 hmem
  obtain ⟨k, hk⟩ := List.mem_iff_getElem?.1 hcall
  simp [h k call hk]

/-- Where one call at most has failures these are all the calls have. -/
theorem filter_eq_of_idle {calls : List Call} {k : Nat} {call : Call} (hk : calls[k]? = some call)
    (h : ∀ (j : Nat) other, calls[j]? = some other → j ≠ k → other.failures = []) :
    (calls.map Call.failures).filter (· ≠ []) = [call.failures].filter (· ≠ []) := by
  induction calls generalizing k with
  | nil => cases hk
  | cons first calls ih =>
    cases k with
    | zero =>
      cases hk
      rw [List.map_cons, List.filter_cons, List.filter_cons, filter_eq_nil_of_idle fun j other hj =>
        h (j + 1) other hj (Nat.succ_ne_zero j)]
      rfl
    | succ k =>
      have hfirst := h 0 first rfl (Nat.zero_ne_add_one k)
      rw [List.map_cons, List.filter_cons, if_neg (by simp [hfirst])]
      exact ih hk fun j other hj hne => h (j + 1) other hj (by omega)

theorem Orderly.handedOver (h : d.Orderly owner) : d.HandedOver := by
  have hreturned : ∀ {k : Nat} {fs}, d.calls[k]? = some (.returned (.ok fs)) →
      owner = some k ∧ d.report = some fs := by
    intro k fs hk
    have howner := h.owner_eq hk (Call.not_idle_returned fs)
    refine ⟨howner, ?_⟩
    subst howner
    cases h.stage with
    | waiting _ hcall => simp [hk] at hcall
    | taken _ _ hcall => simp [hk] at hcall
    | returned _ _ hcall _ hreport =>
      cases hk.symm.trans hcall
      exact hreport
  have hothers : ∀ {k : Nat}, owner = some k → ∀ (j : Nat) other, d.calls[j]? = some other → j ≠ k →
      other.failures = [] := by
    rintro k rfl j other hj hne
    exact (h.idle j other hj fun hjk => hne (Option.some.inj hjk).symm).failures
  constructor
  · intro k l fs gs hk hl
    exact Option.some.inj ((hreturned hk).1.symm.trans (hreturned hl).1)
  · exact fun k fs hk => (hreturned hk).2
  · intro k e hk
    have hne : owner ≠ some k := by
      rintro rfl
      cases h.stage with
      | waiting _ hcall => simp [hk] at hcall
      | taken _ _ hcall => simp [hk] at hcall
      | returned _ _ hcall => simp [hk] at hcall
    cases h.idle k _ hk hne with
    | refused obstacle => exact ⟨obstacle, rfl⟩
  · intro hfinished
    cases h.stage with
    | free hne => exact absurd hfinished hne
    | waiting _ _ hstate => simp [hfinished] at hstate
    | taken _ _ _ hstate => simp [hfinished] at hstate
    | returned k failures hcall => exact ⟨k, failures, hcall⟩
  · rw [holdings, List.filter_cons]
    cases h.stage with
    | free _ hkept =>
      rw [hkept, filter_eq_nil_of_idle fun k call hk =>
        (h.idle k call hk (Option.some_ne_none k).symm).failures]
      cases d.report <;> simp [List.filter_cons]
    | waiting k hcall _ hkept =>
      rw [hkept, filter_eq_of_idle hcall (hothers rfl)]
      cases d.report <;> simp [List.filter_cons, Call.failures]
    | taken k failures hcall _ hreport hempty =>
      rw [hempty, hreport, filter_eq_of_idle hcall (hothers rfl)]
      rfl
    | returned k failures hcall _ hreport hempty =>
      rw [hempty, hreport, filter_eq_of_idle hcall (hothers rfl)]
      rfl

/-- A call that was taking the failures returns them, and the controller is finished. -/
theorem Orderly.next_taken (h : d.Orderly owner) (hk : d.calls[k]? = some (.taken failures)) :
    d.report = some failures ∧ ∃ c, (Call.taken failures).next d.controller =
      (.returned (.ok failures), c) ∧ c.state = .finished := by
  have howner := h.owner_eq hk (Call.not_idle_taken failures)
  subst howner
  cases h.stage with
  | waiting _ hcall => simp [hk] at hcall
  | taken _ _ hcall hstate hreport =>
    cases hk.symm.trans hcall
    refine ⟨hreport, ?_⟩
    simp only [Call.next, conclude_eq (h.led.at_work hstate).1]
    exact ⟨_, rfl, rfl⟩
  | returned _ _ hcall => simp [hk] at hcall

/-- No other step of a call lets the controller be finished. -/
theorem state_next {call : Call} (hcall : ∀ failures, call ≠ .taken failures) (c : Controller) :
    (call.next c).2.state = c.state := by
  cases call with
  | made =>
    by_cases hgrant : c.state = .runningTasks ∧ c.completion.claimed = false
    · simp only [Call.next, claim_eq_ok hgrant.1 hgrant.2]
    · obtain ⟨obstacle, hclaim⟩ := claim_eq_error hgrant
      simp only [Call.next, hclaim]
  | waiting =>
    simp only [Call.next, take?]
    cases c.completion.finished <;> rfl
  | taken failures => exact absurd rfl (hcall failures)
  | returned answer => rfl

theorem Orderly.finishing (h : d.Orderly owner) (x : Dealing) (hne : d.controller.state ≠ .finished)
    (hfinished : (d.after x).controller.state = .finished) :
    ∃ (k : Nat) (fs : _), x = .proceed k ∧ d.calls[k]? = some (.taken fs) ∧ d.report = some fs := by
  have hsame : ∀ {c : Controller}, c.state = d.controller.state → c.state ≠ .finished :=
    fun hc => hc ▸ hne
  cases x with
  | request r => exact absurd hfinished (hsame (state_after h.led r))
  | finalize =>
    rw [Desk.after] at hfinished
    cases hok : d.controller.finalize with
    | error e => exact absurd (by simpa [hok, Except.toOption] using hfinished) hne
    | ok c =>
      obtain ⟨_, g, _, rfl⟩ := eq_of_finalize hok
      simp [hok, Except.toOption] at hfinished
  | start =>
    rw [Desk.after] at hfinished
    cases hok : d.controller.start with
    | error e => exact absurd (by simpa [hok, Except.toOption] using hfinished) hne
    | ok c =>
      obtain ⟨_, rfl⟩ := eq_of_start hok
      simp [hok, Except.toOption] at hfinished
  | stop =>
    rw [Desk.after] at hfinished
    cases hok : d.controller.stop with
    | error e => exact absurd (by simpa [hok, Except.toOption] using hfinished) hne
    | ok c =>
      cases eq_of_stop hok
      exact absurd (by simpa [hok, Except.toOption] using hfinished) hne
  | call => exact absurd hfinished hne
  | proceed k =>
    cases hk : d.calls[k]? with
    | none =>
      rw [Desk.after, hk] at hfinished
      exact absurd hfinished hne
    | some call =>
      by_cases htaken : ∃ failures, call = .taken failures
      · obtain ⟨failures, rfl⟩ := htaken
        exact ⟨k, failures, rfl, hk, (h.next_taken hk).1⟩
      · rw [after_proceed hk] at hfinished
        exact absurd hfinished (hsame (state_next (fun failures hf => htaken ⟨failures, hf⟩) _))
  | work u =>
    rw [Desk.after] at hfinished
    cases hr : d.atWork? with
    | none => exact absurd (by simpa [hr] using hfinished) hne
    | some r => exact absurd (by simpa [hr] using hfinished) hne
  | endJob =>
    rw [Desk.after] at hfinished
    cases hr : d.atWork? with
    | none => exact absurd (by simpa [hr] using hfinished) hne
    | some r => exact absurd (by simpa [hr, finishJob_eq] using hfinished) hne
  | abort error =>
    rw [Desk.after] at hfinished
    cases hr : d.atWork? with
    | none => exact absurd (by simpa [hr] using hfinished) hne
    | some r =>
      simp only [hr, refuse_eq (atWork?_eq_some hr).2.2] at hfinished
      exact absurd hfinished hne

/-- What the job has reported stays. -/
theorem report_after {fs : List BuildFailure} (hreport : d.report = some fs) (x : Dealing) :
    (d.after x).report = some fs := by
  have hrest : d.atWork? = none := by
    rw [atWork?, if_neg]
    simp [hreport]
  cases x with
  | proceed k =>
    rw [after]
    split
    · exact hreport
    · exact hreport
  | work u => rw [after, hrest]; exact hreport
  | endJob => rw [after, hrest]; exact hreport
  | abort error => rw [after, hrest]; exact hreport
  | _ => exact hreport

theorem Orderly.handsOver (h : d.Orderly owner) : d.HandsOver where
  ended r hr := by
    rw [Desk.after, hr]
    exact congrArg some (jobFailures_eq (h.audited hr).error _)
  aborted r error hr := by rw [Desk.after, hr]
  lasting fs x hreport := report_after hreport x
  claimed k hk hs hclaimed := by
    simp only [after_proceed hk, Call.next, claim_eq_ok hs hclaimed]
    exact getElem?_set_of_getElem? hk _
  refuses k hk hgrant := by
    obtain ⟨obstacle, hclaim⟩ := claim_eq_error hgrant
    refine ⟨obstacle, ?_⟩
    simp only [after_proceed hk, Call.next, hclaim]
    exact getElem?_set_of_getElem? hk _
  unchanged k e he := by
    cases hk : d.calls[k]? with
    | none => rw [Desk.after, hk]
    | some call =>
      rw [after_proceed hk] at he ⊢
      simp only [getElem?_set_of_getElem? hk, Option.some.injEq] at he
      cases call with
      | made =>
        by_cases hgrant : d.controller.state = .runningTasks ∧
          d.controller.completion.claimed = false
        · simp [Call.next, claim_eq_ok hgrant.1 hgrant.2] at he
        · obtain ⟨obstacle, hclaim⟩ := claim_eq_error hgrant
          simp only [Call.next, hclaim]
      | waiting =>
        simp only [Call.next, take?] at he
        cases hf : d.controller.completion.finished <;> simp [hf] at he
      | taken failures =>
        obtain ⟨_, c, hnext, _⟩ := h.next_taken hk
        simp [hnext] at he
      | returned answer => rfl
  taken k fs hk hreport := by
    have hfinished : d.controller.completion.finished = true := by rw [h.finished, hreport]; rfl
    have howner := h.owner_eq hk Call.not_idle_waiting
    subst howner
    have hkept : d.controller.completion.failures = fs := by
      cases h.stage with
      | waiting _ _ _ hkept => rw [hkept, hreport, Option.getD_some]
      | taken _ _ hcall => simp [hk] at hcall
      | returned _ _ hcall => simp [hk] at hcall
    simp only [after_proceed hk, Call.next, take?, hfinished, if_true, hkept]
    exact getElem?_set_of_getElem? hk _
  returned k fs hk := by
    obtain ⟨_, c, hnext, hstate⟩ := h.next_taken hk
    rw [after_proceed hk, hnext]
    exact ⟨getElem?_set_of_getElem? hk _, hstate⟩
  finishing := h.finishing

/-- However many callers await the completion of a build, and whatever else is done with it in
between, the failures are handed over once, whole, and to one of them. -/
theorem handed_over (build : BuildId) (dealings : List Dealing) :
    ((new build).afterAll dealings).HandedOver ∧ ((new build).afterAll dealings).HandsOver := by
  obtain ⟨owner, h⟩ := exists_orderly build dealings
  exact ⟨h.handedOver, h.handsOver⟩

/-- Two calls are made while the only task fails. The second one claims the failures before the
first one looks, and gets them. -/
example :
    let task : TaskPath := ⟨":", "build"⟩
    let select : Run.Use :=
      .select false false (fun _ _ => none) (fun _ _ => none) ⟨true⟩ 0 (.empty 1)
    let d := (new ⟨"main"⟩).afterAll
      [.request (.declare [] (.plain task)), .request (.queue task),
        .request (.scheduleQueued (none : Option (CrossBuild Unit)) ()), .finalize, .start, .call,
        .call, .proceed 1, .work select, .proceed 0, .work (.finish 0 (.failure ⟨"broken", []⟩)),
        .endJob, .proceed 1, .proceed 1]
    d.calls.map Call.failures = [[], [.taskFailed task ⟨"broken", []⟩]] ∧
      d.controller.state = .finished := by
  decide +kernel

end Desk

end Controller

end Foreman
