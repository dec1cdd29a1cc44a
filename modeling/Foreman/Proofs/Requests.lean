import Foreman.Controller
import Foreman.Proofs.WorkGraph.Frozen
import Foreman.Proofs.WorkGraph.Growing
import Mathlib.Data.List.TakeWhile

/-!
# What becomes of the requested tasks

Over any history of requests to a controller, accepted and refused ones, each task that was accepted
is required in the frozen graph, unless a batch dropped it since (`accepted_required`). A batch
drops tasks if one of them is not declared: the queue is emptied before the graph takes the tasks in
order, and those from the first undeclared one on are forgotten (`scheduleQueued_error_iff`). A
later batch knows nothing of them, and the graph is frozen without them (`droppedHistory_forgets`).
-/

namespace Foreman

namespace WorkGraph

variable {g g' : WorkGraph} {path : TaskPath}

/-- A graph is frozen only when nothing is queued, and its nodes stay as they are. -/
theorem queued_of_freeze (h : g.freeze = .ok g') :
    g.queued.isEmpty = true ∧ g'.nodes = g.nodes := by
  obtain ⟨footprints, p, hto⟩ := freeze_spec h
  refine ⟨?_, by rw [hto.eq]; rfl⟩
  simp only [freeze, require, if_pos hto.phase, bind, Except.bind] at h
  split at h
  · assumption
  · cases h

end WorkGraph

namespace Controller

variable {c c' : Controller} {path : TaskPath}

/-! ## What the operations answer -/

theorem eq_of_declare {providers : List (ProviderId × Provider)} {task : TaskDefinition}
    (hok : c.declare providers task = .ok c') :
    ∃ g, c.graph.declare providers task = .ok g ∧ c' = { c with graph := g } := by
  rw [declare] at hok
  cases hg : c.graph.declare providers task with
  | error e => simp [hg, bind, Except.bind] at hok
  | ok g =>
    simp only [hg, bind, Except.bind, pure, Except.pure, Except.ok.injEq] at hok
    exact ⟨g, rfl, hok.symm⟩

theorem eq_of_queue (hok : c.queue path = .ok c') : c' = c.want path := by
  rw [queue] at hok
  cases hr : c.require .discoveringTasks .queueTasks with
  | error e => simp [hr, bind, Except.bind] at hok
  | ok =>
    simp only [hr, bind, Except.bind, pure, Except.pure, Except.ok.injEq] at hok
    exact hok.symm

theorem eq_of_exportTask (hok : c.exportTask path = .ok c') :
    ∃ g, c.graph.handOut path = .ok g ∧
      c' = if c.state = .discoveringTasks then want { c with graph := g } path
        else { c with graph := g } := by
  rw [exportTask] at hok
  cases hg : c.graph.handOut path with
  | error e => simp [hg, bind, Except.bind] at hok
  | ok g =>
    simp only [hg, bind, Except.bind, pure, Except.pure, Except.ok.injEq] at hok
    exact ⟨g, rfl, hok.symm⟩

theorem eq_of_observeTask (hok : c.observeTask path = .ok c') :
    ∃ g, c.graph.handOut path = .ok g ∧ c' = { c with graph := g } := by
  rw [observeTask] at hok
  cases hg : c.graph.handOut path with
  | error e => simp [hg, bind, Except.bind] at hok
  | ok g =>
    simp only [hg, bind, Except.bind, pure, Except.pure, Except.ok.injEq] at hok
    exact ⟨g, rfl, hok.symm⟩

theorem eq_of_stop (hok : c.stop = .ok c') : c' = { c with graph := c.graph.abandonExports } := by
  rw [stop] at hok
  split at hok
  · cases hok
  · exact (Except.ok.inj hok).symm

/-! ## Histories -/

/-- What can be asked of a controller before its graph is frozen. The builds around it may change in
between: a call that schedules finds them as it is told. -/
inductive Request : Type 1
  | declare (providers : List (ProviderId × Provider)) (task : TaskDefinition)
  | queue (path : TaskPath)
  | exportTask (path : TaskPath)
  | observeTask (path : TaskPath)
  | populate {σ : Type} (cross : Option (CrossBuild σ)) (paths : List TaskPath) (others : σ)
  | scheduleQueued {σ : Type} (cross : Option (CrossBuild σ)) (others : σ)

def after (c : Controller) : Request → Controller
  | .declare providers task => (c.declare providers task).toOption.getD c
  | .queue path => (c.queue path).toOption.getD c
  | .exportTask path => (c.exportTask path).toOption.getD c
  | .observeTask path => (c.observeTask path).toOption.getD c
  | .populate cross paths others => (c.populate cross paths others).2.1
  | .scheduleQueued cross others => (c.scheduleQueued cross others).2.1

/-- The task whose execution a request asks for, if the request is accepted. -/
def accepted? (c : Controller) : Request → Option TaskPath
  | .queue path => (c.queue path).toOption.map fun _ => path
  | .exportTask path => (c.exportTask path).toOption.map fun _ => path
  | _ => none

def batch (c : Controller) : List TaskPath :=
  c.queued.toList.filter fun path => !c.graph.isRequired path

/-- The tasks that a request makes the controller forget: those of a batch from the first on that is
not declared. -/
def dropped (c : Controller) : Request → List TaskPath
  | .scheduleQueued .. => c.batch.dropWhile c.graph.registry.contains
  | _ => []

/-- A controller with a record of the tasks it accepted, and of those that it dropped and did not
accept again. -/
structure Ledger where
  controller : Controller
  accepted : List TaskPath
  dropped : List TaskPath

namespace Ledger

def new (registry : Registry) : Ledger := ⟨.new registry, [], []⟩

def after (l : Ledger) (r : Request) : Ledger where
  controller := l.controller.after r
  accepted := l.accepted ++ (l.controller.accepted? r).toList
  dropped := (l.dropped ++ l.controller.dropped r).filter (l.controller.accepted? r ≠ some ·)

def afterAll (l : Ledger) (requests : List Request) : Ledger := requests.foldl after l

end Ledger

/-! ## What a request leaves of the others -/

/-- The task is requested, or it was handed to the graph. -/
def Wants (c : Controller) (path : TaskPath) : Prop := path ∈ c.queued ∨ c.graph.Asked path

/-- A controller whose tasks are being discovered. -/
structure Open (c : Controller) : Prop where
  state : c.state = .discoveringTasks
  phase : c.graph.phase = .populating
  plan : c.graph.plan = none
  keyed : c.graph.registry.Keyed
  numbered : c.graph.Numbered

theorem new_open {registry : Registry} (h : registry.Keyed) : (new registry).Open where
  state := rfl
  phase := rfl
  plan := rfl
  keyed := h
  numbered := by simp [WorkGraph.Numbered, new, WorkGraph.new]

theorem Open.congr (h : c.Open) (hstate : c'.state = c.state)
    (hphase : c'.graph.phase = c.graph.phase) (hplan : c'.graph.plan = c.graph.plan)
    (hregistry : c'.graph.registry = c.graph.registry) (hnodes : c'.graph.nodes = c.graph.nodes)
    (hqueued : c'.graph.queued = c.graph.queued) : c'.Open where
  state := hstate.trans h.state
  phase := hphase.trans h.phase
  plan := hplan.trans h.plan
  keyed := by
    rw [hregistry]
    exact h.keyed
  numbered := by
    rw [WorkGraph.Numbered, hnodes, hqueued]
    exact h.numbered

theorem require_eq (hstate : c.state = .discoveringTasks) (operation : Operation) :
    c.require .discoveringTasks operation = .ok () := by
  rw [require, if_pos hstate]

/-- A controller before and after a request that forgets nothing. -/
structure Carries (c c' : Controller) : Prop where
  isOpen : c'.Open
  wants : ∀ path, c.Wants path → c'.Wants path

theorem want_spec (h : c.Open) (path : TaskPath) :
    Carries c (c.want path) ∧ (c.want path).Wants path := by
  rw [want]
  split
  · rename_i hr
    exact ⟨⟨h, fun _ hp => hp⟩, .inr (WorkGraph.asked_of_isRequired hr)⟩
  · refine ⟨⟨h.congr rfl rfl rfl rfl rfl rfl, fun p hp => ?_⟩, .inl Std.TreeSet.mem_insert_self⟩
    exact hp.imp (fun hq => Std.TreeSet.mem_insert.2 (.inr hq)) id

theorem handOut_carries (h : c.Open) {g : WorkGraph} (hg : c.graph.handOut path = .ok g) :
    Carries c { c with graph := g } := by
  have hspec := WorkGraph.handOut_spec hg
  exact ⟨h.congr rfl hspec.phase hspec.plan hspec.registry hspec.nodes hspec.queued,
    fun p hp => hp.imp id fun ha => ha.congr hspec.nodes hspec.queued⟩

theorem declare_carries (h : c.Open) {providers : List (ProviderId × Provider)}
    {task : TaskDefinition} (hok : c.declare providers task = .ok c') : Carries c c' := by
  obtain ⟨g, hg, rfl⟩ := eq_of_declare hok
  obtain ⟨registry, hr, rfl⟩ := WorkGraph.declare_eq hg
  refine ⟨⟨h.state, h.phase, h.plan, (h.keyed.provideAll providers).register hr, h.numbered⟩,
    fun p hp => ?_⟩
  exact hp.imp id fun ha => ha.congr rfl rfl

theorem queue_spec (h : c.Open) (path : TaskPath) :
    ∃ c', c.queue path = .ok c' ∧ Carries c c' ∧ c'.Wants path := by
  obtain ⟨hcarries, hwants⟩ := want_spec h path
  refine ⟨c.want path, ?_, hcarries, hwants⟩
  rw [queue, require_eq h.state]
  rfl

theorem exportTask_spec (h : c.Open) (hok : c.exportTask path = .ok c') :
    Carries c c' ∧ c'.Wants path := by
  obtain ⟨g, hg, rfl⟩ := eq_of_exportTask hok
  have hcarries := handOut_carries h hg
  obtain ⟨hwant, hwants⟩ := want_spec hcarries.isOpen path
  rw [if_pos h.state]
  exact ⟨⟨hwant.isOpen, fun p hp => hwant.wants p (hcarries.wants p hp)⟩, hwants⟩

theorem observeTask_carries (h : c.Open) (hok : c.observeTask path = .ok c') : Carries c c' := by
  obtain ⟨g, hg, rfl⟩ := eq_of_observeTask hok
  exact handOut_carries h hg

section Batches

variable {σ : Type} (cross : Option (CrossBuild σ)) (others : σ)

/-- What the graph's batch leaves of the controller. -/
theorem isOpen_of_scheduled (h : c.Open) {paths : List TaskPath} {result : Except GraphError Bool}
    {g : WorkGraph} (hs : c.graph.Scheduled paths result g) {queued : Std.TreeSet TaskPath} :
    Open { c with graph := g, queued } where
  state := h.state
  phase := hs.phase.trans h.phase
  plan := hs.plan.trans h.plan
  keyed := h.keyed.informed hs.registry
  numbered := hs.numbered

theorem populate_carries (h : c.Open) (paths : List TaskPath) :
    Carries c (c.populate cross paths others).2.1 := by
  have hs := WorkGraph.schedule_spec cross h.phase h.keyed h.numbered paths others
  rw [populate, require_eq h.state]
  exact ⟨isOpen_of_scheduled h hs, fun p hp => hp.imp id (hs.kept p)⟩

theorem scheduleQueued_eq (hstate : c.state = .discoveringTasks) :
    c.scheduleQueued cross others =
      if c.batch.isEmpty then (.ok false, { c with queued := ∅ }, others)
      else
        let answer := WorkGraph.schedule cross c.batch (c.graph, others)
        (answer.1, { c with queued := ∅, graph := answer.2.1 }, answer.2.2) := by
  rw [scheduleQueued, require_eq hstate]
  rfl

/-- The batch leaves out of the queue what is required already. -/
theorem mem_batch_or_isRequired (hp : path ∈ c.queued) :
    path ∈ c.batch ∨ c.graph.isRequired path = true := by
  by_cases hr : c.graph.isRequired path = true
  · exact .inr hr
  · exact .inl (List.mem_filter.2 ⟨Std.TreeSet.mem_toList.2 hp, by simp [hr]⟩)

/-- A batch keeps what it does not drop. -/
theorem scheduleQueued_spec (h : c.Open) :
    (c.scheduleQueued cross others).2.1.Open ∧ ∀ path, c.Wants path →
      (c.scheduleQueued cross others).2.1.Wants path ∨
        path ∈ c.dropped (.scheduleQueued cross others) := by
  have hrequired : ∀ path ∈ c.queued, path ∉ c.batch → c.graph.Asked path := fun _ hp hb =>
    WorkGraph.asked_of_isRequired ((mem_batch_or_isRequired hp).resolve_left hb)
  have hs := WorkGraph.schedule_spec cross h.phase h.keyed h.numbered c.batch others
  rw [scheduleQueued_eq cross others h.state]
  split
  · rename_i hempty
    refine ⟨h.congr rfl rfl rfl rfl rfl rfl, fun path hp => .inl (.inr ?_)⟩
    rcases hp with hq | ha
    · exact hrequired path hq (by simp [List.isEmpty_iff.1 hempty])
    · exact ha
  · refine ⟨isOpen_of_scheduled h hs, fun path hp => ?_⟩
    rcases hp with hq | ha
    · by_cases hb : path ∈ c.batch
      · rw [← List.takeWhile_append_dropWhile (p := c.graph.registry.contains) (l := c.batch)] at hb
        exact (List.mem_append.1 hb).imp (fun hp => .inr (hs.asked path hp)) id
      · exact .inl (.inr (hs.kept path (hrequired path hq hb)))
    · exact .inl (.inr (hs.kept path ha))

/-- A batch fails exactly when it drops something. -/
theorem scheduleQueued_error_iff (h : c.Open) :
    (∃ e, (c.scheduleQueued cross others).1 = .error e) ↔
      c.dropped (.scheduleQueued cross others) ≠ [] := by
  have hs := WorkGraph.schedule_spec cross h.phase h.keyed h.numbered c.batch others
  have hdrop : c.dropped (.scheduleQueued cross others) = [] ↔
      ∀ path ∈ c.batch, c.graph.registry.contains path = true := List.dropWhile_eq_nil_iff
  rw [ne_eq, hdrop, scheduleQueued_eq cross others h.state]
  split
  · rename_i hempty
    simp [List.isEmpty_iff.1 hempty]
  · rw [← hs.ok]
    cases (WorkGraph.schedule cross c.batch (c.graph, others)).1 <;> simp

end Batches

/-- What a request forgets is what it drops, and what it accepts is wanted. -/
theorem after_spec (h : c.Open) (r : Request) :
    (c.after r).Open ∧ (∀ path, c.Wants path → (c.after r).Wants path ∨ path ∈ c.dropped r) ∧
      ∀ path, c.accepted? r = some path → (c.after r).Wants path := by
  have hkept : ∀ {c'}, Carries c c' →
      c'.Open ∧ ∀ path, c.Wants path → c'.Wants path ∨ path ∈ c.dropped r :=
    fun hc => ⟨hc.isOpen, fun path hp => .inl (hc.wants path hp)⟩
  have hsame : Carries c c := ⟨h, fun _ hp => hp⟩
  cases r with
  | declare providers task =>
    cases hok : c.declare providers task with
    | error e => simpa [after, hok, accepted?, Except.toOption] using hkept hsame
    | ok c' => simpa [after, hok, accepted?, Except.toOption] using hkept (declare_carries h hok)
  | queue path =>
    obtain ⟨c', hok, hcarries, hwants⟩ := queue_spec h path
    simpa [after, hok, accepted?, Except.toOption, hwants] using hkept hcarries
  | exportTask path =>
    cases hok : c.exportTask path with
    | error e => simpa [after, hok, accepted?, Except.toOption] using hkept hsame
    | ok c' =>
      obtain ⟨hcarries, hwants⟩ := exportTask_spec h hok
      simpa [after, hok, accepted?, Except.toOption, hwants] using hkept hcarries
  | observeTask path =>
    cases hok : c.observeTask path with
    | error e => simpa [after, hok, accepted?, Except.toOption] using hkept hsame
    | ok c' =>
      simpa [after, hok, accepted?, Except.toOption] using hkept (observeTask_carries h hok)
  | populate cross paths others =>
    simpa [after, accepted?] using hkept (populate_carries cross others h paths)
  | scheduleQueued cross others =>
    simpa [after, accepted?] using scheduleQueued_spec cross others h

/-- The request is a batch that fails. -/
def Fails (c : Controller) : Request → Prop
  | .scheduleQueued cross others => ∃ e, (c.scheduleQueued cross others).1 = .error e
  | _ => False

namespace Ledger

variable {l : Ledger} {registry : Registry}

/-- Nothing is lost without a record. -/
structure Kept (l : Ledger) : Prop where
  isOpen : l.controller.Open
  wants : ∀ path ∈ l.accepted, path ∉ l.dropped → l.controller.Wants path

theorem Kept.after (h : l.Kept) (r : Request) : (l.after r).Kept := by
  obtain ⟨hopen, hold, hnew⟩ := after_spec h.isOpen r
  refine ⟨hopen, fun path hp hd => ?_⟩
  by_cases ha : l.controller.accepted? r = some path
  · exact hnew path ha
  · simp only [Ledger.after, List.mem_append, Option.mem_toList, ha, or_false] at hp
    simp only [Ledger.after, List.mem_filter, List.mem_append, ne_eq, ha, not_false_eq_true,
      decide_true, and_true, not_or] at hd
    exact (hold path (h.wants path hp hd.1)).resolve_right hd.2

theorem Kept.afterAll (h : l.Kept) (requests : List Request) : (l.afterAll requests).Kept :=
  List.foldlRecOn (motive := Kept) _ _ h fun _ hl r _ => hl.after r

theorem new_kept (h : registry.Keyed) : (new registry).Kept where
  isOpen := new_open h
  wants path hp := by simp [new] at hp

/-- Whatever was asked of a controller, once its graph is frozen every task whose request was
accepted is part of the run and required, unless a failed batch dropped it since. -/
theorem accepted_required (h : registry.Keyed) (requests : List Request) {c' : Controller}
    (hok : ((new registry).afterAll requests).controller.finalize = .ok c') {path : TaskPath}
    (hpath : path ∈ ((new registry).afterAll requests).accepted) :
    c'.graph.isRequired path = true ∨ path ∈ ((new registry).afterAll requests).dropped := by
  have hkept := (new_kept h).afterAll requests
  generalize (new registry).afterAll requests = l at hok hpath hkept
  by_cases hd : path ∈ l.dropped
  · exact .inr hd
  · rw [finalize, require_eq hkept.isOpen.state] at hok
    simp only [bind, Except.bind] at hok
    split at hok
    · rename_i hempty
      cases hg : l.controller.graph.freeze with
      | error e => simp [hg] at hok
      | ok g =>
        simp only [hg, pure, Except.pure, Except.ok.injEq] at hok
        subst hok
        obtain ⟨hqueued, hnodes⟩ := WorkGraph.queued_of_freeze hg
        rcases hkept.wants path hpath hd with hq | ha
        · exact absurd hq (Std.TreeSet.isEmpty_iff_forall_not_mem.1 hempty path)
        · exact .inl ((WorkGraph.isRequired_congr hnodes).trans (ha.isRequired hqueued))
    · cases hok

/-- Where no batch fails nothing is dropped. -/
theorem dropped_afterAll (h : registry.Keyed) (requests : List Request)
    (hbatches : ∀ before r after, requests = before ++ r :: after →
      ¬ ((new registry).afterAll before).controller.Fails r) :
    ((new registry).afterAll requests).dropped = [] := by
  induction requests using List.reverseRecOn with
  | nil => rfl
  | append_singleton requests r ih =>
    have hbefore := ih fun before r' after he => hbatches before r' (after ++ [r]) (by simp [he])
    have hkept := (new_kept h).afterAll requests
    have hr := hbatches requests r [] rfl
    have hstep : (new registry).afterAll (requests ++ [r]) =
        ((new registry).afterAll requests).after r := by
      simp [afterAll]
    rw [hstep]
    generalize (new registry).afterAll requests = l at hbefore hkept hr
    have hdrop : l.controller.dropped r = [] := by
      cases r with
      | scheduleQueued cross others =>
        by_contra hne
        exact hr ((scheduleQueued_error_iff cross others hkept.isOpen).2 hne)
      | _ => rfl
    simp [Ledger.after, hbefore, hdrop]

/-- In a history without a failed batch every accepted request is met. -/
theorem accepted_required_of_batches (h : registry.Keyed) (requests : List Request)
    (hbatches : ∀ before r after, requests = before ++ r :: after →
      ¬ ((new registry).afterAll before).controller.Fails r) {c' : Controller}
    (hok : ((new registry).afterAll requests).controller.finalize = .ok c') {path : TaskPath}
    (hpath : path ∈ ((new registry).afterAll requests).accepted) :
    c'.graph.isRequired path = true := by
  have hdropped := dropped_afterAll h requests hbatches
  exact (accepted_required h requests hok hpath).resolve_right (by simp [hdropped])

/-! ## A history that loses two tasks -/

def frozen (l : Ledger) : Controller := l.controller.finalize.toOption.getD l.controller

theorem eq_frozen (h : l.controller.finalize.toOption.isSome = true) :
    l.controller.finalize = .ok l.frozen := by
  rw [frozen]
  cases hf : l.controller.finalize with
  | error e =>
    rw [hf] at h
    cases h
  | ok c => rfl

def rootTask (name : String) : TaskPath := ⟨":", name⟩

def batchAlone : Request := .scheduleQueued (none : Option (CrossBuild Unit)) ()

/-- Of two requested tasks the first is not declared yet when the batch is made; then it is, and the
batch is tried again. -/
def retriedHistory : List Request :=
  [.declare [] (.plain (rootTask "b")), .queue (rootTask "a"), .queue (rootTask "b"), batchAlone,
    .declare [] (.plain (rootTask "a")), batchAlone]

/-- The first batch fails, the second finds nothing to do, and the graph is frozen without either of
the requested tasks, both declared. -/
theorem retriedHistory_forgets : ∃ l c', l = (new (.empty ⟨"main"⟩)).afterAll retriedHistory ∧
    l.controller.finalize = .ok c' ∧ rootTask "a" ∈ l.accepted ∧ rootTask "b" ∈ l.accepted ∧
    c'.graph.registry.contains (rootTask "a") = true ∧
    c'.graph.registry.contains (rootTask "b") = true ∧ c'.graph.isRequired (rootTask "a") = false ∧
    c'.graph.isRequired (rootTask "b") = false ∧ c'.graph.scheduledTasks = [] := by
  have hok : ((new (.empty ⟨"main"⟩)).afterAll retriedHistory).controller.finalize =
      .ok ((new (.empty ⟨"main"⟩)).afterAll retriedHistory).frozen := eq_frozen (by decide +kernel)
  exact ⟨_, _, rfl, hok, by decide +kernel, by decide +kernel, by decide +kernel, by decide +kernel,
    by decide +kernel, by decide +kernel, by decide +kernel⟩

/-- The same history with a second request for the task that was declared all along, for which there
is a third batch. -/
def repeatedHistory : List Request := retriedHistory ++ [.queue (rootTask "b"), batchAlone]

/-- The task requested again is required; the other one is still lost. -/
theorem repeatedHistory_meets : ∃ c',
    ((new (.empty ⟨"main"⟩)).afterAll repeatedHistory).controller.finalize = .ok c' ∧
      c'.graph.isRequired (rootTask "b") = true ∧ c'.graph.isRequired (rootTask "a") = false := by
  have hok : ((new (.empty ⟨"main"⟩)).afterAll repeatedHistory).controller.finalize =
      .ok ((new (.empty ⟨"main"⟩)).afterAll repeatedHistory).frozen := eq_frozen (by decide +kernel)
  have hpath : rootTask "b" ∈ ((new (.empty ⟨"main"⟩)).afterAll repeatedHistory).accepted := by
    decide +kernel
  have hdropped : rootTask "b" ∉ ((new (.empty ⟨"main"⟩)).afterAll repeatedHistory).dropped := by
    decide +kernel
  exact ⟨_, hok,
    (accepted_required (Registry.empty_keyed _) repeatedHistory hok hpath).resolve_right
    hdropped, by decide +kernel⟩

end Ledger

end Controller

end Foreman
