import Foreman.Proofs.Run.Exporting
import Foreman.Controller
import Foreman.WorkGraph.Schedule

/-!
# A work graph does not look at what became of its exports

Scheduling never reads the exports of a graph (`schedule_withExports`), and freezing reads only
which tasks were handed out. So two graphs that differ in what they have published
(`WorkGraph.Matches`) are populated and frozen in the same way, to the same plan.
-/

namespace Foreman

/-- Exports of the same tasks list them in the same order. -/
theorem Exports.keys_eq {e e' : Exports} (h : ∀ path, path ∈ e' ↔ path ∈ e) : e'.keys = e.keys := by
  -- both lists are sorted and have the same members, once each
  have hnodup : ∀ e : Exports, e.keys.Nodup := fun e =>
    e.distinct_keys.imp fun hne heq => hne (Std.LawfulEqCmp.compare_eq_iff_eq.2 heq)
  have hperm : e'.keys.Perm e.keys := (List.perm_ext_iff_of_nodup (hnodup e') (hnodup e)).2
    fun path => by rw [Std.TreeMap.mem_keys, Std.TreeMap.mem_keys, h]
  refine hperm.eq_of_pairwise (fun a b _ _ hab hba => ?_) e'.ordered_keys e.ordered_keys
  have hswap : compare b a = (compare a b).swap := Std.OrientedCmp.eq_swap
  rw [hswap, hab] at hba
  cases hba

/-- Two answers with the same error, or with related results. -/
inductive Equally {ε α : Type} (R : α → α → Prop) : Except ε α → Except ε α → Prop
  | error (e : ε) : Equally R (.error e) (.error e)
  | ok {a a' : α} (h : R a a') : Equally R (.ok a) (.ok a')

namespace WorkGraph

variable {g g' : WorkGraph} {σ : Type} (exports : Exports)

abbrev withExports (g : WorkGraph) (exports : Exports) : WorkGraph := { g with exports }

/-! ## Populating -/

theorem nodeFor_withExports (work : Work) : (g.withExports exports).nodeFor work =
    ((g.nodeFor work).1.withExports exports, (g.nodeFor work).2) := by
  have hfind : (g.withExports exports).find? work.key = g.find? work.key := rfl
  rw [nodeFor, nodeFor, hfind]
  cases g.find? work.key with
  | some id => rfl
  | none => rfl

theorem addEdge_withExports (id : Nat) (relationship : Relationship) (target : Work) :
    (g.withExports exports).addEdge id relationship target =
      (g.addEdge id relationship target).withExports exports := by
  simp only [addEdge, nodeFor_withExports]
  cases relationship <;> rfl

theorem foldl_withExports {α : Type} {f : WorkGraph → α → WorkGraph}
    (hf : ∀ g a, f (withExports g exports) a = (f g a).withExports exports) (l : List α)
    (g : WorkGraph) : l.foldl f (g.withExports exports) = (l.foldl f g).withExports exports := by
  induction l generalizing g with
  | nil => rfl
  | cons a l ih => rw [List.foldl_cons, List.foldl_cons, hf, ih]

/-- A graph with other exports, and the builds around it. -/
abbrev Swapped (state : WorkGraph × σ) : WorkGraph × σ := (state.1.withExports exports, state.2)

theorem foldl_swapped {α : Type} {f : WorkGraph × σ → α → WorkGraph × σ}
    (hf : ∀ state a, f (Swapped exports state) a = Swapped exports (f state a)) (l : List α)
    (state : WorkGraph × σ) : l.foldl f (Swapped exports state) =
    Swapped exports (l.foldl f state) := by
  induction l generalizing state with
  | nil => rfl
  | cons a l ih => rw [List.foldl_cons, List.foldl_cons, hf, ih]

variable (cross : Option (CrossBuild σ))

theorem resolveRelationship_swapped (id : Nat) (task : TaskDefinition) (relationship : Relationship)
    (state : WorkGraph × σ) :
    resolveRelationship cross id task (Swapped exports state) relationship =
      Swapped exports (resolveRelationship cross id task state relationship) := by
  obtain ⟨g, others⟩ := state
  simp only [resolveRelationship, Swapped]
  exact congrArg (·, _) (foldl_withExports exports
    (fun g target => addEdge_withExports exports id relationship target) _
    { g with
      registry := (Resolution.resolve cross task relationship g.registry others).1.registry
      rejected := g.rejected ++
        (Resolution.resolve cross task relationship g.registry others).2.toList })

theorem resolveNode_swapped (id : Nat) (state : WorkGraph × σ) :
    resolveNode cross id (Swapped exports state) =
      Swapped exports (resolveNode cross id state) := by
  have hnodes : (Swapped exports state).1.nodes = state.1.nodes := rfl
  rw [resolveNode, resolveNode, hnodes]
  cases state.1.nodes[id]? with
  | none => rfl
  | some n =>
    dsimp only
    split
    · rfl
    · cases n.work with
      | task task =>
        exact foldl_swapped exports
          (fun state relationship => resolveRelationship_swapped exports cross id task
            relationship state)
          Relationship.all (state.1.modify id fun n => { n with resolved := true }, state.2)
      | foreign b path => rfl

theorem enter_withExports (ordinal : Nat) (entry : Nat × Bool) :
    (g.withExports exports).enter ordinal entry = (g.enter ordinal entry).withExports exports := by
  simp only [enter]
  by_cases h : (g.nodes[entry.1]?).any (·.state.isScheduled) = true
  · rw [if_pos h, if_pos h]
    rfl
  · rw [if_neg h, if_neg h]
    rfl

theorem lowerDependencies_withExports (n : Node) :
    (g.withExports exports).lowerDependencies n = (g.lowerDependencies n).withExports exports := by
  rw [lowerDependencies, lowerDependencies]
  cases n.ordinal with
  | none => rfl
  | some ordinal => exact foldl_withExports exports (fun _ _ => rfl) _ _

theorem expand_swapped (ordinal : Nat) (entry : Nat × Bool) (state : WorkGraph × σ) :
    expand cross ordinal entry (Swapped exports state) =
      (Swapped exports (expand cross ordinal entry state).1,
        (expand cross ordinal entry state).2) := by
  have hresolved := resolveNode_swapped exports cross entry.1 (state.1.enter ordinal entry, state.2)
  simp only [expand]
  rw [show ((Swapped exports state).1.enter ordinal entry, (Swapped exports state).2) =
    Swapped exports (state.1.enter ordinal entry, state.2) from
      congrArg (·, state.2) (enter_withExports exports ordinal entry), hresolved]
  generalize resolveNode cross entry.1 (state.1.enter ordinal entry, state.2) = resolved
  obtain ⟨g, others⟩ := resolved
  simp only [Swapped, lowerDependencies_withExports]
  cases g.nodes[entry.1]? with
  | none => rfl
  | some n => rfl

/-- How merging goes on: with the first entry for which there is something to do, if there is
one. -/
theorem merge_eq (ordinal fuel : Nat) (asked : List (Nat × Bool)) (state : WorkGraph × σ) :
    merge cross ordinal fuel asked state =
      match asked.dropWhile state.1.isSettled, fuel with
      | entry :: rest, fuel + 1 =>
        merge cross ordinal fuel (rest ++ (expand cross ordinal entry state).2)
          (expand cross ordinal entry state).1
      | _, _ => state := by
  refine Eq.trans (merge.eq_def ..) ?_
  rfl

theorem merge_swapped (ordinal fuel : Nat) (asked : List (Nat × Bool)) (state : WorkGraph × σ) :
    merge cross ordinal fuel asked (Swapped exports state) =
      Swapped exports (merge cross ordinal fuel asked state) := by
  have hsettled : (Swapped exports state).1.isSettled = state.1.isSettled := rfl
  induction fuel generalizing asked state with
  | zero =>
    rw [merge_eq, merge_eq cross ordinal 0 asked state, hsettled]
    cases asked.dropWhile state.1.isSettled <;> rfl
  | succ fuel ih =>
    rw [merge_eq, merge_eq cross ordinal (fuel + 1) asked state, hsettled]
    cases asked.dropWhile state.1.isSettled with
    | nil => rfl
    | cons entry rest =>
      simp only [expand_swapped]
      exact ih _ _ rfl

/-! ## Scheduling -/

theorem scheduleQueued_swapped (state : WorkGraph × σ) :
    scheduleQueued cross (Swapped exports state) =
      (scheduleQueued cross state).map fun (grown, state) => (grown, Swapped exports state) := by
  obtain ⟨g, others⟩ := state
  have hrequire : (g.withExports exports).require .populating .scheduleTasks =
      g.require .populating .scheduleTasks := rfl
  simp only [scheduleQueued, Swapped, hrequire]
  cases g.require .populating .scheduleTasks with
  | error e => rfl
  | ok =>
    simp only [bind, Except.bind]
    by_cases hempty : g.queued.isEmpty = true
    · rw [if_pos hempty, if_pos hempty]
      rfl
    · rw [if_neg hempty, if_neg hempty]
      exact congrArg (fun state => Except.ok (_, state)) (merge_swapped exports cross _ _ _
        ({ g with queued := ∅, nextOrdinal := g.nextOrdinal + 1 }, others))

theorem queue_withExports (path : TaskPath) : (g.withExports exports).queue path =
    (g.queue path).map (·.withExports exports) := by
  have hrequire : (g.withExports exports).require .populating .queueTasks =
      g.require .populating .queueTasks := rfl
  simp only [queue, hrequire, nodeFor_withExports]
  cases g.require .populating .queueTasks with
  | error e => rfl
  | ok =>
    simp only [bind, Except.bind]
    cases g.registry.get? path with
    | none => rfl
    | some task =>
      simp only [pure, Except.pure, Except.map]
      have hnode : ∀ (g : WorkGraph) id f, (g.withExports exports).modify id f =
          (g.modify id f).withExports exports := fun _ _ _ => rfl
      rw [hnode]
      generalize WorkGraph.modify _ _ _ = g'
      by_cases h : (g'.nodes[(g.nodeFor (.task task)).2]?).any
          (fun n => n.state.isScheduled && n.required) = true
      · rw [if_pos h, if_pos h]
      · rw [if_neg h, if_neg h]

theorem queueAll_withExports (paths : List TaskPath) : (g.withExports exports).queueAll paths =
    ((g.queueAll paths).1.withExports exports, (g.queueAll paths).2) := by
  induction paths generalizing g with
  | nil => rfl
  | cons path paths ih =>
    rw [queueAll, queueAll, eachUntilError, eachUntilError, queue_withExports]
    cases g.queue path with
    | error e => rfl
    | ok g => exact ih

/-- Scheduling gives the same answer, and deals in the same way with the other builds. -/
theorem schedule_withExports (paths : List TaskPath) (others : σ) :
    schedule cross paths (g.withExports exports, others) =
      ((schedule cross paths (g, others)).1,
        (schedule cross paths (g, others)).2.1.withExports exports,
        (schedule cross paths (g, others)).2.2) := by
  simp only [schedule, queueAll_withExports]
  cases g.queueAll paths with
  | mk g error =>
    cases error with
    | some e => rfl
    | none =>
      have hbatch := scheduleQueued_swapped exports cross (g, others)
      dsimp only at hbatch ⊢
      rw [hbatch]
      cases scheduleQueued cross (g, others) with
      | error e => rfl
      | ok answer => rfl

/-! ## Graphs that differ in their exports -/

variable {Rel : Exports → Exports → Prop}

/-- Two graphs that agree but for their exports, and these are related. -/
structure Matches (Rel : Exports → Exports → Prop) (g g' : WorkGraph) : Prop where
  eq : g' = g.withExports g'.exports
  exports : Rel g.exports g'.exports

theorem Matches.contains (hr : Exports.Respected Rel) (h : Matches Rel g g') (path : TaskPath) :
    g'.exports.contains path = g.exports.contains path := by
  rw [Bool.eq_iff_iff]
  exact hr.mem h.exports path

theorem Matches.declare (h : Matches Rel g g') (providers : List (ProviderId × Provider))
    (task : TaskDefinition) :
    Equally (Matches Rel) (g.declare providers task) (g'.declare providers task) := by
  obtain ⟨heq, hexports⟩ := h
  rw [heq]
  simp only [WorkGraph.declare]
  cases (g.registry.provideAll providers).register task with
  | error e => exact .error e
  | ok registry => exact .ok ⟨rfl, hexports⟩

/-- Scheduling publishes nothing. -/
theorem exports_of_schedule (paths : List TaskPath) (others : σ) :
    (schedule cross paths (g, others)).2.1.exports = g.exports :=
  congrArg (·.2.1.exports) (schedule_withExports g.exports cross paths others)

theorem Matches.schedule (h : Matches Rel g g') (paths : List TaskPath) (others : σ) :
    (schedule cross paths (g', others)).1 = (schedule cross paths (g, others)).1 ∧
      Matches Rel (schedule cross paths (g, others)).2.1 (schedule cross paths (g', others)).2.1 ∧
      (schedule cross paths (g', others)).2.2 = (schedule cross paths (g, others)).2.2 := by
  obtain ⟨heq, hexports⟩ := h
  rw [heq, schedule_withExports]
  exact ⟨rfl, ⟨rfl, by rw [exports_of_schedule]; exact hexports⟩, rfl⟩

theorem Matches.handOut (hr : Exports.Respected Rel) (h : Matches Rel g g') (path : TaskPath) :
    Equally (Matches Rel) (g.handOut path) (g'.handOut path) := by
  have hcontains := h.contains hr path
  obtain ⟨heq, hexports⟩ := h
  rw [WorkGraph.handOut, WorkGraph.handOut, hcontains, heq]
  split
  · exact .ok ⟨rfl, hexports⟩
  · split
    · exact .error _
    · dsimp only
      split
      · exact .ok ⟨rfl, hr.handOut path hexports⟩
      · exact .error _

/-! ## Freezing -/

theorem planNode_withExports (hcontains : ∀ path, exports.contains path = g.exports.contains path) :
    (g.withExports exports).planNode = g.planNode := by
  funext order p footprint id n
  simp only [planNode, hcontains]
  rfl

theorem planOf_withExports (hcontains : ∀ path, exports.contains path = g.exports.contains path)
    (footprints : List Footprint) (p : Precedence) :
    (g.withExports exports).planOf footprints p = g.planOf footprints p := by
  simp only [planOf, planNode_withExports exports hcontains]
  rfl

theorem Matches.publishUnscheduled (hr : Exports.Respected Rel) (h : Matches Rel g g') :
    Matches Rel g.publishUnscheduled g'.publishUnscheduled := by
  have hfold : ∀ (paths : List TaskPath) (e e' : Exports), Rel e e' →
      Rel
        (paths.foldl
          (fun e path => if g.isScheduled path then e else e.publish path .notExecuted) e)
        (paths.foldl
          (fun e path => if g.isScheduled path then e else e.publish path .notExecuted) e') := by
    intro paths
    induction paths with
    | nil => exact fun _ _ he => he
    | cons path paths ih =>
      intro e e' he
      rw [List.foldl_cons, List.foldl_cons]
      split
      · exact ih _ _ he
      · exact ih _ _ (hr.publish path _ he)
  have hkeys := Exports.keys_eq (hr.mem h.exports)
  have hscheduled : g'.isScheduled = g.isScheduled := by
    rw [h.eq]
    rfl
  refine ⟨by rw [h.eq]; rfl, ?_⟩
  simp only [WorkGraph.publishUnscheduled, hkeys, hscheduled]
  exact hfold _ _ _ h.exports

/-- Both graphs are frozen, to the same plan, or refused for the same reason. -/
theorem Matches.freeze (hr : Exports.Respected Rel) (h : Matches Rel g g') :
    Equally (Matches Rel) g.freeze g'.freeze := by
  have hcontains := h.contains hr
  obtain ⟨heq, hexports⟩ := h
  generalize g'.exports = exports at heq hcontains hexports
  subst heq
  have hrequire : (g.withExports exports).require .populating .finalizeWorkGraph =
      g.require .populating .finalizeWorkGraph := rfl
  have hdependencies : (g.withExports exports).dependencyGraph = g.dependencyGraph := rfl
  have hname : (g.withExports exports).nameOf = g.nameOf := rfl
  have hfootprints : (g.withExports exports).footprints = g.footprints := rfl
  have hmandatory : (g.withExports exports).mandatory = g.mandatory := rfl
  simp only [WorkGraph.freeze, hrequire, hdependencies, hname, hfootprints, hmandatory,
    planOf_withExports exports hcontains]
  cases g.require .populating .finalizeWorkGraph with
  | error e => exact .error e
  | ok =>
    simp only [bind, Except.bind]
    by_cases hqueued : g.queued.isEmpty = true
    · rw [if_pos hqueued, if_pos hqueued]
      cases g.rejected with
      | cons e rest => exact .error e
      | nil =>
        dsimp only [pure, Except.pure]
        cases g.dependencyGraph.checkCycles g.scheduled.toList g.nameOf with
        | error e => exact .error e
        | ok =>
          cases g.footprints with
          | error e => exact .error e
          | ok footprints =>
            dsimp only
            cases g.mandatory.digraph.checkCycles g.scheduled.toList g.nameOf with
            | error e => exact .error e
            | ok => exact .ok (Matches.publishUnscheduled hr ⟨rfl, hexports⟩)
    · rw [if_neg hqueued, if_neg hqueued]
      exact .error _

/-! ## Running -/

theorem Matches.run? (h : Matches Rel g g') : Option.Rel (Run.Matches Rel) g.run? g'.run? := by
  obtain ⟨heq, hexports⟩ := h
  rw [heq]
  simp only [WorkGraph.run?]
  cases g.plan with
  | none => exact .none
  | some plan => exact .some ⟨rfl, rfl, hexports⟩

theorem Matches.keep (h : Matches Rel g g') {r r' : Run} (hr : Run.Matches Rel r r') :
    Matches Rel (g.keep r) (g'.keep r') := by
  refine ⟨?_, hr.exports⟩
  rw [h.eq, WorkGraph.keep, WorkGraph.keep, hr.progress]

theorem Matches.beginExecution (h : Matches Rel g g') :
    Equally (fun a a' => a'.1 = a.1 ∧ Matches Rel a.2 a'.2) g.beginExecution g'.beginExecution := by
  obtain ⟨heq, hexports⟩ := h
  rw [heq]
  have hrequire : (g.withExports g'.exports).require .finalized .executeWorkGraph =
      g.require .finalized .executeWorkGraph := rfl
  simp only [WorkGraph.beginExecution, hrequire]
  cases g.require .finalized .executeWorkGraph with
  | error e => exact .error e
  | ok =>
    simp only [bind, Except.bind]
    cases g.plan with
    | none => exact .error _
    | some plan => exact .ok ⟨rfl, rfl, hexports⟩

theorem Matches.complete (h : Matches Rel g g') :
    Equally (Matches Rel) g.complete g'.complete := by
  obtain ⟨heq, hexports⟩ := h
  rw [heq]
  have hrequire : (g.withExports g'.exports).require .running .completeWorkGraph =
      g.require .running .completeWorkGraph := rfl
  simp only [WorkGraph.complete, hrequire]
  cases g.require .running .completeWorkGraph with
  | error e => exact .error e
  | ok => exact .ok ⟨rfl, hexports⟩

end WorkGraph

end Foreman
