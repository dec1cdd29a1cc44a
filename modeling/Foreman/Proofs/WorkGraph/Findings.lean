import Foreman.Proofs.WorkGraph.Closure

/-!
# What the resolver finds while a graph is scheduled

Scheduling resolves the references of each task of the run, relationship by relationship, at the
moment the task joins the run. The findings list the answers in order
(`WorkGraph.scheduleFindings`). A graph is what its findings make of it (`WorkGraph.Surveyed`): its
edges are the targets found, what it rejects are the errors found, and for each task of the run
there is a finding for each relationship.
-/

namespace Foreman

/-- What the resolver answered about one relationship of a task of a build: the targets it found and
the fault that it stopped at. -/
structure Finding where
  build : BuildId
  task : TaskDefinition
  relationship : Relationship
  targets : List Work
  error : Option GraphError

/-- The finding names `y` as related to `x`. -/
def Finding.Names (f : Finding) (x : NodeKey) (r : Relationship) (y : NodeKey) : Prop :=
  x = .task f.task.path ∧ r = f.relationship ∧ ∃ work ∈ f.targets, work.key = y

/-- The finding is an answer of the resolver for a task of the build. -/
structure Finding.IsAnswer {σ : Type} (cross : Option (CrossBuild σ)) (build : BuildId)
    (f : Finding) :
    Prop where
  build_eq : f.build = build
  resolved : ∃ (registry : Registry) (others : σ), registry.build = build ∧
    f.targets = (Resolution.resolve cross f.task f.relationship registry others).1.targets ∧
    f.error = (Resolution.resolve cross f.task f.relationship registry others).2

theorem Registry.Informed.build_eq {r r' : Registry} (h : r.Informed r') : r'.build = r.build := by
  induction h with
  | refl => rfl
  | tail _ hask ih =>
    obtain ⟨id, rfl⟩ := hask
    exact (Registry.build_ask _ id).trans ih

namespace WorkGraph

variable {σ : Type} (cross : Option (CrossBuild σ)) {g g' : WorkGraph} {id : Nat} {n : Node}
  {x y : NodeKey} {r : Relationship} {state : WorkGraph × σ} {log : List Finding}

/-! ## The findings -/

def finding (task : TaskDefinition) (state : WorkGraph × σ) (relationship : Relationship) :
    Finding :=
  let (r, error) := Resolution.resolve cross task relationship state.1.registry state.2
  ⟨state.1.build, task, relationship, r.targets, error⟩

def taskFindings (id : Nat) (task : TaskDefinition) :
    List Relationship → WorkGraph × σ → List Finding
  | [], _ => []
  | relationship :: relationships, state =>
    finding cross task state relationship :: taskFindings id task relationships
      (resolveRelationship cross id task state relationship)

def nodeFindings (id : Nat) (state : WorkGraph × σ) : List Finding :=
  match state.1.nodes[id]? with
  | none => []
  | some n =>
    if n.resolved then []
    else
      match n.work with
      | .task task => taskFindings cross id task Relationship.all
          (state.1.modify id fun n => { n with resolved := true }, state.2)
      | .foreign .. => []

def mergeFindings (ordinal : Nat) : Nat → List (Nat × Bool) → WorkGraph × σ → List Finding
  | fuel, asked, state =>
    match asked.dropWhile state.1.isSettled, fuel with
    | entry :: asked, fuel + 1 =>
      nodeFindings cross entry.1 (state.1.enter ordinal entry, state.2) ++
        let (state, more) := expand cross ordinal entry state
        mergeFindings ordinal fuel (asked ++ more) state
    | _, _ => []

def queuedFindings (state : WorkGraph × σ) : List Finding :=
  let (g, others) := state
  if g.phase ≠ .populating ∨ g.queued.isEmpty then []
  else
    let start := { g with queued := ∅, nextOrdinal := g.nextOrdinal + 1 }
    mergeFindings cross g.nextOrdinal (2 * g.nodeBound) (g.queued.toList.map (·, true))
      (start, others)

def scheduleFindings (paths : List TaskPath) (state : WorkGraph × σ) : List Finding :=
  match state.1.queueAll paths with
  | (_, some _) => []
  | (g, none) => queuedFindings cross (g, state.2)

/-! ## What findings tell of a graph -/

/-- What the graph refers to and rejects is what was found for its build, and what was found was
found for tasks of the run. -/
structure Traced (g : WorkGraph) (log : List Finding) : Prop where
  rejected : g.rejected = [] ↔ ∀ f ∈ log, f.build = g.build → f.error = none
  refers : ∀ x r y, g.Refers x r y ↔ ∃ f ∈ log, f.build = g.build ∧ f.Names x r y
  found : ∀ f ∈ log, f.build = g.build → g.Includes (.task f.task.path)

theorem Forward.includes (h : g.Forward g') (hx : g.Includes x) : g'.Includes x := by
  obtain ⟨i, n, hn, rfl, hs⟩ := hx
  obtain ⟨n', hn', hf⟩ := h.node i n hn
  exact ⟨i, n', hn', hf.key, hf.scheduled hs⟩

theorem Merged.build_eq (h : g.Merged g') : g'.build = g.build := h.registry.build_eq

/-- Changes that leave the edges and the rejected references leave the trace. -/
theorem Traced.congr (h : g.Traced log) (hf : g.Forward g') (hb : g'.build = g.build)
    (hw : g.SameWiring g') (hr : g'.rejected = g.rejected) : g'.Traced log where
  rejected := by
    rw [hr, hb]
    exact h.rejected
  refers x r y := by
    rw [hw.refers_iff, hb]
    exact h.refers x r y
  found f hf' hb' := hf.includes (h.found f hf' (hb'.trans hb))

/-- Findings of other builds do not count. -/
theorem Traced.append (h : g.Traced log) {more : List Finding}
    (hmore : ∀ f ∈ more, f.build ≠ g.build) : g.Traced (log ++ more) := by
  have hmem : ∀ f, f.build = g.build → (f ∈ log ++ more ↔ f ∈ log) := by
    intro f hb
    rw [List.mem_append]
    exact ⟨fun hf => hf.resolve_right fun hf => hmore f hf hb, .inl⟩
  constructor
  · rw [h.rejected]
    exact forall_congr' fun f => ⟨fun hf hm hb => hf ((hmem f hb).1 hm) hb,
      fun hf hm hb => hf ((hmem f hb).2 hm) hb⟩
  · intro x r y
    rw [h.refers]
    exact exists_congr fun f => ⟨fun ⟨hf, hb, hn⟩ => ⟨(hmem f hb).2 hf, hb, hn⟩,
      fun ⟨hf, hb, hn⟩ => ⟨(hmem f hb).1 hf, hb, hn⟩⟩
  · exact fun f hf hb => h.found f ((hmem f hb).1 hf) hb

@[simp] theorem rejected_nodeFor (work : Work) : (g.nodeFor work).1.rejected = g.rejected := by
  rw [nodeFor]
  split <;> rfl

@[simp] theorem rejected_addEdge (g : WorkGraph) (id : Nat) (relationship : Relationship)
    (target : Work) : (g.addEdge id relationship target).rejected = g.rejected := by
  have h := rejected_nodeFor (g := g) target
  rw [addEdge]
  generalize g.nodeFor target = answer at h
  cases relationship <;> exact h

/-- Recording the targets of a relationship adds just those edges. -/
theorem Wired.refers_addEdges (h : g.Wired) (hn : g.nodes[id]? = some n)
    (relationship : Relationship) (targets : List Work) :
    (∀ x r y, (targets.foldl (fun g target => g.addEdge id relationship target) g).Refers x r y ↔
      g.Refers x r y ∨ x = n.key ∧ r = relationship ∧ ∃ work ∈ targets, work.key = y) ∧
    (targets.foldl (fun g target => g.addEdge id relationship target) g).rejected = g.rejected := by
  induction targets generalizing g n with
  | nil => simp
  | cons target targets ih =>
    obtain ⟨n', hn', hf⟩ := (g.addEdge_merged id relationship target).node id n hn
    obtain ⟨hrefers, hrejected⟩ := ih (h.addEdge hn relationship target) hn'
    refine ⟨fun x r y => ?_, hrejected.trans (rejected_addEdge g id relationship target)⟩
    rw [List.foldl_cons, hrefers, h.refers_addEdge hn, hf.key, or_assoc]
    refine or_congr .rfl ⟨?_, ?_⟩
    · rintro (⟨hx, hr, rfl⟩ | ⟨hx, hr, work, hw, rfl⟩)
      · exact ⟨hx, hr, target, List.mem_cons_self .., rfl⟩
      · exact ⟨hx, hr, work, List.mem_cons_of_mem _ hw, rfl⟩
    · rintro ⟨hx, hr, work, hw, rfl⟩
      rcases List.mem_cons.1 hw with rfl | hw
      · exact .inl ⟨hx, hr, rfl⟩
      · exact .inr ⟨hx, hr, work, hw, rfl⟩

theorem Traced.resolveRelationship (h : state.1.Traced log) (hw : state.1.Wired)
    {task : TaskDefinition} (hn : state.1.nodes[id]? = some n) (hwork : n.work = .task task)
    (hs : n.state.isScheduled = true) (relationship : Relationship) :
    (resolveRelationship cross id task state relationship).1.Traced
      (log ++ [finding cross task state relationship]) := by
  have hmerged := resolveRelationship_merged cross id task state relationship
  have hincludes : state.1.Includes (.task task.path) :=
    ⟨id, n, hn, by rw [Node.key, hwork]; rfl, hs⟩
  have hbuild := hmerged.build_eq
  obtain ⟨g, others⟩ := state
  dsimp only at h hw hn hmerged hincludes hbuild
  rw [WorkGraph.resolveRelationship] at hmerged hbuild ⊢
  rw [finding]
  dsimp only
  generalize Resolution.resolve cross task relationship g.registry others = answer
    at hmerged hbuild ⊢
  obtain ⟨r, error⟩ := answer
  dsimp only at hmerged hbuild ⊢
  let g₁ : WorkGraph := { g with registry := r.registry, rejected := g.rejected ++ error.toList }
  have hsame : g.SameWiring g₁ := .of_nodes rfl
  have hwired : g₁.Wired := hsame.wired hw
  have hn₁ : g₁.nodes[id]? = some n := hn
  obtain ⟨hrefers, hrejected⟩ := hwired.refers_addEdges hn₁ relationship r.targets
  have hkey : n.key = .task task.path := by rw [Node.key, hwork]; rfl
  have hlast :
      ∀ P : Finding → Prop, (∀ f ∈ log ++ [⟨g.build, task, relationship, r.targets, error⟩],
      f.build = g.build → P f) ↔ (∀ f ∈ log, f.build = g.build → P f) ∧
        P ⟨g.build, task, relationship, r.targets, error⟩ := by
    intro P
    simp only [List.mem_append, List.mem_singleton, or_imp, forall_and, forall_eq, true_implies]
  refine ⟨?_, fun x r' y => ?_, ?_⟩
  · rw [hbuild, hlast, ← h.rejected, hrejected, List.append_eq_nil_iff]
    cases error <;> simp
  · rw [hrefers, hsame.refers_iff, h.refers, hbuild, hkey]
    constructor
    · rintro (⟨f, hf, hb, hname⟩ | hnew)
      · exact ⟨f, List.mem_append_left _ hf, hb, hname⟩
      · exact ⟨_, List.mem_append_right _ (List.mem_singleton_self _), rfl, hnew⟩
    · rintro ⟨f, hf, hb, hname⟩
      rcases List.mem_append.1 hf with hf | hf
      · exact .inl ⟨f, hf, hb, hname⟩
      · rw [List.mem_singleton] at hf
        subst hf
        exact .inr hname
  · rw [hbuild, hlast]
    exact ⟨fun f hf hb => hmerged.toForward.includes (h.found f hf hb),
      hmerged.toForward.includes hincludes⟩

/-- Resolving the relationships of a task of the run adds their findings; induction is on the
relationships. -/
theorem Traced.resolveAll (h : state.1.Traced log) (ht : state.1.Tidy) {task : TaskDefinition}
    (hn : state.1.nodes[id]? = some n) (hwork : n.work = .task task)
    (hs : n.state.isScheduled = true) (relationships : List Relationship) :
    (relationships.foldl (WorkGraph.resolveRelationship cross id task) state).1.Traced
      (log ++ taskFindings cross id task relationships state) := by
  induction relationships generalizing state n log with
  | nil =>
    rw [taskFindings, List.append_nil]
    exact h
  | cons relationship relationships ih =>
    have hmerged := resolveRelationship_merged cross id task state relationship
    obtain ⟨n', hn', hf⟩ := hmerged.node id n hn
    have hrest := ih (h.resolveRelationship cross ht.wired hn hwork hs relationship)
      (ht.resolveRelationship cross hn hwork relationship) hn' (hf.work.trans hwork)
      (hf.scheduled hs)
    rw [List.append_assoc] at hrest
    exact hrest

theorem exists_taskFinding {task : TaskDefinition} {relationships : List Relationship}
    (hr : r ∈ relationships) (state : WorkGraph × σ) :
    ∃ f ∈ taskFindings cross id task relationships state,
      f.build = state.1.build ∧ f.task = task ∧ f.relationship = r := by
  induction relationships generalizing state with
  | nil => cases hr
  | cons relationship relationships ih =>
    rcases List.mem_cons.1 hr with rfl | hr
    · exact ⟨_, List.mem_cons_self .., rfl, rfl, rfl⟩
    · obtain ⟨f, hf, hb, hrest⟩ := ih hr (resolveRelationship cross id task state relationship)
      exact ⟨f, List.mem_cons_of_mem _ hf,
        hb.trans (resolveRelationship_merged cross id task state relationship).build_eq, hrest⟩

theorem Traced.resolveNode (state : WorkGraph × σ) (h : state.1.Traced log) (ht : state.1.Tidy)
    (hn : state.1.nodes[id]? = some n) (hs : n.state.isScheduled = true) :
    (resolveNode cross id state).1.Traced (log ++ nodeFindings cross id state) := by
  rw [WorkGraph.resolveNode, nodeFindings, hn]
  dsimp only
  split
  · rw [List.append_nil]
    exact h
  · have hsame : state.1.SameWiring (state.1.modify id fun n => { n with resolved := true }) :=
      .modify fun _ => rfl
    have hmerged : state.1.Merged (state.1.modify id fun n => { n with resolved := true }) :=
      modify_merged fun n _ => .same rfl rfl rfl rfl
    have htidy := ht.congr hsame .refl
    have htraced := h.congr hmerged.toForward rfl hsame rfl
    have hn₁ : (state.1.modify id fun n => { n with resolved := true }).nodes[id]? =
        some { n with resolved := true } := by
      rw [getElem?_modify, if_pos rfl, hn]
      rfl
    cases hwork : n.work with
    | task task =>
      exact htraced.resolveAll cross (n := { n with resolved := true }) htidy hn₁ hwork hs
        Relationship.all
    | foreign build path =>
      rw [List.append_nil]
      exact htraced

@[simp] theorem rejected_enter (g : WorkGraph) (ordinal : Nat) (entry : Nat × Bool) :
    (g.enter ordinal entry).rejected = g.rejected := by
  rw [enter]
  dsimp only
  split <;> rfl

@[simp] theorem rejected_lowerDependencies (g : WorkGraph) (n : Node) :
    (g.lowerDependencies n).rejected = g.rejected := by
  rw [lowerDependencies]
  split
  · exact List.foldlRecOn (motive := fun g₁ : WorkGraph => g₁.rejected = g.rejected) _ _ rfl
      fun _ h _ _ => h
  · rfl

theorem Traced.expand (h : state.1.Traced log) (ht : state.1.Tidy) {entry : Nat × Bool}
    (hn : state.1.nodes[entry.1]? = some n) (ordinal : Nat) :
    (expand cross ordinal entry state).1.1.Traced
      (log ++ nodeFindings cross entry.1 (state.1.enter ordinal entry, state.2)) := by
  obtain ⟨n₂, _, he⟩ := expand_eq cross ordinal entry hn
  obtain ⟨n₁, hn₁, _, _, hs, _⟩ := nodes_scheduled_enter hn ordinal entry.2
  have hsame := state.1.enter_sameWiring ordinal entry
  have hmerged := state.1.enter_merged ordinal entry
  have htidy := ht.congr hsame hmerged.registry
  have hresolved := (h.congr hmerged.toForward hmerged.build_eq hsame
    (rejected_enter _ _ _)).resolveNode cross
    (state.1.enter ordinal entry, state.2) htidy hn₁ hs
  rw [he]
  have hlower := lowerDependencies_merged (WorkGraph.resolveNode cross entry.1
    (state.1.enter ordinal entry, state.2)).1 n₂
  exact hresolved.congr hlower.toForward hlower.build_eq (lowerDependencies_sameWiring _ n₂)
    (rejected_lowerDependencies _ n₂)

/-! ## Every task of the run is resolved -/

/-- The tasks of the run are resolved, and for a task that is resolved there is a finding for each
relationship. -/
structure Covered (g : WorkGraph) (log : List Finding) : Prop where
  resolved : ∀ (i : Nat) (n : Node), g.nodes[i]? = some n → n.state.isScheduled = true →
    n.resolved = true
  found : ∀ (i : Nat) (n : Node) task, g.nodes[i]? = some n → n.resolved = true →
    n.work = .task task → ∀ r, ∃ f ∈ log, f.build = g.build ∧ f.task = task ∧ f.relationship = r

/-- Nodes that are left alone are as resolved as they were, and new ones are not. -/
theorem Covered.of_spares {spared : Nat → Prop} (more : List Finding) (h : g.Covered log)
    (hs : g.Spares spared g') (hb : g'.build = g.build)
    (hrest : ∀ (i : Nat) (n : Node), ¬ spared i → g'.nodes[i]? = some n →
      (n.state.isScheduled = true → n.resolved = true) ∧
      ∀ task, n.resolved = true → n.work = .task task →
        ∀ r, ∃ f ∈ log ++ more, f.build = g.build ∧ f.task = task ∧ f.relationship = r) :
    g'.Covered (log ++ more) := by
  have hnew : ∀ n' work, (Node.new work).Alike n' → n'.state.isScheduled = false ∧
      ∀ task, n'.work = .task task → n'.resolved = false := by
    intro n' work ha
    rw [ha.scheduled, ha.work, ha.resolved]
    refine ⟨rfl, fun task hw => ?_⟩
    rw [show work = .task task from hw]
    rfl
  constructor
  · intro i n' hn' hsched
    by_cases hi : spared i
    · obtain ⟨n, ha, hn | ⟨_, work, rfl⟩⟩ := hs.node i n' hi hn'
      · rw [ha.resolved]
        exact h.resolved i n hn (ha.scheduled ▸ hsched)
      · simp [(hnew n' work ha).1] at hsched
    · exact (hrest i n' hi hn').1 hsched
  · intro i n' task hn' hres hw r
    rw [hb]
    by_cases hi : spared i
    · obtain ⟨n, ha, hn | ⟨_, work, rfl⟩⟩ := hs.node i n' hi hn'
      · obtain ⟨f, hf, hrest⟩ := h.found i n task hn (ha.resolved ▸ hres) (ha.work ▸ hw) r
        exact ⟨f, List.mem_append_left _ hf, hrest⟩
      · simp [(hnew n' work ha).2 task hw] at hres
    · exact (hrest i n' hi hn').2 task hres hw r

/-- What was not resolved before is found now. -/
theorem exists_nodeFinding (state : WorkGraph × σ) {task : TaskDefinition}
    (hn : state.1.nodes[id]? = some n)
    (hres : n.resolved = false) (hw : n.work = .task task) (r : Relationship) :
    ∃ f ∈ nodeFindings cross id state,
      f.build = state.1.build ∧ f.task = task ∧ f.relationship = r := by
  rw [nodeFindings, hn]
  simp only [hres, Bool.false_eq_true, if_false, hw]
  have hall : r ∈ Relationship.all := by cases r <;> simp [Relationship.all]
  exact exists_taskFinding cross hall _

theorem Covered.expand (h : state.1.Covered log) {entry : Nat × Bool}
    (hn : state.1.nodes[entry.1]? = some n) (ordinal : Nat) :
    (expand cross ordinal entry state).1.1.Covered
      (log ++ nodeFindings cross entry.1 (state.1.enter ordinal entry, state.2)) := by
  have hmerged := expand_merged cross ordinal entry state
  obtain ⟨n₁, hn₁, hw₁, hr₁, _⟩ := nodes_scheduled_enter hn ordinal entry.2
  refine h.of_spares _ (expand_spares cross ordinal entry state) hmerged.build_eq
    fun i m hi hm => ?_
  have hie : i = entry.1 := by simpa using hi
  subst hie
  obtain ⟨m', hm', hafter⟩ := expand_node cross hn ordinal
  cases hm'.symm.trans hm
  refine ⟨fun _ => hafter.resolved, fun task _ hw r => ?_⟩
  have hwork : n.work = .task task := hafter.work.symm.trans hw
  cases hres : n.resolved with
  | true =>
    obtain ⟨f, hf, hrest⟩ := h.found _ n task hn hres hwork r
    exact ⟨f, List.mem_append_left _ hf, hrest⟩
  | false =>
    obtain ⟨f, hf, hb, hrest⟩ := exists_nodeFinding cross
      (state.1.enter ordinal entry, state.2) hn₁ (hr₁.trans hres) (hw₁.trans hwork) r
    exact ⟨f, List.mem_append_right _ hf,
      hb.trans (state.1.enter_merged ordinal entry).build_eq, hrest⟩

/-! ## What a whole batch finds -/

/-- A graph and what was found for it. -/
structure Surveyed (g : WorkGraph) (log : List Finding) : Prop where
  tidy : g.Tidy
  traced : g.Traced log
  covered : g.Covered log

theorem new_surveyed (registry : Registry) : (new registry).Surveyed [] where
  tidy := new_tidy registry
  traced := by
    refine ⟨by simp [new], fun x r y => ?_, by simp⟩
    simp [Refers, new]
  covered := ⟨by simp [new], by simp [new]⟩

/-- Induction is on the fuel. -/
theorem Surveyed.merge (state : WorkGraph × σ) (h : state.1.Surveyed log) (ordinal fuel : Nat)
    (asked : List (Nat × Bool)) :
    (merge cross ordinal fuel asked state).1.Surveyed
      (log ++ mergeFindings cross ordinal fuel asked state) := by
  induction fuel generalizing asked state log with
  | zero =>
    rw [WorkGraph.merge, mergeFindings]
    · rw [List.append_nil]
      exact h
    · simp
    · simp
  | succ fuel ih =>
    rw [merge.eq_def, mergeFindings.eq_def]
    cases hdrop : asked.dropWhile state.1.isSettled with
    | nil =>
      simp only [hdrop]
      rw [List.append_nil]
      exact h
    | cons entry rest =>
      simp only [hdrop]
      obtain ⟨_, n, hn, _⟩ := exists_open hdrop
      rw [← List.append_assoc]
      exact ih _ ⟨h.tidy.expand cross ordinal entry, h.traced.expand cross h.tidy hn ordinal,
        h.covered.expand cross hn ordinal⟩ _

/-! ## Findings are answers -/

theorem isAnswer_of_mem_taskFindings {task : TaskDefinition} {relationships : List Relationship}
    {f : Finding} (hf : f ∈ taskFindings cross id task relationships state) :
    f.IsAnswer cross state.1.build := by
  induction relationships generalizing state with
  | nil => cases hf
  | cons relationship relationships ih =>
    rcases List.mem_cons.1 hf with rfl | hf
    · exact ⟨rfl, state.1.registry, state.2, rfl, rfl, rfl⟩
    · exact (resolveRelationship_merged cross id task state relationship).build_eq ▸ ih hf

theorem isAnswer_of_mem_nodeFindings {f : Finding} (hf : f ∈ nodeFindings cross id state) :
    f.IsAnswer cross state.1.build := by
  rw [nodeFindings] at hf
  split at hf
  · cases hf
  · split at hf
    · cases hf
    · split at hf
      · have hanswer := isAnswer_of_mem_taskFindings cross hf
        exact hanswer
      · cases hf

theorem isAnswer_of_mem_mergeFindings {ordinal fuel : Nat} {asked : List (Nat × Bool)} {f : Finding}
    (hf : f ∈ mergeFindings cross ordinal fuel asked state) : f.IsAnswer cross state.1.build := by
  induction fuel generalizing asked state with
  | zero =>
    rw [mergeFindings] at hf
    · cases hf
    · simp
  | succ fuel ih =>
    rw [mergeFindings.eq_def] at hf
    cases hdrop : asked.dropWhile state.1.isSettled with
    | nil =>
      simp only [hdrop] at hf
      cases hf
    | cons entry rest =>
      simp only [hdrop] at hf
      rcases List.mem_append.1 hf with hf | hf
      · exact (state.1.enter_merged ordinal entry).build_eq ▸ isAnswer_of_mem_nodeFindings cross hf
      · exact (expand_merged cross ordinal entry state).build_eq ▸ ih hf

/-- Findings of other builds do not count. -/
theorem Surveyed.append (h : g.Surveyed log) {more : List Finding}
    (hmore : ∀ f ∈ more, f.build ≠ g.build) : g.Surveyed (log ++ more) where
  tidy := h.tidy
  traced := h.traced.append hmore
  covered := by
    refine ⟨h.covered.resolved, fun i n task hn hr hw r => ?_⟩
    obtain ⟨f, hf, hrest⟩ := h.covered.found i n task hn hr hw r
    exact ⟨f, List.mem_append_left _ hf, hrest⟩

end WorkGraph

end Foreman
