import Foreman.Proofs.BuildTree.Entailing

/-!
# What the builds of a tree owe each other

A record keeps beside a tree, as its tasks are discovered, what its callers asked for and what
failed batches dropped. After any calls each task on which a task of another build depends is due,
unless a failed batch dropped it (`Kept.met`), and all that the runs contain is entailed by what the
callers asked for (`Kept.rooted`). A call is a turn of one build, which asks the others
(`Kept.turn`).
-/

namespace Foreman

namespace BuildTree

variable {t t' : BuildTree} {builds others : Std.TreeMap BuildId Controller} {b d : BuildId}
  {c c' : Controller} {path p : TaskPath} {key : NodeKey}

/-! ## What a call leaves of a build -/

/-- What calls for these tasks, and batches of them, make of a controller. -/
structure Advanced (c c' : Controller) (paths : List TaskPath) : Prop where
  isOpen : c'.Open
  settled : c'.graph.Settled
  forward : c.graph.Forward c'.graph
  rooted : ∀ roots, c.graph.Rooted roots → paths ⊆ roots → c'.graph.Rooted roots
  queued : ∀ p ∈ c'.queued, p ∈ c.queued ∨ p ∈ paths

/-- Calls that leave the nodes of the graph alone. -/
theorem Advanced.of_nodes (hopen : c'.Open) (hset : c.graph.Settled)
    (hphase : c'.graph.phase = c.graph.phase) (hnodes : c'.graph.nodes = c.graph.nodes)
    (hwaiting : c'.graph.queued = c.graph.queued)
    (hdeclared : ∀ task, c.graph.registry.Declares task → c'.graph.registry.Declares task)
    {paths : List TaskPath} (hqueued : ∀ p ∈ c'.queued, p ∈ c.queued ∨ p ∈ paths) :
    Advanced c c' paths where
  isOpen := hopen
  settled := hset.congr hnodes hdeclared
  forward := .of_nodes hphase hnodes
  rooted _ h _ := h.congr hphase hnodes hwaiting
  queued := hqueued

theorem advanced_schedule {σ : Type} (cross : Option (CrossBuild σ)) (hopen : c.Open)
    (hset : c.graph.Settled) (paths : List TaskPath) (others : σ) {queued : Std.TreeSet TaskPath}
    (hqueued : ∀ p ∈ queued, p ∈ c.queued) :
    Advanced c
      { c with queued, graph := (WorkGraph.schedule cross paths (c.graph, others)).2.1 } paths := by
  have hs := WorkGraph.schedule_spec cross hopen.phase hopen.keyed hopen.numbered paths others
  exact ⟨Controller.isOpen_of_scheduled hopen hs, hset.schedule cross paths others, hs.toForward,
    fun _ h hpaths => h.schedule cross hset hopen.keyed hpaths others,
      fun p hp => .inl (hqueued p hp)⟩

/-! ## Calls -/

/-- What can be called on a tree while its tasks are discovered; more than one task is requested,
and all builds are scheduled, by several such calls. -/
inductive Call
  | serve (services : Services)
  | addBuild (registry : Registry) (keyed : registry.Keyed)
  | declare (build : BuildId) (providers : List (ProviderId × Provider)) (task : TaskDefinition)
  | queue (build : BuildId) (path : TaskPath)
  | exportTask (build : BuildId) (path : TaskPath)
  | observeTask (build : BuildId) (path : TaskPath)
  | stop (build : BuildId)
  | populate (build : BuildId) (paths : List TaskPath)
  | scheduleQueued (build : BuildId)

def change {ε : Type} (t : BuildTree) (build : BuildId) (f : Controller → Except ε Controller) :
    BuildTree :=
  match (t.controller? build).map f with
  | some (.ok c) => t.setController build c
  | _ => t

/-- The tree after a call; one that is refused leaves it as it is. -/
def after (t : BuildTree) : Call → BuildTree
  | .serve services => { t with services }
  | .addBuild registry _ => (t.addBuild registry).toOption.getD t
  | .declare build providers task => t.change build (·.declare providers task)
  | .queue build path => t.change build (·.queue path)
  | .exportTask build path => t.change build (·.exportTask path)
  | .observeTask build path => t.change build (·.observeTask path)
  | .stop build => t.change build (·.stop)
  | .populate build paths =>
    match t.controller? build with
    | none => t
    | some c => (t.withOthers build c (Controller.populate (some crossBuild) paths)).2
  | .scheduleQueued build => (scheduleBuild build (t, false)).1.1

def accepts {ε : Type} (t : BuildTree) (build : BuildId) (f : Controller → Except ε Controller) :
    Bool :=
  ((t.controller? build).map f).any fun result => result.toBool

/-- The tasks that a call asks to run, where it is accepted. -/
def calls (t : BuildTree) : Call → List TreeTask
  | .queue build path => if t.accepts build (·.queue path) then [(build, path)] else []
  | .exportTask build path => if t.accepts build (·.exportTask path) then [(build, path)] else []
  | .populate build paths => if (t.controller? build).isSome then paths.map (build, ·) else []
  | _ => []

/-- The tasks that a call takes from the queue of their build and does not hand to the run: the
whole batch, where it fails. -/
def drops (t : BuildTree) : Call → List TreeTask
  | .scheduleQueued build =>
    match t.controller? build with
    | none => []
    | some c =>
      match (c.scheduleQueued (some crossBuild) t.builds).1 with
      | .ok _ => []
      | .error _ => c.batch.map (build, ·)
  | _ => []

/-- A tree with a record of the tasks that were asked for, and of those that failed batches dropped
and that did not become due again. -/
structure Record where
  tree : BuildTree
  called : List TreeTask
  dropped : List TreeTask

namespace Record

def new (services : Services) : Record := ⟨.new services, [], []⟩

/-- The record when the tree becomes `t'` by a call that asks for some tasks and drops others. -/
def next (l : Record) (t' : BuildTree) (calls drops : List TreeTask) : Record :=
  ⟨t', l.called ++ calls, (l.dropped ++ drops).filter fun task => !isDue t'.builds task⟩

def after (l : Record) (call : Call) : Record :=
  l.next (l.tree.after call) (l.tree.calls call) (l.tree.drops call)

def afterAll (l : Record) (calls : List Call) : Record := calls.foldl after l

/-! ## What every call keeps -/

variable {l : Record}

/-- Where a task of a build depends on one of another build, that one is due there or was dropped,
and what a build runs or is asked to run is entailed by what was asked for. -/
structure Kept (l : Record) : Prop where
  assembled : l.tree.Assembled
  isOpen : ∀ (b : BuildId) (c : Controller), l.tree.builds[b]? = some c → c.Open
  settled : ∀ (b : BuildId) (c : Controller), l.tree.builds[b]? = some c → c.graph.Settled
  met : ∀ (b : BuildId) (c : Controller) x d p, l.tree.builds[b]? = some c →
    c.graph.Refers x .dependency (.foreign d p) → isDue l.tree.builds (d, p) = true ∨
    (d, p) ∈ l.dropped
  queued : ∀ (b : BuildId) (c : Controller), l.tree.builds[b]? = some c → ∀ p ∈ c.queued,
    Entailed l.tree.builds l.called true b (.task p)
  rooted : ∀ (b : BuildId) (c : Controller), l.tree.builds[b]? = some c → ∃ roots,
    c.graph.Rooted roots ∧ ∀ p ∈ roots, Entailed l.tree.builds l.called true b (.task p)

theorem new_kept (services : Services) : (new services).Kept where
  assembled := .new services
  isOpen b c hc := by simp [new, BuildTree.new] at hc
  settled b c hc := by simp [new, BuildTree.new] at hc
  met b c x d p hc := by simp [new, BuildTree.new] at hc
  queued b c hc := by simp [new, BuildTree.new] at hc
  rooted b c hc := by simp [new, BuildTree.new] at hc

/-- A task that is not due and was not dropped before is none of those that the record knows. -/
theorem isDue_or_mem_next {calls drops : List TreeTask} {task : TreeTask}
    (h : isDue t'.builds task = true ∨ task ∈ l.dropped ++ drops) :
    isDue (l.next t' calls drops).tree.builds task = true ∨
      task ∈ (l.next t' calls drops).dropped := by
  by_cases hdue : isDue t'.builds task = true
  · exact .inl hdue
  · exact .inr (List.mem_filter.2 ⟨h.resolve_left hdue, by simpa using hdue⟩)

/-- A required task is entailed. -/
theorem Kept.entailed_of_isRequired (h : l.Kept) (hc : l.tree.builds[b]? = some c)
    (hr : c.graph.isRequired p = true) : Entailed l.tree.builds l.called true b (.task p) := by
  obtain ⟨roots, hrooted, hroots⟩ := h.rooted b c hc
  obtain ⟨i, n, hn, hkey, _, hreq⟩ :=
    (WorkGraph.isRequired_iff_exists (h.settled b c hc).wired.distinct).1 hr
  exact hkey ▸ entailed_of_needed hc hroots (hrooted.confined.required i n hn hreq)

theorem Kept.entailed_of_isDue (h : l.Kept) (hdue : isDue l.tree.builds (b, p) = true) :
    Entailed l.tree.builds l.called true b (.task p) := by
  obtain ⟨c, hc, hdue⟩ := (Option.any_eq_true _ _).1 hdue
  rcases Controller.isDue_iff.1 hdue with hq | hr
  · exact h.queued b c hc p hq
  · exact h.entailed_of_isRequired hc hr

/-- One build does something, for which it asks the others: controller `c` becomes `c'`, and the
builds that it sees become `others`. -/
structure Turn (l : Record) (b : BuildId) (c c' : Controller)
    (others : Std.TreeMap BuildId Controller) (t' : BuildTree) (paths : List TaskPath)
    (calls drops : List TreeTask) : Prop where
  owner : l.tree.builds[b]? = some c
  assembled : t'.Assembled
  builds : t'.builds = others.insert b c'
  solicited : AllSolicited l.tree.builds others
  charged : WorkGraph.Charged AllDiscovering (fun builds b p => isDue builds (b, p) = true)
    (c.graph, l.tree.builds) (c'.graph, others)
  advanced : Advanced c c' paths
  paths : ∀ p ∈ paths, p ∈ c.queued ∨ (b, p) ∈ calls
  due : ∀ p, c.isDue p = true → c'.isDue p = true ∨ (b, p) ∈ drops

section Turn

variable {paths : List TaskPath} {calls drops : List TreeTask} {e e' : Controller} {required : Bool}

theorem Turn.own (ht : l.Turn b c c' others t' paths calls drops) : t'.builds[b]? = some c' := by
  rw [ht.builds, Std.TreeMap.getElem?_insert_self]

/-- The other builds were only asked. -/
theorem Turn.other (ht : l.Turn b c c' others t' paths calls drops) (hd : d ≠ b)
    (he : t'.builds[d]? = some e') : ∃ e, l.tree.builds[d]? = some e ∧
      Controller.Solicited e e' ∧ others[d]? = some e' := by
  rw [ht.builds, getElem?_insert_ne hd] at he
  have hasked := ht.solicited d
  rw [he] at hasked
  obtain ⟨e, he₀, hasked⟩ := exists_of_rel_some hasked
  exact ⟨e, he₀, hasked, he⟩

theorem Turn.further (ht : l.Turn b c c' others t' paths calls drops)
    (he : l.tree.builds[d]? = some e) : ∃ e', t'.builds[d]? = some e' ∧
      e.graph.Forward e'.graph := by
  by_cases hd : d = b
  · subst hd
    cases ht.owner.symm.trans he
    exact ⟨c', ht.own, ht.advanced.forward⟩
  · have hasked := ht.solicited d
    rw [he] at hasked
    obtain ⟨e', he', hasked⟩ := exists_of_some_rel hasked
    exact ⟨e', by rw [ht.builds, getElem?_insert_ne hd, he'], hasked.forward⟩

theorem Turn.mono (ht : l.Turn b c c' others t' paths calls drops)
    (hx : Entailed l.tree.builds l.called required d key) :
    Entailed t'.builds (l.called ++ calls) required d key :=
  hx.mono (fun _ _ => ht.further) (List.subset_append_left _ _)

theorem Turn.entailed (ht : l.Turn b c c' others t' paths calls drops) (h : l.Kept)
    (hp : p ∈ paths) :
    Entailed t'.builds (l.called ++ calls) true b (.task p) := by
  rcases ht.paths p hp with hq | hcall
  · exact ht.mono (h.queued b c ht.owner p hq)
  · exact .called (List.mem_append_right _ hcall)

theorem Turn.rooted (ht : l.Turn b c c' others t' paths calls drops) (h : l.Kept) :
    ∃ roots, c'.graph.Rooted roots ∧
      ∀ p ∈ roots, Entailed t'.builds (l.called ++ calls) true b (.task p) := by
  obtain ⟨roots, hr, hroots⟩ := h.rooted b c ht.owner
  refine ⟨roots ++ paths, ht.advanced.rooted _ (hr.mono (List.subset_append_left _ _))
    (List.subset_append_right _ _), fun p hp => ?_⟩
  exact (List.mem_append.1 hp).elim (fun hp => ht.mono (hroots p hp)) (ht.entailed h)

/-- What is due in another build was so before, or a task of the run depends on it. -/
theorem Turn.entailed_of_isDue (ht : l.Turn b c c' others t' paths calls drops) (h : l.Kept)
    (hdue : isDue others (d, p) = true) :
    Entailed t'.builds (l.called ++ calls) true d (.task p) := by
  rcases ht.charged.caused d p hdue with hold | ⟨x, ⟨i, n, hn, rfl, hs⟩, href⟩
  · exact ht.mono (h.entailed_of_isDue hold)
  · obtain ⟨roots, hr, hroots⟩ := ht.rooted h
    obtain ⟨_, hx⟩ := entailed_of_pulled ht.own hroots (hr.confined.scheduled i n hn hs)
    exact hx.foreign ht.own href

theorem Turn.isDue_of_others (ht : l.Turn b c c' others t' paths calls drops) (hd : d ≠ b)
    (hdue : isDue others (d, p) = true) : isDue t'.builds (d, p) = true := by
  rwa [ht.builds, isDue_insert_ne hd]

theorem Turn.isDue_or_drops (ht : l.Turn b c c' others t' paths calls drops)
    (hdue : isDue l.tree.builds (d, p) = true) :
    isDue t'.builds (d, p) = true ∨ (d, p) ∈ drops := by
  by_cases hd : d = b
  · subst hd
    rw [isDue_eq ht.own]
    rw [isDue_eq ht.owner] at hdue
    exact ht.due p hdue
  · exact .inl (ht.isDue_of_others hd (ht.charged.kept d p hdue))

/-- A task on which a build comes to depend is one of another build, and due there. -/
theorem Turn.met (ht : l.Turn b c c' others t' paths calls drops) (h : l.Kept) {k : BuildId}
    {x : NodeKey}
    (he : t'.builds[d]? = some e') (href : e'.graph.Refers x .dependency (.foreign k p)) :
    isDue t'.builds (k, p) = true ∨ (k, p) ∈ l.dropped ++ drops := by
  have hold : isDue l.tree.builds (k, p) = true ∨ (k, p) ∈ l.dropped →
      isDue t'.builds (k, p) = true ∨ (k, p) ∈ l.dropped ++ drops := by
    rintro (hdue | hmem)
    · exact (ht.isDue_or_drops hdue).imp (fun hdue => hdue) (List.mem_append_right _)
    · exact .inr (List.mem_append_left _ hmem)
  by_cases hd : d = b
  · subst hd
    cases ht.own.symm.trans he
    rcases ht.charged.met x k p href with href | hnew
    · exact hold (h.met d c x k p ht.owner href)
    · have hne : k ≠ d := by
        obtain ⟨i, j, n, m, _, _, hm, hkey, _⟩ := href
        have hsound := ht.assembled.sound d c' ht.own
        have hforeign := hsound.graph.foreign j m k p hm (WorkGraph.work_of_key_foreign hkey)
        exact fun hk => hforeign.2.1 (hk.trans hsound.build.symm)
      exact .inl (ht.isDue_of_others hne hnew)
  · obtain ⟨e₀, he₀, hasked, _⟩ := ht.other hd he
    have hsame : e₀.graph.SameWiring e'.graph := .of_nodes hasked.nodes
    exact hold (h.met d e₀ x k p he₀ (hsame.refers_iff.1 href))

/-- A turn keeps what is kept: its own build by what it does, the others because they are only
asked. -/
theorem Kept.turn (h : l.Kept) (ht : l.Turn b c c' others t' paths calls drops) :
    (l.next t' calls drops).Kept where
  assembled := ht.assembled
  isOpen d e he := by
    by_cases hd : d = b
    · subst hd
      cases ht.own.symm.trans he
      exact ht.advanced.isOpen
    · obtain ⟨e₀, he₀, hasked, _⟩ := ht.other hd he
      exact (h.isOpen d e₀ he₀).solicited hasked
  settled d e he := by
    by_cases hd : d = b
    · subst hd
      cases ht.own.symm.trans he
      exact ht.advanced.settled
    · obtain ⟨e₀, he₀, hasked, _⟩ := ht.other hd he
      exact (h.settled d e₀ he₀).congr hasked.nodes fun _ hd => by rwa [hasked.registry]
  met d e x k p he href := isDue_or_mem_next (ht.met h he href)
  queued d e he p hp := by
    by_cases hd : d = b
    · subst hd
      cases ht.own.symm.trans he
      exact (ht.advanced.queued p hp).elim (fun hq => ht.mono (h.queued d c ht.owner p hq))
        (ht.entailed h)
    · obtain ⟨_, _, _, hothers⟩ := ht.other hd he
      exact ht.entailed_of_isDue h ((isDue_eq hothers).trans (Controller.isDue_iff.2 (.inl hp)))
  rooted d e he := by
    by_cases hd : d = b
    · subst hd
      cases ht.own.symm.trans he
      exact ht.rooted h
    · obtain ⟨e₀, he₀, hasked, _⟩ := ht.other hd he
      obtain ⟨roots, hr, hroots⟩ := h.rooted d e₀ he₀
      exact ⟨roots, hr.congr (by rw [hasked.graph]) hasked.nodes (by rw [hasked.graph]),
        fun p hp => ht.mono (hroots p hp)⟩

end Turn

/-! ## Calls on one controller -/

/-- What a call makes of a controller that asks no other build. -/
structure Adjusted (c c' : Controller) (paths : List TaskPath) : Prop where
  isOpen : c.Open → c'.Open
  phase : c'.graph.phase = c.graph.phase
  nodes : c'.graph.nodes = c.graph.nodes
  waiting : c'.graph.queued = c.graph.queued
  declares : ∀ task, c.graph.registry.Declares task → c'.graph.registry.Declares task
  kept : ∀ p ∈ c.queued, p ∈ c'.queued
  queued : ∀ p ∈ c'.queued, p ∈ c.queued ∨ p ∈ paths

theorem adjusted_refl (c : Controller) (paths : List TaskPath) : Adjusted c c paths :=
  ⟨id, rfl, rfl, rfl, fun _ hd => hd, fun _ hp => hp, fun _ hp => .inl hp⟩

theorem adjusted_declare {providers : List (ProviderId × Provider)} {task : TaskDefinition}
    (hok : c.declare providers task = .ok c') : Adjusted c c' [] := by
  have hopen : c.Open → c'.Open := fun h => (Controller.declare_carries h hok).isOpen
  obtain ⟨g, hg, rfl⟩ := Controller.eq_of_declare hok
  obtain ⟨registry, hr, rfl⟩ := WorkGraph.declare_eq hg
  exact ⟨hopen, rfl, rfl, rfl, fun _ hd => (hd.provideAll providers).register hr, fun _ hp => hp,
    fun _ hp => .inl hp⟩

theorem adjusted_want (c : Controller) (path : TaskPath) : Adjusted c (c.want path) [path] := by
  rw [Controller.want]
  split
  · exact adjusted_refl c _
  · refine ⟨fun h => h.congr rfl rfl rfl rfl rfl rfl, rfl, rfl, rfl, fun _ hd => hd,
      fun _ hp => Std.TreeSet.mem_insert.2 (.inr hp), fun p hp => ?_⟩
    rcases Std.TreeSet.mem_insert.1 hp with hp | hp
    · exact .inr (List.mem_singleton.2 (Std.LawfulEqCmp.compare_eq_iff_eq.1 hp).symm)
    · exact .inl hp

theorem adjusted_queue (hok : c.queue path = .ok c') : Adjusted c c' [path] := by
  rw [Controller.eq_of_queue hok]
  exact adjusted_want c path

theorem adjusted_handOut {g : WorkGraph} (hg : c.graph.handOut path = .ok g) {paths : List TaskPath}
    (ha : Adjusted { c with graph := g } c' paths) : Adjusted c c' paths := by
  have hspec := WorkGraph.handOut_spec hg
  exact ⟨fun h => ha.isOpen (Controller.handOut_carries h hg).isOpen,
    ha.phase.trans hspec.phase, ha.nodes.trans hspec.nodes, ha.waiting.trans hspec.queued,
    fun task hd => ha.declares task (by rwa [hspec.registry]), ha.kept, ha.queued⟩

theorem adjusted_exportTask (hok : c.exportTask path = .ok c') : Adjusted c c' [path] := by
  obtain ⟨g, hg, rfl⟩ := Controller.eq_of_exportTask hok
  split
  · exact adjusted_handOut hg (adjusted_want _ path)
  · exact adjusted_handOut hg (adjusted_refl _ _)

theorem adjusted_observeTask (hok : c.observeTask path = .ok c') : Adjusted c c' [] := by
  obtain ⟨g, hg, rfl⟩ := Controller.eq_of_observeTask hok
  exact adjusted_handOut hg (adjusted_refl _ _)

theorem adjusted_stop (hok : c.stop = .ok c') : Adjusted c c' [] := by
  rw [Controller.eq_of_stop hok]
  exact ⟨fun h => h.congr rfl rfl rfl rfl rfl rfl, rfl, rfl, rfl, fun _ hd => hd, fun _ hp => hp,
    fun _ hp => .inl hp⟩

theorem Kept.of_builds (h : l.Kept) (hassembled : t'.Assembled)
    (hbuilds : t'.builds = l.tree.builds) (calls : List TreeTask) : (l.next t' calls []).Kept := by
  have hmono : ∀ {required b key}, Entailed l.tree.builds l.called required b key →
      Entailed t'.builds (l.called ++ calls) required b key := by
    intro required b key hx
    rw [hbuilds]
    exact hx.mono (fun _ e he => ⟨e, he, .refl _⟩) (List.subset_append_left _ _)
  refine ⟨hassembled, fun b c hc => ?_, fun b c hc => ?_, fun b c x d p hc href => ?_,
    fun b c hc p hp => ?_, fun b c hc => ?_⟩ <;>
    replace hc : l.tree.builds[b]? = some c := hbuilds ▸ hc
  · exact h.isOpen b c hc
  · exact h.settled b c hc
  · refine isDue_or_mem_next ?_
    rw [List.append_nil, hbuilds]
    exact h.met b c x d p hc href
  · exact hmono (h.queued b c hc p hp)
  · obtain ⟨roots, hr, hroots⟩ := h.rooted b c hc
    exact ⟨roots, hr, fun p hp => hmono (hroots p hp)⟩

theorem change_cases {ε : Type} (t : BuildTree) (build : BuildId)
    (f : Controller → Except ε Controller) :
    t.change build f = t ∨ ∃ c c', t.builds[build]? = some c ∧ f c = .ok c' ∧
      t.change build f = t.setController build c' := by
  rw [change]
  cases hc : t.controller? build with
  | none => exact .inl rfl
  | some c =>
    rw [Option.map_some]
    cases hok : f c with
    | error e => exact .inl rfl
    | ok c' => exact .inr ⟨c, c', hc, hok, rfl⟩

/-- A call that asks no other build. -/
theorem Kept.change {ε : Type} (h : l.Kept) {f : Controller → Except ε Controller}
    {paths : List TaskPath}
    {calls : List TreeTask} (hadjusts : ∀ c c', f c = .ok c' → Adjusted c c' paths)
    (hassembled : ∀ c c', l.tree.builds[b]? = some c → f c = .ok c' →
      (l.tree.setController b c').Assembled)
    (hpaths : l.tree.accepts b f = true → ∀ p ∈ paths, (b, p) ∈ calls) :
    (l.next (l.tree.change b f) calls []).Kept := by
  rcases change_cases l.tree b f with hsame | ⟨c, c', hc, hok, hchange⟩
  · rw [hsame]
    exact h.of_builds h.assembled rfl calls
  · rw [hchange]
    have haccepts : l.tree.accepts b f = true := by
      rw [accepts, show l.tree.controller? b = some c from hc, Option.map_some, hok]
      rfl
    have ha := hadjusts c c' hok
    have hset := h.settled b c hc
    have hsame : c.graph.SameWiring c'.graph := .of_nodes ha.nodes
    exact h.turn {
      owner := hc
      assembled := hassembled c c' hc hok
      builds := rfl
      solicited := .refl _
      charged := WorkGraph.charged_unlinked c.graph c'.graph _ (.of_nodes ha.phase ha.nodes) hsame
        (.refl hset.wired h.assembled.sound.allDiscovering)
      advanced := .of_nodes (ha.isOpen (h.isOpen b c hc)) hset ha.phase ha.nodes ha.waiting
        ha.declares
        ha.queued
      paths := fun p hp => .inr (hpaths haccepts p hp)
      due := fun p hp => .inl <| Controller.isDue_iff.2 <| (Controller.isDue_iff.1 hp).imp
        (ha.kept p)
        fun hr => (WorkGraph.isRequired_congr ha.nodes).trans hr }

/-! ## Calls that ask other builds -/

/-- Required stays required, and what is asked for and not kept must become so or be dropped. -/
theorem isDue_of_queued {drops : List TreeTask} (hf : c.graph.Forward c'.graph)
    (h : ∀ p ∈ c.queued, c'.isDue p = true ∨ (b, p) ∈ drops) (hp : c.isDue p = true) :
    c'.isDue p = true ∨ (b, p) ∈ drops :=
  (Controller.isDue_iff.1 hp).elim (h p) fun hr =>
    .inl (Controller.isDue_iff.2 (.inr (hf.isRequired hr)))

/-- A build that schedules tasks, whatever it does with its queue. -/
theorem Kept.schedules (h : l.Kept) (hc : l.tree.builds[b]? = some c) {paths : List TaskPath}
    {calls drops : List TreeTask} {queued : Std.TreeSet TaskPath} (hassembled : t'.Assembled)
    (hbuilds : t'.builds =
      (WorkGraph.schedule (some crossBuild) paths (c.graph, l.tree.builds)).2.2.insert b
      { c with
        queued
        graph := (WorkGraph.schedule (some crossBuild) paths (c.graph, l.tree.builds)).2.1 })
    (hqueued : ∀ p ∈ queued, p ∈ c.queued) (hpaths : ∀ p ∈ paths, p ∈ c.queued ∨ (b, p) ∈ calls)
    (hdue : ∀ p ∈ c.queued, p ∈ queued ∨
      (WorkGraph.schedule (some crossBuild) paths (c.graph, l.tree.builds)).2.1.isRequired p = true
      ∨ (b, p) ∈ drops) : (l.next t' calls drops).Kept := by
  have hset := h.settled b c hc
  have hcharged := WorkGraph.Charged.schedule (of_crossBuild crossBuild_charges)
    (show (c.graph, l.tree.builds).1.Wired from hset.wired) h.assembled.sound.allDiscovering paths
  have hadvanced := advanced_schedule (some crossBuild) (h.isOpen b c hc) hset paths
    l.tree.builds hqueued
  refine h.turn {
    owner := hc
    assembled := hassembled
    builds := hbuilds
    solicited := schedule_solicited l.tree (h.assembled.sound.sound_true hc) paths
    charged := hcharged
    advanced := hadvanced
    paths := hpaths
    due := fun p hp => isDue_of_queued hadvanced.forward (fun p hp => ?_) hp }
  rcases hdue p hp with hq | hr | hd
  · exact .inl (Controller.isDue_iff.2 (.inl hq))
  · exact .inl (Controller.isDue_iff.2 (.inr hr))
  · exact .inr hd

/-- A build that schedules tasks directly. -/
theorem Kept.populate (h : l.Kept) (hc : l.tree.builds[b]? = some c) (paths : List TaskPath) :
    (l.next (l.tree.withOthers b c (Controller.populate (some crossBuild) paths)).2
      (paths.map (b, ·)) []).Kept := by
  refine h.schedules hc (h.assembled.populate hc paths) ?_ (fun _ hp => hp)
    (fun p hp => .inr (List.mem_map_of_mem hp)) fun _ hp => .inl hp
  rw [withOthers, Controller.populate, Controller.require_eq (h.isOpen b c hc).state]

/-- A build that schedules what is requested. -/
theorem Kept.scheduleQueued (h : l.Kept) (hc : l.tree.builds[b]? = some c) :
    (l.next (l.tree.withOthers b c (Controller.scheduleQueued (some crossBuild))).2 []
      (l.tree.drops (.scheduleQueued b))).Kept := by
  have hopen := h.isOpen b c hc
  have hassembled := h.assembled.scheduleQueued hc
  have hdrops : l.tree.drops (.scheduleQueued b) =
      match (c.scheduleQueued (some crossBuild) l.tree.builds).1 with
      | .ok _ => []
      | .error _ => c.batch.map (b, ·) := by
    rw [drops, show l.tree.controller? b = some c from hc]
  by_cases hempty : c.batch.isEmpty = true
  · have hset := h.settled b c hc
    have heq : c.scheduleQueued (some crossBuild) l.tree.builds =
        (.ok false, { c with queued := ∅ }, l.tree.builds) := by
      rw [Controller.scheduleQueued_eq _ _ hopen.state, if_pos hempty]
    have hnothing : ∀ p ∈ c.queued, c.graph.isRequired p = true := fun p hp =>
      (Controller.mem_batch_or_isRequired hp).resolve_left (by simp [List.isEmpty_iff.1 hempty])
    have hopen' : Controller.Open { c with queued := ∅ } := hopen.congr rfl rfl rfl rfl rfl rfl
    have hturn : l.Turn b c { c with queued := ∅ } l.tree.builds
        (l.tree.withOthers b c (Controller.scheduleQueued (some crossBuild))).2 [] []
        (l.tree.drops (.scheduleQueued b)) := {
      owner := hc
      assembled := hassembled
      builds := by simp only [withOthers, heq]
      solicited := .refl _
      charged := .refl hset.wired h.assembled.sound.allDiscovering
      advanced := .of_nodes hopen' hset rfl rfl rfl (fun _ hd => hd) fun p hp => by simp at hp
      paths := fun p hp => absurd hp List.not_mem_nil
      due := fun p hp => isDue_of_queued (.refl c.graph)
        (fun p hp => .inl (Controller.isDue_iff.2 (.inr (hnothing p hp)))) hp }
    exact h.turn hturn
  · have heq : c.scheduleQueued (some crossBuild) l.tree.builds =
        (let answer := WorkGraph.schedule (some crossBuild) c.batch (c.graph, l.tree.builds)
        (answer.1, { c with queued := ∅, graph := answer.2.1 }, answer.2.2)) := by
      rw [Controller.scheduleQueued_eq _ _ hopen.state, if_neg hempty]
    have hs := WorkGraph.schedule_spec (some crossBuild) hopen.phase hopen.keyed
      hopen.numbered c.batch
      l.tree.builds
    have hbuilds : (l.tree.withOthers b c (Controller.scheduleQueued (some crossBuild))).2.builds =
        (WorkGraph.schedule (some crossBuild) c.batch (c.graph, l.tree.builds)).2.2.insert b
          { c with
            queued := ∅
            graph :=
              (WorkGraph.schedule (some crossBuild) c.batch (c.graph, l.tree.builds)).2.1 } := by
      simp only [withOthers, heq]
    refine h.schedules hc hassembled hbuilds (fun p hp => by simp at hp)
      (fun p hp => .inl (Std.TreeSet.mem_toList.1 (List.mem_of_mem_filter hp))) fun p hp => .inr ?_
    rw [hdrops, heq]
    rcases Controller.mem_batch_or_isRequired hp with hb | hr
    · cases hres : (WorkGraph.schedule (some crossBuild) c.batch (c.graph, l.tree.builds)).1 with
      | error e =>
        right
        simpa [hres] using hb
      | ok grown => exact .inl (hs.isRequired ⟨grown, hres⟩ hb)
    · exact .inl (hs.toForward.isRequired hr)

/-! ## All calls -/

/-- A new build runs nothing and nothing is asked of it; the others stay as they are. -/
theorem Kept.addBuild (h : l.Kept) {registry : Registry} (hkeyed : registry.Keyed)
    (hok : l.tree.addBuild registry = .ok t') : (l.next t' [] []).Kept := by
  obtain ⟨_, hold, hcases⟩ := addBuild_spec hok
  have hentailed : ∀ {required d key}, Entailed l.tree.builds l.called required d key →
      Entailed t'.builds (l.called ++ []) required d key :=
    fun hx => hx.mono (fun d e he => ⟨e, hold d e he, .refl _⟩) (List.subset_append_left _ _)
  refine ⟨h.assembled.addBuild hok, fun d e he => ?_, fun d e he => ?_, fun d e x k p he href => ?_,
    fun d e he p hp => ?_, fun d e he => ?_⟩
  all_goals rcases hcases d e he with he | ⟨_, rfl⟩
  · exact h.isOpen d e he
  · exact Controller.new_open hkeyed
  · exact h.settled d e he
  · exact WorkGraph.new_settled registry
  · refine isDue_or_mem_next
      ((h.met d e x k p he href).imp (fun hdue => ?_) (List.mem_append_left _))
    obtain ⟨e', he', hdue⟩ := (Option.any_eq_true _ _).1 hdue
    exact (isDue_eq (hold k e' he')).trans hdue
  · obtain ⟨i, j, n, m, hn, _⟩ := href
    simp [Controller.new, WorkGraph.new] at hn
  · exact hentailed (h.queued d e he p hp)
  · simp [Controller.new] at hp
  · obtain ⟨roots, hr, hroots⟩ := h.rooted d e he
    exact ⟨roots, hr, fun p hp => hentailed (hroots p hp)⟩
  · exact ⟨[], WorkGraph.new_rooted registry, fun p hp => absurd hp List.not_mem_nil⟩

theorem Kept.after (h : l.Kept) (call : Call) : (l.after call).Kept := by
  cases call with
  | serve services => exact h.of_builds (h.assembled.serve services) rfl []
  | addBuild registry keyed =>
    rw [Record.after, BuildTree.after]
    cases hok : l.tree.addBuild registry with
    | error e => exact h.of_builds h.assembled rfl []
    | ok t' => exact h.addBuild keyed hok
  | declare build providers task =>
    exact h.change (fun _ _ => adjusted_declare) (fun _ _ hc hok => h.assembled.declare hc hok)
      fun _ p hp => absurd hp List.not_mem_nil
  | queue build path =>
    exact h.change (fun _ _ => adjusted_queue) (fun _ _ hc hok => h.assembled.queue hc hok)
      fun haccepts p hp => by simpa [calls, haccepts] using hp
  | exportTask build path =>
    exact h.change (fun _ _ => adjusted_exportTask)
      (fun _ _ hc hok => h.assembled.exportTask hc hok)
      fun haccepts p hp => by simpa [calls, haccepts] using hp
  | observeTask build path =>
    exact h.change (fun _ _ => adjusted_observeTask)
      (fun _ _ hc hok => h.assembled.observeTask hc hok)
      fun _ p hp => absurd hp List.not_mem_nil
  | stop build =>
    exact h.change (fun _ _ => adjusted_stop) (fun _ _ hc hok => h.assembled.stop hc hok)
      fun _ p hp => absurd hp List.not_mem_nil
  | populate build paths =>
    cases hc : l.tree.controller? build with
    | none =>
      rw [Record.after, BuildTree.after, hc]
      exact h.of_builds h.assembled rfl _
    | some c =>
      rw [Record.after, BuildTree.after, calls, hc, Option.isSome_some, if_pos rfl]
      exact h.populate hc paths
  | scheduleQueued build =>
    rw [Record.after, BuildTree.after]
    cases hc : l.tree.controller? build with
    | none =>
      rw [scheduleBuild_eq_of_none hc, drops, hc]
      exact h.of_builds h.assembled rfl _
    | some c =>
      rw [tree_scheduleBuild hc]
      exact h.scheduleQueued hc

theorem Kept.afterAll (h : l.Kept) (calls : List Call) : (l.afterAll calls).Kept :=
  List.foldlRecOn (motive := Kept) _ _ h fun _ hl call _ => hl.after call

end Record

end BuildTree

end Foreman
