import Foreman.Proofs.Resolution
import Foreman.WorkGraph.Schedule
import Mathlib.Tactic.ByContra

/-!
# Work graphs while they are populated

The operations that populate a work graph keep it sound (`WorkGraph.Sound`): the run consists of the
nodes in a scheduled state, and a node for a task of another build refers to nothing and stands for
a task that was handed out. Scheduling keeps moreover what asking the other builds keeps
(`scheduleQueued_grown`).
-/

namespace Foreman

/-- The node refers to nothing and finalizes nothing. -/
structure Node.Inert (n : Node) : Prop where
  successors : ∀ relationship id, id ∉ n.successors.get relationship
  finalizes : ∀ id, id ∉ n.finalizes

theorem Node.new_inert (work : Work) : (Node.new work).Inert where
  successors relationship id := by
    cases relationship <;> simp [Node.new, Successors.none, Successors.get]
  finalizes id := by simp [Node.new]

def Node.enqueued (n : Node) : Node :=
  if n.state = .notScheduled then { n with state := .queued } else n

/-- Nothing of a node changes but its state. -/
theorem Node.enqueued_eq (n : Node) : n.enqueued = { n with state := n.enqueued.state } := by
  rw [enqueued]
  split <;> rfl

theorem Node.isScheduled_enqueued (n : Node) :
    n.enqueued.state.isScheduled = n.state.isScheduled := by
  rw [enqueued]
  split
  · rename_i hs
    rw [hs]
    rfl
  · rfl

namespace WorkGraph

variable {g g' : WorkGraph} {id : Nat} {f : Node → Node} {H H' : BuildId → TaskPath → Prop}

/-- What populating keeps, where `H` tells which tasks of other builds were handed out. -/
structure Sound (g : WorkGraph) (H : BuildId → TaskPath → Prop) : Prop where
  scheduled : ∀ id, id ∈ g.scheduled ↔ ∃ n, g.nodes[id]? = some n ∧ n.state.isScheduled = true
  foreign : ∀ (id : Nat) (n : Node) b p, g.nodes[id]? = some n → n.work = .foreign b p →
    n.Inert ∧ b ≠ g.build ∧ H b p

theorem Sound.mono (h : g.Sound H) (hH : ∀ b p, H b p → H' b p) : g.Sound H' where
  scheduled := h.scheduled
  foreign := by
    intro id n b p hn hw
    obtain ⟨hi, hb, hp⟩ := h.foreign id n b p hn hw
    exact ⟨hi, hb, hH b p hp⟩

/-- Soundness speaks of the nodes, the run and the name of the build. -/
theorem Sound.congr (h : g.Sound H) (hnodes : g'.nodes = g.nodes)
    (hscheduled : g'.scheduled = g.scheduled) (hbuild : g'.build = g.build) : g'.Sound H := by
  constructor
  · rw [hnodes, hscheduled]
    exact h.scheduled
  · rw [hnodes, hbuild]
    exact h.foreign

theorem new_sound (registry : Registry) : (new registry).Sound H where
  scheduled id := by simp [new]
  foreign id n b p hn := by simp [new] at hn

/-! ## Changing a node -/

theorem getElem?_modify (k : Nat) :
    (g.modify id f).nodes[k]? = if id = k then (g.nodes[k]?).map f else g.nodes[k]? := by
  simp only [modify, Array.getElem?_modify]

@[simp] theorem build_modify : (g.modify id f).build = g.build := rfl

@[simp] theorem scheduled_modify : (g.modify id f).scheduled = g.scheduled := rfl

@[simp] theorem exports_modify : (g.modify id f).exports = g.exports := rfl

/-- A change that leaves the work of a node, whether it is in the run, and its inertness. -/
structure Harmless (f : Node → Node) (n : Node) : Prop where
  work : (f n).work = n.work
  state : (f n).state.isScheduled = n.state.isScheduled
  inert : n.work.isForeign = true → n.Inert → (f n).Inert

theorem Sound.modify (h : g.Sound H) (id : Nat) (f : Node → Node)
    (hf : ∀ n, g.nodes[id]? = some n → Harmless f n) :
    (g.modify id f).Sound H := by
  constructor
  · intro k
    rw [scheduled_modify, h.scheduled, getElem?_modify]
    split
    · rename_i hk
      subst hk
      cases hn : g.nodes[id]? with
      | none => simp
      | some n => simp [(hf n hn).state]
    · rfl
  · intro k n b p hn hw
    rw [getElem?_modify] at hn
    split at hn
    · rename_i hk
      subst hk
      cases hm : g.nodes[id]? with
      | none => simp [hm] at hn
      | some m =>
        rw [hm, Option.map_some, Option.some.injEq] at hn
        subst hn
        rw [(hf m hm).work] at hw
        obtain ⟨hi, hb, hp⟩ := h.foreign id m b p hm hw
        exact ⟨(hf m hm).inert (by rw [hw]; rfl) hi, hb, hp⟩
    · exact h.foreign k n b p hn hw

/-! ## Nodes and edges -/

def IsOwn (g : WorkGraph) (id : Nat) : Prop := ∃ n task, g.nodes[id]? = some n ∧ n.work = .task task

theorem IsOwn.modify {k : Nat} (h : g.IsOwn k) (hf : ∀ n, (f n).work = n.work) :
    (g.modify id f).IsOwn k := by
  obtain ⟨n, task, hn, hw⟩ := h
  rw [IsOwn, getElem?_modify]
  split
  · exact ⟨f n, task, by rw [hn]; rfl, (hf n).trans hw⟩
  · exact ⟨n, task, hn, hw⟩

theorem find?_spec {key : NodeKey} (h : g.find? key = some id) :
    ∃ n, g.nodes[id]? = some n ∧ n.key = key := by
  rw [find?, Array.findIdx?_eq_some_iff_getElem] at h
  obtain ⟨hlt, hkey, _⟩ := h
  exact ⟨g.nodes[id], Array.getElem?_eq_getElem hlt, by simpa using hkey⟩

@[simp] theorem build_nodeFor (work : Work) : (g.nodeFor work).1.build = g.build := by
  rw [nodeFor]
  split <;> rfl

@[simp] theorem exports_nodeFor (work : Work) : (g.nodeFor work).1.exports = g.exports := by
  rw [nodeFor]
  split <;> rfl

theorem getElem?_nodeFor {work : Work} {k : Nat} {n : Node} (h : g.nodes[k]? = some n) :
    (g.nodeFor work).1.nodes[k]? = some n := by
  rw [nodeFor]
  split
  · exact h
  · have hlt : k < g.nodes.size := by
      by_contra hlt
      rw [Array.getElem?_eq_none (Nat.le_of_not_lt hlt)] at h
      cases h
    simp only [Array.getElem?_push]
    rw [if_neg (Nat.ne_of_lt hlt)]
    exact h

theorem key_nodeFor (work : Work) :
    ∃ n, (g.nodeFor work).1.nodes[(g.nodeFor work).2]? = some n ∧ n.key = work.key := by
  rw [nodeFor]
  split
  · exact find?_spec (by assumption)
  · exact ⟨.new work, by simp, rfl⟩

theorem Sound.nodeFor (h : g.Sound H) (work : Work)
    (hw : ∀ b p, work = .foreign b p → b ≠ g.build ∧ H b p) : (g.nodeFor work).1.Sound H := by
  rw [WorkGraph.nodeFor]
  split
  · exact h
  · constructor
    · intro k
      rw [h.scheduled]
      constructor
      · rintro ⟨n, hn, hs⟩
        have hlt : k < g.nodes.size := by
          by_contra hlt
          rw [Array.getElem?_eq_none (Nat.le_of_not_lt hlt)] at hn
          cases hn
        exact ⟨n, by simp [Array.getElem?_push, Nat.ne_of_lt hlt, hn], hs⟩
      · rintro ⟨n, hn, hs⟩
        simp only [Array.getElem?_push] at hn
        split at hn
        · cases hn
          simp [Node.new, NodeState.isScheduled] at hs
        · exact ⟨n, hn, hs⟩
    · intro k n b p hn hnw
      simp only [Array.getElem?_push] at hn
      split at hn
      · cases hn
        obtain ⟨hb, hp⟩ := hw b p hnw
        exact ⟨Node.new_inert work, hb, hp⟩
      · exact h.foreign k n b p hn hnw

theorem isForeign_of_key {v w : Work} (h : v.key = w.key) : v.isForeign = w.isForeign := by
  cases v <;> cases w <;> simp_all [Work.key, Work.isForeign]

theorem work_of_key_foreign {work : Work} {b : BuildId} {p : TaskPath}
    (h : work.key = .foreign b p) :
    work = .foreign b p := by
  cases work with
  | task task => cases h
  | foreign build path =>
    cases h
    rfl

theorem isOwn_not_foreign {n : Node} (h : g.IsOwn id) (hn : g.nodes[id]? = some n) :
    n.work.isForeign = false := by
  obtain ⟨m, task, hm, hw⟩ := h
  rw [hn, Option.some.injEq] at hm
  subst hm
  rw [hw]
  rfl

/-- What an edge needs: it starts at a task of the build, and a finalizer is one of the build. -/
theorem Sound.addEdge (h : g.Sound H) (hid : g.IsOwn id) (relationship : Relationship)
    (target : Work)
    (ht : ∀ b p, target = .foreign b p → relationship ≠ .finalizedBy ∧ b ≠ g.build ∧ H b p) :
    (g.addEdge id relationship target).Sound H ∧ (g.addEdge id relationship target).IsOwn id ∧
      (g.addEdge id relationship target).build = g.build ∧
      (g.addEdge id relationship target).exports = g.exports := by
  have hnode := h.nodeFor target fun b p hb => (ht b p hb).2
  have hown : (g.nodeFor target).1.IsOwn id := by
    obtain ⟨n, task, hn, hw⟩ := hid
    exact ⟨n, task, getElem?_nodeFor hn, hw⟩
  obtain ⟨m, hm, hkey⟩ := g.key_nodeFor target
  have hbuild := build_nodeFor (g := g) target
  have hexports := exports_nodeFor (g := g) target
  simp only [WorkGraph.addEdge]
  generalize g.nodeFor target = answer at hnode hown hm hbuild hexports
  obtain ⟨g₁, succ⟩ := answer
  simp only at hnode hown hm hbuild hexports ⊢
  have hinsert : (g₁.modify id fun n =>
      { n with successors := n.successors.insert relationship succ }).Sound H := by
    refine hnode.modify _ _ fun n hn => ⟨rfl, rfl, fun hf => ?_⟩
    rw [isOwn_not_foreign hown hn] at hf
    cases hf
  have hown' : (g₁.modify id fun n =>
      { n with successors := n.successors.insert relationship succ }).IsOwn id :=
    hown.modify fun _ => rfl
  cases relationship with
  | finalizedBy =>
    refine ⟨hinsert.modify _ _ fun n hn => ⟨rfl, rfl, fun hf => ?_⟩,
      hown'.modify fun _ => rfl, hbuild, hexports⟩
    have htarget : target.isForeign = false := by
      cases target with
      | task => rfl
      | foreign b p => exact absurd rfl (ht b p rfl).1
    have hn' : n.work = m.work := by
      rw [getElem?_modify, hm] at hn
      split at hn <;> cases hn <;> rfl
    rw [hn', isForeign_of_key hkey, htarget] at hf
    cases hf
  | dependency => exact ⟨hinsert, hown', hbuild, hexports⟩
  | mustRunAfter => exact ⟨hinsert, hown', hbuild, hexports⟩
  | shouldRunAfter => exact ⟨hinsert, hown', hbuild, hexports⟩

/-! ## Scheduling -/

section Scheduling

variable {σ : Type} {own : BuildId} {P : σ → Prop} {H : σ → BuildId → TaskPath → Prop} {start : σ}
  {exports : Exports} {cross : Option (CrossBuild σ)} {state : WorkGraph × σ} {entry : Nat × Bool}

/-- What scheduling keeps of a graph of build `own` with these exports, and of the other builds. -/
structure Grown (own : BuildId) (P : σ → Prop) (H : σ → BuildId → TaskPath → Prop) (start : σ)
    (exports : Exports) (state : WorkGraph × σ) : Prop where
  build : state.1.build = own
  exports : state.1.exports = exports
  sound : state.1.Sound (H state.2)
  others : P state.2
  grows : ∀ b p, H start b p → H state.2 b p

/-- Nothing is asked of the other builds. -/
theorem Grown.start_true (hs : g.Sound fun _ _ => True) (others : σ) :
    Grown g.build (fun _ => True) (fun _ _ _ => True) others g.exports (g, others) :=
  ⟨rfl, rfl, hs, trivial, fun _ _ _ => trivial⟩

theorem Grown.modify (h : Grown own P H start exports state) (id : Nat) (f : Node → Node)
    (hf : ∀ n, state.1.nodes[id]? = some n → Harmless f n) :
    Grown own P H start exports (state.1.modify id f, state.2) :=
  { h with sound := h.sound.modify id f hf }

theorem addEdges_spec {H : BuildId → TaskPath → Prop} {relationship : Relationship}
    (targets : List Work) (h : g.Sound H) (hid : g.IsOwn id)
    (ht : ∀ b p, Work.foreign b p ∈ targets → relationship ≠ .finalizedBy ∧ b ≠ g.build ∧ H b p) :
    let added := targets.foldl (fun g target => g.addEdge id relationship target) g
    added.Sound H ∧ added.IsOwn id ∧ added.build = g.build ∧ added.exports = g.exports := by
  induction targets generalizing g with
  | nil => exact ⟨h, hid, rfl, rfl⟩
  | cons target targets ih =>
    obtain ⟨hs, hown, hb, he⟩ := h.addEdge hid relationship target
      fun b p hb => ht b p (by rw [hb]; exact List.mem_cons_self ..)
    obtain ⟨hs', hown', hb', he'⟩ := ih hs hown fun b p hbp => by
      rw [hb]
      exact ht b p (List.mem_cons_of_mem _ hbp)
    exact ⟨hs', hown', hb'.trans hb, he'.trans he⟩

theorem resolveRelationship_grown (hcross : ∀ c, cross = some c → c.Keeps own P H)
    (h : Grown own P H start exports state) (hid : state.1.IsOwn id) (task : TaskDefinition)
    (relationship : Relationship) :
    Grown own P H start exports (resolveRelationship cross id task state relationship) ∧
      (resolveRelationship cross id task state relationship).1.IsOwn id := by
  obtain ⟨g, others⟩ := state
  have hr := Resolution.resolve_sound hcross task relationship h.build h.others
  rw [resolveRelationship]
  simp only
  generalize Resolution.resolve cross task relationship g.registry others = answer at hr
  obtain ⟨r, error⟩ := answer
  simp only at hr ⊢
  have hg : { g with registry := r.registry, rejected := g.rejected ++ error.toList }.Sound
      (H r.others) :=
    (h.sound.mono hr.grows).congr rfl rfl (hr.build.trans h.build.symm)
  obtain ⟨hs, hown, hb, he⟩ := addEdges_spec r.targets hg hid fun b p hbp => by
    obtain ⟨hrel, hne, hH⟩ := hr.handed b p hbp
    refine ⟨hrel, ?_, hH⟩
    show b ≠ r.registry.build
    rw [hr.build]
    exact hne
  exact ⟨⟨hb.trans hr.build, he.trans h.exports, hs, hr.others,
    fun b p hbp => hr.grows b p (h.grows b p hbp)⟩, hown⟩

theorem resolveNode_grown (hcross : ∀ c, cross = some c → c.Keeps own P H)
    (h : Grown own P H start exports state) (id : Nat) :
    Grown own P H start exports (resolveNode cross id state) := by
  rw [resolveNode]
  split
  · exact h
  · rename_i n hn
    split
    · exact h
    · have hmod := h.modify id (fun n => { n with resolved := true })
        fun n _ => ⟨rfl, rfl, fun _ hi => ⟨hi.successors, hi.finalizes⟩⟩
      simp only
      split
      · rename_i task hw
        have hown : (state.1.modify id fun n => { n with resolved := true }).IsOwn id :=
          IsOwn.modify ⟨n, task, hn, hw⟩ fun _ => rfl
        have hboth : ∀ relationships : List Relationship, ∀ st : WorkGraph × σ,
            Grown own P H start exports st → st.1.IsOwn id →
            Grown own P H start exports
              (relationships.foldl (resolveRelationship cross id task) st) := by
          intro relationships
          induction relationships with
          | nil => exact fun _ hst _ => hst
          | cons relationship relationships ih =>
            intro st hst hid
            obtain ⟨hst', hid'⟩ := resolveRelationship_grown hcross hst hid task relationship
            exact ih _ hst' hid'
        exact hboth _ _ hmod hown
      · exact hmod

theorem enter_grown (h : Grown own P H start exports state) (ordinal : Nat)
    (hn : (state.1.nodes[entry.1]?).isSome = true) :
    Grown own P H start exports (state.1.enter ordinal entry, state.2) := by
  obtain ⟨id, required⟩ := entry
  obtain ⟨n, hn⟩ := Option.isSome_iff_exists.1 hn
  have hreq := h.modify id (fun n => { n with required := n.required || required })
    fun n _ => ⟨rfl, rfl, fun _ hi => ⟨hi.successors, hi.finalizes⟩⟩
  rw [enter]
  simp only
  split
  · exact hreq
  · rename_i hnot
    refine ⟨h.build, h.exports, ⟨fun k => ?_, fun k m b p hm hw => ?_⟩, h.others, h.grows⟩
    · simp only [Std.TreeSet.mem_insert, Std.LawfulEqCmp.compare_eq_iff_eq, getElem?_modify]
      rw [show k ∈ (state.1.modify id _ |>.modify id _).scheduled ↔
        k ∈ state.1.scheduled from Iff.rfl, h.sound.scheduled]
      by_cases hk : id = k
      · subst hk
        simp [hn, Node.lowerOrdinal, NodeState.isScheduled]
      · simp [hk]
    · simp only [getElem?_modify] at hm
      by_cases hk : id = k
      · subst hk
        simp only [hn, if_true, Option.map_some, Option.some.injEq] at hm
        subst hm
        obtain ⟨hi, hb⟩ := h.sound.foreign id n b p hn hw
        exact ⟨⟨hi.successors, hi.finalizes⟩, hb⟩
      · rw [if_neg hk, if_neg hk] at hm
        exact h.sound.foreign k m b p hm hw

theorem lowerDependencies_grown (h : Grown own P H start exports state) (n : Node) :
    Grown own P H start exports (state.1.lowerDependencies n, state.2) := by
  rw [lowerDependencies]
  split
  · rename_i ordinal _
    have hfold : ∀ (l : List Nat) (g : WorkGraph), Grown own P H start exports (g, state.2) →
        Grown own P H start exports
          (l.foldl (fun g d => g.modify d (·.lowerOrdinal ordinal)) g, state.2) := by
      intro l
      induction l with
      | nil => exact fun _ hg => hg
      | cons d l ih =>
        intro g hg
        exact ih _ (hg.modify _ _ fun n _ => ⟨rfl, rfl, fun _ hi => ⟨hi.successors, hi.finalizes⟩⟩)
    exact hfold _ _ h
  · exact h

theorem expand_grown (hcross : ∀ c, cross = some c → c.Keeps own P H)
    (h : Grown own P H start exports state) (ordinal : Nat)
    (hn : (state.1.nodes[entry.1]?).isSome = true) :
    Grown own P H start exports (expand cross ordinal entry state).1 := by
  have hg := resolveNode_grown hcross (enter_grown h ordinal hn) entry.1
  rw [expand]
  generalize resolveNode cross entry.1 (state.1.enter ordinal entry, state.2) = answer at hg
  obtain ⟨g, others⟩ := answer
  simp only
  split
  · exact lowerDependencies_grown hg _
  · exact hg

/-- Induction is on the fuel; an entry that is worked on has a node, the others are dropped. -/
theorem merge_grown (hcross : ∀ c, cross = some c → c.Keeps own P H) (ordinal fuel : Nat)
    (asked : List (Nat × Bool)) (h : Grown own P H start exports state) :
    Grown own P H start exports (merge cross ordinal fuel asked state) := by
  induction fuel generalizing asked state with
  | zero =>
    rw [merge]
    · exact h
    · simp
  | succ fuel ih =>
    cases hdrop : asked.dropWhile state.1.isSettled with
    | nil =>
      rw [merge.eq_def]
      simp only [hdrop]
      exact h
    | cons entry rest =>
      have hn : (state.1.nodes[entry.1]?).isSome = true := by
        have hns : ¬ state.1.isSettled entry = true := by
          have := List.head?_dropWhile_not state.1.isSettled asked
          rw [hdrop] at this
          simpa using this
        rw [isSettled] at hns
        cases hm : state.1.nodes[entry.1]? with
        | none => simp [hm] at hns
        | some n => rfl
      have he := expand_grown hcross h ordinal hn
      rw [merge.eq_def]
      simp only [hdrop]
      exact ih _ he

theorem scheduleQueued_cases {others : σ} {answer : Bool × WorkGraph × σ}
    (hok : scheduleQueued cross (g, others) = .ok answer) :
    g.phase = .populating ∧ (g.queued.isEmpty = true ∧ answer = (false, g, others) ∨
      answer.2 = merge cross g.nextOrdinal (2 * g.nodeBound) (g.queued.toList.map (·, true))
        ({ g with queued := ∅, nextOrdinal := g.nextOrdinal + 1 }, others)) := by
  rw [scheduleQueued, require] at hok
  by_cases hphase : g.phase = .populating
  · simp only [if_pos hphase, bind, Except.bind, pure, Except.pure] at hok
    refine ⟨hphase, ?_⟩
    split at hok
    · rename_i hempty
      exact .inl ⟨hempty, (Except.ok.inj hok).symm⟩
    · cases hok
      exact .inr rfl
  · simp [hphase, bind, Except.bind] at hok

theorem scheduleQueued_grown (hcross : ∀ c, cross = some c → c.Keeps own P H)
    (h : Grown own P H start exports state) {answer : Bool × WorkGraph × σ}
    (hok : scheduleQueued cross state = .ok answer) : Grown own P H start exports answer.2 := by
  obtain ⟨g, others⟩ := state
  obtain ⟨-, ⟨-, rfl⟩ | hmerged⟩ := scheduleQueued_cases hok
  · exact h
  · rw [hmerged]
    refine merge_grown hcross _ _ _ ?_
    exact ⟨h.build, h.exports, h.sound.congr rfl rfl rfl, h.others, h.grows⟩

end Scheduling

/-! ## The other operations -/

theorem declare_eq {providers : List (ProviderId × Provider)} {task : TaskDefinition}
    (hok : g.declare providers task = .ok g') :
    ∃ registry, (g.registry.provideAll providers).register task = .ok registry ∧
      g' = { g with registry } := by
  rw [declare] at hok
  cases hr : (g.registry.provideAll providers).register task with
  | error e => simp [hr, bind, Except.bind] at hok
  | ok registry =>
    simp only [hr, bind, Except.bind, pure, Except.pure, Except.ok.injEq] at hok
    exact ⟨registry, rfl, hok.symm⟩

theorem declare_spec {providers : List (ProviderId × Provider)} {task : TaskDefinition}
    (hok : g.declare providers task = .ok g') :
    g'.build = g.build ∧ g'.exports = g.exports ∧ g'.nodes = g.nodes ∧
      g'.scheduled = g.scheduled := by
  obtain ⟨registry, hr, rfl⟩ := declare_eq hok
  exact ⟨(Registry.build_register hr).trans (Registry.build_provideAll providers _), rfl, rfl, rfl⟩

theorem declare_sound {providers : List (ProviderId × Provider)} {task : TaskDefinition}
    (h : g.Sound H) (hok : g.declare providers task = .ok g') : g'.Sound H := by
  obtain ⟨hbuild, _, hnodes, hscheduled⟩ := declare_spec hok
  exact h.congr hnodes hscheduled hbuild

/-- A request is taken while the graph is populated and for a declared task. Its node, a new one if
there was none, waits for the next batch unless it is required already. -/
theorem queue_cases {path : TaskPath} (hok : g.queue path = .ok g') :
    ∃ (task : TaskDefinition) (g₁ : WorkGraph) (id : Nat), g.registry.get? path = some task ∧
      g.nodeFor (.task task) = (g₁, id) ∧
      (((g₁.modify id Node.enqueued).nodes[id]?).any
            (fun n => n.state.isScheduled && n.required) = true ∧
          g' = g₁.modify id Node.enqueued ∨
        ¬ ((g₁.modify id Node.enqueued).nodes[id]?).any
            (fun n => n.state.isScheduled && n.required) = true ∧
          g' = { g₁.modify id Node.enqueued with queued := g₁.queued.insert id }) := by
  rw [queue] at hok
  cases hr : g.require .populating .queueTasks with
  | error e => simp [hr, bind, Except.bind] at hok
  | ok =>
    cases ht : g.registry.get? path with
    | none => simp [hr, ht, bind, Except.bind] at hok
    | some task =>
      simp only [hr, ht, bind, Except.bind, pure, Except.pure, Except.ok.injEq] at hok
      refine ⟨task, _, _, rfl, rfl, ?_⟩
      split at hok
      · rename_i hsettled
        exact .inl ⟨hsettled, hok.symm⟩
      · rename_i hopen
        exact .inr ⟨hopen, hok.symm⟩

theorem harmless_enqueued (n : Node) : Harmless Node.enqueued n where
  work := by rw [n.enqueued_eq]
  state := n.isScheduled_enqueued
  inert _ hi := by
    rw [n.enqueued_eq]
    exact ⟨hi.successors, hi.finalizes⟩

theorem queue_sound {path : TaskPath} (h : g.Sound H) (hok : g.queue path = .ok g') :
    g'.Sound H ∧ g'.build = g.build ∧ g'.exports = g.exports := by
  obtain ⟨task, g₁, id, -, hg₁, hg'⟩ := queue_cases hok
  have hnode := h.nodeFor (.task task) (fun b p hw => by cases hw)
  have hbuild := build_nodeFor (g := g) (.task task)
  have hexports := exports_nodeFor (g := g) (.task task)
  rw [hg₁] at hnode hbuild hexports
  have hmod := hnode.modify id Node.enqueued fun n _ => harmless_enqueued n
  obtain ⟨-, rfl⟩ | ⟨-, rfl⟩ := hg'
  · exact ⟨hmod, hbuild, hexports⟩
  · exact ⟨hmod.congr rfl rfl rfl, hbuild, hexports⟩

/-- Handing out a task changes what is handed out and nothing else. -/
structure HandedOut (g g' : WorkGraph) : Prop where
  registry : g'.registry = g.registry
  phase : g'.phase = g.phase
  nodes : g'.nodes = g.nodes
  queued : g'.queued = g.queued
  scheduled : g'.scheduled = g.scheduled
  plan : g'.plan = g.plan

theorem handOut_cases {path : TaskPath} (hok : g.handOut path = .ok g') :
    path ∈ g.exports ∧ g' = g ∨
      path ∉ g.exports ∧ g.registry.contains path = true ∧
        g' = { g with exports := g.exports.handOut path } := by
  rw [handOut] at hok
  split at hok
  · rename_i hmem
    exact .inl ⟨hmem, (Except.ok.inj hok).symm⟩
  · rename_i hnew
    split at hok
    · cases hok
    · split at hok
      · rename_i hdeclared
        exact .inr ⟨hnew, hdeclared, (Except.ok.inj hok).symm⟩
      · cases hok

theorem handOut_spec {path : TaskPath} (hok : g.handOut path = .ok g') : g.HandedOut g' := by
  obtain ⟨-, rfl⟩ | ⟨-, -, rfl⟩ := handOut_cases hok
  · exact ⟨rfl, rfl, rfl, rfl, rfl, rfl⟩
  · exact ⟨rfl, rfl, rfl, rfl, rfl, rfl⟩

theorem HandedOut.build (h : g.HandedOut g') : g'.build = g.build :=
  congrArg Registry.build h.registry

theorem HandedOut.sound (h : g.HandedOut g') (hg : g.Sound H) : g'.Sound H :=
  hg.congr h.nodes h.scheduled h.build

/-- The work graphs that populating can lead to. -/
inductive Built : WorkGraph → Prop
  | new (registry : Registry) : Built (.new registry)
  | declare {g g' : WorkGraph} {providers : List (ProviderId × Provider)} {task : TaskDefinition}
      (h : Built g) (hok : g.declare providers task = .ok g') : Built g'
  | handOut {g g' : WorkGraph} {path : TaskPath} (h : Built g) (hok : g.handOut path = .ok g') :
      Built g'
  | queue {g g' : WorkGraph} {path : TaskPath} (h : Built g) (hok : g.queue path = .ok g') :
      Built g'
  | scheduleQueued {g g' : WorkGraph} {σ : Type} {cross : Option (CrossBuild σ)}
      {others others' : σ}
      {grown : Bool} (h : Built g)
      (hok : WorkGraph.scheduleQueued cross (g, others) = .ok (grown, g', others')) : Built g'

theorem Built.sound (h : Built g) : g.Sound fun _ _ => True := by
  induction h with
  | new registry => exact new_sound registry
  | declare _ hok ih => exact declare_sound ih hok
  | handOut _ hok ih => exact (handOut_spec hok).sound ih
  | queue _ hok ih => exact (queue_sound ih hok).1
  | @scheduleQueued g g' σ cross others others' grown _ hok ih =>
    exact (scheduleQueued_grown (fun c _ => c.keeps_true _) (.start_true ih others) hok).sound

/-- What each request and each batch keeps, scheduling keeps. -/
theorem schedule_preserves {σ : Type} {Q : WorkGraph → Prop} (cross : Option (CrossBuild σ))
    {paths : List TaskPath} (others : σ)
    (hqueue : ∀ path ∈ paths, ∀ g g' : WorkGraph, Q g → g.queue path = .ok g' → Q g')
    (hbatch : ∀ (g g' : WorkGraph) (others' : σ) grown, Q g →
      scheduleQueued cross (g, others) = .ok (grown, g', others') → Q g')
    (h : Q g) : Q (schedule cross paths (g, others)).2.1 := by
  have hqueued : Q (g.queueAll paths).1 := by
    refine eachUntilError_keeps (fun path hp g hg => ?_) h
    cases hok : g.queue path with
    | error e => exact hg
    | ok g' => exact hqueue path hp g g' hg hok
  rw [schedule]
  generalize g.queueAll paths = answer at hqueued
  obtain ⟨g₁, error⟩ := answer
  cases error with
  | some e => exact hqueued
  | none =>
    simp only
    cases hok : scheduleQueued cross (g₁, others) with
    | error e => exact hqueued
    | ok answer => exact hbatch g₁ answer.2.1 answer.2.2 answer.1 hqueued hok

theorem Built.schedule {σ : Type} (h : Built g) (cross : Option (CrossBuild σ))
    (paths : List TaskPath) (others : σ) : Built (schedule cross paths (g, others)).2.1 :=
  schedule_preserves cross others (fun _ _ _ _ hg hok => hg.queue hok)
    (fun _ _ _ _ hg hok => hg.scheduleQueued hok) h

/-- Task `name` of the root project, by the names of the tasks that it refers to. -/
def smallTask (name : String) (dependsOn finalizedBy mustRunAfter : List String) : TaskDefinition :=
  { TaskDefinition.plain ⟨":", name⟩ with
    dependsOn := dependsOn.map .path
    finalizedBy := finalizedBy.map .path
    mustRunAfter := mustRunAfter.map .path }

end WorkGraph

end Foreman
