import Foreman.Proofs.WorkGraph.Batches

/-!
# What scheduling a graph asks of other builds

A task is due in another build when that build is to run it. A hard dependency that is resolved
makes its task due, an ordering only observes it (`CrossBuild.Charges`). So while a graph is
scheduled each task that it comes to depend on becomes due, and nothing else does
(`Charged.schedule`).
-/

namespace Foreman

variable {σ : Type} {P : σ → Prop} {Due : σ → BuildId → TaskPath → Prop}

/-- A request that is accepted makes its task due and no other; to observe a task makes none due. -/
structure CrossBuild.Charges (cross : CrossBuild σ) (P : σ → Prop)
    (Due : σ → BuildId → TaskPath → Prop) : Prop where
  request : ∀ build path others, P others → P (cross.request build path others).2 ∧
    ∀ b p, Due (cross.request build path others).2 b p ↔
      Due others b p ∨ (cross.request build path others).1 = .ok () ∧ b = build ∧ p = path
  observe : ∀ build path others, P others → P (cross.observe build path others).2 ∧
    ∀ b p, Due (cross.observe build path others).2 b p ↔ Due others b p

namespace Resolution

variable {start : σ} {relationship : Relationship} {r : Resolution σ}
  {cross : Option (CrossBuild σ)}

/-- Due is what was due when the resolution began, and the tasks of other builds that it found as
hard dependencies. -/
structure Charged (P : σ → Prop) (Due : σ → BuildId → TaskPath → Prop) (start : σ)
    (relationship : Relationship) (r : Resolution σ) : Prop where
  others : P r.others
  due : ∀ b p, Due r.others b p ↔
    Due start b p ∨ relationship = .dependency ∧ Work.foreign b p ∈ r.targets

theorem Charged.found_task (h : r.Charged P Due start relationship) (task : TaskDefinition) :
    (r.found (.task task)).Charged P Due start relationship where
  others := h.others
  due b p := by simpa [found] using h.due b p

theorem Charged.foundForeign (hcross : ∀ c, cross = some c → c.Charges P Due)
    (h : r.Charged P Due start relationship) (referrer : TaskPath) (build : BuildId)
    (path : TaskPath) :
    (r.foundForeign cross referrer relationship build path).1.Charged P Due start relationship := by
  cases cross with
  | none => exact h
  | some cross =>
    cases relationship with
    | finalizedBy => exact h
    | dependency =>
      have hrequest := (hcross cross rfl).request build path r.others h.others
      simp only [Resolution.foundForeign]
      generalize cross.request build path r.others = answer at hrequest
      obtain ⟨result, others⟩ := answer
      cases result with
      | ok =>
        refine ⟨hrequest.1, fun b p => ?_⟩
        simp only [found, hrequest.2, h.due]
        simp [or_assoc]
      | error e =>
        refine ⟨hrequest.1, fun b p => ?_⟩
        rw [hrequest.2, h.due]
        simp
    | _ =>
      have hobserve := (hcross cross rfl).observe build path r.others h.others
      simp only [Resolution.foundForeign]
      generalize cross.observe build path r.others = answer at hobserve
      obtain ⟨result, others⟩ := answer
      have hdue : ∀ b p, Due others b p ↔ Due start b p := by
        intro b p
        rw [hobserve.2, h.due]
        simp
      cases result <;> exact ⟨hobserve.1, fun b p => by simpa [found] using hdue b p⟩

theorem resolve_charged (hcross : ∀ c, cross = some c → c.Charges P Due) (task : TaskDefinition)
    (relationship : Relationship) (registry : Registry) {others : σ} (hP : P others) :
    (resolve cross task relationship registry others).1.Charged P Due others relationship :=
  resolve_keeps (Q := Charged P Due others relationship) (fun _ task hr => hr.found_task task)
    (fun _ build path hr _ => hr.foundForeign hcross task.path build path)
    (fun _ _ hr => ⟨hr.others, hr.due⟩) ⟨hP, by simp⟩

end Resolution

namespace WorkGraph

variable {g g' : WorkGraph} {state start : WorkGraph × σ} {id : Nat} {n : Node} {path : TaskPath}
  {cross : Option (CrossBuild σ)}

/-! ## What holds of a graph among the others -/

section Keeping

variable {Q : WorkGraph × σ → Prop}

/-- The graph of a pair may change in anything but its edges. -/
def Unlinked (Q : WorkGraph × σ → Prop) : Prop :=
  ∀ (g g' : WorkGraph) (others : σ), g.Forward g' → g.SameWiring g' → Q (g, others) → Q (g', others)

/-- A relationship may be resolved for any task of the run. -/
def Resolvable (cross : Option (CrossBuild σ)) (Q : WorkGraph × σ → Prop) : Prop :=
  ∀ (state : WorkGraph × σ) (id : Nat) (n : Node) (task : TaskDefinition)
    (relationship : Relationship),
    Q state → state.1.nodes[id]? = some n → n.work = .task task → n.state.isScheduled = true →
    Q (resolveRelationship cross id task state relationship)

theorem resolveNode_keeps (hsame : Unlinked Q) (hresolve : Resolvable cross Q)
    (state : WorkGraph × σ) (h : Q state) (hn : state.1.nodes[id]? = some n)
    (hs : n.state.isScheduled = true) : Q (resolveNode cross id state) := by
  obtain ⟨g, others⟩ := state
  dsimp only at hn
  have hresolved : g.Merged (g.modify id fun n => { n with resolved := true }) :=
    modify_merged fun n _ => .same rfl rfl rfl rfl
  have hstart := hsame g _ others hresolved.toForward (.modify fun _ => rfl) h
  have hn₁ : (g.modify id fun n => { n with resolved := true }).nodes[id]? =
      some { n with resolved := true } := by
    rw [getElem?_modify, if_pos rfl, hn]
    rfl
  rw [resolveNode, hn]
  dsimp only
  split
  · exact h
  · cases hwork : n.work with
    | foreign build path => exact hstart
    | task task =>
      have hfold := List.foldlRecOn (motive := fun state₁ : WorkGraph × σ => Q state₁ ∧
          (g.modify id fun n => { n with resolved := true }).Merged state₁.1)
        Relationship.all (resolveRelationship cross id task) ⟨hstart, .refl _⟩
        fun state₁ h₁ relationship _ => by
          obtain ⟨hq, hmerged⟩ := h₁
          obtain ⟨n', hn', hf⟩ := hmerged.node id _ hn₁
          exact ⟨hresolve state₁ id n' task relationship hq hn' (hf.work.trans hwork)
              (hf.scheduled hs),
            hmerged.trans (resolveRelationship_merged cross id task state₁ relationship)⟩
      exact hfold.1

theorem expand_keeps (hsame : Unlinked Q) (hresolve : Resolvable cross Q) (ordinal : Nat)
    {entry : Nat × Bool} (h : Q state) (hn : (state.1.nodes[entry.1]?).isSome = true) :
    Q (expand cross ordinal entry state).1 := by
  obtain ⟨n, hn⟩ := Option.isSome_iff_exists.1 hn
  obtain ⟨n₁, hn₁, _, _, hs, _⟩ := nodes_scheduled_enter hn ordinal entry.2
  obtain ⟨n₂, _, he⟩ := expand_eq cross ordinal entry hn
  have hentered := hsame _ _ state.2 (state.1.enter_merged ordinal entry).toForward
    (state.1.enter_sameWiring ordinal entry) h
  have hresolved := resolveNode_keeps hsame hresolve (state.1.enter ordinal entry, state.2) hentered
    hn₁ hs
  rw [he]
  exact hsame _ _ _ (lowerDependencies_merged _ n₂).toForward (lowerDependencies_sameWiring _ n₂)
    hresolved

/-- What changes that leave the edges keep, new nodes for tasks, and each relationship that is
resolved, scheduling keeps. -/
theorem schedule_keeps (hsame : Unlinked Q) (hresolve : Resolvable cross Q)
    (hnode : ∀ (g : WorkGraph) (others : σ) task, Q (g, others) →
      Q ((g.nodeFor (.task task)).1, others))
    (h : Q state) (paths : List TaskPath) : Q (schedule cross paths state).2 := by
  have hqueue : ∀ {g g' : WorkGraph} {path}, g.queue path = .ok g' → Q (g, state.2) →
      Q (g', state.2) := by
    intro g g' path hok hg
    obtain ⟨task, f, _, hf, hnodes, _⟩ := queue_nodes hok
    have hphase : g'.phase = (g.nodeFor (.task task)).1.phase :=
      (queue_forward hok).phase.trans (g.nodeFor_merged (.task task)).phase.symm
    have hmodify : (g.nodeFor (.task task)).1.Merged
        ((g.nodeFor (.task task)).1.modify (g.nodeFor (.task task)).2 f) :=
      modify_merged fun n _ => (hf n).1.forward
    exact hsame _ _ _ (hmodify.toForward.trans (.of_nodes hphase hnodes))
      ((SameWiring.modify fun n => (hf n).2).trans (.of_nodes hnodes)) (hnode g state.2 task hg)
  have hqueued : Q ((state.1.queueAll paths).1, state.2) := by
    refine eachUntilError_keeps (Q := fun g => Q (g, state.2)) (fun path _ g hg => ?_) h
    cases hq : g.queue path with
    | error e => exact hg
    | ok g' => exact hqueue hq hg
  rw [schedule]
  generalize state.1.queueAll paths = answer at hqueued
  obtain ⟨g, error⟩ := answer
  cases error with
  | some e => exact hqueued
  | none =>
    dsimp only at hqueued ⊢
    by_cases hphase : g.phase = .populating
    · simp only [scheduleQueued_eq cross hphase]
      by_cases hempty : g.queued.isEmpty = true
      · simp only [if_pos hempty]
        exact hqueued
      · simp only [if_neg hempty]
        have hstart : Q (g.batchStart, state.2) :=
          hsame g _ state.2 (.of_nodes rfl rfl) (.of_nodes rfl) hqueued
        exact merge_keeps cross (fun entry state h hn _ => expand_keeps hsame hresolve _ h hn) _ _
          hstart
    · simp only [scheduleQueued, require, if_neg hphase, bind, Except.bind]
      exact hqueued

end Keeping

/-- Scheduling a graph keeps of the other builds what asking them keeps. -/
theorem schedule_others (hcross : ∀ c, cross = some c → c.Charges P fun _ _ _ => True)
    (h : P state.2) (paths : List TaskPath) : P (schedule cross paths state).2.2 :=
  schedule_keeps (Q := fun state => P state.2) (fun _ _ _ _ _ h => h)
    (fun state _ _ task relationship h _ _ _ =>
      (Resolution.resolve_charged hcross task relationship state.1.registry h).others)
    (fun _ _ _ h => h) h paths

/-! ## What becomes due -/

theorem Wired.addEdges (h : g.Wired) (hn : g.nodes[id]? = some n) (relationship : Relationship)
    (targets : List Work) :
    (targets.foldl (fun g target => g.addEdge id relationship target) g).Wired := by
  induction targets generalizing g n with
  | nil => exact h
  | cons target targets ih =>
    obtain ⟨n', hn', _⟩ := (g.addEdge_merged id relationship target).node id n hn
    exact ih (h.addEdge hn relationship target) hn'

/-- Since `start` each task of another build that the graph came to depend on has become due, and no
other. -/
structure Charged (P : σ → Prop) (Due : σ → BuildId → TaskPath → Prop)
    (start state : WorkGraph × σ) :
    Prop where
  wired : state.1.Wired
  others : P state.2
  kept : ∀ d p, Due start.2 d p → Due state.2 d p
  met : ∀ x d p, state.1.Refers x .dependency (.foreign d p) →
    start.1.Refers x .dependency (.foreign d p) ∨ Due state.2 d p
  caused : ∀ d p, Due state.2 d p → Due start.2 d p ∨
    ∃ x, state.1.Includes x ∧ state.1.Refers x .dependency (.foreign d p)

theorem Charged.refl (hw : state.1.Wired) (hP : P state.2) : Charged P Due state state :=
  ⟨hw, hP, fun _ _ h => h, fun _ _ _ h => .inl h, fun _ _ h => .inl h⟩

theorem charged_unlinked : Unlinked (Charged P Due start) := by
  intro g g' others hf hw h
  refine ⟨hw.wired h.wired, h.others, h.kept, fun x d p hr => h.met x d p (hw.refers_iff.1 hr),
    fun d p hd => (h.caused d p hd).imp id ?_⟩
  rintro ⟨x, hx, hr⟩
  exact ⟨x, hf.includes hx, hw.refers_of hr⟩

theorem Charged.nodeFor {others : σ} (h : Charged P Due start (g, others)) (task : TaskDefinition) :
    Charged P Due start ((g.nodeFor (.task task)).1, others) where
  wired := h.wired.nodeFor _
  others := h.others
  kept := h.kept
  met x d p hr := h.met x d p ((h.wired.refers_nodeFor _).1 hr)
  caused d p hd := by
    refine (h.caused d p hd).imp id ?_
    rintro ⟨x, hx, hr⟩
    exact ⟨x, (g.nodeFor_merged _).toForward.includes hx, (h.wired.refers_nodeFor _).2 hr⟩

/-- The targets of a hard dependency become due, and those of no other relationship. -/
theorem charged_resolvable (hcross : ∀ c, cross = some c → c.Charges P Due) :
    Resolvable cross (Charged P Due start) := by
  intro state id n task relationship h hn hwork hs
  have hforward := (resolveRelationship_merged cross id task state relationship).toForward
  obtain ⟨g, others⟩ := state
  dsimp only at hn hforward
  have hincludes : g.Includes n.key := ⟨id, n, hn, rfl, hs⟩
  have hr := Resolution.resolve_charged hcross task relationship g.registry h.others
  rw [resolveRelationship] at hforward ⊢
  dsimp only at hr hforward ⊢
  generalize Resolution.resolve cross task relationship g.registry others = answer at hr hforward ⊢
  obtain ⟨r, error⟩ := answer
  dsimp only at hr hforward ⊢
  let g₁ : WorkGraph := { g with registry := r.registry, rejected := g.rejected ++ error.toList }
  have hsame : g.SameWiring g₁ := .of_nodes rfl
  have hwired : g₁.Wired := hsame.wired h.wired
  obtain ⟨hrefers, _⟩ := hwired.refers_addEdges (show g₁.nodes[id]? = some n from hn) relationship
    r.targets
  have hedge :
      ∀ x d p, (r.targets.foldl (fun g target => g.addEdge id relationship target) g₁).Refers x
      .dependency (.foreign d p) ↔ g.Refers x .dependency (.foreign d p) ∨
        x = n.key ∧ relationship = .dependency ∧ Work.foreign d p ∈ r.targets := by
    intro x d p
    rw [hrefers, hsame.refers_iff, eq_comm (a := Relationship.dependency)]
    refine or_congr .rfl (and_congr .rfl (and_congr .rfl ⟨?_, fun hw => ⟨_, hw, rfl⟩⟩))
    rintro ⟨work, hw, hkey⟩
    exact work_of_key_foreign hkey ▸ hw
  have hkept : ∀ d p, Due others d p → Due r.others d p := fun d p hd => (hr.due d p).2 (.inl hd)
  refine ⟨hwired.addEdges hn relationship r.targets, hr.others,
    fun d p hd => hkept d p (h.kept d p hd), fun x d p hx => ?_, fun d p hd => ?_⟩
  · rcases (hedge x d p).1 hx with hx | ⟨_, hrel, hw⟩
    · exact (h.met x d p hx).imp (fun hx => hx) (hkept d p)
    · exact .inr ((hr.due d p).2 (.inr ⟨hrel, hw⟩))
  · rcases (hr.due d p).1 hd with hd | ⟨hrel, hw⟩
    · refine (h.caused d p hd).imp (fun hd => hd) ?_
      rintro ⟨x, hx, href⟩
      exact ⟨x, hforward.includes hx, (hedge x d p).2 (.inl href)⟩
    · exact .inr ⟨n.key, hforward.includes hincludes, (hedge _ d p).2 (.inr ⟨rfl, hrel, hw⟩)⟩

/-- Scheduling makes due what the graph comes to depend on, and nothing else. -/
theorem Charged.schedule (hcross : ∀ c, cross = some c → c.Charges P Due) (hw : state.1.Wired)
    (hP : P state.2) (paths : List TaskPath) :
    Charged P Due state (schedule cross paths state).2 :=
  schedule_keeps charged_unlinked (charged_resolvable hcross) (fun _ _ task hc => hc.nodeFor task)
    (.refl hw hP) paths

end WorkGraph

end Foreman
