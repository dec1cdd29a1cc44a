import Foreman.Proofs.WorkGraph.Exporting
import Foreman.Proofs.WorkGraph.Frozen
import Foreman.Proofs.WorkGraph.Ordinals
import Foreman.Controller

/-!
# The parts of a work graph agree

A work graph keeps the same facts in several places: in the states and flags of its nodes, in the
queue and the run, in the references back from a finalizer, and in the numbers found for keys. They
agree whatever is called (`coherent_afterAll`), also by calls that fail half way through their list
of tasks. While the graph is populated this comes from how it was built, and from where a node may
stand meanwhile (`Node.Stands`); from then on no call touches these parts (`closed_after`).
-/

namespace Foreman

/-- Where a node may stand while its graph is populated: it is left out, it waits for a batch, or it
is in the run. Only nodes of the run are required. -/
structure Node.Stands (n : Node) (waits : Prop) : Prop where
  state : n.state = .notScheduled ∨ n.state = .queued ∧ waits ∨ n.state = .scheduled
  required : n.required = true → n.state = .scheduled

theorem Node.Stands.imp {n : Node} {waits waits' : Prop} (h : n.Stands waits)
    (hw : waits → waits') : n.Stands waits' :=
  ⟨h.state.imp_right (Or.imp_left (And.imp_right hw)), h.required⟩

theorem Node.Stands.congr {n n' : Node} {waits : Prop} (h : n.Stands waits)
    (hstate : n'.state = n.state) (hrequired : n'.required = n.required) : n'.Stands waits := by
  constructor
  · rw [hstate]
    exact h.state
  · rw [hstate, hrequired]
    exact h.required

theorem Node.Stands.eq_scheduled {n : Node} {waits : Prop} (h : n.Stands waits)
    (hs : n.state.isScheduled = true) : n.state = .scheduled := by
  rcases h.state with hn | ⟨hq, -⟩ | hn
  · rw [hn] at hs
    cases hs
  · rw [hq] at hs
    cases hs
  · exact hn

namespace WorkGraph

variable {g g' : WorkGraph} {id : Nat} {n : Node} {f : Node → Node} {q : NodeSet}

/-! ## Where the nodes stand -/

/-- Where the nodes may stand if those of `q` wait for a batch. -/
def Stands (g : WorkGraph) (q : NodeSet) : Prop :=
  ∀ (id : Nat) (n : Node), g.nodes[id]? = some n → n.Stands (id ∈ q)

theorem new_stands (registry : Registry) : (new registry).Stands q := by
  intro id n hn
  simp [new] at hn

theorem Stands.of_nodes (h : g.Stands q) (hnodes : g'.nodes = g.nodes) : g'.Stands q := by
  unfold Stands
  rw [hnodes]
  exact h

/-- A change of one node, where only the other ones need to stand as they should before. -/
theorem stands_modify (h : ∀ (k : Nat) (n : Node), k ≠ id → g.nodes[k]? = some n → n.Stands (k ∈ q))
    (hf : ∀ n, g.nodes[id]? = some n → (f n).Stands (id ∈ q)) : (g.modify id f).Stands q := by
  intro k n hn
  rw [getElem?_modify] at hn
  split at hn
  · next hk =>
    subst hk
    obtain ⟨m, hm, rfl⟩ := Option.map_eq_some_iff.mp hn
    exact hf m hm
  · next hk => exact h k n (Ne.symm hk) hn

theorem Stands.modify (h : g.Stands q) (hstate : ∀ n, (f n).state = n.state)
    (hrequired : ∀ n, (f n).required = n.required) : (g.modify id f).Stands q :=
  stands_modify (fun k n _ hn => h k n hn) fun n hn => (h id n hn).congr (hstate n) (hrequired n)

theorem Stands.nodeFor (h : g.Stands q) (work : Work) : (g.nodeFor work).1.Stands q := by
  intro k n hn
  rcases g.getElem?_nodeFor_eq work k with he | ⟨-, -, he⟩
  · exact h k n (he.symm.trans hn)
  · cases he.symm.trans hn
    exact ⟨.inl rfl, fun hr => by cases hr⟩

theorem Stands.addEdge (h : g.Stands q) (id : Nat) (relationship : Relationship) (target : Work) :
    (g.addEdge id relationship target).Stands q := by
  have hnode := h.nodeFor target
  unfold WorkGraph.addEdge
  generalize g.nodeFor target = answer at hnode
  obtain ⟨g₁, succ⟩ := answer
  have hsucc : (g₁.modify id fun n =>
      { n with successors := n.successors.insert relationship succ }).Stands q :=
    hnode.modify (fun _ => rfl) fun _ => rfl
  cases relationship with
  | finalizedBy => exact hsucc.modify (fun _ => rfl) fun _ => rfl
  | _ => exact hsucc

/-- A node that joins the run leaves the queue, and only then it is required. -/
theorem Stands.enter (h : g.Stands q) (ordinal : Nat) (entry : Nat × Bool) :
    (g.enter ordinal entry).Stands q := by
  obtain ⟨id, required⟩ := entry
  have hothers (k : Nat) (n : Node) (hk : k ≠ id) (hn : (g.modify id fun n =>
      { n with required := n.required || required }).nodes[k]? = some n) : n.Stands (k ∈ q) := by
    rw [getElem?_modify, if_neg (Ne.symm hk)] at hn
    exact h k n hn
  unfold WorkGraph.enter
  dsimp only
  split
  · next hin =>
    refine stands_modify (fun k n _ hn => h k n hn) fun n hn => ?_
    rw [hn, Option.any_some] at hin
    have hs := (h id n hn).eq_scheduled hin
    exact ⟨.inr (.inr hs), fun _ => hs⟩
  · have hjoin := stands_modify (q := q) hothers (f := fun n =>
      { n with state := .scheduled }.lowerOrdinal ordinal) fun n _ =>
        ⟨.inr (.inr rfl), fun _ => rfl⟩
    exact hjoin.of_nodes rfl

theorem Stands.lowerDependencies (h : g.Stands q) (n : Node) :
    (g.lowerDependencies n).Stands q := by
  unfold WorkGraph.lowerDependencies
  split
  · exact List.foldlRecOn (motive := fun g : WorkGraph => g.Stands q) _ _ h
      fun g₁ h₁ d _ => h₁.modify (fun _ => rfl) fun _ => rfl
  · exact h

section Batches

variable {σ : Type} (cross : Option (CrossBuild σ)) {state : WorkGraph × σ}

theorem Stands.resolveRelationship (h : state.1.Stands q) (id : Nat) (task : TaskDefinition)
    (relationship : Relationship) :
    (resolveRelationship cross id task state relationship).1.Stands q := by
  obtain ⟨g, others⟩ := state
  unfold WorkGraph.resolveRelationship
  generalize Resolution.resolve cross task relationship g.registry others = answer
  obtain ⟨r, error⟩ := answer
  have hstart :
      { g with registry := r.registry, rejected := g.rejected ++ error.toList }.Stands q :=
    h.of_nodes rfl
  exact List.foldlRecOn (motive := fun g : WorkGraph => g.Stands q) _ _ hstart
    fun g₁ h₁ target _ => h₁.addEdge id relationship target

theorem Stands.resolveNode (h : state.1.Stands q) (id : Nat) :
    (resolveNode cross id state).1.Stands q := by
  have hresolved : (state.1.modify id fun n => { n with resolved := true }).Stands q :=
    h.modify (fun _ => rfl) fun _ => rfl
  unfold WorkGraph.resolveNode
  split
  · exact h
  · split
    · exact h
    · dsimp only
      split
      · exact List.foldlRecOn (motive := fun state₁ : WorkGraph × σ => state₁.1.Stands q) _ _
          hresolved
          fun state₁ h₁ relationship _ => h₁.resolveRelationship cross id _ relationship
      · exact hresolved

theorem Stands.expand (h : state.1.Stands q) (ordinal : Nat) (entry : Nat × Bool) :
    (expand cross ordinal entry state).1.1.Stands q := by
  have hresolve :
      (WorkGraph.resolveNode cross entry.1 (state.1.enter ordinal entry, state.2)).1.Stands q := by
    apply Stands.resolveNode
    exact h.enter ordinal entry
  unfold WorkGraph.expand
  generalize WorkGraph.resolveNode cross entry.1 (state.1.enter ordinal entry, state.2) = answer
    at hresolve
  obtain ⟨g, others⟩ := answer
  dsimp only at hresolve ⊢
  split
  · exact hresolve.lowerDependencies _
  · exact hresolve

theorem Stands.merge (h : state.1.Stands q) (ordinal fuel : Nat) (asked : List (Nat × Bool)) :
    (merge cross ordinal fuel asked state).1.Stands q :=
  merge_keeps cross (Q := fun state => state.1.Stands q)
    (fun entry _ h₁ _ _ => h₁.expand cross ordinal entry) fuel asked h

end Batches

/-- A request puts the node of its task into the queue, unless it is required already. -/
theorem Stands.queue {path : TaskPath} (h : g.Stands g.queued) (hok : g.queue path = .ok g') :
    g'.Stands g'.queued := by
  obtain ⟨task, g₁, id, -, hg₁, hg'⟩ := queue_cases hok
  have hnode := h.nodeFor (.task task)
  have hqueued := (g.nodeFor_merged (.task task)).queued
  rw [hg₁] at hnode hqueued
  have henqueued (n : Node) (waits : Prop) (hn : n.Stands waits)
      (hw : n.state.isScheduled = false → waits) :
      n.enqueued.Stands waits := by
    unfold Node.enqueued
    split
    · next hs =>
      refine ⟨.inr (.inl ⟨rfl, hw (by rw [hs]; rfl)⟩), fun hr => ?_⟩
      exact absurd (hn.required hr) (by rw [hs]; simp)
    · exact hn
  obtain ⟨hsettled, rfl⟩ | ⟨-, rfl⟩ := hg'
  · show (g₁.modify id Node.enqueued).Stands g₁.queued
    rw [hqueued]
    refine stands_modify (fun k n _ hn => hnode k n hn) fun n hn => ?_
    refine henqueued n _ (hnode id n hn) fun hs => ?_
    rw [getElem?_modify, if_pos rfl, hn, Option.map_some, Option.any_some, Bool.and_eq_true,
      Node.isScheduled_enqueued, hs] at hsettled
    cases hsettled.1
  · have hmore : ∀ k, k ∈ g.queued → k ∈ g₁.queued.insert id := fun k hk =>
      Std.TreeSet.mem_insert.mpr (.inr (hqueued ▸ hk))
    have hstands : (g₁.modify id Node.enqueued).Stands (g₁.queued.insert id) :=
      stands_modify (fun k n _ hn => (hnode k n hn).imp (hmore k)) fun n hn =>
        henqueued n _ ((hnode id n hn).imp (hmore id)) fun _ => Std.TreeSet.mem_insert_self
    exact hstands.of_nodes rfl

theorem Stands.scheduleQueued {σ : Type} {cross : Option (CrossBuild σ)} {others others' : σ}
    {grown : Bool} (h : g.Stands g.queued) (hnum : g.Numbered)
    (hok : WorkGraph.scheduleQueued cross (g, others) = .ok (grown, g', others')) :
    g'.Stands g'.queued := by
  obtain ⟨-, -, -, -, hrequired⟩ := scheduleQueued_spec cross hnum hok
  obtain ⟨-, ⟨-, hsame⟩ | hbatch⟩ := scheduleQueued_cases hok
  · cases hsame
    exact h
  · have hstart : { g with queued := ∅, nextOrdinal := g.nextOrdinal + 1 }.Stands g.queued :=
      h.of_nodes rfl
    have hmerge : g'.Stands g.queued := by
      rw [show g' = _ from congrArg Prod.fst hbatch]
      apply Stands.merge
      exact hstart
    -- what waited before the batch is in the run now
    intro id n hn
    have hstands := hmerge id n hn
    refine ⟨?_, hstands.required⟩
    rcases hstands.state with hs | ⟨hs, hid⟩ | hs
    · exact .inl hs
    · obtain ⟨m, hm, hrun, -⟩ := hrequired id hid
      cases hm.symm.trans hn
      rw [hs] at hrun
      cases hrun
    · exact .inr (.inr hs)

theorem Built.stands (h : Built g) : g.Stands g.queued := by
  induction h with
  | new registry => exact new_stands registry
  | declare _ hok ih =>
    obtain ⟨_, _, rfl⟩ := declare_eq hok
    exact ih.of_nodes rfl
  | handOut _ hok ih =>
    have hspec := handOut_spec hok
    rw [hspec.queued]
    exact ih.of_nodes hspec.nodes
  | queue _ hok ih => exact ih.queue hok
  | scheduleQueued hbuilt hok ih => exact ih.scheduleQueued hbuilt.ready.numbered hok

/-! ## Coherence -/

/-- The parts of a work graph agree. -/
structure Coherent (g : WorkGraph) : Prop where
  /-- Just the key of a node leads to its number. -/
  index : ∀ key id, g.find? key = some id ↔ ∃ n, g.nodes[id]? = some n ∧ n.key = key
  distinct : g.Distinct
  successors : ∀ (id : Nat) n relationship s, g.nodes[id]? = some n →
    s ∈ n.successors.get relationship → ∃ m, g.nodes[s]? = some m
  /-- A finalizer knows what it finalizes, and nothing else. -/
  finalizers : ∀ (id f : Nat) n m, g.nodes[id]? = some n → g.nodes[f]? = some m →
    (f ∈ n.successors.get .finalizedBy ↔ id ∈ m.finalizes)
  finalizes : ∀ (f id : Nat) m, g.nodes[f]? = some m → id ∈ m.finalizes → ∃ n, g.nodes[id]? = some n
  foreign : ∀ (id : Nat) n, g.nodes[id]? = some n → n.work.isForeign = true →
    ∀ relationship s, s ∉ n.successors.get relationship
  scheduled : ∀ id, id ∈ g.scheduled ↔ ∃ n, g.nodes[id]? = some n ∧ n.state = .scheduled
  run : ∀ (id : Nat) n, g.nodes[id]? = some n → n.state = .scheduled →
    n.resolved = true ∧ ∃ ordinal, n.ordinal = some ordinal
  required : ∀ (id : Nat) n, g.nodes[id]? = some n → n.required = true → n.state = .scheduled
  queued : ∀ (id : Nat) n, g.nodes[id]? = some n → n.state = .queued → id ∈ g.queued

theorem Distinct.find?_eq_some_iff (h : g.Distinct) (key : NodeKey) (id : Nat) :
    g.find? key = some id ↔ ∃ n, g.nodes[id]? = some n ∧ n.key = key := by
  constructor
  · exact find?_spec
  · rintro ⟨n, hn, rfl⟩
    cases hf : g.find? n.key with
    | none => exact absurd rfl (key_ne_of_find?_eq_none hf hn)
    | some k =>
      obtain ⟨m, hm, hkey⟩ := find?_spec hf
      rw [h k id m n hm hn hkey]

/-- Coherence speaks of the nodes, the queue and the run. -/
structure SameParts (g g' : WorkGraph) : Prop where
  nodes : g'.nodes = g.nodes
  queued : g'.queued = g.queued
  scheduled : g'.scheduled = g.scheduled

theorem SameParts.refl (g : WorkGraph) : g.SameParts g := ⟨rfl, rfl, rfl⟩

theorem SameParts.trans {g'' : WorkGraph} (h : g.SameParts g') (h' : g'.SameParts g'') :
    g.SameParts g'' :=
  ⟨h'.nodes.trans h.nodes, h'.queued.trans h.queued, h'.scheduled.trans h.scheduled⟩

theorem Coherent.congr (h : g.Coherent) (hs : g.SameParts g') : g'.Coherent := by
  obtain ⟨hnodes, hqueued, hscheduled⟩ := hs
  have hfind (key : NodeKey) : g'.find? key = g.find? key := by rw [find?, find?, hnodes]
  constructor
  · simpa only [hfind, hnodes] using h.index
  · simpa only [Distinct, hnodes] using h.distinct
  · simpa only [hnodes] using h.successors
  · simpa only [hnodes] using h.finalizers
  · simpa only [hnodes] using h.finalizes
  · simpa only [hnodes] using h.foreign
  · simpa only [hnodes, hscheduled] using h.scheduled
  · simpa only [hnodes] using h.run
  · simpa only [hnodes] using h.required
  · simpa only [hnodes, hqueued] using h.queued

theorem Built.coherent (h : Built g) : g.Coherent where
  index := h.settled.wired.distinct.find?_eq_some_iff
  distinct := h.settled.wired.distinct
  successors id n relationship s hn hs :=
    ⟨_, Array.getElem?_eq_getElem (h.settled.wired.successors id n relationship s hn hs)⟩
  finalizers id f n m hn hm := by
    rw [h.settled.wired.finalizes id f m hm]
    constructor
    · exact fun hf => ⟨n, hn, hf⟩
    · rintro ⟨n', hn', hf⟩
      cases hn'.symm.trans hn
      exact hf
  finalizes f id m hm hid := by
    obtain ⟨n, hn, -⟩ := (h.settled.wired.finalizes id f m hm).mp hid
    exact ⟨n, hn⟩
  foreign id n hn hf := by
    cases hw : n.work with
    | task task =>
      rw [hw] at hf
      cases hf
    | foreign b p => exact (h.sound.foreign id n b p hn hw).1.successors
  scheduled id := by
    rw [h.sound.scheduled]
    constructor
    · rintro ⟨n, hn, hs⟩
      exact ⟨n, hn, (h.stands id n hn).eq_scheduled hs⟩
    · rintro ⟨n, hn, hs⟩
      exact ⟨n, hn, by rw [hs]; rfl⟩
  run id n hn hs := by
    have hin : n.state.isScheduled = true := by rw [hs]; rfl
    obtain ⟨ordinal, ho⟩ := (h.rested.run id).mp ((inRun_iff hn).mpr hin)
    exact ⟨h.settled.resolved id n hn hin, ordinal, (ordinalOf_of_getElem? hn).symm.trans ho⟩
  required id n hn := (h.stands id n hn).required
  queued id n hn hs := by
    rcases (h.stands id n hn).state with h₀ | ⟨-, hid⟩ | h₀
    · cases hs.symm.trans h₀
    · exact hid
    · cases hs.symm.trans h₀

/-! ## Calls -/

inductive Call : Type 1
  | declare (providers : List (ProviderId × Provider)) (task : TaskDefinition)
  | handOut (path : TaskPath)
  | queue (path : TaskPath)
  | scheduleQueued {σ : Type} (cross : Option (CrossBuild σ)) (others : σ)
  | schedule {σ : Type} (cross : Option (CrossBuild σ)) (paths : List TaskPath) (others : σ)
  | abandonExports
  | freeze
  | beginExecution
  /-- A worker keeps what it made of the run. -/
  | keep (r : Run)
  | complete
  | runWork (services : Services) (foreign : Foreign) (leader : Worker)

/-- The graph after a call. One that is refused leaves it; one that fails half way through its tasks
leaves what it came to. -/
def after (g : WorkGraph) : Call → WorkGraph
  | .declare providers task => (g.declare providers task).toOption.getD g
  | .handOut path => (g.handOut path).toOption.getD g
  | .queue path => (g.queue path).toOption.getD g
  | .scheduleQueued cross others => ((scheduleQueued cross (g, others)).toOption.map (·.2.1)).getD g
  | .schedule cross paths others => (schedule cross paths (g, others)).2.1
  | .abandonExports => g.abandonExports
  | .freeze => g.freeze.toOption.getD g
  | .beginExecution => (g.beginExecution.toOption.map (·.2)).getD g
  | .keep r => if g.phase = .running then g.keep r else g
  | .complete => g.complete.toOption.getD g
  | .runWork services foreign leader => (g.runWork services foreign leader).2.1

def afterAll (g : WorkGraph) (calls : List Call) : WorkGraph := calls.foldl after g

theorem getD_keeps {Q : WorkGraph → Prop} {ε : Type} {answer : Except ε WorkGraph} (h : Q g)
    (hok : ∀ g', answer = .ok g' → Q g') : Q (answer.toOption.getD g) := by
  cases answer with
  | error e => exact h
  | ok g' => exact hok g' rfl

/-- The graph is not populated any more, and its parts are the same as before. -/
structure Closes (g g' : WorkGraph) : Prop extends g.SameParts g' where
  closed : g'.phase ≠ .populating

theorem freeze_closes (hok : g.freeze = .ok g') : g.Closes g' := by
  obtain ⟨footprints, p, hto⟩ := freeze_spec hok
  rw [hto.eq]
  exact ⟨⟨rfl, rfl, rfl⟩, by simp [publishUnscheduled]⟩

theorem keep_closes (h : g.phase ≠ .populating) (r : Run) : g.Closes (g.keep r) :=
  ⟨⟨rfl, rfl, rfl⟩, h⟩

theorem beginExecution_closes {plan : Plan} (hok : g.beginExecution = .ok (plan, g')) :
    g.Closes g' := by
  unfold beginExecution at hok
  cases hr : g.require .finalized .executeWorkGraph with
  | error e => simp [hr, bind, Except.bind] at hok
  | ok =>
    simp only [hr, bind, Except.bind] at hok
    split at hok
    · cases hok
      exact ⟨⟨rfl, rfl, rfl⟩, by simp⟩
    · cases hok

theorem complete_closes (hok : g.complete = .ok g') : g.Closes g' := by
  unfold complete at hok
  cases hr : g.require .running .completeWorkGraph with
  | error e => simp [hr, bind, Except.bind] at hok
  | ok =>
    simp only [hr, bind, Except.bind, pure, Except.pure, Except.ok.injEq] at hok
    rw [← hok]
    exact ⟨⟨rfl, rfl, rfl⟩, by simp⟩

theorem Closes.trans {g'' : WorkGraph} (h : g.Closes g') (h' : g'.Closes g'') : g.Closes g'' :=
  ⟨h.toSameParts.trans h'.toSameParts, h'.closed⟩

theorem runWork_closes (services : Services) (foreign : Foreign) (leader : Worker) :
    (g.runWork services foreign leader).2.1 = g ∨
    g.Closes (g.runWork services foreign leader).2.1 := by
  unfold runWork
  cases hb : g.beginExecution with
  | error e => exact .inl rfl
  | ok answer =>
    obtain ⟨plan, g₁⟩ := answer
    have hbegin := beginExecution_closes hb
    right
    dsimp only
    generalize (((Workshop.new services foreign).enroll ⟨plan, g₁.progress, g₁.exports⟩ leader
      leader).execute) = w
    have hkeep := hbegin.trans (keep_closes hbegin.closed
      (((w.runs[g₁.build]?).getD ⟨plan, g₁.progress, g₁.exports⟩).takeResult).2)
    split
    · next hc => exact hkeep.trans (complete_closes hc)
    · exact hkeep

def Call.IsOfRun : Call → Prop
  | freeze | beginExecution | keep _ | complete | runWork .. => True
  | _ => False

theorem after_of_run {call : Call} (hcall : call.IsOfRun) :
    g.after call = g ∨ g.Closes (g.after call) := by
  have hrefused {answer : Except GraphError WorkGraph} (hok : ∀ g', answer = .ok g' → g.Closes g') :
      answer.toOption.getD g = g ∨ g.Closes (answer.toOption.getD g) :=
    getD_keeps (Q := fun g' => g' = g ∨ g.Closes g') (.inl rfl) fun g' h => .inr (hok g' h)
  cases call with
  | freeze => exact hrefused fun _ => freeze_closes
  | beginExecution =>
    simp only [after]
    cases hb : g.beginExecution with
    | error e => exact .inl rfl
    | ok answer => exact .inr (beginExecution_closes hb)
  | keep r =>
    simp only [after]
    split
    · next hrun => exact .inr (keep_closes (by rw [hrun]; simp) r)
    · exact .inl rfl
  | complete => exact hrefused fun _ => complete_closes
  | runWork services foreign leader => exact runWork_closes services foreign leader
  | _ => cases hcall

/-! ## Histories -/

/-- A graph that populating can lead to, but for its exports. -/
def Shaped (g : WorkGraph) : Prop := ∃ exports, Built (g.withExports exports)

theorem Shaped.of_withExports (h : g.Shaped) (exports : Exports) (hg : g' = g.withExports exports) :
    g'.Shaped := by
  obtain ⟨built, hbuilt⟩ := h
  exact ⟨built, hg ▸ hbuilt⟩

theorem Shaped.declare {providers : List (ProviderId × Provider)} {task : TaskDefinition}
    (h : g.Shaped) (hok : g.declare providers task = .ok g') : g'.Shaped := by
  obtain ⟨exports, hbuilt⟩ := h
  obtain ⟨registry, hr, rfl⟩ := declare_eq hok
  have hdeclared : (g.withExports exports).declare providers task =
      .ok ({ g with registry := registry }.withExports exports) := by
    simp only [WorkGraph.declare, hr, bind, Except.bind, pure, Except.pure]
  exact ⟨exports, hbuilt.declare hdeclared⟩

theorem Shaped.handOut {path : TaskPath} (h : g.Shaped) (hok : g.handOut path = .ok g') :
    g'.Shaped := by
  obtain ⟨-, rfl⟩ | ⟨-, -, rfl⟩ := handOut_cases hok
  · exact h
  · exact h.of_withExports _ rfl

theorem Shaped.queue {path : TaskPath} (h : g.Shaped) (hok : g.queue path = .ok g') :
    g'.Shaped := by
  obtain ⟨exports, hbuilt⟩ := h
  have hqueued : (g.withExports exports).queue path = .ok (g'.withExports exports) := by
    rw [queue_withExports, hok]
    rfl
  exact ⟨exports, hbuilt.queue hqueued⟩

theorem Shaped.scheduleQueued {σ : Type} {cross : Option (CrossBuild σ)} {others others' : σ}
    {grown : Bool} (h : g.Shaped)
    (hok : WorkGraph.scheduleQueued cross (g, others) = .ok (grown, g', others')) : g'.Shaped := by
  obtain ⟨exports, hbuilt⟩ := h
  have hswapped := scheduleQueued_swapped exports cross (g, others)
  rw [hok] at hswapped
  exact ⟨exports, hbuilt.scheduleQueued hswapped⟩

theorem Shaped.coherent (h : g.Shaped) : g.Coherent := by
  obtain ⟨exports, hbuilt⟩ := h
  exact hbuilt.coherent.congr ⟨rfl, rfl, rfl⟩

/-- While the graph is populated a call builds on it or closes it. -/
theorem Shaped.after (h : g.Shaped) (call : Call) :
    (g.after call).Shaped ∨ g.Closes (g.after call) := by
  have hrun (hcall : call.IsOfRun) : (g.after call).Shaped ∨ g.Closes (g.after call) :=
    (after_of_run hcall).imp_left fun hsame => by rwa [hsame]
  cases call with
  | declare providers task => exact .inl (getD_keeps (Q := Shaped) h fun _ => h.declare)
  | handOut path => exact .inl (getD_keeps (Q := Shaped) h fun _ => h.handOut)
  | queue path => exact .inl (getD_keeps (Q := Shaped) h fun _ => h.queue)
  | scheduleQueued cross others =>
    left
    simp only [WorkGraph.after]
    cases hok : WorkGraph.scheduleQueued cross (g, others) with
    | error e => exact h
    | ok answer => exact h.scheduleQueued hok
  | schedule cross paths others =>
    exact .inl (schedule_preserves cross others (fun _ _ _ _ hg hok => hg.queue hok)
      (fun _ _ _ _ hg hok => hg.scheduleQueued hok) h)
  | abandonExports => exact .inl (h.of_withExports _ rfl)
  | _ => exact hrun trivial

/-- Once it is closed no call touches its parts. -/
theorem closed_after (h : g.phase ≠ .populating) (call : Call) : g.Closes (g.after call) := by
  have hself : g.Closes g := ⟨.refl g, h⟩
  have hrun (hcall : call.IsOfRun) : g.Closes (g.after call) :=
    (after_of_run hcall).elim (fun hsame => by rwa [hsame]) id
  have hqueue {g₁ g₂ : WorkGraph} {path : TaskPath} (h₁ : g.Closes g₁)
      (hok : g₁.queue path = .ok g₂) :
      g.Closes g₂ := by
    have hshut : ¬ (g₁.phase = .populating ∧ g₁.registry.contains path = true) :=
      fun hopen => h₁.closed hopen.1
    obtain ⟨e, he⟩ := queue_error hshut
    cases he.symm.trans hok
  cases call with
  | declare providers task =>
    refine getD_keeps (Q := g.Closes) hself fun g' hok => ?_
    obtain ⟨_, _, rfl⟩ := declare_eq hok
    exact ⟨⟨rfl, rfl, rfl⟩, h⟩
  | handOut path =>
    refine getD_keeps (Q := g.Closes) hself fun g' hok => ?_
    have hspec := handOut_spec hok
    exact ⟨⟨hspec.nodes, hspec.queued, hspec.scheduled⟩, hspec.phase ▸ h⟩
  | queue path => exact getD_keeps (Q := g.Closes) hself fun g' => hqueue hself
  | scheduleQueued cross others =>
    simp only [after]
    cases hok : WorkGraph.scheduleQueued cross (g, others) with
    | error e => exact hself
    | ok answer => exact absurd (phase_of_scheduleQueued cross hok) h
  | schedule cross paths others =>
    exact schedule_preserves cross others (fun _ _ _ _ => hqueue)
      (fun g₁ _ _ _ h₁ hok => absurd (phase_of_scheduleQueued cross hok) h₁.closed) hself
  | abandonExports => exact ⟨⟨rfl, rfl, rfl⟩, h⟩
  | _ => exact hrun trivial

theorem closed_afterAll (h : g.phase ≠ .populating) (calls : List Call) :
    g.Closes (g.afterAll calls) := by
  induction calls generalizing g with
  | nil => exact ⟨.refl g, h⟩
  | cons call calls ih =>
    have hcall := closed_after h call
    exact hcall.trans (ih hcall.closed)

def Kept (g : WorkGraph) : Prop := g.Shaped ∨ g.Coherent ∧ g.phase ≠ .populating

theorem Kept.after (h : g.Kept) (call : Call) : (g.after call).Kept := by
  have hcloses {g₁ g₂ : WorkGraph} (hc : g₁.Coherent) (h₁ : g₁.Closes g₂) : g₂.Kept :=
    .inr ⟨hc.congr h₁.toSameParts, h₁.closed⟩
  rcases h with hshaped | ⟨hcoherent, hclosed⟩
  · exact (hshaped.after call).imp_right fun hc =>
      ⟨hshaped.coherent.congr hc.toSameParts, hc.closed⟩
  · exact hcloses hcoherent (closed_after hclosed call)

theorem Kept.afterAll (h : g.Kept) (calls : List Call) : (g.afterAll calls).Kept := by
  induction calls generalizing g with
  | nil => exact h
  | cons call calls ih => exact ih (h.after call)

theorem Kept.coherent (h : g.Kept) : g.Coherent := h.elim Shaped.coherent And.left

/-- Whatever is called of a work graph, whether the calls succeed or fail, its parts agree; and when
it is not populated any more, they are the same after all further calls. -/
theorem coherent_afterAll (registry : Registry) (calls : List Call) :
    ((new registry).afterAll calls).Coherent ∧
      (((new registry).afterAll calls).phase ≠ .populating → ∀ later : List Call,
        ((new registry).afterAll (calls ++ later)).nodes = ((new registry).afterAll calls).nodes ∧
        ((new registry).afterAll (calls ++ later)).queued = ((new registry).afterAll calls).queued ∧
        ((new registry).afterAll (calls ++ later)).scheduled =
          ((new registry).afterAll calls).scheduled) := by
  have hnew : (new registry).Kept := .inl ⟨∅, .new registry⟩
  refine ⟨(hnew.afterAll calls).coherent, fun hclosed later => ?_⟩
  have hlater := closed_afterAll hclosed later
  rw [afterAll, List.foldl_append]
  exact ⟨hlater.nodes, hlater.queued, hlater.scheduled⟩

/-- A task is requested together with one that is not declared, so it stays queued for the next
batch, which brings in its dependency and its finalizer. A request after the freeze is refused. -/
def oddHistory : List Call :=
  [.declare [] (smallTask "a" ["b"] ["f"] []), .declare [] (smallTask "b" [] [] []),
    .declare [] (smallTask "f" [] [] []), .handOut ⟨":", "b"⟩,
    .schedule (none : Option (CrossBuild Unit)) [⟨":", "a"⟩, ⟨":", "missing"⟩] (),
    .scheduleQueued (none : Option (CrossBuild Unit)) (), .freeze, .queue ⟨":", "a"⟩,
    .beginExecution]

theorem oddHistory_coherent : ((new (.empty ⟨"main"⟩)).afterAll oddHistory).phase = .running ∧
    ((new (.empty ⟨"main"⟩)).afterAll oddHistory).scheduled.toList = [0, 1, 2] ∧
    ((new (.empty ⟨"main"⟩)).afterAll oddHistory).Coherent ∧
    ((new (.empty ⟨"main"⟩)).afterAll (oddHistory ++ [.complete])).nodes =
      ((new (.empty ⟨"main"⟩)).afterAll oddHistory).nodes := by
  have hphase : ((new (.empty ⟨"main"⟩)).afterAll oddHistory).phase = .running := by decide +kernel
  obtain ⟨hcoherent, hlater⟩ := coherent_afterAll (.empty ⟨"main"⟩) oddHistory
  exact ⟨hphase, by decide +kernel, hcoherent, (hlater (by rw [hphase]; decide) [.complete]).1⟩

end WorkGraph

end Foreman
