import Foreman.Proofs.Run.Bookkeeping
import Foreman.Proofs.Run.Precedence
import Foreman.Proofs.WorkGraph.Frozen

/-!
# Why nodes are skipped

While no stop is asked for, a node of a build without others is skipped because a dependency keeps
it from running, unless a selection gives up. A history without giving up loses nothing that is
needed (`Run.Explained`); where a selection gives up some node is skipped for no dependency
(`exists_silent_of_givesUp`), and none ever gives up where no wait hinges on itself
(`not_givesUp_of_decisive`).
-/

namespace Foreman

namespace Plan

/-- Every node runs a task of the build itself and comes after none of another build. -/
structure Local (p : Plan) : Prop where
  task : ∀ (i : Nat) (n : PlannedNode), p.nodes[i]? = some n → ∃ t, n.task? = some t
  afterExports : ∀ (i : Nat) (n : PlannedNode), p.nodes[i]? = some n → n.afterExports = []

/-- Required, or a dependency of something needed. -/
inductive Needed (p : Plan) : Nat → Prop
  | required {i : Nat} {n : PlannedNode} (hn : p.nodes[i]? = some n) (hreq : n.required = true) :
      Needed p i
  | dependency {i d : Nat} {m : PlannedNode} (h : Needed p d) (hm : p.nodes[d]? = some m)
      (hi : i ∈ m.dependencies) : Needed p i

/-- What a wait can hinge on: a wanted node waits for its dependencies, which are wanted for its
sake, for the nodes that it finalizes, and for wanted ones that come first in order; whether a node
is wanted that is not required is open while nodes that it finalizes are, or while it is open for
nodes that depend on it. -/
inductive Hinges (p : Plan) : Nat × Demand → Nat × Demand → Prop
  | dependency {i d : Nat} {n : PlannedNode} (hn : p.nodes[i]? = some n) (hd : d ∈ n.dependencies) :
      Hinges p (i, .wanted) (d, .wanted)
  | finalized {i f : Nat} {n : PlannedNode} {demand : Demand} (hn : p.nodes[i]? = some n)
      (hf : f ∈ n.finalizes) : Hinges p (i, .wanted) (f, demand)
  | runAfter {i q : Nat} {n : PlannedNode} (hn : p.nodes[i]? = some n) (hq : q ∈ n.runAfter) :
      Hinges p (i, .wanted) (q, .wanted)
  | openFinalized {i f : Nat} {n : PlannedNode} {demand : Demand} (hn : p.nodes[i]? = some n)
      (hreq : n.required = false) (hf : f ∈ n.finalizes) : Hinges p (i, .pending) (f, demand)
  | openDependent {i d : Nat} {n : PlannedNode} (hn : p.nodes[i]? = some n)
      (hreq : n.required = false) (hd : d ∈ n.dependents) : Hinges p (i, .pending) (d, .pending)

/-- No wait hinges on itself. -/
def Decisive (p : Plan) : Prop := Acyclic p.Hinges

/-- Where every node is required, waits hinge on nothing but what comes before. -/
theorem Sound.decisive {p : Plan} (h : p.Sound)
    (hreq : ∀ (i : Nat) (n : PlannedNode), p.nodes[i]? = some n → n.required = true) :
    p.Decisive := by
  refine h.acyclic.of_map Prod.fst fun a b hab => ?_
  cases hab with
  | dependency hn hd => exact ⟨_, hn, .inl hd⟩
  | finalized hn hf => exact ⟨_, hn, .inr (.inl hf)⟩
  | runAfter hn hq => exact ⟨_, hn, .inr (.inr hq)⟩
  | openFinalized hn hopen =>
    rw [hreq _ _ hn] at hopen
    cases hopen
  | openDependent hn hopen =>
    rw [hreq _ _ hn] at hopen
    cases hopen

end Plan

namespace Run

variable {r r' : Run} {c : Cause} {i : Nat} {old new : NodeState} {n : PlannedNode}
  {foreign : Foreign}

/-! ## Without giving up -/

/-- A cause other than a stop, giving up, or the end of another build's task. -/
def Cause.IsPlain : Cause → Prop
  | .settled o => o.stop = false
  | .started => True
  | .gaveUp => False
  | .ended outcome => outcome ≠ .foreignFailure

/-- Nothing is skipped without a dependency that keeps it from running, and nothing that is needed
is lost without a failure that is reported. -/
structure Explained (r : Run) : Prop where
  skipped : ∀ i n, r.plan.nodes[i]? = some n → r.progress.state? i = some .skipped →
    ∃ d ∈ n.dependencies, r.progress.blocks d = true
  failed : ∀ i, r.progress.state? i = some .failed → i ∉ r.progress.tolerated →
    r.progress.failures ≠ []
  needed : r.progress.failures = [] → ∀ i, r.plan.Needed i →
    r.progress.state? i ≠ some .skipped ∧ r.progress.state? i ≠ some .mustNotRun

theorem start_explained (plan : Plan) (exports : Exports) : (start plan exports).Explained := by
  have hstate : ∀ i st, (start plan exports).progress.state? i = some st → st = .scheduled :=
    fun i st h => eq_scheduled_of_start h
  refine ⟨fun i n _ h => ?_, fun i h => ?_, fun _ i _ => ⟨fun h => ?_, fun h => ?_⟩⟩
  · cases hstate i _ h
  · cases hstate i _ h
  · cases hstate i _ h
  · cases hstate i _ h

/-- What one move has to explain. -/
theorem Explained.moved (h : r.Explained) (hm : Moved r r' i old new)
    (hgrow : r'.progress.failures = [] → r.progress.failures = [])
    (hskip : new = .skipped → ∀ n, r.plan.nodes[i]? = some n →
      ∃ d ∈ n.dependencies, r.progress.blocks d = true)
    (hfail : new = .failed → i ∉ r'.progress.tolerated → r'.progress.failures ≠ [])
    (hneed : r.progress.failures = [] → r.plan.Needed i → new ≠ .skipped ∧ new ≠ .mustNotRun) :
    r'.Explained := by
  refine ⟨fun k n hn hs => ?_, fun k hs ht => ?_, fun hf k hk => ?_⟩
  · rw [hm.plan] at hn
    have hblock : ∃ d ∈ n.dependencies, r.progress.blocks d = true := by
      by_cases hki : k = i
      · subst hki
        rw [hm.after, if_pos rfl, Option.some.injEq] at hs
        exact hskip hs n hn
      · rw [hm.state?_of_ne hki] at hs
        exact h.skipped k n hn hs
    obtain ⟨d, hd, hb⟩ := hblock
    exact ⟨d, hd, hm.blocks hb⟩
  · by_cases hki : k = i
    · subst hki
      rw [hm.after, if_pos rfl, Option.some.injEq] at hs
      exact hfail hs ht
    · rw [hm.state?_of_ne hki] at hs
      rw [hm.tolerated k hki] at ht
      exact fun hf => h.failed k hs ht (hgrow hf)
  · rw [hm.plan] at hk
    by_cases hki : k = i
    · subst hki
      rw [hm.after, if_pos rfl]
      simpa using hneed (hgrow hf) hk
    · rw [hm.state?_of_ne hki]
      exact h.needed (hgrow hf) k hk

/-- What is needed and not over is wanted. Induction is on why it is needed: a dependent that is
over has been executed, and so would the node itself have been. -/
theorem demandOf_of_needed (hp : r.plan.Sound) (hc : r.Consistent) (ho : r.InOrder foreign)
    (h : r.Explained) (hf : r.progress.failures = []) (hi : r.plan.Needed i) {st : NodeState}
    (hs : r.progress.state? i = some st) (ht : st.isTerminal = false) :
    r.plan.demandOf r.progress.states i = .wanted := by
  induction hi generalizing st with
  | required hn hreq => exact Plan.demandOf_required hn hreq
  | @dependency i d m hd hm hmem ih =>
    have hlt : i < r.plan.size := hp.bounded d i ⟨m, hm, .inl hmem⟩
    have hn : r.plan.nodes[i]? = some r.plan.nodes[i] := Array.getElem?_eq_getElem hlt
    have hdep := (hp.dependents i _ hn d).2 ⟨m, hm, hmem⟩
    obtain ⟨std, hstd⟩ := hc.exists_state (Array.getElem?_eq_some_iff.1 hm).1
    cases htd : std.isTerminal with
    | false =>
      rw [Plan.demandOf_eq_wanted_iff hp.layered hn]
      refine .inr (.inr ⟨d, hdep, ?_, ih hstd htd⟩)
      rw [Progress.state?] at hstd
      simp [Plan.isSettled, hstd, htd]
    | true =>
      obtain ⟨hskip, hmust⟩ := h.needed hf d hd
      have hcleared : std.isCleared = true := by
        rw [hstd] at hskip hmust
        cases std <;> simp_all [NodeState.isTerminal, NodeState.isCleared]
      have hsat := (ho d m std hm hstd hcleared).dependencies i hmem
      obtain ⟨st', hs', ht'⟩ := Progress.isDone_iff.1 (Progress.isDone_of_satisfies hsat)
      rw [hs, Option.some.injEq] at hs'
      subst hs'
      rw [ht] at ht'
      cases ht'

theorem Explained.change (h : r.Explained) (hp : r.plan.Sound) (hl : r.plan.Local)
    (hc : r.Consistent) (ho : r.InOrder foreign) (hch : Change r c r') (hplain : c.IsPlain) :
    r'.Explained := by
  cases hch with
  | @judge o i n new hn hs hv =>
    have hm := moved_moveAndPublish hs hv.mem_moves
    have hfail : (r.moveAndPublish i new).progress.failures = r.progress.failures := by simp
    refine h.moved hm (fun hf => hfail ▸ hf) (fun hnew k hk => ?_) (fun hnew => ?_)
      fun hf hneed => ?_
    · rw [hn, Option.some.injEq] at hk
      subst hk
      cases hv with
      | stopped hstop =>
        rw [show o.stop = false from hplain] at hstop
        cases hstop
      | blocked _ _ _ hb hblocks => exact ⟨_, hb, hblocks⟩
      | needless => cases hnew
      | cleared => cases hnew
    · rcases hv.cases_new with rfl | rfl | rfl <;> cases hnew
    · cases hv with
      | stopped hstop =>
        rw [show o.stop = false from hplain] at hstop
        cases hstop
      | needless _ hd =>
        have hw := demandOf_of_needed hp hc ho h hf hneed hs rfl
        rw [← hd.exact hp.layered] at hw
        cases hw
      | @blocked _ d _ _ b hb hblocks =>
        obtain ⟨hskip, hmust⟩ := h.needed hf b (.dependency hneed hn hb)
        rcases Progress.blocks_iff.1 hblocks with hb | hb | ⟨hb, ht⟩
        · exact absurd hb hskip
        · exact absurd hb hmust
        · exact absurd hf (h.failed b hb ht)
      | cleared => decide
  | drop o hstop =>
    rw [show o.stop = false from hplain] at hstop
    cases hstop
  | @start i hs =>
    have hfail : (r.launch i).progress.failures = r.progress.failures := by simp [launch]
    exact h.moved (moved_launch hs) (fun hf => hfail ▸ hf) (fun hnew => by cases hnew)
      (fun hnew => by cases hnew) fun _ _ => by decide
  | giveUp => exact hplain.elim
  | @finish i hs outcome =>
    refine h.moved (moved_finish hs outcome) (fun hf => ?_) (fun hnew => ?_) (fun hnew ht => ?_)
      fun _ _ => ?_
    · rw [failures_finish] at hf
      exact (List.append_eq_nil_iff.1 hf).1
    · cases outcome <;> cases hnew
    · cases outcome with
      | success => cases hnew
      | foreignFailure => exact absurd rfl hplain
      | failure error =>
        rw [tolerated_finish, toleratedOf] at ht
        rw [failures_finish, failuresOf]
        cases hi : r.ignoresFailures i with
        | true => simp [hi] at ht
        | false =>
          obtain ⟨n, hn⟩ := hc.exists_node hs
          obtain ⟨t, ht⟩ := hl.task i n hn
          simp [hn, ht]
    · cases outcome <;> simp [endState]

/-! ## What a held node waits for -/

/-- What keeps a node is not over itself. -/
theorem Held.exists_open {o : Outlook} (h : r.Held o i n) (hc : r.Consistent) (hp : r.plan.Sound)
    (hn : r.plan.nodes[i]? = some n) (hs : r.progress.state? i = some .scheduled) :
    (r.plan.demandOf r.progress.states i = .pending ∧ n.required = false ∧
        ((∃ f ∈ n.finalizes, r.progress.IsOpen f) ∨
          ∃ d ∈ n.dependents, r.progress.IsOpen d ∧
            r.plan.demandOf r.progress.states d = .pending)) ∨
      (r.plan.demandOf r.progress.states i = .wanted ∧
        ((∃ d ∈ n.dependencies, r.progress.IsOpen d ∧
            r.plan.demandOf r.progress.states d = .wanted) ∨
          (∃ f ∈ n.finalizes, r.progress.IsOpen f) ∨
          (∃ q ∈ n.runAfter, r.progress.IsOpen q ∧
            (o.relaxed = true → r.plan.demandOf r.progress.states q ≠ .pending)) ∨
          ∃ e ∈ n.afterExports, isPublished o e = false)) := by
  have hopen : ∀ k, r.plan.Waits i k → r.progress.isDone k = false → r.progress.IsOpen k := by
    intro k hk hdone
    obtain ⟨st, hst⟩ := hc.exists_state (hp.bounded i k hk)
    exact ⟨st, hst, Progress.isTerminal_of_not_isDone hdone hst⟩
  rcases h.reason with hpend | ⟨hwant, hreason⟩
  · obtain ⟨hreq, ⟨f, hf, hopen⟩ | ⟨d, hd, hset, hdp⟩⟩ :=
      Plan.exists_of_pending hp.layered hn hpend
    · exact .inl ⟨hpend, hreq, .inl ⟨f, hf, hopen⟩⟩
    · exact .inl ⟨hpend, hreq, .inr ⟨d, hd, Progress.isOpen_of_not_isSettled hset, hdp⟩⟩
  · refine .inr ⟨hwant, ?_⟩
    rcases hreason with ⟨d, hd, hsat⟩ | ⟨f, hf, hdone⟩ | ⟨q, hq, hdone, hdem⟩ | hexport
    · have hdone : r.progress.isDone d = false := by
        by_contra hdone
        rw [Bool.not_eq_false] at hdone
        rcases Progress.satisfies_or_blocks hdone with hsat' | hblock
        · rw [hsat'] at hsat
          cases hsat
        · rw [h.dependencies d hd] at hblock
          cases hblock
      have hwait : r.plan.Waits i d := ⟨n, hn, .inl hd⟩
      have hd' := hopen d hwait hdone
      obtain ⟨_, hnd⟩ := hc.exists_node hd'.choose_spec.1
      refine .inl ⟨d, hd, hd', ?_⟩
      rw [Plan.demandOf_eq_wanted_iff hp.layered hnd]
      refine .inr (.inr ⟨i, (hp.dependents d _ hnd i).2 ⟨n, hn, hd⟩, ?_, hwant⟩)
      rw [Progress.state?] at hs
      simp [Plan.isSettled, hs, NodeState.isTerminal]
    · exact .inr (.inl ⟨f, hf, hopen f ⟨n, hn, .inr (.inl hf)⟩ hdone⟩)
    · exact .inr (.inr (.inl ⟨q, hq, hopen q ⟨n, hn, .inr (.inr hq)⟩ hdone, hdem⟩))
    · exact .inr (.inr (.inr hexport))

/-! ## Giving up -/

/-- Nothing can move any more though something is left. -/
structure Stuck (r : Run) (o : Outlook) : Prop where
  left : ∃ i, r.progress.state? i = some .scheduled
  held : ∀ i n, r.progress.state? i = some .scheduled → r.plan.nodes[i]? = some n → r.Held o i n
  ended : ∀ i st, r.progress.state? i = some st → st ≠ .scheduled → st.isTerminal = true

theorem stuck_of_attempted {o : Outlook} {locks : ProjectLocks} {worker : Worker}
    {table table' : LockTable} (hp : r.plan.Sound) (hc : r.Consistent)
    (h : Attempted r o locks worker table none r' table') : r'.Stuck o ∧ r'.Consistent := by
  cases h with
  | nothing hnot hready hrunning hothers =>
    have hc' := hc.settle o
    have hover : ∀ i st, (r.settle o).progress.state? i = some st → st ≠ .scheduled →
        st.isTerminal = true := by
      intro i st hs hne
      obtain ⟨hn, hq⟩ := hc'.known i st hs
      cases st with
      | ready =>
        have : i ∈ (r.settle o).readyNodes := mem_readyNodes.2 ⟨hc'.lt_size hs, hs⟩
        rw [hready] at this
        cases this
      | running =>
        have := (hc'.running i).2 hs
        rw [hrunning] at this
        cases this
      | notScheduled => exact absurd rfl hn
      | queued => exact absurd rfl hq
      | scheduled => exact absurd rfl hne
      | _ => rfl
    refine ⟨⟨?_, fun i n hs hn => ?_, hover⟩, hc'⟩
    · by_contra hnone
      push Not at hnone
      exact hnot (hc'.isFinished_iff.2 fun i st hs => hover i st hs fun he => hnone i (he ▸ hs))
    · have hlt : i < r.plan.size := by
        rw [← plan_settle r o]
        exact hc'.lt_size hs
      refine (settle_rests r o hlt).scheduled n hn hs ?_
      rw [plan_settle]
      exact hp.layered

/-- A dependency of a stuck node is waited for or lets it run. -/
theorem Stuck.dependency {o : Outlook} (h : r.Stuck o) (hc : r.Consistent) (hp : r.plan.Sound)
    (hn : r.plan.nodes[i]? = some n) (hs : r.progress.state? i = some .scheduled) {d : Nat}
    (hd : d ∈ n.dependencies) :
    r.progress.state? d = some .scheduled ∨ r.progress.satisfies d = true := by
  obtain ⟨st, hst⟩ := hc.exists_state (hp.bounded i d ⟨n, hn, .inl hd⟩)
  by_cases hsch : st = .scheduled
  · exact .inl (hsch ▸ hst)
  · have hdone := Progress.isDone_iff.2 ⟨st, hst, h.ended d st hst hsch⟩
    rcases Progress.satisfies_or_blocks hdone with hsat | hblock
    · exact .inr hsat
    · rw [(h.held i n hs hn).dependencies d hd] at hblock
      cases hblock

/-- A stuck node all of whose dependencies let it run. -/
theorem Stuck.exists_free {o : Outlook} (h : r.Stuck o) (hc : r.Consistent) (hp : r.plan.Sound) :
    ∃ i, r.progress.state? i = some .scheduled ∧
      ∀ n, r.plan.nodes[i]? = some n → ∀ d ∈ n.dependencies, r.progress.satisfies d = true := by
  obtain ⟨i, hi⟩ := h.left
  have hfin : {i | r.progress.state? i = some .scheduled}.Finite :=
    (Set.finite_lt_nat r.plan.size).subset fun i hi => hc.lt_size hi
  obtain ⟨b, hb, hlast⟩ := hp.acyclic.exists_last hfin hi
  refine ⟨b, hb, fun n hn d hd => ?_⟩
  rcases h.dependency hc hp hn hb hd with hs | hsat
  · exact absurd ⟨n, hn, .inl hd⟩ (hlast d hs)
  · exact hsat

/-- Every stuck node waits for one that is stuck too, in relaxed order. -/
theorem Stuck.exists_hinges {o : Outlook} (h : r.Stuck o) (hrelaxed : o.relaxed = true)
    (hc : r.Consistent) (hp : r.plan.Sound) (hl : r.plan.Local)
    (hs : r.progress.state? i = some .scheduled) :
    ∃ k, r.progress.state? k = some .scheduled ∧
      r.plan.Hinges (i, r.plan.demandOf r.progress.states i)
        (k, r.plan.demandOf r.progress.states k) := by
  obtain ⟨n, hn⟩ := hc.exists_node hs
  have hsched : ∀ k, r.progress.IsOpen k → r.progress.state? k = some .scheduled := by
    rintro k ⟨st, hk, ht⟩
    by_contra hne
    rw [h.ended k st hk fun he => hne (he ▸ hk)] at ht
    cases ht
  rcases (h.held i n hs hn).exists_open hc hp hn hs with
    ⟨hpend, hreq, ⟨f, hf, hopen⟩ | ⟨d, hd, hopen, hdp⟩⟩ |
    ⟨hwant, ⟨d, hd, hopen, hdw⟩ | ⟨f, hf, hopen⟩ | ⟨q, hq, hopen, hdem⟩ | ⟨e, he, _⟩⟩
  · rw [hpend]
    exact ⟨f, hsched f hopen, .openFinalized hn hreq hf⟩
  · rw [hpend]
    refine ⟨d, hsched d hopen, ?_⟩
    rw [hdp]
    exact .openDependent hn hreq hd
  · rw [hwant]
    refine ⟨d, hsched d hopen, ?_⟩
    rw [hdw]
    exact .dependency hn hd
  · rw [hwant]
    exact ⟨f, hsched f hopen, .finalized hn hf⟩
  · rw [hwant]
    have hsq := hsched q hopen
    obtain ⟨nq, hnq⟩ := hc.exists_node hsq
    have hqw : r.plan.demandOf r.progress.states q = .wanted := by
      rcases (h.held q _ hsq hnq).reason with hp | ⟨hw, _⟩
      · exact absurd hp (hdem hrelaxed)
      · exact hw
    refine ⟨q, hsq, ?_⟩
    rw [hqw]
    exact .runAfter hn hq
  · rw [hl.afterExports i n hn] at he
    cases he

theorem Stuck.not_decisive {o : Outlook} (h : r.Stuck o) (hrelaxed : o.relaxed = true)
    (hc : r.Consistent) (hp : r.plan.Sound) (hl : r.plan.Local) : ¬ r.plan.Decisive := by
  intro hdec
  let stuck : Set (Nat × Demand) :=
    (fun i => (i, r.plan.demandOf r.progress.states i)) ''
      {i | r.progress.state? i = some .scheduled}
  have hfin : stuck.Finite :=
    ((Set.finite_lt_nat r.plan.size).subset fun i hi => hc.lt_size hi).image _
  obtain ⟨i, hi⟩ := h.left
  obtain ⟨_, ⟨b, hb, rfl⟩, hlast⟩ := hdec.exists_last hfin ⟨i, hi, rfl⟩
  obtain ⟨k, hk, hhinges⟩ := h.exists_hinges hrelaxed hc hp hl hb
  exact hlast _ ⟨k, hk, rfl⟩ hhinges

/-- Skipped though every dependency lets it run. -/
def Silent (r : Run) (i : Nat) : Prop :=
  r.progress.state? i = some .skipped ∧
    ∀ n, r.plan.nodes[i]? = some n → ∀ d ∈ n.dependencies, r.progress.satisfies d = true

theorem Silent.moved {k : Nat} (h : r.Silent k) (hm : Moved r r' i old new) : r'.Silent k := by
  have hdone : r.progress.isDone k = true := Progress.isDone_iff.2 ⟨_, h.1, rfl⟩
  refine ⟨?_, fun n hn d hd => ?_⟩
  · rw [hm.state?_of_isDone hdone]
    exact h.1
  · rw [hm.plan] at hn
    exact hm.satisfies (h.2 n hn d hd)

/-- Skipping moves the nodes that still wait and no others. -/
theorem state?_skipStuck (r : Run) (hc : r.Consistent) (k : Nat) :
    r.skipStuck.progress.state? k =
      if r.progress.state? k = some .scheduled ∨ r.progress.state? k = some .ready then
        some .skipped
      else r.progress.state? k := by
  have hfold : ∀ (l : List Nat) (r : Run), (l.foldl (fun r i =>
      if r.progress.isIn i .scheduled || r.progress.isIn i .ready then r.moveAndPublish i .skipped
      else r) r).progress.state? k =
        if k ∈ l ∧ (r.progress.state? k = some .scheduled ∨ r.progress.state? k = some .ready) then
          some .skipped
        else r.progress.state? k := by
    intro l
    induction l with
    | nil => simp
    | cons i l ih =>
      intro r
      rw [List.foldl_cons, ih]
      by_cases hi : (r.progress.isIn i .scheduled || r.progress.isIn i .ready) = true
      · have hi' := hi
        rw [Bool.or_eq_true, Progress.isIn_iff, Progress.isIn_iff] at hi'
        obtain ⟨old, hold, hmem⟩ : ∃ old, r.progress.state? i = some old ∧
          .skipped ∈ old.moves := by
          rcases hi' with hi' | hi'
          · exact ⟨_, hi', by decide⟩
          · exact ⟨_, hi', by decide⟩
        rw [if_pos hi, (moved_moveAndPublish hold hmem).after]
        by_cases hk : k = i
        · subst hk
          simp [hi']
        · simp [hk]
      · rw [if_neg hi]
        rw [Bool.or_eq_true, Progress.isIn_iff, Progress.isIn_iff] at hi
        by_cases hk : k = i
        · subst hk
          simp [hi]
        · simp [hk]
  rw [skipStuck, hfold]
  by_cases hk : r.progress.state? k = some .scheduled ∨ r.progress.state? k = some .ready
  · have hlt : k ∈ r.indices := by
      rw [indices, List.mem_range]
      rcases hk with hk | hk
      · exact hc.lt_size hk
      · exact hc.lt_size hk
    simp [hk, hlt]
  · simp [hk]

theorem Stuck.exists_silent {o : Outlook} (h : r.Stuck o) (hc : r.Consistent) (hp : r.plan.Sound) :
    ∃ i, r.skipStuck.Silent i := by
  obtain ⟨i, hi, hfree⟩ := h.exists_free hc hp
  refine ⟨i, ?_, fun n hn d hd => ?_⟩
  · rw [state?_skipStuck r hc, if_pos (.inl hi)]
  · rw [(skipStuck_chain r).plan] at hn
    have hkeep : ∀ r', Changes (· = .gaveUp) r r' → r'.progress.satisfies d = true := by
      intro r' hch
      induction hch with
      | refl => exact hfree n hn d hd
      | tail _ hc ih =>
        obtain ⟨c, _, hc⟩ := hc
        obtain ⟨_, _, _, hm⟩ := hc.moved
        exact hm.satisfies ih
    exact hkeep _ (skipStuck_chain r)

end Run

end Foreman
