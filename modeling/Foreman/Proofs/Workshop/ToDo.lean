import Foreman.Proofs.Workshop.Jam
import Foreman.Proofs.Workshop.Manning

/-!
# What is left to do

What a workshop has left to do is counted by `Workshop.toDo`. A change of a run other than the end
of a node lowers the count of that run (`runToDo_changes`); and a step of a member lowers the count
of the workshop, or it changes nothing (`Crewed.step_lowers`).
-/

namespace Foreman

namespace Workshop

variable {w w' : Workshop} {j : Nat} {m : Member} {r r' : Run} {activity : Activity}
  {table : LockTable} {locks : ProjectLocks} {i k : Nat} {n : PlannedNode} {old new : NodeState}
  {stop : Bool} {foreign : Foreign}

/-! ## Runs -/

/-- What a move of one node makes of what is left to do in a run. -/
theorem runToDo_moved (locks : ProjectLocks) (hm : Run.Moved r r' i old new)
    (hn : r.plan.nodes[i]? = some n) :
    runToDo locks r' + nodeToDo locks r.plan.build n old =
      runToDo locks r + nodeToDo locks r.plan.build n new := by
  have hlt : i < r.progress.states.toList.length := (Array.getElem?_eq_some_iff.1 hm.before).1
  have hstates : r'.progress.states.toList = r.progress.states.toList.set i new := by
    refine List.ext_getElem? fun k => ?_
    have hk := hm.after k
    rw [Progress.state?, Progress.state?] at hk
    rw [Array.getElem?_toList, hk, List.getElem?_set, if_pos hlt, Array.getElem?_toList]
    simp only [eq_comm (a := i)]
  have hbefore : (r.plan.nodes.toList.zip r.progress.states.toList)[i]? = some (n, old) :=
    List.getElem?_zip_eq_some.2 ⟨by rw [Array.getElem?_toList, hn],
      (Array.getElem?_toList ..).trans hm.before⟩
  have htotal := total_set
    (fun x : PlannedNode × NodeState => nodeToDo locks r.plan.build x.1 x.2) hbefore (n, new)
  rw [runToDo, runToDo, hm.plan, hstates, zip_set (by rw [Array.getElem?_toList, hn])]
  exact htotal

/-- What is left to do for a node that was waiting is less once it has moved. -/
theorem nodeToDo_lt (hlegal : new ∈ old.moves) (hold : old = .scheduled ∨ old = .ready)
    (locks : ProjectLocks) (r : Run) (n : PlannedNode) :
    nodeToDo locks r.plan.build n new < nodeToDo locks r.plan.build n old := by
  rcases hold with rfl | rfl <;> cases new <;> simp_all [NodeState.moves, nodeToDo]

/-- A selection moves waiting nodes only. -/
theorem waited_of_selection {c : Run.Cause} (hc : Run.Change r c r')
    (hcause : c.OfSelection stop foreign) :
    ∃ i old new, Run.Moved r r' i old new ∧ (old = .scheduled ∨ old = .ready) := by
  cases hc with
  | judge o hn hs hv => exact ⟨_, _, _, Run.moved_moveAndPublish hs hv.mem_moves, .inl rfl⟩
  | drop o ho hs => exact ⟨_, _, _, Run.moved_moveAndPublish hs (by decide), .inr rfl⟩
  | start hs => exact ⟨_, _, _, Run.moved_launch hs, .inr rfl⟩
  | giveUp hs =>
    rcases hs with hs | hs
    · exact ⟨_, _, _, Run.moved_moveAndPublish hs (by decide), .inl rfl⟩
    · exact ⟨_, _, _, Run.moved_moveAndPublish hs (by decide), .inr rfl⟩
  | finish =>
    rcases hcause with hcause | hcause
    · exact hcause.elim
    · cases hcause

/-- A selection that changes its run leaves less to do, and for a node that it starts all that was
left to do for it is taken off. -/
theorem runToDo_changes (hc : r.Consistent)
    (h : Run.Changes (Run.Cause.OfSelection stop foreign) r r') (locks : ProjectLocks) :
    (r' = r ∨ runToDo locks r' < runToDo locks r) ∧
      ∀ (i : Nat) n, r.plan.nodes[i]? = some n → r.progress.state? i ≠ some .running →
        r'.progress.state? i = some .running →
        runToDo locks r' + nodeSteps locks r.plan.build n + 1 ≤ runToDo locks r := by
  induction h with
  | refl => exact ⟨.inl rfl, fun i n _ hnot hi => absurd hi hnot⟩
  | @tail r₁ r₂ hbefore hch ih =>
    obtain ⟨c, hcause, hch⟩ := hch
    obtain ⟨hsame, hstarted⟩ := ih
    obtain ⟨k, old, new, hm, hold⟩ := waited_of_selection hch hcause
    have hplan : r₁.plan = r.plan := Run.Changes.plan hbefore
    obtain ⟨n₁, hn₁⟩ := (hc.changes hbefore).exists_node hm.before
    have hmoved := runToDo_moved locks hm hn₁
    have hlt := nodeToDo_lt hm.legal hold locks r₁ n₁
    have hle : runToDo locks r₁ ≤ runToDo locks r := by
      rcases hsame with rfl | hlt
      · exact Nat.le_refl _
      · exact Nat.le_of_lt hlt
    refine ⟨.inr (by omega), fun i n hn hnot hi => ?_⟩
    rw [hm.after] at hi
    split at hi
    · rename_i hik
      subst hik
      rw [hplan, hn, Option.some.injEq] at hn₁
      subst hn₁
      cases hi
      have hold : old = .ready := by
        have := hm.legal
        rcases hold with rfl | rfl <;> simp_all [NodeState.moves]
      subst hold
      rw [hplan] at hmoved
      simp only [nodeToDo] at hmoved
      omega
    · have := hstarted i n hn hnot hi
      omega

/-! ## Members -/

/-- What is left to do in a workshop changes as it does in the run and for the member. -/
theorem Done.toDo (hd : w.Done j m r' activity table w') (hm : w.crew[j]? = some m)
    (hr : w.runs[m.build]? = some r) :
    w'.toDo + (runToDo w.services.locks r + memberToDo m) =
      w.toDo + (runToDo w.services.locks r' + memberToDo { m with activity }) := by
  have hruns := total_values_replace (runToDo w.services.locks) hr hd.runs
  have hlt : j < w.crew.toList.length := (Array.getElem?_eq_some_iff.1 hm).1
  have hcrew : w'.crew.toList = w.crew.toList.set j { m with activity } := by
    refine List.ext_getElem? fun k => ?_
    rw [Array.getElem?_toList, hd.crew, List.getElem?_set, if_pos hlt, Array.getElem?_toList]
    simp only [eq_comm (a := j)]
  have hmembers := total_set memberToDo (l := w.crew.toList) (by rw [Array.getElem?_toList, hm])
    { m with activity }
  rw [Workshop.toDo, Workshop.toDo, hd.locks, hcrew]
  omega

/-- To run a node is less than to start and run it. -/
theorem memberToDo_activity (m : Member) (n : PlannedNode) (b : BuildId) (locks : ProjectLocks)
    (i : Nat) (keys : List ResourceKey) :
    memberToDo { m with activity := n.activity b locks i keys } < nodeSteps locks b n := by
  rw [memberToDo, nodeSteps, PlannedNode.activity]
  cases n.work with
  | foreign d path => simp
  | task definition =>
    dsimp only
    cases definition.action <;> simp

/-- A deed leaves less to do, if it is one. -/
theorem Deed.toDo_lt (hd : w.Deed m r r' activity table) (hc : r.Consistent)
    (hbuild : r.plan.build = m.build) (hmanned : r.Manned w.services.locks m.activity) :
    runToDo w.services.locks r' + memberToDo { m with activity } <
        runToDo w.services.locks r + memberToDo m ∨
      r' = r ∧ m.activity = .idle ∧ activity = .idle ∧ table = w.services.table := by
  cases hd with
  | rest hact hnext hchanges =>
    obtain ⟨hsame, _⟩ := runToDo_changes hc hchanges w.services.locks
    have hbefore : memberToDo m = 1 := by rw [memberToDo, hact]
    rcases hnext with rfl | rfl
    · have hafter : memberToDo { m with activity := .idle } = 1 := rfl
      rcases hsame with rfl | hlt
      · exact .inr ⟨rfl, hact, rfl, rfl⟩
      · exact .inl (by omega)
    · have hafter : memberToDo { m with activity := .off } = 0 := rfl
      refine .inl ?_
      rcases hsame with rfl | hlt <;> omega
  | @begin r' i n _ _ hact hn hnew _ hchanges hrunning =>
    have hstarted := (runToDo_changes hc hchanges w.services.locks).2 i n hn hnew
      ((hrunning i).2 (.inl rfl))
    have hmember := memberToDo_activity m n m.build w.services.locks i
      (n.lockKeys r.plan.build w.services.locks)
    rw [hbuild] at hstarted hmember ⊢
    omega
  | @finish i keys outcome hact =>
    have hi : r.progress.state? i = some .running := hmanned.running (by rw [hact]; rfl)
    obtain ⟨n, hn⟩ := hc.exists_node hi
    have hmoved := runToDo_moved w.services.locks (Run.moved_finish hi outcome) hn
    have hended : nodeToDo w.services.locks r.plan.build n (Run.endState outcome) = 0 := by
      cases outcome <;> rfl
    have hrunning : nodeToDo w.services.locks r.plan.build n .running = 0 := rfl
    have hbefore : memberToDo m = 2 := by rw [memberToDo, hact]; rfl
    have hafter : memberToDo { m with activity := .idle } = 1 := rfl
    exact .inl (by omega)
  | trade hact | call hact | answer hact | resume hact => exact .inl (by simp [memberToDo, hact])

/-- What a member that selects makes of the services and the runs. -/
theorem stepIdle_books (w : Workshop) (j : Nat) (m : Member) (r : Run) :
    (w.stepIdle j m r).services = (r.beginTurn w.services w.foreign m.worker).2.2 ∧
      (w.stepIdle j m r).runs =
        (w.setRun m.build (r.beginTurn w.services w.foreign m.worker).2.1).runs := by
  rw [stepIdle]
  generalize r.beginTurn w.services w.foreign m.worker = turn
  obtain ⟨selection, r', services⟩ := turn
  cases selection with
  | run i keys =>
    dsimp only
    split <;> exact ⟨rfl, rfl⟩
  | wait => exact ⟨rfl, rfl⟩
  | done => exact ⟨rfl, rfl⟩

/-- A member that selects and comes to nothing leaves all as it was. -/
theorem Done.alike (hd : w.Done j m r .idle w.services.table (w.step j)) (hm : w.crew[j]? = some m)
    (hr : w.runs[m.build]? = some r) (hact : m.activity = .idle) : Alike w (w.step j) := by
  have hruns : ∀ b : BuildId, (w.step j).runs[b]? = w.runs[b]? := by
    intro b
    rw [hd.runs]
    split
    · rename_i hb
      rw [hb, hr]
    · rfl
  refine ⟨Array.ext_getElem? fun k => ?_, hruns, ?_, ?_⟩
  · rw [hd.crew, ← crew_of_eq hm hact k]
  · have htable := hd.table
    rw [step_eq_stepIdle hm hr hact, (stepIdle_books w j m r).1, Run.beginTurn] at htable ⊢
    generalize r.select w.services.stopRequested w.foreign w.services.locks m.worker
      w.services.table = answer at htable ⊢
    obtain ⟨selection, q, table'⟩ := answer
    dsimp only at htable ⊢
    rw [htable]
  · funext b path
    rw [Workshop.foreign, Workshop.foreign, hruns, hd.outside]

/-- A step of a member leaves less to do, or it changes nothing. -/
theorem Crewed.step_lowers (h : w.Crewed) (j : Nat) :
    (w.step j).toDo < w.toDo ∨ Alike w (w.step j) := by
  rcases h.step_cases j with hstay | ⟨m, r, r', activity, table, hm, hr, hdeed, _, hdone⟩
  · rw [hstay]
    exact .inr (.refl w)
  · have htoDo := hdone.toDo hm hr
    obtain ⟨q, hq, hmanned⟩ := h.manned j m hm
    cases hr.symm.trans hq
    rcases hdeed.toDo_lt (h.consistent _ _ hr) (h.build _ _ hr) hmanned with
      hlt | ⟨rfl, hact, rfl, rfl⟩
    · exact .inl (by omega)
    · exact .inr (hdone.alike hm hr hact)

/-! ## Steps that change something -/

/-- Where its step changes nothing, a member that selects has to wait, and its run stays what it
is. -/
theorem Alike.turn (ha : Alike w (w.step j)) (hm : w.crew[j]? = some m)
    (hr : w.runs[m.build]? = some r) (hc : r.Consistent) (hact : m.activity = .idle) :
    (r.beginTurn w.services w.foreign m.worker).1 = .wait ∧
      (r.beginTurn w.services w.foreign m.worker).2.1 = r := by
  obtain ⟨r', activity, table, hdeed, hdone⟩ := stepIdle_spec hm hc hact
  rw [← step_eq_stepIdle hm hr hact] at hdone
  have hidle : activity = .idle := by
    have hself := hdone.crew_self
    rw [ha.crew, hm, Option.some.injEq] at hself
    rw [← hact, hself]
  have hsame : r' = r := by
    have hself := hdone.runs m.build
    rw [ha.runs, hr, if_pos rfl, Option.some.injEq] at hself
    exact hself.symm
  generalize hnext : activity = next at hdeed
  cases hdeed with
  | rest _ _ _ _ _ _ hturn hwait => exact ⟨hwait (hnext ▸ hidle), hturn ▸ hsame⟩
  | @begin r' i n =>
    have hindex := n.index?_activity m.build w.services.locks i
      (n.lockKeys r.plan.build w.services.locks)
    rw [← hnext, hidle] at hindex
    cases hindex
  | trade h | finish h | call h | answer h | resume h =>
    rw [hact] at h
    cases h

/-- A member that carries on with its node does something else afterwards. -/
theorem CanAdvance.exists_ne (h : w.CanAdvance m r m.activity) (hm : w.crew[j]? = some m)
    (hr : w.runs[m.build]? = some r) (hbusy : m.activity ≠ .idle) :
    ∃ activity, (w.step j).crew[j]? = some { m with activity } ∧ activity ≠ m.activity := by
  rw [step]
  simp only [hm, hr]
  generalize hact : m.activity = activity at h hbusy
  cases h with
  | select => exact absurd rfl hbusy
  | finish => exact ⟨.idle, (stepFinish_spec hm).crew_self, by simp⟩
  | @visit i n t keys step steps outcome hn ht h =>
    obtain ⟨⟨table, sight⟩, htake⟩ := Option.isSome_iff_exists.1 h
    simp only [hn, stepAction, ht, htake]
    exact ⟨_, (done_setActivity hm hr _ table _).crew_self, by simp⟩
  | call => exact ⟨_, (done_setActivity hm hr w.log _ _).crew_self, by simp⟩
  | answer h =>
    obtain ⟨outcome, ho⟩ := Option.ne_none_iff_exists'.1 h
    simp only [ho]
    exact ⟨_, (done_setActivity hm hr w.log w.services.table _).crew_self, by simp⟩
  | resume h =>
    obtain ⟨table, htable⟩ := Option.isSome_iff_exists.1 h
    simp only [htable]
    exact ⟨_, (done_setActivity hm hr w.log table _).crew_self, by simp⟩

/-- A member that can take a step that changes something leaves less to do. -/
theorem Crewed.lowers_of_enabled (h : w.Crewed) (he : w.Enabled j) : (w.step j).toDo < w.toDo := by
  refine (h.step_lowers j).resolve_right fun halike => ?_
  rcases he with ⟨m, r, hm, hr, hadvances⟩ | ⟨m, r, hm, hr, hact, hmoves⟩
  · by_cases hact : m.activity = .idle
    · have hturn := halike.turn hm hr (h.consistent _ _ hr) hact
      rw [hact] at hadvances
      cases hadvances with
      | select hselects => exact hselects hturn.1
    · obtain ⟨activity, hcrew, hne⟩ := hadvances.exists_ne hm hr hact
      rw [halike.crew, hm, Option.some.injEq] at hcrew
      exact hne (congrArg Member.activity hcrew).symm
  · rw [(halike.turn hm hr (h.consistent _ _ hr) hact).2] at hmoves
    exact hmoves rfl

end Workshop

end Foreman
