import Foreman.Proofs.BuildTree.Obligations
import Foreman.Proofs.BuildTree.Starting

/-!
# A scheduled tree comes to rest

Scheduling a tree comes to its end: each merge does, and so do the rounds (`scheduling_rests`).
Where it ends without an error the tree is at rest (`Record.AtRest`): nothing is requested any more,
each task of another build on which one depends is required there, and nothing runs that was not
asked for, on the way along hard dependencies and finalizers. The tasks that a batch dropped when it
failed are not asked for again, though, and a tree can be at rest without them
(`retriedTree_forgets`).
-/

namespace Foreman

namespace BuildTree

variable {t t' : BuildTree} {b d : BuildId} {c : Controller} {path : TaskPath}

/-! ## Scheduling a tree is a sequence of calls -/

/-- The turn of a build is a call. -/
theorem scheduleBuild_after (t : BuildTree) (b : BuildId) (grown : Bool) :
    (scheduleBuild b (t, grown)).1.1 = t.after (.scheduleQueued b) := by
  rw [BuildTree.after]
  cases hc : t.builds[b]? with
  | none => rw [scheduleBuild_eq_of_none hc, scheduleBuild_eq_of_none hc]
  | some c => rw [tree_scheduleBuild hc, tree_scheduleBuild hc]

/-- A turn that does not fail drops nothing. -/
theorem drops_scheduleBuild {grown : Bool} (hok : (scheduleBuild b (t, grown)).2 = none) :
    t.drops (.scheduleQueued b) = [] := by
  rw [drops]
  cases hc : t.builds[b]? with
  | none => rw [show t.controller? b = none from hc]
  | some c =>
    rw [show t.controller? b = some c from hc]
    dsimp only
    cases hres : (c.scheduleQueued (some crossBuild) t.builds).1 with
    | ok more => rfl
    | error e =>
      rw [scheduleBuild_eq hc] at hok
      simp only [hres] at hok
      cases hok

namespace Record

variable {l : Record} {names names' : List BuildId} {answer : BuildTree × Option GraphError}

/-- The turns of these builds lead to this answer. They ask for no more tasks, and without an error
they drop none. -/
structure Polled (l : Record) (names : List BuildId) (answer : BuildTree × Option GraphError) :
    Prop where
  tree : (l.afterAll (names.map .scheduleQueued)).tree = answer.1
  called : (l.afterAll (names.map .scheduleQueued)).called = l.called
  dropped : answer.2 = none → (l.afterAll (names.map .scheduleQueued)).dropped ⊆ l.dropped

theorem Polled.nil (l : Record) : l.Polled [] (l.tree, none) :=
  ⟨rfl, rfl, fun _ => List.Subset.refl _⟩

theorem Polled.append (h : l.Polled names (t, none))
    (h' : (l.afterAll (names.map .scheduleQueued)).Polled names' answer) :
    l.Polled (names ++ names') answer := by
  have happend : l.afterAll ((names ++ names').map .scheduleQueued) =
      (l.afterAll (names.map .scheduleQueued)).afterAll (names'.map .scheduleQueued) := by
    rw [afterAll, afterAll, afterAll, List.map_append, List.foldl_append]
  constructor <;> rw [happend]
  · exact h'.tree
  · exact h'.called.trans h.called
  · exact fun hok => List.Subset.trans (h'.dropped hok) (h.dropped rfl)

theorem polled_scheduleBuild (l : Record) (b : BuildId) (grown : Bool) :
    l.Polled [b] ((scheduleBuild b (l.tree, grown)).1.1, (scheduleBuild b (l.tree, grown)).2) where
  tree := (scheduleBuild_after l.tree b grown).symm
  called := List.append_nil _
  dropped hok task htask := by
    have hmem := (List.mem_filter.1 htask).1
    rwa [drops_scheduleBuild hok, List.append_nil] at hmem

/-- One round is some turns; induction is on the builds. -/
theorem exists_polled_round (l : Record) (names : List BuildId) (grown : Bool) :
    ∃ turns, l.Polled turns ((eachUntilError scheduleBuild names (l.tree, grown)).1.1,
      (eachUntilError scheduleBuild names (l.tree, grown)).2) := by
  induction names generalizing l grown with
  | nil => exact ⟨[], .nil l⟩
  | cons b names ih =>
    have hturn := l.polled_scheduleBuild b grown
    rw [eachUntilError]
    generalize scheduleBuild b (l.tree, grown) = answer at hturn ⊢
    obtain ⟨⟨t₁, grown₁⟩, error⟩ := answer
    cases error with
    | some e => exact ⟨[b], hturn⟩
    | none =>
      obtain ⟨turns, hrest⟩ := ih (l.afterAll ([b].map .scheduleQueued)) grown₁
      rw [hturn.tree] at hrest
      exact ⟨[b] ++ turns, hturn.append hrest⟩

/-- The rounds are some turns; induction is on how many of them there may be. -/
theorem exists_polled_rounds (l : Record) (fuel : Nat) :
    ∃ turns, l.Polled turns (scheduleRounds fuel l.tree) := by
  induction fuel generalizing l with
  | zero => exact ⟨[], .nil l⟩
  | succ fuel ih =>
    obtain ⟨turns, hround⟩ := l.exists_polled_round l.tree.builds.keys false
    rw [scheduleRounds]
    generalize eachUntilError scheduleBuild l.tree.builds.keys (l.tree, false) = answer at hround ⊢
    obtain ⟨⟨t₁, grown⟩, error⟩ := answer
    cases error with
    | some e => exact ⟨turns, hround⟩
    | none =>
      cases grown with
      | false => exact ⟨turns, hround⟩
      | true =>
        obtain ⟨more, hrest⟩ := ih (l.afterAll (turns.map .scheduleQueued))
        rw [hround.tree] at hrest
        exact ⟨turns ++ more, hround.append hrest⟩

/-! ## The tree at rest -/

/-- Nothing is left to schedule: the queues are empty, the run of each build contains what it
depends on and what finalizes it, and where that is a task of another build this one is required
there, unless a failed batch dropped it. All that runs is entailed by what was asked for. -/
structure AtRest (l : Record) (t : BuildTree) : Prop where
  queued : ∀ (b : BuildId) c, t.builds[b]? = some c → c.queued.isEmpty = true
  closed : ∀ (b : BuildId) c x y, t.builds[b]? = some c → c.graph.Includes x → c.graph.Pulls x y →
    c.graph.Includes y
  met : ∀ (b : BuildId) c x d p, t.builds[b]? = some c →
    c.graph.Refers x .dependency (.foreign d p) →
    (∃ e, t.builds[d]? = some e ∧ e.graph.isRequired p = true) ∨ (d, p) ∈ l.dropped
  entailed : ∀ (b : BuildId) c key, t.builds[b]? = some c → c.graph.Includes key →
    ∃ required, Entailed t.builds l.called required b key
  required : ∀ (b : BuildId) c p, t.builds[b]? = some c → c.graph.isRequired p = true →
    Entailed t.builds l.called true b (.task p)

theorem Kept.bounded (h : l.Kept) : Bounded l.tree l.tree where
  sound := h.assembled.sound
  builds b := by
    cases hc : l.tree.builds[b]? with
    | none => exact .none
    | some c => exact .some ⟨h.isOpen b c hc, (h.settled b c hc).drawn⟩

/-- The rounds come to their end. -/
theorem Kept.rests (h : l.Kept) : Rests l.tree l.tree.schedule :=
  h.bounded.rests _ (by omega)

/-- A record whose queues are empty is at rest. -/
theorem Kept.atRest (h : l.Kept)
    (hqueued : ∀ (b : BuildId) c, l.tree.builds[b]? = some c → c.queued.isEmpty = true) :
    l.AtRest l.tree where
  queued := hqueued
  closed b c x y hc := (h.settled b c hc).includes
  met b c x d p hc href := by
    refine (h.met b c x d p hc href).imp (fun hdue => ?_) fun hdropped => hdropped
    obtain ⟨e, he, hdue⟩ := (Option.any_eq_true _ _).1 hdue
    refine ⟨e, he, (Controller.isDue_iff.1 hdue).resolve_left ?_⟩
    exact Std.TreeSet.isEmpty_iff_forall_not_mem.1 (hqueued d e he) p
  entailed b c key hc hincludes := by
    obtain ⟨roots, hrooted, hroots⟩ := h.rooted b c hc
    obtain ⟨i, n, hn, rfl, hs⟩ := hincludes
    exact entailed_of_pulled hc hroots (hrooted.confined.scheduled i n hn hs)
  required b c p hc := h.entailed_of_isRequired hc

/-- What is at rest for a record is so for one that asks for as much and dropped as much. -/
theorem AtRest.mono {l' : Record} (h : l.AtRest t) (hcalled : l.called = l'.called)
    (hdropped : l.dropped ⊆ l'.dropped) : l'.AtRest t where
  queued := h.queued
  closed := h.closed
  met b c x d p hc href := (h.met b c x d p hc href).imp (fun hr => hr) fun hd => hdropped hd
  entailed := hcalled ▸ h.entailed
  required := hcalled ▸ h.required

/-- Where the rounds end without an error the tree is at rest. -/
theorem Kept.atRest_schedule (h : l.Kept) (hok : l.tree.schedule.2 = none) :
    l.AtRest l.tree.schedule.1 := by
  obtain ⟨turns, hpolled⟩ := l.exists_polled_rounds (l.tree.growthBound + 1)
  have hkept := h.afterAll (turns.map .scheduleQueued)
  have hrest : (l.afterAll (turns.map .scheduleQueued)).AtRest
      (l.afterAll (turns.map .scheduleQueued)).tree :=
    hkept.atRest fun b c hc => h.rests.queued h.bounded hok (hpolled.tree ▸ hc)
  exact (hpolled.tree ▸ hrest).mono hpolled.called (hpolled.dropped hok)

/-- Whatever tasks a build is given, merging what is queued then comes to its end. -/
theorem Kept.batchEnds (h : l.Kept) (hc : l.tree.builds[b]? = some c) (paths : List TaskPath) :
    (c.graph.queueAll paths).1.BatchEnds (some crossBuild) l.tree.builds := by
  have hqueued : (c.graph.queueAll paths).1.Settled := by
    refine eachUntilError_keeps (Q := WorkGraph.Settled) (fun path _ g hg => ?_) (h.settled b c hc)
    cases hq : g.queue path with
    | error e => exact hg
    | ok g' => exact hg.queue hq
  exact hqueued.batchEnds (some crossBuild) l.tree.builds

end Record

/-! ## Trees in which a build is frozen -/

def IsPast (b : BuildId) (builds : Std.TreeMap BuildId Controller) : Prop :=
  ∃ c, builds[b]? = some c ∧ c.state ≠ .discoveringTasks

theorem IsPast.insert {builds : Std.TreeMap BuildId Controller} {e e' : Controller}
    (h : IsPast b builds) (he : builds[d]? = some e) (hstate : e'.state = e.state) :
    IsPast b (builds.insert d e') := by
  obtain ⟨c, hc, hpast⟩ := h
  by_cases hd : b = d
  · subst hd
    cases hc.symm.trans he
    exact ⟨e', Std.TreeMap.getElem?_insert_self, hstate ▸ hpast⟩
  · exact ⟨c, (getElem?_insert_ne hd).trans hc, hpast⟩

theorem IsPast.askController {builds : Std.TreeMap BuildId Controller}
    {ask : Controller → TaskPath → Except ExportError Controller} (h : IsPast b builds)
    (hask : ∀ e path e', ask e path = .ok e' → Preserved e e') (d : BuildId) (path : TaskPath) :
    IsPast b (BuildTree.askController ask d path builds).2 := by
  rw [BuildTree.askController]
  cases he : builds[d]? with
  | none => exact h
  | some e =>
    dsimp only
    cases hok : ask e path with
    | error error => exact h
    | ok e' => exact h.insert he (hask e path e' hok).state

theorem crossBuild_isPast (b : BuildId) : crossBuild.Charges (IsPast b) fun _ _ _ => True := by
  constructor <;> intro d path builds hb
  · exact ⟨hb.askController (fun _ _ _ hok => (preserved_exportTask hok).1) d path, by simp⟩
  · exact ⟨hb.askController (fun _ _ _ hok => (preserved_observeTask hok).1) d path, by simp⟩

/-- A build that is past discovery stays so while others have their turns, and its own turn
fails. -/
theorem IsPast.scheduleBuild (h : IsPast b t.builds) (d : BuildId) (grown : Bool) :
    IsPast b (BuildTree.scheduleBuild d (t, grown)).1.1.builds ∧
      (d = b → (BuildTree.scheduleBuild d (t, grown)).2.isSome = true) := by
  cases hc : t.builds[d]? with
  | none =>
    rw [scheduleBuild_eq_of_none hc]
    obtain ⟨e, he, _⟩ := h
    exact ⟨⟨e, he, by assumption⟩, fun hd => by simp [← hd, hc] at he⟩
  | some c =>
    by_cases hstate : c.state = .discoveringTasks
    · have hne : d ≠ b := by
        rintro rfl
        obtain ⟨e, he, hpast⟩ := h
        cases he.symm.trans hc
        exact hpast hstate
      refine ⟨?_, fun hd => absurd hd hne⟩
      rw [tree_scheduleBuild hc, withOthers, Controller.scheduleQueued_eq _ _ hstate]
      by_cases hempty : c.batch.isEmpty = true
      · rw [if_pos hempty]
        exact h.insert hc rfl
      · rw [if_neg hempty]
        obtain ⟨e, he, hpast⟩ := WorkGraph.schedule_others (of_crossBuild (crossBuild_isPast b))
          (show IsPast b (c.graph, t.builds).2 from h) c.batch
        exact ⟨e, (getElem?_insert_ne (Ne.symm hne)).trans he, hpast⟩
    · have hfails : c.scheduleQueued (some crossBuild) t.builds =
          (.error (.illegalState .scheduleTasks (.controllerIs c.build c.state)), c, t.builds) := by
        rw [Controller.scheduleQueued, Controller.require, if_neg hstate]
      rw [scheduleBuild_eq hc, hfails]
      exact ⟨h.insert hc rfl, fun _ => rfl⟩

/-- A round that comes to such a build fails, if not before. -/
theorem IsPast.round {names : List BuildId} (h : IsPast b t.builds) (hb : b ∈ names)
    (grown : Bool) :
    (eachUntilError BuildTree.scheduleBuild names (t, grown)).2.isSome = true := by
  induction names generalizing t grown with
  | nil => exact absurd hb List.not_mem_nil
  | cons d names ih =>
    obtain ⟨hpast, hown⟩ := h.scheduleBuild d grown
    rw [eachUntilError]
    generalize BuildTree.scheduleBuild d (t, grown) = answer at hpast hown ⊢
    obtain ⟨⟨t₁, grown₁⟩, error⟩ := answer
    cases error with
    | some e => rfl
    | none =>
      refine ih hpast ((List.mem_cons.1 hb).resolve_left fun hd => ?_) grown₁
      exact absurd (hown hd.symm) (by simp)

/-- A tree with such a build is refused in the first round. -/
theorem IsPast.schedule (h : IsPast b t.builds) :
    Rests t t.schedule ∧ t.schedule.2.isSome = true := by
  have hb : b ∈ t.builds.keys := by
    obtain ⟨c, hc, _⟩ := h
    rw [Std.TreeMap.mem_keys, Std.TreeMap.mem_iff_isSome_getElem?, hc]
    rfl
  have hround := h.round hb false
  rw [BuildTree.schedule, scheduleRounds]
  cases hanswer : eachUntilError BuildTree.scheduleBuild t.builds.keys (t, false) with
  | mk state error =>
    rw [hanswer] at hround
    cases error with
    | none => cases hround
    | some e => exact ⟨.fails hanswer, rfl⟩

/-! ## Scheduling a tree -/

/-- Scheduling comes to its end: whatever calls made the tree, and so also after each turn, a batch
that is merged does (whichever tasks it is for), and so do the rounds. Without an error the tree is
at rest then. A tree that has a frozen build is refused in the first round. -/
theorem scheduling_rests (services : Services) (calls : List Call) {l : Record}
    (hl : l = (Record.new services).afterAll calls) :
    (∀ (b : BuildId) c paths, l.tree.builds[b]? = some c →
      (c.graph.queueAll paths).1.BatchEnds (some crossBuild) l.tree.builds) ∧
    Rests l.tree l.tree.schedule ∧
    (l.tree.schedule.2 = none → l.AtRest l.tree.schedule.1) ∧
    ∀ (t : BuildTree) b, IsPast b t.builds → Rests t t.schedule ∧ t.schedule.2.isSome = true := by
  have hkept : l.Kept := by
    rw [hl]
    exact (Record.new_kept services).afterAll calls
  exact ⟨fun _ _ paths hc => hkept.batchEnds hc paths, hkept.rests, hkept.atRest_schedule,
    fun _ _ hpast => hpast.schedule⟩

/-- Where no batch fails nothing is dropped. Induction is on the calls. -/
theorem Record.dropped_afterAll {l : Record} (h : l.dropped = []) (calls : List Call)
    (hdrops : ∀ before call after, calls = before ++ call :: after →
      (l.afterAll before).tree.drops call = []) : (l.afterAll calls).dropped = [] := by
  induction calls generalizing l with
  | nil => exact h
  | cons call calls ih =>
    have hnone : l.tree.drops call = [] := hdrops [] call calls rfl
    have hcall : (l.after call).dropped = [] := by
      rw [after, next, h, hnone]
      rfl
    exact ih hcall fun before call' after heq => hdrops (call :: before) call' after
      (by rw [heq]; rfl)

/-- Where no batch fails before, a tree that is scheduled requires in each build what the others
depend on. -/
theorem Record.required_of_batches (services : Services) (calls : List Call) {l : Record}
    (hl : l = (Record.new services).afterAll calls)
    (hdrops : ∀ before call after, calls = before ++ call :: after →
      ((Record.new services).afterAll before).tree.drops call = [])
    (hok : l.tree.schedule.2 = none) (hc : l.tree.schedule.1.builds[b]? = some c) {x : NodeKey}
    (href : c.graph.Refers x .dependency (.foreign d path)) :
    ∃ e, l.tree.schedule.1.builds[d]? = some e ∧ e.graph.isRequired path = true := by
  have hnone : l.dropped = [] := hl ▸ Record.dropped_afterAll rfl calls hdrops
  have hrest : l.AtRest l.tree.schedule.1 :=
    (hl ▸ (Record.new_kept services).afterAll calls : l.Kept).atRest_schedule hok
  exact (hrest.met b c x d path hc href).resolve_right (by simp [hnone])

/-- Task `a` of the application depends on task `b` of the library, and is ordered after its task
`c`. -/
def orderedCalls : List Call :=
  [.addBuild (registryOf "app"
      [{ TaskDefinition.plain ⟨":", "a"⟩ with
        dependsOn := [.inBuild ⟨"lib"⟩ ⟨":", "b"⟩]
        mustRunAfter := [.inBuild ⟨"lib"⟩ ⟨":", "c"⟩] }]) (registryOf_keyed _ _),
    .addBuild (registryOf "lib" [.plain ⟨":", "b"⟩, .plain ⟨":", "c"⟩]) (registryOf_keyed _ _),
    .queue ⟨"app"⟩ ⟨":", "a"⟩]

/-- The library is to run the one and not the other. -/
theorem orderedCalls_rest : ∃ l t,
    l = (Record.new ⟨2, false, ⟨true⟩, .empty 2, false⟩).afterAll orderedCalls ∧
    l.tree.schedule = (t, none) ∧ l.AtRest t ∧ l.dropped = [] ∧
    t.builds[(⟨"app"⟩ : BuildId)]?.map (·.graph.scheduledTasks) = some [⟨":", "a"⟩] ∧
    t.builds[(⟨"lib"⟩ : BuildId)]?.map (·.graph.scheduledTasks) = some [⟨":", "b"⟩] := by
  have hok :
      ((Record.new ⟨2, false, ⟨true⟩, .empty 2, false⟩).afterAll orderedCalls).tree.schedule.2 =
      none := Option.isNone_iff_eq_none.1 (by decide +kernel)
  refine ⟨_, _, rfl, Prod.ext rfl hok, (scheduling_rests _ orderedCalls rfl).2.2.1 hok, ?_, ?_, ?_⟩
  all_goals decide +kernel

/-- The pair, where one more task is requested of the library that it declares only after a schedule
in vain. -/
def retriedTree : BuildTree :=
  ((pairTree []).request ⟨"lib"⟩ [⟨":", "aa"⟩]).1.schedule.1.after
    (.declare ⟨"lib"⟩ [] (.plain ⟨":", "aa"⟩))

/-- The second schedule ends without an error. The application depends on the task of the library,
but that is not part of its run. -/
theorem retriedTree_forgets : ∃ app lib t, retriedTree.schedule = (t, none) ∧
    t.builds[(⟨"app"⟩ : BuildId)]? = some app ∧ t.builds[(⟨"lib"⟩ : BuildId)]? = some lib ∧
    app.graph.Includes (.task ⟨":", "a"⟩) ∧
    app.graph.Refers (.task ⟨":", "a"⟩) .dependency (.foreign ⟨"lib"⟩ ⟨":", "b"⟩) ∧
    lib.graph.registry.contains ⟨":", "b"⟩ = true ∧ ¬ lib.graph.Includes (.task ⟨":", "b"⟩) := by
  have hok : retriedTree.schedule.2 = none := Option.isNone_iff_eq_none.1 (by decide +kernel)
  have happ : (retriedTree.schedule.1.builds[(⟨"app"⟩ : BuildId)]?.any fun c =>
      c.graph.nodes[0]?.any fun n => n.key = .task ⟨":", "a"⟩ ∧ n.state.isScheduled ∧
        n.successors.dependencies.contains 1 ∧
        c.graph.nodes[1]?.any fun m => m.key = .foreign ⟨"lib"⟩ ⟨":", "b"⟩) = true := by
    decide +kernel
  have hlib : (retriedTree.schedule.1.builds[(⟨"lib"⟩ : BuildId)]?.any fun c =>
      c.graph.registry.contains ⟨":", "b"⟩ && c.graph.nodes.size == 0) = true := by
    decide +kernel
  obtain ⟨app, happ, hnodes⟩ := (Option.any_eq_true _ _).1 happ
  obtain ⟨lib, hlib, hempty⟩ := (Option.any_eq_true _ _).1 hlib
  obtain ⟨n, hn, hnode⟩ := (Option.any_eq_true _ _).1 hnodes
  simp only [Bool.decide_and, Bool.decide_eq_true, Bool.and_eq_true, decide_eq_true_eq] at hnode
  obtain ⟨hkey, hs, hedge, hother⟩ := hnode
  obtain ⟨m, hm, hkey'⟩ := (Option.any_eq_true _ _).1 hother
  simp only [decide_eq_true_eq] at hkey'
  simp only [Bool.and_eq_true, beq_iff_eq] at hempty
  refine ⟨app, lib, _, Prod.ext rfl hok, happ, hlib, ⟨0, n, hn, hkey, hs⟩,
    ⟨0, 1, n, m, hn, hkey, hm, hkey', Std.TreeSet.mem_iff_contains.2 hedge⟩, hempty.1, ?_⟩
  rintro ⟨i, n, hn, _⟩
  simp [Array.size_eq_zero_iff.1 hempty.2] at hn

end BuildTree

end Foreman
