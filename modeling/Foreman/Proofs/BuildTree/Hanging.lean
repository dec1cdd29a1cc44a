import Foreman.Proofs.BuildTree.Launching
import Foreman.Proofs.Workshop.Stirring

/-!
# Trees that can hang

A tree of builds whose waits make no circle still hangs in a jam, and nowhere else
(`Launched.enabled_unless_jammed`): where two builds refer to each other, the workers of one can all
be busy waiting for the other, or a node can wait until it is decided whether one before it is
needed, which depends on the other build. With room for the waiting nodes and with waits that do not
hinge on themselves every tree gets on, in any order of steps. Two small trees show that both are
needed.
-/

namespace Foreman

open Relation

theorem PlannedNode.key_of_exportPath? {n : PlannedNode} {path : TaskPath}
    (h : n.exportPath? = some path) : n.key = .task path ∧ n.work.isForeign = false := by
  obtain ⟨work, ordinal, required, footprint, dependencies, dependents, runAfter, finalizes,
    afterExports, exported⟩ := n
  cases work with
  | task definition =>
    cases exported with
    | true =>
      simp only [exportPath?, if_true, task?, Option.map_some, Option.some.injEq] at h
      exact ⟨congrArg NodeKey.task h, rfl⟩
    | false => simp [exportPath?] at h
  | foreign d q => simp [exportPath?, task?] at h

def PlannedNode.others (n : PlannedNode) : List BuildId :=
  (match n.work with
    | .foreign d _ => [d]
    | .task _ => []) ++ n.afterExports.map (·.1)

namespace BuildTree

variable {t : BuildTree} {b : BuildId} {p : Plan} {i : Nat} {n : PlannedNode} {x y : TreeTask}
  {caller : Worker}

/-! ## Waits that hinge on others -/

def taskAt (t : BuildTree) (b : BuildId) (i : Nat) : TreeTask :=
  (((t.plans b).bind (·.nodes[i]?)).map fun n => treeTask b n.key).getD (b, ⟨":", ""⟩)

theorem taskAt_eq (hp : t.plans b = some p) (hn : p.nodes[i]? = some n) :
    t.taskAt b i = treeTask b n.key := by
  simp [taskAt, hp, hn]

theorem waits_taskAt (hp : t.plans b = some p) (hs : p.Sound) {k : Nat} (hw : p.Waits i k) :
    t.Waits (t.taskAt b i) (t.taskAt b k) := by
  obtain ⟨c, hc, hplan⟩ := exists_controller_of_plans hp
  have hlt : k < p.nodes.size := hs.bounded i k hw
  have hm := Array.getElem?_eq_getElem hlt
  obtain ⟨n, hn, hk⟩ := hw
  exact .inl ⟨b, c, p, i, k, n, _, hc, hplan, hn, hm, ⟨n, hn, hk⟩, (taskAt_eq hp hn).symm,
    (taskAt_eq hp hm).symm⟩

/-- Where every node of builds in a circle is required, waits hinge on waits only, and on nodes that
stand for the same task. -/
theorem decisive_of_certain (hp : t.plans.Sound) (hacyc : Acyclic t.Waits)
    (hcertain : t.plans.Certain) : t.plans.Decisive := by
  let isForeign : Plans.TreeNode → Prop := fun x =>
    ∃ p n, t.plans x.1 = some p ∧ p.nodes[x.2.1]? = some n ∧ n.work.isForeign = true
  refine hacyc.of_map_or (fun x => t.taskAt x.1 x.2.1) isForeign ?_
  rintro x y ⟨hcircle, hinges⟩
  cases hinges with
  | @dependency b p i k n hplan hn hk =>
    exact .inl (waits_taskAt hplan (hp.sound b p hplan) ⟨n, hn, .inl hk⟩)
  | @finalized b p i k n _ hplan hn hk =>
    exact .inl (waits_taskAt hplan (hp.sound b p hplan) ⟨n, hn, .inr (.inl hk)⟩)
  | @runAfter b p i k n _ hplan hn hk =>
    exact .inl (waits_taskAt hplan (hp.sound b p hplan) ⟨n, hn, .inr (.inr hk)⟩)
  | @openFinalized b p i k n _ hplan hn hreq =>
    rw [hcertain b p i n hplan hcircle hn] at hreq
    cases hreq
  | @openDependent b p i k n hplan hn hreq =>
    rw [hcertain b p i n hplan hcircle hn] at hreq
    cases hreq
  | @foreign b d p q i k n m path _ _ hplan hn hw hq hm hpath =>
    obtain ⟨hkey, hown⟩ := PlannedNode.key_of_exportPath? hpath
    refine .inr ⟨?_, ⟨p, n, hplan, hn, by rw [hw]; rfl⟩, ?_⟩
    · show t.taskAt b i = t.taskAt d k
      rw [taskAt_eq hplan hn, taskAt_eq hq hm, hkey, PlannedNode.key, hw]
      rfl
    · rintro ⟨q', m', hq', hm', hforeign⟩
      cases hq.symm.trans hq'
      cases hm.symm.trans hm'
      rw [hown] at hforeign
      cases hforeign
  | @afterExport b d p q i k n m path _ hplan hn he hq hm hpath =>
    obtain ⟨c, hc, hcplan⟩ := exists_controller_of_plans hplan
    obtain ⟨hkey, _⟩ := PlannedNode.key_of_exportPath? hpath
    refine .inl (.inr ⟨b, c, p, i, n, hc, hcplan, hn, ?_, (taskAt_eq hplan hn).symm⟩)
    show t.taskAt d k ∈ n.afterExports
    rw [taskAt_eq hq hm, hkey]
    exact he

/-! ## Getting on -/

theorem staff_pos (t : BuildTree) (b : BuildId) : 0 < t.staff b :=
  Nat.lt_of_lt_of_le Nat.zero_lt_one (Nat.le_max_left _ _)

/-- In every order of steps, while something is left to do: some step changes something unless
everybody is done, waits for another build, or finds the run held up, and if so no run changes any
more. That never comes about where each build has room for the nodes that wait for builds that refer
back and no wait hinges on itself; then, after finitely many steps that only prepare others, some
member starts a node, ends its work or carries on a node. -/
theorem Launched.enabled_unless_jammed (h : t.Launched) (hhome : t.StaysHome)
    (hleases : (t.services.table.surrender caller).Unleased)
    (hkeys : t.services.table.Unlocked) (js : List Nat)
    (hleft : ∃ b, (js.foldl Workshop.step (t.opened caller)).Left b) :
    ((∃ j, (js.foldl Workshop.step (t.opened caller)).Enabled j) ↔
      ¬ (js.foldl Workshop.step (t.opened caller)).Jammed) ∧
    ((js.foldl Workshop.step (t.opened caller)).Jammed → ∀ (more : List Nat) (b : BuildId),
      ((js ++ more).foldl Workshop.step (t.opened caller)).runs[b]? =
        (js.foldl Workshop.step (t.opened caller)).runs[b]?) ∧
    (t.plans.Roomy t.staff → t.plans.Decisive ∨ Acyclic t.Waits ∧ t.plans.Certain →
      ∃ w j, ReflTransGen Workshop.Stirs (js.foldl Workshop.step (t.opened caller)) w ∧
        w.Advances j ∧ ¬ w.Calls j) := by
  have hsound := h.sound hhome
  have horderly := (h.orderly hleases hkeys).steps hsound js
  obtain ⟨b, hleft⟩ := hleft
  refine ⟨?_, fun hjam more b => ?_, fun hroomy hcase => ?_⟩
  · rw [Workshop.jammed_iff hsound horderly]
    push Not
    rfl
  · rw [List.foldl_append]
    exact (hjam.steps hsound horderly more).runs b
  · have hdecisive : t.plans.Decisive := by
      rcases hcase with hdecisive | ⟨hacyc, hcertain⟩
      · exact hdecisive
      · exact decisive_of_certain hsound hacyc hcertain
    exact Workshop.exists_advances hsound horderly hroomy hdecisive hleft

/-! ## Looking through a tree -/

def planned (t : BuildTree) : List (BuildId × PlannedNode) :=
  t.builds.toList.flatMap fun (b, c) =>
    ((c.graph.plan.map (·.nodes.toList)).getD []).map (b, ·)

theorem mem_planned (hp : t.plans b = some p) (hn : p.nodes[i]? = some n) : (b, n) ∈ t.planned := by
  obtain ⟨c, hc, hplan⟩ := exists_controller_of_plans hp
  rw [planned, List.mem_flatMap]
  refine ⟨(b, c), Std.TreeMap.mem_toList_iff_getElem?_eq_some.2 hc, ?_⟩
  rw [List.mem_map]
  exact ⟨n, by simp [hplan, Array.mem_of_getElem? hn], rfl⟩

/-- Waits that lead down in a rank make no circle. -/
theorem acyclic_waits_of_rank (rank : TreeTask → Nat) (h : ∀ e ∈ t.planned,
    (∀ k ∈ e.2.dependencies ++ e.2.finalizes ++ e.2.runAfter,
      rank (t.taskAt e.1 k) < rank (treeTask e.1 e.2.key)) ∧
    ∀ y ∈ e.2.afterExports, rank y < rank (treeTask e.1 e.2.key)) : Acyclic t.Waits := by
  refine Acyclic.of_rank rank fun x y hxy => ?_
  rcases hxy with ⟨b, c, p, i, j, n, m, hc, hplan, hn, hm, hw, rfl, rfl⟩ |
    ⟨b, c, p, i, n, hc, hplan, hn, hy, rfl⟩
  · have hp : t.plans b = some p := by rw [plans, hc, Option.bind_some, hplan]
    obtain ⟨n', hn', hj⟩ := hw
    cases hn.symm.trans hn'
    rw [← taskAt_eq hp hm]
    refine (h _ (mem_planned hp hn)).1 j ?_
    rw [List.mem_append, List.mem_append, or_assoc]
    exact hj
  · have hp : t.plans b = some p := by rw [plans, hc, Option.bind_some, hplan]
    exact (h _ (mem_planned hp hn)).2 y hy

/-- References that lead down in a rank make no circle. -/
theorem acyclic_refers_of_rank (rank : BuildId → Nat)
    (h : ∀ e ∈ t.planned, ∀ d ∈ e.2.others, rank d < rank e.1) : Acyclic t.plans.Refers := by
  refine Acyclic.of_rank rank fun b d hbd => ?_
  obtain ⟨p, path, hp, i, n, hn, hcase⟩ := hbd
  refine h _ (mem_planned hp hn) d ?_
  rcases hcase with hw | hy
  · simp [PlannedNode.others, hw]
  · rw [PlannedNode.others, List.mem_append]
    exact .inr (List.mem_map_of_mem hy)

/-- Tasks without an action visit no project. -/
theorem staysHome_of_planned (h : ∀ e ∈ t.planned, (e.2.task?.bind (·.action)) = none) :
    t.StaysHome := by
  intro b p hp i n task action hn hw haction
  have hnone := h _ (mem_planned hp hn)
  simp [PlannedNode.task?, hw, haction] at hnone

theorem certain_of_planned (h : ∀ e ∈ t.planned, e.2.required = true) : t.plans.Certain :=
  fun _ _ _ _ hp _ hn => h _ (mem_planned hp hn)

/-- Builds with fewer nodes for tasks of others than workers have room. -/
theorem roomy_of_builds (h : ∀ b ∈ t.builds.keys, ∀ p ∈ t.plans b,
    ((List.range p.size).filter fun i => (p.nodes[i]?).any (·.work.isForeign)).length <
      t.staff b) : t.plans.Roomy t.staff := by
  intro b p hp
  obtain ⟨c, hc, _⟩ := exists_controller_of_plans hp
  have hb : b ∈ t.builds.keys := by
    rw [Std.TreeMap.mem_keys, Std.TreeMap.mem_iff_isSome_getElem?, hc]
    rfl
  exact Nat.lt_of_le_of_lt (t.plans.ncard_returning_le b p) (h b hb p hp)

def launched (t : BuildTree) : BuildTree := (t.prepare.1.eachController (·.start)).1

theorem Assembled.launched (h : t.Assembled) (hprepare : t.prepare.2.isNone = true)
    (hstart : (t.prepare.1.eachController (·.start)).2.isNone = true) : t.launched.Launched := by
  have hp : t.prepare = (t.prepare.1, none) := by rw [← Option.isNone_iff_eq_none.1 hprepare]
  refine .mk h hp ?_
  rw [BuildTree.launched, ← Option.isNone_iff_eq_none.1 hstart]

def IsVacant (t : BuildTree) : Bool :=
  t.services.table.leases.isEmpty && t.services.table.owners.isEmpty

theorem vacant_spec (h : t.IsVacant = true) (caller : Worker) :
    (t.services.table.surrender caller).Unleased ∧ t.services.table.Unlocked := by
  rw [IsVacant, Bool.and_eq_true] at h
  constructor
  · intro w
    rw [LockTable.leases_surrender]
    split
    · rfl
    · exact Std.TreeMap.getElem?_of_isEmpty h.1
  · intro key
    exact Std.TreeMap.getElem?_of_isEmpty h.2

end BuildTree

/-! ## Looking through a workshop -/

deriving instance DecidableEq for Progress

namespace Workshop

variable {w : Workshop}

def isIdleStep (w : Workshop) (m : Member) (r : Run) : Bool :=
  match m.activity with
  | .idle =>
    let turn := r.beginTurn w.services w.foreign m.worker
    turn.1 = .wait && turn.2.1.progress = r.progress
  | .awaiting _ _ b path _ => (w.foreign b path).isNone
  | .off => true
  | _ => false

theorem not_enabled_of_isIdleStep
    (h : (w.crew.all fun m => (w.runs[m.build]?).all (w.isIdleStep m)) = true) (j : Nat) :
    ¬ w.Enabled j := by
  have hstep : ∀ (m : Member) (r : Run), w.crew[j]? = some m → w.runs[m.build]? = some r →
      w.isIdleStep m r = true := by
    intro m r hm hr
    have hall := Array.all_eq_true'.1 h m (Array.mem_of_getElem? hm)
    simpa [hr] using hall
  rintro (⟨m, r, hm, hr, hadv⟩ | ⟨m, r, hm, hr, hidle, hne⟩)
  · have hnone := hstep m r hm hr
    rw [isIdleStep] at hnone
    generalize m.activity = activity at hadv hnone
    cases hadv with
    | select h => simp [h] at hnone
    | answer h => simp [h] at hnone
    | _ => simp at hnone
  · have hnone := hstep m r hm hr
    simp [isIdleStep, hidle, hne] at hnone

theorem left_of_any {b : BuildId}
    (h : (w.runs[b]?).any (fun r => r.progress.states.any (!·.isTerminal)) = true) : w.Left b := by
  rw [Option.any_eq_true] at h
  obtain ⟨r, hr, hany⟩ := h
  rw [Array.any_eq_true] at hany
  obtain ⟨i, hi, hterm⟩ := hany
  refine ⟨r, i, hr, r.progress.states[i], Array.getElem?_eq_getElem hi, ?_⟩
  simpa using hterm

end Workshop

namespace BuildTree

/-! ## Trees that get on, and trees that hang -/

theorem libraryTree_gets_on : libraryTree.launched.Launched ∧
    ∃ w j, ReflTransGen Workshop.Stirs (libraryTree.launched.opened 0) w ∧
      w.Advances j ∧ ¬ w.Calls j := by
  have hlaunched : libraryTree.launched.Launched :=
    (requestedTree_assembled _ _ _).launched (by decide +kernel) (by decide +kernel)
  obtain ⟨hleases, hkeys⟩ := vacant_spec (t := libraryTree.launched) (by decide +kernel) 0
  have hacyc : Acyclic libraryTree.launched.plans.Refers :=
    acyclic_refers_of_rank (fun b => if b = ⟨"app"⟩ then 1 else 0) (by decide +kernel)
  have hleft : (libraryTree.launched.opened 0).Left ⟨"app"⟩ :=
    Workshop.left_of_any (by decide +kernel)
  have hhome : libraryTree.launched.StaysHome := staysHome_of_planned (by decide +kernel)
  exact ⟨hlaunched, (hlaunched.enabled_unless_jammed hhome hleases hkeys [] ⟨_, hleft⟩).2.2
    (Plans.roomy_of_acyclic hacyc (staff_pos _)) (.inl (Plans.decisive_of_acyclic hacyc))⟩

/-- In the application `f` finalizes `a` and needs `p`, so that it is open whether `p` is needed as
long as `a` waits for `b` of the library; `b` needs `c`, which comes after `p`. -/
def undecidedTree : BuildTree :=
  requestedTree
    [registryOf "app"
      [{ TaskDefinition.plain ⟨":", "a"⟩ with
          dependsOn := [.inBuild ⟨"lib"⟩ ⟨":", "b"⟩], finalizedBy := [.path "f"] },
        { TaskDefinition.plain ⟨":", "f"⟩ with dependsOn := [.path "p"] },
        .plain ⟨":", "p"⟩,
        { TaskDefinition.plain ⟨":", "c"⟩ with mustRunAfter := [.path "p"] }],
      registryOf "lib"
        [{ TaskDefinition.plain ⟨":", "b"⟩ with dependsOn := [.inBuild ⟨"app"⟩ ⟨":", "c"⟩] }]]
    ⟨"app"⟩ [⟨":", "a"⟩]

/-- Once both builds wait for each other nobody can start `c`, though the waits make no circle and
each build has more workers than nodes that wait. -/
theorem undecidedTree_hangs : undecidedTree.launched.Launched ∧ undecidedTree.launched.StaysHome ∧
    Acyclic undecidedTree.launched.Waits ∧
    undecidedTree.launched.plans.Roomy undecidedTree.launched.staff ∧ ∃ js : List Nat,
      (∃ b, (js.foldl Workshop.step (undecidedTree.launched.opened 0)).Left b) ∧
      ∀ j, ¬ (js.foldl Workshop.step (undecidedTree.launched.opened 0)).Enabled j := by
  have hlaunched : undecidedTree.launched.Launched :=
    (requestedTree_assembled _ _ _).launched (by decide +kernel) (by decide +kernel)
  let order : List TreeTask := [(⟨"app"⟩, ⟨":", "p"⟩), (⟨"app"⟩, ⟨":", "c"⟩),
    (⟨"lib"⟩, ⟨":", "b"⟩), (⟨"app"⟩, ⟨":", "a"⟩), (⟨"app"⟩, ⟨":", "f"⟩)]
  have hacyc : Acyclic undecidedTree.launched.Waits :=
    acyclic_waits_of_rank (order.idxOf ·) (by decide +kernel)
  have hroomy : undecidedTree.launched.plans.Roomy undecidedTree.launched.staff :=
    roomy_of_builds (by decide +kernel)
  refine ⟨hlaunched, staysHome_of_planned (by decide +kernel), hacyc, hroomy, [0, 0, 4, 4], ?_, ?_⟩
  · exact ⟨⟨"app"⟩, Workshop.left_of_any (by decide +kernel)⟩
  · exact Workshop.not_enabled_of_isIdleStep (by decide +kernel)

/-- The application needs `a`, which needs `b` of the library and `c`; `b` needs `c` too, which
comes after `z` of a third build. -/
def lonelyTree : BuildTree :=
  let tree := requestedTree
    [registryOf "app"
      [{ TaskDefinition.plain ⟨":", "a"⟩ with
          dependsOn := [.inBuild ⟨"lib"⟩ ⟨":", "b"⟩, .path "c"] },
        { TaskDefinition.plain ⟨":", "c"⟩ with mustRunAfter := [.inBuild ⟨"aux"⟩ ⟨":", "z"⟩] }],
      registryOf "aux" [.plain ⟨":", "z"⟩],
      registryOf "lib"
        [{ TaskDefinition.plain ⟨":", "b"⟩ with dependsOn := [.inBuild ⟨"app"⟩ ⟨":", "c"⟩] }]]
    ⟨"app"⟩ [⟨":", "a"⟩]
  { (tree.request ⟨"aux"⟩ [⟨":", "z"⟩]).1.schedule.1 with
    services := ⟨1, false, ⟨true⟩, .empty 1, false⟩ }

/-- The one worker of the application takes up `b` while `z` is not done, and then nobody is left to
run `c`, though no wait hinges on itself. -/
theorem lonelyTree_hangs : lonelyTree.launched.Launched ∧ lonelyTree.launched.StaysHome ∧
    Acyclic lonelyTree.launched.Waits ∧ lonelyTree.launched.plans.Decisive ∧ ∃ js : List Nat,
      (∃ b, (js.foldl Workshop.step (lonelyTree.launched.opened 0)).Left b) ∧
      ∀ j, ¬ (js.foldl Workshop.step (lonelyTree.launched.opened 0)).Enabled j := by
  have hassembled : lonelyTree.Assembled :=
    ((requestedTree_assembled _ _ _).request _ _).schedule.serve _
  have hlaunched : lonelyTree.launched.Launched :=
    hassembled.launched (by decide +kernel) (by decide +kernel)
  have hhome : lonelyTree.launched.StaysHome := staysHome_of_planned (by decide +kernel)
  let order : List TreeTask := [(⟨"aux"⟩, ⟨":", "z"⟩), (⟨"app"⟩, ⟨":", "c"⟩),
    (⟨"lib"⟩, ⟨":", "b"⟩), (⟨"app"⟩, ⟨":", "a"⟩)]
  have hacyc : Acyclic lonelyTree.launched.Waits :=
    acyclic_waits_of_rank (order.idxOf ·) (by decide +kernel)
  have hdecisive : lonelyTree.launched.plans.Decisive :=
    decisive_of_certain (hlaunched.sound hhome) hacyc (certain_of_planned (by decide +kernel))
  refine ⟨hlaunched, hhome, hacyc, hdecisive, [0, 0, 2, 2, 1, 1, 1], ?_, ?_⟩
  · exact ⟨⟨"app"⟩, Workshop.left_of_any (by decide +kernel)⟩
  · exact Workshop.not_enabled_of_isIdleStep (by decide +kernel)

end BuildTree

end Foreman
