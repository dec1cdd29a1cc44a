import Foreman.Proofs.Run.Reporting
import Foreman.Proofs.WorkGraph.Frozen
import Foreman.Proofs.WorkGraph.Wiring
import Foreman.Controller

/-!
# Runs that start from a frozen graph

Where nothing was published for the tasks of a graph (`WorkGraph.Unpublished`), the run of the
frozen graph starts with a clean slate: a task that was handed out has a node of its own in the plan
and no outcome, or it has no node and was published as not executed (`Unpublished.cleanStart`).
-/

namespace Foreman

namespace WorkGraph

variable {g g' : WorkGraph} {path : TaskPath} {footprints : List Footprint} {p : Precedence}
  {H : BuildId → TaskPath → Prop}

/-! ## Graphs before they are frozen -/

/-- Handing out publishes nothing. -/
theorem outcome?_handOut (hok : g.handOut path = .ok g') (q : TaskPath) :
    g'.exports.outcome? q = g.exports.outcome? q := by
  obtain ⟨-, rfl⟩ | ⟨hnew, -, rfl⟩ := handOut_cases hok
  · rfl
  · exact Exports.outcome?_handOut

theorem Built.distinct (h : g.Built) : g.Distinct := by
  induction h with
  | new registry => exact new_distinct registry
  | declare _ hok ih =>
    obtain ⟨_, _, hnodes, _⟩ := declare_spec hok
    rw [Distinct, hnodes]
    exact ih
  | handOut _ hok ih =>
    rw [Distinct, (handOut_spec hok).nodes]
    exact ih
  | queue _ hok ih => exact (queue_forward hok).distinct ih
  | @scheduleQueued g g' σ cross others others' grown _ hok ih =>
    obtain ⟨-, ⟨-, hsame⟩ | hbatch⟩ := scheduleQueued_cases hok
    · cases hsame
      exact ih
    · have hmerged := merge_merged cross g.nextOrdinal (2 * g.nodeBound)
        (g.queued.toList.map (·, true))
        ({ g with queued := ∅, nextOrdinal := g.nextOrdinal + 1 }, others)
      rw [← hbatch] at hmerged
      exact hmerged.distinct ih

/-- A graph whose run may start: nothing was published but that tasks outside the run will not
run. -/
structure Unpublished (g : WorkGraph) : Prop where
  sound : g.Sound fun _ _ => True
  distinct : g.Distinct
  outcome : ∀ path outcome, g.exports.outcome? path = some outcome →
    outcome = .notExecuted ∧ g.isScheduled path = false

/-! ## The first step of a run -/

/-- What is handed out has an outcome from the freeze on, unless it is part of the run. -/
theorem outcome?_publishUnscheduled (g : WorkGraph) (path : TaskPath) :
    g.publishUnscheduled.exports.outcome? path =
      if path ∈ g.exports ∧ g.isScheduled path = false ∧ g.exports.outcome? path = none
      then some .notExecuted else g.exports.outcome? path := by
  have hfold : ∀ (l : List TaskPath) (e : Exports),
      (l.foldl (fun e q =>
        if g.isScheduled q then e else e.publish q .notExecuted) e).outcome? path =
        if path ∈ l ∧ path ∈ e ∧ g.isScheduled path = false ∧ e.outcome? path = none
        then some .notExecuted else e.outcome? path := by
    intro l
    induction l with
    | nil => simp
    | cons q l ih =>
      intro e
      rw [List.foldl_cons, ih]
      by_cases hq : g.isScheduled q = true
      · rw [if_pos hq]
        have hmem : path ∈ q :: l ∧ g.isScheduled path = false ↔
            path ∈ l ∧ g.isScheduled path = false := by
          rw [List.mem_cons]
          constructor
          · rintro ⟨rfl | hl, hno⟩
            · rw [hq] at hno
              cases hno
            · exact ⟨hl, hno⟩
          · exact fun h => ⟨.inr h.1, h.2⟩
        congr 1
        grind
      · rw [if_neg hq]
        simp only [Exports.outcome?_publish, Exports.mem_publish]
        rw [Bool.not_eq_true] at hq
        by_cases hpath : path = q
        · subst hpath
          by_cases hnone : path ∈ e ∧ e.outcome? path = none
          · simp [hnone, hq]
          · grind
        · simp [hpath]
  rw [publishUnscheduled, hfold]
  simp only [Std.TreeMap.mem_keys, ← and_assoc, and_self]

/-- Publishing hands out nothing. -/
theorem mem_exports_publishUnscheduled (g : WorkGraph) (path : TaskPath) :
    path ∈ g.publishUnscheduled.exports ↔ path ∈ g.exports := by
  rw [publishUnscheduled]
  refine List.foldlRecOn (motive := fun e => path ∈ e ↔ path ∈ g.exports) _ _ .rfl
    fun e he q _ => ?_
  split
  · exact he
  · exact Exports.mem_publish.trans he

/-- A run before its first step, with a plan that is in order, and with an outcome for each task
that was handed out and has no node in the plan, and for no other. -/
structure CleanStart (b : BuildId) (r : Run) : Prop where
  progress : r.progress = .start r.plan
  build : r.plan.build = b
  sound : r.plan.Sound
  distinct : r.plan.Distinct
  offered : ∀ (i : Nat) n path, r.plan.nodes[i]? = some n → n.exportPath? = some path →
    path ∈ r.exports ∧ r.exports.outcome? path = none
  exported : ∀ (i : Nat) n path, r.plan.nodes[i]? = some n → n.key = .task path →
    path ∈ r.exports → n.exportPath? = some path
  absent : ∀ path ∈ r.exports, (∀ (i : Nat) n, r.plan.nodes[i]? = some n → n.key ≠ .task path) →
    r.exports.outcome? path = some .notExecuted

/-- A task is scheduled if it has a node in the plan, and only then. -/
theorem isScheduled_iff_exists (hs : g.Sound H) (hd : g.Distinct)
    (hf : g.footprints = .ok footprints)
    (p : Precedence) : g.isScheduled path = true ↔ ∃ (i : Nat) (m : PlannedNode),
      (g.planOf footprints p).nodes[i]? = some m ∧ m.key = .task path := by
  obtain ⟨hall, hplaces⟩ := planOf_nodes hs hf p
  rw [isScheduled_iff_includes hd]
  constructor
  · rintro ⟨id, n, hn, hkey, hstate⟩
    have hid : id ∈ g.scheduled := (hs.scheduled id).2 ⟨n, hn, hstate⟩
    obtain ⟨i, hi⟩ := List.mem_iff_getElem?.1 (Std.TreeSet.mem_toList.2 hid)
    obtain ⟨m, hm⟩ := hplaces i id hi
    obtain ⟨id', u, hu⟩ := hall i m hm
    cases hi.symm.trans hu.position
    cases hn.symm.trans hu.node
    exact ⟨i, m, hm, hu.key_eq.trans hkey⟩
  · rintro ⟨i, m, hm, hkey⟩
    obtain ⟨id, n, hu⟩ := hall i m hm
    rw [hu.key_eq] at hkey
    have hid : id ∈ g.scheduled := Std.TreeSet.mem_toList.1 (List.mem_of_getElem? hu.position)
    obtain ⟨n', hn', hstate⟩ := (hs.scheduled id).1 hid
    cases hu.node.symm.trans hn'
    exact ⟨id, n, hu.node, hkey, hstate⟩

/-- No two places of a plan are for one node, and no two nodes have one key. -/
theorem planOf_distinct (hs : g.Sound H) (hd : g.Distinct) (hf : g.footprints = .ok footprints)
    (p : Precedence) : (g.planOf footprints p).Distinct := by
  intro i k n m hn hm hkey
  obtain ⟨hall, _⟩ := planOf_nodes hs hf p
  obtain ⟨a, u, hu⟩ := hall i n hn
  obtain ⟨b, v, hv⟩ := hall k m hm
  rw [hu.key_eq, hv.key_eq] at hkey
  obtain rfl : a = b := hd a b u v hu.node hv.node hkey
  have hlt := (List.getElem?_eq_some_iff.1 hu.position).1
  exact (List.getElem?_inj hlt (nodup_toList g.scheduled)).1 (hu.position.trans hv.position.symm)

/-- A node of the plan is that of a task which others hear from just if the task was handed out. -/
theorem PlannedAs.exportPath?_eq_some_iff {plan : Plan} {i id : Nat} {n : Node} {m : PlannedNode}
    (hu : g.PlannedAs p plan i id n m) :
    m.exportPath? = some path ↔ m.key = .task path ∧ path ∈ g.exports := by
  obtain ⟨footprint, dependents, rfl⟩ := hu.eq
  rw [PlannedNode.exportPath?, PlannedNode.task?, PlannedNode.key]
  cases hw : n.work with
  | foreign d q => simp [planNode, hw, Work.key]
  | task t =>
    simp only [planNode, hw, Work.key, NodeKey.task.injEq]
    by_cases ht : t.path ∈ g.exports
    · rw [if_pos (show g.exports.contains t.path = true from ht), Option.map_some,
        Option.some.injEq]
      exact ⟨fun hpath => ⟨hpath, hpath ▸ ht⟩, fun hpath => hpath.1⟩
    · rw [if_neg (show ¬ g.exports.contains t.path = true from ht)]
      exact iff_of_false (by simp) fun hpath => ht (hpath.1 ▸ hpath.2)

theorem Unpublished.cleanStart (h : g.Unpublished) (hf : g.freeze = .ok g') {r : Run}
    (hr : g'.run? = some r) : CleanStart g.build r := by
  obtain ⟨footprints, p, hto⟩ := freeze_spec hf
  rw [run?, hto.eq] at hr
  cases hr
  obtain ⟨hall, _⟩ := planOf_nodes h.sound hto.footprints_eq p
  have hscheduled : ∀ path, g.isScheduled path = true ↔ ∃ (i : Nat) (m : PlannedNode),
      (g.planOf footprints p).nodes[i]? = some m ∧ m.key = .task path :=
    fun path => isScheduled_iff_exists h.sound h.distinct hto.footprints_eq p
  generalize hfrozen : ({ g with
    plan := some (g.planOf footprints p)
    progress := .start (g.planOf footprints p)
    phase := .finalized } : WorkGraph) = frozen
  have hmem : ∀ path, path ∈ frozen.publishUnscheduled.exports ↔ path ∈ g.exports := by
    intro path
    rw [mem_exports_publishUnscheduled, ← hfrozen]
  have hout : ∀ path, frozen.publishUnscheduled.exports.outcome? path =
      if path ∈ g.exports ∧ g.isScheduled path = false ∧ g.exports.outcome? path = none
      then some .notExecuted else g.exports.outcome? path := by
    intro path
    rw [outcome?_publishUnscheduled, ← hfrozen]
    rfl
  constructor
  case progress => rw [← hfrozen]; rfl
  case build => rfl
  case sound => exact planOf_sound h.sound hto
  case distinct => exact planOf_distinct h.sound h.distinct hto.footprints_eq p
  case offered =>
    intro i m path hm hpath
    obtain ⟨id, n, hu⟩ := hall i m hm
    obtain ⟨hkey, hexported⟩ := hu.exportPath?_eq_some_iff.1 hpath
    have hin := (hscheduled path).2 ⟨i, m, hm, hkey⟩
    refine ⟨(hmem path).2 hexported, ?_⟩
    rw [hout, if_neg fun hc => by simp [hin] at hc]
    by_contra hsome
    obtain ⟨o, ho⟩ := Option.ne_none_iff_exists'.1 hsome
    simp [(h.outcome path o ho).2] at hin
  case exported =>
    intro i m path hm hkey hpath
    obtain ⟨id, n, hu⟩ := hall i m hm
    exact hu.exportPath?_eq_some_iff.2 ⟨hkey, (hmem path).1 hpath⟩
  case absent =>
    intro path hpath habsent
    have hout' : g.isScheduled path = false := by
      by_contra hin
      obtain ⟨i, m, hm, hkey⟩ := (hscheduled path).1 (by simpa using hin)
      exact habsent i m hm hkey
    show frozen.publishUnscheduled.exports.outcome? path = _
    rw [hout]
    split
    · rfl
    · rename_i hnot
      cases ho : g.exports.outcome? path with
      | none => exact absurd ⟨(hmem path).1 hpath, hout', ho⟩ hnot
      | some o => rw [(h.outcome path o ho).1]

end WorkGraph

end Foreman
