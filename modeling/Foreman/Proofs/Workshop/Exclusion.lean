import Mathlib.Data.Finset.Card
import Foreman.Proofs.Workshop.Site

/-!
# What never runs at the same time

However the members of a site step and whatever projects their tasks visit, running tasks of one
project exclude each other, and so do tasks with a shared resource and nodes of a plan with
conflicting footprints; no more tasks run than there are leases. Where no task visits a project the
lock table is in the end what it was in the beginning (`Site.Reached.exclusive`).
-/

namespace Foreman.Site

variable {s : Site} {k j : Nat} {m : Member} {base : Services}

/-- Tasks trade the state locks of projects, but no execution lock and no shared resource. -/
theorem Trades.guardsState {key : ResourceKey} (h : s.Trades key) : key.GuardsState := by
  obtain ⟨_, _, p, _, n, step, _, _, hstep, hkey⟩ := h
  rw [PlannedNode.course] at hstep
  split at hstep
  · rename_i action _
    have hsteps : (n.performance p.build s.services.locks action).1 =
        (action.script.steps s.services.locks (n.ownState? p.build s.services.locks)).1 := by
      rw [PlannedNode.performance]
      dsimp only
      split <;> rfl
    rw [hsteps] at hstep
    refine Script.guardsState_of_mem_steps (fun own hown => ?_) action.script step hstep key hkey
    rw [PlannedNode.ownState?] at hown
    split at hown
    · split at hown
      · cases hown
      · cases hown
        exact ProjectLocks.stateLock_guardsState _ _
    · cases hown
  · cases hstep

/-- Where no task visits a project nothing is traded. -/
theorem not_trades_of_staysHome (h : ∀ k b p, s.plan? k b = some p → p.StaysHome)
    (key : ResourceKey) : ¬ s.Trades key := by
  rintro ⟨k, b, p, i, n, step, hp, hn, hstep, _⟩
  rw [PlannedNode.course] at hstep
  split at hstep
  · rename_i action haction
    obtain ⟨t, ht, ha⟩ := Option.bind_eq_some_iff.1 haction
    have hw : n.work = .task t := by
      rcases n.task?_or_foreign with ⟨t', ht', hw⟩ | ⟨_, _, _, hnone, _⟩
      · cases ht.symm.trans ht'
        exact hw
      · rw [hnone] at ht
        cases ht
    have hnone := (h k b p hp i n t action hn hw ha).steps s.services.locks
      (n.ownState? p.build s.services.locks)
    rw [PlannedNode.performance] at hstep
    dsimp only at hstep
    rw [hnone] at hstep
    split at hstep <;> cases hstep
  · cases hstep

variable {b b' : BuildId} {i i' k' : Nat} {n n' : PlannedNode} {t t' : TaskDefinition}

/-- A running node has a member that holds its keys, and a lease if it is a task. -/
theorem Kept.exists_busy (h : Kept base s) (hrun : s.Runs k b i n) :
    ∃ j m, s.member? k j = some m ∧ m.build = b ∧ m.activity.index? = some i ∧
      m.activity.keys = n.lockKeys b base.locks ∧
      ∀ t, n.task? = some t → m.worker ∈ s.services.table.leases := by
  obtain ⟨r, hr, hi, hn⟩ := hrun
  obtain ⟨w, hw, hrw⟩ := Option.bind_eq_some_iff.1 hr
  have hc := h.crewed k w hw
  have hlocks : w.services.locks = base.locks := by
    obtain ⟨_, _, rfl⟩ := Option.map_eq_some_iff.1 hw
    exact h.locks
  obtain ⟨j, m, hm, hb, hindex⟩ := hc.tended b r i hrw hi
  obtain ⟨q, hq, hmanned⟩ := hc.manned j m hm
  rw [hb, hrw, Option.some.injEq] at hq
  subst hq
  have hm' : s.member? k j = some m := by rw [member?, hw]; exact hm
  obtain ⟨n₁, hn₁, hkeys⟩ := hmanned.exists_node hindex
  rw [hn, Option.some.injEq] at hn₁
  subst hn₁
  rw [hc.build b r hrw, hlocks] at hkeys
  refine ⟨j, m, hm', hb, hindex, hkeys, fun t ht => ?_⟩
  have hforeign : ∀ {n₁ : PlannedNode} {d path}, r.plan.nodes[i]? = some n₁ →
      n₁.work = .foreign d path → False := by
    intro n₁ d path hn₁ hwork
    rw [hn, Option.some.injEq] at hn₁
    rw [← hn₁] at hwork
    rw [PlannedNode.task?, hwork] at ht
    cases ht
  have hleased := h.leased k j m hm'
  rw [Std.TreeMap.mem_iff_isSome_getElem?]
  generalize m.activity = activity at hmanned hindex hleased
  cases hmanned with
  | idle => cases hindex
  | off => cases hindex
  | acting =>
    rw [show s.services.table.leases[m.worker]? = _ from hleased]
    rfl
  | calling _ hn₁ hwork | awaiting _ hn₁ hwork | resuming _ hn₁ hwork =>
    cases hindex
    exact (hforeign hn₁ hwork).elim

theorem ne_off_of_index (h : m.activity.index? = some i) : m.activity ≠ .off := by
  intro hoff
  rw [hoff] at h
  cases h

/-- Two running nodes share no key, unless it is one that tasks trade. -/
theorem Kept.eq_of_shared_key (h : Kept base s) (hrun : s.Runs k b i n) (hrun' : s.Runs k' b' i' n')
    (key : ResourceKey) (hnot : ¬ s.Trades key) (hkey : key ∈ n.lockKeys b base.locks)
    (hkey' : key ∈ n'.lockKeys b' base.locks) : (k, b, i) = (k', b', i') := by
  obtain ⟨j, m, hm, rfl, hindex, hkeys, _⟩ := h.exists_busy hrun
  obtain ⟨j', m', hm', rfl, hindex', hkeys', _⟩ := h.exists_busy hrun'
  have howner := (h.held k j m key hm (hkeys ▸ hkey) hnot).1
  have howner' := (h.held k' j' m' key hm' (hkeys' ▸ hkey') hnot).1
  obtain ⟨rfl, rfl⟩ := h.workers k j k' j' m m' hm hm' (ne_off_of_index hindex)
    (ne_off_of_index hindex') (Option.some.inj (howner.symm.trans howner'))
  cases hm.symm.trans hm'
  cases hindex.symm.trans hindex'
  rfl

/-- Tasks that run at the same time exclude each other as they should, over services that were
`base` before all of them. -/
structure Exclusive (base : Services) (s : Site) : Prop where
  /-- No two running tasks name the same shared resource. -/
  shared : ∀ k b i n t k' b' i' n' t', s.Runs k b i n → s.Runs k' b' i' n' → n.task? = some t →
    n'.task? = some t' → (k, b, i) ≠ (k', b', i') → ∀ name ∈ t.shared, name ∉ t'.shared
  /-- No two running tasks that are not isolated belong to one project, or to one build when
  projects do not run in parallel. -/
  projects : ∀ k b i n t k' b' i' n' t', s.Runs k b i n → s.Runs k' b' i' n' → n.task? = some t →
    n'.task? = some t' → (k, b, i) ≠ (k', b', i') → t.isolated = false → t'.isolated = false →
    if base.locks.parallel then (b, t.path.project) ≠ (b', t'.path.project) else b ≠ b'
  /-- No two running nodes of one plan have conflicting footprints. -/
  footprints : ∀ k b i n i' n', s.Runs k b i n → s.Runs k b i' n' → i ≠ i' →
    n.footprint.conflicts n'.footprint = false
  /-- Only so many tasks run at a time. -/
  bounded : ∀ busy : Finset (Nat × BuildId × Nat),
    (∀ p ∈ busy, ∃ n t, s.Runs p.1 p.2.1 p.2.2 n ∧ n.task? = some t) →
    busy.card ≤ max 1 base.maxWorkers
  /-- Without visits, all is as it was when everybody is done. -/
  restored : (∀ k b p, s.plan? k b = some p → p.StaysHome) →
    (∀ k j m, s.member? k j = some m → m.activity = .off) →
    (∀ key, s.services.table.owner? key = base.table.owner? key) ∧
      ∀ v : Worker, s.services.table.leases[v]? = base.table.leases[v]?

theorem Kept.card_le (h : Kept base s) (busy : Finset (Nat × BuildId × Nat))
    (hbusy : ∀ p ∈ busy, ∃ n t, s.Runs p.1 p.2.1 p.2.2 n ∧ n.task? = some t) :
    busy.card ≤ s.services.table.capacity := by
  have hworker : ∀ p ∈ busy, ∃ v ∈ s.services.table.leases, ∃ j m, s.member? p.1 j = some m ∧
      m.worker = v ∧ m.build = p.2.1 ∧ m.activity.index? = some p.2.2 := by
    intro p hp
    obtain ⟨n, t, hrun, ht⟩ := hbusy p hp
    obtain ⟨j, m, hm, hb, hindex, _, hlease⟩ := h.exists_busy hrun
    exact ⟨m.worker, hlease t ht, j, m, hm, rfl, hb, hindex⟩
  choose! worker hleased hmember using hworker
  -- nobody is busy with two nodes, so there are as many workers with a lease as there are tasks
  have hinj : Set.InjOn worker busy := by
    rintro ⟨k, b, i⟩ hp ⟨k', b', i'⟩ hp' hw
    obtain ⟨j, m, hm, hv, hb, hindex⟩ := hmember _ hp
    obtain ⟨j', m', hm', hv', hb', hindex'⟩ := hmember _ hp'
    obtain ⟨hk, hj⟩ := h.workers k j k' j' m m' hm hm' (ne_off_of_index hindex)
      (ne_off_of_index hindex') (hv.trans (hw.trans hv'.symm))
    subst hk hj
    cases hm.symm.trans hm'
    cases hindex.symm.trans hindex'
    cases hb.symm.trans hb'
    rfl
  calc busy.card = (busy.image worker).card := (Finset.card_image_of_injOn hinj).symm
    _ ≤ s.services.table.leases.keys.toFinset.card := by
      refine Finset.card_le_card fun v hv => ?_
      obtain ⟨p, hp, rfl⟩ := Finset.mem_image.1 hv
      exact List.mem_toFinset.2 (Std.TreeMap.mem_keys.2 (hleased p hp))
    _ ≤ s.services.table.leases.keys.length := List.toFinset_card_le _
    _ ≤ s.services.table.capacity := by
      rw [Std.TreeMap.length_keys]
      exact h.sane.room

/-- However many plans run over the services, and whoever takes the next step. -/
theorem Reached.exclusive (h : Reached base s) (hsane : base.table.Sane)
    (hcapacity : base.table.capacity = max 1 base.maxWorkers) : s.Exclusive base := by
  have hk := h.kept hsane
  have hkeys : ∀ {n : PlannedNode} {t : TaskDefinition}, n.task? = some t → ∀ b,
      n.lockKeys b base.locks = base.locks.taskLocks ⟨b, t.path.project⟩ t.isolated t.shared :=
    fun ht b => by rw [PlannedNode.lockKeys, ht]
  constructor
  case shared =>
    intro k b i n t k' b' i' n' t' hrun hrun' ht ht' hne name hname hname'
    refine hne (hk.eq_of_shared_key hrun hrun' (.shared name)
      (fun htraded => htraded.guardsState.elim) ?_ ?_)
    · rw [hkeys ht, ProjectLocks.taskLocks]
      exact List.mem_append_right _ (List.mem_map_of_mem (Std.TreeSet.mem_toList.2 hname))
    · rw [hkeys ht', ProjectLocks.taskLocks]
      exact List.mem_append_right _ (List.mem_map_of_mem (Std.TreeSet.mem_toList.2 hname'))
  case projects =>
    intro k b i n t k' b' i' n' t' hrun hrun' ht ht' hne hiso hiso'
    have hexecution : base.locks.executionLock ⟨b, t.path.project⟩ ≠
        base.locks.executionLock ⟨b', t'.path.project⟩ := by
      intro he
      refine hne (hk.eq_of_shared_key hrun hrun' (base.locks.executionLock ⟨b, t.path.project⟩)
        (fun htraded => ?_) ?_ ?_)
      · have hguards := htraded.guardsState
        rw [ProjectLocks.executionLock] at hguards
        split at hguards <;> exact hguards
      · rw [hkeys ht, hiso]
        simp [ProjectLocks.taskLocks]
      · rw [hkeys ht', hiso', he]
        simp [ProjectLocks.taskLocks]
    rw [ProjectLocks.executionLock, ProjectLocks.executionLock] at hexecution
    split
    · rename_i hparallel
      rw [if_pos hparallel, if_pos hparallel] at hexecution
      intro he
      obtain ⟨rfl, hproject⟩ := Prod.mk.inj he
      exact hexecution (by rw [hproject])
    · rename_i hparallel
      rw [if_neg hparallel, if_neg hparallel] at hexecution
      rintro rfl
      exact hexecution rfl
  case footprints =>
    rintro k b i n i' n' ⟨r, hr, hi, hn⟩ ⟨r', hr', hi', hn'⟩ hne
    cases hr.symm.trans hr'
    exact hk.disjoint k b r hr i i' n n' hne hi hi' hn hn'
  case bounded =>
    intro busy hbusy
    rw [← hcapacity, ← hk.capacity]
    exact hk.card_le busy hbusy
  case restored =>
    intro hhome hoff
    refine ⟨fun key => hk.free key (not_trades_of_staysHome hhome key) fun k j m hm => ?_,
      fun v => hk.unleased v fun k j m hm hon => absurd (hoff k j m hm) hon⟩
    rw [hoff k j m hm]
    exact List.not_mem_nil

def visitRun (build : BuildId) : Run :=
  let task : TaskDefinition := { TaskDefinition.plain ⟨":", "call"⟩ with
    action := some ⟨.within ⟨⟨"core"⟩, ":"⟩ .done .done, none⟩ }
  .start ⟨build, #[⟨.task task, 0, true, .none, [], [], [], [], [], false⟩]⟩ ∅

def visitServices : Services := .new { Settings.default with maxWorkers := some 2 } 1

def visitShop (build : BuildId) (worker : Worker) : Workshop :=
  (Workshop.new visitServices fun _ _ => none).enroll (visitRun build) worker worker

def visitHalf : Site := step ⟨visitServices, #[visitShop ⟨"server"⟩ 0]⟩ 0 0

/-- Meanwhile a workshop for the client has opened, and the server's task has gone on its visit. -/
def visitSite : Site :=
  ((step { visitHalf with
    shops := visitHalf.shops.push (visitShop ⟨"client"⟩ 1) } 1 0).step 0 0).step 0 0

/-- Two tasks run, one of them on a visit, and they exclude each other as they should. -/
theorem visitSite_exclusive : Reached visitServices visitSite ∧
    (visitSite.run? 0 ⟨"server"⟩).map (·.progress.running) = some [0] ∧
    (visitSite.run? 1 ⟨"client"⟩).map (·.progress.running) = some [0] ∧
    visitSite.services.table.owner? (.projectState ⟨⟨"core"⟩, ":"⟩) = some 0 ∧
    visitSite.Exclusive visitServices := by
  have hfresh : ∀ build worker, (visitShop build worker).Fresh := by
    intro build worker
    refine ((Workshop.new_enrolled visitServices (fun _ _ => none) worker).enroll
      (r := visitRun build) (by simp)).fresh ?_
    intro r hr
    rw [List.nil_append, List.mem_singleton] at hr
    rw [hr]
    rfl
  have hhalf : Reached visitServices visitHalf :=
    Reached.step (.opened .start (hfresh ⟨"server"⟩ 0) (by rintro k j l m m' hm; cases hm)) 0 0
  have hsite : Reached visitServices visitSite := by
    refine (((hhalf.opened (hfresh ⟨"client"⟩ 1) ?_).step 1 0).step 0 0).step 0 0
    have hserver : (visitHalf.shops.all fun w => w.crew.all (·.worker = 0)) = true := by
      decide +kernel
    have hclient : ((visitShop ⟨"client"⟩ 1).crew.all (·.worker = 1)) = true := by decide +kernel
    intro k j l m m' hm _ hm' hworker
    obtain ⟨w, hw, hj⟩ := Option.bind_eq_some_iff.1 hm
    obtain ⟨v, hv, rfl⟩ := Option.map_eq_some_iff.1 hw
    have hv' := Array.all_eq_true'.1 hserver v (Array.mem_of_getElem? hv)
    have hzero : m.worker = 0 := by
      simpa using Array.all_eq_true'.1 hv' m (Array.mem_of_getElem? hj)
    have hone : m'.worker = 1 := by
      simpa using Array.all_eq_true'.1 hclient m' (Array.mem_of_getElem? hm')
    rw [hzero, hone] at hworker
    cases hworker
  exact ⟨hsite, by decide +kernel, by decide +kernel, by decide +kernel,
    hsite.exclusive (LockTable.empty_sane 2) (by decide)⟩

end Foreman.Site
