import Foreman.Proofs.Workshop.Deeds

/-!
# Who works on what

Whatever the order of steps and whatever else holds keys and leases, each running node has exactly
one member that is busy with it, with the keys of the node and part of its course before it
(`Workshop.Crewed`). Unlike `Workshop.Orderly` this asks nothing of the plans or of the lock table.
-/

namespace Foreman

namespace Run

variable {r r' : Run} {locks : ProjectLocks} {activity : Activity}

/-- What a member is doing agrees with its run. -/
inductive Manned (locks : ProjectLocks) (r : Run) : Activity → Prop
  | idle : Manned locks r .idle
  | off : Manned locks r .off
  | acting {i : Nat} {n : PlannedNode} {steps : List AccessStep} {outcome : NodeOutcome}
      (hi : r.progress.state? i = some .running) (hn : r.plan.nodes[i]? = some n)
      (hsteps : steps <:+ (n.course r.plan.build locks).1)
      (hout : ∀ t, n.task? = some t → outcome = (n.course r.plan.build locks).2) :
      Manned locks r (.acting i (n.lockKeys r.plan.build locks) steps outcome)
  | calling {i : Nat} {n : PlannedNode} {b : BuildId} {path : TaskPath}
      (hi : r.progress.state? i = some .running) (hn : r.plan.nodes[i]? = some n)
      (hw : n.work = .foreign b path) : Manned locks r (.calling i [] b path)
  | awaiting {i : Nat} {n : PlannedNode} {b : BuildId} {path : TaskPath} {holds : Nat}
      (hi : r.progress.state? i = some .running) (hn : r.plan.nodes[i]? = some n)
      (hw : n.work = .foreign b path) : Manned locks r (.awaiting i [] b path holds)
  | resuming {i : Nat} {n : PlannedNode} {b : BuildId} {path : TaskPath} {holds : Nat}
      {outcome : NodeOutcome} (hi : r.progress.state? i = some .running)
      (hn : r.plan.nodes[i]? = some n) (hw : n.work = .foreign b path) :
      Manned locks r (.resuming i [] holds outcome)

theorem Manned.running (h : r.Manned locks activity) {i : Nat} (hi : activity.index? = some i) :
    r.progress.state? i = some .running := by
  cases h <;> cases hi <;> assumption

/-- A member holds the keys of its node. -/
theorem Manned.exists_node (h : r.Manned locks activity) {i : Nat} (hi : activity.index? = some i) :
    ∃ n, r.plan.nodes[i]? = some n ∧ activity.keys = n.lockKeys r.plan.build locks := by
  have hforeign : ∀ {n : PlannedNode} {b : BuildId} {path : TaskPath}, n.work = .foreign b path →
      [] = n.lockKeys r.plan.build locks := by
    intro n b path hw
    simp [PlannedNode.lockKeys, PlannedNode.task?, hw]
  cases h with
  | idle => cases hi
  | off => cases hi
  | acting _ hn =>
    cases hi
    exact ⟨_, hn, rfl⟩
  | calling _ hn hw =>
    cases hi
    exact ⟨_, hn, hforeign hw⟩
  | awaiting _ hn hw =>
    cases hi
    exact ⟨_, hn, hforeign hw⟩
  | resuming _ hn hw =>
    cases hi
    exact ⟨_, hn, hforeign hw⟩

/-- What others do leaves a member's node running. -/
theorem Manned.congr (h : r.Manned locks activity) (hplan : r'.plan = r.plan)
    (hrunning : ∀ i, activity.index? = some i → r'.progress.state? i = some .running) :
    r'.Manned locks activity := by
  cases h with
  | idle => exact .idle
  | off => exact .off
  | acting _ hn hsteps hout =>
    rw [← hplan] at hsteps hout ⊢
    exact .acting (hrunning _ rfl) (hplan ▸ hn) hsteps hout
  | calling _ hn hw => exact .calling (hrunning _ rfl) (hplan ▸ hn) hw
  | awaiting _ hn hw => exact .awaiting (hrunning _ rfl) (hplan ▸ hn) hw
  | resuming _ hn hw => exact .resuming (hrunning _ rfl) (hplan ▸ hn) hw

end Run

namespace Workshop

variable {w w' : Workshop} {j : Nat} {m : Member} {r r' : Run} {activity : Activity}
  {table : LockTable} {locks : ProjectLocks}

/-- What a deed of a member makes of its run and of the nodes that are running. -/
structure Leads (locks : ProjectLocks) (m : Member) (r r' : Run) (activity : Activity) : Prop where
  changes : Run.Changes (fun _ => True) r r'
  manned : r'.Manned locks activity
  running : ∀ k, r'.progress.state? k = some .running ↔
    activity.index? = some k ∨ r.progress.state? k = some .running ∧ m.activity.index? ≠ some k
  fresh : ∀ k, activity.index? = some k → r.progress.state? k = some .running →
    m.activity.index? = some k

/-- A member that stays with its node. -/
theorem Leads.stay (hindex : activity.index? = m.activity.index?)
    (hmanned : r.Manned locks activity) :
    Leads locks m r r activity where
  changes := .refl
  manned := hmanned
  running k := by
    rw [← hindex]
    constructor
    · intro hk
      by_cases hi : activity.index? = some k
      · exact .inl hi
      · exact .inr ⟨hk, hi⟩
    · rintro (hi | ⟨hk, _⟩)
      · exact hmanned.running hi
      · exact hk
  fresh k hk _ := hindex ▸ hk

/-- A member that has just started a node. -/
theorem manned_activity {i : Nat} {n : PlannedNode} (hn : r.plan.nodes[i]? = some n)
    (hi : r.progress.state? i = some .running) :
    r.Manned locks (n.activity r.plan.build locks i (n.lockKeys r.plan.build locks)) := by
  rcases n.task?_or_foreign with ⟨t, ht, _⟩ | ⟨d, path, hw, _, hkeys⟩
  · rw [PlannedNode.activity_task ht]
    exact .acting hi hn List.suffix_rfl fun _ _ => rfl
  · rw [PlannedNode.activity_foreign hw, hkeys]
    exact .calling hi hn hw

theorem Deed.leads (hd : w.Deed m r r' activity table) (hbuild : r.plan.build = m.build)
    (hmanned : r.Manned w.services.locks m.activity) :
    Leads w.services.locks m r r' activity := by
  cases hd with
  | rest hact hnext hchanges hrunning =>
    refine ⟨hchanges.mono fun _ _ => trivial, ?_, fun k => ?_, fun k hk => ?_⟩
    · rcases hnext with rfl | rfl
      · exact .idle
      · exact .off
    · rw [hrunning, hact]
      rcases hnext with rfl | rfl <;> simp [Activity.index?]
    · rcases hnext with rfl | rfl <;> cases hk
  | @begin _ i n _ _ hact hn hnew _ hchanges hrunning =>
    have hplan := hchanges.plan
    have hindex := n.index?_activity m.build w.services.locks i
      (n.lockKeys m.build w.services.locks)
    have hfits : r'.Manned w.services.locks _ :=
      manned_activity (hplan ▸ hn) ((hrunning i).2 (.inl rfl))
    rw [hplan, hbuild] at hfits
    rw [hbuild]
    refine ⟨hchanges.mono fun _ _ => trivial, hfits, fun k => ?_, fun k hk hrun => ?_⟩
    · rw [hrunning, hindex, hact]
      simp [Activity.index?, eq_comm]
    · rw [hindex, Option.some.injEq] at hk
      subst hk
      exact absurd hrun hnew
  | trade hact =>
    rw [hact] at hmanned
    cases hmanned with
    | acting hi hn hsteps hout =>
      exact .stay (by rw [hact]; rfl)
        (.acting hi hn ((List.suffix_cons _ _).trans hsteps) hout)
  | @finish i keys outcome hact =>
    have hi : r.progress.state? i = some .running := hmanned.running (by rw [hact]; rfl)
    refine ⟨.single ⟨_, trivial, .finish hi outcome⟩, .idle, fun k => ?_, fun k hk => ?_⟩
    · rw [Run.state?_finish hi, hact]
      by_cases hk : k = i
      · subst hk
        cases outcome <;> simp [Run.endState, Activity.index?]
      · simp [Activity.index?, hk, Ne.symm hk]
    · cases hk
  | call hact =>
    rw [hact] at hmanned
    cases hmanned with
    | calling hi hn hw => exact .stay (by rw [hact]; rfl) (.awaiting hi hn hw)
  | answer hact =>
    rw [hact] at hmanned
    cases hmanned with
    | awaiting hi hn hw => exact .stay (by rw [hact]; rfl) (.resuming hi hn hw)
  | resume hact =>
    rw [hact] at hmanned
    cases hmanned with
    | @resuming _ n _ _ _ _ hi hn hw =>
      have hnone : n.task? = none := by rw [PlannedNode.task?, hw]
      have hkeys : n.lockKeys r.plan.build w.services.locks = [] := by
        rw [PlannedNode.lockKeys, hnone]
      refine .stay (by rw [hact]; rfl) ?_
      rw [← hkeys]
      exact .acting hi hn (List.nil_suffix) fun t ht => by rw [hnone] at ht; cases ht

/-- Every running node has one member that is busy with it, and no member is busy with anything
else. -/
structure Crewed (w : Workshop) : Prop where
  build : ∀ (b : BuildId) (r : Run), w.runs[b]? = some r → r.plan.build = b
  consistent : ∀ (b : BuildId) (r : Run), w.runs[b]? = some r → r.Consistent
  manned : ∀ (j : Nat) (m : Member), w.crew[j]? = some m →
    ∃ r, w.runs[m.build]? = some r ∧ r.Manned w.services.locks m.activity
  apart : ∀ (j k : Nat) (m m' : Member) i, w.crew[j]? = some m → w.crew[k]? = some m' →
    m.build = m'.build → m.activity.index? = some i → m'.activity.index? = some i → j = k
  tended : ∀ (b : BuildId) (r : Run) (i : Nat), w.runs[b]? = some r →
    r.progress.state? i = some .running →
    ∃ (j : Nat) (m : Member), w.crew[j]? = some m ∧ m.build = b ∧ m.activity.index? = some i

/-- Whether a crew is in order does not depend on the table or on what is known of other builds. -/
theorem Crewed.congr (h : w.Crewed) (hruns : w'.runs = w.runs)
    (hcrew : w'.crew = w.crew) (hlocks : w'.services.locks = w.services.locks) : w'.Crewed := by
  obtain ⟨build, consistent, manned, apart, tended⟩ := h
  rw [← hruns] at build consistent manned tended
  rw [← hcrew] at manned apart tended
  rw [← hlocks] at manned
  exact ⟨build, consistent, manned, apart, tended⟩

/-- The node of another member of the same build is none that the step is about. -/
theorem Crewed.running_of_other (h : w.Crewed) (hm : w.crew[j]? = some m)
    (hr : w.runs[m.build]? = some r) (hl : Leads locks m r r' activity) {k i : Nat} {m₁ : Member}
    (hk : k ≠ j) (hm₁ : w.crew[k]? = some m₁) (hb : m₁.build = m.build)
    (hi : m₁.activity.index? = some i) :
    r'.progress.state? i = some .running ∧ activity.index? ≠ some i := by
  have hne : m.activity.index? ≠ some i := by
    intro hmi
    exact hk (h.apart k j m₁ m i hm₁ hm hb hi hmi)
  obtain ⟨q, hq, hmanned⟩ := h.manned k m₁ hm₁
  rw [hb, hr, Option.some.injEq] at hq
  subst hq
  have hrun := hmanned.running hi
  exact ⟨(hl.running i).2 (.inr ⟨hrun, hne⟩), fun ha => hne (hl.fresh i ha hrun)⟩

theorem Crewed.update (h : w.Crewed) (hm : w.crew[j]? = some m) (hr : w.runs[m.build]? = some r)
    (hl : Leads w.services.locks m r r' activity) (hd : w.Done j m r' activity table w') :
    w'.Crewed := by
  have hplan : r'.plan = r.plan := hl.changes.plan
  have hother : ∀ {Q : Member → Prop}, ¬ Q m →
      (∃ (k : Nat) (m₁ : Member), w.crew[k]? = some m₁ ∧ Q m₁) →
      ∃ (k : Nat) (m₁ : Member), w'.crew[k]? = some m₁ ∧ Q m₁ := by
    rintro Q hQ ⟨k, m₁, hm₁, hQ₁⟩
    have hk : k ≠ j := by
      rintro rfl
      cases hm.symm.trans hm₁
      exact hQ hQ₁
    exact ⟨k, m₁, (hd.crew_other hk).trans hm₁, hQ₁⟩
  constructor
  case build =>
    intro b q hq
    rw [hd.runs] at hq
    split at hq
    · rename_i hb
      cases hq
      rw [hplan, hb]
      exact h.build m.build r hr
    · exact h.build b q hq
  case consistent =>
    intro b q hq
    rw [hd.runs] at hq
    split at hq
    · cases hq
      exact (h.consistent m.build r hr).changes hl.changes
    · exact h.consistent b q hq
  case manned =>
    intro k m₁ hm₁
    rw [hd.locks]
    by_cases hk : k = j
    · subst hk
      cases hd.crew_self.symm.trans hm₁
      exact ⟨r', by rw [hd.runs, if_pos rfl], hl.manned⟩
    · rw [hd.crew_other hk] at hm₁
      obtain ⟨q, hq, hmanned⟩ := h.manned k m₁ hm₁
      rw [hd.runs]
      split
      · rename_i hb
        rw [hb, hr, Option.some.injEq] at hq
        subst hq
        exact ⟨r', rfl, hmanned.congr hplan
          fun i hi => (h.running_of_other hm hr hl hk hm₁ hb hi).1⟩
      · exact ⟨q, hq, hmanned⟩
  case apart =>
    intro k l mk ml i hmk hml hb hik hil
    by_cases hk : k = j <;> by_cases hlj : l = j
    · rw [hk, hlj]
    · subst hk
      rw [hd.crew_other hlj] at hml
      cases hd.crew_self.symm.trans hmk
      exact absurd hik (h.running_of_other hm hr hl hlj hml hb.symm hil).2
    · subst hlj
      rw [hd.crew_other hk] at hmk
      cases hd.crew_self.symm.trans hml
      exact absurd hil (h.running_of_other hm hr hl hk hmk hb hik).2
    · rw [hd.crew_other hk] at hmk
      rw [hd.crew_other hlj] at hml
      exact h.apart k l mk ml i hmk hml hb hik hil
  case tended =>
    intro b q i hq hi
    rw [hd.runs] at hq
    split at hq
    · rename_i hb
      cases hq
      rcases (hl.running i).1 hi with ha | ⟨hrun, hne⟩
      · exact ⟨j, _, hd.crew_self, hb.symm, ha⟩
      · exact hother (fun hmi => hne hmi.2) (h.tended b r i (hb ▸ hr) hrun)
    · rename_i hb
      exact hother (fun hmi => hb hmi.1.symm) (h.tended b q i hq hi)

/-- What a step is for a crew that is in order: nothing, or a deed. -/
theorem Crewed.step_cases (h : w.Crewed) (j : Nat) : w.step j = w ∨
    ∃ m r r' activity table, w.crew[j]? = some m ∧ w.runs[m.build]? = some r ∧
      w.Deed m r r' activity table ∧ Leads w.services.locks m r r' activity ∧
      w.Done j m r' activity table (w.step j) := by
  cases hm : w.crew[j]? with
  | none =>
    refine .inl ?_
    rw [step, hm]
  | some m =>
    obtain ⟨r, hr, hmanned⟩ := h.manned j m hm
    rcases step_spec hm hr (h.consistent _ _ hr) with hstay | ⟨r', activity, table, hdeed, hdone⟩
    · exact .inl hstay
    · exact .inr ⟨m, r, r', activity, table, rfl, hr, hdeed,
        hdeed.leads (h.build _ _ hr) hmanned, hdone⟩

/-- Before the first step nobody is busy and nothing is running. -/
theorem crewed_of_idle (hbuild : ∀ (b : BuildId) (r : Run), w.runs[b]? = some r → r.plan.build = b)
    (hstart : ∀ (b : BuildId) (r : Run), w.runs[b]? = some r → r.progress = .start r.plan)
    (hidle : ∀ (j : Nat) (m : Member), w.crew[j]? = some m →
      m.activity = .idle ∧ ∃ r, w.runs[m.build]? = some r) : w.Crewed where
  build := hbuild
  consistent b r hr := Run.consistent_of_start (hstart b r hr)
  manned j m hm := by
    obtain ⟨hact, r, hr⟩ := hidle j m hm
    exact ⟨r, hr, hact ▸ .idle⟩
  apart j k m m' i hm _ _ hi := by
    rw [(hidle j m hm).1] at hi
    cases hi
  tended b r i hr hi := absurd hi (Run.not_running_of_start (hstart b r hr) i)

theorem Crewed.step (h : w.Crewed) (j : Nat) : (w.step j).Crewed := by
  rcases h.step_cases j with hstay | ⟨m, r, r', activity, table, hm, hr, _, hleads, hdone⟩
  · rw [hstay]
    exact h
  · exact h.update hm hr hleads hdone

end Workshop

end Foreman
