import Foreman.Proofs.Workshop.Effects
import Foreman.Proofs.Workshop.Opening

/-!
# Several workshops over one set of services

Workshops may share their services, and a new one may open while others are at work (`Site`). The
lock table is compared with the one from before the first step: what a member holds was free then,
and what no member holds is as it was (`Site.Kept`). Only the keys that tasks trade on their visits
are exempt (`Site.Trades`). `Kept.update` is the one argument for all steps, `Reached.kept` the
induction over them.
-/

namespace Foreman

/-- Several workshops over one set of services. What a workshop itself notes as its services does
not count. -/
structure Site where
  services : Services
  shops : Array Workshop

namespace Site

def shop? (s : Site) (k : Nat) : Option Workshop :=
  (s.shops[k]?).map fun w => { w with services := s.services }

def step (s : Site) (k j : Nat) : Site :=
  match s.shop? k with
  | none => s
  | some w => ⟨(w.step j).services, s.shops.setIfInBounds k (w.step j)⟩

def run? (s : Site) (k : Nat) (b : BuildId) : Option Run := (s.shop? k).bind (·.runs[b]?)

def plan? (s : Site) (k : Nat) (b : BuildId) : Option Plan := (s.run? k b).map (·.plan)

def member? (s : Site) (k j : Nat) : Option Member := (s.shop? k).bind (·.crew[j]?)

/-- Node `i` of a run is running. -/
def Runs (s : Site) (k : Nat) (b : BuildId) (i : Nat) (n : PlannedNode) : Prop :=
  ∃ r, s.run? k b = some r ∧ r.progress.state? i = some .running ∧ r.plan.nodes[i]? = some n

/-- A task of the site takes or gives back the key on a visit. -/
def Trades (s : Site) (key : ResourceKey) : Prop :=
  ∃ k b p, ∃ i : Nat, ∃ n step, s.plan? k b = some p ∧ p.nodes[i]? = some n ∧
    step ∈ (n.course p.build s.services.locks).1 ∧ LockTable.stepKey? step = some key

end Site

/-- Nobody has begun to work: the members are idle, each with a run and a worker of its own. -/
structure Workshop.Fresh (w : Workshop) : Prop where
  build : ∀ (b : BuildId) (r : Run), w.runs[b]? = some r → r.plan.build = b
  start : ∀ (b : BuildId) (r : Run), w.runs[b]? = some r → r.progress = .start r.plan
  crew : ∀ (j : Nat) (m : Member), w.crew[j]? = some m →
    m.activity = .idle ∧ ∃ r, w.runs[m.build]? = some r
  workers : ∀ (j k : Nat) (m m' : Member), w.crew[j]? = some m → w.crew[k]? = some m' →
    m.worker = m'.worker → j = k

/-- A workshop is fresh when its runs have just been taken in. -/
theorem Workshop.Enrolled.fresh {w : Workshop} {services : Services} {rs : List Run} {next : Worker}
    (h : w.Enrolled services rs next) (hstart : ∀ r ∈ rs, r.progress = .start r.plan) :
    w.Fresh where
  build b r hr := ((h.runs b r).1 hr).2
  start b r hr := hstart r ((h.runs b r).1 hr).1
  crew j m hm := by
    obtain ⟨hidle, _, r, hr, hb⟩ := h.crew j m hm
    exact ⟨hidle, r, (h.runs m.build r).2 ⟨hr, hb⟩⟩
  workers := h.workers

/-- Where nothing runs nobody has anything to tend. -/
theorem Workshop.Fresh.crewed {w : Workshop} (h : w.Fresh) (services : Services) :
    Workshop.Crewed { w with services } :=
  Workshop.crewed_of_idle h.build h.start h.crew

namespace Site

/-- The sites that come about over the given services: workshops open, members step in any order,
and at any time somebody asks the builds to stop or builds elsewhere publish something. -/
inductive Reached (services : Services) : Site → Prop
  | start : Reached services ⟨services, #[]⟩
  /-- Nobody who is still at work elsewhere works in the new workshop. -/
  | opened {s : Site} {w : Workshop} (h : Reached services s) (hw : w.Fresh)
      (hnew : ∀ (k j l : Nat) (m m' : Member), s.member? k j = some m → m.activity ≠ .off →
        w.crew[l]? = some m' → m.worker ≠ m'.worker) :
      Reached services { s with shops := s.shops.push w }
  | step {s : Site} (h : Reached services s) (k j : Nat) : Reached services (s.step k j)
  | stop {s : Site} (h : Reached services s) (stopRequested : Bool) :
      Reached services { s with services := { s.services with stopRequested } }
  | news {s : Site} (h : Reached services s) (k : Nat) (outside : Foreign) :
      Reached services { s with shops := s.shops.modify k fun w => { w with outside } }

variable {s s' : Site} {k j : Nat} {w w' : Workshop} {m : Member} {r r' : Run} {activity : Activity}
  {table : LockTable} {base : Services}

theorem shop?_step (hw : s.shop? k = some w) (j k' : Nat) :
    (s.step k j).shop? k' = if k' = k then some (w.step j)
      else (s.shop? k').map fun w' => { w' with services := (w.step j).services } := by
  have hlt : k < s.shops.size := by
    obtain ⟨_, hk, _⟩ := Option.map_eq_some_iff.1 hw
    exact (Array.getElem?_eq_some_iff.1 hk).1
  rw [step, hw]
  simp only [shop?, Array.getElem?_setIfInBounds, hlt, if_true, eq_comm (a := k)]
  split
  · rfl
  · rw [Option.map_map]
    rfl

/-- What a deed of a member makes of the site. -/
structure Moved (s : Site) (k j : Nat) (m : Member) (r' : Run) (activity : Activity)
    (table : LockTable) (s' : Site) : Prop where
  table : s'.services.table = table
  locks : s'.services.locks = s.services.locks
  run : ∀ k' b, s'.run? k' b = if k' = k ∧ b = m.build then some r' else s.run? k' b
  member : ∀ k' j', s'.member? k' j' =
    if k' = k ∧ j' = j then some { m with activity } else s.member? k' j'

theorem moved_step (hw : s.shop? k = some w) (hd : w.Done j m r' activity table (w.step j)) :
    s.Moved k j m r' activity table (s.step k j) := by
  have hstep : (s.step k j).services = (w.step j).services := by rw [step, hw]
  have hservices : w.services = s.services := by
    obtain ⟨_, _, rfl⟩ := Option.map_eq_some_iff.1 hw
    rfl
  refine ⟨hstep ▸ hd.table, by rw [hstep, hd.locks, hservices], fun k' b => ?_, fun k' j' => ?_⟩
  · rw [run?, run?, shop?_step hw]
    by_cases hk : k' = k
    · simp [hk, hd.runs, hw]
    · simp only [hk, if_false, false_and]
      cases s.shop? k' <;> rfl
  · rw [member?, member?, shop?_step hw]
    by_cases hk : k' = k
    · simp [hk, hd.crew, hw]
    · simp only [hk, if_false, false_and]
      cases s.shop? k' <;> rfl

/-- Which keys are traded depends on the plans. -/
theorem trades_congr (hlocks : s'.services.locks = s.services.locks)
    (hplan : ∀ k b, s'.plan? k b = s.plan? k b) (key : ResourceKey) :
    s'.Trades key ↔ s.Trades key := by
  simp only [Trades, hlocks, hplan]

/-- What holds of a site over services that were `base` before it. -/
structure Kept (base : Services) (s : Site) : Prop where
  locks : s.services.locks = base.locks
  capacity : s.services.table.capacity = base.table.capacity
  sane : s.services.table.Sane
  crewed : ∀ k w, s.shop? k = some w → w.Crewed
  disjoint : ∀ k b r, s.run? k b = some r → r.Disjoint
  workers : ∀ k j k' j' m m', s.member? k j = some m → s.member? k' j' = some m' →
    m.activity ≠ .off → m'.activity ≠ .off → m.worker = m'.worker → k = k' ∧ j = j'
  held : ∀ k j m key, s.member? k j = some m → key ∈ m.activity.keys → ¬ s.Trades key →
    s.services.table.owner? key = some m.worker ∧ base.table.owner? key = none
  free : ∀ key, ¬ s.Trades key → (∀ k j m, s.member? k j = some m → key ∉ m.activity.keys) →
    s.services.table.owner? key = base.table.owner? key
  leased : ∀ k j m, s.member? k j = some m →
    m.activity.Leases base.table.leases[m.worker]? s.services.table.leases[m.worker]?
  unleased : ∀ v : Worker, (∀ k j m, s.member? k j = some m → m.activity ≠ .off → m.worker ≠ v) →
    s.services.table.leases[v]? = base.table.leases[v]?

/-- What holds of a site speaks of its table, its runs and its members. -/
theorem Kept.congr (h : Kept base s) (hlocks : s'.services.locks = s.services.locks)
    (htable : s'.services.table = s.services.table)
    (hcrewed : ∀ k w, s'.shop? k = some w → w.Crewed) (hrun : ∀ k b, s'.run? k b = s.run? k b)
    (hmember : ∀ k j, s'.member? k j = s.member? k j) : Kept base s' := by
  have htrades := trades_congr hlocks fun k b => by rw [plan?, plan?, hrun]
  constructor
  case locks => exact hlocks.trans h.locks
  case capacity => exact htable ▸ h.capacity
  case sane => exact htable ▸ h.sane
  case crewed => exact hcrewed
  case disjoint => simpa only [hrun] using h.disjoint
  case workers => simpa only [hmember] using h.workers
  case held => simpa only [hmember, htrades, htable] using h.held
  case free => simpa only [hmember, htrades, htable] using h.free
  case leased => simpa only [hmember, htable] using h.leased
  case unleased => simpa only [hmember, htable] using h.unleased

theorem off_of_keys {key : ResourceKey} (h : key ∈ m.activity.keys) : m.activity ≠ .off := by
  intro hoff
  rw [hoff] at h
  cases h

/-- One deed. The other members have other workers, whose entries the deed leaves alone. -/
theorem Kept.update (h : Kept base s) (hbase : base.table.Sane) (hm : s.member? k j = some m)
    (hr : s.run? k m.build = some r) (hon : m.activity ≠ .off)
    (hd : s.Moved k j m r' activity table s') (hplan : r'.plan = r.plan)
    (hdisjoint : r'.Disjoint) (hcrewed : ∀ k w, s'.shop? k = some w → w.Crewed)
    (he : Workshop.Effect m s.Trades activity s.services.table table) : Kept base s' := by
  have htrades : ∀ key, s'.Trades key ↔ s.Trades key := by
    refine trades_congr hd.locks fun k' b => ?_
    rw [plan?, plan?, hd.run]
    split
    · rename_i hb
      rw [hb.1, hb.2, hr]
      simp [hplan]
    · rfl
  have hself : s'.member? k j = some { m with activity } := by
    rw [hd.member, if_pos ⟨rfl, rfl⟩]
  have hother : ∀ k' j', ¬ (k' = k ∧ j' = j) → s'.member? k' j' = s.member? k' j' :=
    fun k' j' hne => by rw [hd.member, if_neg hne]
  have hworker : ∀ k' j' m', ¬ (k' = k ∧ j' = j) → s.member? k' j' = some m' →
      m'.activity ≠ .off → m'.worker ≠ m.worker :=
    fun k' j' m' hne hm' hoff hw => hne (h.workers k' j' k j m' m hm' hm hoff hon hw)
  constructor
  case locks => exact hd.locks.trans h.locks
  case capacity => exact hd.table ▸ he.changed.capacity.trans h.capacity
  case sane => exact hd.table ▸ he.changed.sane h.sane
  case crewed => exact hcrewed
  case disjoint =>
    intro k' b q hq
    rw [hd.run] at hq
    split at hq
    · cases hq
      exact hdisjoint
    · exact h.disjoint k' b q hq
  case workers =>
    intro k₁ j₁ k₂ j₂ m₁ m₂ hm₁ hm₂ hon₁ hon₂ hw
    by_cases h₁ : k₁ = k ∧ j₁ = j <;> by_cases h₂ : k₂ = k ∧ j₂ = j
    · exact ⟨h₁.1.trans h₂.1.symm, h₁.2.trans h₂.2.symm⟩
    · obtain ⟨rfl, rfl⟩ := h₁
      cases hself.symm.trans hm₁
      exact absurd hw.symm (hworker k₂ j₂ m₂ h₂ (hother k₂ j₂ h₂ ▸ hm₂) hon₂)
    · obtain ⟨rfl, rfl⟩ := h₂
      cases hself.symm.trans hm₂
      exact absurd hw (hworker k₁ j₁ m₁ h₁ (hother k₁ j₁ h₁ ▸ hm₁) hon₁)
    · rw [hother k₁ j₁ h₁] at hm₁
      rw [hother k₂ j₂ h₂] at hm₂
      exact h.workers k₁ j₁ k₂ j₂ m₁ m₂ hm₁ hm₂ hon₁ hon₂ hw
  case held =>
    intro k' j' m' key hm' hkey hnot
    rw [htrades] at hnot
    rw [hd.table]
    by_cases hself' : k' = k ∧ j' = j
    · obtain ⟨rfl, rfl⟩ := hself'
      cases hself.symm.trans hm'
      rcases he.taken key hnot hkey with ⟨hheld, hsame⟩ | ⟨hfree, htaken⟩
      · rw [hsame]
        exact h.held k' j' m key hm hheld hnot
      · refine ⟨htaken, ?_⟩
        rw [← h.free key hnot fun k₁ j₁ m₁ hm₁ hkey₁ => ?_, hfree]
        rw [(h.held k₁ j₁ m₁ key hm₁ hkey₁ hnot).1] at hfree
        cases hfree
    · rw [hother k' j' hself'] at hm'
      obtain ⟨howner, hbefore⟩ := h.held k' j' m' key hm' hkey hnot
      exact ⟨(he.changed.owners key m'.worker
        (hworker k' j' m' hself' hm' (off_of_keys hkey))).2 howner, hbefore⟩
  case free =>
    intro key hnot hnone
    rw [htrades] at hnot
    rw [hd.table]
    have hkey : key ∉ activity.keys := hnone k j _ hself
    by_cases hheld : key ∈ m.activity.keys
    · obtain ⟨howner, hbefore⟩ := h.held k j m key hm hheld hnot
      rw [he.released key hkey hheld howner, hbefore]
    · rw [he.untouched key hnot hkey hheld]
      refine h.free key hnot fun k' j' m' hm' => ?_
      by_cases hself' : k' = k ∧ j' = j
      · rw [hself'.1, hself'.2, hm, Option.some.injEq] at hm'
        exact hm' ▸ hheld
      · exact hnone k' j' m' ((hother k' j' hself').trans hm')
  case leased =>
    intro k' j' m' hm'
    rw [hd.table]
    by_cases hself' : k' = k ∧ j' = j
    · obtain ⟨rfl, rfl⟩ := hself'
      cases hself.symm.trans hm'
      exact (he.leases _ (hbase.counts m.worker) (h.leased k' j' m hm)).2
    · rw [hother k' j' hself'] at hm'
      by_cases hoff : m'.activity = .off
      · rw [hoff]
        trivial
      · rw [he.changed.leases m'.worker (hworker k' j' m' hself' hm' hoff)]
        exact h.leased k' j' m' hm'
  case unleased =>
    intro v hv
    rw [hd.table]
    by_cases hmine : v = m.worker
    · subst hmine
      have hoff : activity = .off := by
        by_contra hon'
        exact hv k j _ hself hon' rfl
      exact (he.leases _ (hbase.counts m.worker) (h.leased k j m hm)).1 hoff
    · rw [he.changed.leases v hmine]
      refine h.unleased v fun k' j' m' hm' hon' => ?_
      by_cases hself' : k' = k ∧ j' = j
      · rw [hself'.1, hself'.2, hm, Option.some.injEq] at hm'
        exact hm' ▸ Ne.symm hmine
      · exact hv k' j' m' ((hother k' j' hself').trans hm') hon'

theorem Kept.step (h : Kept base s) (hbase : base.table.Sane) (k j : Nat) :
    Kept base (s.step k j) := by
  cases hw : s.shop? k with
  | none =>
    rw [Site.step, hw]
    exact h
  | some w =>
    have hservices : w.services = s.services := by
      obtain ⟨_, _, rfl⟩ := Option.map_eq_some_iff.1 hw
      rfl
    have hc := h.crewed k w hw
    have hcrewed : (w.step j).services.locks = w.services.locks →
        ∀ k' w', (s.step k j).shop? k' = some w' → w'.Crewed := by
      intro hlocks k' w' hw'
      rw [shop?_step hw] at hw'
      split at hw'
      · cases hw'
        exact hc.step j
      · obtain ⟨v, hv, rfl⟩ := Option.map_eq_some_iff.1 hw'
        refine (h.crewed k' v hv).congr rfl rfl ?_
        obtain ⟨_, _, rfl⟩ := Option.map_eq_some_iff.1 hv
        exact hlocks.trans (by rw [hservices])
    rcases hc.step_cases j with hstay | ⟨m, r, r', activity, table, hm, hr, hdeed, hleads, hdone⟩
    · have hstep : (s.step k j).services = s.services := by
        rw [Site.step, hw]
        exact (congrArg Workshop.services hstay).trans hservices
      have hshop : ∀ k', (s.step k j).shop? k' = s.shop? k' := by
        intro k'
        rw [shop?_step hw, hstay]
        split
        · rename_i hk
          rw [hk, hw]
        · rw [hservices, shop?, Option.map_map]
          rfl
      refine h.congr (by rw [hstep]) (by rw [hstep]) (hcrewed (by rw [hstay])) (fun k' b => ?_)
        fun k' j' => ?_
      · rw [run?, run?, hshop]
      · rw [member?, member?, hshop]
    · have hr' : s.run? k m.build = some r := by rw [run?, hw]; exact hr
      have hmanned : r.Manned w.services.locks m.activity := by
        obtain ⟨q, hq, hmanned⟩ := hc.manned j m hm
        cases hr.symm.trans hq
        exact hmanned
      have htrades : ∀ (i : Nat) (n : PlannedNode) step key, r.plan.nodes[i]? = some n →
          step ∈ (n.course r.plan.build w.services.locks).1 → LockTable.stepKey? step = some key →
          s.Trades key := by
        intro i n step key hn hstep hkey
        exact ⟨k, m.build, r.plan, i, n, step, by rw [plan?, hr']; rfl, hn, hservices ▸ hstep, hkey⟩
      refine h.update hbase (by rw [member?, hw]; exact hm) hr' hdeed.ne_off (moved_step hw hdone)
        hleads.changes.plan (hdeed.disjoint hleads (h.disjoint k _ r hr')) (hcrewed hdone.locks) ?_
      rw [← hservices]
      exact hdeed.effect hmanned htrades

theorem Kept.opened (h : Kept base s) (hw : w.Fresh)
    (hnew : ∀ (k j l : Nat) (m m' : Member), s.member? k j = some m → m.activity ≠ .off →
      w.crew[l]? = some m' → m.worker ≠ m'.worker) :
    Kept base { s with shops := s.shops.push w } := by
  generalize hs' : ({ s with shops := s.shops.push w } : Site) = s'
  have hservices : s'.services = s.services := by rw [← hs']
  have hshop : ∀ k, s'.shop? k = if k = s.shops.size then some { w with services := s.services }
      else s.shop? k := by
    intro k
    rw [← hs', shop?, Array.getElem?_push, shop?]
    split <;> rfl
  have hmember : ∀ k j, s'.member? k j =
      if k = s.shops.size then w.crew[j]? else s.member? k j := by
    intro k j
    rw [member?, hshop]
    split <;> rfl
  have hold : ∀ {k : Nat} {α : Type} {f : Workshop → Option α} {a : α},
      (s.shop? k).bind f = some a → k ≠ s.shops.size := by
    rintro k α f a ha rfl
    simp [shop?] at ha
  have htrades : ∀ key, ¬ s'.Trades key → ¬ s.Trades key := by
    rintro key hnot ⟨k, b, p, i, n, step, hp, hn, hstep, hkey⟩
    refine hnot ⟨k, b, p, i, n, step, ?_, hn, by rw [hservices]; exact hstep, hkey⟩
    obtain ⟨r, hr, rfl⟩ := Option.map_eq_some_iff.1 hp
    rw [plan?, run?, hshop, if_neg (hold hr)]
    exact hp
  constructor
  case locks => rw [hservices]; exact h.locks
  case capacity => rw [hservices]; exact h.capacity
  case sane => rw [hservices]; exact h.sane
  case crewed =>
    intro k v hv
    rw [hshop] at hv
    split at hv
    · cases hv
      exact hw.crewed _
    · exact h.crewed k v hv
  case disjoint =>
    intro k b r hr
    rw [run?, hshop] at hr
    split at hr
    · intro i _ _ _ _ hi
      exact absurd hi (Run.not_running_of_start (hw.start b r hr) i)
    · exact h.disjoint k b r hr
  case workers =>
    intro k j k' j' m m' hm hm' hon hon' hworker
    rw [hmember] at hm hm'
    split at hm <;> split at hm'
    · rename_i hk hk'
      exact ⟨hk.trans hk'.symm, hw.workers j j' m m' hm hm' hworker⟩
    · exact absurd hworker.symm (hnew k' j' j m' m hm' hon' hm)
    · exact absurd hworker (hnew k j j' m m' hm hon hm')
    · exact h.workers k j k' j' m m' hm hm' hon hon' hworker
  case held =>
    intro k j m key hm hkey hnot
    rw [hservices]
    rw [hmember] at hm
    split at hm
    · rw [(hw.crew j m hm).1] at hkey
      cases hkey
    · exact h.held k j m key hm hkey (htrades key hnot)
  case free =>
    intro key hnot hnone
    rw [hservices]
    refine h.free key (htrades key hnot) fun k j m hm => hnone k j m ?_
    rw [hmember, if_neg (hold hm)]
    exact hm
  case leased =>
    intro k j m hm
    rw [hservices]
    rw [hmember] at hm
    split at hm
    · rw [(hw.crew j m hm).1]
      exact h.unleased m.worker fun k' j' m' hm' hon => hnew k' j' j m' m hm' hon hm
    · exact h.leased k j m hm
  case unleased =>
    intro v hv
    rw [hservices]
    refine h.unleased v fun k j m hm => hv k j m ?_
    rw [hmember, if_neg (hold hm)]
    exact hm

theorem Reached.kept (h : Reached base s) (hbase : base.table.Sane) : Kept base s := by
  induction h with
  | start =>
    have hshop : ∀ k, shop? ⟨base, #[]⟩ k = none := fun k => rfl
    constructor <;> simp [hbase, run?, member?, hshop]
  | opened _ hw hnew ih => exact ih.opened hw hnew
  | step _ k j ih => exact ih.step hbase k j
  | @stop s _ stopRequested ih =>
    have hsame : ∀ {α : Type} (f : Workshop → Option α),
        (∀ w services, f { w with services } = f w) →
        ∀ k, (shop? { s with services := { s.services with stopRequested } } k).bind f =
          (s.shop? k).bind f := by
      intro α f hf k
      simp only [shop?]
      cases s.shops[k]? <;> simp [hf]
    refine ih.congr rfl rfl (fun k w hw => ?_) (fun k b => hsame _ (fun _ _ => rfl) k)
      fun k j => hsame _ (fun _ _ => rfl) k
    obtain ⟨v, hv, rfl⟩ := Option.map_eq_some_iff.1 hw
    exact (ih.crewed k { v with services := s.services } (by rw [shop?, hv]; rfl)).congr rfl rfl rfl
  | @news s _ l outside ih =>
    have hshop : ∀ k, (shop? { s with shops := s.shops.modify l fun w => { w with outside } } k) =
        if l = k then (s.shop? k).map fun w => { w with outside } else s.shop? k := by
      intro k
      simp only [shop?, Array.getElem?_modify]
      split
      · simp only [Option.map_map]
        rfl
      · rfl
    have hsame : ∀ {α : Type} (f : Workshop → Option α), (∀ w outside, f { w with outside } = f w) →
        ∀ k, (shop? { s with shops := s.shops.modify l fun w => { w with outside } } k).bind f =
          (s.shop? k).bind f := by
      intro α f hf k
      rw [hshop]
      split
      · cases s.shop? k <;> simp [hf]
      · rfl
    refine ih.congr rfl rfl (fun k w hw => ?_) (fun k b => hsame _ (fun _ _ => rfl) k)
      fun k j => hsame _ (fun _ _ => rfl) k
    rw [hshop] at hw
    split at hw
    · obtain ⟨v, hv, rfl⟩ := Option.map_eq_some_iff.1 hw
      exact (ih.crewed k v hv).congr rfl rfl rfl
    · exact ih.crewed k w hw

end Site

end Foreman
