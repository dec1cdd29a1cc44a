import Foreman.Proofs.Lock.Sharing
import Foreman.Proofs.Mutations
import Foreman.Proofs.Workshop.Manning

/-!
# What a deed makes of the lock table

`Workshop.Effect` compares the table before and after a deed: a member that starts a node finds its
keys free and takes them, and in the end it gives them back, while its lease goes up and down by one
hold (`Deed.effect`). Exempt are the keys that tasks trade on their visits, which may come and go.
No deed starts a node whose footprint conflicts with that of a running one (`Deed.disjoint`).
-/

namespace Foreman

/-! ## Footprints -/

/-- No two running nodes have conflicting footprints. -/
def Run.Disjoint (r : Run) : Prop :=
  ∀ (i k : Nat) (n q : PlannedNode), i ≠ k → r.progress.state? i = some .running →
    r.progress.state? k = some .running → r.plan.nodes[i]? = some n → r.plan.nodes[k]? = some q →
    n.footprint.conflicts q.footprint = false

/-- What a worker's entry among the leases is, compared with the one from before it had a node. -/
def Activity.Leases (before now : Option Nat) : Activity → Prop
  | .idle => now = before
  | .acting .. | .calling .. => now = some (before.getD 0 + 1)
  | .awaiting _ _ _ _ holds | .resuming _ _ holds _ => now = none ∧ holds = before.getD 0 + 1
  | .off => True

namespace Workshop

variable {w w' : Workshop} {j : Nat} {m : Member} {r r' : Run} {activity : Activity}
  {table : LockTable}

/-- What a deed makes of the table, for the keys that no task trades. -/
structure Effect (m : Member) (Trades : ResourceKey → Prop) (activity : Activity)
    (t t' : LockTable) : Prop where
  changed : LockTable.ChangedBy m.worker t t'
  taken : ∀ key, ¬ Trades key → key ∈ activity.keys → key ∈ m.activity.keys ∧
    t'.owner? key = t.owner? key ∨ t.owner? key = none ∧ t'.owner? key = some m.worker
  untouched : ∀ key, ¬ Trades key → key ∉ activity.keys → key ∉ m.activity.keys →
    t'.owner? key = t.owner? key
  released : ∀ key, key ∉ activity.keys → key ∈ m.activity.keys → t.owner? key = some m.worker →
    t'.owner? key = none
  leases : ∀ before : Option Nat, (∀ count, before = some count → 0 < count) →
    m.activity.Leases before t.leases[m.worker]? →
    (activity = .off → t'.leases[m.worker]? = before) ∧ activity.Leases before t'.leases[m.worker]?

/-- A deed that leaves the keys alone. -/
theorem Effect.keep {Trades : ResourceKey → Prop} {t t' : LockTable}
    (hchanged : LockTable.ChangedBy m.worker t t') (hkeys : activity.keys = m.activity.keys)
    (howners : ∀ key, ¬ Trades key → t'.owner? key = t.owner? key)
    (hleases : ∀ before : Option Nat, (∀ count, before = some count → 0 < count) →
      m.activity.Leases before t.leases[m.worker]? →
      (activity = .off → t'.leases[m.worker]? = before) ∧
        activity.Leases before t'.leases[m.worker]?) : Effect m Trades activity t t' where
  changed := hchanged
  taken key hk hkey := .inl ⟨hkeys ▸ hkey, howners key hk⟩
  untouched key hk _ _ := howners key hk
  released _ hnot hkey _ := absurd (hkeys ▸ hkey) hnot
  leases := hleases

theorem keys_activity (n : PlannedNode) (b : BuildId) (locks : ProjectLocks) (i : Nat)
    (keys : List ResourceKey) : (n.activity b locks i keys).keys = keys := by
  rcases n.task?_or_foreign with ⟨t, ht, _⟩ | ⟨d, path, hw, _⟩
  · rw [PlannedNode.activity_task ht]
    rfl
  · rw [PlannedNode.activity_foreign hw]
    rfl

theorem leases_activity (n : PlannedNode) (b : BuildId) (locks : ProjectLocks) (i : Nat)
    (keys : List ResourceKey) (before now : Option Nat) :
    (n.activity b locks i keys).Leases before now ↔ now = some (before.getD 0 + 1) := by
  rcases n.task?_or_foreign with ⟨t, ht, _⟩ | ⟨d, path, hw, _⟩
  · rw [PlannedNode.activity_task ht]
    rfl
  · rw [PlannedNode.activity_foreign hw]
    rfl

theorem off_ne_activity (n : PlannedNode) (b : BuildId) (locks : ProjectLocks) (i : Nat)
    (keys : List ResourceKey) : n.activity b locks i keys ≠ .off := by
  intro hoff
  have hindex := n.index?_activity b locks i keys
  rw [hoff] at hindex
  cases hindex

/-- A worker that gives back one hold has what it had before it took one. -/
theorem leases_unlease_self {t : LockTable} {v : Worker} {before : Option Nat}
    (hbefore : ∀ count, before = some count → 0 < count)
    (h : t.leases[v]? = some (before.getD 0 + 1)) : (t.unlease v).leases[v]? = before := by
  rw [LockTable.unlease, h]
  dsimp only
  cases before with
  | none =>
    rw [if_neg (by simp), getElem?_erase_eq_ite, if_pos rfl]
  | some count =>
    have := hbefore count rfl
    rw [if_pos (by simp; omega), LockTable.setLease, getElem?_insert_eq_ite, if_pos rfl]
    simp

theorem Deed.ne_off (hd : w.Deed m r r' activity table) : m.activity ≠ .off := by
  cases hd <;> simp [*]

theorem Deed.effect (hd : w.Deed m r r' activity table)
    (hmanned : r.Manned w.services.locks m.activity) {Trades : ResourceKey → Prop}
    (htrades : ∀ (i : Nat) (n : PlannedNode) step key, r.plan.nodes[i]? = some n →
      step ∈ (n.course r.plan.build w.services.locks).1 → LockTable.stepKey? step = some key →
      Trades key) :
    Effect m Trades activity w.services.table table := by
  cases hd with
  | rest hact hnext =>
    rcases hnext with rfl | rfl
    · refine .keep (.refl _ _) (by rw [hact]) (fun _ _ => rfl) fun before _ h => ?_
      rw [hact] at h
      exact ⟨fun he => (by cases he), h⟩
    · refine .keep (.refl _ _) (by rw [hact]; rfl) (fun _ _ => rfl) fun before _ h => ?_
      rw [hact] at h
      exact ⟨fun _ => h, trivial⟩
  | @begin _ i n leased table hact _ _ _ _ _ hlease hkeys =>
    have hidle : m.activity.keys = [] := by rw [hact]; rfl
    have hlocked : ∀ key, leased.owner? key = w.services.table.owner? key := by
      intro key
      rw [LockTable.owner?, LockTable.owners_lease? hlease, ← LockTable.owner?]
    refine ⟨(LockTable.lease?_changed hlease).trans (LockTable.acquire?_changed hkeys),
      fun key _ hkey => .inr ?_, fun key _ hkey _ => ?_, fun key _ hkey _ => ?_,
      fun before _ h => ⟨fun he => (off_ne_activity _ _ _ _ _ he).elim, ?_⟩⟩
    · rw [keys_activity] at hkey
      rw [← hlocked, LockTable.owner?_acquire? hkeys, if_pos hkey]
      exact ⟨LockTable.owner?_of_acquire? hkeys hkey, rfl⟩
    · rw [keys_activity] at hkey
      rw [LockTable.owner?_acquire? hkeys, if_neg hkey, hlocked]
    · rw [hidle] at hkey
      cases hkey
    · rw [hact] at h
      rw [leases_activity, LockTable.leases_acquire? hkeys, LockTable.leases_lease? hlease,
        if_pos rfl, LockTable.leaseCount]
      rw [show w.services.table.leases[m.worker]? = before from h]
  | @trade i keys step rest outcome n t table sight hact hn ht htake =>
    rw [hact] at hmanned
    cases hmanned with
    | @acting _ n' _ _ _ hn' hsteps =>
      cases hn.symm.trans hn'
      have hmem : step ∈ (n.course r.plan.build w.services.locks).1 :=
        hsteps.subset (List.mem_cons_self ..)
      refine .keep (LockTable.take?_changed htake) (by rw [hact]; rfl) (fun key hkey => ?_)
        fun before _ h => ?_
      · exact LockTable.owner?_take? htake fun hk => hkey (htrades i n step key hn hmem hk)
      · rw [hact] at h
        rw [LockTable.leases_take? htake]
        exact ⟨fun he => (by cases he), h⟩
  | @finish i keys outcome hact =>
    have hheld : m.activity.keys = keys := by rw [hact]; rfl
    have howner : ∀ key, ((w.services.table.release keys m.worker).unlease m.worker).owner? key =
        if key ∈ keys ∧ w.services.table.owner? key = some m.worker then none
        else w.services.table.owner? key := by
      intro key
      rw [LockTable.owner?, LockTable.owners_unlease, ← LockTable.owner?, LockTable.owner?_release]
    refine ⟨(LockTable.release_changed _ _ _).trans (LockTable.unlease_changed _ _),
      fun _ _ hkey => absurd hkey List.not_mem_nil, fun key _ _ hkey => ?_,
        fun key _ hkey hown => ?_,
      fun before hbefore h => ⟨fun he => (by cases he), ?_⟩⟩
    · rw [howner, if_neg fun hc => hkey (hheld ▸ hc.1)]
    · rw [howner, if_pos ⟨hheld ▸ hkey, hown⟩]
    · rw [hact] at h
      refine leases_unlease_self hbefore ?_
      rw [LockTable.leases_release]
      exact h
  | call hact =>
    refine .keep (LockTable.surrender_changed _ _) (by rw [hact]; rfl) (fun key _ => rfl)
      fun before _ h => ⟨fun he => (by cases he), ?_⟩
    rw [hact] at h
    refine ⟨by rw [LockTable.leases_surrender, if_pos rfl], ?_⟩
    rw [LockTable.leaseCount, show w.services.table.leases[m.worker]? = _ from h]
    rfl
  | answer hact =>
    refine .keep (.refl _ _) (by rw [hact]; rfl) (fun key _ => rfl)
      fun before _ h => ⟨fun he => (by cases he), ?_⟩
    rw [hact] at h
    exact h
  | resume hact hrestore =>
    refine .keep (LockTable.restore?_changed hrestore) (by rw [hact]; rfl) (fun key _ => ?_)
      fun before _ h => ⟨fun he => (by cases he), ?_⟩
    · rw [LockTable.owner?, LockTable.owners_restore? hrestore, ← LockTable.owner?]
    · rw [hact] at h
      obtain ⟨_, hholds⟩ := h
      rw [LockTable.leases_restore? hrestore, if_pos ⟨rfl, by omega⟩, hholds]
      rfl

/-- A deed starts a node only if it conflicts with no running one. -/
theorem Deed.disjoint (hd : w.Deed m r r' activity table)
    (hleads : Leads w.services.locks m r r' activity) (h : r.Disjoint) : r'.Disjoint := by
  have hplan := hleads.changes.plan
  have hkept : (∀ k, r'.progress.state? k = some .running → r.progress.state? k = some .running) →
      r'.Disjoint := by
    intro hsub i k n q hik hi hk hn hq
    rw [hplan] at hn hq
    exact h i k n q hik (hsub i hi) (hsub k hk) hn hq
  cases hd with
  | rest _ _ _ hrunning => exact hkept fun k hk => (hrunning k).1 hk
  | begin _ hn₀ _ hclash _ hrunning =>
    intro i k n q hik hi hk hn hq
    rw [hplan] at hn hq
    rcases (hrunning i).1 hi with rfl | hi <;> rcases (hrunning k).1 hk with rfl | hk
    · exact absurd rfl hik
    · cases hn₀.symm.trans hn
      rw [Footprint.conflicts_comm]
      exact hclash k q hk hq
    · cases hn₀.symm.trans hq
      exact hclash i n hi hn
    · exact h i k n q hik hi hk hn hq
  | finish =>
    refine hkept fun k hk => ?_
    rcases (hleads.running k).1 hk with hk | ⟨hk, _⟩
    · cases hk
    · exact hk
  | trade => exact h
  | call => exact h
  | answer => exact h
  | resume => exact h

end Workshop

end Foreman
