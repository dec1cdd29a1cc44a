import Foreman.Proofs.Lock.Tally

/-!
# Guards and holds

Outside of blocking work the hold count of a worker is to be the number of its guards, and no worker
is to wait for room that it takes up itself. This is so, whatever other workers do in between,
exactly if each section that is entered with a lease ends without one and with as many guards as it
began with (`accounted_iff_keeps`): a section takes back the count that it surrendered, not the
count that its guards stand for, and waits for room even if the worker has taken a lease inside.
-/

namespace Foreman

/-! ## The table -/

namespace LockTable

variable {t t' : LockTable} {worker : Worker} {count : Nat}

theorem leaseCount_lease? (h : t.lease? worker = some t') :
    t'.leaseCount worker = t.leaseCount worker + 1 := by
  rw [leaseCount, leases_lease? h, if_pos rfl]
  rfl

theorem leaseCount_unlease (t : LockTable) (worker : Worker) :
    (t.unlease worker).leaseCount worker = t.leaseCount worker - 1 := by
  by_cases h : t.leaseCount worker ≤ 1
  · rw [leaseCount, leases_unlease h, if_pos rfl]
    simp only [Option.getD_none]
    omega
  · rw [leaseCount] at h
    rw [unlease]
    cases hc : t.leases[worker]? with
    | none => simp [hc] at h
    | some count =>
      rw [hc, Option.getD_some] at h
      simp only
      rw [if_pos (by omega), leaseCount, leaseCount, hc, setLease, Std.TreeMap.getElem?_insert_self]
      rfl

theorem leaseCount_surrender (t : LockTable) (worker : Worker) :
    (t.surrender worker).leaseCount worker = 0 := by
  rw [leaseCount, leases_surrender, if_pos rfl]
  rfl

theorem leaseCount_restore? (h : t.restore? worker count = some t') :
    t'.leaseCount worker = if count = 0 then t.leaseCount worker else count := by
  rw [leaseCount, leases_restore? h]
  by_cases hc : count = 0
  · rw [if_neg fun hand => hand.2 hc, if_pos hc]
    rfl
  · rw [if_pos ⟨rfl, hc⟩, if_neg hc]
    rfl

/-- There is no wait for no holds. -/
theorem restore?_zero (t : LockTable) (worker : Worker) : t.restore? worker 0 = some t := by
  rw [restore?, if_pos rfl]

theorem ChangedBy.leaseCount {v : Worker} (h : ChangedBy v t t') (hv : worker ≠ v) :
    t'.leaseCount worker = t.leaseCount worker := by
  rw [LockTable.leaseCount, LockTable.leaseCount, h.leases worker hv]

/-- A lease is held as long as it is held once. -/
theorem Sane.holdsLease_iff (h : t.Sane) (worker : Worker) :
    t.holdsLease worker = true ↔ 0 < t.leaseCount worker := by
  rw [holdsLease, leaseCount, Std.TreeMap.contains_eq_isSome_getElem?]
  cases hc : t.leases[worker]? with
  | none => simp
  | some count => simpa using h.counts worker count hc

theorem Sane.holdsLease_eq_false (h : t.Sane) (hcount : t.leaseCount worker = 0) :
    t.holdsLease worker = false := by
  rw [← Bool.not_eq_true, h.holdsLease_iff, hcount]
  exact Nat.lt_irrefl 0

/-- Only a worker without a lease waits for one. -/
theorem holdsLease_of_lease?_eq_none (h : t.lease? worker = none) :
    t.holdsLease worker = false := by
  rw [lease?] at h
  rw [holdsLease, Std.TreeMap.contains_eq_isSome_getElem?]
  cases hc : t.leases[worker]? with
  | none => rfl
  | some count => simp [hc] at h

theorem repeat_unlease (t : LockTable) (worker : Worker) (n : Nat) :
    ChangedBy worker t (Nat.repeat (·.unlease worker) n t) ∧
      (Nat.repeat (·.unlease worker) n t).leaseCount worker = t.leaseCount worker - n := by
  induction n with
  | zero => exact ⟨.refl worker t, rfl⟩
  | succ n ih =>
    rw [Nat.repeat]
    refine ⟨ih.1.trans (unlease_changed _ worker), ?_⟩
    rw [leaseCount_unlease, ih.2]
    omega

end LockTable

/-! ## Accounts -/

def LeaseRun.tally (r : LeaseRun) (worker : Worker) : Tally := ⟨r.table.leaseCount worker, r.guards⟩

namespace Course

open Tally

variable {worker : Worker} {s s' : Course}

/-- The account of a worker is right: outside of sections its guards are its holds, and it holds no
lease once it has dropped them; and it waits for no room that it takes up itself. -/
structure Accounted (worker : Worker) (s : Course) : Prop where
  counted : s.sections = [] → s.run.table.leaseCount worker = s.run.guards
  waits : s.Waits worker → s.run.table.holdsLease worker = false
  dropped : s.sections = [] → (s.run.dropAll worker).table.holdsLease worker = false

/-- The tally with which a worker goes on after a section, if the section ends with this one. -/
def resumed (count : Nat) (t : Tally) : Tally := if count = 0 then t else ⟨count, t.guards⟩

/-- What is left to do after the section that the worker is in keeps the guards, if that section
ends with this tally. -/
def Stacked : List LeaseSection → Tally → Prop
  | [], _ => True
  | last :: sections, t =>
    (0 < last.count → t.holds = 0) ∧
      (sections = [] → (resumed last.count t).holds = (resumed last.count t).guards) ∧
      Own last.rest ∧ (resumed last.count t).KeepsAll last.rest ∧
      Stacked sections ((resumed last.count t).afterAll last.rest)

/-- A worker whose account stays right. -/
structure Poised (worker : Worker) (s : Course) : Prop where
  sane : s.run.table.Sane
  own : Own s.todo
  keeps : (s.run.tally worker).KeepsAll s.todo
  stacked : Stacked s.sections ((s.run.tally worker).afterAll s.todo)
  even : s.sections = [] → s.run.table.leaseCount worker = s.run.guards

/-- Only a worker without a lease waits. -/
theorem Poised.holdsLease (h : s.Poised worker) (hwaits : s.Waits worker) :
    s.run.table.holdsLease worker = false := by
  obtain ⟨r, todo, sections⟩ := s
  obtain ⟨hnext, hleft⟩ := hwaits
  cases h.own with
  | nil =>
    cases sections with
    | nil => simp at hleft
    | cons last sections =>
      have hrestore : r.table.restore? worker last.count = none := Option.map_eq_none_iff.1 hnext
      have hcount : last.count ≠ 0 := by
        intro hzero
        rw [hzero, LockTable.restore?_zero] at hrestore
        cases hrestore
      exact h.sane.holdsLease_eq_false (h.stacked.1 (Nat.pos_of_ne_zero hcount))
  | acquire _ =>
    have hperform : r.perform? worker .acquire = none := Option.map_eq_none_iff.1 hnext
    rw [LeaseRun.perform?] at hperform
    cases hl : r.table.lease? worker with
    | none => exact LockTable.holdsLease_of_lease?_eq_none hl
    | some table => simp [hl] at hperform
  | drop _ => cases hnext
  | blocking panics _ _ => cases hnext

theorem Poised.toAccounted (h : s.Poised worker) : s.Accounted worker := by
  refine ⟨h.even, h.holdsLease, fun hout => ?_⟩
  obtain ⟨hchanged, hcount⟩ := s.run.table.repeat_unlease worker s.run.guards
  refine (hchanged.sane h.sane).holdsLease_eq_false ?_
  rw [hcount, h.even hout, Nat.sub_self]

/-- Another worker uses the table. -/
theorem Poised.other (h : s.Poised worker) {v : Worker} (hv : v ≠ worker) {table : LockTable}
    (hchanged : LockTable.ChangedBy v s.run.table table) :
    Poised worker { s with run := { s.run with table } } := by
  have hcount := hchanged.leaseCount hv.symm
  have htally : LeaseRun.tally { s.run with table } worker = s.run.tally worker := by
    rw [LeaseRun.tally, LeaseRun.tally, hcount]
  exact ⟨hchanged.sane h.sane, h.own, htally ▸ h.keeps, htally ▸ h.stacked,
    fun hout => hcount.trans (h.even hout)⟩

/-- An action of the worker that changes the tally as it should, outside of sections too. -/
theorem Poised.acts {r r' : LeaseRun} {action : LeaseAction} {rest : List LeaseAction}
    {sections : List LeaseSection} (h : Poised worker ⟨r, action :: rest, sections⟩)
    (haction : Own [action]) (hrest : Own rest) (hsane : r'.table.Sane)
    (htally : r'.tally worker = (r.tally worker).after action) :
    Poised worker ⟨r', rest, sections⟩ := by
  have hkeeps := h.keeps
  have hstacked := h.stacked
  rw [Tally.afterAll] at hstacked
  refine ⟨hsane, hrest, htally ▸ hkeeps.2, htally ▸ hstacked, fun hout => ?_⟩
  have heven := even_afterAll haction ⟨hkeeps.1, trivial⟩ (h.even hout)
  rw [Tally.afterAll, Tally.afterAll, ← htally] at heven
  exact heven

/-- What a new guard makes of the tally. -/
theorem tally_acquire {r : LeaseRun} {table : LockTable} (h : r.table.lease? worker = some table) :
    LeaseRun.tally { r with table, guards := r.guards + 1 } worker =
      (r.tally worker).after .acquire := by
  rw [Tally.after, LeaseRun.tally]
  exact congrArg (Tally.mk · _) (LockTable.leaseCount_lease? h)

/-- What a drop makes of the tally. -/
theorem tally_drop (r : LeaseRun) (worker : Worker) :
    (r.drop worker).tally worker = (r.tally worker).after .drop := by
  rw [LeaseRun.drop, Tally.after]
  by_cases h : 0 < r.guards
  · rw [if_pos h, if_pos (show 0 < (r.tally worker).guards from h)]
    rw [LeaseRun.tally, LockTable.leaseCount_unlease]
    rfl
  · rw [if_neg h, if_neg (show ¬ 0 < (r.tally worker).guards from h)]

theorem drop_changed (r : LeaseRun) (worker : Worker) :
    LockTable.ChangedBy worker r.table (r.drop worker).table := by
  rw [LeaseRun.drop]
  split
  · exact LockTable.unlease_changed _ worker
  · exact .refl worker _

/-- The end of a section gives back the count that was surrendered for it. -/
theorem tally_restore {r : LeaseRun} {count : Nat} {table : LockTable}
    (h : r.table.restore? worker count = some table) :
    LeaseRun.tally { r with table } worker = resumed count (r.tally worker) := by
  rw [LeaseRun.tally, LockTable.leaseCount_restore? h, resumed]
  split
  · rfl
  · rfl

theorem tally_surrender (r : LeaseRun) (worker : Worker) :
    LeaseRun.tally { r with table := r.table.surrender worker } worker =
      ⟨0, (r.tally worker).guards⟩ := by
  rw [LeaseRun.tally, LockTable.leaseCount_surrender]
  rfl

/-- The account stays right in each step of the worker. -/
theorem Poised.next (h : s.Poised worker) (hnext : s.next? worker = some s') :
    s'.Poised worker := by
  obtain ⟨r, todo, sections⟩ := s
  cases h.own with
  | nil =>
    cases sections with
    | nil => cases hnext
    | cons last sections =>
      obtain ⟨table, hrestore, rfl⟩ := Option.map_eq_some_iff.1 hnext
      have htally := tally_restore hrestore
      obtain ⟨_, heven, hown, hkeeps, hstacked⟩ := h.stacked
      rw [Tally.afterAll, ← htally] at heven hkeeps hstacked
      exact ⟨(LockTable.restore?_changed hrestore).sane h.sane, hown, hkeeps, hstacked, heven⟩
  | @acquire rest hrest =>
    obtain ⟨r', hperform, rfl⟩ := Option.map_eq_some_iff.1 hnext
    rw [LeaseRun.perform?] at hperform
    obtain ⟨table, hlease, hr'⟩ := Option.bind_eq_some_iff.1 hperform
    cases hr'
    exact h.acts (.acquire .nil) hrest ((LockTable.lease?_changed hlease).sane h.sane)
      (tally_acquire hlease)
  | @drop rest hrest =>
    cases hnext
    exact h.acts (.drop .nil) hrest ((drop_changed r worker).sane h.sane) (tally_drop r worker)
  | @blocking inner rest panics hinner hrest =>
    cases hnext
    have htally := tally_surrender r worker
    have hresumed : resumed (r.table.leaseCount worker)
        (Tally.afterAll ⟨0, (r.tally worker).guards⟩ inner) =
          (r.tally worker).after (.blocking inner panics) := by
      rw [resumed, Tally.after]
      rfl
    have hkeeps := h.keeps
    have hstacked := h.stacked
    rw [Tally.afterAll] at hstacked
    -- what comes after the section moves to the stack, with the tally that it is left with
    refine ⟨(r.table.surrender_changed worker).sane h.sane, hinner, htally ▸ hkeeps.1.1, ?_,
      fun hout => absurd hout (List.cons_ne_nil _ _)⟩
    rw [htally]
    refine ⟨fun hpos => ?_, fun hout => ?_, hrest, hresumed ▸ hkeeps.2, hresumed ▸ hstacked⟩
    · rw [hkeeps.1.2 hpos]
    · rw [hresumed]
      exact even_afterAll (.blocking panics hinner .nil) ⟨hkeeps.1, trivial⟩ (h.even hout)

theorem Poised.reaches (h : s.Poised worker) (hreach : Reaches worker s s') : s'.Poised worker := by
  induction hreach with
  | refl => exact h
  | tail _ hmove ih =>
    cases hmove with
    | own hnext => exact ih.next hnext
    | other v hv hchanged => exact ih.other hv hchanged

theorem start_poised {table : LockTable} (hsane : table.Sane) (hcount : table.leaseCount worker = 0)
    {program : List LeaseAction} (h : Own program) (hkeeps : KeepsAll ⟨0, 0⟩ program) :
    Poised worker (start table program) := by
  have htally : (start table program).run.tally worker = ⟨0, 0⟩ := by
    rw [LeaseRun.tally]
    exact congrArg (Tally.mk · 0) hcount
  exact ⟨hsane, h, htally ▸ hkeeps, trivial, fun _ => hcount⟩

end Course

/-! ## Room for one -/

namespace LockTable

variable {t t' : LockTable} {worker : Worker} {count : Nat}

/-- There is room for one lease, and nobody else has it. -/
structure Alone (worker : Worker) (t : LockTable) : Prop where
  sane : t.Sane
  capacity : t.capacity = 1
  others : ∀ v, v ≠ worker → t.leases[v]? = none

theorem empty_alone (worker : Worker) : (empty 1).Alone worker :=
  ⟨empty_sane 1, rfl, fun v _ => by simp [empty]⟩

theorem Alone.changed (h : t.Alone worker) (hchanged : ChangedBy worker t t') :
    t'.Alone worker where
  sane := hchanged.sane h.sane
  capacity := hchanged.capacity.trans h.capacity
  others v hv := (hchanged.leases v hv).trans (h.others v hv)

theorem Alone.unleased (h : t.Alone worker) (hcount : t.leaseCount worker = 0) : t.Unleased := by
  intro v
  by_cases hv : v = worker
  · subst hv
    have hfree := h.sane.holdsLease_eq_false hcount
    rw [holdsLease, Std.TreeMap.contains_eq_isSome_getElem?] at hfree
    exact Option.not_isSome_iff_eq_none.1 (by simp [hfree])
  · exact h.others v hv

theorem Alone.exists_lease? (h : t.Alone worker) : ∃ t', t.lease? worker = some t' := by
  by_cases hcount : t.leaseCount worker = 0
  · exact ⟨_, (h.unleased hcount).lease? worker⟩
  · rw [lease?]
    cases hc : t.leases[worker]? with
    | none => simp [leaseCount, hc] at hcount
    | some count => exact ⟨_, rfl⟩

/-- A worker that holds the only lease waits for ever if it asks for it anew. -/
theorem Alone.restore?_eq_none (h : t.Alone worker) (hheld : 0 < t.leaseCount worker)
    (hcount : count ≠ 0) : t.restore? worker count = none := by
  have hmem : worker ∈ t.leases := by
    rw [Std.TreeMap.mem_iff_contains]
    exact (h.sane.holdsLease_iff worker).2 hheld
  have hsize : t.leases.size ≠ 0 := by
    intro hzero
    have hempty : t.leases.isEmpty = true := by
      rw [Std.TreeMap.isEmpty_eq_size_eq_zero, hzero]
      rfl
    exact Std.TreeMap.isEmpty_iff_forall_not_mem.1 hempty worker hmem
  rw [restore?, if_neg hcount, hasRoom, h.capacity, leasesInUse, if_neg]
  rw [decide_eq_true_eq]
  omega

end LockTable

namespace Course

open Tally

variable {worker : Worker} {s s' : Course}

/-- Alone the worker comes through the actions in its section, with the tally that they lead to, and
each section inside that is entered with a lease ends without one. -/
def ComesThrough (worker : Worker) (r : LeaseRun) (l : List LeaseAction)
    (sections : List LeaseSection) : Prop :=
  (r.tally worker).YieldsAll l ∧ ∃ r', Goes worker ⟨r, l, sections⟩ ⟨r', [], sections⟩ ∧
    r'.table.Alone worker ∧ r'.tally worker = (r.tally worker).afterAll l

theorem ComesThrough.cons {r r' : LeaseRun} {action : LeaseAction} {rest : List LeaseAction}
    {sections : List LeaseSection} (h : ComesThrough worker r' rest sections)
    (hyields : (r.tally worker).Yields action)
    (hgoes : Goes worker ⟨r, action :: rest, sections⟩ ⟨r', rest, sections⟩)
    (htally : r'.tally worker = (r.tally worker).after action) :
    ComesThrough worker r (action :: rest) sections := by
  obtain ⟨hrest, r'', hgoes', halone, htally'⟩ := h
  rw [htally] at hrest htally'
  exact ⟨⟨hyields, hrest⟩, r'', hgoes.trans hgoes', halone, htally'⟩

/-- A worker that waits for no room that it takes up itself comes through its actions where there is
room for one. -/
theorem comesThrough {l : List LeaseAction} (h : Own l) (r : LeaseRun)
    (sections : List LeaseSection) (halone : r.table.Alone worker)
    (hwaits : ∀ s, Goes worker ⟨r, l, sections⟩ s → s.Waits worker →
      s.run.table.holdsLease worker = false) : ComesThrough worker r l sections := by
  induction h generalizing r sections with
  | nil => exact ⟨trivial, r, .refl, halone, rfl⟩
  | @acquire rest _ ih =>
    obtain ⟨table, hlease⟩ := halone.exists_lease?
    have hgoes : Goes worker ⟨r, .acquire :: rest, sections⟩
        ⟨{ r with table, guards := r.guards + 1 }.report worker .acquire .done, rest, sections⟩ :=
      .single (by simp [next?, LeaseRun.perform?, hlease])
    exact (ih _ sections (halone.changed (LockTable.lease?_changed hlease)) fun s hs =>
      hwaits s (hgoes.trans hs)).cons trivial hgoes (tally_acquire hlease)
  | @drop rest _ ih =>
    have hgoes : Goes worker ⟨r, .drop :: rest, sections⟩
        ⟨(r.drop worker).report worker .drop .done, rest, sections⟩ := .single rfl
    exact (ih ((r.drop worker).report worker .drop .done) sections
      (halone.changed (drop_changed r worker)) fun s hs => hwaits s (hgoes.trans hs)).cons
        trivial hgoes
        (tally_drop r worker)
  | @blocking inner rest panics _ _ ihinner ihrest =>
    have henter : Goes worker ⟨r, .blocking inner panics :: rest, sections⟩
        ⟨{ r with table := r.table.surrender worker }, inner,
          ⟨r.table.leaseCount worker, panics, rest⟩ :: sections⟩ := .single rfl
    have hsurrendered := tally_surrender r worker
    obtain ⟨hyields, r₁, hinner, halone₁, htally₁⟩ := ihinner _ _
      (halone.changed (r.table.surrender_changed worker)) fun s hs => hwaits s (henter.trans hs)
    rw [hsurrendered] at hyields htally₁
    -- a lease that is left from inside takes up the only room, and the end of the section waits
    -- for room
    have hzero : 0 < r.table.leaseCount worker → r₁.table.leaseCount worker = 0 := by
      intro hcount
      by_contra hheld
      have hstuck := halone₁.restore?_eq_none (Nat.pos_of_ne_zero hheld) (Nat.ne_of_gt hcount)
      have hfree := hwaits _ (henter.trans hinner)
        ⟨by simp only [next?, hstuck]; rfl, .inr (List.cons_ne_nil _ _)⟩
      rw [(halone₁.sane.holdsLease_iff worker).2 (Nat.pos_of_ne_zero hheld)] at hfree
      cases hfree
    obtain ⟨table, hrestore⟩ : ∃ table, r₁.table.restore? worker (r.table.leaseCount worker) =
        some table := by
      by_cases hcount : 0 < r.table.leaseCount worker
      · exact Option.isSome_iff_exists.1 ((halone₁.unleased (hzero hcount)).restore? worker _)
      · rw [Nat.eq_zero_of_not_pos hcount]
        exact ⟨_, LockTable.restore?_zero _ worker⟩
    have hleave : Goes worker ⟨r, .blocking inner panics :: rest, sections⟩
        ⟨{ r₁ with table }.report worker .blocking (if panics then .panicked else .returned), rest,
          sections⟩ :=
      (henter.trans hinner).tail (by simp only [next?, hrestore]; rfl)
    refine (ihrest _ sections (halone₁.changed (LockTable.restore?_changed hrestore)) fun s hs =>
      hwaits s (hleave.trans hs)).cons ⟨hyields, fun hcount => ?_⟩ hleave ?_
    · rw [← htally₁]
      exact hzero hcount
    · exact (tally_restore hrestore).trans (by rw [htally₁]; rfl)

end Course

/-- Whatever a worker does with its lease, and whatever others do in between, its account stays
right exactly if every section that it enters with a lease ends without one and with the guards it
began with. -/
theorem accounted_iff_keeps {program : List LeaseAction} (h : Own program) (worker : Worker) :
    (∀ table : LockTable, table.Sane → table.leaseCount worker = 0 →
      ∀ s, Course.Reaches worker (.start table program) s → s.Accounted worker) ↔
        Tally.KeepsAll ⟨0, 0⟩ program := by
  constructor
  · intro haccounted
    -- room for one and nobody else is enough to bring out every fault
    have halone := LockTable.empty_alone worker
    have haccounted := haccounted (.empty 1) halone.sane rfl
    obtain ⟨hyields, r', hgoes, _, htally⟩ := Course.comesThrough h ⟨.empty 1, 0, []⟩ [] halone
      fun s hs => (haccounted s hs.reaches).waits
    have hcounted : r'.table.leaseCount worker = r'.guards :=
      (haccounted _ hgoes.reaches).counted rfl
    have hstart : LeaseRun.tally ⟨.empty 1, 0, []⟩ worker = ⟨0, 0⟩ := rfl
    rw [hstart] at hyields htally
    refine Tally.keepsAll_of_gap h hyields ?_
    rw [← htally]
    simp only [Tally.gap, LeaseRun.tally]
    omega
  · intro hkeeps table hsane hcount s hreach
    exact ((Course.start_poised hsane hcount h hkeeps).reaches hreach).toAccounted

/-- A worker that takes a second guard around blocking work and drops it there, even if that work
panics, keeps its account right. -/
theorem section_of_its_own_accounted :
    Own [.acquire, .blocking [.acquire, .drop] true, .drop] ∧
      ∀ table : LockTable, table.Sane → table.leaseCount 0 = 0 →
        ∀ s, Course.Reaches 0 (.start table [.acquire, .blocking [.acquire, .drop] true, .drop]) s →
          s.Accounted 0 := by
  have hown : Own [.acquire, .blocking [.acquire, .drop] true, .drop] :=
    .acquire (.blocking true (.acquire (.drop .nil)) (.drop .nil))
  exact ⟨hown, (accounted_iff_keeps hown 0).2 (by decide)⟩

/-- A worker that drops its guard inside of a section still has a lease after the section, and no
guard to give it back with. -/
theorem lease_outlives_guards :
    Own [.acquire, .blocking [.drop] false] ∧
      ∃ s, Course.Reaches 0 (.start (.empty 2) [.acquire, .blocking [.drop] false]) s ∧
        s.todo = [] ∧ s.sections = [] ∧ s.run.guards = 0 ∧ s.run.table.leaseCount 0 = 1 ∧
          (s.run.dropAll 0).table.holdsLease 0 = true :=
  ⟨.acquire (.blocking false (.drop .nil) .nil), _,
    Course.Goes.reaches (.head rfl (.head rfl (.head rfl (.single rfl)))), rfl, rfl, rfl, rfl, rfl⟩

/-- A worker that takes a guard inside of a section may wait for room that it takes up itself. -/
example : ∃ s, Course.Reaches 0 (.start (.empty 1) [.acquire, .blocking [.acquire] false]) s ∧
    s.Waits 0 ∧ s.run.table.holdsLease 0 = true :=
  ⟨_, Course.Goes.reaches (.head rfl (.head rfl (.single rfl))),
    ⟨rfl, .inr (List.cons_ne_nil _ _)⟩, rfl⟩

end Foreman
