import Foreman.Proofs.Run.Settling
import Mathlib.Data.List.Sort

/-!
# What a selection does

`Run.Attempted` lists what one attempt to start a node can come to, and `Run.Selected` what the
whole selection can come to: the first attempt, else the relaxed one, else giving up. Each is a
chain of changes of the run (`Selected.chain`).
-/

namespace Foreman

namespace Run

variable {r r' : Run} {o : Outlook} {locks : ProjectLocks} {worker : Worker}
  {table table' : LockTable} {i : Nat}

theorem mem_readyNodes : i ∈ r.readyNodes ↔ i < r.plan.size ∧
    r.progress.state? i = some .ready := by
  simp [readyNodes, indices, Progress.isIn]

def ordinalOf (r : Run) (i : Nat) : Nat := ((r.plan.nodes[i]?).map (·.ordinal)).getD 0

/-- Nodes are taken by ordinal, and those of one ordinal by number. -/
def TakenFirst (r : Run) (a b : Nat) : Prop :=
  r.ordinalOf a < r.ordinalOf b ∨ r.ordinalOf a = r.ordinalOf b ∧ a ≤ b

instance (r : Run) : DecidableRel r.TakenFirst := fun _ _ => inferInstanceAs (Decidable (_ ∨ _))

instance (r : Run) : Std.Total r.TakenFirst where
  total a b := by
    rw [TakenFirst, TakenFirst]
    omega

instance (r : Run) : IsTrans Nat r.TakenFirst where
  trans a b c := by
    rw [TakenFirst, TakenFirst, TakenFirst]
    omega

instance (r : Run) : Std.Antisymm r.TakenFirst where
  antisymm a b := by
    rw [TakenFirst, TakenFirst]
    omega

/-- The ready nodes are sorted by ordinal and number: sorting by ordinal leaves those of one ordinal
in order. -/
theorem readyNodes_eq (r : Run) : r.readyNodes =
    (r.indices.filter (r.progress.isIn · .ready)).insertionSort r.TakenFirst := by
  let ready := r.indices.filter (r.progress.isIn · .ready)
  have hincreasing : ready.Pairwise (· < ·) := List.pairwise_lt_range.filter _
  have htrans : ∀ a b c, decide (r.ordinalOf a ≤ r.ordinalOf b) = true →
      decide (r.ordinalOf b ≤ r.ordinalOf c) = true →
      decide (r.ordinalOf a ≤ r.ordinalOf c) = true := by
    simp only [decide_eq_true_eq]
    omega
  have htotal : ∀ a b, (decide (r.ordinalOf a ≤ r.ordinalOf b) ||
      decide (r.ordinalOf b ≤ r.ordinalOf a)) = true := by
    simp only [Bool.or_eq_true, decide_eq_true_eq]
    omega
  have hsame : ∀ k, r.readyNodes.filter (r.ordinalOf · = k) = ready.filter (r.ordinalOf · = k) := by
    intro k
    have hsub : (ready.filter (r.ordinalOf · = k)).Sublist r.readyNodes := by
      refine List.sublist_mergeSort htrans htotal ?_ List.filter_sublist
      rw [List.pairwise_filter]
      refine hincreasing.imp fun _ ha hb => ?_
      simp only [decide_eq_true_eq] at ha hb ⊢
      omega
    have hfiltered := hsub.filter (r.ordinalOf · = k)
    rw [List.filter_filter, List.filter_congr fun a _ => Bool.and_self _] at hfiltered
    refine (hfiltered.eq_of_length ?_).symm
    exact ((List.mergeSort_perm ready _).filter _).length_eq.symm
  have hsorted : r.readyNodes.Pairwise r.TakenFirst := by
    rw [List.pairwise_iff_forall_sublist]
    intro a b hab
    have hle : r.ordinalOf a ≤ r.ordinalOf b := by
      have := List.pairwise_iff_forall_sublist.1 (List.pairwise_mergeSort htrans htotal ready) hab
      simpa using this
    refine hle.lt_or_eq.imp id fun heq => ⟨heq, ?_⟩
    have hpair := hab.filter (r.ordinalOf · = r.ordinalOf a)
    rw [hsame, List.filter_cons_of_pos (by simp), List.filter_cons_of_pos (by simp [heq])] at hpair
    exact (List.pairwise_iff_forall_sublist.1 hincreasing (hpair.trans List.filter_sublist)).le
  have hperm : r.readyNodes.Perm (ready.insertionSort r.TakenFirst) :=
    (List.mergeSort_perm ready _).trans (List.perm_insertionSort r.TakenFirst ready).symm
  exact hperm.eq_of_pairwise' hsorted (List.pairwise_insertionSort r.TakenFirst ready)

/-- Nothing is left to do, or a move was refused. -/
def IsFinished (r : Run) : Prop := r.progress.error.isSome = true ∨ r.progress.remaining = 0

/-- A ready node can start: it conflicts with no running one, and its lease and locks are free. -/
structure CanLaunch (r : Run) (locks : ProjectLocks) (worker : Worker) (table : LockTable) (i : Nat)
    (n : PlannedNode) (keys : List ResourceKey) (table' : LockTable) : Prop where
  node : r.plan.nodes[i]? = some n
  ready : i ∈ r.readyNodes
  clashes : r.clashes n = false
  keys_eq : keys = n.lockKeys r.plan.build locks
  locked : ∃ leased, table.lease? worker = some leased ∧ leased.acquire? keys worker = some table'

/-- Something keeps a node from starting. -/
def Hindered (r : Run) (locks : ProjectLocks) (worker : Worker) (table : LockTable) (i : Nat) :
    Prop :=
  ∀ n, r.plan.nodes[i]? = some n → r.clashes n = true ∨ table.lease? worker = none ∨
    ∃ leased, table.lease? worker = some leased ∧
      leased.acquire? (n.lockKeys r.plan.build locks) worker = none

inductive Attempted (r : Run) (o : Outlook) (locks : ProjectLocks) (worker : Worker)
    (table : LockTable) : Option Selection → Run → LockTable → Prop
  | finished (h : (r.settle o).IsFinished) :
      Attempted r o locks worker table (some .done) (r.settle o) table
  | run {n : PlannedNode} {i : Nat} {keys : List ResourceKey} {table' : LockTable}
      (h : ¬(r.settle o).IsFinished)
      (hl : (r.settle o).CanLaunch locks worker table i n keys table') :
      Attempted r o locks worker table (some (.run i keys)) ((r.settle o).launch i) table'
  | wait (h : ¬(r.settle o).IsFinished)
      (hi : ∀ i ∈ (r.settle o).readyNodes, (r.settle o).Hindered locks worker table i)
      (hw : (r.settle o).readyNodes ≠ [] ∨ (r.settle o).progress.running ≠ [] ∨
        (r.settle o).awaitsOthers o = true) :
      Attempted r o locks worker table (some .wait) (r.settle o) table
  | nothing (h : ¬(r.settle o).IsFinished) (hready : (r.settle o).readyNodes = [])
      (hrunning : (r.settle o).progress.running = [])
      (hothers : (r.settle o).awaitsOthers o = false) :
      Attempted r o locks worker table none (r.settle o) table

/-- What the search through ready nodes comes to. -/
theorem startFirst_spec (r : Run) (locks : ProjectLocks) (worker : Worker) (table : LockTable)
    (l : List Nat) (hl : ∀ i ∈ l, i ∈ r.readyNodes) :
    (∃ i n keys table', r.CanLaunch locks worker table i n keys table' ∧
        r.startFirst locks worker table l = some (.run i keys, r.launch i, table')) ∨
      (∀ i ∈ l, r.Hindered locks worker table i) ∧
        (r.startFirst locks worker table l = none ∨
          l ≠ [] ∧ r.startFirst locks worker table l = some (.wait, r, table)) := by
  induction l with
  | nil => exact .inr ⟨by simp, .inl rfl⟩
  | cons i l ih =>
    have hi := hl i (List.mem_cons_self ..)
    have skip (hh : r.Hindered locks worker table i)
        (he : r.startFirst locks worker table (i :: l) = r.startFirst locks worker table l) :
        (∃ k n keys table', r.CanLaunch locks worker table k n keys table' ∧
          r.startFirst locks worker table (i :: l) = some (.run k keys, r.launch k, table')) ∨
        (∀ k ∈ i :: l, r.Hindered locks worker table k) ∧
          (r.startFirst locks worker table (i :: l) = none ∨
            i :: l ≠ [] ∧ r.startFirst locks worker table (i :: l) = some (.wait, r, table)) := by
      rw [he]
      rcases ih fun k hk => hl k (List.mem_cons_of_mem i hk) with hrun | ⟨hall, hres⟩
      · exact .inl hrun
      · refine .inr ⟨fun k hk => ?_, ?_⟩
        · rcases List.mem_cons.1 hk with rfl | hk
          · exact hh
          · exact hall k hk
        · rcases hres with hres | ⟨_, hres⟩
          · exact .inl hres
          · exact .inr ⟨by simp, hres⟩
    cases hn : r.plan.nodes[i]? with
    | none => exact skip (fun n hn' => by simp [hn] at hn') (by rw [startFirst, hn])
    | some n =>
      cases hc : r.clashes n with
      | true =>
        refine skip (fun m hm => ?_) (by rw [startFirst, hn]; simp [hc])
        rw [hn] at hm
        cases hm
        exact .inl hc
      | false =>
        cases hlease : table.lease? worker with
        | none =>
          refine .inr ⟨fun _ _ _ _ => .inr (.inl hlease), .inr ⟨by simp, ?_⟩⟩
          rw [startFirst, hn]
          simp [hc, hlease]
        | some leased =>
          cases hk : leased.acquire? (n.lockKeys r.plan.build locks) worker with
          | none =>
            refine skip (fun m hm => ?_) (by rw [startFirst, hn]; simp [hc, hlease, hk])
            rw [hn] at hm
            cases hm
            exact .inr (.inr ⟨leased, hlease, hk⟩)
          | some held =>
            refine .inl ⟨i, n, _, held, ⟨hn, hi, hc, rfl, leased, hlease, hk⟩, ?_⟩
            rw [startFirst, hn]
            simp only [hc, hlease, hk, Bool.false_eq_true, if_false]
            rfl

theorem attempt_spec (r : Run) (o : Outlook) (locks : ProjectLocks) (worker : Worker)
    (table : LockTable) :
    Attempted r o locks worker table (r.attempt o locks worker table).1
      (r.attempt o locks worker table).2.1 (r.attempt o locks worker table).2.2 := by
  rw [attempt]
  by_cases h : (r.settle o).IsFinished
  · have h' : ((r.settle o).progress.error.isSome ||
        decide ((r.settle o).progress.remaining = 0)) = true := by
      simpa [IsFinished] using h
    simp only [h', if_true]
    exact .finished h
  · have h' : ((r.settle o).progress.error.isSome ||
        decide ((r.settle o).progress.remaining = 0)) = false := by
      simpa [IsFinished] using h
    simp only [h', Bool.false_eq_true, if_false]
    rcases startFirst_spec (r.settle o) locks worker table (r.settle o).readyNodes
      (fun _ h => h) with ⟨i, n, keys, table', hl, he⟩ | ⟨hi, he | ⟨hne, he⟩⟩
    · rw [he]
      exact .run h hl
    · rw [he]
      simp only
      split
      · rename_i hw
        exact .wait h hi (by simpa [or_assoc] using hw)
      · rename_i hw
        simp only [ne_eq, Bool.or_eq_true, decide_eq_true_eq, not_or, not_not,
          Bool.not_eq_true] at hw
        exact .nothing h hw.1.1 hw.1.2 hw.2
    · rw [he]
      exact .wait h hi (.inl hne)

inductive Selected (r : Run) (stop : Bool) (foreign : Foreign) (locks : ProjectLocks)
    (worker : Worker) (table : LockTable) : Selection → Run → LockTable → Prop
  | strict {selection : Selection} {r' : Run} {table' : LockTable}
      (h : Attempted r ⟨stop, false, foreign⟩ locks worker table (some selection) r' table') :
      Selected r stop foreign locks worker table selection r' table'
  | relaxed {selection : Selection} {r₁ r' : Run} {table' : LockTable}
      (h₁ : Attempted r ⟨stop, false, foreign⟩ locks worker table none r₁ table)
      (h : Attempted r₁ ⟨stop, true, foreign⟩ locks worker table (some selection) r' table') :
      Selected r stop foreign locks worker table selection r' table'
  | gaveUp {r₁ r₂ : Run}
      (h₁ : Attempted r ⟨stop, false, foreign⟩ locks worker table none r₁ table)
      (h₂ : Attempted r₁ ⟨stop, true, foreign⟩ locks worker table none r₂ table) :
      Selected r stop foreign locks worker table .done r₂.skipStuck table

theorem Attempted.table_of_none (h : Attempted r o locks worker table none r' table') :
    table' = table := by
  cases h
  rfl

theorem select_spec (r : Run) (stop : Bool) (foreign : Foreign) (locks : ProjectLocks)
    (worker : Worker) (table : LockTable) :
    Selected r stop foreign locks worker table (r.select stop foreign locks worker table).1
      (r.select stop foreign locks worker table).2.1
      (r.select stop foreign locks worker table).2.2 := by
  rw [select]
  have h₁ := attempt_spec r ⟨stop, false, foreign⟩ locks worker table
  generalize r.attempt ⟨stop, false, foreign⟩ locks worker table = first at h₁
  obtain ⟨selection, r₁, table₁⟩ := first
  cases selection with
  | some selection => exact .strict h₁
  | none =>
    have ht := h₁.table_of_none
    simp only at h₁ ht ⊢
    subst ht
    have h₂ := attempt_spec r₁ ⟨stop, true, foreign⟩ locks worker table₁
    generalize r₁.attempt ⟨stop, true, foreign⟩ locks worker table₁ = second at h₂
    obtain ⟨selection, r₂, table₂⟩ := second
    cases selection with
    | some selection => exact .relaxed h₁ h₂
    | none =>
      have ht := h₂.table_of_none
      simp only at h₂ ht ⊢
      subst ht
      exact .gaveUp h₁ h₂

/-! ## Selections as chains of changes -/

/-- What one attempt changes a run for. -/
def Cause.OfPass (o : Outlook) (c : Cause) : Prop := c = .settled o ∨ c = .started

/-- What a selection without giving up changes a run for. -/
def Cause.OfAttempt (stop : Bool) (foreign : Foreign) : Cause → Prop
  | settled o => o.stop = stop ∧ o.foreign = foreign
  | started => True
  | gaveUp | ended _ => False

theorem Cause.OfPass.ofAttempt {c : Cause} (h : c.OfPass o) : c.OfAttempt o.stop o.foreign := by
  rcases h with rfl | rfl
  · exact ⟨rfl, rfl⟩
  · trivial

/-- What a selection changes a run for. -/
def Cause.OfSelection (stop : Bool) (foreign : Foreign) (c : Cause) : Prop :=
  c.OfAttempt stop foreign ∨ c = .gaveUp

theorem Changes.mono {admits admits' : Cause → Prop} (h : Changes admits r r')
    (hsub : ∀ c, admits c → admits' c) : Changes admits' r r' := by
  induction h with
  | refl => exact .refl
  | tail _ hc ih =>
    obtain ⟨c, hc, hch⟩ := hc
    exact ih.tail ⟨c, hsub c hc, hch⟩

theorem Changes.trans {admits : Cause → Prop} {r₁ : Run} (h₁ : Changes admits r r₁)
    (h₂ : Changes admits r₁ r') : Changes admits r r' :=
  Relation.ReflTransGen.trans h₁ h₂

theorem CanLaunch.change {n : PlannedNode} {keys : List ResourceKey}
    (h : r.CanLaunch locks worker table i n keys table') : Change r .started (r.launch i) :=
  .start (mem_readyNodes.1 h.ready).2

theorem Attempted.pass {selection : Option Selection}
    (h : Attempted r o locks worker table selection r' table') : Changes (Cause.OfPass o) r r' := by
  have hsettle : Changes (Cause.OfPass o) r (r.settle o) :=
    (settle_chain r o).mono fun _ hc => .inl hc
  cases h with
  | finished => exact hsettle
  | run _ hl => exact hsettle.tail ⟨.started, .inr rfl, hl.change⟩
  | wait => exact hsettle
  | nothing => exact hsettle

theorem Attempted.chain {selection : Option Selection}
    (h : Attempted r o locks worker table selection r' table') :
    Changes (Cause.OfAttempt o.stop o.foreign) r r' :=
  h.pass.mono fun _ hc => hc.ofAttempt

/-- Skipping what still waits, over any part of the nodes. -/
theorem foldl_skip_chain (l : List Nat) : Changes (· = .gaveUp) r (l.foldl (fun r i =>
    if r.progress.isIn i .scheduled || r.progress.isIn i .ready then r.moveAndPublish i .skipped
    else r) r) := by
  induction l generalizing r with
  | nil => exact .refl
  | cons i l ih =>
    rw [List.foldl_cons]
    split
    · rename_i hi
      rw [Bool.or_eq_true, Progress.isIn_iff, Progress.isIn_iff] at hi
      exact .head ⟨_, rfl, .giveUp hi⟩ ih
    · exact ih

theorem skipStuck_chain (r : Run) : Changes (· = .gaveUp) r r.skipStuck :=
  foldl_skip_chain r.indices

variable {stop : Bool} {foreign : Foreign} {selection : Selection}

theorem Selected.chain (h : Selected r stop foreign locks worker table selection r' table') :
    Changes (Cause.OfSelection stop foreign) r r' := by
  cases h with
  | strict h => exact h.chain.mono fun _ hc => .inl hc
  | relaxed h₁ h => exact (h₁.chain.trans h.chain).mono fun _ hc => .inl hc
  | gaveUp h₁ h₂ =>
    refine Changes.trans ((h₁.chain.trans h₂.chain).mono fun _ hc => .inl hc) ?_
    exact (skipStuck_chain _).mono fun _ hc => .inr hc

end Run

end Foreman
