import Foreman.Proofs.Run.Moves
import Mathlib.Data.List.Basic

/-!
# The demand that is computed

`Plan.demandOf` is the demand as its definition states it, with as many steps as the plan has nodes.
Where the dependents have ranks (`Plan.Layered`) that is enough: the demand obeys its recursion
without any bound (`demandOf_eq_wanted_iff`, `demandOf_eq_unwanted_iff`, `exists_of_pending`), and
what the memo notes is the same (`demandMemo_demands`). In any plan a required node is wanted.
-/

namespace Foreman

namespace Demand

theorem join_eq_wanted_iff (a b : Demand) : a.join b = wanted ↔ a = wanted ∨ b = wanted := by
  cases a <;> cases b <;> simp [join]

theorem join_eq_unwanted_iff (a b : Demand) : a.join b = unwanted ↔
    a = unwanted ∧ b = unwanted := by
  cases a <;> cases b <;> simp [join]

@[simp] theorem wanted_join (b : Demand) : wanted.join b = wanted := by
  cases b <;> rfl

variable {α : Type}

theorem foldl_join_eq_wanted_iff (f : α → Demand) (l : List α) (start : Demand) :
    l.foldl (fun d a => d.join (f a)) start = wanted ↔ start = wanted ∨ ∃ a ∈ l, f a = wanted := by
  induction l generalizing start with
  | nil => simp
  | cons a l ih => simp [ih, join_eq_wanted_iff, or_assoc]

theorem foldl_join_eq_unwanted_iff (f : α → Demand) (l : List α) (start : Demand) :
    l.foldl (fun d a => d.join (f a)) start = unwanted ↔
      start = unwanted ∧ ∀ a ∈ l, f a = unwanted := by
  induction l generalizing start with
  | nil => simp
  | cons a l ih => simp [ih, join_eq_unwanted_iff, and_assoc]

theorem foldl_join_wanted (f : α → Demand) (l : List α) :
    l.foldl (fun d a => d.join (f a)) wanted = wanted :=
  (foldl_join_eq_wanted_iff f l wanted).2 (.inl rfl)

theorem ofFinalized_eq_wanted_iff (state : Option NodeState) :
    ofFinalized state = wanted ↔ ∃ st, state = some st ∧ st.executed = true := by
  cases state with
  | none => simp [ofFinalized]
  | some st => cases st <;> simp [ofFinalized, NodeState.executed, NodeState.isTerminal]

theorem ofFinalized_eq_unwanted_iff (state : Option NodeState) :
    ofFinalized state = unwanted ↔
      ∀ st, state = some st → st.isTerminal = true ∧ st.executed = false := by
  cases state with
  | none => simp [ofFinalized]
  | some st => cases st <;> simp [ofFinalized, NodeState.executed, NodeState.isTerminal]

end Demand

namespace Plan

variable {p : Plan} {states : Array NodeState} {rank : Nat → Nat} {i : Nat} {n : PlannedNode}

/-- Numbers, none above the size of the plan, that fall from each node to those that depend on
it. -/
structure RankedBy (p : Plan) (rank : Nat → Nat) : Prop where
  le_size : ∀ i, rank i ≤ p.size
  lt : ∀ i n, p.nodes[i]? = some n → ∀ d ∈ n.dependents, rank d < rank i

/-- No node depends on itself through others. -/
def Layered (p : Plan) : Prop := ∃ rank, p.RankedBy rank

def demandOf (p : Plan) (states : Array NodeState) (i : Nat) : Demand :=
  p.demand states (p.size + 1) i

/-! ## The recursion -/

theorem demand_succ (hn : p.nodes[i]? = some n) (fuel : Nat) :
    p.demand states (fuel + 1) i =
      if n.required then .wanted
      else (n.dependents.filter fun d => !isSettled states d).foldl
        (fun d j => d.join (p.demand states fuel j)) (demandOfFinalized states n) := by
  rw [demand, hn]

/-- More steps than the rank of the node change nothing. -/
theorem demand_fuel (hr : p.RankedBy rank) {k l : Nat} (hk : rank i < k) (hl : rank i < l) :
    p.demand states k i = p.demand states l i := by
  induction k generalizing i l with
  | zero => omega
  | succ k ih =>
    obtain ⟨l, rfl⟩ : ∃ m, l = m + 1 := ⟨l - 1, by omega⟩
    cases hn : p.nodes[i]? with
    | none => simp [demand, hn]
    | some n =>
      rw [demand_succ hn, demand_succ hn]
      congr 1
      refine List.foldl_ext _ _ _ fun d j hj => ?_
      have := hr.lt i n hn j (List.mem_filter.1 hj).1
      rw [ih (i := j) (l := l) (by omega) (by omega)]

theorem demandOf_eq (hp : p.Layered) (hn : p.nodes[i]? = some n) :
    p.demandOf states i =
      if n.required then .wanted
      else (n.dependents.filter fun d => !isSettled states d).foldl
        (fun d j => d.join (p.demandOf states j)) (demandOfFinalized states n) := by
  obtain ⟨rank, hr⟩ := hp
  rw [demandOf, demand_succ hn]
  congr 1
  refine List.foldl_ext _ _ _ fun d j hj => ?_
  have := hr.lt i n hn j (List.mem_filter.1 hj).1
  have := hr.le_size i
  rw [demandOf, demand_fuel hr (i := j) (k := p.size) (l := p.size + 1) (by omega) (by omega)]

theorem demandOf_required (hn : p.nodes[i]? = some n) (hreq : n.required = true) :
    p.demandOf states i = .wanted := by
  rw [demandOf, demand_succ hn, if_pos hreq]

theorem demandOf_eq_wanted_iff (hp : p.Layered) (hn : p.nodes[i]? = some n) :
    p.demandOf states i = .wanted ↔
      n.required = true ∨ (∃ f ∈ n.finalizes, ∃ st, states[f]? = some st ∧ st.executed = true) ∨
        ∃ d ∈ n.dependents, isSettled states d = false ∧ p.demandOf states d = .wanted := by
  rw [demandOf_eq hp hn]
  cases hreq : n.required with
  | true => simp
  | false =>
    rw [if_neg (by simp), Demand.foldl_join_eq_wanted_iff, demandOfFinalized,
      Demand.foldl_join_eq_wanted_iff]
    simp only [Demand.ofFinalized_eq_wanted_iff, List.mem_filter, Bool.not_eq_true', and_assoc]
    simp

theorem demandOf_eq_unwanted_iff (hp : p.Layered) (hn : p.nodes[i]? = some n) :
    p.demandOf states i = .unwanted ↔
      n.required = false ∧
      (∀ f ∈ n.finalizes, ∀ st, states[f]? = some st →
        st.isTerminal = true ∧ st.executed = false) ∧
      ∀ d ∈ n.dependents, isSettled states d = false → p.demandOf states d = .unwanted := by
  rw [demandOf_eq hp hn]
  cases hreq : n.required with
  | true => simp
  | false =>
    rw [if_neg (by simp), Demand.foldl_join_eq_unwanted_iff, demandOfFinalized,
      Demand.foldl_join_eq_unwanted_iff]
    simp only [Demand.ofFinalized_eq_unwanted_iff, List.mem_filter, Bool.not_eq_true', and_imp]
    simp

/-- Why a demand is still open. -/
theorem exists_of_pending (hp : p.Layered) (hn : p.nodes[i]? = some n)
    (h : p.demandOf states i = .pending) :
    n.required = false ∧
      ((∃ f ∈ n.finalizes, ∃ st, states[f]? = some st ∧ st.isTerminal = false) ∨
        ∃ d ∈ n.dependents, isSettled states d = false ∧ p.demandOf states d = .pending) := by
  have hw : p.demandOf states i ≠ .wanted := by simp [h]
  have hu : p.demandOf states i ≠ .unwanted := by simp [h]
  rw [Ne, demandOf_eq_wanted_iff hp hn] at hw
  rw [Ne, demandOf_eq_unwanted_iff hp hn] at hu
  push Not at hw hu
  obtain ⟨hreq, hfin, hdep⟩ := hw
  have hreq : n.required = false := by simpa using hreq
  refine ⟨hreq, ?_⟩
  by_contra hc
  push Not at hc
  refine (hu hreq fun f hf st hst => ⟨?_, by simpa using hfin f hf st hst⟩).elim
    fun d hd => ?_
  · simpa using hc.1 f hf st hst
  · obtain ⟨hmem, hset, hne⟩ := hd
    cases hd : p.demandOf states d with
    | wanted => exact hdep d hmem hset hd
    | pending => exact hc.2 d hmem hset hd
    | unwanted => exact hne hd

/-! ## The memo -/

/-- What a computed demand for node `i` is good for. -/
structure Demands (p : Plan) (states : Array NodeState) (i : Nat) (d : Demand) : Prop where
  required : ∀ n, p.nodes[i]? = some n → n.required = true → d = .wanted
  exact : p.Layered → d = p.demandOf states i

/-- Everything noted is right. -/
def MemoValid (p : Plan) (states : Array NodeState) (memo : Memo) : Prop :=
  ∀ i d, memo[i]? = some (some d) → p.Demands states i d

theorem emptyMemo_valid (p : Plan) (states : Array NodeState) : p.MemoValid states p.emptyMemo := by
  intro i d h
  simp [emptyMemo, Array.getElem?_replicate] at h

variable {memo : Memo}

theorem MemoValid.set (hm : p.MemoValid states memo) {d : Demand} (hd : p.Demands states i d) :
    p.MemoValid states (memo.setIfInBounds i (some d)) := by
  intro k e hk
  rw [Array.getElem?_setIfInBounds] at hk
  split at hk
  · rename_i hik
    subst hik
    split at hk
    · cases hk
      exact hd
    · cases hk
  · exact hm k e hk

/-- Asking the dependents keeps the memo right and gives what the recursion says. -/
theorem demandOfDependents_spec {ask : Nat → Memo → Demand × Memo} {ds : List Nat}
    (hask : ∀ d ∈ ds, ∀ memo, p.MemoValid states memo →
      p.MemoValid states (ask d memo).2 ∧ (p.Layered → (ask d memo).1 = p.demandOf states d))
    (found : Demand) (hm : p.MemoValid states memo) :
    p.MemoValid states (demandOfDependents states ask ds found memo).2 ∧
      (p.Layered → (demandOfDependents states ask ds found memo).1 =
        (ds.filter fun d => !isSettled states d).foldl
          (fun d j => d.join (p.demandOf states j)) found) := by
  induction ds generalizing found memo with
  | nil => simp [demandOfDependents, hm]
  | cons d ds ih =>
    by_cases hw : found = .wanted
    · subst hw
      rw [demandOfDependents]
      · exact ⟨hm, fun _ => (Demand.foldl_join_wanted _ _).symm⟩
      · simp
    · have hask' := fun e he => hask e (List.mem_cons_of_mem d he)
      rw [demandOfDependents.eq_3 _ _ _ _ _ _ hw]
      cases hs : isSettled states d with
      | true =>
        rw [if_pos rfl, List.filter_cons_of_neg (by simp [hs])]
        exact ih hask' found hm
      | false =>
        obtain ⟨hv, hd⟩ := hask d (List.mem_cons_self ..) memo hm
        rw [if_neg (by simp), List.filter_cons_of_pos (by simp [hs]), List.foldl_cons]
        obtain ⟨hv', hd'⟩ := ih hask' (found.join (ask d memo).1) hv
        refine ⟨hv', fun hp => ?_⟩
        rw [← hd hp]
        exact hd' hp

/-- With steps for every rank, the memo keeps right and the answer is the demand. -/
theorem demandMemo_spec {fuel : Nat} (hm : p.MemoValid states memo)
    (hf : ∀ rank, p.RankedBy rank → rank i < fuel) :
    p.MemoValid states (p.demandMemo states fuel i memo).2 ∧
      (0 < fuel → p.Demands states i (p.demandMemo states fuel i memo).1) := by
  induction fuel generalizing i memo with
  | zero => exact ⟨by simpa [demandMemo] using hm, fun h => absurd h (Nat.lt_irrefl 0)⟩
  | succ fuel ih =>
    rw [demandMemo]
    split
    · rename_i d hd
      have hd : memo[i]? = some (some d) := by
        cases hi : memo[i]? with
        | none => simp [hi] at hd
        | some e => simpa [hi] using hd
      exact ⟨hm, fun _ => hm i d hd⟩
    · cases hn : p.nodes[i]? with
      | none =>
        have hd : p.Demands states i .unwanted := by
          refine ⟨fun n hn' => ?_, fun _ => ?_⟩
          · rw [hn] at hn'
            cases hn'
          · rw [demandOf, demand, hn]
        exact ⟨hm.set hd, fun _ => hd⟩
      | some n =>
        cases hreq : n.required with
        | true =>
          have hd : p.Demands states i .wanted :=
            ⟨fun _ _ _ => rfl, fun _ => (demandOf_required hn hreq).symm⟩
          simp only [hreq, if_true]
          exact ⟨hm.set hd, fun _ => hd⟩
        | false =>
          have hrank : ∀ d ∈ n.dependents, ∀ rank, p.RankedBy rank → rank d < fuel := by
            intro d hd rank hr
            have := hr.lt i n hn d hd
            have := hf rank hr
            omega
          have hask : ∀ d ∈ n.dependents, ∀ memo, p.MemoValid states memo →
              p.MemoValid states (p.demandMemo states fuel d memo).2 ∧
                (p.Layered → (p.demandMemo states fuel d memo).1 = p.demandOf states d) := by
            intro d hd memo hm
            obtain ⟨hv, ha⟩ := ih hm (hrank d hd)
            refine ⟨hv, fun hp => ?_⟩
            obtain ⟨rank, hr⟩ := hp
            have := hrank d hd rank hr
            exact (ha (by omega)).exact ⟨rank, hr⟩
          obtain ⟨hv, hd⟩ := demandOfDependents_spec hask (demandOfFinalized states n) hm
          have hd' : p.Demands states i (demandOfDependents states (p.demandMemo states fuel)
              n.dependents (demandOfFinalized states n) memo).1 := by
            refine ⟨fun m hm' hreq' => ?_, fun hp => ?_⟩
            · rw [hn] at hm'
              cases hm'
              simp [hreq] at hreq'
            · rw [hd hp, demandOf_eq hp hn, hreq]
              rfl
          simp only [hreq, Bool.false_eq_true, if_false]
          exact ⟨hv.set hd', fun _ => hd'⟩

/-- What the memo gives is right, and it stays right. -/
theorem demandMemo_demands (hm : p.MemoValid states memo) :
    p.MemoValid states (p.demandMemo states (p.size + 1) i memo).2 ∧
      p.Demands states i (p.demandMemo states (p.size + 1) i memo).1 := by
  have hf : ∀ rank, p.RankedBy rank → rank i < p.size + 1 :=
    fun rank hr => Nat.lt_succ_of_le (hr.le_size i)
  obtain ⟨hv, hd⟩ := demandMemo_spec hm hf
  exact ⟨hv, hd (Nat.succ_pos _)⟩

end Plan

end Foreman
