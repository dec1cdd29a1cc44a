import Foreman.Proofs.Workshop.Jam
import Mathlib.Data.Set.Finite.Lattice
import Mathlib.Order.Interval.Set.Nat

/-!
# Plans that never jam

A jam is made of builds that refer to each other in a circle. Such builds do not jam if each has
more workers than nodes that wait for a build of the circle (`Plans.Roomy`), and if among them no
wait hinges on itself (`Plans.Decisive`): see `not_jammed`. Where builds do not refer to each other
in a circle both conditions hold.
-/

namespace Foreman

open Relation

/-! ## Who waits for whom -/

namespace Plans

variable {plans : Plans} {b d : BuildId}

/-- A node of the one build waits for a task of the other, or comes after one. -/
def Refers (plans : Plans) (b d : BuildId) : Prop :=
  ∃ p path, plans b = some p ∧ p.Asks d path

/-- The build refers to itself by way of others. -/
def Entangled (plans : Plans) (b : BuildId) : Prop := TransGen plans.Refers b b

/-- The nodes of a build that wait for a build that refers back to it. -/
def returning (plans : Plans) (b : BuildId) (p : Plan) : Set Nat :=
  {i | ∃ n d path, p.nodes[i]? = some n ∧ n.work = .foreign d path ∧ ReflTransGen plans.Refers d b}

theorem finite_returning (plans : Plans) (b : BuildId) (p : Plan) :
    (plans.returning b p).Finite := by
  refine (Set.finite_lt_nat p.size).subset ?_
  rintro i ⟨n, _, _, hn, _⟩
  exact (Array.getElem?_eq_some_iff.1 hn).1

/-- Every build has more workers than nodes that wait for a build that refers back. -/
def Roomy (plans : Plans) (staff : BuildId → Nat) : Prop :=
  ∀ b p, plans b = some p → (plans.returning b p).ncard < staff b

abbrev TreeNode := BuildId × Nat × Demand

/-- What the wait of a node can hinge on. As within one build (`Plan.Hinges`), but any node that
comes first in order counts, also while it is open whether it is needed; and a node that waits for
another build hinges on the node there. -/
inductive Hinges (plans : Plans) : TreeNode → TreeNode → Prop
  | dependency {b : BuildId} {p : Plan} {i k : Nat} {n : PlannedNode} (hp : plans b = some p)
      (hn : p.nodes[i]? = some n) (hk : k ∈ n.dependencies) :
      Hinges plans (b, i, .wanted) (b, k, .wanted)
  | finalized {b : BuildId} {p : Plan} {i k : Nat} {n : PlannedNode} {demand : Demand}
      (hp : plans b = some p) (hn : p.nodes[i]? = some n) (hk : k ∈ n.finalizes) :
      Hinges plans (b, i, .wanted) (b, k, demand)
  | runAfter {b : BuildId} {p : Plan} {i k : Nat} {n : PlannedNode} {demand : Demand}
      (hp : plans b = some p) (hn : p.nodes[i]? = some n) (hk : k ∈ n.runAfter) :
      Hinges plans (b, i, .wanted) (b, k, demand)
  | openFinalized {b : BuildId} {p : Plan} {i k : Nat} {n : PlannedNode} {demand : Demand}
      (hp : plans b = some p) (hn : p.nodes[i]? = some n) (hreq : n.required = false)
      (hk : k ∈ n.finalizes) : Hinges plans (b, i, .pending) (b, k, demand)
  | openDependent {b : BuildId} {p : Plan} {i k : Nat} {n : PlannedNode}
      (hp : plans b = some p) (hn : p.nodes[i]? = some n) (hreq : n.required = false)
      (hk : k ∈ n.dependents) : Hinges plans (b, i, .pending) (b, k, .pending)
  | foreign {b d : BuildId} {p q : Plan} {i k : Nat} {n m : PlannedNode} {path : TaskPath}
      {demand demand' : Demand} (hp : plans b = some p) (hn : p.nodes[i]? = some n)
      (hw : n.work = .foreign d path) (hq : plans d = some q) (hm : q.nodes[k]? = some m)
      (hpath : m.exportPath? = some path) : Hinges plans (b, i, demand) (d, k, demand')
  | afterExport {b d : BuildId} {p q : Plan} {i k : Nat} {n m : PlannedNode} {path : TaskPath}
      {demand : Demand} (hp : plans b = some p) (hn : p.nodes[i]? = some n)
      (he : (d, path) ∈ n.afterExports) (hq : plans d = some q) (hm : q.nodes[k]? = some m)
      (hpath : m.exportPath? = some path) : Hinges plans (b, i, .wanted) (d, k, demand)

/-- Among builds that refer to each other in a circle no wait hinges on itself. -/
def Decisive (plans : Plans) : Prop :=
  Acyclic fun x y => plans.Entangled x.1 ∧ plans.Hinges x y

/-- In builds that refer to each other in a circle every node is required. -/
def Certain (plans : Plans) : Prop :=
  ∀ b p (i : Nat) (n : PlannedNode), plans b = some p → plans.Entangled b →
    p.nodes[i]? = some n → n.required = true

/-! ## Plans that leave room, or do not hinge on themselves -/

theorem roomy_of_acyclic {staff : BuildId → Nat} (h : Acyclic plans.Refers)
    (hstaff : ∀ b, 0 < staff b) : plans.Roomy staff := by
  intro b p hp
  have hempty : plans.returning b p = ∅ := by
    rw [Set.eq_empty_iff_forall_notMem]
    rintro i ⟨n, d, path, hn, hw, hback⟩
    exact h b (.head' ⟨p, path, hp, i, n, hn, .inl hw⟩ hback)
  rw [hempty, Set.ncard_empty]
  exact hstaff b

theorem ncard_returning_le (plans : Plans) (b : BuildId) (p : Plan) :
    (plans.returning b p).ncard ≤
      ((List.range p.size).filter fun i => (p.nodes[i]?).any (·.work.isForeign)).length := by
  let others := (List.range p.size).filter fun i => (p.nodes[i]?).any (·.work.isForeign)
  have hsub : plans.returning b p ⊆ others.toFinset := by
    rintro i ⟨n, d, path, hn, hw, _⟩
    have hlt : i < p.size := (Array.getElem?_eq_some_iff.1 hn).1
    simp [others, hlt, hn, hw, Work.isForeign]
  calc (plans.returning b p).ncard
      ≤ (others.toFinset : Set Nat).ncard := Set.ncard_le_ncard hsub (Finset.finite_toSet _)
    _ = others.toFinset.card := Set.ncard_coe_finset _
    _ ≤ others.length := List.toFinset_card_le others

theorem decisive_of_acyclic (h : Acyclic plans.Refers) : plans.Decisive := by
  intro x hx
  obtain ⟨_, ⟨hcircle, _⟩, _⟩ := TransGen.head'_iff.1 hx
  exact h x.1 hcircle

end Plans

namespace Workshop

variable {plans : Plans} {staff : BuildId → Nat} {w : Workshop} {j : Nat} {m : Member} {r : Run}
  {b d : BuildId}

/-! ## Builds in a jam -/

/-- Something is left to do in the build. -/
def Left (w : Workshop) (b : BuildId) : Prop :=
  ∃ (r : Run) (i : Nat), w.runs[b]? = some r ∧ r.progress.IsOpen i

/-- A reference from one build where something is left to another. -/
def Hangs (plans : Plans) (w : Workshop) (b d : BuildId) : Prop :=
  w.Left b ∧ w.Left d ∧ plans.Refers b d

theorem finite_left (w : Workshop) : {b | w.Left b}.Finite := by
  refine (List.finite_toSet w.runs.keys).subset fun b hb => ?_
  obtain ⟨r, _, hr, _⟩ := hb
  show b ∈ w.runs.keys
  rw [Std.TreeMap.mem_keys, Std.TreeMap.mem_iff_isSome_getElem?, hr]
  rfl

/-- What a build asks for and has no outcome yet stands for a node that is not over. -/
theorem exists_open_of_asks (ho : w.Orderly plans staff) {p : Plan} {path : TaskPath}
    (hp : plans b = some p) (hasks : p.Asks d path) (hnone : w.foreign d path = none) :
    ∃ (q : Run) (k : Nat) (n : PlannedNode), w.runs[d]? = some q ∧ q.plan.nodes[k]? = some n ∧
      n.exportPath? = some path ∧ q.progress.IsOpen k := by
  obtain ⟨q, hq, _, hans⟩ := ho.answers b p d path hp hasks
  have hout : q.exports.outcome? path = none := by
    rw [foreign, hq] at hnone
    exact hnone
  obtain ⟨k, n, hn, hpath, hopen⟩ := hans hout
  exact ⟨q, k, n, hq, hn, hpath, hopen⟩

/-- A member that waits holds a node for a task of another build. -/
theorem exists_foreign_of_awaits (ho : w.Orderly plans staff) (hm : w.crew[j]? = some m)
    (hr : w.runs[m.build]? = some r) (ha : w.Awaits m) :
    ∃ i n d path, m.activity.index? = some i ∧ r.plan.nodes[i]? = some n ∧
      n.work = .foreign d path ∧ w.foreign d path = none := by
  obtain ⟨i, keys, d, path, holds, hact, hnone⟩ := ha
  obtain ⟨r', hr', hfits⟩ := ho.fits j m hm
  rw [hr, Option.some.injEq] at hr'
  subst hr'
  rw [hact] at hfits ⊢
  cases hfits with
  | awaiting _ hn hw => exact ⟨i, _, d, path, rfl, hn, hw, hnone⟩

/-- In a jam a node that is running is one for a task of another build. -/
theorem exists_foreign_of_running (ho : w.Orderly plans staff) (h : w.Jammed)
    (hr : w.runs[b]? = some r) {i : Nat} (hi : r.progress.state? i = some .running) :
    ∃ n d path, r.plan.nodes[i]? = some n ∧ n.work = .foreign d path ∧
      w.foreign d path = none := by
  obtain ⟨j, m, hm, rfl, hindex⟩ := ho.tended b r i hr hi
  rcases h j m r hm hr with hoff | ha | ⟨hidle, _⟩
  · simp [hoff, Activity.index?] at hindex
  · obtain ⟨i', n, d, path, hindex', hn, hw, hnone⟩ := exists_foreign_of_awaits ho hm hr ha
    rw [hindex, Option.some.injEq] at hindex'
    subst hindex'
    exact ⟨n, d, path, hn, hw, hnone⟩
  · simp [hidle, Activity.index?] at hindex

/-- In a jam a member of a build where something is left is not done. -/
theorem awaits_or_heldUp (ho : w.Orderly plans staff) (h : w.Jammed) (hm : w.crew[j]? = some m)
    (hr : w.runs[m.build]? = some r) {i : Nat} (hopen : r.progress.IsOpen i) :
    w.Awaits m ∨ m.activity = .idle ∧ r.HeldUp w.services.stopRequested w.foreign := by
  rcases h j m r hm hr with hoff | ha
  · obtain ⟨r', hr', hfits⟩ := ho.fits j m hm
    rw [hr, Option.some.injEq] at hr'
    subst hr'
    rw [hoff] at hfits
    obtain ⟨st, hst, hterm⟩ := hopen
    cases hfits with
    | off hover =>
      rw [hover i st hst] at hterm
      cases hterm
  · exact ha

theorem left_of_asks (ho : w.Orderly plans staff) {p : Plan} {path : TaskPath}
    (hp : plans b = some p) (hasks : p.Asks d path) (hnone : w.foreign d path = none) :
    w.Left d := by
  obtain ⟨q, k, _, hq, _, _, hopen⟩ := exists_open_of_asks ho hp hasks hnone
  exact ⟨q, k, hq, hopen⟩

/-- In a jam every build where something is left refers to another such build. -/
theorem exists_hangs (ho : w.Orderly plans staff) (h : w.Jammed) (hroomy : plans.Roomy staff)
    (hb : w.Left b) : ∃ d, w.Hangs plans b d := by
  obtain ⟨r, i, hr, hopen⟩ := hb
  have hplan := ho.plan_eq hr
  have hfound : ∀ d path, r.plan.Asks d path → w.foreign d path = none → ∃ d, w.Hangs plans b d :=
    fun d path hasks hnone =>
      ⟨d, ⟨r, i, hr, hopen⟩, left_of_asks ho hplan hasks hnone, r.plan, path, hplan, hasks⟩
  have hsize : 0 < r.plan.size := by
    obtain ⟨st, hst, _⟩ := hopen
    exact Nat.lt_of_le_of_lt (Nat.zero_le i) ((ho.consistent b r hr).lt_size hst)
  obtain ⟨start, hmembers⟩ := ho.staffed b r.plan hplan hsize
  have hstaff : 0 < staff b := Nat.lt_of_le_of_lt (Nat.zero_le _) (hroomy b r.plan hplan)
  obtain ⟨m, hm, rfl⟩ := hmembers 0 hstaff
  rcases awaits_or_heldUp ho h hm hr hopen with ha | ⟨_, hheld⟩
  · obtain ⟨k, n, d, path, _, hn, hw, hnone⟩ := exists_foreign_of_awaits ho hm hr ha
    exact hfound d path ⟨k, n, hn, .inl hw⟩ hnone
  · rcases hheld.busy with ⟨k, hk⟩ | ⟨k, n, _, hn, ⟨d, path⟩, he, hnone⟩
    · obtain ⟨n, d, path, hn, hw, hnone⟩ := exists_foreign_of_running ho h hr hk
      exact hfound d path ⟨k, n, hn, .inl hw⟩ hnone
    · exact hfound d path ⟨k, n, hn, .inr he⟩ hnone

/-! ## Knots -/

theorem Hangs.refers (h : ReflTransGen (w.Hangs plans) b d) : ReflTransGen plans.Refers b d :=
  h.lift id fun _ _ h => h.2.2

/-- Every build that this one hangs on, be it through others, hangs on it in turn. -/
def Knotted (plans : Plans) (w : Workshop) (b : BuildId) : Prop :=
  w.Left b ∧ ∀ d, ReflTransGen (w.Hangs plans) b d → ReflTransGen (w.Hangs plans) d b

theorem exists_knotted (hb : w.Left b) : ∃ c, w.Knotted plans c := by
  obtain ⟨c, hc, hback⟩ := exists_recurrent (R := w.Hangs plans) w.finite_left hb
  refine ⟨c, hc, fun d hd => ?_⟩
  rcases hd.cases_tail with rfl | ⟨e, _, hed⟩
  · exact .refl
  · exact hback d hed.2.1 hd

theorem Knotted.hangs (h : w.Knotted plans b) (hd : w.Hangs plans b d) : w.Knotted plans d :=
  ⟨hd.2.1, fun e he => (h.2 e (.head hd he)).tail hd⟩

theorem Knotted.refers_back (h : w.Knotted plans b) (hd : w.Hangs plans b d) :
    ReflTransGen plans.Refers d b :=
  Hangs.refers (h.2 d (.single hd))

theorem Knotted.entangled (h : w.Knotted plans b) (ho : w.Orderly plans staff) (hj : w.Jammed)
    (hroomy : plans.Roomy staff) : plans.Entangled b := by
  obtain ⟨d, hd⟩ := exists_hangs ho hj hroomy h.1
  exact .head' hd.2.2 (h.refers_back hd)

theorem Knotted.hangs_of_asks (h : w.Knotted plans b) (ho : w.Orderly plans staff)
    (hr : w.runs[b]? = some r) {path : TaskPath} (hasks : r.plan.Asks d path)
    (hnone : w.foreign d path = none) : w.Hangs plans b d :=
  ⟨h.1, left_of_asks ho (ho.plan_eq hr) hasks hnone, r.plan, path, ho.plan_eq hr, hasks⟩

/-- A build of a knot with more workers than nodes that wait for a build of the knot has a worker
that could start a node, and finds none. -/
theorem Knotted.heldUp (h : w.Knotted plans b) (ho : w.Orderly plans staff) (hj : w.Jammed)
    (hroomy : plans.Roomy staff) (hr : w.runs[b]? = some r) :
    r.HeldUp w.services.stopRequested w.foreign := by
  obtain ⟨r', i, hr', hopen⟩ := h.1
  rw [hr, Option.some.injEq] at hr'
  subst hr'
  have hplan := ho.plan_eq hr
  have hc := ho.consistent b r hr
  have hsize : 0 < r.plan.size := by
    obtain ⟨st, hst, _⟩ := hopen
    exact Nat.lt_of_le_of_lt (Nat.zero_le i) (hc.lt_size hst)
  obtain ⟨start, hmembers⟩ := ho.staffed b r.plan hplan hsize
  by_contra hnot
  -- then all of them wait, each for a node of its own
  have hindex : ∀ k, k < staff b → ∃ i ∈ plans.returning b r.plan, ∃ m : Member,
      w.crew[start + k]? = some m ∧ m.build = b ∧ m.activity.index? = some i := by
    intro k hk
    obtain ⟨m, hm, rfl⟩ := hmembers k hk
    rcases awaits_or_heldUp ho hj hm hr hopen with ha | ⟨_, hheld⟩
    · obtain ⟨i, n, d, path, hi, hn, hw, hnone⟩ := exists_foreign_of_awaits ho hm hr ha
      have hd := h.hangs_of_asks ho hr ⟨i, n, hn, .inl hw⟩ hnone
      exact ⟨i, ⟨n, d, path, hn, hw, h.refers_back hd⟩, m, hm, rfl, hi⟩
    · exact absurd hheld hnot
  choose! index hindex using hindex
  have hinj : Set.InjOn index (Set.Iio (staff b)) := by
    intro k hk l hl hkl
    obtain ⟨_, m, hm, hb, hi⟩ := hindex k hk
    obtain ⟨_, m', hm', hb', hi'⟩ := hindex l hl
    have := ho.apart _ _ m m' _ hm hm' (hb.trans hb'.symm) hi (hkl ▸ hi')
    omega
  have hcard : (Set.Iio (staff b)).ncard ≤ (plans.returning b r.plan).ncard :=
    Set.ncard_le_ncard_of_injOn index (fun k hk => (hindex k hk).1) hinj
      (plans.finite_returning b r.plan)
  rw [Set.ncard_Iio_nat] at hcard
  exact absurd (hroomy b r.plan hplan) (Nat.not_lt.2 hcard)

/-- In a knot every wait hinges on another one. -/
theorem Knotted.exists_hinges (h : w.Knotted plans b) (hp : plans.Sound)
    (ho : w.Orderly plans staff) (hj : w.Jammed) (hroomy : plans.Roomy staff)
    (hr : w.runs[b]? = some r) {i : Nat} (hopen : r.progress.IsOpen i) :
    ∃ (d : BuildId) (q : Run) (k : Nat), w.Knotted plans d ∧ w.runs[d]? = some q ∧
      q.progress.IsOpen k ∧ plans.Hinges (b, i, r.plan.demandOf r.progress.states i)
        (d, k, q.plan.demandOf q.progress.states k) := by
  have hplan := ho.plan_eq hr
  have hc := ho.consistent b r hr
  have hheld := h.heldUp ho hj hroomy hr
  obtain ⟨st, hst, hterm⟩ := hopen
  have hknown := hc.known i st hst
  cases st with
  | running =>
    obtain ⟨n, d, path, hn, hw, hnone⟩ := exists_foreign_of_running ho hj hr hst
    have hasks : r.plan.Asks d path := ⟨i, n, hn, .inl hw⟩
    obtain ⟨q, k, m, hq, hm, hpath, hk⟩ := exists_open_of_asks ho hplan hasks hnone
    exact ⟨d, q, k, h.hangs (h.hangs_of_asks ho hr hasks hnone), hq, hk,
      .foreign hplan hn hw (ho.plan_eq hq) hm hpath⟩
  | scheduled =>
    obtain ⟨n, hn⟩ := hc.exists_node hst
    rcases (hheld.held i n hst hn).exists_open hc (hp.sound b _ hplan) hn hst with
      ⟨hpend, hreq, ⟨f, hf, hopen⟩ | ⟨k, hk, hopen, hkp⟩⟩ |
      ⟨hwant, ⟨k, hk, hopen, hkw⟩ | ⟨f, hf, hopen⟩ | ⟨q, hq, hopen, _⟩ | ⟨⟨d, path⟩, he, hnot⟩⟩
    · refine ⟨b, r, f, h, hr, hopen, ?_⟩
      rw [hpend]
      exact .openFinalized hplan hn hreq hf
    · refine ⟨b, r, k, h, hr, hopen, ?_⟩
      rw [hpend, hkp]
      exact .openDependent hplan hn hreq hk
    · refine ⟨b, r, k, h, hr, hopen, ?_⟩
      rw [hwant, hkw]
      exact .dependency hplan hn hk
    · refine ⟨b, r, f, h, hr, hopen, ?_⟩
      rw [hwant]
      exact .finalized hplan hn hf
    · refine ⟨b, r, q, h, hr, hopen, ?_⟩
      rw [hwant]
      exact .runAfter hplan hn hq
    · have hasks : r.plan.Asks d path := ⟨i, n, hn, .inr he⟩
      have hnone : w.foreign d path = none := by
        rw [Run.isPublished, Option.isSome_eq_false_iff, Option.isNone_iff_eq_none] at hnot
        exact hnot
      obtain ⟨q, k, m, hq, hm, hpath, hk⟩ := exists_open_of_asks ho hplan hasks hnone
      refine ⟨d, q, k, h.hangs (h.hangs_of_asks ho hr hasks hnone), hq, hk, ?_⟩
      rw [hwant]
      exact .afterExport hplan hn he (ho.plan_eq hq) hm hpath
  | ready => exact absurd hst (hheld.ready i)
  | notScheduled => exact absurd rfl hknown.1
  | queued => exact absurd rfl hknown.2
  | _ => cases hterm

/-- A node of a knot that is not over, and the demand for it. -/
inductive InKnot (plans : Plans) (w : Workshop) : Plans.TreeNode → Prop
  | mk {b : BuildId} {r : Run} {i : Nat} (h : w.Knotted plans b) (hr : w.runs[b]? = some r)
      (hopen : r.progress.IsOpen i) : InKnot plans w (b, i, r.plan.demandOf r.progress.states i)

theorem finite_inKnot (ho : w.Orderly plans staff) : {x | w.InKnot plans x}.Finite := by
  let size : BuildId → Nat := fun b => (plans b).elim 0 (·.size)
  let demands : Set Demand := {.wanted, .pending, .unwanted}
  have hdemands : demands.Finite := Set.toFinite _
  refine (w.finite_left.biUnion fun b _ =>
    ((Set.finite_singleton b).prod ((Set.finite_lt_nat (size b)).prod hdemands))).subset ?_
  rintro x ⟨hknot, hr, st, hst, _⟩
  rw [Set.mem_iUnion₂]
  refine ⟨_, hknot.1, rfl, ?_, ?_⟩
  · have hlt := (ho.consistent _ _ hr).lt_size hst
    simpa [size, ho.plan_eq hr] using hlt
  · generalize Plan.demandOf _ _ _ = demand
    cases demand <;> simp [demands]

/-- While something is left no workshop is jammed whose plans leave room and hinge on nothing in a
circle. -/
theorem not_jammed (hp : plans.Sound) (ho : w.Orderly plans staff) (hroomy : plans.Roomy staff)
    (hdecisive : plans.Decisive) (hb : w.Left b) : ¬ w.Jammed := by
  intro hj
  obtain ⟨c, hc⟩ : ∃ c, w.Knotted plans c := exists_knotted hb
  obtain ⟨r, i, hr, hopen⟩ := hc.1
  obtain ⟨_, ⟨hknot, hr, hopen⟩, hlast⟩ := hdecisive.exists_last (finite_inKnot ho) ⟨hc, hr, hopen⟩
  obtain ⟨d, q, k, hd, hq, hk, hhinges⟩ := hknot.exists_hinges hp ho hj hroomy hr hopen
  exact hlast _ ⟨hd, hq, hk⟩ ⟨hknot.entangled ho hj hroomy, hhinges⟩

end Workshop

end Foreman
