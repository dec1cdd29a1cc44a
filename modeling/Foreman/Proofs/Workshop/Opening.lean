import Foreman.Proofs.Workshop.Crew

/-!
# Opening a workshop

The runs of several builds are taken in one after the other, each with workers of its own
(`Workshop.Enrolled`). Before the first step nobody has a node, so that the books are in order as
soon as nobody outside holds a lease or a key (`Enrolled.orderly`).
-/

namespace Foreman

namespace Workshop

variable {plans : Plans} {staff : BuildId → Nat} {w w' : Workshop} {services : Services}
  {rs : List Run} {r : Run} {next : Worker} {j : Nat} {m : Member}

def crewFor (services : Services) (r : Run) : Nat :=
  if r.plan.size = 0 then 0 else services.workersFor r.plan.size

theorem crew_enroll (w : Workshop) (r : Run) (leader : Worker) :
    (w.enroll r leader leader).crew[j]? = some m ↔ w.crew[j]? = some m ∨
      ∃ k < crewFor w.services r, j = w.crew.size + k ∧
        m = ⟨leader + k, r.plan.build, .idle⟩ := by
  rw [crewFor]
  simp only [enroll, setRun]
  generalize (if r.plan.size = 0 then 0 else w.services.workersFor r.plan.size) = count
  have hlead : ∀ k, (if k = 0 then leader else leader + k) = leader + k := by
    intro k
    split
    · rename_i hk
      rw [hk, Nat.add_zero]
    · rfl
  rw [← Array.getElem?_toList, Array.toList_appendList, List.getElem?_append, Array.length_toList]
  simp only [hlead, List.map_map, List.getElem?_map]
  split
  · rename_i hj
    rw [Array.getElem?_toList]
    constructor
    · exact .inl
    · rintro (hm | ⟨k, _, hjk, _⟩)
      · exact hm
      · omega
  · rename_i hj
    rw [Array.getElem?_eq_none (Nat.le_of_not_lt hj)]
    constructor
    · intro hm
      obtain ⟨k, hk, rfl⟩ := Option.map_eq_some_iff.1 hm
      obtain ⟨hlt, hkj⟩ := List.getElem?_eq_some_iff.1 hk
      rw [List.length_range] at hlt
      rw [List.getElem_range] at hkj
      subst hkj
      exact .inr ⟨_, hlt, (Nat.add_sub_cancel' (Nat.le_of_not_lt hj)).symm, rfl⟩
    · rintro (hm | ⟨k, hk, hjk, rfl⟩)
      · cases hm
      · have hjk : j - w.crew.size = k := by omega
        rw [hjk, List.getElem?_range hk]
        rfl

/-- The runs are taken in, nobody has a node, and the workers from `next` on are free. -/
structure Enrolled (services : Services) (rs : List Run) (w : Workshop) (next : Worker) : Prop where
  services_eq : w.services = services
  runs : ∀ (b : BuildId) (r : Run), w.runs[b]? = some r ↔ r ∈ rs ∧ r.plan.build = b
  crew : ∀ (j : Nat) (m : Member), w.crew[j]? = some m →
    m.activity = .idle ∧ m.worker < next ∧ ∃ r ∈ rs, r.plan.build = m.build
  workers : ∀ (j k : Nat) (m m' : Member), w.crew[j]? = some m → w.crew[k]? = some m' →
    m.worker = m'.worker → j = k
  staffed : ∀ r ∈ rs, ∃ start, ∀ k < crewFor services r, ∃ m : Member,
    w.crew[start + k]? = some m ∧ m.build = r.plan.build

theorem new_enrolled (services : Services) (outside : Foreign) (next : Worker) :
    (new services outside).Enrolled services [] next where
  services_eq := rfl
  runs := by simp [new]
  crew := by simp [new]
  workers := by simp [new]
  staffed := by simp

theorem crewFor_le (services : Services) (r : Run) : crewFor services r ≤ r.plan.size := by
  rw [crewFor, Services.workersFor]
  split <;> omega

theorem Enrolled.enroll (h : w.Enrolled services rs next)
    (hnew : ∀ q ∈ rs, q.plan.build ≠ r.plan.build) :
    (w.enroll r next next).Enrolled services (rs ++ [r]) (next + r.plan.size + 1) := by
  have hservices := h.services_eq
  have hcount := crewFor_le services r
  constructor
  case services_eq => exact hservices
  case runs =>
    intro b q
    have hruns : (w.enroll r next next).runs[b]? =
        if b = r.plan.build then some r else w.runs[b]? :=
      runs_setRun r r.plan.build b
    rw [hruns, List.mem_append, List.mem_singleton]
    split
    · rename_i hb
      subst hb
      constructor
      · intro hq
        cases hq
        exact ⟨.inr rfl, rfl⟩
      · rintro ⟨hq | rfl, hb⟩
        · exact absurd hb (hnew q hq)
        · rfl
    · rename_i hb
      rw [h.runs]
      constructor
      · rintro ⟨hq, hqb⟩
        exact ⟨.inl hq, hqb⟩
      · rintro ⟨hq | rfl, hqb⟩
        · exact ⟨hq, hqb⟩
        · exact absurd hqb.symm hb
  case crew =>
    intro j m hm
    rcases (crew_enroll w r next).1 hm with hm | ⟨k, hk, _, rfl⟩
    · obtain ⟨hidle, hlt, q, hq, hb⟩ := h.crew j m hm
      have hle : next ≤ next + r.plan.size + 1 := Nat.le_add_right next (r.plan.size + 1)
      exact ⟨hidle, Nat.lt_of_lt_of_le hlt hle, q, List.mem_append_left _ hq, hb⟩
    · rw [hservices] at hk
      have hlt : next + k < next + (r.plan.size + 1) := Nat.add_lt_add_left (by omega) next
      exact ⟨rfl, hlt, r, by simp, rfl⟩
  case workers =>
    intro j k m m' hm hm' hw
    rcases (crew_enroll w r next).1 hm with hm | ⟨i, _, rfl, rfl⟩ <;>
      rcases (crew_enroll w r next).1 hm' with hm' | ⟨i', _, rfl, rfl⟩
    · exact h.workers j k m m' hm hm' hw
    · have hlt := (h.crew j m hm).2.1
      rw [hw] at hlt
      exact absurd hlt (Nat.not_lt.2 (Nat.le_add_right next i'))
    · have hlt := (h.crew k m' hm').2.1
      rw [← hw] at hlt
      exact absurd hlt (Nat.not_lt.2 (Nat.le_add_right next i))
    · rw [Nat.add_left_cancel (show next + i = next + i' from hw)]
  case staffed =>
    intro q hq
    rcases List.mem_append.1 hq with hq | hq
    · obtain ⟨start, hstart⟩ := h.staffed q hq
      refine ⟨start, fun k hk => ?_⟩
      obtain ⟨m, hm, hb⟩ := hstart k hk
      exact ⟨m, (crew_enroll w r next).2 (.inl hm), hb⟩
    · rw [List.mem_singleton] at hq
      subst hq
      refine ⟨w.crew.size, fun k hk => ?_⟩
      exact ⟨⟨next + k, q.plan.build, .idle⟩,
        (crew_enroll w q next).2 (.inr ⟨k, hservices ▸ hk, rfl, rfl⟩), rfl⟩

theorem Enrolled.enrollAll (h : w.Enrolled services [] next)
    (hrs : (rs.map (·.plan.build)).Nodup) :
    ∃ last, (w.enrollAll rs next).Enrolled services rs last := by
  have hfold : ∀ (l done : List Run) (w : Workshop) (k : Nat), w.Enrolled services done (next + k) →
      ((done ++ l).map (·.plan.build)).Nodup →
      ∃ last, (l.foldl (fun (w, k) r => (w.enroll r (next + k) (next + k), k + 1 + r.plan.size))
        (w, k)).1.Enrolled services (done ++ l) last := by
    intro l
    induction l with
    | nil =>
      intro done w k hw _
      rw [List.append_nil]
      exact ⟨next + k, hw⟩
    | cons r l ih =>
      intro done w k hw hnodup
      have hnew : ∀ q ∈ done, q.plan.build ≠ r.plan.build := by
        rw [List.map_append, List.nodup_append] at hnodup
        intro q hq
        exact hnodup.2.2 _ (List.mem_map_of_mem hq) _ (List.mem_map_of_mem (List.mem_cons_self ..))
      have hstep := hw.enroll hnew
      have hlast : next + k + r.plan.size + 1 = next + (k + 1 + r.plan.size) := by
        rw [Nat.add_assoc, Nat.add_assoc, Nat.add_right_comm k]
        rfl
      rw [hlast] at hstep
      rw [List.append_cons] at hnodup ⊢
      exact ih (done ++ [r]) _ _ hstep hnodup
  exact hfold rs [] w 0 h hrs

/-- The books are in order before the first step. -/
theorem Enrolled.orderly (h : w.Enrolled services rs next)
    (hplan : ∀ b p, plans b = some p ↔ ∃ r ∈ rs, r.plan = p ∧ p.build = b)
    (hstart : ∀ r ∈ rs, r.progress = .start r.plan)
    (hanswers : ∀ b p d path, plans b = some p → p.Asks d path →
      ∃ r ∈ rs, r.plan.build = d ∧ r.Answers path)
    (hstaff : ∀ r ∈ rs, 0 < r.plan.size → staff r.plan.build ≤ services.workersFor r.plan.size)
    (hleases : services.table.Unleased) (hkeys : services.table.Unlocked) :
    w.Orderly plans staff := by
  have hrunning : ∀ (b : BuildId) (r : Run) (i : Nat), w.runs[b]? = some r →
      r.progress.state? i ≠ some .running := by
    intro b r i hr hi
    exact Run.not_running_of_start (hstart r ((h.runs b r).1 hr).1) i hi
  constructor
  case plan =>
    intro b
    ext p
    rw [hplan, Option.map_eq_some_iff]
    constructor
    · rintro ⟨r, hr, rfl⟩
      obtain ⟨hmem, hb⟩ := (h.runs b r).1 hr
      exact ⟨r, hmem, rfl, hb⟩
    · rintro ⟨r, hmem, rfl, hb⟩
      exact ⟨r, (h.runs b r).2 ⟨hmem, hb⟩, rfl⟩
  case consistent =>
    exact fun b r hr => Run.consistent_of_start (hstart r ((h.runs b r).1 hr).1)
  case answers =>
    intro b p d path hp hasks
    obtain ⟨r, hmem, hb, hans⟩ := hanswers b p d path hp hasks
    exact ⟨r, (h.runs d r).2 ⟨hmem, hb⟩, hans⟩
  case fits =>
    intro j m hm
    obtain ⟨hidle, _, r, hmem, hb⟩ := h.crew j m hm
    rw [hidle]
    exact ⟨r, (h.runs m.build r).2 ⟨hmem, hb⟩, .idle⟩
  case apart =>
    intro j k m m' i hm _ _ hi
    simp [(h.crew j m hm).1, Activity.index?] at hi
  case tended =>
    intro b r i hr hi
    exact absurd hi (hrunning b r i hr)
  case workers => exact h.workers
  case staffed =>
    intro b p hp hsize
    obtain ⟨r, hmem, rfl, rfl⟩ := (hplan b p).1 hp
    obtain ⟨start, hmembers⟩ := h.staffed r hmem
    refine ⟨start, fun k hk => hmembers k ?_⟩
    rw [crewFor, if_neg (Nat.ne_of_gt hsize)]
    exact Nat.lt_of_lt_of_le hk (hstaff r hmem hsize)
  case leases =>
    intro v count hv
    rw [h.services_eq, hleases v] at hv
    cases hv
  case owners =>
    intro key v hv
    rw [h.services_eq, hkeys key] at hv
    cases hv

end Workshop

end Foreman
