import Foreman.Proofs.Workshop.ToDo

/-!
# How executions end

Whoever steps when, as long as no member goes for ever without a step that would change
something (`Fair`), the workshop gets to where nobody can take one (`Fair.jams`); stepping in turn
gets there as well (`jammed_execute`). No node starts twice (`Crewed.starts`). Where no run has to
do with other builds, a worker that asks while nothing is running need not wait
(`Orderly.answered`), and the end is that everybody is done and every node is over
(`Jammed.isOver`, `Jammed.isDone`).
-/

namespace Foreman

namespace Workshop

variable {plans : Plans} {staff : BuildId → Nat} {w w' : Workshop} {σ : Nat → Nat} {j k : Nat}
  {m : Member} {r : Run} {b : BuildId} {x : BuildId × Nat} {js : List Nat}

/-! ## Steps that change nothing -/

theorem Enabled.congr (h : w.Enabled j) (ha : Alike w w') : w'.Enabled j := by
  rcases h with ⟨m, r, hm, hr, hadvances⟩ | ⟨m, r, hm, hr, hact, hmoves⟩
  · refine .inl ⟨m, r, ha.crew ▸ hm, (ha.runs _).trans hr, ?_⟩
    generalize m.activity = activity at hadvances ⊢
    cases hadvances with
    | select h => exact .select (by rwa [ha.services, ha.foreign])
    | finish => exact .finish
    | visit hn ht h => exact .visit hn ht (by rwa [ha.services])
    | call => exact .call
    | answer h => exact .answer (by rwa [ha.foreign])
    | resume h => exact .resume (by rwa [ha.services])
  · refine .inr ⟨m, r, ha.crew ▸ hm, (ha.runs _).trans hr, hact, ?_⟩
    rwa [ha.services, ha.foreign]

theorem Enabled.lt_size (h : w.Enabled j) : j < w.crew.size := by
  rcases h with ⟨m, _, hm, _⟩ | ⟨m, _, hm, _⟩ <;> exact (Array.getElem?_eq_some_iff.1 hm).1

theorem Alike.toDo (ha : Alike w w') : w'.toDo = w.toDo := by
  have he : w'.runs.Equiv w.runs := Std.TreeMap.Equiv.of_forall_constGet?_eq ha.runs
  rw [Workshop.toDo, Workshop.toDo, ha.services, ha.crew, he.values_eq]

theorem Done.size_crew {r' : Run} {activity : Activity} {table : LockTable}
    (hd : w.Done j m r' activity table w') (hm : w.crew[j]? = some m) :
    w'.crew.size = w.crew.size := by
  have hsize : ∀ k, w'.crew.size ≤ k ↔ w.crew.size ≤ k := by
    intro k
    rw [← Array.getElem?_eq_none_iff, ← Array.getElem?_eq_none_iff, hd.crew]
    split
    · rename_i hk
      simp [hk, hm]
    · rfl
  exact Nat.le_antisymm ((hsize _).2 (Nat.le_refl _)) ((hsize _).1 (Nat.le_refl _))

/-- The crew stays as large as it is. -/
theorem Crewed.size_crew_step (h : w.Crewed) (j : Nat) : (w.step j).crew.size = w.crew.size := by
  rcases h.step_cases j with hstay | ⟨m, r, r', activity, table, hm, _, _, _, hdone⟩
  · rw [hstay]
  · exact hdone.size_crew hm

theorem Crewed.toDo_step_le (h : w.Crewed) (j : Nat) : (w.step j).toDo ≤ w.toDo := by
  rcases h.step_lowers j with hlt | ha
  · exact Nat.le_of_lt hlt
  · exact Nat.le_of_eq ha.toDo

theorem Crewed.steps (h : w.Crewed) (js : List Nat) : (js.foldl Workshop.step w).Crewed := by
  induction js generalizing w with
  | nil => exact h
  | cons j js ih => exact ih (h.step j)

/-! ## Schedules -/

def after (w : Workshop) (σ : Nat → Nat) : Nat → Workshop
  | 0 => w
  | n + 1 => (w.after σ n).step (σ n)

/-- No member that could take a step that changes something is passed over for ever. -/
def Fair (w : Workshop) (σ : Nat → Nat) : Prop :=
  ∀ j k, ∃ n, k ≤ n ∧ (σ n = j ∨ ¬ (w.after σ n).Enabled j)

theorem after_eq_foldl (w : Workshop) (σ : Nat → Nat) (n : Nat) :
    w.after σ n = ((List.range n).map σ).foldl step w := by
  induction n with
  | zero => rfl
  | succ n ih => rw [after, ih, List.range_succ, List.map_append, List.foldl_append]; rfl

theorem Crewed.after (h : w.Crewed) (σ : Nat → Nat) (n : Nat) : (w.after σ n).Crewed := by
  rw [after_eq_foldl]
  exact h.steps _

theorem Orderly.after (hp : plans.Sound) (h : w.Orderly plans staff) (σ : Nat → Nat) (n : Nat) :
    (w.after σ n).Orderly plans staff := by
  rw [after_eq_foldl]
  exact h.steps hp _

theorem Crewed.size_crew_after (h : w.Crewed) (σ : Nat → Nat) (n : Nat) :
    (w.after σ n).crew.size = w.crew.size := by
  induction n with
  | zero => rfl
  | succ n ih => rw [Workshop.after, (h.after σ n).size_crew_step, ih]

/-- A schedule in which each member gets its turn again and again is fair. -/
theorem Crewed.fair (hc : w.Crewed) (h : ∀ j < w.crew.size, ∀ k, ∃ n, k ≤ n ∧ σ n = j) :
    w.Fair σ := by
  intro j k
  by_cases hj : j < w.crew.size
  · obtain ⟨n, hk, hn⟩ := h j hj k
    exact ⟨n, hk, .inl hn⟩
  · refine ⟨k, Nat.le_refl k, .inr fun he => hj ?_⟩
    rw [← hc.size_crew_after σ k]
    exact he.lt_size

/-- As long as somebody could take a step that changes something, less is left to do some time. -/
theorem Crewed.exists_lower (h : w.Crewed) (hfair : w.Fair σ) (he : (w.after σ k).Enabled j) :
    ∃ n, k ≤ n ∧ (w.after σ n).toDo < (w.after σ k).toDo := by
  by_contra hnot
  push Not at hnot
  -- otherwise nothing changes from then on, so that the member can still take its step
  have hstill : ∀ d, Alike (w.after σ k) (w.after σ (k + d)) := by
    intro d
    induction d with
    | zero => exact .refl _
    | succ d ih =>
      rcases (h.after σ (k + d)).step_lowers (σ (k + d)) with hlt | ha
      · have := hnot (k + (d + 1)) (by omega)
        rw [ih.toDo] at hlt
        exact absurd hlt (Nat.not_lt.2 this)
      · exact ih.trans ha
  obtain ⟨n, hk, hn⟩ := hfair j k
  obtain ⟨d, rfl⟩ := Nat.exists_eq_add_of_le hk
  have hen := he.congr (hstill d)
  rcases hn with hn | hn
  · have hlt := (h.after σ (k + d)).lowers_of_enabled hen
    rw [(hstill d).toDo, ← hn] at hlt
    exact absurd hlt (Nat.not_lt.2 (hnot (k + d + 1) (by omega)))
  · exact hn hen

/-- Under a fair schedule a workshop gets to where nobody can take a step, and stays there. -/
theorem Fair.jams (hfair : w.Fair σ) (hp : plans.Sound) (ho : w.Orderly plans staff)
    (hc : w.Crewed) : ∃ n, ∀ k, n ≤ k → (w.after σ k).Jammed := by
  have hreach : ∀ (left k : Nat), (w.after σ k).toDo = left → ∃ n, (w.after σ n).Jammed := by
    intro left
    induction left using Nat.strongRecOn with
    | _ left ih =>
      intro k hk
      by_cases he : ∃ j, (w.after σ k).Enabled j
      · obtain ⟨j, he⟩ := he
        obtain ⟨n, _, hlt⟩ := hc.exists_lower hfair he
        exact ih _ (hk ▸ hlt) n rfl
      · exact ⟨k, jammed_of_not_enabled hp (ho.after hp σ k) (not_exists.1 he)⟩
  obtain ⟨n, hn⟩ := hreach _ 0 rfl
  refine ⟨n, fun k hk => ?_⟩
  induction k, hk using Nat.le_induction with
  | base => exact hn
  | succ k _ ih => exact ih.congr (ih.step hp (ho.after hp σ k) (σ k))

/-! ## Stepping in turn -/

theorem Crewed.toDo_steps_le (h : w.Crewed) (js : List Nat) :
    (js.foldl Workshop.step w).toDo ≤ w.toDo := by
  induction js generalizing w with
  | nil => exact Nat.le_refl _
  | cons j js ih => exact (ih (h.step j)).trans (h.toDo_step_le j)

/-- Where a member gets its turn that can take a step that changes something, less is left to do. -/
theorem Crewed.lowers_of_mem (h : w.Crewed) (he : w.Enabled j) (hj : j ∈ js) :
    (js.foldl Workshop.step w).toDo < w.toDo := by
  induction js generalizing w with
  | nil => cases hj
  | cons i js ih =>
    have hrest := (h.step i).toDo_steps_le js
    rcases List.mem_cons.1 hj with rfl | hj
    · exact Nat.lt_of_le_of_lt hrest (h.lowers_of_enabled he)
    · rcases h.step_lowers i with hlt | ha
      · exact Nat.lt_of_le_of_lt hrest hlt
      · rw [← ha.toDo]
        exact ih (h.step i) (he.congr ha) hj

/-- Stepping in turn ends where nobody can take a step. -/
theorem jammed_execute (hp : plans.Sound) (ho : w.Orderly plans staff) (hc : w.Crewed) :
    w.execute.Jammed ∧ w.execute.Orderly plans staff := by
  fun_induction execute w with
  | case1 w next _ ih => exact ih (ho.steps hp _) (hc.steps _)
  | case2 w next hstay =>
    have hnone : ∀ j, ¬ w.Enabled j := fun j he =>
      hstay (hc.lowers_of_mem he (List.mem_range.2 he.lt_size))
    have hjam := jammed_of_not_enabled hp ho hnone
    exact ⟨hjam.congr (hjam.steps hp ho _), ho.steps hp _⟩

/-! ## Nodes that start -/

def starts? (w : Workshop) (j : Nat) : Option (BuildId × Nat) := do
  let m ← w.crew[j]?
  let r ← w.runs[m.build]?
  match m.activity, (r.beginTurn w.services w.foreign m.worker).1 with
  | .idle, .run i _ => some (m.build, i)
  | _, _ => none

def starts (w : Workshop) : List Nat → List (BuildId × Nat)
  | [] => []
  | j :: js => (w.starts? j).toList ++ (w.step j).starts js

def IsWaiting (w : Workshop) (x : BuildId × Nat) : Prop :=
  ∃ r : Run, w.runs[x.1]? = some r ∧ r.progress.IsWaiting x.2

theorem exists_of_starts? (hx : w.starts? j = some x) : ∃ m r keys, w.crew[j]? = some m ∧
    w.runs[m.build]? = some r ∧ m.activity = .idle ∧ x.1 = m.build ∧
      (r.beginTurn w.services w.foreign m.worker).1 = .run x.2 keys := by
  rw [starts?] at hx
  cases hm : w.crew[j]? with
  | none => simp [hm] at hx
  | some m =>
    cases hr : w.runs[m.build]? with
    | none => simp [hm, hr] at hx
    | some r =>
      simp only [hm, hr, Option.bind_eq_bind, Option.bind_some] at hx
      split at hx
      · rename_i i keys hact hsel
        cases hx
        exact ⟨m, r, keys, rfl, hr, hact, rfl, hsel⟩
      · cases hx

theorem Crewed.isWaiting_of_step (h : w.Crewed) (hx : (w.step j).IsWaiting x) : w.IsWaiting x := by
  rcases h.step_cases j with hstay | ⟨m, r, r', activity, table, hm, hr, _, hleads, hdone⟩
  · rwa [hstay] at hx
  · obtain ⟨q, hq, hwait⟩ := hx
    rw [hdone.runs] at hq
    split at hq
    · rename_i hb
      cases hq
      exact ⟨r, hb ▸ hr, Run.isWaiting_of_changes (h.consistent _ _ hr) hleads.changes hwait⟩
    · exact ⟨q, hq, hwait⟩

/-- A node that starts was waiting and waits no longer. -/
theorem Crewed.starts?_spec (h : w.Crewed) (hx : w.starts? j = some x) :
    w.IsWaiting x ∧ ¬ (w.step j).IsWaiting x := by
  obtain ⟨m, r, keys, hm, hr, hact, hb, hsel⟩ := exists_of_starts? hx
  obtain ⟨hwaiting, hrunning⟩ := Run.isWaiting_of_select_run (h.consistent _ _ hr) hsel
  have hruns : (w.step j).runs[x.1]? = some (r.beginTurn w.services w.foreign m.worker).2.1 := by
    rw [step_eq_stepIdle hm hr hact, (stepIdle_books w j m r).2, runs_setRun, if_pos hb]
  refine ⟨⟨r, hb ▸ hr, hwaiting⟩, ?_⟩
  rintro ⟨q, hq, hwait⟩
  cases hruns.symm.trans hq
  rcases hwait with hwait | hwait <;> cases hrunning.symm.trans hwait

/-- No node starts twice, and none that was not waiting. -/
theorem Crewed.starts (h : w.Crewed) (js : List Nat) :
    (w.starts js).Nodup ∧ ∀ x ∈ w.starts js, w.IsWaiting x := by
  induction js generalizing w with
  | nil => exact ⟨List.nodup_nil, nofun⟩
  | cons j js ih =>
    obtain ⟨hnodup, hwaiting⟩ := ih (h.step j)
    rw [Workshop.starts]
    cases hx : w.starts? j with
    | none => exact ⟨hnodup, fun x hx => h.isWaiting_of_step (hwaiting x hx)⟩
    | some x =>
      obtain ⟨hwas, hnot⟩ := h.starts?_spec hx
      refine ⟨List.nodup_cons.2 ⟨fun hmem => hnot (hwaiting x hmem), hnodup⟩, fun y hy => ?_⟩
      rcases List.mem_cons.1 hy with rfl | hy
      · exact hwas
      · exact h.isWaiting_of_step (hwaiting y hy)

/-! ## Runs that have nothing to do with other builds -/

/-- Where nothing is running nobody is at work. -/
theorem Orderly.not_working (ho : w.Orderly plans staff)
    (hstill : ∀ (b : BuildId) (r : Run) i, w.runs[b]? = some r →
      r.progress.state? i ≠ some .running)
    (hm : w.crew[j]? = some m) : ¬ m.activity.Working := by
  obtain ⟨r, hr, hfits⟩ := ho.fits j m hm
  intro hwork
  cases hact : m.activity with
  | acting i keys steps outcome => exact hstill _ r i hr (hfits.running (by rw [hact]; rfl))
  | calling i keys d path => exact hstill _ r i hr (hfits.running (by rw [hact]; rfl))
  | _ =>
    rw [hact] at hwork
    exact hwork

/-- A worker that asks while nothing is running need not wait. -/
theorem Orderly.answered (ho : w.Orderly plans staff) (hp : plans.Sound)
    (hlocal : ∀ b p, plans b = some p → p.Local)
    (hstill : ∀ (b : BuildId) (r : Run) i, w.runs[b]? = some r →
      r.progress.state? i ≠ some .running)
    (hr : w.runs[b]? = some r) (worker : Worker) :
    (r.beginTurn w.services w.foreign worker).1 ≠ .wait := by
  have hplan := ho.plan_eq hr
  have hwork : ∀ (j : Nat) (m : Member), w.crew[j]? = some m → ¬ m.activity.Working :=
    fun j m hm => ho.not_working hstill hm
  have hfree : r.Free w.services.table :=
    ⟨unleased_of_not_working ho hwork, unlocked_of_not_working ho hwork,
      fun i n hi => absurd hi (hstill b r i hr)⟩
  intro hwait
  obtain ⟨i, hi⟩ := Run.exists_running_of_wait hfree (ho.consistent b r hr) (hp.sound _ _ hplan)
    (hlocal _ _ hplan) hwait
  exact hstill b r i hr hi

/-- Nobody waits for a task of another build. -/
theorem Orderly.not_awaits (ho : w.Orderly plans staff) (hlocal : ∀ b p, plans b = some p → p.Local)
    (hm : w.crew[j]? = some m) : ¬ w.Awaits m := by
  rintro ⟨i, keys, d, path, holds, hact, _⟩
  obtain ⟨r, hr, hfits⟩ := ho.fits j m hm
  rw [hact] at hfits
  cases hfits with
  | awaiting _ hn hw =>
    obtain ⟨t, ht⟩ := (hlocal _ _ (ho.plan_eq hr)).task _ _ hn
    rw [PlannedNode.task?, hw] at ht
    cases ht

/-- Where nobody can take a step everybody is done. -/
theorem Jammed.off (h : w.Jammed) (ho : w.Orderly plans staff)
    (hlocal : ∀ b p, plans b = some p → p.Local) (hm : w.crew[j]? = some m) :
    m.activity = .off := by
  obtain ⟨r, hr, _⟩ := ho.fits j m hm
  rcases h j m r hm hr with hoff | hawaits | ⟨_, hheld⟩
  · exact hoff
  · exact absurd hawaits (ho.not_awaits hlocal hm)
  · rcases hheld.busy with ⟨i, hi⟩ | ⟨i, n, _, hn, e, he, _⟩
    · -- the member that is busy with the running node cannot be where a jam leaves it
      obtain ⟨l, m', hm', hb, hindex⟩ := ho.tended _ r i hr hi
      rcases h l m' r hm' (hb ▸ hr) with hoff | hawaits | ⟨hidle, _⟩
      · rw [hoff] at hindex
        cases hindex
      · exact absurd hawaits (ho.not_awaits hlocal hm')
      · rw [hidle] at hindex
        cases hindex
    · rw [(hlocal _ _ (ho.plan_eq hr)).afterExports i n hn] at he
      cases he

theorem Jammed.isOver (h : w.Jammed) (ho : w.Orderly plans staff)
    (hlocal : ∀ b p, plans b = some p → p.Local) : w.isOver = true := by
  rw [Workshop.isOver, Array.all_eq_true']
  intro m hm
  obtain ⟨j, hj⟩ := Array.mem_iff_getElem?.1 hm
  simpa using h.off ho hlocal hj

/-- Where nobody can take a step every node is over. -/
theorem Jammed.isDone (h : w.Jammed) (ho : w.Orderly plans staff)
    (hlocal : ∀ b p, plans b = some p → p.Local) (hstaff : 0 < staff b) (hr : w.runs[b]? = some r)
    {i : Nat} (hi : i < r.plan.size) : r.progress.isDone i = true := by
  obtain ⟨start, hstart⟩ := ho.staffed b r.plan (ho.plan_eq hr) (Nat.zero_lt_of_lt hi)
  obtain ⟨m, hm, hb⟩ := hstart 0 hstaff
  obtain ⟨q, hq, hfits⟩ := ho.fits _ m hm
  rw [hb, hr, Option.some.injEq] at hq
  subst hq
  rw [h.off ho hlocal hm] at hfits
  cases hfits with
  | off hover =>
    obtain ⟨st, hst⟩ := (ho.consistent b r hr).exists_state hi
    exact Progress.isDone_iff.2 ⟨st, hst, hover i st hst⟩

end Workshop

end Foreman
