import Foreman.Registry
import Mathlib.Logic.Relation

/-!
# What a registry selects, takes in and offers

A pattern selects the tasks of the declared paths that it accepts, in path order, and no other list
of tasks (`Registry.Selects`). Tasks that a registry takes in are declared first come, first served:
a path has its old task, or else the first of the new ones (`TakesIn.get?_eq`). Asking a provider
takes in the tasks that it offers (`ask_takesIn`) and gives its references (`references_ask`). What
declaring one task keeps, asking providers keeps (`ask_keeps`).
-/

namespace Foreman

namespace Registry

theorem build_register {r r' : Registry} {task : TaskDefinition} (h : r.register task = .ok r') :
    r'.build = r.build := by
  rw [register] at h
  split at h
  · cases h
  · cases h
    rfl

theorem build_registerFree (tasks : List TaskDefinition) (r : Registry) :
    (r.registerFree tasks).build = r.build := by
  induction tasks generalizing r with
  | nil => rfl
  | cons task tasks ih =>
    rw [registerFree, List.foldl_cons, ← registerFree, ih]
    cases h : r.register task with
    | error e => rfl
    | ok r' => exact build_register h

theorem build_provideAll (providers : List (ProviderId × Provider)) (r : Registry) :
    (r.provideAll providers).build = r.build := by
  induction providers generalizing r with
  | nil => rfl
  | cons p providers ih =>
    rw [provideAll, List.foldl_cons, ← provideAll, ih]
    rfl

theorem build_ask (r : Registry) (id : ProviderId) : (r.ask id).1.build = r.build := by
  rw [ask]
  split
  · exact build_registerFree _ r
  · rfl

/-- The declarations are what they were before some providers were asked, and what those
declared. -/
def Informed : Registry → Registry → Prop :=
  Relation.ReflTransGen fun r r' => ∃ id, r' = (r.ask id).1

/-- Every task is kept under its own path. -/
def Keyed (r : Registry) : Prop := ∀ path task, r.get? path = some task → task.path = path

theorem empty_keyed (build : BuildId) : (empty build).Keyed := by
  intro path task h
  simp [get?, empty] at h

theorem Keyed.register {r r' : Registry} {task : TaskDefinition} (hr : r.Keyed)
    (h : r.register task = .ok r') : r'.Keyed := by
  rw [Registry.register] at h
  split at h
  · cases h
  · cases h
    intro path other hother
    rw [get?, Std.TreeMap.getElem?_insert] at hother
    split at hother
    · rename_i hpath
      cases hother
      exact Std.LawfulEqCmp.compare_eq_iff_eq.1 hpath
    · exact hr path other hother

/-- What declaring a task keeps, declaring those with free paths keeps. -/
theorem registerFree_keeps {Q : Registry → Prop}
    (hregister : ∀ (r r' : Registry) (task : TaskDefinition), Q r → r.register task = .ok r' → Q r')
    {r : Registry} (h : Q r) (tasks : List TaskDefinition) : Q (r.registerFree tasks) := by
  refine List.foldlRecOn (motive := Q) _ _ h fun r hr task _ => ?_
  cases hok : r.register task with
  | error e => exact hr
  | ok r' => exact hregister r r' task hr hok

theorem Keyed.registerFree {r : Registry} (hr : r.Keyed) (tasks : List TaskDefinition) :
    (r.registerFree tasks).Keyed :=
  registerFree_keeps (fun _ _ _ hr hok => hr.register hok) hr tasks

/-- What declaring a task keeps, asking a provider keeps. -/
theorem ask_keeps {Q : Registry → Prop}
    (hregister : ∀ (r r' : Registry) (task : TaskDefinition), Q r → r.register task = .ok r' → Q r')
    {r : Registry} (h : Q r) (id : ProviderId) : Q (r.ask id).1 := by
  rw [ask]
  split
  · exact registerFree_keeps hregister h _
  · exact h

theorem Keyed.informed {r r' : Registry} (hr : r.Keyed) (h : r.Informed r') : r'.Keyed := by
  induction h with
  | refl => exact hr
  | tail _ hask ih =>
    obtain ⟨id, rfl⟩ := hask
    exact ask_keeps (fun _ _ _ hr hok => hr.register hok) ih id

theorem Keyed.provideAll {r : Registry} (hr : r.Keyed) (providers : List (ProviderId × Provider)) :
    (r.provideAll providers).Keyed :=
  List.foldlRecOn (motive := Keyed) _ _ hr fun _ hr _ _ => hr

/-! ## Patterns -/

section Selecting

variable {registry : Registry} {glob : Glob} {tasks tasks' : List TaskDefinition}

/-- In path order, the tasks of the declared paths that the pattern accepts. -/
def Selects (registry : Registry) (glob : Glob) (tasks : List TaskDefinition) : Prop :=
  ∃ entries : List (TaskPath × TaskDefinition),
    entries.Pairwise (fun e e' => compare e.1 e'.1 = .lt) ∧
    (∀ path task, (path, task) ∈ entries ↔
      registry.get? path = some task ∧ glob.accepts path.text = true) ∧
    tasks = entries.map Prod.snd

theorem selects_matching (registry : Registry) (glob : Glob) :
    registry.Selects glob (registry.matching glob) := by
  refine ⟨registry.tasks.toList.filter fun entry => glob.accepts entry.1.text, ?_, ?_, rfl⟩
  · exact Std.TreeMap.ordered_keys_toList.filter _
  · intro path task
    simp only [List.mem_filter, Std.TreeMap.mem_toList_iff_getElem?_eq_some, get?]

/-- A pattern leaves no choice. -/
theorem Selects.unique (h : registry.Selects glob tasks) (h' : registry.Selects glob tasks') :
    tasks' = tasks := by
  obtain ⟨entries, hordered, hmem, rfl⟩ := h
  obtain ⟨entries', hordered', hmem', rfl⟩ := h'
  have hnodup : ∀ l : List (TaskPath × TaskDefinition),
      l.Pairwise (fun e e' => compare e.1 e'.1 = .lt) → l.Nodup := by
    intro l hl
    refine hl.imp ?_
    rintro e e' hlt rfl
    simp at hlt
  have hperm : entries'.Perm entries := by
    rw [List.perm_ext_iff_of_nodup (hnodup _ hordered') (hnodup _ hordered)]
    rintro ⟨path, task⟩
    rw [hmem, hmem']
  have heq : entries' = entries := by
    refine hperm.eq_of_pairwise ?_ hordered' hordered
    intro e e' _ _ hlt hgt
    exact absurd hgt (Std.OrientedCmp.not_lt_of_lt hlt)
  rw [heq]

theorem mem_matching {task : TaskDefinition} (h : task ∈ registry.matching glob) :
    ∃ path, registry.get? path = some task ∧ glob.accepts path.text = true := by
  obtain ⟨entries, -, hmem, htasks⟩ := selects_matching registry glob
  rw [htasks, List.mem_map] at h
  obtain ⟨⟨path, _⟩, hentry, rfl⟩ := h
  exact ⟨path, (hmem path _).1 hentry⟩

end Selecting

/-! ## Tasks that come in -/

section TakingIn

variable {r r' r'' : Registry} {task : TaskDefinition} {tasks : List TaskDefinition}

/-- Tasks come in one after the other. A path that is taken keeps its task. -/
inductive TakesIn : Registry → List TaskDefinition → Registry → Prop
  | nil (r : Registry) : TakesIn r [] r
  | taken {r r' : Registry} {task : TaskDefinition} {tasks : List TaskDefinition}
      (htask : (r.get? task.path).isSome) (hrest : TakesIn r tasks r') :
      TakesIn r (task :: tasks) r'
  | free {r r' : Registry} {task : TaskDefinition} {tasks : List TaskDefinition}
      (htask : r.get? task.path = none)
      (hrest : TakesIn { r with tasks := r.tasks.insert task.path task } tasks r') :
      TakesIn r (task :: tasks) r'

theorem TakesIn.unique (h : r.TakesIn tasks r') (h' : r.TakesIn tasks r'') : r'' = r' := by
  induction h with
  | nil => cases h'; rfl
  | taken htask _ ih =>
    cases h' with
    | taken _ hrest => exact ih hrest
    | free hnone _ => simp [hnone] at htask
  | free htask _ ih =>
    cases h' with
    | taken hsome _ => simp [htask] at hsome
    | free _ hrest => exact ih hrest

theorem TakesIn.append {tasks' : List TaskDefinition} (h : r.TakesIn tasks r')
    (h' : r'.TakesIn tasks' r'') : r.TakesIn (tasks ++ tasks') r'' := by
  induction h with
  | nil => exact h'
  | taken htask _ ih => exact .taken htask (ih h')
  | free htask _ ih => exact .free htask (ih h')

theorem TakesIn.build_eq (h : r.TakesIn tasks r') : r'.build = r.build := by
  induction h with
  | nil => rfl
  | taken _ _ ih => exact ih
  | free _ _ ih => exact ih

theorem TakesIn.providers_eq (h : r.TakesIn tasks r') : r'.providers = r.providers := by
  induction h with
  | nil => rfl
  | taken _ _ ih => exact ih
  | free _ _ ih => exact ih

theorem get?_insert (r : Registry) (task : TaskDefinition) (path : TaskPath) :
    ({ r with tasks := r.tasks.insert task.path task } : Registry).get? path =
      if task.path = path then some task else r.get? path := by
  simp only [get?, Std.TreeMap.getElem?_insert, Std.LawfulEqCmp.compare_eq_iff_eq]

/-- First come, first served. -/
theorem TakesIn.get?_eq (h : r.TakesIn tasks r') (path : TaskPath) :
    r'.get? path = (r.get? path).or (tasks.find? (·.path = path)) := by
  induction h with
  | nil r => simp
  | @taken r _ task _ htask _ ih =>
    rw [ih]
    by_cases hpath : task.path = path
    · subst hpath
      rw [Option.or_of_isSome htask, Option.or_of_isSome htask]
    · rw [List.find?_cons_of_neg (by simpa using hpath)]
  | @free r _ task _ htask _ ih =>
    rw [ih, get?_insert]
    by_cases hpath : task.path = path
    · subst hpath
      simp [htask]
    · rw [if_neg hpath, List.find?_cons_of_neg (by simpa using hpath)]

theorem isSome_get? (r : Registry) (path : TaskPath) :
    (r.get? path).isSome = r.contains path :=
  Std.TreeMap.isSome_getElem?_eq_contains

theorem takesIn_registerFree (r : Registry) (tasks : List TaskDefinition) :
    r.TakesIn tasks (r.registerFree tasks) := by
  induction tasks generalizing r with
  | nil => exact .nil r
  | cons task tasks ih =>
    unfold registerFree
    rw [List.foldl_cons, register]
    cases htaken : r.contains task.path with
    | true =>
      apply TakesIn.taken
      · rw [isSome_get?, htaken]
      · exact ih r
    | false =>
      apply TakesIn.free
      · rw [← Option.not_isSome_iff_eq_none, isSome_get?, htaken]
        exact Bool.false_ne_true
      · exact ih _

end TakingIn

/-! ## Providers -/

/-- What a provider declares and gives. One that was never declared gives nothing. -/
def offer (r : Registry) (id : ProviderId) : Provider := (r.providers[id]?).getD ⟨[], []⟩

theorem ask_takesIn (r : Registry) (id : ProviderId) :
    r.TakesIn (r.offer id).tasks (r.ask id).1 := by
  unfold offer ask
  cases r.providers[id]? with
  | some provider => exact takesIn_registerFree r provider.tasks
  | none => exact .nil r

theorem references_ask (r : Registry) (id : ProviderId) :
    (r.ask id).2 = (r.offer id).references := by
  unfold offer ask
  cases r.providers[id]? <;> rfl

theorem TakesIn.offer_eq {r r' : Registry} {tasks : List TaskDefinition} (h : r.TakesIn tasks r')
    (id : ProviderId) : r'.offer id = r.offer id := by
  rw [offer, offer, h.providers_eq]

end Registry

end Foreman
