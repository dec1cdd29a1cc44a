import Foreman.Proofs.Totals
import Foreman.Proofs.WorkGraph.Wiring

/-!
# How far a work graph can grow

Whatever a resolution finds, the registry knew of it from the start: a task that was declared or
that a provider could declare, or a task of another build that some reference names
(`Registry.Knows`). So populating a graph leads to known nodes only (`WorkGraph.Known`), and no two
nodes have one key, so there are no more nodes than keys for them (`Distinct.size_le`).
-/

namespace Foreman

namespace Registry

variable {r r' : Registry} {task : TaskDefinition} {path : TaskPath}

/-- The work is a task that is declared or that a provider declares, or a task of another build that
some reference names. -/
def Knows (r : Registry) : Work → Prop
  | .task task => task ∈ r.allTasks
  | .foreign build path => .inBuild build path ∈ r.allReferences

def extent (r : Registry) : Nat := r.allTasks.length + r.allReferences.length

theorem mem_allTasks : task ∈ r.allTasks ↔
    (∃ path, r.get? path = some task) ∨ ∃ (id : ProviderId) (p : Provider),
      r.providers[id]? = some p ∧ task ∈ p.tasks := by
  simp only [allTasks, List.mem_append, List.mem_flatMap, mem_values, get?]
  refine or_congr .rfl ⟨?_, ?_⟩
  · rintro ⟨p, ⟨id, hp⟩, ht⟩
    exact ⟨id, p, hp, ht⟩
  · rintro ⟨id, p, hp, ht⟩
    exact ⟨p, ⟨id, hp⟩, ht⟩

def Declares (r : Registry) (task : TaskDefinition) : Prop := ∃ path, r.get? path = some task

theorem Declares.mem_allTasks (h : r.Declares task) : task ∈ r.allTasks :=
  Registry.mem_allTasks.2 (.inl h)

/-- A path that is taken stays taken by the same task. -/
theorem get?_register {other : TaskDefinition} (h : r.get? path = some task)
    (hok : r.register other = .ok r') : r'.get? path = some task := by
  rw [register] at hok
  split at hok
  · cases hok
  · rename_i hfree
    cases hok
    rw [get?, Std.TreeMap.getElem?_insert, if_neg]
    · exact h
    · rw [Std.LawfulEqCmp.compare_eq_iff_eq]
      rintro rfl
      refine hfree ?_
      rw [get?] at h
      rw [contains, ← Std.TreeMap.isSome_getElem?_eq_contains, h]
      rfl

theorem get?_of_register (hok : r.register task = .ok r') : r'.get? task.path = some task := by
  rw [register] at hok
  split at hok
  · cases hok
  · cases hok
    exact Std.TreeMap.getElem?_insert_self

theorem Declares.register {other : TaskDefinition} (h : r.Declares task)
    (hok : r.register other = .ok r') : r'.Declares task := by
  obtain ⟨path, hp⟩ := h
  exact ⟨path, get?_register hp hok⟩

theorem Declares.ask (h : r.Declares task) (id : ProviderId) : (r.ask id).1.Declares task :=
  ask_keeps (Q := (Declares · task)) (fun _ _ _ hr hok => hr.register hok) h id

theorem Declares.informed (h : r.Declares task) (hi : r.Informed r') : r'.Declares task := by
  induction hi with
  | refl => exact h
  | tail _ hask ih =>
    obtain ⟨id, rfl⟩ := hask
    exact ih.ask id

theorem Declares.provideAll (h : r.Declares task) (providers : List (ProviderId × Provider)) :
    (r.provideAll providers).Declares task :=
  List.foldlRecOn (motive := (Declares · task)) _ _ h fun _ hr _ _ => hr

theorem declares_of_mem_matching {glob : Glob} (h : task ∈ r.matching glob) : r.Declares task := by
  obtain ⟨path, htask, -⟩ := mem_matching h
  exact ⟨path, htask⟩

theorem mem_allReferences {reference : TaskReference} : reference ∈ r.allReferences ↔
    (∃ task ∈ r.allTasks, reference ∈ task.allReferences) ∨ ∃ (id : ProviderId) (p : Provider),
      r.providers[id]? = some p ∧ reference ∈ p.references := by
  simp only [allReferences, List.mem_append, List.mem_flatMap, mem_values]
  refine or_congr .rfl ⟨?_, ?_⟩
  · rintro ⟨p, ⟨id, hp⟩, href⟩
    exact ⟨id, p, hp, href⟩
  · rintro ⟨id, p, hp, href⟩
    exact ⟨p, ⟨id, hp⟩, href⟩

/-- Two registries with the same stock to draw on. -/
structure SameStock (r r' : Registry) : Prop where
  providers : r'.providers = r.providers
  tasks : ∀ task, task ∈ r'.allTasks ↔ task ∈ r.allTasks

theorem SameStock.references (h : r.SameStock r') (reference : TaskReference) :
    reference ∈ r'.allReferences ↔ reference ∈ r.allReferences := by
  simp only [mem_allReferences, h.tasks, h.providers]

theorem SameStock.knows_iff (h : r.SameStock r') (work : Work) : r'.Knows work ↔ r.Knows work := by
  cases work with
  | task task => exact h.tasks task
  | foreign build path => exact h.references _

/-- Declaring what a provider holds adds nothing to the stock. -/
theorem SameStock.register (h : r.SameStock r') {r'' : Registry} (htask : task ∈ r.allTasks)
    (hok : r'.register task = .ok r'') : r.SameStock r'' := by
  have hdeclared : ∀ other, r''.Declares other ↔ other = task ∨ r'.Declares other := by
    intro other
    constructor
    · rintro ⟨path, hp⟩
      rw [Registry.register] at hok
      split at hok
      · cases hok
      · cases hok
        rw [get?, Std.TreeMap.getElem?_insert] at hp
        split at hp
        · exact .inl (Option.some.inj hp).symm
        · exact .inr ⟨path, hp⟩
    · rintro (rfl | hd)
      · exact ⟨other.path, get?_of_register hok⟩
      · exact hd.register hok
  have hproviders : r''.providers = r'.providers := by
    rw [Registry.register] at hok
    split at hok <;> cases hok
    rfl
  refine ⟨hproviders.trans h.providers, fun other => ?_⟩
  rw [← h.tasks, mem_allTasks, mem_allTasks, hproviders]
  change r''.Declares other ∨ _ ↔ _
  rw [hdeclared, or_assoc]
  refine ⟨?_, .inr⟩
  rintro (rfl | h')
  · exact mem_allTasks.1 ((h.tasks other).2 htask)
  · exact h'

theorem ask_sameStock (r : Registry) (id : ProviderId) : r.SameStock (r.ask id).1 := by
  rw [ask]
  split
  · rename_i p hp
    refine List.foldlRecOn (motive := r.SameStock) _ _ ⟨rfl, fun _ => .rfl⟩ fun r' h task ht => ?_
    cases hok : r'.register task with
    | error e => exact h
    | ok r'' => exact h.register (mem_allTasks.2 (.inr ⟨id, p, hp, ht⟩)) hok
  · exact ⟨rfl, fun _ => .rfl⟩

theorem Informed.sameStock (h : r.Informed r') : r.SameStock r' := by
  induction h with
  | refl => exact ⟨rfl, fun _ => .rfl⟩
  | @tail r₁ _ _ hask ih =>
    obtain ⟨id, rfl⟩ := hask
    have hnext := ask_sameStock r₁ id
    exact ⟨hnext.providers.trans ih.providers, fun task => (hnext.tasks task).trans (ih.tasks task)⟩

theorem Declares.knows (h : r.Declares task) : r.Knows (.task task) := h.mem_allTasks

/-- A key for each work that a registry knows. -/
def stock (r : Registry) : List NodeKey :=
  r.allTasks.map (.task ·.path) ++ r.allReferences.map fun
    | .inBuild build path => .foreign build path
    | _ => .task ⟨"", ""⟩

theorem length_stock (r : Registry) : r.stock.length = r.extent := by
  simp [stock, extent]

theorem Knows.key_mem {work : Work} (h : r.Knows work) : work.key ∈ r.stock := by
  cases work with
  | task task => exact List.mem_append_left _ (List.mem_map.2 ⟨task, h, rfl⟩)
  | foreign build path => exact List.mem_append_right _ (List.mem_map.2 ⟨_, h, rfl⟩)

/-- What a provider refers to is in stock. -/
theorem mem_references_ask {id : ProviderId} {reference : TaskReference}
    (h : reference ∈ (r.ask id).2) : reference ∈ r.allReferences := by
  rw [ask] at h
  split at h
  · rename_i p hp
    exact mem_allReferences.2 (.inr ⟨id, p, hp, h⟩)
  · cases h

end Registry

namespace Resolution

variable {σ : Type} {cross : Option (CrossBuild σ)} {referrer : TaskPath}
  {relationship : Relationship} {registry : Registry} {r : Resolution σ} {path : TaskPath}

/-- What holds of a resolution under way that began with a registry. -/
structure Known (registry : Registry) (r : Resolution σ) : Prop where
  informed : registry.Informed r.registry
  targets : ∀ work ∈ r.targets, registry.Knows work
  declared : ∀ task, .task task ∈ r.targets → r.registry.Declares task

theorem Known.found (h : r.Known registry) {work : Work} (hw : registry.Knows work)
    (hd : ∀ task, work = .task task → r.registry.Declares task) :
    (r.found work).Known registry where
  informed := h.informed
  targets work' hw' := by
    rcases List.mem_append.1 hw' with hw' | hw'
    · exact h.targets work' hw'
    · rw [List.mem_singleton.1 hw']
      exact hw
  declared task ht := by
    rcases List.mem_append.1 ht with ht | ht
    · exact h.declared task ht
    · exact hd task (List.mem_singleton.1 ht).symm

theorem Known.found_task (h : r.Known registry) {task : TaskDefinition}
    (ht : r.registry.Declares task) : (r.found (.task task)).Known registry := by
  refine h.found ((h.informed.sameStock.knows_iff _).1 ht.knows) fun other ho => ?_
  cases ho
  exact ht

theorem Known.found_foreign (h : r.Known registry) {build : BuildId}
    (href : .inBuild build path ∈ registry.allReferences) :
    (r.found (.foreign build path)).Known registry :=
  h.found href fun _ hw => by cases hw

theorem Known.foundLocal (h : r.Known registry) :
    (r.foundLocal referrer path).1.Known registry := by
  rw [Resolution.foundLocal]
  split
  · exact h.found_task ⟨path, by assumption⟩
  · exact h

/-- Whatever the other build answers, it is the task referred to that is found. -/
theorem Known.foundForeign (h : r.Known registry) {build : BuildId}
    (href : .inBuild build path ∈ registry.allReferences) :
    (r.foundForeign cross referrer relationship build path).1.Known registry := by
  have hasked : ∀ others : σ, ({ r with others } : Resolution σ).Known registry :=
    fun _ => ⟨h.informed, h.targets, h.declared⟩
  cases cross with
  | none => exact h
  | some cross =>
    cases relationship with
    | finalizedBy => exact h
    | dependency =>
      simp only [Resolution.foundForeign]
      split
      · exact (hasked _).found_foreign href
      · exact hasked _
    | _ =>
      simp only [Resolution.foundForeign]
      split
      · exact (hasked _).found_foreign href
      · exact hasked _

/-- Only a provider opens further references. -/
theorem resolveReference_known_of_provider {depth : Nat} {reference : TaskReference}
    (h : r.Known registry) (href : reference ∈ registry.allReferences)
    (hprovider : ∀ id, reference = .provider id →
      (resolveReference cross referrer relationship depth reference r).1.Known registry) :
    (resolveReference cross referrer relationship depth reference r).1.Known registry := by
  cases reference with
  | path text =>
    rw [resolveReference]
    split
    · exact h.foundLocal
    · exact h
  | pattern glob =>
    rw [resolveReference]
    have hfold := List.foldlRecOn
      (motive := fun r' : Resolution σ => r'.Known registry ∧ r'.registry = r.registry)
      (r.registry.matching glob) (fun r t => r.found (.task t)) ⟨h, rfl⟩ fun r' hr task ht => by
        obtain ⟨hknown, hregistry⟩ := hr
        refine ⟨hknown.found_task ?_, hregistry⟩
        rw [hregistry]
        exact Registry.declares_of_mem_matching ht
    exact hfold.1
  | provider id => exact hprovider id rfl
  | inBuild build path =>
    rw [resolveReference]
    split
    · exact h.foundLocal
    · exact h.foundForeign href

/-- Induction is on how deep providers may still open each other. -/
theorem resolveReference_known {depth : Nat} {reference : TaskReference} (h : r.Known registry)
    (href : reference ∈ registry.allReferences) :
    (resolveReference cross referrer relationship depth reference r).1.Known registry := by
  induction depth generalizing reference r with
  | zero =>
    refine resolveReference_known_of_provider h href fun id hid => ?_
    subst hid
    exact h
  | succ depth ih =>
    refine resolveReference_known_of_provider h href fun id hid => ?_
    subst hid
    rw [resolveReference]
    refine eachUntilError_keeps (Q := Known registry) (fun reference href r hr => ih hr ?_)
      ⟨h.informed.tail ⟨id, rfl⟩, h.targets, fun task ht => (h.declared task ht).ask id⟩
    exact (h.informed.sameStock.references reference).1 (Registry.mem_references_ask href)

/-- All that a task of the registry refers to is in stock. -/
theorem resolve_known (cross : Option (CrossBuild σ)) {task : TaskDefinition}
    (relationship : Relationship) (others : σ) (ht : task ∈ registry.allTasks) :
    (resolve cross task relationship registry others).1.Known registry := by
  refine eachUntilError_keeps (Q := Known registry) (fun reference href r hr => ?_)
    ⟨.refl, fun work hw => absurd hw List.not_mem_nil, fun task ht => absurd ht List.not_mem_nil⟩
  refine resolveReference_known hr (Registry.mem_allReferences.2 (.inl ⟨task, ht, ?_⟩))
  refine List.mem_flatMap.2 ⟨relationship, ?_, href⟩
  cases relationship <;> simp [Relationship.all]

end Resolution

namespace WorkGraph

variable {g g' : WorkGraph} {id : Nat} {f : Node → Node} {n : Node}

/-- The nodes stand for works that the registry knows. -/
def Known (g : WorkGraph) : Prop :=
  ∀ (i : Nat) (n : Node), g.nodes[i]? = some n → g.registry.Knows n.work

theorem new_known (registry : Registry) : (new registry).Known := by
  intro i n hn
  simp [new] at hn

/-- A graph has no more nodes than there are keys for them. -/
theorem Distinct.size_le (hd : g.Distinct) {keys : List NodeKey}
    (h : ∀ (i : Nat) (n : Node), g.nodes[i]? = some n → n.key ∈ keys) :
    g.nodes.size ≤ keys.length := by
  have hkeys : (g.nodes.toList.map (·.key)).Nodup := by
    refine List.pairwise_iff_getElem.2 fun i j hi hj hij he => ?_
    simp only [List.length_map, Array.length_toList] at hi hj
    simp only [List.getElem_map, Array.getElem_toList] at he
    have := hd i j _ _ (Array.getElem?_eq_getElem hi) (Array.getElem?_eq_getElem hj) he
    omega
  have hsub : g.nodes.toList.map (·.key) ⊆ keys := by
    intro key hkey
    obtain ⟨n, hn, rfl⟩ := List.mem_map.1 hkey
    obtain ⟨i, hi⟩ := Array.mem_iff_getElem?.1 (Array.mem_toList_iff.1 hn)
    exact h i n hi
  simpa using (List.subperm_of_subset hkeys hsub).length_le

end WorkGraph

end Foreman
