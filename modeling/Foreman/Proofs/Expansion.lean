import Foreman.Neighbours
import Foreman.Proofs.Resolution

/-!
# References, expanded from left to right

The references of a task are expanded by rules: of the references that are left the first is met,
its tasks are reported, or the references that a provider gives take its place
(`Resolution.Advances`), until nothing is left or a bad reference is met (`Resolution.Fails`). Which
tasks a pattern stands for and what a provider declares is said without the registry's own search
(`Registry.Selects`, `Registry.TakesIn`). No rule leaves a choice (`Expands.unique`), and the rules
come to what the resolver answers: its targets, the providers it asked, what it asked of other
builds, and its error (`resolve_expands`). Providers may open each other for ever and declare tasks;
one that answers differently each time counts as another provider each time.
-/

namespace Foreman

variable {σ : Type}

/-- What a build asks of another for a reference. Finalizers are local. -/
def Relationship.inquiry? (relationship : Relationship) (build : BuildId) (path : TaskPath) :
    Option Inquiry :=
  match relationship with
  | dependency => some (.request build path)
  | mustRunAfter | shouldRunAfter => some (.observe build path)
  | finalizedBy => none

def CrossBuild.answer (cross : CrossBuild σ) : Inquiry → σ → Except ExportError Unit × σ
  | .request build path => cross.request build path
  | .observe build path => cross.observe build path

def Inquiry.work : Inquiry → Work
  | request build path | observe build path => .foreign build path

namespace Resolution

/-! ## The rules -/

/-- A reference that is still to be resolved; `depth` tells how many providers opened each other to
give it. -/
structure Mention where
  depth : Nat
  reference : TaskReference

/-- The references that are left, in order, and what they are resolved against. -/
structure Front (σ : Type) where
  left : List Mention
  registry : Registry
  others : σ

def front (task : TaskDefinition) (relationship : Relationship) (registry : Registry) (others : σ) :
    Front σ :=
  ⟨(task.references relationship).map (⟨0, ·⟩), registry, others⟩

/-- What comes of a reference. -/
inductive Event
  /-- It leads to these tasks of the build itself. -/
  | found (tasks : List TaskDefinition)
  /-- The provider is asked for its references. -/
  | opened (provider : ProviderId)
  /-- Another build is asked for its task. -/
  | asked (inquiry : Inquiry) (answer : Except ExportError Unit)

namespace Event

def targets : Event → List Work
  | found tasks => tasks.map .task
  | opened _ => []
  | asked inquiry (.ok ()) => [inquiry.work]
  | asked _ (.error _) => []

def provider? : Event → Option ProviderId
  | opened provider => some provider
  | _ => none

def inquiry? : Event → Option Inquiry
  | asked inquiry _ => some inquiry
  | _ => none

end Event

section Rules

variable (cross : Option (CrossBuild σ)) (referrer : TaskPath) (relationship : Relationship)

/-- The first reference that is left is a good one: what comes of it, and what is left then. -/
inductive Advances : Front σ → Event → Front σ → Prop
  | path {depth : Nat} {text : String} {left : List Mention} {registry : Registry} {others : σ}
      {path : TaskPath} {task : TaskDefinition} (hpath : referrer.resolve? text = some path)
      (htask : registry.get? path = some task) :
      Advances ⟨⟨depth, .path text⟩ :: left, registry, others⟩ (.found [task])
        ⟨left, registry, others⟩
  | pattern {depth : Nat} {glob : Glob} {left : List Mention} {registry : Registry} {others : σ}
      {tasks : List TaskDefinition} (hselects : registry.Selects glob tasks) :
      Advances ⟨⟨depth, .pattern glob⟩ :: left, registry, others⟩ (.found tasks)
        ⟨left, registry, others⟩
  /-- The provider declares its tasks, and its references come before all others that are left. -/
  | provider {depth : Nat} {id : ProviderId} {left : List Mention} {registry registry' : Registry}
      {others : σ} (hdepth : depth < 32)
      (htakes : registry.TakesIn (registry.offer id).tasks registry') :
      Advances ⟨⟨depth, .provider id⟩ :: left, registry, others⟩ (.opened id)
        ⟨(registry.offer id).references.map (⟨depth + 1, ·⟩) ++ left, registry', others⟩
  | own {depth : Nat} {build : BuildId} {path : TaskPath} {left : List Mention}
      {registry : Registry} {others : σ} {task : TaskDefinition} (hbuild : build = registry.build)
      (htask : registry.get? path = some task) :
      Advances ⟨⟨depth, .inBuild build path⟩ :: left, registry, others⟩ (.found [task])
        ⟨left, registry, others⟩
  | foreign {depth : Nat} {build : BuildId} {path : TaskPath} {left : List Mention}
      {registry : Registry} {others others' : σ} {c : CrossBuild σ} {inquiry : Inquiry}
      (hbuild : build ≠ registry.build) (hcross : cross = some c)
      (hinquiry : relationship.inquiry? build path = some inquiry)
      (hanswer : c.answer inquiry others = (.ok (), others')) :
      Advances ⟨⟨depth, .inBuild build path⟩ :: left, registry, others⟩ (.asked inquiry (.ok ()))
        ⟨left, registry, others'⟩

/-- The first reference that is left is bad: what comes of it, the error, and the other builds
then. -/
inductive Fails : Front σ → List Event → GraphError → σ → Prop
  | malformed {depth : Nat} {text : String} {left : List Mention} {registry : Registry} {others : σ}
      (hpath : referrer.resolve? text = none) :
      Fails ⟨⟨depth, .path text⟩ :: left, registry, others⟩ []
        (.configuration referrer.text (.malformedReference text)) others
  | unknown {depth : Nat} {text : String} {left : List Mention} {registry : Registry} {others : σ}
      {path : TaskPath} (hpath : referrer.resolve? text = some path)
      (htask : registry.get? path = none) :
      Fails ⟨⟨depth, .path text⟩ :: left, registry, others⟩ []
        (.configuration referrer.text (.unknownTask path registry.build)) others
  | nested {depth : Nat} {id : ProviderId} {left : List Mention} {registry : Registry} {others : σ}
      (hdepth : 32 ≤ depth) :
      Fails ⟨⟨depth, .provider id⟩ :: left, registry, others⟩ []
        (.configuration referrer.text .nestedProviders) others
  | unknownOwn {depth : Nat} {build : BuildId} {path : TaskPath} {left : List Mention}
      {registry : Registry} {others : σ} (hbuild : build = registry.build)
      (htask : registry.get? path = none) :
      Fails ⟨⟨depth, .inBuild build path⟩ :: left, registry, others⟩ []
        (.configuration referrer.text (.unknownTask path registry.build)) others
  | outsideTree {depth : Nat} {build : BuildId} {path : TaskPath} {left : List Mention}
      {registry : Registry} {others : σ} (hbuild : build ≠ registry.build) (hcross : cross = none) :
      Fails ⟨⟨depth, .inBuild build path⟩ :: left, registry, others⟩ []
        (.configuration referrer.text (.outsideTree path build)) others
  | foreignFinalizer {depth : Nat} {build : BuildId} {path : TaskPath} {left : List Mention}
      {registry : Registry} {others : σ} (hbuild : build ≠ registry.build) (hcross : cross.isSome)
      (hinquiry : relationship.inquiry? build path = none) :
      Fails ⟨⟨depth, .inBuild build path⟩ :: left, registry, others⟩ []
        (.configuration referrer.text (.foreignFinalizer path build registry.build)) others
  /-- The other build does not hand out the task. -/
  | refused {depth : Nat} {build : BuildId} {path : TaskPath} {left : List Mention}
      {registry : Registry} {others others' : σ} {c : CrossBuild σ} {inquiry : Inquiry}
      {refusal : ExportError} (hbuild : build ≠ registry.build) (hcross : cross = some c)
      (hinquiry : relationship.inquiry? build path = some inquiry)
      (hanswer : c.answer inquiry others = (.error refusal, others')) :
      Fails ⟨⟨depth, .inBuild build path⟩ :: left, registry, others⟩
        [.asked inquiry (.error refusal)] (refusal.forReference referrer.text) others'

/-- One good reference after the other is resolved. -/
inductive Runs : Front σ → List Event → Front σ → Prop
  | refl (f : Front σ) : Runs f [] f
  | head {f f' f'' : Front σ} {event : Event} {events : List Event}
      (h : Advances cross referrer relationship f event f') (hrest : Runs f' events f'') :
      Runs f (event :: events) f''

/-- The expansion ends here: nothing is left, or a bad reference is met. -/
inductive Expands (f : Front σ) : List Event → Registry → σ → Option GraphError → Prop
  | done {events : List Event} {registry : Registry} {others : σ}
      (h : Runs cross referrer relationship f events ⟨[], registry, others⟩) :
      Expands f events registry others none
  | fails {events last : List Event} {f' : Front σ} {error : GraphError} {others : σ}
      (h : Runs cross referrer relationship f events f')
      (hfails : Fails cross referrer relationship f' last error others) :
      Expands f (events ++ last) f'.registry others (some error)

end Rules

variable {cross : Option (CrossBuild σ)} {referrer : TaskPath} {relationship : Relationship}
  {f f' f'' : Front σ} {event event' : Event} {events events' last : List Event}
  {error : GraphError} {registry : Registry} {others others' : σ}

/-! ## No rule leaves a choice -/

theorem Advances.unique (h : Advances cross referrer relationship f event f')
    (h' : Advances cross referrer relationship f event' f'') : event' = event ∧ f'' = f' := by
  cases h with
  | pattern hselects =>
    cases h' with
    | pattern hselects' =>
      rw [hselects.unique hselects']
      exact ⟨rfl, rfl⟩
  | provider _ htakes =>
    cases h' with
    | provider _ htakes' =>
      rw [htakes.unique htakes']
      exact ⟨rfl, rfl⟩
  | _ => cases h' <;> simp_all

theorem Fails.unique {last' : List Event} {error' : GraphError}
    (h : Fails cross referrer relationship f last error others)
    (h' : Fails cross referrer relationship f last' error' others') :
    last' = last ∧ error' = error ∧ others' = others := by
  cases h <;> cases h' <;> simp_all

theorem Advances.not_fails (h : Advances cross referrer relationship f event f') :
    ¬ Fails cross referrer relationship f last error others := by
  intro hfails
  cases h with
  | provider hdepth _ =>
    cases hfails with
    | nested hdeep => exact absurd hdepth (Nat.not_lt.2 hdeep)
  | _ => cases hfails <;> simp_all

theorem Runs.append (h : Runs cross referrer relationship f events f')
    (h' : Runs cross referrer relationship f' events' f'') :
    Runs cross referrer relationship f (events ++ events') f'' := by
  induction h with
  | refl => exact h'
  | head hadvances _ ih => exact .head hadvances (ih h')

theorem Expands.prepend (h : Runs cross referrer relationship f events f')
    {stop : Option GraphError}
    (h' : Expands cross referrer relationship f' events' registry others stop) :
    Expands cross referrer relationship f (events ++ events') registry others stop := by
  cases h' with
  | done hrest => exact .done (h.append hrest)
  | fails hrest hfails =>
    rw [← List.append_assoc]
    exact .fails (h.append hrest) hfails

/-- Of two ways from one front, one goes on where the other is. -/
theorem Runs.comparable (h : Runs cross referrer relationship f events f')
    (h' : Runs cross referrer relationship f events' f'') :
    (∃ more, events' = events ++ more ∧ Runs cross referrer relationship f' more f'') ∨
      ∃ more, events = events' ++ more ∧ Runs cross referrer relationship f'' more f' := by
  induction h generalizing events' with
  | refl => exact .inl ⟨events', rfl, h'⟩
  | head hadvances hrest ih =>
    cases h' with
    | refl => exact .inr ⟨_, rfl, .head hadvances hrest⟩
    | head hadvances' hrest' =>
      obtain ⟨rfl, rfl⟩ := hadvances.unique hadvances'
      obtain ⟨more, rfl, hmore⟩ | ⟨more, rfl, hmore⟩ := ih hrest'
      · exact .inl ⟨more, rfl, hmore⟩
      · exact .inr ⟨more, rfl, hmore⟩

/-- No good reference comes first. -/
def Stuck (cross : Option (CrossBuild σ)) (referrer : TaskPath) (relationship : Relationship)
    (f : Front σ) : Prop :=
  ∀ event f', ¬ Advances cross referrer relationship f event f'

theorem stuck_nil : Stuck cross referrer relationship ⟨[], registry, others⟩ := by
  intro event f' h
  cases h

theorem Fails.stuck (h : Fails cross referrer relationship f last error others) :
    Stuck cross referrer relationship f :=
  fun _ _ hadvances => hadvances.not_fails h

theorem Stuck.stays (hstuck : Stuck cross referrer relationship f)
    (h : Runs cross referrer relationship f events f') : events = [] ∧ f' = f := by
  cases h with
  | refl => exact ⟨rfl, rfl⟩
  | head hadvances _ => exact absurd hadvances (hstuck _ _)

theorem Runs.unique (h : Runs cross referrer relationship f events f')
    (hstuck : Stuck cross referrer relationship f')
    (h' : Runs cross referrer relationship f events' f'')
    (hstuck' : Stuck cross referrer relationship f'') : events' = events ∧ f'' = f' := by
  obtain ⟨more, rfl, hmore⟩ | ⟨more, rfl, hmore⟩ := h.comparable h'
  · obtain ⟨rfl, rfl⟩ := hstuck.stays hmore
    exact ⟨List.append_nil _, rfl⟩
  · obtain ⟨rfl, rfl⟩ := hstuck'.stays hmore
    exact ⟨(List.append_nil _).symm, rfl⟩

/-- References expand in one way only. -/
theorem Expands.unique {registry' : Registry} {stop stop' : Option GraphError}
    (h : Expands cross referrer relationship f events registry others stop)
    (h' : Expands cross referrer relationship f events' registry' others' stop') :
    events' = events ∧ registry' = registry ∧ others' = others ∧ stop' = stop := by
  cases h with
  | done hrun =>
    cases h' with
    | done hrun' =>
      obtain ⟨rfl, hend⟩ := hrun.unique stuck_nil hrun' stuck_nil
      cases hend
      exact ⟨rfl, rfl, rfl, rfl⟩
    | fails hrun' hfails' =>
      obtain ⟨-, rfl⟩ := hrun.unique stuck_nil hrun' hfails'.stuck
      cases hfails'
  | fails hrun hfails =>
    cases h' with
    | done hrun' =>
      obtain ⟨-, rfl⟩ := hrun'.unique stuck_nil hrun hfails.stuck
      cases hfails
    | fails hrun' hfails' =>
      obtain ⟨rfl, rfl⟩ := hrun.unique hfails.stuck hrun' hfails'.stuck
      obtain ⟨rfl, rfl, rfl⟩ := hfails.unique hfails'
      exact ⟨rfl, rfl, rfl, rfl⟩

/-! ## The resolver follows the rules -/

/-- What the resolver answers to references, before the `left` ones, is what they expand to. -/
def Follows (cross : Option (CrossBuild σ)) (referrer : TaskPath) (relationship : Relationship)
    (mentions : List Mention) (r : Resolution σ) (answer : Resolution σ × Option GraphError) :
    Prop :=
  ∀ left : List Mention, ∃ events,
    answer.1.targets = r.targets ++ events.flatMap Event.targets ∧
      match answer.2 with
      | none => Runs cross referrer relationship ⟨mentions ++ left, r.registry, r.others⟩ events
          ⟨left, answer.1.registry, answer.1.others⟩
      | some error => Expands cross referrer relationship ⟨mentions ++ left, r.registry, r.others⟩
          events answer.1.registry answer.1.others (some error)

variable {r r' : Resolution σ} {mention : Mention} {depth : Nat} {path : TaskPath} {build : BuildId}

theorem Follows.nil (r : Resolution σ) :
    Follows cross referrer relationship [] r (r, none) :=
  fun _ => ⟨[], by simp, .refl _⟩

/-- A good reference, then those that took its place. -/
theorem Follows.head {mentions : List Mention} {answer : Resolution σ × Option GraphError}
    (h : ∀ left, Advances cross referrer relationship ⟨mention :: left, r.registry, r.others⟩ event
      ⟨mentions ++ left, r'.registry, r'.others⟩)
    (htargets : r'.targets = r.targets ++ event.targets)
    (hrest : Follows cross referrer relationship mentions r' answer) :
    Follows cross referrer relationship [mention] r answer := by
  intro left
  obtain ⟨events, htargets', hrun⟩ := hrest left
  refine ⟨event :: events, ?_, ?_⟩
  · rw [htargets', htargets, List.flatMap_cons, List.append_assoc]
  · cases hstop : answer.2 with
    | none =>
      simp only [hstop] at hrun ⊢
      exact .head (h left) hrun
    | some error =>
      simp only [hstop] at hrun ⊢
      exact .prepend (.head (h left) (.refl _)) hrun

theorem Follows.advances
    (h : ∀ left, Advances cross referrer relationship ⟨mention :: left, r.registry, r.others⟩ event
      ⟨left, r'.registry, r'.others⟩)
    (htargets : r'.targets = r.targets ++ event.targets) :
    Follows cross referrer relationship [mention] r (r', none) :=
  .head h htargets (.nil r')

theorem Follows.fails
    (h : ∀ left, Fails cross referrer relationship ⟨mention :: left, r.registry, r.others⟩
      last error
      r'.others)
    (hregistry : r'.registry = r.registry)
    (htargets : r'.targets = r.targets ++ last.flatMap Event.targets) :
    Follows cross referrer relationship [mention] r (r', some error) := by
  intro left
  refine ⟨last, htargets, ?_⟩
  rw [hregistry]
  exact .fails (.refl _) (h left)

/-- One reference after the other, up to the first that is bad. -/
theorem Follows.each {f : TaskReference → Resolution σ → Resolution σ × Option GraphError}
    {references : List TaskReference}
    (h : ∀ reference ∈ references, ∀ r : Resolution σ,
      Follows cross referrer relationship [⟨depth, reference⟩] r (f reference r))
    (r : Resolution σ) :
    Follows cross referrer relationship (references.map (⟨depth, ·⟩)) r
      (eachUntilError f references r) := by
  induction references generalizing r with
  | nil => exact .nil r
  | cons reference references ih =>
    intro left
    obtain ⟨events, htargets, hrun⟩ :=
      h reference (List.mem_cons_self ..) r (references.map (⟨depth, ·⟩) ++ left)
    rw [eachUntilError]
    cases hf : f reference r with
    | mk r' stop =>
      rw [hf] at htargets hrun
      cases stop with
      | some error => exact ⟨events, htargets, hrun⟩
      | none =>
        obtain ⟨events', htargets', hrun'⟩ :=
          ih (fun reference hmem => h reference (List.mem_cons_of_mem _ hmem)) r' left
        refine ⟨events ++ events', ?_, ?_⟩
        · rw [htargets', htargets, List.flatMap_append, List.append_assoc]
        · cases hstop : (eachUntilError f references r').2 with
          | none =>
            simp only [hstop] at hrun' ⊢
            exact hrun.append hrun'
          | some error =>
            simp only [hstop] at hrun' ⊢
            exact .prepend hrun hrun'

/-- With nothing left after them the references expand. -/
theorem Follows.expands {mentions : List Mention} {answer : Resolution σ × Option GraphError}
    (h : Follows cross referrer relationship mentions r answer) :
    ∃ events, answer.1.targets = r.targets ++ events.flatMap Event.targets ∧
      Expands cross referrer relationship ⟨mentions, r.registry, r.others⟩ events answer.1.registry
        answer.1.others answer.2 := by
  obtain ⟨events, htargets, hrun⟩ := h []
  rw [List.append_nil] at hrun
  refine ⟨events, htargets, ?_⟩
  cases hstop : answer.2 with
  | none =>
    simp only [hstop] at hrun
    exact .done hrun
  | some error =>
    simp only [hstop] at hrun
    exact hrun

theorem targets_foldl_found (tasks : List TaskDefinition) (r : Resolution σ) :
    tasks.foldl (fun r t => r.found (.task t)) r =
      { r with targets := r.targets ++ tasks.map .task } := by
  induction tasks generalizing r with
  | nil => simp
  | cons task tasks ih =>
    rw [List.foldl_cons, ih]
    simp [found]

theorem foundForeign_ok {c : CrossBuild σ} {inquiry : Inquiry}
    (hinquiry : relationship.inquiry? build path = some inquiry)
    (hanswer : c.answer inquiry r.others = (.ok (), others)) :
    r.foundForeign (some c) referrer relationship build path =
      ({ r with others }.found (.foreign build path), none) := by
  cases relationship <;> cases hinquiry <;> rw [CrossBuild.answer] at hanswer <;>
    simp only [foundForeign, hanswer]

theorem foundForeign_error {c : CrossBuild σ} {inquiry : Inquiry} {refusal : ExportError}
    (hinquiry : relationship.inquiry? build path = some inquiry)
    (hanswer : c.answer inquiry r.others = (.error refusal, others)) :
    r.foundForeign (some c) referrer relationship build path =
      ({ r with others }, some (refusal.forReference referrer.text)) := by
  cases relationship <;> cases hinquiry <;> rw [CrossBuild.answer] at hanswer <;>
    simp only [foundForeign, hanswer]

theorem work_of_inquiry? {inquiry : Inquiry}
    (h : relationship.inquiry? build path = some inquiry) : inquiry.work = .foreign build path := by
  cases relationship <;> cases h <;> rfl

theorem foundForeign_follows (r : Resolution σ) (depth : Nat) {build : BuildId} (path : TaskPath)
    (hbuild : build ≠ r.registry.build) :
    Follows cross referrer relationship [⟨depth, .inBuild build path⟩] r
      (r.foundForeign cross referrer relationship build path) := by
  cases cross with
  | none => exact .fails (fun left => .outsideTree hbuild rfl) rfl (by simp)
  | some c =>
    cases hinquiry : relationship.inquiry? build path with
    | none =>
      cases relationship with
      | finalizedBy => exact .fails (fun left => .foreignFinalizer hbuild rfl rfl) rfl (by simp)
      | _ => cases hinquiry
    | some inquiry =>
      cases hanswer : c.answer inquiry r.others with
      | mk answer others =>
        cases answer with
        | ok =>
          rw [foundForeign_ok hinquiry hanswer]
          refine .advances (fun left => .foreign hbuild rfl hinquiry hanswer) ?_
          simp [found, Event.targets, work_of_inquiry? hinquiry]
        | error refusal =>
          rw [foundForeign_error hinquiry hanswer]
          exact .fails (fun left => .refused hbuild rfl hinquiry hanswer) rfl
            (by simp [Event.targets])

theorem foundLocal_follows (r : Resolution σ)
    (hadvances : ∀ task, r.registry.get? path = some task → ∀ left,
      Advances cross referrer relationship ⟨mention :: left, r.registry, r.others⟩ (.found [task])
        ⟨left, r.registry, r.others⟩)
    (hfails : r.registry.get? path = none → ∀ left,
      Fails cross referrer relationship ⟨mention :: left, r.registry, r.others⟩ []
        (.configuration referrer.text (.unknownTask path r.registry.build)) r.others) :
    Follows cross referrer relationship [mention] r (r.foundLocal referrer path) := by
  rw [foundLocal]
  cases htask : r.registry.get? path with
  | some task => exact .advances (hadvances task htask) rfl
  | none => exact .fails (hfails htask) rfl (by simp)

/-- The resolver follows the rules at a reference that is not to a provider, however deep it is. -/
theorem flatReference_follows (fuel depth : Nat) {reference : TaskReference} (r : Resolution σ)
    (hflat : ∀ id, reference ≠ .provider id) :
    Follows cross referrer relationship [⟨depth, reference⟩] r
      (resolveReference cross referrer relationship fuel reference r) := by
  cases reference with
  | provider id => exact absurd rfl (hflat id)
  | path text =>
    rw [resolveReference]
    cases hpath : referrer.resolve? text with
    | none => exact .fails (fun left => .malformed hpath) rfl (by simp)
    | some path =>
      exact foundLocal_follows r (fun task htask left => .path hpath htask)
        fun htask left => .unknown hpath htask
  | pattern glob =>
    rw [resolveReference, targets_foldl_found]
    exact .advances (fun left => .pattern (r.registry.selects_matching glob)) rfl
  | inBuild build path =>
    rw [resolveReference]
    split
    · exact foundLocal_follows r (fun task htask left => .own (by assumption) htask)
        fun htask left => .unknownOwn (by assumption) htask
    · exact foundForeign_follows r depth path (by assumption)

/-- The resolver follows the rules at one reference. Induction is on how many providers may still
open one in the other. -/
theorem resolveReference_follows (fuel : Nat) (hdepth : depth + fuel = 32)
    (reference : TaskReference) (r : Resolution σ) :
    Follows cross referrer relationship [⟨depth, reference⟩] r
      (resolveReference cross referrer relationship fuel reference r) := by
  induction fuel generalizing depth reference r with
  | zero =>
    cases reference with
    | provider id => exact .fails (fun left => .nested (by omega)) rfl (by simp)
    | _ => exact flatReference_follows _ _ r fun id he => by cases he
  | succ fuel ih =>
    cases reference with
    | provider id =>
      have hrest : Follows cross referrer relationship
          ((r.registry.ask id).2.map (⟨depth + 1, ·⟩)) { r with registry := (r.registry.ask id).1 }
          (resolveReference cross referrer relationship (fuel + 1) (.provider id) r) :=
        .each (fun reference _ r => ih (by omega) reference r) _
      have hadvances : ∀ left, Advances cross referrer relationship
          ⟨⟨depth, .provider id⟩ :: left, r.registry, r.others⟩ (.opened id)
          ⟨(r.registry.ask id).2.map (⟨depth + 1, ·⟩) ++ left, (r.registry.ask id).1,
            r.others⟩ := by
        intro left
        rw [Registry.references_ask]
        exact .provider (by omega) (r.registry.ask_takesIn id)
      exact .head hadvances (List.append_nil _).symm hrest
    | _ => exact flatReference_follows _ _ r fun id he => by cases he

/-! ## What an expansion does -/

def consult (cross : Option (CrossBuild σ)) (others : σ) (inquiry : Inquiry) : σ :=
  match cross with
  | some c => (c.answer inquiry others).2
  | none => others

def providers (events : List Event) : List ProviderId := events.filterMap Event.provider?

def inquiries (events : List Event) : List Inquiry := events.filterMap Event.inquiry?

def offered (registry : Registry) (events : List Event) : List TaskDefinition :=
  (providers events).flatMap fun id => (registry.offer id).tasks

/-- What was done on the way between two fronts: the tasks of the providers were declared, the other
builds took notice of what they were asked, and nothing but that. -/
structure Traces (cross : Option (CrossBuild σ)) (relationship : Relationship) (registry : Registry)
    (others : σ) (events : List Event) (registry' : Registry) (others' : σ) : Prop where
  declared : registry.TakesIn (offered registry events) registry'
  consulted : others' = (inquiries events).foldl (consult cross) others
  asked : ∀ inquiry ∈ inquiries events, ∃ build path, build ≠ registry.build ∧
    relationship.inquiry? build path = some inquiry

theorem Advances.traces (h : Advances cross referrer relationship f event f') :
    Traces cross relationship f.registry f.others [event] f'.registry f'.others := by
  cases h with
  | @provider _ id _ _ _ _ _ htakes =>
    refine ⟨?_, rfl, fun _ hmem => absurd hmem List.not_mem_nil⟩
    simpa [offered, providers, Event.provider?] using htakes
  | foreign hbuild hcross hinquiry hanswer =>
    refine ⟨.nil _, by simp [inquiries, Event.inquiry?, consult, hcross, hanswer], ?_⟩
    intro inquiry hmem
    cases List.mem_singleton.1 hmem
    exact ⟨_, _, hbuild, hinquiry⟩
  | _ => exact ⟨.nil _, rfl, fun _ hmem => absurd hmem List.not_mem_nil⟩

theorem Fails.traces (h : Fails cross referrer relationship f last error others) :
    Traces cross relationship f.registry f.others last f.registry others := by
  cases h with
  | refused hbuild hcross hinquiry hanswer =>
    refine ⟨.nil _, by simp [inquiries, Event.inquiry?, consult, hcross, hanswer], ?_⟩
    intro inquiry hmem
    cases List.mem_singleton.1 hmem
    exact ⟨_, _, hbuild, hinquiry⟩
  | _ => exact ⟨.nil _, rfl, fun _ hmem => absurd hmem List.not_mem_nil⟩

theorem Traces.append {registry' registry'' : Registry} {others'' : σ}
    (h : Traces cross relationship registry others events registry' others')
    (h' : Traces cross relationship registry' others' events' registry'' others'') :
    Traces cross relationship registry others (events ++ events') registry'' others'' where
  declared := by
    have hoffered : offered registry (events ++ events') =
        offered registry events ++ offered registry' events' := by
      simp only [offered, providers, List.filterMap_append, List.flatMap_append,
        h.declared.offer_eq]
    rw [hoffered]
    exact h.declared.append h'.declared
  consulted := by
    rw [h'.consulted, h.consulted, inquiries, inquiries, inquiries, List.filterMap_append,
      List.foldl_append]
  asked := by
    intro inquiry hmem
    rw [inquiries, List.filterMap_append, List.mem_append] at hmem
    rcases hmem with hmem | hmem
    · exact h.asked inquiry hmem
    · exact h.declared.build_eq ▸ h'.asked inquiry hmem

theorem Runs.traces (h : Runs cross referrer relationship f events f') :
    Traces cross relationship f.registry f.others events f'.registry f'.others := by
  induction h with
  | refl => exact ⟨.nil _, rfl, fun _ hmem => absurd hmem List.not_mem_nil⟩
  | head hadvances _ ih => exact hadvances.traces.append ih

theorem Expands.traces {stop : Option GraphError}
    (h : Expands cross referrer relationship f events registry others stop) :
    Traces cross relationship f.registry f.others events registry others := by
  cases h with
  | done hrun => exact hrun.traces
  | fails hrun hfails => exact hrun.traces.append hfails.traces

/-- An error is the referring task's, but for another build's own that it no longer takes
requests. -/
theorem Fails.blames (h : Fails cross referrer relationship f last error others) :
    (∃ fault, error = .configuration referrer.text fault) ∨
      ∃ inquiry build phase, .asked inquiry (.error (.closed build phase)) ∈ last ∧
        error = (ExportError.closed build phase).toGraphError := by
  cases h with
  | @refused _ _ _ _ _ _ _ _ inquiry refusal =>
    cases refusal with
    | unknownBuild build => exact .inl ⟨_, rfl⟩
    | missing path build => exact .inl ⟨_, rfl⟩
    | closed build phase =>
      exact .inr ⟨inquiry, build, phase, List.mem_singleton_self _, rfl⟩
  | _ => exact .inl ⟨_, rfl⟩

theorem Expands.blames {stop : Option GraphError}
    (h : Expands cross referrer relationship f events registry others stop) (error : GraphError)
    (hstop : stop = some error) :
    (∃ fault, error = .configuration referrer.text fault) ∨
      ∃ inquiry build phase, .asked inquiry (.error (.closed build phase)) ∈ events ∧
        error = (ExportError.closed build phase).toGraphError := by
  cases h with
  | done _ => cases hstop
  | fails _ hfails =>
    cases hstop
    refine hfails.blames.imp_right ?_
    rintro ⟨inquiry, build, phase, hmem, herror⟩
    exact ⟨inquiry, build, phase, List.mem_append_right _ hmem, herror⟩

/-- The references expand without an error just if no bad reference is met. -/
theorem Expands.eq_none_iff {stop : Option GraphError}
    (h : Expands cross referrer relationship f events registry others stop) :
    stop = none ↔ ∀ events f', Runs cross referrer relationship f events f' →
      ∀ last error others, ¬ Fails cross referrer relationship f' last error others := by
  constructor
  · rintro rfl events f' hrun last error others hfails
    obtain ⟨-, -, -, hstop⟩ := h.unique (.fails hrun hfails)
    cases hstop
  · intro hgood
    cases h with
    | done _ => rfl
    | fails hrun hfails => exact absurd hfails (hgood _ _ hrun _ _ _)

/-- A hard dependency requests, an ordering observes. -/
theorem inquiry?_eq_some {inquiry : Inquiry} (h : relationship.inquiry? build path = some inquiry) :
    inquiry = .request build path ∧ relationship = .dependency ∨
      inquiry = .observe build path ∧
        (relationship = .mustRunAfter ∨ relationship = .shouldRunAfter) := by
  cases relationship <;> simp_all [Relationship.inquiry?]

/-- What the resolver answers to the references of a relationship, told by what came of one after
the other. -/
structure Expanded (cross : Option (CrossBuild σ)) (task : TaskDefinition)
    (relationship : Relationship)
    (registry : Registry) (others : σ) (answer : Resolution σ × Option GraphError)
    (events : List Event) : Prop where
  expands : Expands cross task.path relationship (front task relationship registry others) events
    answer.1.registry answer.1.others answer.2
  /-- The rules allow of nothing else. -/
  only : ∀ {events' registry' others' stop'},
    Expands cross task.path relationship (front task relationship registry others) events' registry'
      others' stop' →
    events' = events ∧ registry' = answer.1.registry ∧ others' = answer.1.others ∧ stop' = answer.2
  targets : answer.1.targets = events.flatMap Event.targets
  /-- The tasks of the providers that were asked are declared, first come, first served. -/
  declared : ∀ path, answer.1.registry.get? path =
    (registry.get? path).or ((offered registry events).find? (·.path = path))
  kept : answer.1.registry.build = registry.build ∧ answer.1.registry.providers = registry.providers
  consulted : answer.1.others = (inquiries events).foldl (consult cross) others
  asked : ∀ inquiry ∈ inquiries events, ∃ build path, build ≠ registry.build ∧
    (inquiry = .request build path ∧ relationship = .dependency ∨
      inquiry = .observe build path ∧
        (relationship = .mustRunAfter ∨ relationship = .shouldRunAfter))
  succeeds : answer.2 = none ↔ ∀ events f,
    Runs cross task.path relationship (front task relationship registry others) events f →
      ∀ last error others, ¬ Fails cross task.path relationship f last error others
  /-- An error names the task, unless another build no longer takes requests. -/
  blames : ∀ error, answer.2 = some error →
    (∃ fault, error = .configuration task.path.text fault) ∨
      ∃ inquiry build phase, .asked inquiry (.error (.closed build phase)) ∈ events ∧
        error = (ExportError.closed build phase).toGraphError

/-- Resolving the references of a relationship expands them from left to right. -/
theorem resolve_expands (cross : Option (CrossBuild σ)) (task : TaskDefinition)
    (relationship : Relationship) (registry : Registry) (others : σ) :
    ∃ events, Expanded cross task relationship registry others
      (resolve cross task relationship registry others) events := by
  have hfollows : Follows cross task.path relationship
      ((task.references relationship).map (⟨0, ·⟩)) ⟨registry, others, []⟩
      (resolve cross task relationship registry others) :=
    .each (fun reference _ r => resolveReference_follows maxProviderDepth rfl reference r) _
  obtain ⟨events, htargets, hexpands⟩ := hfollows.expands
  have htraces := hexpands.traces
  refine ⟨events, hexpands, hexpands.unique, htargets, htraces.declared.get?_eq,
    ⟨htraces.declared.build_eq, htraces.declared.providers_eq⟩, htraces.consulted, ?_,
    hexpands.eq_none_iff, hexpands.blames⟩
  intro inquiry hmem
  obtain ⟨build, path, hbuild, hinquiry⟩ := htraces.asked inquiry hmem
  exact ⟨build, path, hbuild, inquiry?_eq_some hinquiry⟩

/-- A provider that gives a task, which it declares, and itself again is asked 32 times. -/
example :
    let (r, stop) := resolve (none : Option (CrossBuild Unit))
      { TaskDefinition.plain ⟨":", "a"⟩ with dependsOn := [.provider 0] } .dependency
      ((Registry.empty ⟨"main"⟩).provide 0 ⟨[.plain ⟨":", "b"⟩], [.path "b", .provider 0]⟩) ()
    r.targets.map Work.key = List.replicate 32 (.task ⟨":", "b"⟩) ∧
      stop = some (.configuration ":a" .nestedProviders) := by
  decide +kernel

end Resolution

end Foreman
