import Foreman.Proofs.Registry
import Foreman.Resolution

/-!
# What resolving a reference may do

Resolving asks other builds for tasks and nothing else of them, and what each target that it finds
and each provider that it asks keeps holds at the end (`resolve_keeps`). If asking keeps some
property of the other builds (`Keeps`), so does resolving, every task of another build that it finds
was handed out, and a finalizer is never one of another build (`resolve_sound`). Of its own build it
changes only the declarations, by asking providers (`resolve_informed`).
-/

namespace Foreman

variable {σ : Type}

/-- Asking builds other than `own` keeps a property of the builds and all that they handed out, and
a task that is asked for with success is handed out. -/
def Keeps (ask : BuildId → TaskPath → σ → Except ExportError Unit × σ) (own : BuildId)
    (P : σ → Prop) (H : σ → BuildId → TaskPath → Prop) : Prop :=
  ∀ build ≠ own, ∀ path others, P others →
    P (ask build path others).2 ∧ (∀ b p, H others b p → H (ask build path others).2 b p) ∧
      ((ask build path others).1 = .ok () → H (ask build path others).2 build path)

/-- Both ways of asking keep what holds of the other builds. -/
structure CrossBuild.Keeps (cross : CrossBuild σ) (own : BuildId) (P : σ → Prop)
    (H : σ → BuildId → TaskPath → Prop) : Prop where
  request : Foreman.Keeps cross.request own P H
  observe : Foreman.Keeps cross.observe own P H

/-- There is nothing that asking could break. -/
theorem CrossBuild.keeps_true (cross : CrossBuild σ) (own : BuildId) :
    cross.Keeps own (fun _ => True) fun _ _ _ => True :=
  ⟨fun _ _ _ _ _ => ⟨trivial, fun _ _ _ => trivial, fun _ => trivial⟩,
    fun _ _ _ _ _ => ⟨trivial, fun _ _ _ => trivial, fun _ => trivial⟩⟩

/-- What every step keeps, doing all of them keeps. -/
theorem eachUntilError_keeps {α ε s : Type} {f : α → s → s × Option ε} {Q : s → Prop} {l : List α}
    (hf : ∀ a ∈ l, ∀ st, Q st → Q (f a st).1) {st : s} (h : Q st) :
    Q (eachUntilError f l st).1 := by
  induction l generalizing st with
  | nil => exact h
  | cons a l ih =>
    have ha := hf a (List.mem_cons_self ..) st h
    rw [eachUntilError]
    cases hfa : f a st with
    | mk st' e =>
      rw [hfa] at ha
      cases e with
      | none => exact ih (fun b hb => hf b (List.mem_cons_of_mem a hb)) ha
      | some e => exact ha

namespace Resolution

variable {own : BuildId} {P : σ → Prop} {H : σ → BuildId → TaskPath → Prop} {start : σ}
  {relationship : Relationship} {r : Resolution σ} {cross : Option (CrossBuild σ)}

section Keeping

variable {Q : Resolution σ → Prop} {referrer : TaskPath}

/-- What holds of a resolution is kept by each reference, if it is kept by each target that is found
and by each provider that is asked. Induction is on how deep providers may still open each other. -/
theorem resolveReference_keeps (hlocal : ∀ (r : Resolution σ) task, Q r → Q (r.found (.task task)))
    (hforeign : ∀ (r : Resolution σ) build path, Q r → build ≠ r.registry.build →
      Q (r.foundForeign cross referrer relationship build path).1)
    (hask : ∀ (r : Resolution σ) id, Q r → Q { r with registry := (r.registry.ask id).1 })
    (depth : Nat) (reference : TaskReference) (h : Q r) :
    Q (resolveReference cross referrer relationship depth reference r).1 := by
  have hfound : ∀ (r : Resolution σ) path, Q r → Q (r.foundLocal referrer path).1 := by
    intro r path hr
    rw [foundLocal]
    split
    · exact hlocal r _ hr
    · exact hr
  have hflat : ∀ (depth : Nat) (reference : TaskReference) (r : Resolution σ),
      (∀ id, reference ≠ .provider id) → Q r →
      Q (resolveReference cross referrer relationship depth reference r).1 := by
    intro depth reference r hne hr
    cases reference with
    | path text =>
      rw [resolveReference]
      split
      · exact hfound r _ hr
      · exact hr
    | pattern glob =>
      rw [resolveReference]
      exact List.foldlRecOn _ _ hr fun r hr task _ => hlocal r task hr
    | provider id => exact absurd rfl (hne id)
    | inBuild build path =>
      rw [resolveReference]
      split
      · exact hfound r _ hr
      · exact hforeign r build path hr (by assumption)
  induction depth generalizing reference r with
  | zero =>
    cases reference with
    | provider id => exact h
    | _ => exact hflat _ _ r (fun id he => by cases he) h
  | succ depth ih =>
    cases reference with
    | provider id =>
      rw [resolveReference]
      exact eachUntilError_keeps (fun reference _ r hr => ih reference hr) (hask r id h)
    | _ => exact hflat _ _ r (fun id he => by cases he) h

/-- What holds before a relationship is resolved holds afterwards, if each target that is found and
each provider that is asked keeps it. -/
theorem resolve_keeps {task : TaskDefinition} {registry : Registry} {others : σ}
    (hlocal : ∀ (r : Resolution σ) task, Q r → Q (r.found (.task task)))
    (hforeign : ∀ (r : Resolution σ) build path, Q r → build ≠ r.registry.build →
      Q (r.foundForeign cross task.path relationship build path).1)
    (hask : ∀ (r : Resolution σ) id, Q r → Q { r with registry := (r.registry.ask id).1 })
    (h : Q ⟨registry, others, []⟩) : Q (resolve cross task relationship registry others).1 :=
  eachUntilError_keeps
    (fun reference _ _ hr => resolveReference_keeps hlocal hforeign hask _ reference hr) h

end Keeping

/-- What holds of a resolution under way that began with the builds `start`. -/
structure Sound (own : BuildId) (P : σ → Prop) (H : σ → BuildId → TaskPath → Prop) (start : σ)
    (relationship : Relationship) (r : Resolution σ) : Prop where
  build : r.registry.build = own
  others : P r.others
  grows : ∀ b p, H start b p → H r.others b p
  handed : ∀ b p, Work.foreign b p ∈ r.targets →
    relationship ≠ .finalizedBy ∧ b ≠ own ∧ H r.others b p

theorem Sound.found_task (h : r.Sound own P H start relationship) (task : TaskDefinition) :
    (r.found (.task task)).Sound own P H start relationship :=
  { h with handed := fun b p hb => h.handed b p (by simpa [found] using hb) }

/-- Other builds may change as they are asked. -/
theorem Sound.asked (h : r.Sound own P H start relationship) {others : σ} (hP : P others)
    (hgrow : ∀ b p, H r.others b p → H others b p) :
    ({ r with others } : Resolution σ).Sound own P H start relationship where
  build := h.build
  others := hP
  grows b p hb := hgrow b p (h.grows b p hb)
  handed := by
    intro b p hb
    obtain ⟨hr, hb', hH⟩ := h.handed b p hb
    exact ⟨hr, hb', hgrow b p hH⟩

theorem Sound.found_foreign (h : r.Sound own P H start relationship)
    (hrel : relationship ≠ .finalizedBy) {build : BuildId} {path : TaskPath} (hne : build ≠ own)
    (hH : H r.others build path) :
    (r.found (.foreign build path)).Sound own P H start relationship where
  build := h.build
  others := h.others
  grows := h.grows
  handed := by
    intro b p hb
    rcases List.mem_append.1 hb with hb | hb
    · exact h.handed b p hb
    · rw [List.mem_singleton, Work.foreign.injEq] at hb
      obtain ⟨rfl, rfl⟩ := hb
      exact ⟨hrel, hne, hH⟩

/-- What asking another build in one of the two ways leaves of the resolution. -/
theorem Sound.asked_by {ask : BuildId → TaskPath → σ → Except ExportError Unit × σ}
    (hask : Foreman.Keeps ask own P H) (h : r.Sound own P H start relationship) {build : BuildId}
    (hne : build ≠ own) (path : TaskPath) {result : Except ExportError Unit} {others : σ}
    (hanswer : ask build path r.others = (result, others)) :
    ({ r with others } : Resolution σ).Sound own P H start relationship ∧
      (result = .ok () → H others build path) := by
  obtain ⟨hP, hgrow, hnew⟩ := hask build hne path r.others h.others
  rw [hanswer] at hP hgrow hnew
  exact ⟨h.asked hP hgrow, hnew⟩

theorem Sound.foundForeign (hcross : ∀ c, cross = some c → c.Keeps own P H)
    (h : r.Sound own P H start relationship) (referrer : TaskPath) {build : BuildId}
    (hne : build ≠ own) (path : TaskPath) :
    (r.foundForeign cross referrer relationship build path).1.Sound own P H start relationship := by
  cases cross with
  | none => exact h
  | some cross =>
    have hkeeps := hcross cross rfl
    cases relationship with
    | finalizedBy => exact h
    | dependency =>
      cases hanswer : cross.request build path r.others with
      | mk result others =>
        obtain ⟨hasked, hH⟩ := h.asked_by hkeeps.request hne path hanswer
        simp only [Resolution.foundForeign, hanswer]
        cases result with
        | ok => exact hasked.found_foreign (by simp) hne (hH rfl)
        | error e => exact hasked
    | _ =>
      cases hanswer : cross.observe build path r.others with
      | mk result others =>
        obtain ⟨hasked, hH⟩ := h.asked_by hkeeps.observe hne path hanswer
        simp only [Resolution.foundForeign, hanswer]
        cases result with
        | ok => exact hasked.found_foreign (by simp) hne (hH rfl)
        | error e => exact hasked

theorem resolve_sound (hcross : ∀ c, cross = some c → c.Keeps own P H) (task : TaskDefinition)
    (relationship : Relationship) {registry : Registry} {others : σ} (hbuild : registry.build = own)
    (hP : P others) :
    (resolve cross task relationship registry others).1.Sound own P H others relationship :=
  resolve_keeps (Q := Sound own P H others relationship) (fun _ task hr => hr.found_task task)
    (fun _ _ path hr hne =>
      hr.foundForeign hcross task.path (fun he => hne (he.trans hr.build.symm)) path)
    (fun _ _ hr => { hr with build := (Registry.build_ask _ _).trans hr.build })
    ⟨hbuild, hP, fun _ _ h => h, fun _ _ hb => absurd hb List.not_mem_nil⟩

/-! ## Declarations -/

variable {registry : Registry}

theorem registry_foundForeign (r : Resolution σ) (referrer : TaskPath) (build : BuildId)
    (path : TaskPath) :
    (r.foundForeign cross referrer relationship build path).1.registry = r.registry := by
  cases cross with
  | none => rfl
  | some cross =>
    cases relationship with
    | finalizedBy => rfl
    | dependency =>
      cases hanswer : cross.request build path r.others with
      | mk result others =>
        simp only [foundForeign, hanswer]
        cases result <;> rfl
    | _ =>
      cases hanswer : cross.observe build path r.others with
      | mk result others =>
        simp only [foundForeign, hanswer]
        cases result <;> rfl

theorem resolve_informed (cross : Option (CrossBuild σ)) (task : TaskDefinition)
    (relationship : Relationship) (registry : Registry) (others : σ) :
    registry.Informed (resolve cross task relationship registry others).1.registry := by
  refine resolve_keeps (Q := fun r : Resolution σ => registry.Informed r.registry)
    (fun _ _ hr => hr) (fun r build path hr _ => ?_) (fun _ id hr => hr.tail ⟨id, rfl⟩) .refl
  rw [registry_foundForeign]
  exact hr

end Resolution

end Foreman
