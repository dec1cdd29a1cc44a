import Foreman.Proofs.BuildTree.Rounds
import Foreman.Proofs.WorkGraph.Charging

/-!
# What a tree of builds is to run

A task is due in its build when it is required there or the next batch asks for it. A hard
dependency on a task of another build makes it due there, an order does not (`crossBuild_charges`).
From what the callers of a tree asked for follows what else is to run, and what of it is required
(`Entailed`).
-/

namespace Foreman

namespace Controller

variable {c c' : Controller} {path p : TaskPath}

/-! ## Tasks that are due -/

/-- The task is required in the run, or the next batch asks for it. -/
def isDue (c : Controller) (path : TaskPath) : Bool :=
  c.queued.contains path || c.graph.isRequired path

theorem isDue_iff : c.isDue path = true ↔ path ∈ c.queued ∨ c.graph.isRequired path = true := by
  rw [isDue, Bool.or_eq_true, Std.TreeSet.mem_iff_contains]

theorem isDue_congr (hqueued : c'.queued = c.queued) (hnodes : c'.graph.nodes = c.graph.nodes) :
    c'.isDue path = c.isDue path := by
  rw [isDue, isDue, hqueued, WorkGraph.isRequired_congr hnodes]

theorem isDue_want (c : Controller) (path p : TaskPath) :
    (c.want path).isDue p = true ↔ c.isDue p = true ∨ p = path := by
  rw [want]
  split
  · rename_i hr
    refine ⟨.inl, ?_⟩
    rintro (h | rfl)
    · exact h
    · exact isDue_iff.2 (.inr hr)
  · simp only [isDue_iff, Std.TreeSet.mem_insert, Std.LawfulEqCmp.compare_eq_iff_eq,
      eq_comm (a := path)]
    tauto

theorem isDue_exportTask (hstate : c.state = .discoveringTasks) (hok : c.exportTask path = .ok c') :
    c'.state = c.state ∧ ∀ p, c'.isDue p = true ↔ c.isDue p = true ∨ p = path := by
  obtain ⟨g, hg, rfl⟩ := eq_of_exportTask hok
  rw [if_pos hstate]
  refine ⟨(BuildTree.preserved_want _ path).state, fun p => ?_⟩
  have hsame : isDue { c with graph := g } p = c.isDue p :=
    isDue_congr rfl (WorkGraph.handOut_spec hg).nodes
  rw [isDue_want, hsame]

theorem isDue_observeTask (hok : c.observeTask path = .ok c') :
    c'.state = c.state ∧ ∀ p, c'.isDue p = true ↔ c.isDue p = true := by
  obtain ⟨g, hg, rfl⟩ := eq_of_observeTask hok
  have hsame : ∀ p, isDue { c with graph := g } p = c.isDue p :=
    fun p => isDue_congr rfl (WorkGraph.handOut_spec hg).nodes
  exact ⟨rfl, fun p => by rw [hsame]⟩

end Controller

namespace BuildTree

variable {t t' : BuildTree} {builds others : Std.TreeMap BuildId Controller} {b d : BuildId}
  {c c' : Controller} {path p : TaskPath}

def isDue (builds : Std.TreeMap BuildId Controller) (task : TreeTask) : Bool :=
  (builds[task.1]?).any (·.isDue task.2)

theorem isDue_eq (hc : builds[b]? = some c) : isDue builds (b, p) = c.isDue p := by
  rw [isDue, hc]
  rfl

theorem isDue_insert_ne (hd : d ≠ b) : isDue (builds.insert b c) (d, p) = isDue builds (d, p) := by
  rw [isDue, isDue, getElem?_insert_ne hd]

theorem isDue_insert_self : isDue (builds.insert b c) (b, p) = c.isDue p :=
  isDue_eq Std.TreeMap.getElem?_insert_self

def AllDiscovering (builds : Std.TreeMap BuildId Controller) : Prop :=
  ∀ (b : BuildId) (c : Controller), builds[b]? = some c → c.state = .discoveringTasks

theorem AllSound.allDiscovering (h : AllSound builds) : AllDiscovering builds :=
  fun b c hc => (h b c hc).state

/-- Asking a build for a task makes due what asking its controller makes due. -/
theorem askController_charges (ask : Controller → TaskPath → Except ExportError Controller)
    (makes : Prop) (hask : ∀ c path c', c.state = .discoveringTasks → ask c path = .ok c' →
      c'.state = c.state ∧ ∀ p, c'.isDue p = true ↔ c.isDue p = true ∨ makes ∧ p = path)
    (build : BuildId) (path : TaskPath) (h : AllDiscovering builds) :
    AllDiscovering (askController ask build path builds).2 ∧
      ∀ b p, isDue (askController ask build path builds).2 (b, p) = true ↔
        isDue builds (b, p) = true ∨
        makes ∧ (askController ask build path builds).1 = .ok () ∧ b = build ∧ p = path := by
  rw [askController]
  cases hc : builds[build]? with
  | none => exact ⟨h, by simp⟩
  | some c =>
    dsimp only
    cases hok : ask c path with
    | error e => exact ⟨h, by simp⟩
    | ok c' =>
      obtain ⟨hstate, hdue⟩ := hask c path c' (h build c hc) hok
      refine ⟨fun d e he => ?_, fun b p => ?_⟩
      · by_cases hd : d = build
        · subst hd
          rw [Std.TreeMap.getElem?_insert_self, Option.some.injEq] at he
          subst he
          exact hstate.trans (h d c hc)
        · rw [getElem?_insert_ne hd] at he
          exact h d e he
      · by_cases hb : b = build
        · subst hb
          rw [isDue_insert_self, hdue, isDue_eq hc]
          simp
        · rw [isDue_insert_ne hb]
          simp [hb]

/-- Asked for a hard dependency a build makes the task due, for an order it does not. -/
theorem crossBuild_charges :
    crossBuild.Charges AllDiscovering fun builds b p => isDue builds (b, p) = true where
  request build path others h := by
    have hask := askController_charges Controller.exportTask True
      (fun c path c' hstate hok => by simpa using Controller.isDue_exportTask hstate hok)
      build path h
    simpa [crossBuild] using hask
  observe build path others h := by
    have hask := askController_charges Controller.observeTask False
      (fun c path c' hstate hok => by simpa using Controller.isDue_observeTask hok) build path h
    simpa [crossBuild] using hask

/-! ## What is entailed -/

/-- What is to run where the callers have asked for these tasks, and whether as something required:
what those depend on, also in other builds, and what finalizes it. An order alone entails
nothing. -/
inductive Entailed (builds : Std.TreeMap BuildId Controller) (called : List TreeTask) :
    Bool → BuildId → NodeKey → Prop
  | called {b : BuildId} {p : TaskPath} (h : (b, p) ∈ called) :
      Entailed builds called true b (.task p)
  | dependency {required : Bool} {b : BuildId} {c : Controller} {x y : NodeKey}
      (h : Entailed builds called required b x) (hc : builds[b]? = some c)
      (hr : c.graph.Refers x .dependency y) : Entailed builds called required b y
  | finalizer {required : Bool} {b : BuildId} {c : Controller} {x y : NodeKey}
      (h : Entailed builds called required b x) (hc : builds[b]? = some c)
      (hr : c.graph.Refers x .finalizedBy y) : Entailed builds called false b y
  | foreign {required : Bool} {b d : BuildId} {c : Controller} {x : NodeKey} {p : TaskPath}
      (h : Entailed builds called required b x) (hc : builds[b]? = some c)
      (hr : c.graph.Refers x .dependency (.foreign d p)) : Entailed builds called true d (.task p)

variable {builds' : Std.TreeMap BuildId Controller} {called called' : List TreeTask} {key : NodeKey}
  {roots : List TaskPath}

theorem Entailed.mono {required : Bool} (h : Entailed builds called required b key)
    (hbuilds : ∀ (b : BuildId) (c : Controller), builds[b]? = some c →
      ∃ c', builds'[b]? = some c' ∧ c.graph.Forward c'.graph) (hcalled : called ⊆ called') :
    Entailed builds' called' required b key := by
  induction h with
  | called h => exact .called (hcalled h)
  | dependency _ hc hr ih =>
    obtain ⟨c', hc', hf⟩ := hbuilds _ _ hc
    exact ih.dependency hc' (hf.refers hr)
  | finalizer _ hc hr ih =>
    obtain ⟨c', hc', hf⟩ := hbuilds _ _ hc
    exact ih.finalizer hc' (hf.refers hr)
  | foreign _ hc hr ih =>
    obtain ⟨c', hc', hf⟩ := hbuilds _ _ hc
    exact ih.foreign hc' (hf.refers hr)

/-- What entailed tasks reach in a graph is entailed. -/
theorem entailed_of_pulled (hc : builds[b]? = some c)
    (hroots : ∀ p ∈ roots, Entailed builds called true b (.task p))
    (h : WorkGraph.Reached c.graph.Pulls roots key) :
    ∃ required, Entailed builds called required b key :=
  h.induct (P := fun key => ∃ required, Entailed builds called required b key)
    (fun p hp => ⟨true, hroots p hp⟩) fun _ _ ⟨required, hx⟩ hr =>
      hr.elim (fun hr => ⟨required, hx.dependency hc hr⟩) fun hr => ⟨false, hx.finalizer hc hr⟩

theorem entailed_of_needed (hc : builds[b]? = some c)
    (hroots : ∀ p ∈ roots, Entailed builds called true b (.task p))
    (h : WorkGraph.Reached c.graph.Needs roots key) : Entailed builds called true b key :=
  h.induct hroots fun _ _ hx hr => hx.dependency hc hr

end BuildTree

end Foreman
