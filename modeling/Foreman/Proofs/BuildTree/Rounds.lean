import Foreman.Proofs.BuildTree.Soliciting

/-!
# The rounds in which a tree is scheduled

A tree is scheduled in rounds, in each of which every build has its turn. A round takes some graph
further or leaves no request behind, and no graph can be taken further than the tree has room for.
So the rounds come to their end (`Bounded.rests`), and when they do without an error no request is
left (`Rests.queued`). What was found in the turns tells then what the graphs are
(`Explored.scheduleRounds`).
-/

namespace Foreman

namespace BuildTree

variable {t₀ t t' : BuildTree} {builds start : Std.TreeMap BuildId Controller} {b d : BuildId}
  {c c' : Controller} {path : TaskPath} {log : List Finding}

/-! ## The findings of a tree -/

def buildFindings (build : BuildId) (t : BuildTree) : List Finding :=
  match t.controller? build with
  | none => []
  | some c => c.findings (some crossBuild) t.builds

def roundFindings : List BuildId → BuildTree × Bool → List Finding
  | [], _ => []
  | build :: builds, state =>
    buildFindings build state.1 ++
      match scheduleBuild build state with
      | (state, none) => roundFindings builds state
      | (_, some _) => []

def roundsFindings : Nat → BuildTree → List Finding
  | 0, _ => []
  | fuel + 1, t =>
    roundFindings t.builds.keys (t, false) ++
      match eachUntilError scheduleBuild t.builds.keys (t, false) with
      | ((t, true), none) => roundsFindings fuel t
      | _ => []

def scheduleFindings (t : BuildTree) : List Finding := roundsFindings (t.growthBound + 1) t

/-! ## Scheduling one build -/

/-- The builds were only asked for tasks. -/
def AllSolicited (start builds : Std.TreeMap BuildId Controller) : Prop :=
  ∀ b : BuildId, Option.Rel Controller.Solicited start[b]? builds[b]?

theorem AllSolicited.refl (builds : Std.TreeMap BuildId Controller) :
    AllSolicited builds builds := by
  intro b
  cases builds[b]? with
  | none => exact .none
  | some c => exact .some (.refl c)

theorem AllSolicited.insert (h : AllSolicited start builds) (hc : builds[b]? = some c)
    (hs : Controller.Solicited c c') : AllSolicited start (builds.insert b c') := by
  intro d
  by_cases hd : d = b
  · subst hd
    have hrel := h d
    rw [hc] at hrel
    obtain ⟨c₀, hc₀, hold⟩ := exists_of_rel_some hrel
    rw [Std.TreeMap.getElem?_insert_self, hc₀]
    exact .some (hold.trans hs)
  · rw [getElem?_insert_ne hd]
    exact h d

theorem askController_solicited {ask : Controller → TaskPath → Except ExportError Controller}
    (hask : ∀ c path c', ask c path = .ok c' → Controller.Solicited c c') (own : BuildId)
    (start : Std.TreeMap BuildId Controller) :
    Keeps (askController ask) own (AllSolicited start) fun _ _ _ => True := by
  intro build _ path others h
  refine ⟨?_, fun _ _ _ => trivial, fun _ => trivial⟩
  rw [askController]
  cases hd : others[build]? with
  | none => exact h
  | some d =>
    simp only
    cases hd' : ask d path with
    | error e => exact h
    | ok d' => exact h.insert hd (hask d path d' hd')

theorem crossBuild_solicited (own : BuildId) (start : Std.TreeMap BuildId Controller) :
    crossBuild.Keeps own (AllSolicited start) fun _ _ _ => True :=
  ⟨askController_solicited (fun _ _ _ => Controller.exportTask_solicited) own start,
    askController_solicited (fun _ _ _ => Controller.observeTask_solicited) own start⟩

/-- While a graph is scheduled the builds of the tree are only asked. -/
theorem schedule_solicited (t : BuildTree) {g : WorkGraph} (hs : g.Sound fun _ _ => True)
    (paths : List TaskPath) :
    AllSolicited t.builds (WorkGraph.schedule (some crossBuild) paths (g, t.builds)).2.2 := by
  have hstart : WorkGraph.Grown g.build (AllSolicited t.builds) (fun _ _ _ => True) t.builds
      g.exports (g, t.builds) := ⟨rfl, rfl, hs, .refl _, fun _ _ _ => trivial⟩
  exact (hstart.schedule (of_crossBuild (crossBuild_solicited _ t.builds)) paths).others

/-- Scheduling one build asks the others. -/
theorem scheduleQueued_solicited (t : BuildTree) (hopen : c.Open)
    (hs : c.graph.Sound fun _ _ => True) :
    AllSolicited t.builds (c.scheduleQueued (some crossBuild) t.builds).2.2 := by
  rw [Controller.scheduleQueued_eq _ _ hopen.state]
  split
  · exact .refl _
  · exact schedule_solicited t hs c.batch

theorem scheduleBuild_eq (hc : t.builds[b]? = some c) (grown : Bool) :
    scheduleBuild b (t, grown) =
      let answer := c.scheduleQueued (some crossBuild) t.builds
      let t' := { t with builds := answer.2.2.insert b answer.2.1 }
      match answer.1 with
      | .ok more => ((t', grown || more), none)
      | .error e => ((t', grown), some e) := by
  rw [scheduleBuild]
  have hc' : t.controller? b = some c := hc
  simp only [hc', withOthers]
  generalize c.scheduleQueued (some crossBuild) t.builds = answer
  obtain ⟨result, c', others⟩ := answer
  cases result <;> rfl

theorem scheduleBuild_eq_of_none (hc : t.builds[b]? = none) (grown : Bool) :
    scheduleBuild b (t, grown) = ((t, grown), none) := by
  have hc' : t.controller? b = none := hc
  rw [scheduleBuild]
  simp only [hc']

/-! ## What a turn leaves of the builds -/

theorem AllSound.sound_true (h : AllSound builds) (hc : builds[b]? = some c) :
    c.graph.Sound fun _ _ => True := (h b c hc).graph.mono fun _ _ _ => trivial

/-- What becomes of each build when one of them takes a new controller, among others that were asked
for tasks. -/
theorem rel_insert {R R' : Controller → Controller → Prop} (hsol : AllSolicited t.builds builds)
    (hold : ∀ d : BuildId, Option.Rel R t₀.builds[d]? t.builds[d]?)
    (hown : ∃ c₀, t₀.builds[b]? = some c₀ ∧ R' c₀ c')
    (hothers : ∀ (d : BuildId) c₀ e e', d ≠ b → t.builds[d]? = some e →
      Controller.Solicited e e' → R c₀ e → R' c₀ e') (d : BuildId) :
    Option.Rel R' t₀.builds[d]? (builds.insert b c')[d]? := by
  by_cases hd : d = b
  · subst hd
    obtain ⟨c₀, hc₀, hown⟩ := hown
    rw [Std.TreeMap.getElem?_insert_self, hc₀]
    exact .some hown
  · have hrel := hold d
    have hasked := hsol d
    rw [getElem?_insert_ne hd]
    cases he : t.builds[d]? with
    | none =>
      rw [he] at hrel hasked
      rw [eq_none_of_rel_none hrel, eq_none_of_none_rel hasked]
      exact .none
    | some e =>
      rw [he] at hrel hasked
      obtain ⟨c₀, hc₀, hrel⟩ := exists_of_rel_some hrel
      obtain ⟨e', he', hasked⟩ := exists_of_some_rel hasked
      rw [hc₀, he']
      exact .some (hothers d c₀ e e' hd he hasked hrel)

theorem tree_scheduleBuild (hc : t.builds[b]? = some c) (grown : Bool) :
    (scheduleBuild b (t, grown)).1.1 =
      (t.withOthers b c (Controller.scheduleQueued (some crossBuild))).2 := by
  rw [scheduleBuild_eq hc, withOthers]
  generalize c.scheduleQueued (some crossBuild) t.builds = answer
  obtain ⟨result, c', others⟩ := answer
  cases result <;> rfl

/-- A tree whose builds have come no further than the tree `t₀` has room for. -/
structure Bounded (t₀ t : BuildTree) : Prop where
  sound : AllSound t.builds
  builds : ∀ b : BuildId, Option.Rel
    (fun c₀ c => c.Open ∧ c.graph.Drawn c₀.graph.supply) t₀.builds[b]? t.builds[b]?

theorem Bounded.exists (h : Bounded t₀ t) (hc : t.builds[b]? = some c) :
    ∃ c₀, t₀.builds[b]? = some c₀ ∧ c.Open ∧ c.graph.Drawn c₀.graph.supply := by
  have hrel := h.builds b
  rw [hc] at hrel
  exact exists_of_rel_some hrel

theorem Bounded.scheduleBuild (h : Bounded t₀ t) (b : BuildId) (grown : Bool) :
    Bounded t₀ (BuildTree.scheduleBuild b (t, grown)).1.1 := by
  cases hc : t.builds[b]? with
  | none =>
    rw [scheduleBuild_eq_of_none hc]
    exact h
  | some c =>
    obtain ⟨c₀, hc₀, hopen, hdrawn⟩ := h.exists hc
    have hsol := scheduleQueued_solicited t hopen (h.sound.sound_true hc)
    have hsound := h.sound.scheduleQueued hc
    have hnext := (Controller.scheduleQueued_spec (some crossBuild) t.builds hopen).1
    have hroom := Controller.drawn_scheduleQueued (some crossBuild) t.builds hopen hdrawn
    rw [tree_scheduleBuild hc]
    simp only [withOthers] at hsound ⊢
    generalize c.scheduleQueued (some crossBuild) t.builds = answer at hsol hnext hroom hsound ⊢
    obtain ⟨result, c', others⟩ := answer
    refine ⟨hsound, rel_insert hsol h.builds ⟨c₀, hc₀, hnext, hroom⟩ ?_⟩
    rintro d e₀ e e' - - hasked ⟨hopen, hdrawn⟩
    refine ⟨hopen.solicited hasked, hdrawn.congr (.of_nodes hasked.nodes) ?_⟩
    rw [hasked.registry]
    exact .refl

/-! ## The rounds end -/

def standingOf (t : BuildTree) (b : BuildId) : Nat := (t.builds[b]?).elim 0 (·.graph.standing)

theorem standingOf_eq (hc : t.builds[b]? = some c) : t.standingOf b = c.graph.standing := by
  rw [standingOf, hc]
  rfl

/-- Going over some builds either left no request behind in them and changed no other, or it took a
graph further and says so. -/
structure Furthered (names : List BuildId) (state state' : BuildTree × Bool) : Prop where
  standing : ∀ d, state.1.standingOf d ≤ state'.1.standingOf d
  quiet_or_grown : (state'.2 = state.2 ∧
      (∀ d : BuildId, d ∉ names → state'.1.builds[d]? = state.1.builds[d]?) ∧
      ∀ (d : BuildId) (c : Controller), d ∈ names → state'.1.builds[d]? = some c →
        c.queued.isEmpty = true) ∨
    state'.2 = true ∧ ∃ d, state.1.standingOf d < state'.1.standingOf d

theorem Furthered.trans {names : List BuildId} {state state' state'' : BuildTree × Bool}
    (h : Furthered [b] state state') (h' : Furthered names state' state'') :
    Furthered (b :: names) state state'' where
  standing d := Nat.le_trans (h.standing d) (h'.standing d)
  quiet_or_grown := by
    rcases h'.quiet_or_grown with ⟨hflag', hsame', hquiet'⟩ | ⟨hflag', d, hd⟩
    · rcases h.quiet_or_grown with ⟨hflag, hsame, hquiet⟩ | ⟨hflag, d, hd⟩
      · refine .inl ⟨hflag'.trans hflag, fun d hd => ?_, fun d c hd hc => ?_⟩
        · rw [List.mem_cons, not_or] at hd
          exact (hsame' d hd.2).trans (hsame d (by simpa using hd.1))
        · by_cases hmem : d ∈ names
          · exact hquiet' d c hmem hc
          · have hdb : d ∈ [b] := by simpa [hmem] using hd
            exact hquiet d c hdb ((hsame' d hmem).symm.trans hc)
      · exact .inr ⟨hflag'.trans hflag, d, Nat.lt_of_lt_of_le hd (h'.standing d)⟩
    · exact .inr ⟨hflag', d, Nat.lt_of_le_of_lt (h.standing d) hd⟩

theorem Furthered.of_missing {grown : Bool} (hc : t.builds[b]? = none) :
    Furthered [b] (t, grown) (t, grown) where
  standing _ := Nat.le_refl _
  quiet_or_grown := by
    refine .inl ⟨rfl, fun _ _ => rfl, fun d c hd hc' => ?_⟩
    rw [List.mem_singleton] at hd
    rw [hd] at hc'
    cases hc.symm.trans hc'

theorem Bounded.furthered (h : Bounded t₀ t) (hc : t.builds[b]? = some c) (grown : Bool)
    {more : Bool} (hok : (c.scheduleQueued (some crossBuild) t.builds).1 = .ok more) :
    Furthered [b] (t, grown) (BuildTree.scheduleBuild b (t, grown)).1 := by
  obtain ⟨_, _, hopen, hdrawn⟩ := h.exists hc
  have hsol := scheduleQueued_solicited t hopen (h.sound.sound_true hc)
  have hgrown := hopen.grown (some crossBuild) hdrawn.wired.distinct hok
  rw [scheduleBuild_eq hc]
  simp only [hok]
  generalize c.scheduleQueued (some crossBuild) t.builds = answer at hsol hgrown ⊢
  obtain ⟨result, c', others⟩ := answer
  have hothers : ∀ d : BuildId, d ≠ b → t.standingOf d ≤
      BuildTree.standingOf { t with builds := others.insert b c' } d := by
    intro d hd
    have hasked := hsol d
    rw [standingOf, standingOf]
    dsimp only
    rw [getElem?_insert_ne hd]
    cases he : t.builds[d]? with
    | none => exact Nat.zero_le _
    | some e =>
      rw [he] at hasked
      obtain ⟨e', he', hasked⟩ := exists_of_some_rel hasked
      rw [he', Option.elim_some, Option.elim_some, hasked.graph]
      exact Nat.le_refl _
  have hnew : BuildTree.standingOf { t with builds := others.insert b c' } b = c'.graph.standing :=
    standingOf_eq Std.TreeMap.getElem?_insert_self
  rcases hgrown with ⟨_, rfl, hsame⟩ | ⟨rfl, hlt⟩
  · cases hsame
    refine ⟨fun d => ?_, .inl ⟨Bool.or_false _, fun d hd => ?_, fun d e hd he => ?_⟩⟩
    · by_cases hd : d = b
      · subst hd
        rw [hnew, standingOf_eq hc]
      · exact hothers d hd
    · exact getElem?_insert_ne (by simpa using hd)
    · rw [List.mem_singleton.1 hd] at he
      simp only [Std.TreeMap.getElem?_insert_self, Option.some.injEq] at he
      subst he
      rfl
  · refine ⟨fun d => ?_, .inr ⟨Bool.or_true _, b, ?_⟩⟩
    · by_cases hd : d = b
      · subst hd
        rw [hnew, standingOf_eq hc]
        exact Nat.le_of_lt hlt
      · exact hothers d hd
    · rw [hnew, standingOf_eq hc]
      exact hlt

/-- One round over some builds; induction is on the builds. -/
theorem Bounded.round (h : Bounded t₀ t) (names : List BuildId) (grown : Bool)
    (hok : (eachUntilError BuildTree.scheduleBuild names (t, grown)).2 = none) :
    Bounded t₀ (eachUntilError BuildTree.scheduleBuild names (t, grown)).1.1 ∧
      Furthered names (t, grown) (eachUntilError BuildTree.scheduleBuild names (t, grown)).1 := by
  induction names generalizing t grown with
  | nil =>
    exact ⟨h, fun _ => Nat.le_refl _,
      .inl ⟨rfl, fun _ _ => rfl, fun _ _ hd => absurd hd List.not_mem_nil⟩⟩
  | cons b names ih =>
    rw [eachUntilError] at hok ⊢
    have hnext := h.scheduleBuild b grown
    have hturn : (BuildTree.scheduleBuild b (t, grown)).2 = none →
        Furthered [b] (t, grown) (BuildTree.scheduleBuild b (t, grown)).1 := by
      intro hnone
      cases hc : t.builds[b]? with
      | none =>
        rw [scheduleBuild_eq_of_none hc]
        exact .of_missing hc
      | some c =>
        cases hres : (c.scheduleQueued (some crossBuild) t.builds).1 with
        | error e =>
          rw [scheduleBuild_eq hc] at hnone
          simp [hres] at hnone
        | ok more => exact h.furthered hc grown hres
    generalize BuildTree.scheduleBuild b (t, grown) = answer at hok hnext hturn ⊢
    obtain ⟨⟨t₁, grown₁⟩, error⟩ := answer
    cases error with
    | some e => cases hok
    | none =>
      obtain ⟨hbounded, hfurthered⟩ := ih hnext grown₁ hok
      exact ⟨hbounded, (hturn rfl).trans hfurthered⟩

def standing (names : List BuildId) (t : BuildTree) : Nat := total t.standingOf names

theorem standing_lt {all : List BuildId} (h : ∀ d, t.standingOf d ≤ t'.standingOf d) (hd : d ∈ all)
    (hlt : t.standingOf d < t'.standingOf d) : t.standing all < t'.standing all :=
  total_add_le_total (k := 1) h hd hlt

/-- No graph comes further than the tree has room for. -/
theorem Bounded.standing_le (h : Bounded t₀ t) : t.standing t₀.builds.keys ≤ t₀.growthBound := by
  rw [growthBound, total_values, standing]
  refine total_le_total (fun b => ?_) _
  rw [standingOf]
  cases hc : t.builds[b]? with
  | none => exact Nat.zero_le _
  | some c =>
    obtain ⟨c₀, hc₀, _, hdrawn⟩ := h.exists hc
    rw [hc₀, Option.elim_some, Option.elim_some]
    have hsize := hdrawn.size_le fun _ hw => WorkGraph.key_mem_supplyKeys hw
    rw [WorkGraph.length_supplyKeys] at hsize
    have hstanding := c.graph.standing_le
    omega

/-- Going over the builds of a tree again and again comes to an end with this answer: some build
fails, or a round finds nothing more to do. -/
inductive Rests : BuildTree → BuildTree × Option GraphError → Prop
  | fails {t t' : BuildTree} {grown : Bool} {e : GraphError}
      (h : eachUntilError BuildTree.scheduleBuild t.builds.keys (t, false) =
        ((t', grown), some e)) :
      Rests t (t', some e)
  | again {t t' : BuildTree} {answer : BuildTree × Option GraphError}
      (h : eachUntilError BuildTree.scheduleBuild t.builds.keys (t, false) = ((t', true), none))
      (hrest : Rests t' answer) : Rests t answer
  | quiet {t t' : BuildTree}
      (h : eachUntilError BuildTree.scheduleBuild t.builds.keys (t, false) = ((t', false), none)) :
      Rests t (t', none)

/-- The rounds come to their end before the fuel does; induction is on the fuel. -/
theorem Bounded.rests (h : Bounded t₀ t) (fuel : Nat)
    (hfuel : t₀.growthBound < fuel + t.standing t₀.builds.keys) :
    Rests t (scheduleRounds fuel t) := by
  induction fuel generalizing t with
  | zero =>
    have := h.standing_le
    omega
  | succ fuel ih =>
    have hround := h.round t.builds.keys false
    rw [scheduleRounds]
    cases hanswer : eachUntilError BuildTree.scheduleBuild t.builds.keys (t, false) with
    | mk state error =>
      obtain ⟨t₁, grown⟩ := state
      rw [hanswer] at hround
      cases error with
      | some e => exact .fails hanswer
      | none =>
        obtain ⟨hbounded, hfurthered⟩ := hround rfl
        cases grown with
        | false => exact .quiet hanswer
        | true =>
          refine .again hanswer (ih hbounded ?_)
          obtain ⟨d, hd⟩ : ∃ d, t.standingOf d < t₁.standingOf d :=
            hfurthered.quiet_or_grown.elim (fun hquiet => absurd hquiet.1 (by simp)) (·.2)
          have hmem : d ∈ t₀.builds.keys := by
            cases hc : t₁.builds[d]? with
            | none => simp [standingOf, hc] at hd
            | some c =>
              obtain ⟨c₀, hc₀, _⟩ := hbounded.exists hc
              rw [Std.TreeMap.mem_keys, Std.TreeMap.mem_iff_isSome_getElem?, hc₀]
              rfl
          have hlt : t.standing t₀.builds.keys < t₁.standing t₀.builds.keys :=
            standing_lt hfurthered.standing hmem hd
          omega

/-- When the rounds end without an error, no request is left. -/
theorem Rests.queued {answer : BuildTree × Option GraphError} (hrest : Rests t answer)
    (h : Bounded t₀ t) (hok : answer.2 = none) (hc : answer.1.builds[b]? = some c) :
    c.queued.isEmpty = true := by
  induction hrest with
  | fails => cases hok
  | @again t t' answer hround _ ih =>
    have hbounded := h.round t.builds.keys false
    rw [hround] at hbounded
    exact ih (hbounded rfl).1 hok hc
  | @quiet t t' hround =>
    have hfurthered := h.round t.builds.keys false
    rw [hround] at hfurthered
    obtain ⟨hbounded, hfurthered⟩ := hfurthered rfl
    obtain ⟨_, _, hquiet⟩ := hfurthered.quiet_or_grown.resolve_right (by simp)
    refine hquiet b c ?_ hc
    obtain ⟨c₀, hc₀, _⟩ := hbounded.exists hc
    have hrel := h.builds b
    rw [hc₀] at hrel
    obtain ⟨c', hc', _⟩ := exists_of_some_rel hrel
    rw [Std.TreeMap.mem_keys, Std.TreeMap.mem_iff_isSome_getElem?, hc']
    rfl

/-! ## What holds between the rounds -/

/-- A tree whose scheduling began as `t₀` and has found what the log says. -/
structure Explored (t₀ : BuildTree) (log : List Finding) (t : BuildTree) : Prop where
  sound : AllSound t.builds
  builds : ∀ b : BuildId, Option.Rel
    (fun c₀ c => Controller.Discovered c₀.graph.registry log c) t₀.builds[b]? t.builds[b]?
  known : ∀ f ∈ log, ∃ c, t.builds[f.build]? = some c
  answers : ∀ f ∈ log, f.IsAnswer (some crossBuild) f.build

theorem Explored.exists (h : Explored t₀ log t) (hc : t.builds[b]? = some c) :
    ∃ c₀, t₀.builds[b]? = some c₀ ∧ Controller.Discovered c₀.graph.registry log c := by
  have hrel := h.builds b
  rw [hc] at hrel
  exact exists_of_rel_some hrel

theorem Explored.bounded (h : Explored t₀ log t) : Bounded t₀ t where
  sound := h.sound
  builds b := by
    have hrel := h.builds b
    cases hc : t.builds[b]? with
    | none =>
      rw [hc] at hrel
      rw [eq_none_of_rel_none hrel]
      exact .none
    | some c =>
      obtain ⟨c₀, hc₀, hdisc⟩ := h.exists hc
      rw [hc₀]
      exact .some ⟨hdisc.isOpen, hdisc.surveyed.tidy.drawn.mono fun work hw =>
        .inl ((hdisc.informed.sameStock.knows_iff work).1 hw)⟩

theorem Explored.scheduleBuild (h : Explored t₀ log t) (hc : t.builds[b]? = some c) (grown : Bool)
    {more : Bool} (hok : (c.scheduleQueued (some crossBuild) t.builds).1 = .ok more) :
    Explored t₀ (log ++ buildFindings b t) (scheduleBuild b (t, grown)).1.1 := by
  obtain ⟨c₀, hc₀, hdisc⟩ := h.exists hc
  have hs := h.sound.sound_true hc
  have hsol := scheduleQueued_solicited t hdisc.isOpen hs
  have hfindings : buildFindings b t = c.findings (some crossBuild) t.builds := by
    rw [buildFindings, show t.controller? b = some c from hc]
  have hnext := (hdisc.scheduleQueued (some crossBuild) hs hok).1
  have hanswers : ∀ f ∈ c.findings (some crossBuild) t.builds, f.IsAnswer (some crossBuild) b :=
    fun f hf => (show c.graph.build = b from (h.sound b c hc).build) ▸
      Controller.isAnswer_of_mem_findings _ hf
  have hbuilds : ∀ f ∈ c.findings (some crossBuild) t.builds, f.build = b :=
    fun f hf => (hanswers f hf).build_eq
  have hsound := h.sound.scheduleQueued hc
  rw [scheduleBuild_eq hc, hfindings]
  simp only [withOthers, hok] at hsound ⊢
  generalize c.scheduleQueued (some crossBuild) t.builds = answer at hsol hnext hsound ⊢
  obtain ⟨result, c', others⟩ := answer
  refine ⟨hsound, rel_insert hsol h.builds ⟨c₀, hc₀, hnext⟩ fun d c₁ e e' hd he hasked hrel => ?_,
    fun f hf => ?_, fun f hf => ?_⟩
  · refine (hrel.append fun f hf => ?_).solicited hasked
    rw [hbuilds f hf]
    exact fun heq => hd (heq.trans (h.sound d e he).build).symm
  · by_cases hd : f.build = b
    · rw [hd]
      exact ⟨c', Std.TreeMap.getElem?_insert_self⟩
    · obtain ⟨e, he⟩ := (List.mem_append.1 hf).elim (h.known f) fun hf => absurd (hbuilds f hf) hd
      have hasked := hsol f.build
      rw [he] at hasked
      obtain ⟨e', he', _⟩ := exists_of_some_rel hasked
      exact ⟨e', (getElem?_insert_ne hd).trans he'⟩
  · rcases List.mem_append.1 hf with hf | hf
    · exact h.answers f hf
    · rw [hbuilds f hf]
      exact hanswers f hf

/-- One round over some builds; induction is on the builds. -/
theorem Explored.round (h : Explored t₀ log t) (names : List BuildId) (grown : Bool)
    (hok : (eachUntilError BuildTree.scheduleBuild names (t, grown)).2 = none) :
    Explored t₀ (log ++ roundFindings names (t, grown))
      (eachUntilError BuildTree.scheduleBuild names (t, grown)).1.1 := by
  induction names generalizing t grown log with
  | nil =>
    rw [roundFindings, List.append_nil]
    exact h
  | cons b names ih =>
    rw [eachUntilError] at hok ⊢
    rw [roundFindings]
    have hstep : ∀ state', BuildTree.scheduleBuild b (t, grown) = (state', none) →
        Explored t₀ (log ++ buildFindings b t) state'.1 := by
      intro state' hs
      cases hc : t.builds[b]? with
      | none =>
        rw [scheduleBuild_eq_of_none hc] at hs
        cases hs
        have hnone : buildFindings b t = [] := by
          rw [buildFindings, show t.controller? b = none from hc]
        rw [hnone, List.append_nil]
        exact h
      | some c =>
        cases hres : (c.scheduleQueued (some crossBuild) t.builds).1 with
        | error e =>
          rw [scheduleBuild_eq hc] at hs
          simp only [hres] at hs
          cases hs
        | ok more =>
          have hexplored := h.scheduleBuild hc grown hres
          rw [hs] at hexplored
          exact hexplored
    generalize BuildTree.scheduleBuild b (t, grown) = answer at hok hstep ⊢
    obtain ⟨⟨t₁, grown₁⟩, error⟩ := answer
    cases error with
    | some e => cases hok
    | none =>
      rw [← List.append_assoc]
      exact ih (hstep _ rfl) grown₁ hok

/-- The rounds leave the graphs what was found; induction is on how many of them there may be. -/
theorem Explored.scheduleRounds (h : Explored t₀ log t) (fuel : Nat)
    (hok : (BuildTree.scheduleRounds fuel t).2 = none) :
    Explored t₀ (log ++ roundsFindings fuel t) (BuildTree.scheduleRounds fuel t).1 := by
  induction fuel generalizing t log with
  | zero =>
    rw [roundsFindings, List.append_nil]
    exact h
  | succ fuel ih =>
    have hround := h.round t.builds.keys false
    rw [BuildTree.scheduleRounds] at hok ⊢
    rw [roundsFindings]
    generalize roundFindings t.builds.keys (t, false) = found at hround ⊢
    generalize eachUntilError BuildTree.scheduleBuild t.builds.keys (t, false) = answer
      at hround hok ⊢
    obtain ⟨⟨t₁, grown⟩, error⟩ := answer
    cases error with
    | some e => cases hok
    | none =>
      cases grown with
      | true =>
        simp only at hok ⊢
        rw [← List.append_assoc]
        exact ih (hround rfl) hok
      | false =>
        simp only [List.append_nil] at hok ⊢
        exact hround rfl

end BuildTree

end Foreman
