import Mathlib.Data.List.Infix
import Foreman.Mutations

/-!
# Places, spellings and conflicts

A file path denotes a location: the steps to it, from the root of the file system or from the
working directory, with dots and empty steps left out (`FilePath.location`). Overlap is read off the
segments, in which the dot that opens a relative path still counts. So it is the relation of the
locations except in two cases: a path that opens with a dot and one that does not are told apart
(`SpelledApart`), and the empty path is above every absolute one (`BlankBeside`).
`FilePath.overlap_iff` says so for two paths, `conflicts_read_off` for two declarations.
-/

namespace Foreman

/-! ## Locations -/

/-- Where a file lies: the steps to it, from the root or from the working directory. -/
structure Location where
  absolute : Bool
  steps : List (List Char)
  deriving DecidableEq

/-- One location is the other or lies above it. -/
def Location.Meets (a b : Location) : Prop :=
  a.absolute = b.absolute ∧ (a.steps <+: b.steps ∨ b.steps <+: a.steps)

instance (a b : Location) : Decidable (a.Meets b) :=
  inferInstanceAs (Decidable (_ = _ ∧ (_ <+: _ ∨ _ <+: _)))

/-! ## Overlap -/

theorem overlap_comm (a b : List Segment) : overlap a b = overlap b a := Bool.or_comm ..

theorem overlap_cons (s : Segment) (a b : List Segment) :
    overlap (s :: a) (s :: b) = overlap a b := by
  simp [overlap]

theorem overlap_cons_of_ne {s t : Segment} (h : s ≠ t) (a b : List Segment) :
    overlap (s :: a) (t :: b) = false := by
  simp [overlap, List.isPrefixOf, h, h.symm]

theorem nil_overlap (a : List Segment) : overlap [] a = true := by
  simp [overlap]

theorem overlap_nil (a : List Segment) : overlap a [] = true := by
  simp [overlap]

namespace FilePath

def steps (p : FilePath) : List (List Char) :=
  (p.text.toList.splitOn '/').filter fun piece => piece ≠ [] ∧ piece ≠ ['.']

def location (p : FilePath) : Location := ⟨p.text.toList.head? = some '/', p.steps⟩

/-- The first piece is a lone dot, as in "./build". -/
def OpensWithDot (p : FilePath) : Prop := (p.text.toList.splitOn '/').head? = some ['.']

instance (p : FilePath) : Decidable p.OpensWithDot := inferInstanceAs (Decidable (_ = _))

/-! ## Segments -/

theorem pieces_eq_splitOn (cs : List Char) : pieces cs = cs.splitOn '/' := by
  induction cs with
  | nil => rfl
  | cons c cs ih =>
    rw [pieces, List.splitOn, List.splitOnP_cons_eq_if_modifyHead, ← List.splitOn, ih]
    by_cases hc : c = '/'
    · simp [hc]
    · cases hs : cs.splitOn '/' with
      | nil => exact absurd hs (List.splitOn_ne_nil _ _)
      | cons piece pieces => simp [hc]

def ofStep (step : List Char) : Segment :=
  if step = ['.', '.'] then .parent else .name (String.ofList step)

theorem ofStep_injective : Function.Injective ofStep := by
  intro a b h
  unfold ofStep at h
  split at h <;> split at h
  · simp_all
  · cases h
  · cases h
  · exact String.ofList_injective (Segment.name.inj h)

theorem ofPiece_eq (piece : List Char) :
    Segment.ofPiece piece = if piece ≠ [] ∧ piece ≠ ['.'] then some (ofStep piece) else none := by
  unfold Segment.ofPiece
  split
  · rfl
  · rfl
  · rfl
  · next hnil hdot hdots => rw [if_pos ⟨hnil, hdot⟩, ofStep, if_neg hdots]

theorem segments_eq (p : FilePath) :
    p.segments = opening p.text.toList ++ p.steps.map ofStep := by
  rw [segments, steps, pieces_eq_splitOn]
  congr 1
  induction p.text.toList.splitOn '/' with
  | nil => rfl
  | cons piece pieces ih =>
    rw [List.filterMap_cons, ofPiece_eq, List.filter_cons, ih]
    by_cases h : piece ≠ [] ∧ piece ≠ ['.'] <;> simp [h]

/-! ## How a path opens -/

theorem splitOn_slash_cons (c : Char) (cs : List Char) :
    (c :: cs).splitOn '/' =
      if c = '/' then [] :: cs.splitOn '/' else (cs.splitOn '/').modifyHead (c :: ·) := by
  rw [List.splitOn, List.splitOnP_cons_eq_if_modifyHead]
  simp only [beq_iff_eq, List.splitOn]

theorem head?_splitOn_eq_nil_iff (cs : List Char) :
    (cs.splitOn '/').head? = some [] ↔ cs = [] ∨ cs.head? = some '/' := by
  cases cs with
  | nil => simp
  | cons c cs => by_cases hc : c = '/' <;> simp [splitOn_slash_cons, hc]

theorem head?_splitOn_eq_dot_iff (cs : List Char) :
    (cs.splitOn '/').head? = some ['.'] ↔ cs = ['.'] ∨ ∃ rest, cs = '.' :: '/' :: rest := by
  cases cs with
  | nil => simp
  | cons c cs =>
    rw [splitOn_slash_cons]
    by_cases hc : c = '/'
    · simp [hc]
    · have hnil := head?_splitOn_eq_nil_iff cs
      cases cs <;> simp_all [and_comm]

/-- The four ways in which a path can open. -/
inductive Opened (p : FilePath) : Prop
  | slash (absolute : p.location.absolute = true) (dotless : ¬ p.OpensWithDot)
      (written : p.text ≠ "") (segments : p.segments = .root :: p.steps.map ofStep)
  | dot (relative : p.location.absolute = false) (dotted : p.OpensWithDot) (written : p.text ≠ "")
      (segments : p.segments = .here :: p.steps.map ofStep)
  | blank (relative : p.location.absolute = false) (dotless : ¬ p.OpensWithDot)
      (blank : p.text = "") (steps : p.steps = []) (segments : p.segments = [])
  | step (relative : p.location.absolute = false) (dotless : ¬ p.OpensWithDot)
      (written : p.text ≠ "") (steps : p.steps ≠ []) (segments : p.segments = p.steps.map ofStep)

theorem text_ne_empty {p : FilePath} {c : Char} {cs : List Char} (h : p.text.toList = c :: cs) :
    p.text ≠ "" := by
  rintro hempty
  simp [hempty] at h

/-- The first piece of a path that opens with a name is a step. -/
theorem steps_ne_nil {p : FilePath} (hslash : p.text.toList.head? ≠ some '/')
    (hdot : ¬ p.OpensWithDot) (hne : p.text.toList ≠ []) : p.steps ≠ [] := by
  have hnil : (p.text.toList.splitOn '/').head? ≠ some [] := fun h =>
    ((head?_splitOn_eq_nil_iff _).mp h).elim hne hslash
  unfold OpensWithDot at hdot
  unfold steps
  cases hpieces : p.text.toList.splitOn '/' with
  | nil => exact absurd hpieces (List.splitOn_ne_nil _ _)
  | cons piece pieces =>
    rw [hpieces, List.head?_cons] at hnil hdot
    have hpiece : piece ≠ [] ∧ piece ≠ ['.'] := by simp_all
    simp [hpiece]

theorem opened (p : FilePath) : p.Opened := by
  have hsegments := p.segments_eq
  have hdot := head?_splitOn_eq_dot_iff p.text.toList
  rw [← OpensWithDot] at hdot
  unfold opening at hsegments
  split at hsegments
  · next rest hp =>
    exact .slash (by simp [location, hp]) (by simp [hdot, hp]) (text_ne_empty hp) hsegments
  · next hp => exact .dot (by simp [location, hp]) (by simp [hdot, hp]) (text_ne_empty hp) hsegments
  · next rest hp =>
    exact .dot (by simp [location, hp]) (by simp [hdot, hp]) (text_ne_empty hp) hsegments
  · next hslash hlone hopen =>
    have hdotless : ¬ p.OpensWithDot := by
      rw [hdot]
      rintro (h | ⟨rest, h⟩)
      · exact hlone h
      · exact hopen rest h
    by_cases hempty : p.text = ""
    · exact .blank (by simp [location, hempty]) hdotless hempty (by simp [steps, hempty])
        (by simpa [steps, hempty] using hsegments)
    · have hhead : p.text.toList.head? ≠ some '/' := fun h => by
        obtain ⟨rest, hrest⟩ := List.head?_eq_some_iff.mp h
        exact hslash rest hrest
      exact .step (by simp [location, hhead]) hdotless hempty
        (steps_ne_nil hhead hdotless (mt String.toList_eq_nil_iff.mp hempty)) hsegments

/-! ## Overlap of two paths -/

/-- Of two written paths, one opens with a dot and the other does not. -/
def SpelledApart (p q : FilePath) : Prop :=
  p.text ≠ "" ∧ q.text ≠ "" ∧ ¬ (p.OpensWithDot ↔ q.OpensWithDot)

instance (p q : FilePath) : Decidable (p.SpelledApart q) :=
  inferInstanceAs (Decidable (_ ≠ _ ∧ _ ≠ _ ∧ ¬ (_ ↔ _)))

/-- One path is empty and the other absolute. -/
def BlankBeside (p q : FilePath) : Prop :=
  p.text = "" ∧ q.location.absolute = true ∨ q.text = "" ∧ p.location.absolute = true

theorem overlap_map_ofStep (a b : List (List Char)) :
    overlap (a.map ofStep) (b.map ofStep) = true ↔ a <+: b ∨ b <+: a := by
  simp only [overlap, Bool.or_eq_true, List.isPrefixOf_iff_prefix,
    List.prefix_map_iff_of_injective ofStep_injective]

/-- No step is a slash or a lone dot. -/
theorem ne_ofStep {s : Segment} (hs : s = .root ∨ s = .here) (step : List Char) :
    s ≠ ofStep step := by
  unfold ofStep
  rcases hs with rfl | rfl <;> split <;> simp

theorem cons_ne_map_ofStep {s : Segment} (hs : s = .root ∨ s = .here) (a : List Segment)
    (b : List (List Char)) : s :: a ≠ b.map ofStep := by
  cases b with
  | nil => simp
  | cons step b => simp [ne_ofStep hs step]

theorem overlap_cons_map_ofStep {s : Segment} (hs : s = .root ∨ s = .here) (a : List Segment)
    {b : List (List Char)} (hb : b ≠ []) : overlap (s :: a) (b.map ofStep) = false := by
  obtain ⟨step, steps, rfl⟩ := List.exists_cons_of_ne_nil hb
  exact overlap_cons_of_ne (ne_ofStep hs step) _ _

theorem overlap_map_ofStep_cons {s : Segment} (hs : s = .root ∨ s = .here) (a : List Segment)
    {b : List (List Char)} (hb : b ≠ []) : overlap (b.map ofStep) (s :: a) = false := by
  rw [overlap_comm, overlap_cons_map_ofStep hs a hb]

/-- The segments of two paths overlap when their locations do, unless the two are spelled apart, or
when one is empty and the other absolute. -/
theorem overlap_iff (p q : FilePath) :
    overlap p.segments q.segments = true ↔
      p.location.Meets q.location ∧ ¬ SpelledApart p q ∨ BlankBeside p q := by
  have hsteps : p.location.steps = p.steps := rfl
  have hsteps' : q.location.steps = q.steps := rfl
  unfold Location.Meets SpelledApart BlankBeside
  cases p.opened <;> cases q.opened <;>
    simp_all [overlap_cons, overlap_cons_of_ne, overlap_nil, nil_overlap, overlap_map_ofStep,
      overlap_cons_map_ofStep, overlap_map_ofStep_cons]

/-- Two spellings of one location that a footprint does not tell apart. -/
def Alike (p q : FilePath) : Prop :=
  p.location = q.location ∧ (p.OpensWithDot ↔ q.OpensWithDot)

theorem segments_eq_iff (p q : FilePath) : p.segments = q.segments ↔ p.Alike q := by
  have hlocation : p.location = q.location ↔
      p.location.absolute = q.location.absolute ∧ p.steps = q.steps := by
    rw [location, location, Location.mk.injEq]
  unfold Alike
  rw [hlocation]
  cases p.opened <;> cases q.opened <;>
    simp_all [ofStep_injective.list_map.eq_iff, cons_ne_map_ofStep, (cons_ne_map_ofStep _ _ _).symm]

end FilePath

/-! ## Footprints -/

namespace Places

theorem mem_ofList {segments : List Segment} {paths : List FilePath} :
    segments ∈ ofList paths ↔ ∃ p ∈ paths, p.segments = segments := by
  have hfold (places : Places) : segments ∈ paths.foldl (fun s p => s.insert p.segments p) places ↔
      segments ∈ places ∨ ∃ p ∈ paths, p.segments = segments := by
    induction paths generalizing places with
    | nil => simp
    | cons p paths ih =>
      rw [List.foldl_cons, ih, Std.TreeMap.mem_insert, Std.LawfulEqCmp.compare_eq_iff_eq,
        List.exists_mem_cons_iff]
      tauto
  rw [ofList, hfold]
  simp

theorem overlaps_iff (a b : Places) :
    a.overlaps b = true ↔ ∃ s ∈ a, ∃ t ∈ b, overlap s t = true := by
  have hmem (places : Places) (s : List Segment) : s ∈ places ↔ ∃ p ∈ places.toList, p.1 = s := by
    rw [← Std.TreeMap.mem_keys, ← Std.TreeMap.map_fst_toList_eq_keys, List.mem_map]
  simp only [overlaps, List.any_eq_true, hmem]
  constructor
  · rintro ⟨p, hp, q, hq, h⟩
    exact ⟨p.1, ⟨p, hp, rfl⟩, q.1, ⟨q, hq, rfl⟩, h⟩
  · rintro ⟨s, ⟨p, hp, rfl⟩, t, ⟨q, hq, rfl⟩, h⟩
    exact ⟨p, hp, q, hq, h⟩

theorem overlaps_ofList (paths paths' : List FilePath) :
    (ofList paths).overlaps (ofList paths') = true ↔
      ∃ p ∈ paths, ∃ q ∈ paths', overlap p.segments q.segments = true := by
  simp only [overlaps_iff, mem_ofList]
  constructor
  · rintro ⟨_, ⟨p, hp, rfl⟩, _, ⟨q, hq, rfl⟩, h⟩
    exact ⟨p, hp, q, hq, h⟩
  · rintro ⟨p, hp, q, hq, h⟩
    exact ⟨_, ⟨p, hp, rfl⟩, _, ⟨q, hq, rfl⟩, h⟩

theorem overlaps_comm (a b : Places) : a.overlaps b = b.overlaps a := by
  rw [Bool.eq_iff_iff, overlaps_iff, overlaps_iff]
  constructor
  · rintro ⟨s, hs, t, ht, h⟩
    exact ⟨t, ht, s, hs, overlap_comm s t ▸ h⟩
  · rintro ⟨s, hs, t, ht, h⟩
    exact ⟨t, ht, s, hs, overlap_comm s t ▸ h⟩

end Places

theorem Footprint.conflicts_comm (a b : Footprint) : a.conflicts b = b.conflicts a := by
  rw [conflicts, conflicts, Places.overlaps_comm a.destroyed, Places.overlaps_comm a.produced,
    Bool.or_comm]

namespace Mutations

variable {m m' n : Mutations} {node node' name : String} {f f' g : Footprint}

/-- The paths that a task leaves behind. -/
def produced (m : Mutations) : List FilePath := m.outputs ++ m.localState

/-- The one path is destroyed on one side, and the other produced on the other side. -/
def Opposed (m m' : Mutations) (p q : FilePath) : Prop :=
  p ∈ m.destroys ∧ q ∈ m'.produced ∨ p ∈ m.produced ∧ q ∈ m'.destroys

theorem places_of_footprint (h : m.footprint node = .ok f) :
    f.produced = .ofList m.produced ∧ f.destroyed = .ofList m.destroys := by
  unfold footprint at h
  split at h
  · cases h
  · cases h
    exact ⟨rfl, rfl⟩

theorem conflicts_iff_overlap (hf : m.footprint node = .ok f) (hf' : m'.footprint node' = .ok f') :
    f.conflicts f' = true ↔
      ∃ p q, m.Opposed m' p q ∧ overlap p.segments q.segments = true := by
  obtain ⟨hproduced, hdestroyed⟩ := places_of_footprint hf
  obtain ⟨hproduced', hdestroyed'⟩ := places_of_footprint hf'
  rw [Footprint.conflicts, hproduced, hdestroyed, hproduced', hdestroyed', Bool.or_eq_true,
    Places.overlaps_ofList, Places.overlaps_ofList]
  constructor
  · rintro (⟨p, hp, q, hq, h⟩ | ⟨p, hp, q, hq, h⟩)
    · exact ⟨p, q, .inl ⟨hp, hq⟩, h⟩
    · exact ⟨p, q, .inr ⟨hp, hq⟩, h⟩
  · rintro ⟨p, q, ⟨hp, hq⟩ | ⟨hp, hq⟩, h⟩
    · exact .inl ⟨p, hp, q, hq, h⟩
    · exact .inr ⟨p, hp, q, hq, h⟩

/-- The paths on both sides can be matched so that no footprint tells them apart. -/
def SpelledLike (paths paths' : List FilePath) : Prop :=
  (∀ p ∈ paths, ∃ q ∈ paths', p.Alike q) ∧ ∀ q ∈ paths', ∃ p ∈ paths, p.Alike q

/-- Two declarations that differ in the order and the spelling of their paths. -/
structure Respelled (m n : Mutations) : Prop where
  produced : SpelledLike m.produced n.produced
  destroys : SpelledLike m.destroys n.destroys

theorem Respelled.symm (h : m.Respelled n) : n.Respelled m := by
  have halike {p q : FilePath} (hpq : p.Alike q) : q.Alike p := ⟨hpq.1.symm, hpq.2.symm⟩
  have hlike {paths paths' : List FilePath} (hl : SpelledLike paths paths') :
      SpelledLike paths' paths :=
    ⟨fun p hp => (hl.2 p hp).imp fun _ hq => ⟨hq.1, halike hq.2⟩,
      fun q hq => (hl.1 q hq).imp fun _ hp => ⟨hp.1, halike hp.2⟩⟩
  exact ⟨hlike h.produced, hlike h.destroys⟩

theorem Opposed.respelled {p q : FilePath} (h : m.Opposed m' p q) (hmn : m.Respelled n) :
    ∃ p', p.Alike p' ∧ n.Opposed m' p' q := by
  rcases h with ⟨hp, hq⟩ | ⟨hp, hq⟩
  · obtain ⟨p', hp', halike⟩ := hmn.destroys.1 p hp
    exact ⟨p', halike, .inl ⟨hp', hq⟩⟩
  · obtain ⟨p', hp', halike⟩ := hmn.produced.1 p hp
    exact ⟨p', halike, .inr ⟨hp', hq⟩⟩

theorem conflicts_of_respelled (hf : m.footprint node = .ok f) (hf' : m'.footprint node' = .ok f')
    (hg : n.footprint name = .ok g) (hmn : m.Respelled n) (h : f.conflicts f' = true) :
    g.conflicts f' = true := by
  obtain ⟨p, q, hopposed, hoverlap⟩ := (conflicts_iff_overlap hf hf').mp h
  obtain ⟨p', halike, hopposed'⟩ := hopposed.respelled hmn
  rw [(FilePath.segments_eq_iff p p').mpr halike] at hoverlap
  exact (conflicts_iff_overlap hg hf').mpr ⟨p', q, hopposed', hoverlap⟩

/-- There are locations that meet, but all their paths are spelled apart. -/
def Missed (m m' : Mutations) : Prop :=
  (∃ p q, m.Opposed m' p q ∧ p.location.Meets q.location) ∧
    ∀ p q, m.Opposed m' p q → (p.location.Meets q.location → p.SpelledApart q) ∧ ¬ p.BlankBeside q

/-- No locations meet, but an empty path is opposed to an absolute one. -/
def Invented (m m' : Mutations) : Prop :=
  (∃ p q, m.Opposed m' p q ∧ p.BlankBeside q) ∧
    ∀ p q, m.Opposed m' p q → ¬ p.location.Meets q.location

/-- Which declarations conflict. The relation is symmetric and does not depend on the order of the
paths, nor on spellings in which only inner and closing dots and slashes differ. It is read off the
segments, so it is the relation of the locations just if nothing is missed, because one side opens
its paths with a dot and the other does not, and nothing is invented, because of an empty path. -/
theorem conflicts_read_off (hf : m.footprint node = .ok f) (hf' : m'.footprint node' = .ok f') :
    f.conflicts f' = f'.conflicts f ∧
    (f.conflicts f' = true ↔ ∃ p q, m.Opposed m' p q ∧
      (p.location.Meets q.location ∧ ¬ p.SpelledApart q ∨ p.BlankBeside q)) ∧
    ((f.conflicts f' = true ↔ ∃ p q, m.Opposed m' p q ∧ p.location.Meets q.location) ↔
      ¬ m.Missed m' ∧ ¬ m.Invented m') ∧
    ∀ (n : Mutations) (name : String) (g : Footprint), n.footprint name = .ok g → m.Respelled n →
      f.conflicts f' = g.conflicts f' := by
  have hread : f.conflicts f' = true ↔ ∃ p q, m.Opposed m' p q ∧
      (p.location.Meets q.location ∧ ¬ p.SpelledApart q ∨ p.BlankBeside q) := by
    simp only [conflicts_iff_overlap hf hf', FilePath.overlap_iff]
  refine ⟨Footprint.conflicts_comm f f', hread, ?exact, ?respelled⟩
  case exact =>
    rw [hread]
    constructor
    · intro h
      constructor
      · rintro ⟨hmeet, hmissed⟩
        obtain ⟨p, q, hopposed, hoverlap⟩ := h.mpr hmeet
        rcases hoverlap with ⟨hmeets, hapart⟩ | hblank
        · exact hapart ((hmissed p q hopposed).1 hmeets)
        · exact (hmissed p q hopposed).2 hblank
      · rintro ⟨⟨p, q, hopposed, hblank⟩, hapart⟩
        obtain ⟨p', q', hopposed', hmeets⟩ := h.mp ⟨p, q, hopposed, .inr hblank⟩
        exact hapart p' q' hopposed' hmeets
    · rintro ⟨hmissed, hinvented⟩
      constructor
      · rintro ⟨p, q, hopposed, ⟨hmeets, -⟩ | hblank⟩
        · exact ⟨p, q, hopposed, hmeets⟩
        · by_contra hnone
          exact hinvented
            ⟨⟨p, q, hopposed, hblank⟩, fun p' q' h hmeets => hnone ⟨p', q', h, hmeets⟩⟩
      · intro hmeet
        by_contra hnone
        refine hmissed ⟨hmeet, fun p q hopposed => ⟨fun hmeets => ?_, fun hblank => ?_⟩⟩
        · by_contra hapart
          exact hnone ⟨p, q, hopposed, .inl ⟨hmeets, hapart⟩⟩
        · exact hnone ⟨p, q, hopposed, .inr hblank⟩
  case respelled =>
    intro n name g hg hmn
    rw [Bool.eq_iff_iff]
    exact ⟨conflicts_of_respelled hf hf' hg hmn, conflicts_of_respelled hg hf' hf hmn.symm⟩

theorem build_conflicts_read_off :
    ∃ clean compile : Footprint,
      (⟨[], [], [], [⟨"build//"⟩, ⟨"/tmp"⟩]⟩ : Mutations).footprint ":clean" = .ok clean ∧
      (⟨[⟨"docs"⟩, ⟨"build/./classes"⟩], [], [], []⟩ : Mutations).footprint ":compile" =
      .ok compile ∧ clean.conflicts compile = true ∧ compile.conflicts clean = true := by
  have hclean : (⟨[], [], [], [⟨"build//"⟩, ⟨"/tmp"⟩]⟩ : Mutations).footprint ":clean" = .ok _ :=
    rfl
  have hcompile :
      (⟨[⟨"docs"⟩, ⟨"build/./classes"⟩], [], [], []⟩ : Mutations).footprint ":compile" = .ok _ :=
      rfl
  have hmeets : (⟨"build//"⟩ : FilePath).location.Meets (⟨"build/./classes"⟩ : FilePath).location :=
    by decide
  have hopposed : Opposed ⟨[], [], [], [⟨"build//"⟩, ⟨"/tmp"⟩]⟩
      ⟨[⟨"docs"⟩, ⟨"build/./classes"⟩], [], [], []⟩ ⟨"build//"⟩ ⟨"build/./classes"⟩ :=
    .inl ⟨by decide, by decide⟩
  obtain ⟨hsymm, hread, -, -⟩ := conflicts_read_off hclean hcompile
  have hconflict := hread.mpr ⟨_, _, hopposed, .inl ⟨hmeets, by decide⟩⟩
  exact ⟨_, _, rfl, rfl, hconflict, hsymm ▸ hconflict⟩

/-- A task that destroys "./build" is free to run beside one that writes "build/classes". -/
theorem dotted_destroyer_missed :
    ∃ clean compile : Footprint,
      (⟨[], [], [], [⟨"./build"⟩]⟩ : Mutations).footprint ":clean" = .ok clean ∧
      (⟨[⟨"build/classes"⟩], [], [], []⟩ : Mutations).footprint ":compile" = .ok compile ∧
      (⟨"./build"⟩ : FilePath).location.Meets (⟨"build/classes"⟩ : FilePath).location ∧
      clean.conflicts compile = false ∧ compile.conflicts clean = false :=
  ⟨_, _, rfl, rfl, by decide, by decide, by decide⟩

end Mutations

end Foreman
