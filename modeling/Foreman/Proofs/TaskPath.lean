import Foreman.Resolution

/-!
# Texts of task paths

Everything that reading a text or resolving a reference can give (`TaskPath.Reachable`) is a
canonical path: an absolute project and a name without a colon (`reachable_iff`). A text reads as
`p` just if `p` is canonical and the text is one of its spellings, which are its own text and, in
the root project, the one with a second colon (`parse?_eq_some_iff`). So the text of a canonical
path reads as that path, from wherever it is referred to (`text_faithful`).
-/

namespace Foreman.TaskPath

/-! ## The last colon -/

theorem cutLastColon_eq_none_iff (cs : List Char) : cutLastColon cs = none ↔ ':' ∉ cs := by
  induction cs with
  | nil => simp [cutLastColon]
  | cons c cs ih =>
    rw [cutLastColon, List.mem_cons, not_or]
    cases hcut : cutLastColon cs with
    | some cut =>
      have hmem : ¬ ':' ∉ cs := fun hcs => by simp [ih.mpr hcs] at hcut
      simp [hmem]
    | none => simp [ih.mp hcut, eq_comm]

theorem cutLastColon_append (before after : List Char) (h : ':' ∉ after) :
    cutLastColon (before ++ ':' :: after) = some (before, after) := by
  induction before with
  | nil => simp [cutLastColon, (cutLastColon_eq_none_iff after).mpr h]
  | cons c before ih => simp [cutLastColon, ih]

theorem cutLastColon_eq_some_iff (cs before after : List Char) :
    cutLastColon cs = some (before, after) ↔ cs = before ++ ':' :: after ∧ ':' ∉ after := by
  constructor
  · intro h
    induction cs generalizing before with
    | nil => cases h
    | cons c cs ih =>
      rw [cutLastColon] at h
      cases hcut : cutLastColon cs with
      | some cut =>
        simp only [hcut, Option.some.injEq, Prod.mk.injEq] at h
        obtain ⟨rfl, rfl⟩ := h
        obtain ⟨hcs, hafter⟩ := ih cut.1 hcut
        exact ⟨congrArg (c :: ·) hcs, hafter⟩
      | none =>
        simp only [hcut] at h
        split at h
        · next hc =>
          simp only [Option.some.injEq, Prod.mk.injEq] at h
          obtain ⟨rfl, rfl⟩ := h
          exact ⟨congrArg (· :: cs) hc, (cutLastColon_eq_none_iff cs).mp hcut⟩
        · cases h
  · rintro ⟨rfl, hafter⟩
    exact cutLastColon_append before after hafter

/-! ## Reading -/

def ofCut (before after : List Char) : TaskPath :=
  ⟨if before = [] then ":" else String.ofList before, String.ofList after⟩

theorem ofCut_nil (after : List Char) : ofCut [] after = ⟨":", String.ofList after⟩ := rfl

theorem ofCut_of_ne_nil {before : List Char} (h : before ≠ []) (after : List Char) :
    ofCut before after = ⟨String.ofList before, String.ofList after⟩ := by
  rw [ofCut, if_neg h]

theorem ofList_eq_colon_iff (cs : List Char) : String.ofList cs = ":" ↔ cs = [':'] := by
  rw [← String.toList_inj, String.toList_ofList]
  rfl

/-- Reading cuts at the last colon. -/
theorem parse?_eq_some_iff_cut (s : String) (p : TaskPath) :
    parse? s = some p ↔ ∃ before after, s.toList = before ++ ':' :: after ∧ ':' ∉ after ∧
      after ≠ [] ∧ (before = [] ∨ ∃ rest, before = ':' :: rest) ∧ p = ofCut before after := by
  constructor
  · intro h
    unfold parse? at h
    split at h
    · next rest hs =>
      cases hcut : cutLastColon (':' :: rest) with
      | none => simp [hcut] at h
      | some cut =>
        obtain ⟨before, after⟩ := cut
        obtain ⟨heq, hafter⟩ := (cutLastColon_eq_some_iff _ _ _).mp hcut
        refine ⟨before, after, hs.trans heq, hafter, ?_⟩
        cases after with
        | nil => simp [hcut] at h
        | cons a after =>
          refine ⟨by simp, ?_⟩
          cases before with
          | nil => exact ⟨.inl rfl, by simpa [hcut, ofCut] using h.symm⟩
          | cons b before =>
            have hb : ':' = b := List.head_eq_of_cons_eq heq
            exact ⟨.inr ⟨before, by rw [hb]⟩, by simpa [hcut, ofCut] using h.symm⟩
    · cases h
  · rintro ⟨before, after, hs, hafter, hne, hbefore, rfl⟩
    have hcut := cutLastColon_append before after hafter
    obtain ⟨a, after, rfl⟩ := List.exists_cons_of_ne_nil hne
    rcases hbefore with rfl | ⟨rest, rfl⟩
    · rw [List.nil_append] at hs hcut
      simp [parse?, hs, hcut, ofCut]
    · rw [List.cons_append] at hs hcut
      simp [parse?, hs, hcut, ofCut]

/-- The project is absolute, and the name is one that a reference can use. -/
structure Canonical (p : TaskPath) : Prop where
  absolute : ∃ rest, p.project.toList = ':' :: rest
  plain : ':' ∉ p.name.toList
  named : p.name ≠ ""

/-- The ways to write a path: its text, and `::name` for the task `:name` of the root project. -/
def SpelledBy (p : TaskPath) (s : String) : Prop :=
  s = p.text ∨ p.project = ":" ∧ s = "::" ++ p.name

theorem text_of_root {p : TaskPath} (h : p.project = ":") : p.text = ":" ++ p.name := by
  rw [text, if_pos h]

theorem toList_text (p : TaskPath) :
    p.text.toList = (if p.project = ":" then [] else p.project.toList) ++ ':' :: p.name.toList := by
  unfold text
  split <;> simp

theorem canonical_ofCut {before after : List Char} (hafter : ':' ∉ after) (hne : after ≠ [])
    (hbefore : before = [] ∨ ∃ rest, before = ':' :: rest) : (ofCut before after).Canonical := by
  refine ⟨?_, by simpa [ofCut] using hafter, by simpa [ofCut, ← String.toList_eq_nil_iff] using hne⟩
  rcases hbefore with rfl | ⟨rest, rfl⟩
  · exact ⟨[], by simp [ofCut]⟩
  · exact ⟨rest, by simp [ofCut]⟩

theorem spelledBy_ofCut {s : String} {before after : List Char}
    (hs : s.toList = before ++ ':' :: after) : (ofCut before after).SpelledBy s := by
  unfold SpelledBy
  simp only [← @String.toList_inj s, toList_text, hs]
  by_cases hnil : before = []
  · left
    simp [hnil, ofCut_nil]
  rw [ofCut_of_ne_nil hnil]
  by_cases hroot : before = [':']
  · right
    simp [hroot]
  · left
    rw [if_neg (mt (ofList_eq_colon_iff before).mp hroot), String.toList_ofList,
      String.toList_ofList]

theorem parse?_eq_some_iff (s : String) (p : TaskPath) :
    parse? s = some p ↔ p.Canonical ∧ p.SpelledBy s := by
  rw [parse?_eq_some_iff_cut]
  constructor
  · rintro ⟨before, after, hs, hafter, hne, hbefore, rfl⟩
    exact ⟨canonical_ofCut hafter hne hbefore, spelledBy_ofCut hs⟩
  · rintro ⟨⟨⟨rest, habs⟩, hplain, hnamed⟩, hs⟩
    have hne : p.name.toList ≠ [] := mt String.toList_eq_nil_iff.mp hnamed
    have hproject : p.project.toList ≠ [] := by simp [habs]
    have hcut : p = ofCut p.project.toList p.name.toList := by
      rw [ofCut_of_ne_nil hproject, String.ofList_toList, String.ofList_toList]
    rcases hs with rfl | ⟨hroot, rfl⟩
    · by_cases hroot : p.project = ":"
      · refine ⟨[], p.name.toList, by simp [toList_text, hroot], hplain, hne, .inl rfl, ?_⟩
        rw [ofCut_nil, String.ofList_toList, ← hroot]
      · exact ⟨p.project.toList, p.name.toList, by simp [toList_text, hroot], hplain, hne,
          .inr ⟨rest, habs⟩, hcut⟩
    · exact ⟨p.project.toList, p.name.toList, by simp [hroot], hplain, hne, .inr ⟨rest, habs⟩, hcut⟩

theorem Canonical.parse?_text {p : TaskPath} (h : p.Canonical) : parse? p.text = some p :=
  (parse?_eq_some_iff _ _).mpr ⟨h, .inl rfl⟩

/-! ## Reachable paths -/

/-- The paths that are read from a text, or resolved from such a path by a chain of references. -/
inductive Reachable : TaskPath → Prop
  | parsed {text : String} {p : TaskPath} : parse? text = some p → Reachable p
  | resolved {p q : TaskPath} {reference : String} :
      Reachable p → p.resolve? reference = some q → Reachable q

/-- A reference that starts with a colon is read, wherever it stands. -/
theorem resolve?_of_absolute (p : TaskPath) {reference : String} {rest : List Char}
    (h : reference.toList = ':' :: rest) : p.resolve? reference = parse? reference := by
  simp [resolve?, h]

/-- Any other one is a name in the project of the referring task. -/
theorem resolve?_eq_some_of_relative {p q : TaskPath} {reference : String}
    (hrel : ¬ ∃ rest, reference.toList = ':' :: rest) (h : p.resolve? reference = some q) :
    ':' ∉ reference.toList ∧ reference ≠ "" ∧ q = ⟨p.project, reference⟩ := by
  unfold resolve? at h
  split at h
  · next rest hs => exact absurd ⟨rest, hs⟩ hrel
  · cases h
  · next hne =>
    split at h
    · cases h
    · next hplain =>
      cases h
      exact ⟨hplain, mt String.toList_eq_nil_iff.mpr hne, rfl⟩

theorem Canonical.of_resolve? {p q : TaskPath} {reference : String} (hp : p.Canonical)
    (h : p.resolve? reference = some q) : q.Canonical := by
  by_cases hrel : ∃ rest, reference.toList = ':' :: rest
  · obtain ⟨rest, hrest⟩ := hrel
    rw [resolve?_of_absolute p hrest] at h
    exact ((parse?_eq_some_iff _ _).mp h).1
  · obtain ⟨hplain, hnamed, rfl⟩ := resolve?_eq_some_of_relative hrel h
    exact ⟨hp.absolute, hplain, hnamed⟩

theorem reachable_iff (p : TaskPath) : p.Reachable ↔ p.Canonical := by
  constructor
  · intro h
    induction h with
    | parsed h => exact ((parse?_eq_some_iff _ _).mp h).1
    | resolved _ h ih => exact ih.of_resolve? h
  · exact fun h => .parsed h.parse?_text

/-! ## Texts of reachable paths -/

theorem absolute_text {p : TaskPath} (h : p.Canonical) : ∃ rest, p.text.toList = ':' :: rest := by
  rw [toList_text]
  split
  · exact ⟨_, rfl⟩
  · obtain ⟨rest, hrest⟩ := h.absolute
    exact ⟨_, by rw [hrest, List.cons_append]⟩

/-- The reference to a canonical path leads to it from every task, in every resolution. -/
theorem resolve?_text {p : TaskPath} (h : p.Canonical) (q : TaskPath) :
    q.resolve? p.text = some p := by
  obtain ⟨rest, hrest⟩ := absolute_text h
  rw [resolve?_of_absolute q hrest, h.parse?_text]

theorem toList_twice (name : String) : ("::" ++ name).toList = [':'] ++ ':' :: name.toList := by
  simp

/-- The text of a path has no second colon in front of a plain name. -/
theorem text_ne_twice (p : TaskPath) (hplain : ':' ∉ p.name.toList) {name : String}
    (h : ':' ∉ name.toList) : p.text ≠ "::" ++ name := by
  intro heq
  have hlist := congrArg (cutLastColon ·.toList) heq
  simp only [toList_text, toList_twice, cutLastColon_append, hplain, h, not_false_eq_true,
    Option.some.injEq, Prod.mk.injEq] at hlist
  split at hlist
  · cases hlist.1
  · next hroot => exact hroot (String.toList_inj.mp hlist.1)

theorem SpelledBy.of_twice {p : TaskPath} {name : String} (hplain : ':' ∉ p.name.toList)
    (h : ':' ∉ name.toList) (hs : p.SpelledBy ("::" ++ name)) : p = ⟨":", name⟩ := by
  rcases hs with heq | ⟨hroot, heq⟩
  · exact absurd heq.symm (text_ne_twice p hplain h)
  · have hname : name = p.name := by simpa using heq
    rw [hname, ← hroot]

/-- Task paths have a canonical text. It reads as the path, and a reference by it leads to the path
from every task. A text that is read is the text of its path, except for `::name`, which is read as
`:name`; so a path has one spelling, or these two. -/
theorem text_faithful {p : TaskPath} (hp : p.Reachable) :
    parse? p.text = some p ∧
    (∀ q : TaskPath, q.Reachable → q.resolve? p.text = some p ∧
      ∀ {σ : Type} (cross : Option (CrossBuild σ)) (relationship : Relationship) (depth : Nat)
        (r : Resolution σ),
        Resolution.resolveReference cross q relationship depth p.reference r = r.foundLocal q p) ∧
    (∀ s, parse? s = some p →
      ((∀ name : String, ':' ∉ name.toList → s ≠ "::" ++ name) → p.text = s) ∧
      ∀ name : String, ':' ∉ name.toList → s = "::" ++ name → p.text = ":" ++ name) ∧
    ∀ s, parse? s = some p → ∀ t, parse? t = some p ↔ t = s ∨
      ∃ name : String, ':' ∉ name.toList ∧ p = ⟨":", name⟩ ∧
        (s = ":" ++ name ∧ t = "::" ++ name ∨ s = "::" ++ name ∧ t = ":" ++ name) := by
  have hcanon := (reachable_iff p).mp hp
  refine ⟨hcanon.parse?_text, ?references, ?texts, ?spellings⟩
  case references =>
    intro q _
    have hresolve := resolve?_text hcanon q
    refine ⟨hresolve, fun cross relationship depth r => ?_⟩
    simp only [reference, Resolution.resolveReference, hresolve]
  case texts =>
    intro s hs
    have hspelled := ((parse?_eq_some_iff s p).mp hs).2
    constructor
    · intro hother
      exact (hspelled.resolve_right fun h => hother p.name hcanon.plain h.2).symm
    · rintro name hname rfl
      rw [hspelled.of_twice hcanon.plain hname]
      rfl
  case spellings =>
    intro s hs t
    have hspelled := ((parse?_eq_some_iff s p).mp hs).2
    rw [parse?_eq_some_iff]
    constructor
    · rintro ⟨-, ht⟩
      rcases hspelled with heqs | ⟨hroot, heqs⟩ <;> rcases ht with heqt | ⟨hroot, heqt⟩
      · exact .inl (heqt.trans heqs.symm)
      · exact .inr ⟨p.name, hcanon.plain,
          by rw [← hroot], .inl ⟨heqs.trans (text_of_root hroot), heqt⟩⟩
      · exact .inr ⟨p.name, hcanon.plain,
          by rw [← hroot], .inr ⟨heqs, heqt.trans (text_of_root hroot)⟩⟩
      · exact .inl (heqt.trans heqs.symm)
    · rintro (rfl | ⟨name, -, rfl, (⟨-, rfl⟩ | ⟨-, rfl⟩)⟩)
      · exact ⟨hcanon, hspelled⟩
      · exact ⟨hcanon, .inr ⟨rfl, rfl⟩⟩
      · exact ⟨hcanon, .inl rfl⟩

theorem build_text_faithful :
    Reachable ⟨":", "build"⟩ ∧ parse? ":build" = some ⟨":", "build"⟩ ∧
      parse? "::build" = some ⟨":", "build"⟩ ∧
      (⟨":lib::core", "jar"⟩ : TaskPath).resolve? ":build" = some ⟨":", "build"⟩ := by
  have hcompile : Reachable ⟨":app", "compile"⟩ :=
    .parsed (show parse? ":app:compile" = _ by decide)
  have hjar : Reachable ⟨":lib::core", "jar"⟩ :=
    .resolved hcompile (show resolve? _ ":lib::core:jar" = _ by decide)
  have hbuild : Reachable ⟨":", "build"⟩ := .resolved hjar (show resolve? _ "::build" = _ by decide)
  have hread : parse? "::build" = some ⟨":", "build"⟩ := by decide
  obtain ⟨htext, hreference, -, -⟩ := text_faithful hbuild
  exact ⟨hbuild, htext, hread, (hreference _ hjar).1⟩

end Foreman.TaskPath
