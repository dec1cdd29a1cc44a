import Foreman.Proofs.Run.Audit
import Foreman.Proofs.Run.Reporting

/-!
# A run does not look at its exports

Two runs that differ in what they have published (`Run.Matches`) go on in the same way: every choice
is made from the plan and the progress alone, and both publish the same of the same tasks. So
whatever relation between exports publishing respects (`Exports.Respected`) lasts as long as the two
runs are used in the same way.
-/

namespace Foreman

namespace Exports

/-- Handing out and publishing the same on both sides leaves exports related, and related exports
are of the same tasks. -/
structure Respected (Rel : Exports → Exports → Prop) : Prop where
  mem : ∀ {e e' : Exports}, Rel e e' → ∀ path, path ∈ e' ↔ path ∈ e
  handOut : ∀ {e e' : Exports} path, Rel e e' → Rel (e.handOut path) (e'.handOut path)
  publish : ∀ {e e' : Exports} path outcome, Rel e e' →
    Rel (e.publish path outcome) (e'.publish path outcome)

end Exports

namespace Run

variable {Rel : Exports → Exports → Prop} {r r' : Run} {i : Nat}

/-- Two runs of one plan that have come equally far, with related exports. -/
structure Matches (Rel : Exports → Exports → Prop) (r r' : Run) : Prop where
  plan : r'.plan = r.plan
  progress : r'.progress = r.progress
  exports : Rel r.exports r'.exports

theorem Matches.eq (h : Matches Rel r r') : r' = { r with exports := r'.exports } := by
  obtain ⟨plan, progress, exports⟩ := r'
  cases h.plan
  cases h.progress
  rfl

/-- Both note the same of their progress. -/
theorem Matches.note (h : Matches Rel r r') (f : Progress → Progress) :
    Matches Rel { r with progress := f r.progress } { r' with progress := f r'.progress } :=
  ⟨h.plan, congrArg f h.progress, h.exports⟩

theorem Matches.move (h : Matches Rel r r') (i : Nat) (new : NodeState) :
    Matches Rel (r.move i new) (r'.move i new) :=
  h.note (·.move i new)

theorem Matches.publish (hr : Exports.Respected Rel) (h : Matches Rel r r') (i : Nat)
    (outcome : ExportOutcome) :
    Matches Rel (r.publish i outcome) (r'.publish i outcome) := by
  rw [Run.publish, Run.publish, h.plan]
  split
  · exact ⟨rfl, h.progress, hr.publish _ _ h.exports⟩
  · exact h

theorem Matches.moveAndPublish (hr : Exports.Respected Rel) (h : Matches Rel r r') (i : Nat)
    (new : NodeState) : Matches Rel (r.moveAndPublish i new) (r'.moveAndPublish i new) := by
  rw [Run.moveAndPublish, Run.moveAndPublish]
  split
  · exact (h.move i new).publish hr i _
  · exact h.move i new

theorem Matches.foldl {α : Type} {f : Run → α → Run}
    (hf : ∀ r r' a, Matches Rel r r' → Matches Rel (f r a) (f r' a)) (h : Matches Rel r r')
    (l : List α) : Matches Rel (l.foldl f r) (l.foldl f r') := by
  induction l generalizing r r' with
  | nil => exact h
  | cons a l ih => exact ih (hf _ _ a h)

theorem Matches.indices (h : Matches Rel r r') : r'.indices = r.indices := by
  rw [Run.indices, Run.indices, h.plan]

theorem Matches.abandonExports (hr : Exports.Respected Rel) (h : Matches Rel r r') :
    Matches Rel r.abandonExports r'.abandonExports := by
  rw [Run.abandonExports, Run.abandonExports, h.indices]
  exact h.foldl (fun _ _ i hq => hq.publish hr i .notExecuted) _

/-! ## Settling -/

theorem Matches.orderDone (h : Matches Rel r r') (o : Outlook) (l : List Nat) (memo : Plan.Memo) :
    r'.orderDone o l memo = r.orderDone o l memo := by
  induction l generalizing memo with
  | nil => rfl
  | cons p l ih => simp only [Run.orderDone, h.plan, h.progress, ih]

theorem Matches.advance (h : Matches Rel r r') (o : Outlook) (n : PlannedNode) (memo : Plan.Memo) :
    r'.advance o i n memo = r.advance o i n memo := by
  simp only [Run.advance, h.plan, h.progress, h.orderDone]

def MatchesNoted (Rel : Exports → Exports → Prop) (s s' : Run × Plan.Memo) : Prop :=
  Matches Rel s.1 s'.1 ∧ s'.2 = s.2

theorem MatchesNoted.settleNode (hr : Exports.Respected Rel) {s s' : Run × Plan.Memo}
    (h : MatchesNoted Rel s s') (o : Outlook) (i : Nat) :
    MatchesNoted Rel (Run.settleNode o s i) (Run.settleNode o s' i) := by
  obtain ⟨r, memo⟩ := s
  obtain ⟨r', memo'⟩ := s'
  obtain ⟨h, hmemo⟩ := h
  dsimp only at h hmemo
  subst hmemo
  simp only [Run.settleNode, h.plan, h.progress]
  split
  · split
    · exact ⟨h.moveAndPublish hr i .skipped, rfl⟩
    · exact ⟨h, rfl⟩
  · rw [h.advance]
    split
    · exact ⟨h.moveAndPublish hr i _, rfl⟩
    · exact ⟨h, rfl⟩
  · exact ⟨h, rfl⟩

theorem Matches.sweep (hr : Exports.Respected Rel) (h : Matches Rel r r') (o : Outlook) :
    Matches Rel (r.sweep o) (r'.sweep o) := by
  rw [Run.sweep, Run.sweep, h.indices, h.plan]
  have hstart : MatchesNoted Rel (r, r.plan.emptyMemo) (r', r.plan.emptyMemo) := ⟨h, rfl⟩
  generalize (r, r.plan.emptyMemo) = s, (r', r.plan.emptyMemo) = s' at hstart
  induction r.indices generalizing s s' with
  | nil => exact hstart.1
  | cons i l ih => exact ih _ _ (hstart.settleNode hr o i)

theorem Matches.settle (hr : Exports.Respected Rel) (h : Matches Rel r r') (o : Outlook) :
    Matches Rel (r.settle o) (r'.settle o) := by
  fun_induction Run.settle r o generalizing r' with
  | case1 r swept hlt =>
    rename_i ih
    have hswept := h.sweep hr o
    have hagain : r'.settle o = (r'.sweep o).settle o := by
      rw [Run.settle, if_pos (by rwa [hswept.progress, h.progress])]
    rw [hagain]
    exact ih hswept
  | case2 r swept =>
    rename_i hlt
    have hswept := h.sweep hr o
    rw [Run.settle, if_neg (by rwa [hswept.progress, h.progress])]
    exact hswept

/-! ## Choosing -/

/-- Two choices are the same, and the runs after them match. -/
structure Agree {α : Type} (Rel : Exports → Exports → Prop) (a a' : α × Run × LockTable) :
    Prop where
  choice : a'.1 = a.1
  matched : Matches Rel a.2.1 a'.2.1
  table : a'.2.2 = a.2.2

theorem Matches.startFirst (h : Matches Rel r r') (locks : ProjectLocks) (worker : Worker)
    (table : LockTable) (l : List Nat) :
    Option.Rel (Agree Rel) (r.startFirst locks worker table l)
      (r'.startFirst locks worker table l) := by
  induction l with
  | nil => exact .none
  | cons i l ih =>
    have hclashes : ∀ n, r'.clashes n = r.clashes n := fun n => by
      rw [h.eq]
      rfl
    simp only [Run.startFirst, h.plan, hclashes]
    split
    · exact ih
    · split
      · exact ih
      · split
        · exact .some ⟨rfl, h, rfl⟩
        · split
          · exact ih
          · exact .some ⟨rfl, h.note fun s => { s.move i .running with
              running := (s.move i .running).running ++ [i] }, rfl⟩

theorem Matches.attempt (hr : Exports.Respected Rel) (h : Matches Rel r r') (o : Outlook)
    (locks : ProjectLocks) (worker : Worker) (table : LockTable) :
    Agree Rel (r.attempt o locks worker table) (r'.attempt o locks worker table) := by
  have hs := h.settle hr o
  have hready : (r'.settle o).readyNodes = (r.settle o).readyNodes := by
    rw [hs.eq]
    rfl
  have hawaits : (r'.settle o).awaitsOthers o = (r.settle o).awaitsOthers o := by
    rw [hs.eq]
    rfl
  have hstart := hs.startFirst locks worker table (r.settle o).readyNodes
  simp only [Run.attempt, hs.progress, hready, hawaits]
  split
  · exact ⟨rfl, hs, rfl⟩
  · generalize (r.settle o).startFirst locks worker table (r.settle o).readyNodes = a,
      (r'.settle o).startFirst locks worker table (r.settle o).readyNodes = a' at hstart
    cases hstart with
    | none =>
      dsimp only
      split
      · exact ⟨rfl, hs, rfl⟩
      · exact ⟨rfl, hs, rfl⟩
    | some hagree => exact ⟨congrArg some hagree.choice, hagree.matched, hagree.table⟩

theorem Matches.skipStuck (hr : Exports.Respected Rel) (h : Matches Rel r r') :
    Matches Rel r.skipStuck r'.skipStuck := by
  rw [Run.skipStuck, Run.skipStuck, h.indices]
  refine h.foldl (fun q q' i hq => ?_) _
  rw [hq.progress]
  split
  · exact hq.moveAndPublish hr i .skipped
  · exact hq

/-- Both runs give a worker the same to do. -/
theorem Matches.selectAnew (hr : Exports.Respected Rel) (h : Matches Rel r r') (first second : Bool)
    (foreign later : Foreign) (locks : ProjectLocks) (worker : Worker) (table : LockTable) :
    Agree Rel (r.selectAnew first second foreign later locks worker table)
      (r'.selectAnew first second foreign later locks worker table) := by
  have hstrict := h.attempt hr ⟨first, false, foreign⟩ locks worker table
  rw [Run.selectAnew, Run.selectAnew]
  generalize r.attempt ⟨first, false, foreign⟩ locks worker table = a,
    r'.attempt ⟨first, false, foreign⟩ locks worker table = a' at hstrict
  obtain ⟨choice, r₁, table₁⟩ := a
  obtain ⟨choice', r₁', table₁'⟩ := a'
  obtain ⟨hchoice, hmatch, htable⟩ := hstrict
  dsimp only at hchoice hmatch htable
  subst hchoice htable
  cases choice' with
  | some selection => exact ⟨rfl, hmatch, rfl⟩
  | none =>
    have hrelaxed := hmatch.attempt hr ⟨second, true, later⟩ locks worker table₁'
    dsimp only
    generalize r₁.attempt ⟨second, true, later⟩ locks worker table₁' = b,
      r₁'.attempt ⟨second, true, later⟩ locks worker table₁' = b' at hrelaxed
    obtain ⟨choice, r₂, table₂⟩ := b
    obtain ⟨choice', r₂', table₂'⟩ := b'
    obtain ⟨hchoice, hmatch, htable⟩ := hrelaxed
    dsimp only at hchoice hmatch htable
    subst hchoice htable
    cases choice' with
    | some selection => exact ⟨rfl, hmatch, rfl⟩
    | none => exact ⟨rfl, hmatch.skipStuck hr, rfl⟩

/-! ## Ends -/

theorem Matches.fail (h : Matches Rel r r') (error : ErrorChain) :
    Matches Rel (r.fail i error) (r'.fail i error) := by
  rw [Run.fail, Run.fail, h.plan]
  split
  · exact ⟨rfl, by rw [h.progress], h.exports⟩
  · exact h

theorem Matches.finish (hr : Exports.Respected Rel) (h : Matches Rel r r') (i : Nat)
    (outcome : NodeOutcome) : Matches Rel (r.finish i outcome) (r'.finish i outcome) := by
  have hrest := h.note fun s => { s with running := s.running.filter (· ≠ i) }
  cases outcome with
  | success => exact (hrest.move i _).publish hr i _
  | failure error =>
    have hignores := ignoresFailures_congr hrest.plan i
    simp only [Run.finish, hignores]
    split
    · exact ((hrest.note fun s => { s with tolerated := i :: s.tolerated }).move i _).publish hr i _
    · exact ((hrest.fail error).move i _).publish hr i _
  | foreignFailure => exact (hrest.move i _).publish hr i _

/-- Whatever a worker does with both runs, they match again. -/
theorem Matches.use (hr : Exports.Respected Rel) (h : Matches Rel r r') (u : Use) :
    Matches Rel (r.use u) (r'.use u) := by
  cases u with
  | select first second foreign later locks worker table =>
    exact (h.selectAnew hr first second foreign later locks worker table).matched
  | finish i outcome =>
    rw [Run.use, Run.use, h.progress]
    split
    · exact h.finish hr i outcome
    · exact h

/-- Both runs end with the same result. -/
theorem Matches.takeResult (hr : Exports.Respected Rel) (h : Matches Rel r r') :
    r'.takeResult.1 = r.takeResult.1 ∧ Matches Rel r.takeResult.2 r'.takeResult.2 := by
  have ha := h.abandonExports hr
  simp only [Run.takeResult, ha.progress]
  split
  · exact ⟨rfl, ha.plan, rfl, ha.exports⟩
  · exact ⟨rfl, ha.plan, rfl, ha.exports⟩

end Run

end Foreman
