import Foreman.Proofs.Lock.Course

/-!
# Holds and guards

A `Tally` follows the holds of a worker and its guards through its actions, as if nothing had to
wait. A drop inside a section may take away a guard without a hold, and then the two never come
together again (`Tally.gap_afterAll_le`): they do exactly if each section that is entered with a
lease ends without one and with as many guards as it began with (`Tally.keepsAll_of_gap`,
`Tally.even_afterAll`).
-/

namespace Foreman

/-- The holds of a worker and its guards. -/
structure Tally where
  holds : Nat
  guards : Nat
  deriving DecidableEq

namespace Tally

mutual

def after (t : Tally) : LeaseAction → Tally
  | .acquire => ⟨t.holds + 1, t.guards + 1⟩
  | .drop => if 0 < t.guards then ⟨t.holds - 1, t.guards - 1⟩ else t
  | .otherLease _ | .otherUnlease _ => t
  | .blocking inner _ =>
    let inside := afterAll ⟨0, t.guards⟩ inner
    if t.holds = 0 then inside else ⟨t.holds, inside.guards⟩

def afterAll (t : Tally) : List LeaseAction → Tally
  | [] => t
  | action :: rest => (t.after action).afterAll rest

end

mutual

/-- A section that is entered with a lease ends without one and with the guards it began with, and
so do the sections inside. -/
def Keeps (t : Tally) : LeaseAction → Prop
  | .blocking inner _ =>
    KeepsAll ⟨0, t.guards⟩ inner ∧
      (0 < t.holds → afterAll ⟨0, t.guards⟩ inner = ⟨0, t.guards⟩)
  | _ => True

def KeepsAll (t : Tally) : List LeaseAction → Prop
  | [] => True
  | action :: rest => t.Keeps action ∧ (t.after action).KeepsAll rest

end

mutual

def decidableKeeps (t : Tally) : (action : LeaseAction) → Decidable (t.Keeps action)
  | .acquire | .drop | .otherLease _ | .otherUnlease _ => isTrue trivial
  | .blocking inner _ =>
    have : Decidable (KeepsAll ⟨0, t.guards⟩ inner) := decidableKeepsAll ⟨0, t.guards⟩ inner
    inferInstanceAs (Decidable (KeepsAll ⟨0, t.guards⟩ inner ∧
      (0 < t.holds → afterAll ⟨0, t.guards⟩ inner = ⟨0, t.guards⟩)))

def decidableKeepsAll (t : Tally) : (l : List LeaseAction) → Decidable (t.KeepsAll l)
  | [] => isTrue trivial
  | action :: rest =>
    have : Decidable (t.Keeps action) := decidableKeeps t action
    have : Decidable ((t.after action).KeepsAll rest) := decidableKeepsAll (t.after action) rest
    inferInstanceAs (Decidable (t.Keeps action ∧ (t.after action).KeepsAll rest))

end

instance (t : Tally) (l : List LeaseAction) : Decidable (t.KeepsAll l) := t.decidableKeepsAll l

mutual

/-- A section that is entered with a lease ends without one, and so do the sections inside. -/
def Yields (t : Tally) : LeaseAction → Prop
  | .blocking inner _ =>
    YieldsAll ⟨0, t.guards⟩ inner ∧ (0 < t.holds → (afterAll ⟨0, t.guards⟩ inner).holds = 0)
  | _ => True

/-- Every section among the actions ends without a lease, if it is entered with one. -/
def YieldsAll (t : Tally) : List LeaseAction → Prop
  | [] => True
  | action :: rest => t.Yields action ∧ (t.after action).YieldsAll rest

end

variable {t : Tally} {l inner : List LeaseAction} {panics : Bool}

/-- How many guards there are beyond the holds. -/
def gap (t : Tally) : Int := t.guards - t.holds

theorem after_blocking_of_pos (h : 0 < t.holds) : t.after (.blocking inner panics) =
    ⟨t.holds, (afterAll ⟨0, t.guards⟩ inner).guards⟩ := by
  rw [after, if_neg (by omega)]

theorem after_blocking_of_zero (h : t.holds = 0) : t.after (.blocking inner panics) =
    afterAll ⟨0, t.guards⟩ inner := by
  rw [after, if_pos h]

theorem gap_drop (t : Tally) : (t.after .drop).gap ≤ t.gap := by
  rw [after]
  split
  · simp only [gap]
    omega
  · exact Int.le_refl _

/-- A section that ends without a lease, if it has to, changes the gap as its actions do. -/
theorem gap_blocking (panics : Bool)
    (hy : 0 < t.holds → (afterAll ⟨0, t.guards⟩ inner).holds = 0) :
    (t.after (.blocking inner panics)).gap - t.gap =
      (afterAll ⟨0, t.guards⟩ inner).gap - (⟨0, t.guards⟩ : Tally).gap := by
  by_cases h : 0 < t.holds
  · rw [after_blocking_of_pos h]
    simp only [gap, hy h]
    omega
  · rw [after_blocking_of_zero (by omega)]
    simp only [gap]
    omega

/-- No guard is gained on the holds: one that is dropped without a hold is lost to them. -/
theorem gap_afterAll_le (h : Own l) (hy : t.YieldsAll l) : (t.afterAll l).gap ≤ t.gap := by
  induction h generalizing t with
  | nil => exact Int.le_refl _
  | acquire _ ih =>
    have hrest := ih hy.2
    have hfirst : (t.after .acquire).gap = t.gap := by
      simp only [after, gap]
      omega
    rw [afterAll]
    omega
  | drop _ ih =>
    have hrest := ih hy.2
    have hfirst := gap_drop t
    rw [afterAll]
    omega
  | blocking panics _ _ ihinner ihrest =>
    have hrest := ihrest hy.2
    have hinside := ihinner hy.1.1
    have hfirst := gap_blocking panics hy.1.2
    rw [afterAll]
    omega

/-- Where the gap is the same in the end, every section keeps the guards. -/
theorem keepsAll_of_gap (h : Own l) (hy : t.YieldsAll l) (hgap : t.gap ≤ (t.afterAll l).gap) :
    t.KeepsAll l := by
  induction h generalizing t with
  | nil => trivial
  | acquire _ ih =>
    refine ⟨trivial, ih hy.2 ?_⟩
    have hfirst : (t.after .acquire).gap = t.gap := by
      simp only [after, gap]
      omega
    rw [afterAll] at hgap
    omega
  | drop _ ih =>
    have hfirst := gap_drop t
    rw [afterAll] at hgap
    exact ⟨trivial, ih hy.2 (by omega)⟩
  | @blocking inner rest panics hinner hrest ihinner ihrest =>
    have hinside := gap_afterAll_le hinner hy.1.1
    have hafter := gap_afterAll_le hrest hy.2
    have hfirst := gap_blocking panics hy.1.2
    rw [afterAll] at hgap
    -- neither side can make up for what the other loses, so both leave the gap as it is
    refine ⟨⟨ihinner hy.1.1 (by omega), fun hpos => ?_⟩, ihrest hy.2 (by omega)⟩
    have hzero := hy.1.2 hpos
    have hsame : (afterAll ⟨0, t.guards⟩ inner).gap = (⟨0, t.guards⟩ : Tally).gap := by omega
    simp only [gap, hzero] at hsame
    generalize afterAll ⟨0, t.guards⟩ inner = inside at hzero hsame
    obtain ⟨holds, guards⟩ := inside
    simp only at hzero hsame
    simp only [mk.injEq]
    omega

/-- From as many guards as holds the actions lead to as many guards as holds. -/
theorem even_afterAll (h : Own l) (hk : t.KeepsAll l) (heven : t.holds = t.guards) :
    (t.afterAll l).holds = (t.afterAll l).guards := by
  induction h generalizing t with
  | nil => exact heven
  | acquire _ ih => exact ih hk.2 (by simp only [after, heven])
  | drop _ ih =>
    refine ih hk.2 ?_
    rw [after]
    split
    · simp only [heven]
    · exact heven
  | blocking panics _ _ ihinner ihrest =>
    refine ihrest hk.2 ?_
    by_cases hpos : 0 < t.holds
    · rw [after_blocking_of_pos hpos, hk.1.2 hpos]
      exact heven
    · rw [after_blocking_of_zero (by omega)]
      exact ihinner hk.1.1 (by simp only; omega)

end Tally

end Foreman
