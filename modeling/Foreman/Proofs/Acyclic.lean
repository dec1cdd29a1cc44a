import Mathlib.Data.Fintype.Card
import Mathlib.Data.Set.Finite.Basic
import Mathlib.Logic.Relation
import Mathlib.Order.WellFounded

/-!
# Relations without loops

A relation is acyclic when no chain of steps leads from a point back to it. On numbers below a bound
an acyclic relation has ranks (`Acyclic.exists_rank`), every finite set has a last point
(`Acyclic.exists_last`), and one more step keeps it acyclic unless a chain leads back already
(`Acyclic.add`).
-/

namespace Foreman

open Relation

variable {α β : Type} {R S : α → α → Prop}

/-- No chain of steps leads from a point back to it. -/
def Acyclic (R : α → α → Prop) : Prop := ∀ a, ¬ TransGen R a a

/-- No chain of steps leads back to a point from which all of them end. -/
theorem not_loop_of_acc {a : α} (h : Acc (fun b a => R a b) a) : ¬ TransGen R a a := by
  intro ha
  have hacc := h.transGen
  have hswap : TransGen (fun b a => R a b) a a := transGen_swap.2 ha
  clear h ha
  induction hacc with
  | intro x _ ih => exact ih x hswap hswap

namespace Acyclic

theorem mono (h : Acyclic S) (hsub : ∀ a b, R a b → S a b) : Acyclic R := by
  intro a ha
  exact h a (ha.lift id hsub)

/-- A relation that a map carries over to an acyclic one is acyclic. -/
theorem of_map {S : β → β → Prop} (h : Acyclic S) (f : α → β)
    (hmap : ∀ a b, R a b → S (f a) (f b)) : Acyclic R := by
  intro a ha
  exact h (f a) (ha.lift f hmap)

/-- A relation that a map carries over to an acyclic one is acyclic, also where a step may stay at
its image, if it loses a property in doing so. -/
theorem of_map_or {S : β → β → Prop} (h : Acyclic S) (f : α → β) (P : α → Prop)
    (hmap : ∀ a b, R a b → S (f a) (f b) ∨ f a = f b ∧ P a ∧ ¬ P b) : Acyclic R := by
  intro a ha
  have hchain : ∀ b, TransGen R a b → TransGen S (f a) (f b) ∨ f a = f b ∧ P a ∧ ¬ P b := by
    intro b hb
    induction hb with
    | single hab => exact (hmap _ _ hab).imp .single id
    | tail _ hbc ih =>
      rcases hmap _ _ hbc with hs | ⟨heq, hP, _⟩
      · rcases ih with ih | ⟨heq, _, _⟩
        · exact .inl (ih.tail hs)
        · exact .inl (heq ▸ .single hs)
      · rcases ih with ih | ⟨_, _, hnot⟩
        · exact .inl (heq ▸ ih)
        · exact absurd hP hnot
  rcases hchain a ha with hloop | ⟨_, hP, hnot⟩
  · exact h _ hloop
  · exact hnot hP

/-- Where every point that steps lead on from is well-founded there is no loop. -/
theorem of_acc (h : ∀ a b, R a b → Acc (fun b a => R a b) a) : Acyclic R := by
  intro a ha
  obtain ⟨b, hab⟩ : ∃ b, R a b := (TransGen.head'_iff.1 ha).imp fun _ hb => hb.1
  exact not_loop_of_acc (h a b hab) ha

/-- A number that falls along each step. -/
theorem of_rank (rank : α → Nat) (h : ∀ a b, R a b → rank b < rank a) : Acyclic R := by
  intro a ha
  have hlt : ∀ b, TransGen R a b → rank b < rank a := by
    intro b hb
    induction hb with
    | single hab => exact h _ _ hab
    | tail _ hbc ih => exact Nat.lt_trans (h _ _ hbc) ih
  exact Nat.lt_irrefl _ (hlt a ha)

/-- Ranks for an acyclic relation on numbers below a bound. -/
theorem exists_rank {R : Nat → Nat → Prop} (h : Acyclic R) {n : Nat} (hn : ∀ a b, R a b → b < n) :
    ∃ rank : Nat → Nat, (∀ a, rank a ≤ n) ∧ ∀ a b, R a b → rank b < rank a := by
  classical
  refine ⟨fun a => ((Finset.range n).filter (TransGen R a ·)).card, fun a => ?_, fun a b hab => ?_⟩
  · have := Finset.card_filter_le (Finset.range n) (TransGen R a ·)
    simpa using this
  · refine Finset.card_lt_card ⟨fun c hc => ?_, fun hsub => ?_⟩
    · rw [Finset.mem_filter] at hc ⊢
      exact ⟨hc.1, .head hab hc.2⟩
    · have hb : b ∈ (Finset.range n).filter (TransGen R a ·) :=
        Finset.mem_filter.2 ⟨Finset.mem_range.2 (hn a b hab), .single hab⟩
      exact h b (Finset.mem_filter.1 (hsub hb)).2

/-- In a finite set some point leads on to none of the set. -/
theorem exists_last (h : Acyclic R) {s : Set α} (hs : s.Finite) {a : α} (ha : a ∈ s) :
    ∃ b ∈ s, ∀ c ∈ s, ¬ R b c := by
  have : Finite s := hs
  have htrans : IsTrans s fun b c => TransGen R c.1 b.1 := ⟨fun _ _ _ hxy hyz => hyz.trans hxy⟩
  have hirrefl : Std.Irrefl fun b c : s => TransGen R c.1 b.1 := ⟨fun b => h b⟩
  have hwf := Finite.wellFounded_of_trans_of_irrefl fun b c : s => TransGen R c.1 b.1
  obtain ⟨b, _, hmin⟩ := hwf.has_min Set.univ ⟨⟨a, ha⟩, trivial⟩
  exact ⟨b.1, b.2, fun c hc hbc => hmin ⟨c, hc⟩ trivial (.single hbc)⟩

/-- A chain that may also step from `l` to `e` either does not, or passes both. -/
theorem chain_of_add {e l a b : α}
    (h : ¬ ReflTransGen R e l) (hab : TransGen (fun a b => R a b ∨ a = l ∧ b = e) a b) :
    TransGen R a b ∨ ReflTransGen R a l ∧ ReflTransGen R e b := by
  induction hab with
  | single hab =>
    rcases hab with hab | ⟨rfl, rfl⟩
    · exact .inl (.single hab)
    · exact .inr ⟨.refl, .refl⟩
  | tail _ hbc ih =>
    rcases hbc with hbc | ⟨rfl, rfl⟩
    · rcases ih with ih | ⟨hal, heb⟩
      · exact .inl (ih.tail hbc)
      · exact .inr ⟨hal, heb.tail hbc⟩
    · rcases ih with ih | ⟨_, heb⟩
      · exact .inr ⟨ih.to_reflTransGen, .refl⟩
      · exact absurd heb h

/-- One more step closes no loop unless a chain leads back. -/
theorem add (hacyc : Acyclic R) {e l : α} (h : ¬ ReflTransGen R e l) :
    Acyclic fun a b => R a b ∨ a = l ∧ b = e := by
  intro a ha
  rcases chain_of_add h ha with ha | ⟨hal, hea⟩
  · exact hacyc a ha
  · exact h (hea.trans hal)

/-- A chain of steps of two kinds is all of the first kind, or passes a step of the second. -/
theorem chain_of_split {T : α → α → Prop} {a b : α} (hsplit : ∀ a b, R a b → S a b ∨ T a b)
    (hab : TransGen R a b) :
    TransGen S a b ∨ ∃ x y, ReflTransGen R a x ∧ T x y ∧ ReflTransGen R y b := by
  induction hab with
  | single hab =>
    rcases hsplit _ _ hab with hs | ht
    · exact .inl (.single hs)
    · exact .inr ⟨_, _, .refl, ht, .refl⟩
  | tail hac hcb ih =>
    rcases hsplit _ _ hcb with hs | ht
    · rcases ih with ih | ⟨x, y, hax, hxy, hyc⟩
      · exact .inl (ih.tail hs)
      · exact .inr ⟨x, y, hax, hxy, hyc.tail hcb⟩
    · exact .inr ⟨_, _, hac.to_reflTransGen, ht, .refl⟩

/-- With steps of a second kind a relation stays acyclic just if no chain leads back from the end of
such a step to its start. -/
theorem iff_of_split {T : α → α → Prop} (hS : Acyclic S) (hsplit : ∀ a b, R a b ↔ S a b ∨ T a b) :
    Acyclic R ↔ ∀ a b, T a b → ¬ ReflTransGen R b a := by
  constructor
  · intro hR a b hab hba
    exact hR a (.head' ((hsplit a b).2 (.inr hab)) hba)
  · intro hT a ha
    rcases chain_of_split (fun a b => (hsplit a b).1) ha with ha | ⟨x, y, hax, hxy, hya⟩
    · exact hS a ha
    · exact hT x y hxy (hya.trans hax)

end Acyclic

/-- From some point of a finite set all chains in the set lead back. -/
theorem exists_recurrent {s : Set α} (hs : s.Finite) {a : α} (ha : a ∈ s) :
    ∃ b ∈ s, ∀ c ∈ s, ReflTransGen R b c → ReflTransGen R c b := by
  have hacyc : Acyclic fun b c => ReflTransGen R b c ∧ ¬ ReflTransGen R c b := by
    intro b hb
    obtain ⟨c, ⟨_, hcb⟩, hchain⟩ := TransGen.head'_iff.1 hb
    have hback : ReflTransGen (ReflTransGen R) c b := hchain.lift id fun _ _ h => h.1
    rw [reflTransGen_eq_self] at hback
    exact hcb hback
  obtain ⟨b, hb, hlast⟩ := hacyc.exists_last hs ha
  refine ⟨b, hb, fun c hc hbc => ?_⟩
  by_contra hcb
  exact hlast c hc ⟨hbc, hcb⟩

end Foreman
