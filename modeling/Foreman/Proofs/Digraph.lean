import Foreman.Digraph.Cycle
import Foreman.Proofs.Acyclic

/-!
# The searches of a graph

`Digraph.reaches` tells just whether there is a path (`reaches_iff`): its search has seen nothing
out of reach, and when no node waits any more it has seen all that is within (`Seeking`). On the way
each node has its turn at most once (`reaches_exact`).

The depth-first search that finds no closed walk has come from every node it saw to the ends of all
paths (`acc_of_search`), so a graph that passes the check has no loop that can be reached from the
roots (`acc_of_checkCycles`). A search that ends with a closed walk has found a loop, so the check
refuses no graph without one (`checkCycles_of_acyclic`).
-/

namespace Foreman

namespace Digraph

open Relation

variable {g : Digraph} {walk : List Frame} {seen : NodeSet} {roots : List Nat} {a b c n : Nat}

/-- An edge leads from one node to the other. -/
def Edge (g : Digraph) (a b : Nat) : Prop := b ∈ g.next a

theorem Edge.lt_size (h : g.Edge a b) : a < g.size := by
  by_contra hlt
  rw [Edge, next, Array.getElem?_eq_none (Nat.le_of_not_lt hlt)] at h
  cases h

/-! ## Reachability -/

namespace Frontier

variable {f : Frontier} {waiting cs : List Nat}

/-- The nodes that wait are distinct and were seen. -/
structure Orderly (f : Frontier) : Prop where
  seen : ∀ n ∈ f.waiting, n ∈ f.seen
  distinct : f.waiting.Nodup

theorem mem_seen_meet : n ∈ (f.meet c).seen ↔ n ∈ f.seen ∨ n = c := by
  by_cases hc : c ∈ f.seen
  · rw [meet, if_pos hc]
    exact ⟨.inl, fun h => h.elim id fun heq => heq ▸ hc⟩
  · rw [meet, if_neg hc, Std.TreeSet.mem_insert, Std.LawfulEqCmp.compare_eq_iff_eq,
      or_comm, eq_comm]

theorem mem_waiting_meet : n ∈ (f.meet c).waiting ↔ n ∈ f.waiting ∨ n = c ∧ n ∉ f.seen := by
  by_cases hc : c ∈ f.seen
  · rw [meet, if_pos hc]
    exact ⟨.inl, fun h => h.elim id fun hnew => absurd (hnew.1 ▸ hc) hnew.2⟩
  · rw [meet, if_neg hc, List.mem_cons, or_comm]
    exact or_congr_right ⟨fun heq => ⟨heq, heq ▸ hc⟩, And.left⟩

/-- Just the nodes that are met are seen besides. -/
theorem mem_seen_meetAll : n ∈ (f.meetAll cs).seen ↔ n ∈ f.seen ∨ n ∈ cs := by
  induction cs generalizing f with
  | nil => simp [meetAll]
  | cons c cs ih =>
    show n ∈ ((f.meet c).meetAll cs).seen ↔ _
    rw [ih, mem_seen_meet, List.mem_cons, or_assoc]

/-- Just those of the nodes that were not seen before wait besides. -/
theorem mem_waiting_meetAll :
    n ∈ (f.meetAll cs).waiting ↔ n ∈ f.waiting ∨ n ∈ cs ∧ n ∉ f.seen := by
  induction cs generalizing f with
  | nil => simp [meetAll]
  | cons c cs ih =>
    show n ∈ ((f.meet c).meetAll cs).waiting ↔ _
    rw [ih, mem_waiting_meet, mem_seen_meet, List.mem_cons]
    tauto

theorem Orderly.meet (h : f.Orderly) (c : Nat) : (f.meet c).Orderly := by
  refine ⟨fun n hn => ?_, ?_⟩
  · rw [mem_seen_meet]
    exact (mem_waiting_meet.1 hn).imp (h.seen n) And.left
  · by_cases hc : c ∈ f.seen
    · rw [Frontier.meet, if_pos hc]
      exact h.distinct
    · rw [Frontier.meet, if_neg hc]
      exact List.nodup_cons.2 ⟨fun hw => hc (h.seen c hw), h.distinct⟩

theorem Orderly.meetAll (h : f.Orderly) (cs : List Nat) : (f.meetAll cs).Orderly := by
  induction cs generalizing f with
  | nil => exact h
  | cons c cs ih => exact ih (h.meet c)

/-- The first of the waiting nodes leaves. -/
theorem Orderly.rest (h : Orderly ⟨n :: waiting, seen⟩) : Orderly ⟨waiting, seen⟩ :=
  ⟨fun m hm => h.seen m (List.mem_cons_of_mem _ hm), (List.nodup_cons.1 h.distinct).2⟩

theorem mem_seen_start : n ∈ (start a).seen ↔ n = a := by
  rw [start, Std.TreeSet.mem_insert, Std.LawfulEqCmp.compare_eq_iff_eq, eq_comm]
  simp

theorem orderly_start (a : Nat) : (start a).Orderly :=
  ⟨fun _ hn => mem_seen_start.2 (List.mem_singleton.1 hn), List.nodup_singleton a⟩

end Frontier

section

variable {source target : Nat} {f f' : Frontier} {waiting turns : List Nat}

/-- What holds of a search under way: it has seen the source and nothing out of reach, and each node
it has seen waits, or is not the target and all its successors have been seen. -/
structure Seeking (g : Digraph) (source target : Nat) (f : Frontier) : Prop where
  orderly : f.Orderly
  source_seen : source ∈ f.seen
  within : ∀ n ∈ f.seen, ReflTransGen g.Edge source n
  covered : ∀ n ∈ f.seen, n ∈ f.waiting ∨ n ≠ target ∧ ∀ c ∈ g.next n, c ∈ f.seen

theorem seeking_start (g : Digraph) (source target : Nat) :
    g.Seeking source target (.start source) := by
  refine ⟨Frontier.orderly_start source, Frontier.mem_seen_start.2 rfl, fun n hn => ?_,
    fun n hn => ?_⟩
  · rw [Frontier.mem_seen_start.1 hn]
  · rw [Frontier.mem_seen_start.1 hn]
    exact .inl (List.mem_singleton_self source)

/-- A path leads to the node whose turn it is. -/
theorem Seeking.path (h : g.Seeking source target ⟨n :: waiting, seen⟩) :
    ReflTransGen g.Edge source n :=
  h.within n (h.orderly.seen n (List.mem_cons_self ..))

/-- A node other than the target has its turn. -/
theorem Seeking.turn (h : g.Seeking source target ⟨n :: waiting, seen⟩) (hn : n ≠ target) :
    g.Seeking source target (Frontier.meetAll ⟨waiting, seen⟩ (g.next n)) := by
  refine ⟨h.orderly.rest.meetAll _, Frontier.mem_seen_meetAll.2 (.inl h.source_seen),
    fun m hm => ?_, fun m hm => ?_⟩
  · rcases Frontier.mem_seen_meetAll.1 hm with hs | hc
    · exact h.within m hs
    · exact h.path.tail hc
  · by_cases hs : m ∈ seen
    · rcases h.covered m hs with hw | ⟨hne, hclosed⟩
      · rcases List.mem_cons.1 hw with rfl | hw
        · exact .inr ⟨hn, fun c hc => Frontier.mem_seen_meetAll.2 (.inr hc)⟩
        · exact .inl (Frontier.mem_waiting_meetAll.2 (.inl hw))
      · exact .inr ⟨hne, fun c hc => Frontier.mem_seen_meetAll.2 (.inl (hclosed c hc))⟩
    · have hc : m ∈ g.next n := (Frontier.mem_seen_meetAll.1 hm).resolve_left hs
      exact .inl (Frontier.mem_waiting_meetAll.2 (.inr ⟨hc, hs⟩))

/-- Where none waits, all that can be reached has been seen and had its turn. -/
theorem Seeking.no_path (h : g.Seeking source target ⟨[], seen⟩) :
    ¬ ReflTransGen g.Edge source target := by
  have hclosed : ∀ n ∈ seen, n ≠ target ∧ ∀ c ∈ g.next n, c ∈ seen :=
    fun n hn => (h.covered n hn).resolve_left List.not_mem_nil
  have hreached : ∀ n, ReflTransGen g.Edge source n → n ∈ seen := by
    intro n hn
    induction hn with
    | refl => exact h.source_seen
    | tail _ hab ih => exact (hclosed _ ih).2 _ hab
  exact fun hpath => (hclosed target (hreached target hpath)).1 rfl

theorem seek_iff (h : g.Seeking source target f) :
    g.seek target f = true ↔ ReflTransGen g.Edge source target := by
  fun_induction seek g target f with
  | case1 seen => simpa using h.no_path
  | case2 waiting seen => exact iff_of_true rfl h.path
  | case3 n waiting seen hn ih => exact ih (h.turn hn)

/-- One node reaches another just if a path leads from it to the other. -/
theorem reaches_iff : g.reaches a b = true ↔ ReflTransGen g.Edge a b :=
  seek_iff (seeking_start g a b)

/-! ### The turns of a search -/

/-- From one state of the search to another: one by one the latest waiting node has its turn, unless
it is the target. The list holds the nodes that had their turns, in order. -/
inductive Turns (g : Digraph) (target : Nat) : Frontier → List Nat → Frontier → Prop
  | none (f : Frontier) : Turns g target f [] f
  | turn {n : Nat} {waiting turns : List Nat} {seen : NodeSet} {f : Frontier} (hn : n ≠ target)
      (rest : Turns g target (Frontier.meetAll ⟨waiting, seen⟩ (g.next n)) turns f) :
      Turns g target ⟨n :: waiting, seen⟩ (n :: turns) f

/-- Turns go to nodes within reach only. -/
theorem Turns.within (ht : g.Turns target f turns f') (h : g.Seeking source target f) :
    ∀ n ∈ turns, ReflTransGen g.Edge source n := by
  induction ht with
  | none f => exact fun n hn => absurd hn List.not_mem_nil
  | turn hn _ ih =>
    intro m hm
    rcases List.mem_cons.1 hm with rfl | hm
    · exact h.path
    · exact ih (h.turn hn) m hm

/-- No node has its turn twice: those to come wait already or have not been seen yet. -/
theorem Turns.distinct (ht : g.Turns target f turns f') (h : f.Orderly) :
    turns.Nodup ∧ ∀ n ∈ turns, n ∈ f.waiting ∨ n ∉ f.seen := by
  induction ht with
  | none f => exact ⟨List.nodup_nil, fun n hn => absurd hn List.not_mem_nil⟩
  | @turn n waiting turns seen f hn _ ih =>
    obtain ⟨hdistinct, hcome⟩ := ih (h.rest.meetAll (g.next n))
    have hfrom : ∀ m ∈ turns, m ∈ waiting ∨ m ∉ seen := by
      intro m hm
      rcases hcome m hm with hw | hs
      · exact (Frontier.mem_waiting_meetAll.1 hw).imp_right And.right
      · exact .inr fun hseen => hs (Frontier.mem_seen_meetAll.2 (.inl hseen))
    have hnew : n ∉ turns := by
      intro hm
      rcases hfrom n hm with hw | hs
      · exact (List.nodup_cons.1 h.distinct).1 hw
      · exact hs (h.seen n (List.mem_cons_self ..))
    refine ⟨List.nodup_cons.2 ⟨hnew, hdistinct⟩, fun m hm => ?_⟩
    rcases List.mem_cons.1 hm with rfl | hm
    · exact .inl (List.mem_cons_self ..)
    · exact (hfrom m hm).imp_left (List.mem_cons_of_mem _)

/-- The search takes turns until none waits or the turn of the target has come, and this is its
answer. -/
theorem exists_turns (g : Digraph) (target : Nat) (f : Frontier) :
    ∃ turns f', g.Turns target f turns f' ∧
      (f'.waiting = [] ∧ g.seek target f = false ∨
        f'.waiting.head? = some target ∧ g.seek target f = true) := by
  fun_induction seek g target f with
  | case1 seen => exact ⟨[], _, .none _, .inl ⟨rfl, rfl⟩⟩
  | case2 waiting seen => exact ⟨[], _, .none _, .inr ⟨rfl, rfl⟩⟩
  | case3 n waiting seen hn ih =>
    obtain ⟨turns, f', hturns, hend⟩ := ih
    exact ⟨n :: turns, f', .turn hn hturns, hend⟩

/-- What can be reached is the source or has an edge to it. -/
theorem mem_targets_of_path (h : ReflTransGen g.Edge a b) : b ∈ a :: g.targets := by
  rcases h.cases_tail with rfl | ⟨n, _, hn⟩
  · exact List.mem_cons_self ..
  · exact List.mem_cons_of_mem _ (mem_targets hn)

/-- The search for a path is exact, in whatever order successors are given and however often they
repeat. Its turns go to distinct nodes within reach, so there are no more of them than nodes; it
ends, because none waits or because the target's turn has come, and answers which of the two it was;
and the answer is yes just if a path of zero or more edges leads to the target. -/
theorem reaches_exact (g : Digraph) (source target : Nat) :
    (∀ turns f, g.Turns target (.start source) turns f →
        turns.Nodup ∧ (∀ n ∈ turns, ReflTransGen g.Edge source n) ∧
          turns.length ≤ (source :: g.targets).toFinset.card) ∧
      (∃ turns f, g.Turns target (.start source) turns f ∧
        (f.waiting = [] ∧ g.reaches source target = false ∨
          f.waiting.head? = some target ∧ g.reaches source target = true)) ∧
      (g.reaches source target = true ↔ ReflTransGen g.Edge source target) := by
  refine ⟨fun turns f ht => ?_, exists_turns g target (.start source), reaches_iff⟩
  have hdistinct : turns.Nodup := (ht.distinct (Frontier.orderly_start source)).1
  have hwithin := ht.within (seeking_start g source target)
  refine ⟨hdistinct, hwithin, ?_⟩
  rw [← List.toFinset_card_of_nodup hdistinct]
  refine Finset.card_le_card fun n hn => List.mem_toFinset.2 ?_
  exact mem_targets_of_path (hwithin n (List.mem_toFinset.1 hn))

/-- From a circle with a repeated edge and a loop a path leads out, and none leads in. -/
example : (Digraph.mk #[[1, 1], [0, 1, 2], []]).reaches 0 2 = true ∧
    (Digraph.mk #[[1, 1], [0, 1, 2], []]).reaches 2 0 = false := by decide +kernel

end

/-! ## The depth-first search -/

/-- All paths from the node end. -/
def Ends (g : Digraph) (n : Nat) : Prop := Acc (fun b a => g.Edge a b) n

theorem ends_of_size_le (h : g.size ≤ n) : g.Ends n :=
  Acc.intro n fun _ hb => absurd hb.lt_size (Nat.not_lt.2 h)

/-- Each successor of a node of the walk is still to be tried, is done with, or is the next node of
the walk. -/
def Tried (g : Digraph) : Option Nat → List Frame → Prop
  | _, [] => True
  | above, f :: walk =>
    (∀ c ∈ g.next f.node, c ∈ f.rest ∨ g.Ends c ∨ above = some c) ∧ g.Tried (some f.node) walk

/-- A node done with need no longer be the next one. -/
theorem Tried.of_ends {walk : List Frame} (h : g.Tried (some n) walk) (hn : g.Ends n) :
    g.Tried none walk := by
  cases walk with
  | nil => trivial
  | cons f walk =>
    refine ⟨fun c hc => ?_, h.2⟩
    rcases h.1 c hc with hr | he | hs
    · exact .inl hr
    · exact .inr (.inl he)
    · cases hs
      exact .inr (.inl hn)

/-- What holds of a search under way. -/
structure Searched (g : Digraph) (walk : List Frame) (seen : NodeSet) : Prop where
  seen : ∀ n ∈ seen, n ∈ walk.map (·.node) ∨ g.Ends n
  tried : g.Tried none walk

/-- A search without closed walk ends with every node it saw done. -/
theorem acc_of_search {seen' : NodeSet} (h : g.Searched walk seen)
    (hok : g.search walk seen = .ok seen') :
    (∀ n ∈ seen, n ∈ seen') ∧ ∀ n ∈ seen', g.Ends n := by
  fun_induction search g walk seen with
  | case1 seen =>
    cases hok
    exact ⟨fun n hn => hn, fun n hn => (h.seen n hn).resolve_left (by simp)⟩
  | case2 n walk seen ih =>
    have hn : g.Ends n := by
      refine Acc.intro n fun c hc => ?_
      show g.Ends c
      simpa using h.tried.1 c hc
    refine ih ⟨fun m hm => ?_, h.tried.2.of_ends hn⟩ hok
    rcases h.seen m hm with hw | he
    · rcases List.mem_cons.1 hw with rfl | hw
      · exact .inr hn
      · exact .inl hw
    · exact .inr he
  | case3 n c rest walk seen hc ih =>
    have hnew : g.Searched (g.frame c :: ⟨n, rest⟩ :: walk) (seen.insert c) := by
      refine ⟨fun m hm => ?_, fun d hd => .inl hd, fun d hd => ?_, h.tried.2⟩
      · rw [Std.TreeSet.mem_insert, Std.LawfulEqCmp.compare_eq_iff_eq] at hm
        rcases hm with rfl | hm
        · exact .inl (List.mem_cons_self ..)
        · rcases h.seen m hm with hw | he
          · exact .inl (List.mem_cons_of_mem _ hw)
          · exact .inr he
      · rcases h.tried.1 d hd with hr | he | hs
        · rcases List.mem_cons.1 hr with rfl | hr
          · exact .inr (.inr rfl)
          · exact .inl hr
        · exact .inr (.inl he)
        · cases hs
    obtain ⟨hsub, hends⟩ := ih hnew hok
    exact ⟨fun m hm => hsub m (Std.TreeSet.mem_insert.2 (.inr hm)), hends⟩
  | case4 n c rest walk seen hc hcycle => cases hok
  | case5 n c rest walk seen hc hcycle ih =>
    have hends : g.Ends c := by
      by_cases hlt : c < g.size
      · have hs : c ∈ seen := by
          by_contra hs
          exact hc ⟨hlt, hs⟩
        refine (h.seen c hs).resolve_left fun hw => hcycle ?_
        exact List.mem_cons.1 hw
      · exact ends_of_size_le (Nat.le_of_not_lt hlt)
    refine ih ⟨h.seen, fun d hd => ?_, h.tried.2⟩ hok
    rcases h.tried.1 d hd with hr | he | hs
    · rcases List.mem_cons.1 hr with rfl | hr
      · exact .inr (.inl hends)
      · exact .inl hr
    · exact .inr (.inl he)
    · cases hs

theorem acc_of_searchRoots {seen' : NodeSet} (h : ∀ n ∈ seen, g.Ends n)
    (hok : g.searchRoots roots seen = .ok seen') :
    (∀ n ∈ seen', g.Ends n) ∧ (∀ n ∈ seen, n ∈ seen') ∧ ∀ root ∈ roots, g.Ends root := by
  induction roots generalizing seen with
  | nil =>
    cases hok
    exact ⟨h, fun n hn => hn, by simp⟩
  | cons root roots ih =>
    rw [searchRoots] at hok
    split at hok
    · cases hsearch : g.search [g.frame root] (seen.insert root) with
      | error walk =>
        rw [hsearch] at hok
        cases hok
      | ok seen₁ =>
        rw [hsearch] at hok
        have hstart : g.Searched [g.frame root] (seen.insert root) := by
          refine ⟨fun n hn => ?_, fun c hc => .inl hc, trivial⟩
          rw [Std.TreeSet.mem_insert, Std.LawfulEqCmp.compare_eq_iff_eq] at hn
          rcases hn with rfl | hn
          · exact .inl (List.mem_cons_self ..)
          · exact .inr (h n hn)
        obtain ⟨hsub, hends⟩ := acc_of_search hstart hsearch
        obtain ⟨hseen', hsub', hroots⟩ := ih hends hok
        refine ⟨hseen', fun n hn => hsub' n (hsub n (Std.TreeSet.mem_insert.2 (.inr hn))), ?_⟩
        intro m hm
        rcases List.mem_cons.1 hm with rfl | hm
        · exact hends m (hsub m Std.TreeSet.mem_insert_self)
        · exact hroots m hm
    · rename_i hroot
      obtain ⟨hseen', hsub', hroots⟩ := ih h hok
      refine ⟨hseen', hsub', fun m hm => ?_⟩
      rcases List.mem_cons.1 hm with rfl | hm
      · by_cases hlt : m < g.size
        · have hs : m ∈ seen := by
            by_contra hs
            exact hroot ⟨hlt, hs⟩
          exact h m hs
        · exact ends_of_size_le (Nat.le_of_not_lt hlt)
      · exact hroots m hm

/-- All paths from the roots of a graph that passes the check end. -/
theorem acc_of_checkCycles {name : Nat → String} (h : g.checkCycles roots name = .ok ()) :
    ∀ root ∈ roots, g.Ends root := by
  have hnone : g.closedWalk? roots = none := by
    rw [checkCycles] at h
    split at h
    · assumption
    · cases h
  rw [closedWalk?] at hnone
  cases hs : g.searchRoots roots ∅ with
  | ok seen => exact (acc_of_searchRoots (fun n hn => by simp at hn) hs).2.2
  | error walk =>
    rw [hs] at hnone
    cases hnone

/-- A graph that passes the check from every node with a successor has no loop. -/
theorem acyclic_of_checkCycles {name : Nat → String} (h : g.checkCycles roots name = .ok ())
    (hroots : ∀ a b, g.Edge a b → a ∈ roots) : Acyclic g.Edge :=
  .of_acc fun a b hab => acc_of_checkCycles h a (hroots a b hab)

/-! ## Walks that close on themselves -/

/-- The walk follows the edges, and what is still to be tried are successors. -/
def Follows (g : Digraph) : List Frame → Prop
  | [] => True
  | [f] => ∀ c ∈ f.rest, g.Edge f.node c
  | f :: f' :: walk => (∀ c ∈ f.rest, g.Edge f.node c) ∧ g.Edge f'.node f.node ∧
      g.Follows (f' :: walk)

theorem Follows.rest {f : Frame} (h : g.Follows (f :: walk)) : ∀ c ∈ f.rest, g.Edge f.node c := by
  cases walk with
  | nil => exact h
  | cons f' walk => exact h.1

theorem Follows.tail {f : Frame} (h : g.Follows (f :: walk)) : g.Follows walk := by
  cases walk with
  | nil => trivial
  | cons f' walk => exact h.2.2

/-- Which successors are still to be tried counts for the latest node only. -/
theorem Follows.retry {rest : List Nat} {f : Frame} (h : g.Follows (f :: walk))
    (hrest : ∀ c ∈ rest, c ∈ f.rest) : g.Follows (⟨f.node, rest⟩ :: walk) := by
  cases walk with
  | nil => exact fun c hc => h c (hrest c hc)
  | cons f' walk => exact ⟨fun c hc => h.1 c (hrest c hc), h.2⟩

/-- A walk leads from each of its nodes to the latest. -/
theorem Follows.path {f : Frame} (h : g.Follows (f :: walk)) :
    ∀ c ∈ (f :: walk).map (·.node), ReflTransGen g.Edge c f.node := by
  induction walk generalizing f with
  | nil =>
    intro c hc
    rw [List.mem_singleton.1 hc]
  | cons f' walk ih =>
    intro c hc
    rcases List.mem_cons.1 hc with rfl | hc
    · exact .refl
    · exact (ih h.2.2 c hc).tail h.2.1

/-- Where a search ends with an error there is a loop. -/
theorem loop_of_search {nodes : List Nat} (h : g.Follows walk)
    (herr : g.search walk seen = .error nodes) : ¬ Acyclic g.Edge := by
  fun_induction search g walk seen with
  | case1 seen => cases herr
  | case2 n walk seen ih => exact ih h.tail herr
  | case3 n c rest walk seen hc ih =>
    have hretry : g.Follows (⟨n, rest⟩ :: walk) := h.retry fun c hc => List.mem_cons_of_mem _ hc
    exact ih ⟨fun d hd => hd, h.rest c (List.mem_cons_self ..), hretry⟩ herr
  | case4 n c rest walk seen hc hcycle =>
    have hback : ReflTransGen g.Edge c n := h.path c (List.mem_cons.2 hcycle)
    exact fun hacyc => hacyc n (.head' (h.rest c (List.mem_cons_self ..)) hback)
  | case5 n c rest walk seen hc hcycle ih =>
    exact ih (h.retry fun c hc => List.mem_cons_of_mem _ hc) herr

theorem loop_of_searchRoots {nodes : List Nat} (herr : g.searchRoots roots seen = .error nodes) :
    ¬ Acyclic g.Edge := by
  induction roots generalizing seen with
  | nil => cases herr
  | cons root roots ih =>
    rw [searchRoots] at herr
    split at herr
    · split at herr
      · exact ih herr
      · rename_i hsearch
        have hstart : g.Follows [g.frame root] := fun c hc => hc
        exact loop_of_search hstart hsearch
    · exact ih herr

/-- The check refuses no graph without a loop. -/
theorem checkCycles_of_acyclic (h : Acyclic g.Edge) (roots : List Nat) (name : Nat → String) :
    g.checkCycles roots name = .ok () := by
  rw [checkCycles, closedWalk?]
  cases hs : g.searchRoots roots ∅ with
  | ok seen => rfl
  | error nodes => exact absurd h (loop_of_searchRoots hs)

end Digraph

end Foreman
