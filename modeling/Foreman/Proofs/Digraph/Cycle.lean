import Mathlib.Data.List.Chain
import Foreman.Proofs.Digraph

/-!
# The cycle that is reported

The walk that the depth-first search finds closed is a cycle within reach of the roots
(`cycle_of_searchRoots`), and where it finds none there is none (`Ends.not_loop`). Among the nodes
of a cycle the breadth-first search, started at any of them, closes a cycle through it: what it
queues are trails from the start (`Spread`), and once its queue is used up it has seen all that can
be reached among the members (`exists_cycleThrough`). So the check refuses a graph just if a cycle
can be reached from the roots, and then names one (`checkCycles_spec`).
-/

namespace Foreman

namespace Digraph

open Relation

variable {g : Digraph} {walk : List Frame} {seen : NodeSet} {roots : List Nat}
  {members nodes path cs : List Nat} {queue : List (List Nat)} {name : Nat → String}
  {start c n : Nat}

/-! ## Cycles and trails -/

/-- Distinct nodes with an edge from each to the next and from the last to the first. -/
structure IsCycle (g : Digraph) (nodes : List Nat) : Prop where
  distinct : nodes.Nodup
  chain : nodes.IsChain g.Edge
  closes : ∃ first ∈ nodes.head?, ∃ last ∈ nodes.getLast?, g.Edge last first

/-- A path leads from some root to the node. -/
def Within (g : Digraph) (roots : List Nat) (n : Nat) : Prop :=
  ∃ root ∈ roots, ReflTransGen g.Edge root n

/-- From each of its nodes a cycle leads back to it, without leaving its nodes. -/
theorem IsCycle.loop (h : g.IsCycle nodes) (hn : n ∈ nodes) :
    TransGen (fun a b => g.Edge a b ∧ b ∈ nodes) n n := by
  obtain ⟨first, hfirst, last, hlast, hclose⟩ := h.closes
  have hchain : nodes.IsChain fun a b => g.Edge a b ∧ b ∈ nodes :=
    h.chain.imp_of_mem_imp fun a b _ hb hab => ⟨hab, hb⟩
  have hto : ReflTransGen (fun a b => g.Edge a b ∧ b ∈ nodes) n last := by
    refine hchain.backwards_induction (fun a => ReflTransGen _ a last) nodes
      (fun a b hab hb => hb.head hab) (fun hne => ?_) n hn
    rw [Option.mem_def, List.getLast?_eq_some_getLast hne] at hlast
    cases hlast
    exact .refl
  have hfrom : ReflTransGen (fun a b => g.Edge a b ∧ b ∈ nodes) first n := by
    refine hchain.induction (fun a => ReflTransGen _ first a) nodes
      (fun a b hab ha => ha.tail hab) (fun hne => ?_) n hn
    rw [Option.mem_def, List.head?_eq_some_head hne] at hfirst
    cases hfirst
    exact .refl
  have hmem : first ∈ nodes := List.mem_of_head? hfirst
  exact TransGen.trans_right hto (.head' ⟨hclose, hmem⟩ hfrom)

/-- Distinct nodes, latest first, that lead from the start along the edges. -/
structure Trail (g : Digraph) (start : Nat) (path : List Nat) : Prop where
  distinct : path.Nodup
  chain : path.IsChain fun a b => g.Edge b a
  starts : path.getLast? = some start

/-- An edge back to the start makes a trail a cycle. -/
theorem Trail.cycle (h : g.Trail start (n :: path)) (hback : g.Edge n start) :
    g.IsCycle (n :: path).reverse := by
  refine ⟨List.nodup_reverse.2 h.distinct, List.isChain_reverse.2 h.chain, start, ?_, n, ?_, hback⟩
  · rw [List.head?_reverse]
    exact h.starts
  · rw [List.getLast?_reverse]
    rfl

theorem Trail.cons (h : g.Trail start (n :: path)) (hc : g.Edge n c) (hnew : c ∉ n :: path) :
    g.Trail start (c :: n :: path) := by
  refine ⟨List.nodup_cons.2 ⟨hnew, h.distinct⟩, .cons_cons hc h.chain, ?_⟩
  rw [List.getLast?_cons_cons]
  exact h.starts

/-! ## The walk that closes on itself -/

theorem Follows.chain (h : g.Follows walk) :
    (walk.map (·.node)).IsChain fun a b => g.Edge b a := by
  induction walk with
  | nil => exact .nil
  | cons f walk ih =>
    cases walk with
    | nil => exact .singleton f.node
    | cons f' walk => exact .cons_cons h.2.1 (ih h.2.2)

/-- The latest nodes up to one of them are the first ones of the list. -/
theorem takeWhile_concat_prefix (h : c ∈ nodes) : nodes.takeWhile (· ≠ c) ++ [c] <+: nodes := by
  induction nodes with
  | nil => cases h
  | cons a nodes ih =>
    by_cases hac : a = c
    · subst hac
      simp
    · have hc : c ∈ nodes := (List.mem_cons.1 h).resolve_left (Ne.symm hac)
      rw [List.takeWhile_cons_of_pos (by simpa using hac), List.cons_append]
      exact List.cons_prefix_cons.2 ⟨rfl, ih hc⟩

/-- The part of a walk from one of its nodes on is a cycle, if an edge leads back to that node. -/
theorem Follows.cycle {f : Frame} (h : g.Follows (f :: walk))
    (hdistinct : ((f :: walk).map (·.node)).Nodup) (hc : c ∈ (f :: walk).map (·.node))
    (hback : g.Edge f.node c) :
    g.IsCycle (walkFrom c (f :: walk)) ∧
      ∀ n ∈ walkFrom c (f :: walk), n ∈ (f :: walk).map (·.node) := by
  have hprefix := takeWhile_concat_prefix hc
  have htrail : g.Trail c (((f :: walk).map (·.node)).takeWhile (· ≠ c) ++ [c]) :=
    ⟨hdistinct.sublist hprefix.sublist, h.chain.prefix hprefix, by simp⟩
  refine ⟨?_, fun n hn => hprefix.subset (List.mem_reverse.1 hn)⟩
  unfold walkFrom
  cases hpath : ((f :: walk).map (·.node)).takeWhile (· ≠ c) ++ [c] with
  | nil => simp at hpath
  | cons n path =>
    rw [hpath] at hprefix htrail
    obtain rfl : n = f.node := (List.cons_prefix_cons.1 hprefix).1
    exact htrail.cycle hback

/-- The walk of a search: it follows the edges, comes back to no node, and is all within reach. -/
structure Walked (g : Digraph) (roots : List Nat) (walk : List Frame) (seen : NodeSet) : Prop where
  follows : g.Follows walk
  distinct : (walk.map (·.node)).Nodup
  seen : ∀ n ∈ walk.map (·.node), n ∈ seen
  within : ∀ n ∈ walk.map (·.node), g.Within roots n

theorem Walked.tail {f : Frame} (h : g.Walked roots (f :: walk) seen) :
    g.Walked roots walk seen :=
  ⟨h.follows.tail, (List.nodup_cons.1 h.distinct).2,
    fun n hn => h.seen n (List.mem_cons_of_mem _ hn),
    fun n hn => h.within n (List.mem_cons_of_mem _ hn)⟩

/-- One successor less to be tried. -/
theorem Walked.next {rest : List Nat} (h : g.Walked roots (⟨n, c :: rest⟩ :: walk) seen) :
    g.Walked roots (⟨n, rest⟩ :: walk) seen :=
  ⟨h.follows.retry fun _ hd => List.mem_cons_of_mem _ hd, h.distinct, h.seen, h.within⟩

/-- A successor is visited for the first time. -/
theorem Walked.visit {rest : List Nat} (h : g.Walked roots (⟨n, c :: rest⟩ :: walk) seen)
    (hnew : c ∉ seen) : g.Walked roots (g.frame c :: ⟨n, rest⟩ :: walk) (seen.insert c) := by
  have hedge : g.Edge n c := h.follows.rest c (List.mem_cons_self ..)
  obtain ⟨root, hroot, hpath⟩ := h.within n (List.mem_cons_self ..)
  refine ⟨⟨fun d hd => hd, hedge, h.next.follows⟩, ?_, fun d hd => ?_, fun d hd => ?_⟩
  · exact List.nodup_cons.2 ⟨fun hc => hnew (h.seen c hc), h.distinct⟩
  · rcases List.mem_cons.1 hd with rfl | hd
    · exact Std.TreeSet.mem_insert_self
    · exact Std.TreeSet.mem_insert.2 (.inr (h.seen d hd))
  · rcases List.mem_cons.1 hd with rfl | hd
    · exact ⟨root, hroot, hpath.tail hedge⟩
    · exact h.within d hd

/-- The nodes a search ends at are a cycle within reach. -/
theorem cycle_of_search (h : g.Walked roots walk seen) (herr : g.search walk seen = .error nodes) :
    g.IsCycle nodes ∧ ∀ n ∈ nodes, g.Within roots n := by
  fun_induction search g walk seen with
  | case1 seen => cases herr
  | case2 n walk seen ih => exact ih h.tail herr
  | case3 n c rest walk seen hc ih => exact ih (h.visit hc.2) herr
  | case4 n c rest walk seen hc hcycle =>
    cases herr
    have hedge : g.Edge n c := h.follows.rest c (List.mem_cons_self ..)
    have hmem : c ∈ (⟨n, rest⟩ :: walk).map Frame.node := List.mem_cons.2 hcycle
    obtain ⟨hcyc, hsub⟩ := h.next.follows.cycle h.distinct hmem hedge
    exact ⟨hcyc, fun m hm => h.within m (hsub m hm)⟩
  | case5 n c rest walk seen hc hcycle ih => exact ih h.next herr

theorem cycle_of_searchRoots {starts : List Nat} (hroots : ∀ root ∈ starts, root ∈ roots)
    (herr : g.searchRoots starts seen = .error nodes) :
    g.IsCycle nodes ∧ ∀ n ∈ nodes, g.Within roots n := by
  induction starts generalizing seen with
  | nil => cases herr
  | cons root starts ih =>
    have hrest : ∀ r ∈ starts, r ∈ roots := fun r hr => hroots r (List.mem_cons_of_mem _ hr)
    rw [searchRoots] at herr
    split at herr
    · split at herr
      · exact ih hrest herr
      · rename_i hsearch
        cases herr
        have hfollows : g.Follows [g.frame root] := fun c hc => hc
        refine cycle_of_search ⟨hfollows, List.nodup_singleton root, fun n hn => ?_, fun n hn => ?_⟩
          hsearch
        · rw [List.mem_singleton.1 hn]
          exact Std.TreeSet.mem_insert_self
        · rw [List.mem_singleton.1 hn]
          exact ⟨root, hroots root (List.mem_cons_self ..), .refl⟩
    · exact ih hrest herr

/-- A closed walk is a cycle within reach of the roots. -/
theorem cycle_of_closedWalk? (h : g.closedWalk? roots = some nodes) :
    g.IsCycle nodes ∧ ∀ n ∈ nodes, g.Within roots n := by
  rw [closedWalk?] at h
  split at h
  · cases h
  · rename_i hsearch
    cases h
    exact cycle_of_searchRoots (fun root hroot => hroot) hsearch

/-- All paths end from what can be reached from a node all of whose paths end. -/
theorem Ends.of_path {m : Nat} (h : g.Ends n) (hpath : ReflTransGen g.Edge n m) : g.Ends m := by
  induction hpath with
  | refl => exact h
  | tail _ hab ih => exact ih.inv hab

/-! ## The search for a cycle among the members -/

/-- What a breadth-first search among the members has queued and seen: trails of seen members, and
each seen node is the latest of a queued trail, or all its successors among the members have been
seen, and the start is none of them. -/
structure Spread (g : Digraph) (members : List Nat) (start : Nat) (queue : List (List Nat))
    (seen : NodeSet) : Prop where
  trails : ∀ path ∈ queue, g.Trail start path
  within : ∀ path ∈ queue, ∀ n ∈ path, n ∈ members ∧ n ∈ seen
  covered : ∀ n ∈ seen, (∃ path ∈ queue, path.head? = some n) ∨
    start ∉ g.next n ∧ ∀ c ∈ g.next n, c ∈ members → c ∈ seen

/-- What is queued for the successors of a node, with what was queued before. -/
theorem mem_enqueue {state : List (List Nat) × NodeSet}
    (h : path ∈ (enqueue members nodes cs state).1) :
    path ∈ state.1 ∨ ∃ c ∈ cs, c ∈ members ∧ c ∉ state.2 ∧ path = c :: nodes := by
  fun_induction enqueue members nodes cs state with
  | case1 state => exact .inl h
  | case2 c cs queue seen hc ih =>
    rcases ih h with hold | ⟨d, hd, hdm, hds, rfl⟩
    · rcases List.mem_append.1 hold with hold | hnew
      · exact .inl hold
      · exact .inr ⟨c, List.mem_cons_self .., hc.1, hc.2, List.mem_singleton.1 hnew⟩
    · refine .inr ⟨d, List.mem_cons_of_mem _ hd, hdm, fun hs => hds ?_, rfl⟩
      exact Std.TreeSet.mem_insert.2 (.inr hs)
  | case3 c cs queue seen hc ih =>
    refine (ih h).imp_right ?_
    rintro ⟨d, hd, hrest⟩
    exact ⟨d, List.mem_cons_of_mem _ hd, hrest⟩

/-- Nothing is taken off the queue or forgotten. -/
theorem subset_enqueue (members nodes cs : List Nat) (state : List (List Nat) × NodeSet) :
    (∀ path ∈ state.1, path ∈ (enqueue members nodes cs state).1) ∧
      ∀ n ∈ state.2, n ∈ (enqueue members nodes cs state).2 := by
  fun_induction enqueue members nodes cs state with
  | case1 state => exact ⟨fun _ h => h, fun _ h => h⟩
  | case2 c cs queue seen hc ih =>
    refine ⟨fun path hp => ih.1 path (List.mem_append_left _ hp), fun n hn => ih.2 n ?_⟩
    exact Std.TreeSet.mem_insert.2 (.inr hn)
  | case3 c cs queue seen hc ih => exact ih

/-- A node is seen just if it was before or is one of the successors among the members, and a path
to each that is new is queued. -/
theorem seen_enqueue {state : List (List Nat) × NodeSet} :
    (∀ c ∈ cs, c ∈ members → c ∈ (enqueue members nodes cs state).2) ∧
      ∀ n ∈ (enqueue members nodes cs state).2,
        n ∈ state.2 ∨ (n :: nodes) ∈ (enqueue members nodes cs state).1 := by
  fun_induction enqueue members nodes cs state with
  | case1 state => exact ⟨fun c hc => absurd hc List.not_mem_nil, fun n hn => .inl hn⟩
  | case2 c cs queue seen hc ih =>
    obtain ⟨hqueue, hseen⟩ := subset_enqueue members nodes cs (queue ++ [c :: nodes], seen.insert c)
    refine ⟨fun d hd hm => ?_, fun n hn => ?_⟩
    · rcases List.mem_cons.1 hd with rfl | hd
      · exact hseen d Std.TreeSet.mem_insert_self
      · exact ih.1 d hd hm
    · rcases ih.2 n hn with hold | hnew
      · rw [Std.TreeSet.mem_insert, Std.LawfulEqCmp.compare_eq_iff_eq] at hold
        rcases hold with rfl | hold
        · exact .inr (hqueue _ (List.mem_append_right _ (List.mem_singleton_self _)))
        · exact .inl hold
      · exact .inr hnew
  | case3 c cs queue seen hc ih =>
    refine ⟨fun d hd hm => ?_, ih.2⟩
    rcases List.mem_cons.1 hd with rfl | hd
    · have hs : d ∈ seen := by
        by_contra hs
        exact hc ⟨hm, hs⟩
      exact (subset_enqueue members nodes cs (queue, seen)).2 d hs
    · exact ih.1 d hd hm

/-- The first trail is gone on with. -/
theorem Spread.extend (h : g.Spread members start ((n :: path) :: queue) seen)
    (hopen : start ∉ g.next n) :
    g.Spread members start (enqueue members (n :: path) (g.next n) (queue, seen)).1
      (enqueue members (n :: path) (g.next n) (queue, seen)).2 := by
  obtain ⟨hqueue, hseen⟩ := subset_enqueue members (n :: path) (g.next n) (queue, seen)
  have hfirst : ∀ m ∈ n :: path, m ∈ members ∧ m ∈ seen := h.within _ (List.mem_cons_self ..)
  refine ⟨fun p hp => ?_, fun p hp => ?_, fun m hm => ?_⟩
  · rcases mem_enqueue hp with hold | ⟨c, hc, _, hnew, rfl⟩
    · exact h.trails p (List.mem_cons_of_mem _ hold)
    · exact (h.trails _ (List.mem_cons_self ..)).cons hc fun hin => hnew (hfirst c hin).2
  · rcases mem_enqueue hp with hold | ⟨c, hc, hmem, _, rfl⟩
    · intro m hm
      exact (h.within p (List.mem_cons_of_mem _ hold) m hm).imp_right (hseen m)
    · intro m hm
      rcases List.mem_cons.1 hm with rfl | hm
      · exact ⟨hmem, seen_enqueue.1 m hc hmem⟩
      · exact (hfirst m hm).imp_right (hseen m)
  · rcases seen_enqueue.2 m hm with hold | hnew
    · rcases h.covered m hold with ⟨p, hp, hhead⟩ | ⟨hopen', hclosed⟩
      · rcases List.mem_cons.1 hp with rfl | hp
        · cases hhead
          exact .inr ⟨hopen, fun c hc hmem => seen_enqueue.1 c hc hmem⟩
        · exact .inl ⟨p, hqueue p hp, hhead⟩
      · exact .inr ⟨hopen', fun c hc hmem => hseen c (hclosed c hc hmem)⟩
    · exact .inl ⟨_, hnew, rfl⟩

theorem Spread.drop (h : g.Spread members start ([] :: queue) seen) :
    g.Spread members start queue seen := by
  refine ⟨fun p hp => h.trails p (List.mem_cons_of_mem _ hp),
    fun p hp => h.within p (List.mem_cons_of_mem _ hp), fun n hn => ?_⟩
  refine (h.covered n hn).imp_left ?_
  rintro ⟨p, hp, hhead⟩
  rcases List.mem_cons.1 hp with rfl | hp
  · cases hhead
  · exact ⟨p, hp, hhead⟩

/-- What is found is a cycle among the members, from the start. -/
theorem cycle_of_cycleThrough (h : g.Spread members start queue seen)
    (hfound : g.cycleThrough members start queue seen = some nodes) :
    g.IsCycle nodes ∧ nodes.head? = some start ∧ ∀ n ∈ nodes, n ∈ members := by
  fun_induction cycleThrough g members start queue seen with
  | case1 seen => cases hfound
  | case2 queue seen ih => exact ih h.drop hfound
  | case3 n path queue seen hclose =>
    cases hfound
    have htrail := h.trails _ (List.mem_cons_self ..)
    refine ⟨htrail.cycle hclose, ?_, fun m hm => ?_⟩
    · rw [List.head?_reverse]
      exact htrail.starts
    · exact (h.within _ (List.mem_cons_self ..) m (List.mem_reverse.1 hm)).1
  | case4 n path queue seen hopen state ih => exact ih (h.extend hopen) hfound

/-- A loop through the start among the members is not missed: when the queue is used up, all nodes
that can be reached have been seen, and none of them leads back. -/
theorem exists_cycleThrough (h : g.Spread members start queue seen) (hstart : start ∈ seen)
    (hloop : TransGen (fun a b => g.Edge a b ∧ b ∈ members) start start) :
    ∃ cycle, g.cycleThrough members start queue seen = some cycle := by
  fun_induction cycleThrough g members start queue seen with
  | case1 seen =>
    have hclosed : ∀ n ∈ seen, start ∉ g.next n ∧ ∀ c ∈ g.next n, c ∈ members → c ∈ seen := by
      intro n hn
      exact (h.covered n hn).resolve_left (by simp)
    have hreached : ∀ n, ReflTransGen (fun a b => g.Edge a b ∧ b ∈ members) start n → n ∈ seen := by
      intro n hn
      induction hn with
      | refl => exact hstart
      | tail _ hab ih => exact (hclosed _ ih).2 _ hab.1 hab.2
    obtain ⟨n, hn, hback⟩ := TransGen.tail'_iff.1 hloop
    exact absurd hback.1 (hclosed n (hreached n hn)).1
  | case2 queue seen ih => exact ih h.drop hstart
  | case3 n path queue seen hclose => exact ⟨_, rfl⟩
  | case4 n path queue seen hopen state ih =>
    exact ih (h.extend hopen)
      ((subset_enqueue members (n :: path) (g.next n) (queue, seen)).2 _ hstart)

/-- The search begins with the trail of the start alone. -/
theorem spread_start (hstart : start ∈ members) :
    g.Spread members start [[start]] (Std.TreeSet.empty.insert start) := by
  refine ⟨fun path hp => ?_, fun path hp n hn => ?_, fun n hn => ?_⟩
  · rw [List.mem_singleton.1 hp]
    exact ⟨List.nodup_singleton start, .singleton start, rfl⟩
  · rw [List.mem_singleton.1 hp] at hn
    rw [List.mem_singleton.1 hn]
    exact ⟨hstart, Std.TreeSet.mem_insert_self⟩
  · rw [Std.TreeSet.mem_insert, Std.LawfulEqCmp.compare_eq_iff_eq] at hn
    rcases hn with rfl | hn
    · exact .inl ⟨_, List.mem_singleton_self _, rfl⟩
    · simp [Std.TreeSet.empty_eq_emptyc] at hn

/-! ## The report -/

/-- The chosen node is one of those given, and none of them has a smaller name. -/
theorem leastNamed_spec (name : Nat → String) (best : Nat) (nodes : List Nat) :
    leastNamed name best nodes ∈ best :: nodes ∧
      ∀ n ∈ best :: nodes, name (leastNamed name best nodes) ≤ name n := by
  induction nodes generalizing best with
  | nil =>
    refine ⟨List.mem_singleton_self best, fun n hn => ?_⟩
    rw [List.mem_singleton.1 hn]
    exact String.le_refl _
  | cons c nodes ih =>
    rw [leastNamed]
    by_cases hlt : name c < name best
    · rw [if_pos hlt]
      obtain ⟨hmem, hleast⟩ := ih c
      refine ⟨List.mem_cons_of_mem _ hmem, fun n hn => ?_⟩
      rcases List.mem_cons.1 hn with rfl | hn
      · have hle : name c ≤ name n := (String.le_total ..).resolve_right fun h =>
          String.not_le.2 hlt h
        exact String.le_trans (hleast c (List.mem_cons_self ..)) hle
      · exact hleast n hn
    · rw [if_neg hlt]
      obtain ⟨hmem, hleast⟩ := ih best
      refine ⟨?_, fun n hn => ?_⟩
      · rcases List.mem_cons.1 hmem with heq | hmem
        · rw [heq]
          exact List.mem_cons_self ..
        · exact List.mem_cons_of_mem _ (List.mem_cons_of_mem _ hmem)
      · rcases List.mem_cons.1 hn with rfl | hn
        · exact hleast n (List.mem_cons_self ..)
        · rcases List.mem_cons.1 hn with rfl | hn
          · exact String.le_trans (hleast best (List.mem_cons_self ..)) (String.not_lt.1 hlt)
          · exact hleast n (List.mem_cons_of_mem _ hn)

/-- Among the nodes of a cycle the search from the one with the least name finds a cycle. -/
theorem exists_cycle_among {ns : List Nat} (h : g.IsCycle (n :: ns)) (name : Nat → String) :
    ∃ cycle, g.cycleThrough (n :: ns) (leastNamed name n ns) [[leastNamed name n ns]]
      (Std.TreeSet.empty.insert (leastNamed name n ns)) = some cycle := by
  have hmem := (leastNamed_spec name n ns).1
  exact exists_cycleThrough (spread_start hmem) Std.TreeSet.mem_insert_self (h.loop hmem)

/-- For a cycle among the nodes of a cycle no fallback is needed, and it starts with the least
name. -/
theorem cycleAmong_spec (h : g.IsCycle nodes) (name : Nat → String) :
    g.IsCycle (g.cycleAmong name nodes) ∧ (∀ n ∈ g.cycleAmong name nodes, n ∈ nodes) ∧
      ∃ first ∈ (g.cycleAmong name nodes).head?, ∀ n ∈ nodes, name first ≤ name n := by
  cases nodes with
  | nil =>
    obtain ⟨first, hfirst, _⟩ := h.closes
    cases hfirst
  | cons n ns =>
    obtain ⟨hmem, hleast⟩ := leastNamed_spec name n ns
    obtain ⟨cycle, hcycle⟩ := exists_cycle_among h name
    obtain ⟨hcyc, hhead, hsub⟩ := cycle_of_cycleThrough (spread_start hmem) hcycle
    rw [cycleAmong, hcycle]
    exact ⟨hcyc, hsub, _, hhead, hleast⟩

/-- What the check reports is a cycle within reach of the roots, from its least name on. -/
theorem cycle_of_checkCycles {e : GraphError} (he : g.checkCycles roots name = .error e) :
    ∃ cycle, e = .cycle (cycle.map name) ∧ g.IsCycle cycle ∧ (∀ n ∈ cycle, g.Within roots n) ∧
      ∃ first ∈ cycle.head?, ∀ n ∈ cycle, name first ≤ name n := by
  rw [checkCycles] at he
  split at he
  · cases he
  · rename_i walk hwalk
    cases he
    obtain ⟨hcyc, hwithin⟩ := cycle_of_closedWalk? hwalk
    obtain ⟨hcycle, hsub, first, hfirst, hleast⟩ := cycleAmong_spec hcyc name
    exact ⟨_, rfl, hcycle, fun n hn => hwithin n (hsub n hn), first, hfirst,
      fun n hn => hleast n (hsub n hn)⟩

/-- The check refuses a graph just if a loop can be reached from the roots. What it then reports are
the names of distinct nodes within reach, with an edge from each to the next and from the last to
the first, which has the least name; and the search among the nodes of the closed walk always finds
it. -/
theorem checkCycles_spec (g : Digraph) (roots : List Nat) (name : Nat → String) :
    ((∃ e, g.checkCycles roots name = .error e) ↔
        ∃ n, g.Within roots n ∧ TransGen g.Edge n n) ∧
      (∀ e, g.checkCycles roots name = .error e →
        ∃ cycle, e = .cycle (cycle.map name) ∧ g.IsCycle cycle ∧ (∀ n ∈ cycle, g.Within roots n) ∧
          ∃ first ∈ cycle.head?, ∀ n ∈ cycle, name first ≤ name n) ∧
      ∀ walk, g.closedWalk? roots = some walk →
        ∃ n ns, walk = n :: ns ∧
          ∃ cycle, g.cycleThrough walk (leastNamed name n ns) [[leastNamed name n ns]]
            (Std.TreeSet.empty.insert (leastNamed name n ns)) = some cycle := by
  refine ⟨⟨?_, ?_⟩, fun e => cycle_of_checkCycles, ?_⟩
  · rintro ⟨e, he⟩
    obtain ⟨cycle, _, hcycle, hwithin, first, hfirst, _⟩ := cycle_of_checkCycles he
    have hmem : first ∈ cycle := List.mem_of_head? hfirst
    exact ⟨first, hwithin first hmem, (hcycle.loop hmem).lift id fun _ _ hab => hab.1⟩
  · rintro ⟨n, ⟨root, hroot, hpath⟩, hloop⟩
    cases hcheck : g.checkCycles roots name with
    | ok =>
      have hends : g.Ends root := acc_of_checkCycles hcheck root hroot
      exact absurd hloop (not_loop_of_acc (hends.of_path hpath))
    | error e => exact ⟨e, rfl⟩
  · intro walk hwalk
    have hcyc := (cycle_of_closedWalk? hwalk).1
    cases walk with
    | nil =>
      obtain ⟨first, hfirst, _⟩ := hcyc.closes
      cases hfirst
    | cons n ns => exact ⟨n, ns, rfl, exists_cycle_among hcyc name⟩

end Digraph

end Foreman
