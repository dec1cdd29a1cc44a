import Foreman.Digraph
import Mathlib.Data.List.Basic
import Std.Data.TreeMap

/-!
# Totals over lists and maps

What a total comes to when one entry is replaced, when the list is another, and over the values of a
map.
-/

namespace Foreman

section Lists

variable {α β : Type} {f : α → Nat} {l l' : List α} {i : Nat} {a' : α}

/-- A total after one entry of a list is replaced. -/
theorem total_set (f : α → Nat) {l : List α} {a : α} (h : l[i]? = some a) (b : α) :
    total f (l.set i b) + f a = total f l + f b := by
  induction l generalizing i with
  | nil => simp at h
  | cons c l ih =>
    cases i with
    | zero =>
      simp only [List.getElem?_cons_zero, Option.some.injEq] at h
      subst h
      simp only [List.set_cons_zero, total_cons]
      omega
    | succ i =>
      have := ih (by simpa using h)
      simp only [List.set_cons_succ, total_cons]
      omega

theorem total_eq_zero_iff : total f l = 0 ↔ ∀ a ∈ l, f a = 0 := by
  induction l with
  | nil => simp
  | cons a l ih => simp [ih]

theorem total_replicate (f : α → Nat) (n : Nat) (a : α) :
    total f (List.replicate n a) = n * f a := by
  induction n with
  | zero => simp
  | succ n ih =>
    rw [List.replicate_succ, total_cons, ih, Nat.succ_mul]
    omega

theorem total_const (k : Nat) (l : List α) : total (fun _ => k) l = k * l.length := by
  induction l with
  | nil => rfl
  | cons a l ih => rw [total_cons, ih, List.length_cons, Nat.mul_succ, Nat.add_comm]

/-- Place by place the one list has no more than the other. -/
theorem total_le_of_getElem?
    (h : ∀ (i : Nat) a, l[i]? = some a → ∃ a', l'[i]? = some a' ∧ f a ≤ f a') :
    total f l ≤ total f l' := by
  induction l generalizing l' with
  | nil => exact Nat.zero_le _
  | cons a l ih =>
    cases l' with
    | nil =>
      obtain ⟨a', ha', _⟩ := h 0 a rfl
      cases ha'
    | cons a' l' =>
      obtain ⟨_, hb, hle⟩ := h 0 a rfl
      cases hb
      exact Nat.add_le_add hle (ih fun i b hb => h (i + 1) b hb)

theorem total_lt_of_getElem?
    (h : ∀ (i : Nat) a, l[i]? = some a → ∃ a', l'[i]? = some a' ∧ f a ≤ f a')
    (hi : l'[i]? = some a') (hpos : 0 < f a') (hlt : ∀ a, l[i]? = some a → f a < f a') :
    total f l < total f l' := by
  induction l generalizing l' i with
  | nil =>
    have := total_add_le_total (f := fun _ => 0) (g := f) (k := f a') (fun _ => Nat.zero_le _)
      (List.mem_of_getElem? hi) (by simp)
    rw [total_nil]
    omega
  | cons a l ih =>
    cases l' with
    | nil => cases hi
    | cons b l' =>
      obtain ⟨_, hb, hle⟩ := h 0 a rfl
      cases hb
      have htail := fun i c hc => h (i + 1) c hc
      rw [total_cons, total_cons]
      cases i with
      | zero =>
        cases hi
        exact Nat.add_lt_add_of_lt_of_le (hlt a rfl) (total_le_of_getElem? htail)
      | succ i => exact Nat.add_lt_add_of_le_of_lt hle (ih htail hi hlt)

theorem total_perm {l l' : List α} (h : l.Perm l') : total f l = total f l' := by
  induction h with
  | nil => rfl
  | cons a _ ih => simp only [total_cons, ih]
  | swap a b l =>
    simp only [total_cons]
    omega
  | trans _ _ ih ih' => exact ih.trans ih'

theorem total_map (g : β → α) (l : List β) : total f (l.map g) = total (fun b => f (g b)) l := by
  induction l with
  | nil => rfl
  | cons b l ih => simp only [List.map_cons, total_cons, ih]

theorem zip_set {l : List α} {l' : List β} {i : Nat} {a : α} (h : l[i]? = some a) (b : β) :
    l.zip (l'.set i b) = (l.zip l').set i (a, b) := by
  induction l generalizing l' i with
  | nil => simp at h
  | cons c l ih =>
    cases l' with
    | nil => simp
    | cons d l' =>
      cases i with
      | zero => simp_all
      | succ i => simp [ih (by simpa using h)]

end Lists

section Maps

theorem values_eq_map {α β : Type} [Ord α] (m : Std.TreeMap α β) :
    m.values = m.toList.map (·.2) := by
  show m.foldr (fun _ b l => b :: l) [] = _
  rw [Std.TreeMap.foldr_eq_foldr_toList]
  induction m.toList with
  | nil => rfl
  | cons e l ih => rw [List.foldr_cons, ih, List.map_cons]

variable {α β : Type} [Ord α] [Std.TransOrd α] [Std.LawfulEqOrd α] {m : Std.TreeMap α β} {b : β}

/-- A value that is stored under one key is seen there and nowhere else. -/
theorem getElem?_insert_eq_ite [DecidableEq α] (k a : α) (v : β) :
    (m.insert k v)[a]? = if a = k then some v else m[a]? := by
  rw [Std.TreeMap.getElem?_insert]
  by_cases h : a = k
  · subst h
    simp
  · rw [if_neg h, if_neg]
    rw [Std.LawfulEqCmp.compare_eq_iff_eq]
    exact fun he => h he.symm

theorem getElem?_erase_eq_ite [DecidableEq α] (k a : α) :
    (m.erase k)[a]? = if a = k then none else m[a]? := by
  rw [Std.TreeMap.getElem?_erase]
  by_cases h : a = k
  · subst h
    simp
  · rw [if_neg h, if_neg]
    rw [Std.LawfulEqCmp.compare_eq_iff_eq]
    exact fun he => h he.symm

theorem mem_values : b ∈ m.values ↔ ∃ a : α, m[a]? = some b := by
  rw [values_eq_map, List.mem_map]
  constructor
  · rintro ⟨e, he, rfl⟩
    exact ⟨e.1, Std.TreeMap.mem_toList_iff_getElem?_eq_some.1 he⟩
  · rintro ⟨a, ha⟩
    exact ⟨(a, b), Std.TreeMap.mem_toList_iff_getElem?_eq_some.2 ha, rfl⟩

/-- A total over the values of a map, key by key. -/
theorem total_values (f : β → Nat) (m : Std.TreeMap α β) :
    total f m.values = total (fun a => (m[a]?).elim 0 f) m.keys := by
  have hmap : ∀ l : List (α × β), (∀ e ∈ l, m[e.1]? = some e.2) →
      total f (l.map (·.2)) = total (fun a => (m[a]?).elim 0 f) (l.map (·.1)) := by
    intro l
    induction l with
    | nil => exact fun _ => rfl
    | cons e l ih =>
      intro h
      rw [List.map_cons, List.map_cons, total_cons, total_cons, h e (List.mem_cons_self ..),
        ih fun e he => h e (List.mem_cons_of_mem _ he)]
      rfl
  rw [values_eq_map, hmap _ fun e he => Std.TreeMap.mem_toList_iff_getElem?_eq_some.1 he,
    Std.TreeMap.map_fst_toList_eq_keys]

/-- A total over a map after one entry is replaced. -/
theorem total_values_replace [DecidableEq α] (f : β → Nat) {m' : Std.TreeMap α β} {a : α} {b' : β}
    (hb : m[a]? = some b) (h : ∀ k, m'[k]? = if k = a then some b' else m[k]?) :
    total f m'.values + f b = total f m.values + f b' := by
  have hinsert : ∀ (m' : Std.TreeMap α β) (c : β),
      (∀ k, m'[k]? = if k = a then some c else m[k]?) → total f m'.values =
        f c + total (fun e : α × β => f e.2) (m.toList.filter fun e => ¬ a == e.1) := by
    intro m' c hc
    have he : m'.Equiv (m.insert a c) := by
      refine Std.TreeMap.Equiv.of_forall_constGet?_eq fun k => ?_
      rw [hc, getElem?_insert_eq_ite]
    rw [he.values_eq, values_eq_map, total_map, total_perm Std.TreeMap.toList_insert_perm,
      total_cons]
  have hold := hinsert m b fun k => by
    split
    · rename_i hk
      rw [hk, hb]
    · rfl
  rw [hinsert m' b' h, hold]
  omega

end Maps

end Foreman
