import Mathlib.Data.List.Basic
import Mathlib.Tactic.Common

/-!
# Ordered maps as lists

A map is the list of its entries in the order of their keys. Only how entries are
found matters for the lemmas, so they hold whatever the order is.
-/

namespace OrderedMaps

universe u v

variable {K : Type u} {V : Type v} [DecidableEq K]

variable (lt : K → K → Bool) (m : List (K × V)) (k k' : K)

def find : List (K × V) → K → Option V
  | [], _ => none
  | (a, v) :: m, k => if a = k then some v else find m k

def put (lt : K → K → Bool) : List (K × V) → K → V → List (K × V)
  | [], k, v => [(k, v)]
  | (a, w) :: m, k, v =>
    if a = k then (k, v) :: m
    else if lt k a then (k, v) :: (a, w) :: m
    else (a, w) :: put lt m k v

lemma find_put_self (v : V) : find (put lt m k v) k = some v := by
  fun_induction put lt m k v with
  | case1 => rw [find, if_pos rfl]
  | case2 => rw [find, if_pos rfl]
  | case3 => rw [find, if_pos rfl]
  | case4 a w m k v hne hlt ih => rw [find, if_neg hne, ih]

lemma find_put_other (v : V) (h : k' ≠ k) : find (put lt m k v) k' = find m k' := by
  fun_induction put lt m k v with
  | case1 => simp [find, h.symm]
  | case2 => rw [find, find, if_neg h.symm, if_neg h.symm]
  | case3 => rw [find, if_neg h.symm]
  | case4 a w m k v hne hlt ih => rw [find, find, ih h]

lemma find_put (v : V) : find (put lt m k v) k' = if k' = k then some v else find m k' := by
  split
  · rename_i h
    rw [h, find_put_self]
  · exact find_put_other lt m k k' v ‹_›

lemma mem_of_find (v : V) (h : find m k = some v) : (k, v) ∈ m := by
  induction m with
  | nil => simp [find] at h
  | cons x m ih =>
    rw [find] at h
    split at h
    · rename_i hx
      obtain rfl := Option.some.inj h
      rw [← hx]
      exact List.mem_cons_self
    · exact List.mem_cons_of_mem _ (ih h)

lemma find_filter (P : K × V → Bool) (k : K) (v : V) (h : find m k = some v)
    (hP : P (k, v) = true) : find (m.filter P) k = some v := by
  induction m with
  | nil => simp [find] at h
  | cons x m ih =>
    obtain ⟨a, w⟩ := x
    rw [find] at h
    by_cases ha : a = k
    · rw [if_pos ha] at h
      obtain rfl := Option.some.inj h
      subst ha
      rw [List.filter_cons_of_pos hP, find, if_pos rfl]
    · rw [if_neg ha] at h
      rw [List.filter_cons]
      split
      · rw [find, if_neg ha]
        exact ih h
      · exact ih h

lemma mem_put {lt : K → K → Bool} {m : List (K × V)} {k : K} {v : V} {x : K × V}
    (h : x ∈ put lt m k v) : x = (k, v) ∨ x ∈ m := by
  fun_induction put lt m k v with
  | case1 => exact .inl (List.mem_singleton.mp h)
  | case2 => exact (List.mem_cons.mp h).imp_right (List.mem_cons_of_mem _)
  | case3 => exact List.mem_cons.mp h
  | case4 a w m k v hne hlt ih =>
    rcases List.mem_cons.mp h with rfl | h
    · exact .inr List.mem_cons_self
    · exact (ih h).imp_right (List.mem_cons_of_mem _)

lemma find_ne_none {m : List (K × V)} {x : K × V} (h : x ∈ m) : find m x.1 ≠ none := by
  induction m with
  | nil => cases h
  | cons y m ih =>
    rw [find]
    split
    · exact Option.some_ne_none _
    · rename_i hne
      rcases List.mem_cons.mp h with rfl | h
      · exact absurd rfl hne
      · exact ih h

end OrderedMaps
