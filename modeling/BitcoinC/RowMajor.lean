import Mathlib.Data.List.Basic
import Mathlib.Data.List.Nodup

/-!
# Matrices stored row by row

The columns of a matrix that is kept as the list of its rows one after the other.
-/

namespace RowMajor

universe u v

variable {α : Type u} {β : Type v}

def column (cols rows c : Nat) (xs : List α) : List α :=
  (List.range rows).filterMap fun k => xs[k * cols + c]?

lemma map_column (f : α → β) (cols rows c : Nat) (xs : List α) :
    column cols rows c (xs.map f) = (column cols rows c xs).map f := by
  simp [column, List.map_filterMap]

lemma length_column_le (cols rows c : Nat) (xs : List α) :
    (column cols rows c xs).length ≤ rows := by
  have h := List.length_filterMap_le (fun k => xs[k * cols + c]?) (List.range rows)
  rwa [List.length_range] at h

lemma mem_of_mem_column {cols rows c : Nat} {xs : List α} {x : α}
    (h : x ∈ column cols rows c xs) : x ∈ xs := by
  obtain ⟨k, -, hk⟩ := List.mem_filterMap.mp h
  exact List.mem_of_getElem? hk

lemma column_nodup {cols rows c : Nat} {xs : List α} (hcols : 0 < cols) (h : xs.Nodup) :
    (column cols rows c xs).Nodup := by
  refine List.Nodup.filterMap ?_ List.nodup_range
  intro k l x hk hl
  obtain ⟨hlt, -⟩ := List.getElem?_eq_some_iff.mp hk
  have hsame : k * cols + c = l * cols + c := (List.getElem?_inj hlt h).mp (hk.trans hl.symm)
  exact Nat.eq_of_mul_eq_mul_right hcols (Nat.add_right_cancel hsame)

end RowMajor
