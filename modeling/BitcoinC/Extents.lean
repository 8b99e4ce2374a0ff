import Mathlib.Data.List.Pairwise
import Mathlib.Logic.Function.Basic
import Mathlib.Tactic.SplitIfs

/-!
# Extents of files

Space in a family of files is handed out as extents.
-/

namespace Extents

open List

universe u

structure Extent (ι : Type u) where
  file : ι
  start : Nat
  size : Nat
deriving Repr, DecidableEq

variable {ι : Type u}

def Extent.Holds (r : Extent ι) (x : Nat) : Prop := r.start ≤ x ∧ x < r.start + r.size

/-- Two extents share no byte. -/
def Apart (r r' : Extent ι) : Prop := r.file = r'.file → ∀ x, ¬ (r.Holds x ∧ r'.Holds x)

/-- Disjoint extents that cover each file up to its end. -/
structure Filled (ends : ι → Nat) (rs : List (Extent ι)) : Prop where
  apart : rs.Pairwise Apart
  inside : ∀ r ∈ rs, r.start + r.size ≤ ends r.file
  covered : ∀ f x, x < ends f → ∃ r ∈ rs, r.file = f ∧ r.Holds x

lemma Filled.nil : Filled (fun _ : ι => 0) [] :=
  ⟨.nil, fun _ hr => absurd hr not_mem_nil, fun _ _ hx => absurd hx (Nat.not_lt_zero _)⟩

lemma Filled.append [DecidableEq ι] {ends : ι → Nat} {rs : List (Extent ι)} (h : Filled ends rs)
    (f : ι) (n : Nat) : Filled (Function.update ends f (ends f + n)) (rs ++ [⟨f, ends f, n⟩]) := by
  constructor
  · rw [pairwise_append]
    refine ⟨h.apart, pairwise_singleton _ _, ?_⟩
    rintro r hr r' hr' hfile x ⟨hx, hx'⟩
    obtain rfl := mem_singleton.mp hr'
    have hend := h.inside r hr
    rw [hfile] at hend
    exact absurd (Nat.lt_of_lt_of_le hx.2 hend) (Nat.not_lt.mpr hx'.1)
  · intro r hr
    rcases mem_append.mp hr with hold | hnew
    · refine Nat.le_trans (h.inside r hold) ?_
      rw [Function.update_apply]
      split_ifs with hf
      · rw [hf]
        exact Nat.le_add_right _ _
      · exact Nat.le_refl _
    · obtain rfl := mem_singleton.mp hnew
      exact Nat.le_of_eq (Function.update_self f _ ends).symm
  · intro g x hx
    rw [Function.update_apply] at hx
    split_ifs at hx with hg
    · rcases Nat.lt_or_ge x (ends f) with hlow | hhigh
      · obtain ⟨r, hr, hfile, hholds⟩ := h.covered f x hlow
        exact ⟨r, mem_append_left _ hr, hfile.trans hg.symm, hholds⟩
      · exact ⟨_, mem_append_right _ (mem_singleton.mpr rfl), hg.symm, hhigh, hx⟩
    · obtain ⟨r, hr, hrest⟩ := h.covered g x hx
      exact ⟨r, mem_append_left _ hr, hrest⟩

lemma Filled.append_empty {ends : ι → Nat} {rs : List (Extent ι)} (h : Filled ends rs)
    {r : Extent ι} (hsize : r.size = 0) (hstart : r.start ≤ ends r.file) :
    Filled ends (rs ++ [r]) := by
  constructor
  · rw [pairwise_append]
    refine ⟨h.apart, pairwise_singleton _ _, ?_⟩
    rintro r' - r'' hr'' - x ⟨-, hx⟩
    obtain rfl := mem_singleton.mp hr''
    rw [Extent.Holds, hsize] at hx
    exact absurd hx.1 (Nat.not_le.mpr hx.2)
  · intro r' hr'
    rcases mem_append.mp hr' with hold | hnew
    · exact h.inside r' hold
    · obtain rfl := mem_singleton.mp hnew
      rw [hsize]
      exact hstart
  · intro f x hx
    obtain ⟨r', hr', hrest⟩ := h.covered f x hx
    exact ⟨r', mem_append_left _ hr', hrest⟩

lemma Filled.not_apart {ends : ι → Nat} {rs : List (Extent ι)} (h : Filled ends rs)
    {r : Extent ι} (hstart : r.start < ends r.file) (hsize : 0 < r.size) (more : List (Extent ι)) :
    ¬ (rs ++ r :: more).Pairwise Apart := by
  intro hpair
  obtain ⟨r', hr', hfile, hholds⟩ := h.covered r.file r.start hstart
  have hapart := (pairwise_append.mp hpair).2.2 r' hr' r mem_cons_self
  exact hapart hfile r.start ⟨hholds, Nat.le_refl _, Nat.lt_add_of_pos_right hsize⟩

end Extents
