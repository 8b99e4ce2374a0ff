import Mathlib.Data.Option.Basic
import Mathlib.Tactic.Common

/-!
# Paths through parent pointers

A forest given by a parent function, with a rank that drops by one from a child to
its parent and is zero at the roots.
-/

namespace ParentPaths

universe u

variable {ι : Type u}

def up (parent : ι → Option ι) : Nat → ι → Option ι
  | 0, i => some i
  | k + 1, i => (parent i).bind (up parent k)

def Ancestor (parent : ι → Option ι) (j i : ι) : Prop := ∃ k, up parent k i = some j

/-- The rank grows by one from parent to child and is 0 at a root. -/
structure Ranked (parent : ι → Option ι) (rank : ι → Nat) : Prop where
  child : ∀ i j, parent i = some j → rank i = rank j + 1
  root : ∀ i, parent i = none → rank i = 0

section

variable {parent : ι → Option ι}

lemma up_add (m n : Nat) (i : ι) : up parent (m + n) i = (up parent m i).bind (up parent n) := by
  induction m generalizing i with
  | zero => rw [Nat.zero_add]; rfl
  | succ m ih =>
    rw [Nat.succ_add, up, up]
    cases parent i with
    | none => rfl
    | some j => exact ih j

lemma up_of_parent {i j : ι} {k : Nat} (hj : parent i = some j) (hk : 0 < k) :
    up parent k i = up parent (k - 1) j := by
  obtain ⟨k, rfl⟩ := Nat.exists_eq_succ_of_ne_zero (Nat.pos_iff_ne_zero.mp hk)
  simp only [up, hj, Option.bind_some, Nat.succ_sub_one]

lemma Ancestor.refl (i : ι) : Ancestor parent i i := ⟨0, rfl⟩

lemma Ancestor.trans {i j l : ι} (hlj : Ancestor parent l j) (hji : Ancestor parent j i) :
    Ancestor parent l i := by
  obtain ⟨m, hm⟩ := hji
  obtain ⟨n, hn⟩ := hlj
  refine ⟨m + n, ?_⟩
  rw [up_add, hm]
  exact hn

lemma ancestor_iff {i j : ι} :
    Ancestor parent j i ↔ j = i ∨ ∃ p, parent i = some p ∧ Ancestor parent j p := by
  constructor
  · rintro ⟨k, hk⟩
    cases k with
    | zero => exact Or.inl (Option.some.inj hk).symm
    | succ k =>
      obtain ⟨p, hp, hup⟩ := Option.bind_eq_some_iff.mp hk
      exact Or.inr ⟨p, hp, k, hup⟩
  · rintro (rfl | ⟨p, hp, k, hk⟩)
    · exact .refl j
    · exact ⟨k + 1, Option.bind_eq_some_iff.mpr ⟨p, hp, hk⟩⟩

end

section

variable {parent : ι → Option ι} {rank : ι → Nat} (h : Ranked parent rank)
include h

lemma Ranked.rank_of_up {k : Nat} {i j : ι} (hup : up parent k i = some j) :
    rank i = rank j + k := by
  induction k generalizing i with
  | zero => rw [Option.some.inj hup, Nat.add_zero]
  | succ k ih =>
    obtain ⟨p, hp, hrest⟩ := Option.bind_eq_some_iff.mp hup
    have hchild := h.child i p hp
    have hpath := ih hrest
    omega

lemma Ranked.exists_up {k : Nat} {i : ι} (hk : k ≤ rank i) : ∃ j, up parent k i = some j := by
  induction k generalizing i with
  | zero => exact ⟨i, rfl⟩
  | succ k ih =>
    cases hp : parent i with
    | none =>
      have hroot := h.root i hp
      omega
    | some p =>
      have hchild := h.child i p hp
      obtain ⟨j, hj⟩ := ih (i := p) (by omega)
      exact ⟨j, Option.bind_eq_some_iff.mpr ⟨p, hp, hj⟩⟩

lemma Ranked.ancestor_iff_up {i j : ι} :
    Ancestor parent j i ↔ rank j ≤ rank i ∧ up parent (rank i - rank j) i = some j := by
  constructor
  · rintro ⟨k, hk⟩
    have hrank := h.rank_of_up hk
    have hsteps : rank i - rank j = k := by omega
    exact ⟨by omega, hsteps ▸ hk⟩
  · exact fun hup => ⟨_, hup.2⟩

lemma Ranked.rank_le {i j : ι} (hj : Ancestor parent j i) : rank j ≤ rank i :=
  (h.ancestor_iff_up.mp hj).1

lemma Ranked.ancestor_unique {i j l : ι} (hj : Ancestor parent j i) (hl : Ancestor parent l i)
    (hrank : rank j = rank l) : j = l := by
  have hup := (h.ancestor_iff_up.mp hj).2
  rw [hrank, (h.ancestor_iff_up.mp hl).2] at hup
  exact (Option.some.inj hup).symm

lemma Ranked.ancestor_of_le {i j l : ι} (hj : Ancestor parent j i) (hl : Ancestor parent l i)
    (hrank : rank j ≤ rank l) : Ancestor parent j l := by
  obtain ⟨p, hp⟩ := h.exists_up (k := rank l - rank j) (i := l) (by omega)
  have hpi : Ancestor parent p i := Ancestor.trans ⟨_, hp⟩ hl
  have hsame : rank p = rank j := by
    have hr := h.rank_of_up hp
    omega
  exact h.ancestor_unique hpi hj hsame ▸ ⟨_, hp⟩

end

def HighestOf (rank : ι → Nat) (P : ι → Prop) : Option ι → Prop
  | some j => P j ∧ ∀ l, P l → rank l ≤ rank j
  | none => ∀ l, ¬ P l

lemma HighestOf.congr {rank : ι → Nat} {P Q : ι → Prop} {r : Option ι} (hr : HighestOf rank P r)
    (hPQ : ∀ i, P i ↔ Q i) : HighestOf rank Q r := by
  have hsame : P = Q := funext fun i => propext (hPQ i)
  exact hsame ▸ hr

lemma Ranked.highestOf_self {parent : ι → Option ι} {rank : ι → Nat} (h : Ranked parent rank)
    {P : ι → Prop} {i : ι} (hi : P i) (hP : ∀ l, P l → Ancestor parent l i) :
    HighestOf rank P (some i) :=
  ⟨hi, fun l hl => h.rank_le (hP l hl)⟩

end ParentPaths
