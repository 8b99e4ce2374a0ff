import BitcoinC.KeyedStore
import Mathlib.Algebra.BigOperators.Finprod
import Mathlib.Algebra.Order.BigOperators.Group.List
import Mathlib.Algebra.Order.Group.Int

/-!
# The total of a store

A store of finitely many records, each with an integer weight, has a total. The
lemmas say how writing and erasing a record, and then a batch, change it.
-/

namespace Totals

open KeyedStore

universe u v

variable {K : Type u} {V : Type v}

variable {s : K → Option V}

def weightAt (w : V → Int) (s : K → Option V) (k : K) : Int := ((s k).map w).getD 0

noncomputable def total (w : V → Int) (s : K → Option V) : Int := ∑ᶠ k, weightAt w s k

def FiniteStore (s : K → Option V) : Prop := {k | s k ≠ none}.Finite

variable (w : V → Int)

lemma weightAt_of_none {k : K} (h : s k = none) : weightAt w s k = 0 := by
  rw [weightAt, h]
  rfl

lemma weightAt_of_some {k : K} {v : V} (h : s k = some v) : weightAt w s k = w v := by
  rw [weightAt, h]
  rfl

lemma weightAt_nonneg (hs : ∀ k v, s k = some v → 0 ≤ w v) (k : K) : 0 ≤ weightAt w s k := by
  cases h : s k with
  | none => rw [weightAt_of_none w h]
  | some v =>
    rw [weightAt_of_some w h]
    exact hs k v h

lemma finiteStore_none : FiniteStore fun _ : K => (none : Option V) := by
  simp [FiniteStore]

@[simp] lemma total_none : total w (fun _ : K => none) = 0 := by
  simp [total, weightAt]

lemma FiniteStore.support (h : FiniteStore s) : (Function.support (weightAt w s)).Finite := by
  refine Set.Finite.subset h ?_
  intro k hk hnone
  exact hk (weightAt_of_none w hnone)

lemma total_eq_of_eq_off {t : K → Option V} (hs : FiniteStore s) (k : K)
    (h : ∀ a, a ≠ k → t a = s a) : total w t = total w s - weightAt w s k + weightAt w t k := by
  classical
  have hsplit : weightAt w t =
      fun a => weightAt w s a + if a = k then weightAt w t k - weightAt w s k else 0 := by
    funext a
    by_cases ha : a = k
    · subst ha
      rw [if_pos rfl]
      omega
    · rw [if_neg ha, weightAt, h a ha, ← weightAt, Int.add_zero]
  have hone : (Function.support fun a : K =>
      if a = k then weightAt w t k - weightAt w s k else 0).Finite := by
    refine Set.Finite.subset (Set.finite_singleton k) ?_
    intro a ha
    by_contra hne
    exact ha (if_neg hne)
  calc total w t
      = ∑ᶠ a, (weightAt w s a + if a = k then weightAt w t k - weightAt w s k else 0) :=
        congrArg finsum hsplit
    _ = total w s + ∑ᶠ a, (if a = k then weightAt w t k - weightAt w s k else 0) :=
        finsum_add_distrib (hs.support w) hone
    _ = total w s + (weightAt w t k - weightAt w s k) := by
        rw [finsum_eq_single _ k fun a ha => if_neg ha, if_pos rfl]
    _ = total w s - weightAt w s k + weightAt w t k := by omega

section

variable [DecidableEq K]

lemma FiniteStore.put (h : FiniteStore s) (k : K) (v : V) : FiniteStore (put s k v) := by
  refine Set.Finite.subset (Set.Finite.insert k h) ?_
  intro a ha
  by_cases hak : a = k
  · exact Or.inl hak
  · refine Or.inr ?_
    rwa [Set.mem_ofPred_eq, put_other _ _ _ _ hak] at ha

lemma FiniteStore.erase (h : FiniteStore s) (k : K) : FiniteStore (erase s k) := by
  refine Set.Finite.subset h ?_
  intro a ha hnone
  by_cases hak : a = k
  · subst hak
    exact ha (erase_self s a)
  · exact ha ((erase_other s k a hak).trans hnone)

lemma total_put (hs : FiniteStore s) (k : K) (v : V) :
    total w (put s k v) = total w s - weightAt w s k + w v := by
  rw [total_eq_of_eq_off w hs k fun a ha => put_other s k a v ha,
    weightAt_of_some w (put_self s k v)]

lemma total_erase (hs : FiniteStore s) (k : K) :
    total w (erase s k) = total w s - weightAt w s k := by
  rw [total_eq_of_eq_off w hs k fun a ha => erase_other s k a ha,
    weightAt_of_none w (erase_self s k), Int.add_zero]

lemma FiniteStore.putAll (h : FiniteStore s) (batch : List (K × V)) :
    FiniteStore (putAll s batch) := by
  induction batch generalizing s with
  | nil => exact h
  | cons kv batch ih => exact ih (h.put kv.1 kv.2)

lemma FiniteStore.eraseAll (h : FiniteStore s) (keys : List K) : FiniteStore (eraseAll s keys) := by
  induction keys generalizing s with
  | nil => exact h
  | cons k keys ih => exact ih (h.erase k)

lemma total_eraseAll (hs : FiniteStore s) (keys : List K) (hnodup : keys.Nodup) :
    total w (eraseAll s keys) = total w s - (keys.map (weightAt w s)).sum := by
  induction keys generalizing s with
  | nil => simp [KeyedStore.eraseAll]
  | cons k keys ih =>
    rw [List.nodup_cons] at hnodup
    have hrest : keys.map (weightAt w (KeyedStore.erase s k)) = keys.map (weightAt w s) := by
      refine List.map_congr_left fun a ha => ?_
      rw [weightAt, erase_other s k a fun hak => hnodup.1 (hak ▸ ha), ← weightAt]
    show total w (KeyedStore.eraseAll (KeyedStore.erase s k) keys) = _
    rw [ih (hs.erase k) hnodup.2, hrest, total_erase w hs, List.map_cons, List.sum_cons]
    omega

lemma total_putAll (hs : FiniteStore s) (batch : List (K × V))
    (hnodup : (batch.map Prod.fst).Nodup) : total w (putAll s batch) =
      total w s - (batch.map fun x => weightAt w s x.1).sum + (batch.map fun x => w x.2).sum := by
  induction batch generalizing s with
  | nil => simp
  | cons kv batch ih =>
    rw [List.map_cons, List.nodup_cons] at hnodup
    have hrest : (batch.map fun x => weightAt w (KeyedStore.put s kv.1 kv.2) x.1) =
        batch.map fun x => weightAt w s x.1 := by
      refine List.map_congr_left fun x hx => ?_
      have hne : x.1 ≠ kv.1 := fun heq => hnodup.1 (heq ▸ List.mem_map_of_mem hx)
      rw [weightAt, put_other s _ _ _ hne, ← weightAt]
    rw [putAll_cons, ih (hs.put _ _) hnodup.2, hrest, total_put w hs]
    simp only [List.map_cons, List.sum_cons]
    omega

end

end Totals
