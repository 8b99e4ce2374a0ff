import Mathlib.Data.List.Basic
import Mathlib.Data.List.Nodup
import Mathlib.Logic.Function.Basic

/-!
# Stores of keyed records

A store maps keys to optional records. Batches of writes and erasures are folds
over lists; the lemmas read a store after a batch at an arbitrary key.
-/

namespace KeyedStore

universe u v

variable {K : Type u} {V : Type v} [DecidableEq K]

variable (s : K → Option V) {records : List (K × V)} (batch : List (K × V)) (k : K)

def put (s : K → Option V) (k : K) (v : V) : K → Option V :=
  fun a => if a = k then some v else s a

def erase (s : K → Option V) (k : K) : K → Option V :=
  fun a => if a = k then none else s a

def putAll (s : K → Option V) (batch : List (K × V)) : K → Option V :=
  batch.foldl (fun s kv => put s kv.1 kv.2) s

def eraseAll (s : K → Option V) (keys : List K) : K → Option V := keys.foldl erase s

@[simp] lemma put_self (v : V) : put s k v k = some v := if_pos rfl

lemma put_other (a : K) (v : V) (h : a ≠ k) : put s k v a = s a := if_neg h

@[simp] lemma erase_self : erase s k k = none := if_pos rfl

lemma erase_other (a : K) (h : a ≠ k) : erase s k a = s a := if_neg h

lemma update_some (v : V) : Function.update s k (some v) = put s k v := by
  funext a
  by_cases ha : a = k <;> simp [put, ha]

lemma update_none : Function.update s k none = erase s k := by
  funext a
  by_cases ha : a = k <;> simp [erase, ha]

lemma erase_of_none (h : s k = none) : erase s k = s := by
  rw [← update_none, ← h, Function.update_eq_self]

lemma put_erase (v : V) (h : s k = some v) : put (erase s k) k v = s := by
  funext a
  by_cases ha : a = k
  · subst ha; rw [put_self, h]
  · rw [put_other _ _ _ _ ha, erase_other _ _ _ ha]

@[simp] lemma putAll_nil : putAll s [] = s := rfl

@[simp] lemma putAll_cons (kv : K × V) (batch : List (K × V)) :
    putAll s (kv :: batch) = putAll (put s kv.1 kv.2) batch := rfl

lemma putAll_append (b₁ b₂ : List (K × V)) :
    putAll s (b₁ ++ b₂) = putAll (putAll s b₁) b₂ := List.foldl_append

lemma putAll_of_notMem (a : K) (h : a ∉ batch.map Prod.fst) : putAll s batch a = s a := by
  induction batch generalizing s with
  | nil => rfl
  | cons kv batch ih =>
    rw [List.map_cons, List.mem_cons, not_or] at h
    rw [putAll_cons, ih _ h.2, put_other _ _ _ _ h.1]

lemma putAll_of_mem (v : V) (hnodup : (batch.map Prod.fst).Nodup) (h : (k, v) ∈ batch) :
    putAll s batch k = some v := by
  induction batch generalizing s with
  | nil => simp at h
  | cons kv batch ih =>
    rw [List.map_cons, List.nodup_cons] at hnodup
    rw [putAll_cons]
    rcases List.mem_cons.mp h with rfl | h
    · rw [putAll_of_notMem _ _ _ hnodup.1, put_self]
    · exact ih _ hnodup.2 h

lemma putAll_eq_some_iff (v : V) (hnodup : (batch.map Prod.fst).Nodup) :
    putAll s batch k = some v ↔ (k, v) ∈ batch ∨ (k ∉ batch.map Prod.fst ∧ s k = some v) := by
  by_cases hk : k ∈ batch.map Prod.fst
  · obtain ⟨⟨k', v'⟩, hmem, rfl⟩ := List.mem_map.mp hk
    rw [putAll_of_mem s batch k' v' hnodup hmem]
    constructor
    · intro h
      exact Or.inl (Option.some.inj h ▸ hmem)
    · rintro (h | ⟨h, -⟩)
      · rw [← putAll_of_mem s batch k' v' hnodup hmem, putAll_of_mem s batch k' v hnodup h]
      · exact False.elim (h hk)
  · rw [putAll_of_notMem s batch k hk]
    constructor
    · intro h
      exact Or.inr ⟨hk, h⟩
    · rintro (h | ⟨-, h⟩)
      · exact False.elim (hk (List.mem_map.mpr ⟨(k, v), h, rfl⟩))
      · exact h

lemma mem_or_of_putAll (v : V) (h : putAll s batch k = some v) : (k, v) ∈ batch ∨ s k = some v := by
  induction batch generalizing s with
  | nil => exact Or.inr h
  | cons kv batch ih =>
    rw [putAll_cons] at h
    rcases ih _ h with hmem | hput
    · exact Or.inl (List.mem_cons_of_mem kv hmem)
    · by_cases hk : k = kv.1
      · rw [hk, put_self] at hput
        refine Or.inl (List.mem_cons.mpr (Or.inl ?_))
        rw [hk, ← Option.some.inj hput]
      · rw [put_other _ _ _ _ hk] at hput
        exact Or.inr hput

lemma putAll_ne_none (h : k ∈ batch.map Prod.fst ∨ s k ≠ none) : putAll s batch k ≠ none := by
  induction batch generalizing s with
  | nil => exact h.resolve_left List.not_mem_nil
  | cons kv batch ih =>
    rw [putAll_cons]
    refine ih _ ?_
    by_cases hk : k = kv.1
    · right
      rw [hk, put_self]
      exact Option.some_ne_none _
    · rw [put_other _ _ _ _ hk]
      rw [List.map_cons, List.mem_cons] at h
      exact h.imp_left fun hmem => hmem.resolve_left hk

lemma eraseAll_apply (keys : List K) (a : K) :
    eraseAll s keys a = if a ∈ keys then none else s a := by
  induction keys generalizing s with
  | nil => simp [eraseAll]
  | cons k keys ih =>
    show eraseAll (erase s k) keys a = _
    rw [ih]
    by_cases ha : a = k
    · subst ha; simp
    · simp [ha, erase_other]

def updateAll (isNull : V → Bool) (s : K → Option V) (batch : List (K × V)) : K → Option V :=
  batch.foldl (fun s kv => if isNull kv.2 then erase s kv.1 else put s kv.1 kv.2) s

section

variable (isNull : V → Bool)

lemma updateAll_append (b₁ b₂ : List (K × V)) :
    updateAll isNull s (b₁ ++ b₂) = updateAll isNull (updateAll isNull s b₁) b₂ := List.foldl_append

lemma updateAll_null (s : K → Option V) (k : K) (v : V) (h : isNull v = true) :
    updateAll isNull s [(k, v)] = erase s k := if_pos h

lemma updateAll_value (s : K → Option V) (k : K) (v : V) (h : isNull v = false) :
    updateAll isNull s [(k, v)] = put s k v := if_neg (Bool.eq_false_iff.mp h)

lemma updateAll_eq_putAll (s : K → Option V) (batch : List (K × V))
    (h : ∀ kv ∈ batch, isNull kv.2 = false) : updateAll isNull s batch = putAll s batch := by
  induction batch generalizing s with
  | nil => rfl
  | cons kv batch ih =>
    rw [List.forall_mem_cons] at h
    rw [putAll_cons, ← ih _ h.2, ← updateAll_value isNull s kv.1 kv.2 h.1]
    rfl

lemma updateAll_eq_eraseAll (s : K → Option V) (batch : List (K × V))
    (h : ∀ kv ∈ batch, isNull kv.2 = true) :
    updateAll isNull s batch = eraseAll s (batch.map Prod.fst) := by
  induction batch generalizing s with
  | nil => rfl
  | cons kv batch ih =>
    rw [List.forall_mem_cons] at h
    have hrest := ih (erase s kv.1) h.2
    rw [← updateAll_null isNull s kv.1 kv.2 h.1] at hrest
    rw [List.map_cons]
    refine Eq.trans hrest ?_
    rw [updateAll_null isNull s kv.1 kv.2 h.1]
    rfl

end

/-- The store has exactly the listed records. -/
def Holds (records : List (K × V)) (s : K → Option V) : Prop :=
  ∀ k v, s k = some v ↔ (k, v) ∈ records

omit [DecidableEq K] in
lemma holds_nil : Holds ([] : List (K × V)) fun _ => none := by
  intro k v
  simp

lemma Holds.putAll {batch : List (K × V)} {s : K → Option V} (h : Holds records s)
    (hnodup : ((records ++ batch).map Prod.fst).Nodup) :
    Holds (records ++ batch) (putAll s batch) := by
  rw [List.map_append, List.nodup_append'] at hnodup
  intro k v
  rw [putAll_eq_some_iff s batch k v hnodup.2.1, h k v, List.mem_append]
  constructor
  · rintro (hnew | ⟨-, hold⟩)
    · exact Or.inr hnew
    · exact Or.inl hold
  · rintro (hold | hnew)
    · exact Or.inr ⟨hnodup.2.2 (List.mem_map_of_mem hold), hold⟩
    · exact Or.inl hnew

lemma Holds.eraseAll_of_disjoint {batch : List (K × V)} {s : K → Option V} {keys : List K}
    (h : Holds (records ++ batch) s) (hbatch : ∀ k ∈ batch.map Prod.fst, k ∈ keys)
    (hrecords : ∀ k ∈ records.map Prod.fst, k ∉ keys) : Holds records (eraseAll s keys) := by
  intro k v
  rw [eraseAll_apply]
  by_cases hk : k ∈ keys
  · rw [if_pos hk]
    have hnot : (k, v) ∉ records := fun hold => hrecords k (List.mem_map_of_mem hold) hk
    simp [hnot]
  · rw [if_neg hk, h k v, List.mem_append, or_iff_left]
    intro hnew
    exact hk (hbatch k (List.mem_map_of_mem hnew))

lemma Holds.eraseAll {batch : List (K × V)} {s : K → Option V} {keys : List K}
    (h : Holds (records ++ batch) s) (hnodup : ((records ++ batch).map Prod.fst).Nodup)
    (hkeys : ∀ k, k ∈ keys ↔ k ∈ batch.map Prod.fst) : Holds records (eraseAll s keys) := by
  rw [List.map_append, List.nodup_append'] at hnodup
  refine h.eraseAll_of_disjoint (fun k hk => (hkeys k).mpr hk) fun k hold hk => ?_
  exact hnodup.2.2 hold ((hkeys k).mp hk)

omit [DecidableEq K] in
lemma Holds.unique {s s' : K → Option V} (h : Holds records s) (h' : Holds records s') :
    s = s' := by
  funext k
  exact Option.ext fun v => (h k v).trans (h' k v).symm

end KeyedStore
