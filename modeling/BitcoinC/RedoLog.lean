import BitcoinC.KeyedStore

/-!
# Redo logs

A log of writes applied to a store in order. After a write its key holds the
written value, whatever it held before, so a log can be applied to a store that
has already seen some of the writes.
-/

namespace RedoLog

universe u v

variable {K : Type u} {V : Type v} [DecidableEq K]

variable (s t : K → V) (log : List (K × V))

def redo (s : K → V) (log : List (K × V)) : K → V :=
  log.foldl (fun s w => Function.update s w.1 w.2) s

def keys (log : List (K × V)) : List K := log.map Prod.fst

@[simp] lemma redo_nil : redo s [] = s := rfl

@[simp] lemma redo_cons (w : K × V) (log : List (K × V)) :
    redo s (w :: log) = redo (Function.update s w.1 w.2) log := rfl

lemma redo_append (log' : List (K × V)) :
    redo s (log ++ log') = redo (redo s log) log' := List.foldl_append

lemma redo_of_notMem (k : K) (h : k ∉ keys log) : redo s log k = s k := by
  induction log generalizing s with
  | nil => rfl
  | cons w log ih =>
    rw [keys, List.map_cons, List.mem_cons, not_or] at h
    rw [redo_cons, ih _ h.2, Function.update_of_ne h.1]

lemma redo_agree (k : K) (h : k ∈ keys log) : redo s log k = redo t log k := by
  induction log generalizing s t with
  | nil => cases h
  | cons w log ih =>
    rw [redo_cons, redo_cons]
    by_cases hlog : k ∈ keys log
    · exact ih _ _ hlog
    · have hk : k = w.1 := (List.mem_cons.mp h).resolve_right hlog
      subst hk
      rw [redo_of_notMem _ _ _ hlog, redo_of_notMem _ _ _ hlog, Function.update_self,
        Function.update_self]

lemma redo_eq_iff : redo t log = redo s log ↔ ∀ k, k ∉ keys log → t k = redo s log k := by
  constructor
  · intro h k hk
    rw [← h, redo_of_notMem t log k hk]
  · intro h
    funext k
    by_cases hk : k ∈ keys log
    · exact redo_agree t s log k hk
    · rw [redo_of_notMem t log k hk]
      exact h k hk

lemma redo_repairs (h : ∀ k, t k = s k ∨ t k = redo s log k) : redo t log = redo s log := by
  rw [redo_eq_iff]
  intro k hk
  rcases h k with hold | hnew
  · rw [hold, redo_of_notMem s log k hk]
  · exact hnew

lemma redo_part (first rest : List (K × V)) (h : (keys (first ++ rest)).Nodup) (k : K) :
    redo s first k = s k ∨ redo s first k = redo s (first ++ rest) k := by
  by_cases hk : k ∈ keys first
  · right
    rw [keys, List.map_append, List.nodup_append'] at h
    rw [redo_append, redo_of_notMem _ rest k (h.2.2 hk)]
  · left
    exact redo_of_notMem s first k hk

lemma mem_of_redo (k : K) : redo s log k = s k ∨ (k, redo s log k) ∈ log := by
  induction log generalizing s with
  | nil => exact Or.inl rfl
  | cons w log ih =>
    rw [redo_cons]
    rcases ih (Function.update s w.1 w.2) with hbefore | hmem
    · by_cases hk : k = w.1
      · subst hk
        right
        rw [hbefore, Function.update_self]
        exact List.mem_cons_self
      · left
        rw [hbefore, Function.update_of_ne hk]
    · exact Or.inr (List.mem_cons_of_mem w hmem)

lemma redo_own (ks : List K) : redo t (ks.map fun k => (k, t k)) = t := by
  induction ks with
  | nil => rfl
  | cons k ks ih =>
    rw [List.map_cons, redo_cons, Function.update_eq_self]
    exact ih

lemma redo_copy (ks : List K) (h : ∀ k, k ∉ ks → s k = t k) :
    redo s (ks.map fun k => (k, t k)) = t := by
  rw [← redo_own t ks]
  nth_rewrite 1 [redo_own t ks]
  rw [redo_eq_iff, redo_own t ks]
  intro k hk
  refine h k fun hmem => hk ?_
  rw [keys, List.map_map]
  exact List.mem_map.mpr ⟨k, hmem, rfl⟩

lemma redo_erasures {W : Type v} (s : K → Option W) (ks : List K) :
    redo s (ks.map fun k => (k, none)) = KeyedStore.eraseAll s ks := by
  induction ks generalizing s with
  | nil => rfl
  | cons k ks ih =>
    rw [List.map_cons, redo_cons, KeyedStore.update_none]
    exact ih _

lemma redo_puts {W : Type v} (s : K → Option W) (batch : List (K × W)) :
    redo s (batch.map fun x => (x.1, some x.2)) = KeyedStore.putAll s batch := by
  induction batch generalizing s with
  | nil => rfl
  | cons x batch ih =>
    rw [List.map_cons, redo_cons, KeyedStore.update_some]
    exact ih _

end RedoLog
