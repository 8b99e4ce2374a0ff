import BitcoinC.KeyedStore

/-!
# Tables with a record of their owners

A table of keyed entries in which each entry belongs to an owner. An owner's
entries are inserted together, and the keys are recorded under the owner; they are
removed together through that record.
-/

namespace RecordedTables

open KeyedStore

variable {H K V : Type} [DecidableEq H] [DecidableEq K]

structure Table (H K V : Type) where
  entries : K → Option V
  inserted : H → Option (List K)

def Table.empty : Table H K V := ⟨fun _ => none, fun _ => none⟩

def insertNew (m : K → Option V) (kv : K × V) : K → Option V :=
  if (m kv.1).isSome then m else put m kv.1 kv.2

def Table.add (T : Table H K V) (owner : H) (notes : List (K × V)) : Table H K V where
  entries := notes.foldl insertNew T.entries
  inserted := insertNew T.inserted (owner, notes.map (·.1))

def Table.remove (T : Table H K V) (owner : H) : Table H K V :=
  match T.inserted owner with
  | none => T
  | some keys => ⟨eraseAll T.entries keys, erase T.inserted owner⟩

lemma foldl_insertNew (notes : List (K × V)) (hnodup : (notes.map (·.1)).Nodup) (m : K → Option V)
    (hnew : ∀ k ∈ notes.map (·.1), m k = none) (k : K) (v : V) :
    notes.foldl insertNew m k = some v ↔ (k, v) ∈ notes ∨ m k = some v := by
  induction notes generalizing m with
  | nil => simp
  | cons kv notes ih =>
    rw [List.map_cons, List.nodup_cons] at hnodup
    rw [List.map_cons, List.forall_mem_cons] at hnew
    have hput : insertNew m kv = put m kv.1 kv.2 := by simp [insertNew, hnew.1]
    rw [List.foldl_cons, hput, ih hnodup.2]
    · rcases eq_or_ne k kv.1 with rfl | hne
      · have hnot : (kv.1, v) ∉ notes := fun hin => hnodup.1 (List.mem_map_of_mem (f := (·.1)) hin)
        simp [hnot, hnew.1, Prod.ext_iff, eq_comm]
      · rw [put_other _ _ _ _ hne, List.mem_cons]
        have : (k, v) ≠ kv := fun heq => hne (congrArg Prod.fst heq)
        tauto
    · intro k' hk'
      have hne : k' ≠ kv.1 := fun heq => hnodup.1 (heq ▸ hk')
      rw [put_other _ _ _ _ hne]
      exact hnew.2 k' hk'

/-- The table has the notes of the present owners, each under the keys recorded for it. -/
structure Holds (T : Table H K V) (present : H → Prop) (notes : H → List (K × V)) : Prop where
  entries : ∀ k v, T.entries k = some v ↔ ∃ h, present h ∧ (k, v) ∈ notes h
  recorded : ∀ h, present h → T.inserted h = some ((notes h).map (·.1))
  unrecorded : ∀ h, ¬ present h → T.inserted h = none
  nodup : ∀ h, present h → ((notes h).map (·.1)).Nodup
  apart : ∀ h h', present h → present h' → ∀ k ∈ (notes h).map (·.1),
    k ∈ (notes h').map (·.1) → h = h'

variable {T : Table H K V} {present present' : H → Prop} {notes notes' : H → List (K × V)}

omit [DecidableEq H] [DecidableEq K] in
lemma holds_empty (notes : H → List (K × V)) : Holds Table.empty (fun _ => False) notes where
  entries _ _ := by simp [Table.empty]
  recorded _ h := h.elim
  unrecorded _ _ := rfl
  nodup _ h := h.elim
  apart _ _ h := h.elim

omit [DecidableEq H] [DecidableEq K] in
lemma Holds.congr (hT : Holds T present notes) (hpresent : ∀ h, present h ↔ present' h)
    (hnotes : ∀ h, present' h → notes h = notes' h) : Holds T present' notes' := by
  obtain rfl : present = present' := funext fun h => propext (hpresent h)
  refine ⟨fun k v => ?_, fun h hh => ?_, hT.unrecorded, fun h hh => ?_, fun h h' hh hh' => ?_⟩
  · rw [hT.entries]
    exact exists_congr fun h => and_congr_right fun hh => by rw [hnotes h hh]
  · rw [hT.recorded h hh, hnotes h hh]
  · rw [← hnotes h hh]
    exact hT.nodup h hh
  · rw [← hnotes h hh, ← hnotes h' hh']
    exact hT.apart h h' hh hh'

lemma Holds.add (hT : Holds T present notes) {owner : H} (hnew : ¬ present owner)
    (hnodup : ((notes owner).map (·.1)).Nodup)
    (hapart : ∀ h, present h → ∀ k ∈ (notes owner).map (·.1), k ∉ (notes h).map (·.1)) :
    Holds (T.add owner (notes owner)) (fun h => h = owner ∨ present h) notes := by
  have hinserted : (T.add owner (notes owner)).inserted =
      put T.inserted owner ((notes owner).map (·.1)) := by
    simp [Table.add, insertNew, hT.unrecorded owner hnew]
  have hfree : ∀ k ∈ (notes owner).map (·.1), T.entries k = none := by
    intro k hk
    by_contra hsome
    obtain ⟨v, hv⟩ := Option.ne_none_iff_exists'.mp hsome
    obtain ⟨h, hh, hin⟩ := (hT.entries k v).mp hv
    exact hapart h hh k hk (List.mem_map_of_mem hin)
  refine ⟨fun k v => ?_, fun h hh => ?_, fun h hh => ?_, fun h hh => ?_,
    fun h h' hh hh' k hk hk' => ?_⟩
  · rw [Table.add, foldl_insertNew _ hnodup _ hfree, hT.entries]
    simp [or_and_right, exists_or]
  · rw [hinserted]
    rcases eq_or_ne h owner with rfl | hne
    · exact put_self _ _ _
    · rw [put_other _ _ _ _ hne]
      exact hT.recorded h (hh.resolve_left hne)
  · rw [not_or] at hh
    rw [hinserted, put_other _ _ _ _ hh.1]
    exact hT.unrecorded h hh.2
  · rcases hh with rfl | hh
    · exact hnodup
    · exact hT.nodup h hh
  · rcases hh with rfl | hh
    · rcases hh' with rfl | hh'
      · rfl
      · exact absurd hk' (hapart h' hh' k hk)
    · rcases hh' with rfl | hh'
      · exact absurd hk (hapart h hh k hk')
      · exact hT.apart h h' hh hh' k hk hk'

lemma Holds.remove (hT : Holds T present notes) (owner : H) :
    Holds (T.remove owner) (fun h => present h ∧ h ≠ owner) notes := by
  by_cases hpresent : present owner
  · have hentries : (T.remove owner).entries = eraseAll T.entries ((notes owner).map (·.1)) := by
      simp [Table.remove, hT.recorded owner hpresent]
    have hinserted : (T.remove owner).inserted = erase T.inserted owner := by
      simp [Table.remove, hT.recorded owner hpresent]
    refine ⟨fun k v => ?_, fun h hh => ?_, fun h hh => ?_, fun h hh => hT.nodup h hh.1,
      fun h h' hh hh' => hT.apart h h' hh.1 hh'.1⟩
    · rw [hentries, eraseAll_apply]
      split_ifs with hk
      · -- a key of the owner is no other owner's
        simp only [false_iff, not_exists, not_and]
        intro h hh hin
        exact hh.2 (hT.apart h owner hh.1 hpresent k (List.mem_map_of_mem hin) hk)
      · rw [hT.entries]
        refine exists_congr fun h => ⟨fun hh => ⟨⟨hh.1, ?_⟩, hh.2⟩, fun hh => ⟨hh.1.1, hh.2⟩⟩
        rintro rfl
        exact hk (List.mem_map_of_mem hh.2)
    · rw [hinserted, erase_other _ _ _ hh.2]
      exact hT.recorded h hh.1
    · rw [hinserted]
      rcases eq_or_ne h owner with rfl | hne
      · exact erase_self _ _
      · rw [erase_other _ _ _ hne]
        exact hT.unrecorded h fun hp => hh ⟨hp, hne⟩
  · have hremove : T.remove owner = T := by simp [Table.remove, hT.unrecorded owner hpresent]
    rw [hremove]
    refine hT.congr (fun h => ⟨fun hh => ⟨hh, fun heq => hpresent (heq ▸ hh)⟩, fun hh => hh.1⟩)
      fun _ _ => rfl

lemma Holds.removeAll (hT : Holds T present notes) (owners : List H) :
    Holds (owners.foldl Table.remove T) (fun h => present h ∧ h ∉ owners) notes := by
  induction owners generalizing T present with
  | nil => exact hT.congr (by simp) fun _ _ => rfl
  | cons owner owners ih =>
    refine (ih (hT.remove owner)).congr (fun h => ?_) fun _ _ => rfl
    simp only [List.mem_cons, not_or, ne_eq, and_assoc]

omit [DecidableEq H] [DecidableEq K] in
/-- With the owners gone and the table as it was, the entries are right exactly when no owner had
any. -/
lemma Holds.entries_forgotten_iff (hT : Holds T present notes) :
    (∀ k v, T.entries k = some v ↔ False) ↔ ∀ h, present h → notes h = [] := by
  constructor
  · intro hnone h hh
    refine List.eq_nil_iff_forall_not_mem.mpr fun kv hin => ?_
    exact (hnone kv.1 kv.2).mp ((hT.entries kv.1 kv.2).mpr ⟨h, hh, hin⟩)
  · intro hempty k v
    rw [hT.entries, iff_false]
    rintro ⟨h, hh, hin⟩
    rw [hempty h hh] at hin
    exact absurd hin List.not_mem_nil

end RecordedTables
