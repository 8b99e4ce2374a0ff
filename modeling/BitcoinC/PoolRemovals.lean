import BitcoinC.PoolAcceptance
import BitcoinC.PoolLinks

/-!
# What the removals are made of

Every removal from the mempool is a sequence of `RemoveStaged` calls on members of
the pool and of cleared priorities.
-/

namespace PoolRemovals

open Primitives Environment TxMempool TxMempool.MemPool TxMempool.CTxMemPoolEntry PoolLinks
  PoolAcceptance

/-- The second pool is left by stages of members and by cleared priorities. -/
inductive Shrinks : MemPool → MemPool → Prop
  | refl (S : MemPool) : Shrinks S S
  | staged {S S' : MemPool} (h : Shrinks S S') (stage : List Uint256) (updateDescendants : Bool)
      (hmem : ∀ v ∈ stage, v ∈ S'.ids) : Shrinks S (S'.removeStaged stage updateDescendants)
  | cleared {S S' : MemPool} (h : Shrinks S S') (hash : Uint256) :
      Shrinks S (S'.clearPrioritisation hash)

variable {S S' S'' : MemPool}

lemma Shrinks.trans (h : Shrinks S S') (h' : Shrinks S' S'') : Shrinks S S'' := by
  induction h' with
  | refl => exact h
  | staged _ stage updateDescendants hmem ih => exact ih.staged stage updateDescendants hmem
  | cleared _ hash ih => exact ih.cleared hash

lemma Shrinks.keeps {P : MemPool → Prop} (h : Shrinks S S') (hS : P S)
    (hstaged : ∀ S stage updateDescendants, P S → (∀ v ∈ stage, v ∈ S.ids) →
      P (S.removeStaged stage updateDescendants))
    (hcleared : ∀ S hash, P S → P (S.clearPrioritisation hash)) : P S' := by
  induction h with
  | refl => exact hS
  | staged _ stage updateDescendants hmem ih => exact hstaged _ stage updateDescendants ih hmem
  | cleared _ hash ih => exact hcleared _ hash ih

lemma Shrinks.linked (h : Shrinks S S') (hS : Linked S) : Linked S' :=
  h.keeps hS (fun _ stage updateDescendants hS _ =>
    (removed_removeStaged hS stage updateDescendants).linked hS) fun _ _ hS => hS.congr rfl rfl rfl

/-- Entries were removed; the others kept their bodies. -/
structure Fewer (S S' : MemPool) : Prop where
  ids : ∀ v ∈ S'.ids, v ∈ S.ids
  body : ∀ v, SameBody (S.entry v) (S'.entry v)

lemma Shrinks.fewer (h : Shrinks S S') (hS : Linked S) : Fewer S S' := by
  have hboth : Linked S' ∧ Fewer S S' := by
    refine h.keeps (P := fun T => Linked T ∧ Fewer S T) ⟨hS, fun _ hv => hv, fun _ => .refl _⟩ ?_ ?_
    · rintro T stage updateDescendants ⟨hT, hfewer⟩ -
      have hr := removed_removeStaged hT stage updateDescendants
      refine ⟨hr.linked hT, fun v hv => hfewer.ids v ?_,
        fun v => (hfewer.body v).trans (hr.entry v).body⟩
      rw [hr.ids] at hv
      exact (List.mem_filter.mp hv).1
    · rintro T hash ⟨hT, hfewer⟩
      exact ⟨hT.congr rfl rfl rfl, hfewer.ids, hfewer.body⟩
  exact hboth.2

lemma shrinks_foldl {α : Type} (step : MemPool → α → MemPool)
    (hstep : ∀ S x, Linked S → Shrinks S (step S x)) (xs : List α) (hS : Linked S) :
    Shrinks S (xs.foldl step S) := by
  induction xs generalizing S with
  | nil => exact .refl S
  | cons x xs ih =>
    have hx := hstep S x hS
    exact hx.trans (ih (hx.linked hS))

lemma descendants_mem (hS : Linked S) (v : Uint256) (hv : v ∈ S.ids) :
    ∀ x ∈ S.calculateDescendants v [], x ∈ S.ids := by
  intro x hx
  exact hS.mem_of_reaches hv ((hS.mem_descendants v x hv).mp hx)

lemma allDescendants_mem (hS : Linked S) (hs : List Uint256) (hmem : ∀ v ∈ hs, v ∈ S.ids) :
    ∀ x ∈ S.allDescendants hs, x ∈ S.ids := by
  intro x hx
  obtain ⟨v, hv, hxv⟩ := (hS.mem_allDescendants hs hmem x).mp hx
  exact hS.mem_of_reaches (hmem v hv) hxv

lemma shrinks_descendants (hS : Linked S) (hs : List Uint256) (hmem : ∀ v ∈ hs, v ∈ S.ids) :
    Shrinks S (S.removeStaged (S.allDescendants hs) false) :=
  (Shrinks.refl S).staged _ _ (allDescendants_mem hS hs hmem)

section

variable (E : Env)

lemma shrinks_removeRecursive (hS : Linked S) (tx : CTransaction) :
    Shrinks S (removeRecursive E S tx) := by
  refine shrinks_descendants hS _ fun v hv => ?_
  split at hv
  · rename_i hin
    rw [List.mem_singleton.mp hv]
    exact hin
  · exact of_decide_eq_true (List.mem_filter.mp hv).2

lemma shrinks_removeConflictOf (hS : Linked S) (tx : CTransaction) (o : Option Uint256) :
    Shrinks S (removeConflictOf E tx S o) := by
  unfold removeConflictOf
  split
  · unfold removeConflict
    split
    · have hcleared := (Shrinks.refl S).cleared ‹Uint256›
      exact hcleared.trans (shrinks_removeRecursive E (hcleared.linked hS) _)
    · exact .refl S
  · exact .refl S

lemma shrinks_removeConflicts (hS : Linked S) (tx : CTransaction) :
    Shrinks S (removeConflicts E S tx) := by
  refine shrinks_foldl _ (fun S txin hS => ?_) _ hS
  unfold removeInputConflicts
  split
  · exact shrinks_foldl _ (fun S ki hS => shrinks_removeConflictOf E hS tx _) _ hS
  · exact shrinks_removeConflictOf E hS tx _

lemma shrinks_removeForBlock (hS : Linked S) (vtx : List CTransaction) :
    Shrinks S (removeForBlock E S vtx) := by
  refine shrinks_foldl _ (fun S tx hS => ?_) _ hS
  unfold removeForBlockTx
  have hmined : Shrinks S (if E.txHash tx ∈ S.ids then S.removeStaged [E.txHash tx] true
      else S) := by
    split
    · rename_i hin
      refine (Shrinks.refl S).staged _ _ fun v hv => ?_
      rw [List.mem_singleton.mp hv]
      exact hin
    · exact .refl S
  exact (hmined.trans (shrinks_removeConflicts E (hmined.linked hS) tx)).cleared _

end

lemma shrinks_removeWhere (hS : Linked S) (bad : CTxMemPoolEntry → Bool) :
    Shrinks S (removeWhere S bad) :=
  shrinks_descendants hS _ fun _ hv => (List.mem_filter.mp hv).1

lemma mem_of_foldl_pick (f : Option Uint256 → Uint256 → Option Uint256)
    (hf : ∀ m u, f m u = some u ∨ f m u = m) (v : Uint256) (hs : List Uint256) :
    ∀ m, hs.foldl f m = some v → v ∈ hs ∨ m = some v := by
  induction hs with
  | nil => exact fun m h => Or.inr h
  | cons u hs ih =>
    intro m h
    rcases ih _ h with hin | hm
    · exact Or.inl (List.mem_cons_of_mem u hin)
    · rcases hf m u with hu | hu
      · exact Or.inl (Option.some.inj (hu.symm.trans hm) ▸ List.mem_cons_self)
      · exact Or.inr (hu.symm.trans hm)

lemma worstEntry_mem (S : MemPool) (worse : CTxMemPoolEntry → CTxMemPoolEntry → Bool) (v : Uint256)
    (h : worstEntry S worse = some v) : v ∈ S.ids := by
  refine (mem_of_foldl_pick _ (fun m u => ?_) v S.ids none h).resolve_right
    (Option.some_ne_none v).symm
  cases m with
  | none => exact Or.inl rfl
  | some m =>
    dsimp only
    split
    · exact Or.inl rfl
    · exact Or.inr rfl

lemma shrinks_trimToSize (hS : Linked S) (tooLarge : MemPool → Bool)
    (worse : CTxMemPoolEntry → CTxMemPoolEntry → Bool) (n : Nat) :
    Shrinks S (trimToSize tooLarge worse n S) := by
  induction n generalizing S with
  | zero => exact .refl S
  | succ n ih =>
    unfold trimToSize
    split
    · rename_i v hv
      split
      · have hworst := (Shrinks.refl S).staged _ false
          (descendants_mem hS v (worstEntry_mem S worse v hv))
        exact hworst.trans (ih (hworst.linked hS))
      · exact .refl S
    · exact .refl S

lemma shrinks_limitMempoolSize (hS : Linked S) (L : Limits) : Shrinks S (limitMempoolSize S L) := by
  have hexpired := shrinks_removeWhere hS fun e => e.nTime < L.time
  exact hexpired.trans (shrinks_trimToSize (hexpired.linked hS) _ _ _)

/-- Links and sums may differ; members, transactions and the maps of what they spend do not. -/
structure Rearranged (S S' : MemPool) : Prop where
  linked : Linked S → Linked S'
  ids : S'.ids = S.ids
  tx : ∀ v, (S'.entry v).tx = (S.entry v).tx
  nTime : ∀ v, (S'.entry v).nTime = (S.entry v).nTime
  mapNextTx : S'.mapNextTx = S.mapNextTx
  mapKeyImages : S'.mapKeyImages = S.mapKeyImages

lemma Rearranged.refl (S : MemPool) : Rearranged S S :=
  ⟨id, rfl, fun _ => rfl, fun _ => rfl, rfl, rfl⟩

lemma Rearranged.trans (h : Rearranged S S') (h' : Rearranged S' S'') : Rearranged S S'' :=
  ⟨fun hS => h'.linked (h.linked hS), h'.ids.trans h.ids, fun v => (h'.tx v).trans (h.tx v),
    fun v => (h'.nTime v).trans (h.nTime v), h'.mapNextTx.trans h.mapNextTx,
    h'.mapKeyImages.trans h.mapKeyImages⟩

lemma rearranged_prioritiseTransaction (S : MemPool) (hash : Uint256) (nFeeDelta : Word) :
    Rearranged S (S.prioritiseTransaction hash nFeeDelta) := by
  by_cases hin : hash ∈ S.ids
  · obtain ⟨entry, heq, hshift⟩ := prioritiseTransaction_shift S hash nFeeDelta hin
    rw [heq]
    have hbody : ∀ v, (entry v).tx = (S.entry v).tx ∧ (entry v).nTime = (S.entry v).nTime := by
      intro v
      rw [(hshift v).body.tx, (hshift v).body.nTime]
      by_cases hv : v = hash
      · subst hv
        rw [Function.update_self]
        exact ⟨rfl, rfl⟩
      · rw [Function.update_of_ne hv]
        exact ⟨rfl, rfl⟩
    exact ⟨fun hS => hS.congr rfl rfl rfl, rfl, fun v => (hbody v).1, fun v => (hbody v).2,
      rfl, rfl⟩
  · unfold MemPool.prioritiseTransaction
    dsimp only
    rw [if_neg hin]
    exact ⟨fun hS => hS.congr rfl rfl rfl, rfl, fun _ => rfl, fun _ => rfl, rfl, rfl⟩

lemma rearranged_updateFromBlock (vs : List Uint256) (x : MemPool × CacheMap) (v : Uint256) :
    Rearranged x.1 (updateFromBlock vs x v).1 := by
  unfold MemPool.updateFromBlock
  split
  · rename_i hin
    obtain ⟨parents, children, hlink, -⟩ := foldl_linkChild vs v x.1 (namedChildren x.1 v)
    obtain ⟨entry, heq, hshift⟩ := updateForDescendants_shift vs (linkChildren vs x.1 v, x.2) v
    rw [heq]
    have hsame : linkChildren vs x.1 v = { x.1 with parents := parents, children := children } :=
      hlink
    have hids : (linkChildren vs x.1 v).ids = x.1.ids := by rw [hsame]
    have hentry : (linkChildren vs x.1 v).entry = x.1.entry := by rw [hsame]
    have hnext : (linkChildren vs x.1 v).mapNextTx = x.1.mapNextTx := by rw [hsame]
    have hmap : (linkChildren vs x.1 v).mapKeyImages = x.1.mapKeyImages := by rw [hsame]
    refine ⟨fun hS => (linkChildren_linked hS vs v hin).congr rfl rfl rfl, hids, fun u => ?_,
      fun u => ?_, hnext, hmap⟩
    · exact (hshift u).body.tx.trans (congrArg CTxMemPoolEntry.tx (congrFun hentry u))
    · exact (hshift u).body.nTime.trans (congrArg CTxMemPoolEntry.nTime (congrFun hentry u))
  · exact .refl x.1

lemma rearranged_updateTransactionsFromBlock (S : MemPool) (vs : List Uint256) :
    Rearranged S (S.updateTransactionsFromBlock vs) := by
  have hfold : ∀ (us : List Uint256) (x : MemPool × CacheMap),
      Rearranged x.1 (us.foldl (MemPool.updateFromBlock vs) x).1 := by
    intro us
    induction us with
    | nil => exact fun x => .refl x.1
    | cons u us ih => exact fun x => (rearranged_updateFromBlock vs x u).trans (ih _)
  exact hfold _ (S, fun _ => none)

end PoolRemovals
