import BitcoinC.PoolAcceptance
import BitcoinC.PoolLinks

/-!
# The cached sums of the mempool

Every entry caches sums over its ancestors and descendants in the pool.
-/

namespace PoolAggregates

open Primitives TxVerify Worklist DagSums TxMempool TxMempool.MemPool List Function
open TxMempool.CTxMemPoolEntry PoolLinks PoolAcceptance Relation

variable (delta nFeeDelta : Word) (e : CTxMemPoolEntry)

/-- `c` has an input from `p`, both in the pool. -/
def spends (S : MemPool) (c p : Uint256) : Prop :=
  c ∈ S.ids ∧ p ∈ S.ids ∧ ∃ o ∈ standardPrevouts (S.entry c).tx.vin, o.hash = p

/-- The links and sums of a pool in which the transactions of `pending` still wait for the links
to their children. Pending transactions stand in order, parents first, and have pending parents
only. -/
structure Consistent (S : MemPool) (pending : List Uint256) : Prop where
  linked : Linked S
  next : ∀ o c, (o, c) ∈ S.mapNextTx ↔ c ∈ S.ids ∧ o ∈ standardPrevouts (S.entry c).tx.vin
  unique : ∀ o c c', (o, c) ∈ S.mapNextTx → (o, c') ∈ S.mapNextTx → c = c'
  pending_mem : ∀ v ∈ pending, v ∈ S.ids
  pending_nodup : pending.Nodup
  ordered : pending.Pairwise fun a b => ¬ spends S a b
  closed : ∀ c p, spends S c p → c ∈ pending → p ∈ pending
  links : ∀ c p, p ∈ S.parents c ↔ spends S c p ∧ (c ∈ pending ∨ p ∉ pending)
  acyclic : ∀ v, ¬ TransGen (Next S.parents) v v
  sigOps : ∀ v ∈ S.ids, (S.entry v).sigOpCost.toNat ≤ MAX_STANDARD_TX_SIGOPS_COST
  deltas : ∀ v ∈ S.ids, (S.entry v).feeDelta = (S.mapDeltas v).getD 0
  anc : Exact S.ids.toFinset (Next S.parents) (fun v => ancestorWeight (S.entry v))
    fun v => ancestorState (S.entry v)
  desc : Exact S.ids.toFinset (swap (Next S.parents))
    (fun v => descendantWeight (S.entry v)) fun v => descendantState (S.entry v)

lemma consistent_empty : Consistent MemPool.empty [] where
  linked := linked_empty
  next _ _ := by simp [MemPool.empty]
  unique _ _ _ h := absurd h not_mem_nil
  pending_mem _ h := absurd h not_mem_nil
  pending_nodup := nodup_nil
  ordered := .nil
  closed _ _ h := absurd h.1 not_mem_nil
  links c p := ⟨fun h => absurd h not_mem_nil, fun h => absurd h.1.1 not_mem_nil⟩
  acyclic v h := by
    obtain ⟨b, hb, -⟩ := TransGen.head'_iff.mp h
    exact absurd hb not_mem_nil
  sigOps _ h := absurd h not_mem_nil
  deltas _ h := absurd h not_mem_nil
  anc v h := absurd h (by simp [MemPool.empty])
  desc v h := absurd h (by simp [MemPool.empty])

lemma removedAncestor_eq (h : e.sigOpCost.toNat ≤ MAX_STANDARD_TX_SIGOPS_COST) :
    removedAncestor e = -ancestorWeight e := by
  have hsmall : e.sigOpCost.toNat < 2 ^ 31 := lt_of_le_of_lt h (by decide)
  unfold removedAncestor ancestorWeight
  rw [modifySigOps_eq e hsmall]
  rfl

lemma removedDescendant_eq : removedDescendant e = -descendantWeight e := by
  unfold removedDescendant descendantWeight
  rw [neg_one_mul, neg_one_mul]
  rfl

lemma sum_map_ite {A : Type} [AddCommGroup A] (l : List Uint256) (hl : l.Nodup)
    (P : Uint256 → Prop) [DecidablePred P] (g : Uint256 → A) :
    (l.map fun r => if P r then g r else 0).sum = ∑ r ∈ l.toFinset.filter P, g r := by
  rw [Finset.sum_filter, sum_toFinset _ hl]

lemma mem_belowRemoved {S : MemPool} (h : Linked S) (v r : Uint256) (hr : r ∈ S.ids) :
    v ∈ belowRemoved S r ↔ v ≠ r ∧ ReflTransGen (Next S.parents) v r := by
  rw [belowRemoved, (nodup_descendants S r).mem_erase_iff, h.mem_descendants r v hr]

/-- The contract of `RemoveStaged`: members of the pool, with all their descendants; or, when the
sums of descendants are updated, with all their ancestors. -/
structure Removable (S : MemPool) (stage : List Uint256) (updateDescendants : Bool) : Prop where
  nodup : stage.Nodup
  mem : ∀ r ∈ stage, r ∈ S.ids
  closed : (∀ r ∈ stage, ∀ c ∈ S.children r, c ∈ stage) ∨
    (updateDescendants = true ∧ ∀ r ∈ stage, ∀ p ∈ S.parents r, p ∈ stage)

lemma Removable.dagClosed {S : MemPool} {stage : List Uint256} {updateDescendants : Bool}
    (h : Removable S stage updateDescendants) (hS : Linked S) :
    Closed (Next S.parents) stage.toFinset := by
  rcases h.closed with hdown | ⟨-, hup⟩
  · refine Or.inr fun c p hcp hp => ?_
    rw [mem_toFinset] at hp ⊢
    exact hdown p hp c ((hS.symm c p).mp hcp)
  · refine Or.inl fun c p hcp hc => ?_
    rw [mem_toFinset] at hc ⊢
    exact hup c hc p hcp

lemma not_reaches_stage {S : MemPool} (hS : Linked S) {stage : List Uint256}
    (hdown : ∀ r ∈ stage, ∀ c ∈ S.children r, c ∈ stage) {v r : Uint256} (hv : v ∉ stage)
    (hr : r ∈ stage) : ¬ TransGen (Next S.parents) v r := by
  intro h
  induction h using TransGen.head_induction_on with
  | single hvr => exact hv (hdown r hr _ ((hS.symm _ _).mp hvr))
  | head hvb _ ih =>
    have hb : _ ∈ stage := not_not.mp ih
    exact hv (hdown _ hb _ ((hS.symm _ _).mp hvb))

section Remove

variable {S S' : MemPool} {pending stage : List Uint256} {updateDescendants : Bool}

lemma removed_toFinset (hr : Removed S stage updateDescendants S') :
    S'.ids.toFinset = S.ids.toFinset \ stage.toFinset := by
  ext v
  simp [hr.ids]

lemma removed_spends_iff (hr : Removed S stage updateDescendants S') (c p : Uint256) :
    spends S' c p ↔ spends S c p ∧ c ∉ stage ∧ p ∉ stage := by
  unfold spends
  rw [hr.ids, mem_filter, mem_filter, (hr.entry c).body.tx]
  simp only [decide_eq_true_eq]
  tauto

lemma removed_rest (hr : Removed S stage updateDescendants S') (a b : Uint256) :
    Next S'.parents a b ↔ Next S.parents a b ∧ a ∉ stage.toFinset ∧ b ∉ stage.toFinset := by
  rw [mem_toFinset, mem_toFinset]
  exact hr.parents a b

lemma removed_anc (h : Consistent S pending) (hstage : Removable S stage updateDescendants)
    (hr : Removed S stage updateDescendants S') :
    Exact S'.ids.toFinset (Next S'.parents) (fun v => ancestorWeight (S'.entry v))
      fun v => ancestorState (S'.entry v) := by
  have hweight : ∀ v, ancestorWeight (S'.entry v) = ancestorWeight (S.entry v) := fun v =>
    (hr.entry v).body.ancestorWeight
  have hbelow : ∀ v ∉ stage, ∀ r ∈ stage, v ∈ belowRemoved S r ↔ TransGen (Next S.parents) v r := by
    intro v hv r hrs
    have hne : r ≠ v := fun heq => hv (heq ▸ hrs)
    rw [mem_belowRemoved h.linked v r (hstage.mem r hrs), reflTransGen_iff_eq_or_transGen]
    tauto
  rw [removed_toFinset hr]
  simp only [hweight]
  refine h.anc.remove (hstage.dagClosed h.linked) ?_ (removed_rest hr)
    (fun v => stage.toFinset.filter fun r => v ∈ belowRemoved S r) (fun v _ hv a => ?_)
    fun v hvN hv => ?_
  · intro r hrs
    rw [mem_toFinset] at hrs ⊢
    exact hstage.mem r hrs
  · rw [mem_toFinset] at hv
    rw [Finset.mem_filter, mem_toFinset]
    exact and_congr_right fun ha => hbelow v hv a ha
  · rw [mem_toFinset] at hv
    have hsum : (stage.map fun r => if v ∈ belowRemoved S r then removedAncestor (S.entry r)
      else 0).sum
        = -∑ r ∈ stage.toFinset.filter fun r => v ∈ belowRemoved S r,
        ancestorWeight (S.entry r) := by
      rw [sum_map_ite stage hstage.nodup, ← Finset.sum_neg_distrib]
      refine Finset.sum_congr rfl fun r hrs => removedAncestor_eq _ (h.sigOps r ?_)
      exact hstage.mem r (mem_toFinset.mp (Finset.mem_filter.mp hrs).1)
    rw [(hr.entry v).anc, sub_eq_add_neg, ← hsum]
    cases hflag : updateDescendants with
    | true => rfl
    | false =>
      -- without the update there is nothing above that goes
      have hdown := hstage.closed.resolve_right fun hup => by
        rw [hflag] at hup
        exact Bool.false_ne_true hup.1
      have hzero : (stage.map fun r =>
          if v ∈ belowRemoved S r then removedAncestor (S.entry r) else 0).sum = 0 := by
        refine sum_eq_zero fun x hx => ?_
        obtain ⟨r, hrs, rfl⟩ := mem_map.mp hx
        exact if_neg fun hin => not_reaches_stage h.linked hdown hv hrs ((hbelow v hv r hrs).mp hin)
      rw [hzero]
      rfl

lemma removed_desc (h : Consistent S pending) (hstage : Removable S stage updateDescendants)
    (hr : Removed S stage updateDescendants S') : Exact S'.ids.toFinset (swap (Next S'.parents))
      (fun v => descendantWeight (S'.entry v)) fun v => descendantState (S'.entry v) := by
  have hweight : ∀ v, descendantWeight (S'.entry v) = descendantWeight (S.entry v) := fun v =>
    (hr.entry v).body.descendantWeight
  rw [removed_toFinset hr]
  simp only [hweight]
  refine h.desc.remove (hstage.dagClosed h.linked).swap ?_
    (fun a b => (removed_rest hr b a).trans (and_congr_right fun _ => and_comm))
    (fun v => stage.toFinset.filter fun r => v ∈ S.calculateMemPoolAncestors (S.parents r))
    (fun v _ hv a => ?_) fun v hvN hv => ?_
  · intro r hrs
    rw [mem_toFinset] at hrs ⊢
    exact hstage.mem r hrs
  · rw [Finset.mem_filter, h.linked.mem_linkedAncestors]
    exact and_congr_right fun _ => transGen_swap.symm
  · rw [(hr.entry v).desc, sub_eq_add_neg, sum_map_ite stage hstage.nodup, ← Finset.sum_neg_distrib]
    simp only [removedDescendant_eq]

lemma Consistent.removeStaged (h : Consistent S pending)
    (hstage : Removable S stage updateDescendants) :
    Consistent (S.removeStaged stage updateDescendants) (pending.filter (· ∉ stage)) := by
  have hr := removed_removeStaged h.linked stage updateDescendants
  have hmem : ∀ v, v ∈ (S.removeStaged stage updateDescendants).ids ↔ v ∈ S.ids ∧ v ∉ stage := by
    intro v
    rw [hr.ids, mem_filter, decide_eq_true_eq]
  have hpending : ∀ v, v ∈ pending.filter (· ∉ stage) ↔ v ∈ pending ∧ v ∉ stage := by
    intro v
    rw [mem_filter, decide_eq_true_eq]
  have hspenders := hr.spenders ⟨h.next, h.unique⟩ hstage.mem
  refine ⟨hr.linked h.linked, hspenders.next, hspenders.unique, fun v hv => ?_,
    h.pending_nodup.filter _, ?_, fun c p hcp hc => ?_, fun c p => ?_, fun v hv => ?_,
    fun v hv => ?_, fun v hv => ?_, removed_anc h hstage hr, removed_desc h hstage hr⟩
  · obtain ⟨hv, hvs⟩ := (hpending v).mp hv
    exact (hmem v).mpr ⟨h.pending_mem v hv, hvs⟩
  · refine (h.ordered.filter _).imp fun hab hsp => hab ((removed_spends_iff hr _ _).mp hsp).1
  · obtain ⟨hsp, -, hps⟩ := (removed_spends_iff hr c p).mp hcp
    exact (hpending p).mpr ⟨h.closed c p hsp ((hpending c).mp hc).1, hps⟩
  · rw [hr.parents, h.links, removed_spends_iff hr, hpending, hpending]
    tauto
  · exact h.acyclic v (TransGen.mono (fun a b hab => ((removed_rest hr a b).mp hab).1) v v hv)
  · rw [(hr.entry v).body.sigOpCost]
    exact h.sigOps v ((hmem v).mp hv).1
  · rw [(hr.entry v).body.feeDelta, hr.mapDeltas]
    exact h.deltas v ((hmem v).mp hv).1

end Remove

def outpointsOf (tx : CTransaction) (p : Uint256) : Prop :=
  ∃ o ∈ standardPrevouts tx.vin, o.hash = p

/-- The contract of `addUnchecked`. The transaction is new, spends nothing that the pool spends,
and comes with its ancestors in the pool. An ordinary one has no child in the pool; one of a
disconnected block comes after its parents and before its children of that block. -/
structure Addable (S : MemPool) (pending : List Uint256) (hash : Uint256) (tx : CTransaction)
    (sigOpCost : Word) (setAncestors : List Uint256) (fromBlock : Bool) : Prop where
  fresh : hash ∉ S.ids
  noSelf : ¬ outpointsOf tx hash
  noConflict : ∀ o ∈ standardPrevouts tx.vin, ∀ c, (o, c) ∉ S.mapNextTx
  sigOps : sigOpCost.toNat ≤ MAX_STANDARD_TX_SIGOPS_COST
  nodup : setAncestors.Nodup
  ancestors : ∀ a, a ∈ setAncestors ↔ a ∈ S.calculateMemPoolAncestors (S.searchParents tx)
  parents : ∀ p ∈ S.searchParents tx, p ∈ pending ↔ fromBlock = true
  children : ∀ c ∈ S.ids, outpointsOf (S.entry c).tx hash → fromBlock = true ∧ c ∉ pending

def pendingAfter (pending : List Uint256) (hash : Uint256) (fromBlock : Bool) : List Uint256 :=
  if fromBlock then pending ++ [hash] else pending

lemma ancestorState_withDelta (S : MemPool) (hash : Uint256) (tx : CTransaction)
    (nFee nTxSize : Word) (nTime : Int) (sigOpCost : Word) :
    ancestorState (withDelta S hash (make tx nFee nTxSize nTime sigOpCost)) =
      ancestorWeight (withDelta S hash (make tx nFee nTxSize nTime sigOpCost)) := by
  unfold withDelta
  split
  · split
    · simp [ancestorState, ancestorWeight, make, getModifiedFee]
    · simp [ancestorState, ancestorWeight, make, getModifiedFee, updateFeeDelta]
  · simp [ancestorState, ancestorWeight, make, getModifiedFee]

lemma descendantState_withDelta (S : MemPool) (hash : Uint256) (tx : CTransaction)
    (nFee nTxSize : Word) (nTime : Int) (sigOpCost : Word) :
    descendantState (withDelta S hash (make tx nFee nTxSize nTime sigOpCost)) =
      descendantWeight (withDelta S hash (make tx nFee nTxSize nTime sigOpCost)) := by
  unfold withDelta
  split
  · split
    · simp [descendantState, descendantWeight, make, getModifiedFee]
    · simp [descendantState, descendantWeight, make, getModifiedFee, updateFeeDelta]
  · simp [descendantState, descendantWeight, make, getModifiedFee]

lemma feeDelta_withDelta (S : MemPool) (hash : Uint256) (tx : CTransaction)
    (nFee nTxSize : Word) (nTime : Int) (sigOpCost : Word) :
    (withDelta S hash (make tx nFee nTxSize nTime sigOpCost)).feeDelta =
      (S.mapDeltas hash).getD 0 := by
  unfold withDelta
  cases S.mapDeltas hash with
  | none => rfl
  | some delta =>
    dsimp only
    split
    · rename_i hzero
      rw [hzero]
      rfl
    · rfl

lemma sigOpCost_withDelta (S : MemPool) (hash : Uint256) (e : CTxMemPoolEntry) :
    (withDelta S hash e).sigOpCost = e.sigOpCost := by
  unfold withDelta
  split
  · split
    · rfl
    · rfl
  · rfl

section Add

variable {S S' : MemPool} {pending : List Uint256} {hash : Uint256} {tx : CTransaction}
  {nFee nTxSize : Word} {nTime : Int} {sigOpCost : Word} {setAncestors : List Uint256}
  {fromBlock : Bool}

lemma added_mem (hadd : Added S hash (make tx nFee nTxSize nTime sigOpCost) setAncestors S')
    (v : Uint256) : v ∈ S'.ids ↔ v = hash ∨ v ∈ S.ids := by
  rw [hadd.ids, mem_cons]

lemma added_parents (hok : Addable S pending hash tx sigOpCost setAncestors fromBlock)
    (h : Linked S) (hadd : Added S hash (make tx nFee nTxSize nTime sigOpCost) setAncestors S')
    (c p : Uint256) :
    Next S'.parents c p ↔ Next S.parents c p ∨ c = hash ∧ p ∈ S.searchParents tx := by
  refine (hadd.parents c p).trans (or_congr ?_ (and_congr_right fun _ => ?_))
  · exact ⟨fun hp => hp.2, fun hp => ⟨fun heq => hok.fresh (heq ▸ (h.within c p hp).1), hp⟩⟩
  · rw [mem_newParents, mem_searchParents, mem_cons]
    constructor
    · rintro ⟨rfl | hp, ho⟩
      · exact absurd ho hok.noSelf
      · exact ⟨hp, ho⟩
    · exact fun ⟨hp, ho⟩ => ⟨Or.inr hp, ho⟩

lemma added_spends (hok : Addable S pending hash tx sigOpCost setAncestors fromBlock)
    (hadd : Added S hash (make tx nFee nTxSize nTime sigOpCost) setAncestors S') (c p : Uint256) :
    spends S' c p ↔ spends S c p ∨ (c = hash ∧ p ∈ S.searchParents tx) ∨
      (p = hash ∧ c ∈ S.ids ∧ outpointsOf (S.entry c).tx hash) := by
  unfold spends
  rw [added_mem hadd, added_mem hadd, mem_searchParents]
  by_cases hc : c = hash
  · subst hc
    rw [hadd.new_tx]
    constructor
    · rintro ⟨-, rfl | hp, ho⟩
      · exact absurd ho hok.noSelf
      · exact Or.inr (Or.inl ⟨rfl, hp, ho⟩)
    · rintro (⟨hin, -⟩ | ⟨-, hp, ho⟩ | ⟨-, hin, -⟩)
      · exact absurd hin hok.fresh
      · exact ⟨Or.inl rfl, Or.inr hp, ho⟩
      · exact absurd hin hok.fresh
  · rw [(hadd.old c hc).body.tx]
    constructor
    · rintro ⟨hcin, rfl | hp, ho⟩
      · exact Or.inr (Or.inr ⟨rfl, hcin.resolve_left hc, ho⟩)
      · exact Or.inl ⟨hcin.resolve_left hc, hp, ho⟩
    · rintro (⟨hcin, hp, ho⟩ | ⟨heq, -⟩ | ⟨rfl, hcin, ho⟩)
      · exact ⟨Or.inr hcin, Or.inr hp, ho⟩
      · exact absurd heq hc
      · exact ⟨Or.inr hcin, Or.inl rfl, ho⟩

lemma added_toFinset (hadd : Added S hash (make tx nFee nTxSize nTime sigOpCost) setAncestors S') :
    S'.ids.toFinset = insert hash S.ids.toFinset := by
  rw [hadd.ids, toFinset_cons]

lemma Addable.mem_ancestors (hok : Addable S pending hash tx sigOpCost setAncestors fromBlock)
    (h : Linked S) (a : Uint256) :
    a ∈ setAncestors ↔ ∃ p, p ∈ S.searchParents tx ∧ ReflTransGen (Next S.parents) p a := by
  rw [hok.ancestors, h.mem_ancestors _ (nodup_searchParents S tx)
    fun p hp => ((mem_searchParents S tx p).mp hp).1]

lemma Addable.ancestors_mem (hok : Addable S pending hash tx sigOpCost setAncestors fromBlock)
    (h : Linked S) (a : Uint256) (ha : a ∈ setAncestors) : a ∈ S.ids := by
  obtain ⟨p, hp, hpa⟩ := (hok.mem_ancestors h a).mp ha
  rcases reflTransGen_iff_eq_or_transGen.mp hpa with rfl | hpa
  · exact ((mem_searchParents S tx _).mp hp).1
  · simpa using (h.within_next.transGen hpa).2

lemma added_anc (hok : Addable S pending hash tx sigOpCost setAncestors fromBlock)
    (h : Consistent S pending)
    (hadd : Added S hash (make tx nFee nTxSize nTime sigOpCost) setAncestors S') :
    Exact S'.ids.toFinset (Next S'.parents) (fun v => ancestorWeight (S'.entry v))
      fun v => ancestorState (S'.entry v) := by
  have hne : ∀ v ∈ S.ids.toFinset, v ≠ hash := fun v hv heq =>
    hok.fresh (heq ▸ mem_toFinset.mp hv)
  have hnot : hash ∉ setAncestors := fun hin => hok.fresh (hok.ancestors_mem h.linked hash hin)
  have hweight : ∀ v ∈ S.ids.toFinset, ancestorWeight (S'.entry v) = ancestorWeight (S.entry v) :=
    fun v hv => (hadd.old v (hne v hv)).body.ancestorWeight
  have hold := h.anc.congr hweight fun _ _ => rfl
  rw [added_toFinset hadd]
  refine hold.add_source h.linked.within_next (by simpa using hok.fresh)
    (fun p hp => by simpa using ((mem_searchParents S tx p).mp hp).1)
    (added_parents hok h.linked hadd) setAncestors.toFinset (fun a => ?_) (fun v hv => ?_) ?_
  · rw [mem_toFinset]
    exact hok.mem_ancestors h.linked a
  · rw [(hadd.old v (hne v hv)).anc, add_zero]
  · rw [(hadd.new hnot).anc, ancestorState_withDelta, (hadd.new hnot).body.ancestorWeight]
    refine congrArg _ ?_
    rw [← sum_toFinset _ hok.nodup]
    refine Finset.sum_congr rfl fun a ha => (hweight a ?_).symm
    rw [mem_toFinset] at ha ⊢
    exact hok.ancestors_mem h.linked a ha

lemma added_desc (hok : Addable S pending hash tx sigOpCost setAncestors fromBlock)
    (h : Consistent S pending)
    (hadd : Added S hash (make tx nFee nTxSize nTime sigOpCost) setAncestors S') :
    Exact S'.ids.toFinset (swap (Next S'.parents))
      (fun v => descendantWeight (S'.entry v)) fun v => descendantState (S'.entry v) := by
  have hne : ∀ v ∈ S.ids.toFinset, v ≠ hash := fun v hv heq =>
    hok.fresh (heq ▸ mem_toFinset.mp hv)
  have hnot : hash ∉ setAncestors := fun hin => hok.fresh (hok.ancestors_mem h.linked hash hin)
  have hweight : ∀ v ∈ S.ids.toFinset, descendantWeight (S'.entry v) =
    descendantWeight (S.entry v) :=
    fun v hv => (hadd.old v (hne v hv)).body.descendantWeight
  have hold := h.desc.congr hweight fun _ _ => rfl
  rw [added_toFinset hadd]
  refine hold.add_sink h.linked.within_next.swap (by simpa using hok.fresh)
    (fun p hp => by simpa using ((mem_searchParents S tx p).mp hp).1)
    (fun c p => added_parents hok h.linked hadd p c) setAncestors (fun v _ => ?_)
    (fun v hv => ?_) ?_
  · rw [hok.mem_ancestors h.linked v]
    simp only [reflTransGen_swap]
  · rw [(hadd.old v (hne v hv)).desc, (hadd.new hnot).body.descendantWeight]
  · rw [(hadd.new hnot).desc, add_zero, descendantState_withDelta,
      (hadd.new hnot).body.descendantWeight]

lemma added_acyclic (hok : Addable S pending hash tx sigOpCost setAncestors fromBlock)
    (h : Consistent S pending)
    (hadd : Added S hash (make tx nFee nTxSize nTime sigOpCost) setAncestors S') (v : Uint256) :
    ¬ TransGen (Next S'.parents) v v := by
  intro hv
  have hfresh : hash ∉ S.ids.toFinset := by simpa using hok.fresh
  have hnew := added_parents hok h.linked hadd
  obtain ⟨b, hvb, -⟩ := TransGen.head'_iff.mp hv
  rcases (hnew v b).mp hvb with hvb | ⟨rfl, -⟩
  · have hin := (h.linked.within_next v b hvb).1
    exact h.acyclic v ((transGen_old h.linked.within_next hfresh hnew hin).mp hv)
  · obtain ⟨p, hp, hpv⟩ := (transGen_new h.linked.within_next hfresh
      (fun p hp => by simpa using ((mem_searchParents S tx p).mp hp).1) hnew v).mp hv
    have hin := hok.ancestors_mem h.linked v ((hok.mem_ancestors h.linked v).mpr ⟨p, hp, hpv⟩)
    exact hok.fresh hin

/-- The links of the new pool are its spending relation up to the children of pending
transactions. -/
lemma added_links (hok : Addable S pending hash tx sigOpCost setAncestors fromBlock)
    (h : Consistent S pending)
    (hadd : Added S hash (make tx nFee nTxSize nTime sigOpCost) setAncestors S') (c p : Uint256) :
    p ∈ S'.parents c ↔ spends S' c p ∧
      (c ∈ pendingAfter pending hash fromBlock ∨ p ∉ pendingAfter pending hash fromBlock) := by
  have hpend : ∀ v, v ∈ pendingAfter pending hash fromBlock ↔
      v ∈ pending ∨ (fromBlock = true ∧ v = hash) := by
    intro v
    unfold pendingAfter
    split
    · rename_i hfrom
      simp [hfrom]
    · rename_i hfrom
      simp [hfrom]
  have hhash : hash ∉ pending := fun hin => hok.fresh (h.pending_mem hash hin)
  refine (added_parents hok h.linked hadd c p).trans ?_
  rw [added_spends hok hadd, hpend, hpend]
  constructor
  · rintro (hcp | ⟨rfl, hp⟩)
    · obtain ⟨hsp, hor⟩ := (h.links c p).mp hcp
      have hpne : p ≠ hash := fun heq => hok.fresh (heq ▸ hsp.2.1)
      refine ⟨Or.inl hsp, hor.imp Or.inl ?_⟩
      rintro hnot (hin | ⟨-, heq⟩)
      · exact hnot hin
      · exact hpne heq
    · refine ⟨Or.inr (Or.inl ⟨rfl, hp⟩), ?_⟩
      have hpar := hok.parents p hp
      by_cases hfrom : fromBlock = true
      · exact Or.inl (Or.inr ⟨hfrom, rfl⟩)
      · refine Or.inr ?_
        rintro (hin | ⟨hf, -⟩)
        · exact hfrom (hpar.mp hin)
        · exact hfrom hf
  · rintro ⟨hsp | ⟨rfl, hp⟩ | ⟨rfl, hc, ho⟩, hor⟩
    · refine Or.inl ((h.links c p).mpr ⟨hsp, ?_⟩)
      have hcne : c ≠ hash := fun heq => hok.fresh (heq ▸ hsp.1)
      rcases hor with (hin | ⟨-, heq⟩) | hnot
      · exact Or.inl hin
      · exact absurd heq hcne
      · exact Or.inr fun hin => hnot (Or.inl hin)
    · exact Or.inr ⟨rfl, hp⟩
    · -- a child that is there already is linked later
      obtain ⟨hfrom, hcp⟩ := hok.children c hc ho
      have hcne : c ≠ p := fun heq => hok.fresh (heq ▸ hc)
      rcases hor with (hin | ⟨-, heq⟩) | hnot
      · exact absurd hin hcp
      · exact absurd heq hcne
      · exact absurd (Or.inr ⟨hfrom, rfl⟩) hnot

lemma Consistent.addUnchecked (h : Consistent S pending)
    (hok : Addable S pending hash tx sigOpCost setAncestors fromBlock) :
    Consistent (S.addUnchecked hash (make tx nFee nTxSize nTime sigOpCost) setAncestors)
      (pendingAfter pending hash fromBlock) := by
  have hadd := added_addUnchecked S hash (make tx nFee nTxSize nTime sigOpCost) setAncestors
    hok.fresh hok.nodup
  have hmem := added_mem hadd
  have hnot : hash ∉ setAncestors := fun hin => hok.fresh (hok.ancestors_mem h.linked hash hin)
  have hhash : hash ∉ pending := fun hin => hok.fresh (h.pending_mem hash hin)
  have hne : ∀ v ∈ S.ids, v ≠ hash := fun v hv heq => hok.fresh (heq ▸ hv)
  have hspenders := hadd.spenders ⟨h.next, h.unique⟩ hok.fresh hok.noConflict
  have hold : ∀ a b, a ∈ pending → b ∈ pending →
      spends (S.addUnchecked hash (make tx nFee nTxSize nTime sigOpCost) setAncestors) a b →
      spends S a b := by
    intro a b ha hb hsp
    rcases (added_spends hok hadd a b).mp hsp with hsp | ⟨rfl, -⟩ | ⟨rfl, -⟩
    · exact hsp
    · exact absurd ha hhash
    · exact absurd hb hhash
  refine ⟨hadd.linked h.linked hok.fresh, hspenders.next, hspenders.unique, fun v hv => ?_, ?_, ?_,
    fun c p hcp hc => ?_, added_links hok h hadd, added_acyclic hok h hadd, fun v hv => ?_,
    fun v hv => ?_, added_anc hok h hadd, added_desc hok h hadd⟩
  · rw [hmem]
    unfold pendingAfter at hv
    split at hv
    · rcases mem_append.mp hv with hv | hv
      · exact Or.inr (h.pending_mem v hv)
      · exact Or.inl (mem_singleton.mp hv)
    · exact Or.inr (h.pending_mem v hv)
  · unfold pendingAfter
    split
    · refine h.pending_nodup.append (nodup_singleton hash) ?_
      exact disjoint_singleton.mpr hhash
    · exact h.pending_nodup
  · have hpairs : pending.Pairwise fun a b => ¬ spends
        (S.addUnchecked hash (make tx nFee nTxSize nTime sigOpCost) setAncestors) a b :=
      h.ordered.imp_of_mem fun ha hb hab hsp => hab (hold _ _ ha hb hsp)
    unfold pendingAfter
    split
    · refine pairwise_append.mpr ⟨hpairs, pairwise_singleton _ _, fun a ha b hb hsp => ?_⟩
      rw [mem_singleton.mp hb] at hsp
      rcases (added_spends hok hadd a hash).mp hsp with hsp | ⟨rfl, -⟩ | ⟨-, hc, ho⟩
      · exact hok.fresh hsp.2.1
      · exact hhash ha
      · exact (hok.children a hc ho).2 ha
    · exact hpairs
  · unfold pendingAfter at hc ⊢
    split at hc
    · rename_i hfrom
      rw [if_pos hfrom]
      rcases (added_spends hok hadd c p).mp hcp with hsp | ⟨rfl, hp⟩ | ⟨rfl, hc', ho⟩
      · have hcne := hne c hsp.1
        have hcin := (mem_append.mp hc).resolve_right fun hin => hcne (mem_singleton.mp hin)
        exact mem_append_left _ (h.closed c p hsp hcin)
      · exact mem_append_left _ ((hok.parents p hp).mpr hfrom)
      · exact mem_append_right _ (mem_singleton.mpr rfl)
    · rename_i hfrom
      rw [if_neg hfrom]
      rcases (added_spends hok hadd c p).mp hcp with hsp | ⟨rfl, -⟩ | ⟨rfl, hc', ho⟩
      · exact h.closed c p hsp hc
      · exact absurd hc hhash
      · exact absurd (hok.children c hc' ho).1 hfrom
  · rcases (hmem v).mp hv with rfl | hv
    · rw [(hadd.new hnot).body.sigOpCost, sigOpCost_withDelta]
      exact hok.sigOps
    · rw [(hadd.old v (hne v hv)).body.sigOpCost]
      exact h.sigOps v hv
  · rw [hadd.mapDeltas]
    rcases (hmem v).mp hv with rfl | hv
    · rw [(hadd.new hnot).body.feeDelta, feeDelta_withDelta]
    · rw [(hadd.old v (hne v hv)).body.feeDelta]
      exact h.deltas v hv

end Add

section Prioritise

variable {S : MemPool} {pending : List Uint256}

lemma getModifiedFee_updateFeeDelta (h : delta = e.feeDelta + nFeeDelta) :
    (updateFeeDelta delta e).getModifiedFee = e.getModifiedFee + nFeeDelta := by
  subst h
  exact (add_assoc _ _ _).symm

lemma ancestorState_updateFeeDelta (h : delta = e.feeDelta + nFeeDelta) :
    ancestorState (updateFeeDelta delta e) = ancestorState e + (0, nFeeDelta, 0, 0) := by
  subst h
  simp [ancestorState, updateFeeDelta]

lemma descendantState_updateFeeDelta (h : delta = e.feeDelta + nFeeDelta) :
    descendantState (updateFeeDelta delta e) = descendantState e + (0, nFeeDelta, 0) := by
  subst h
  simp [descendantState, updateFeeDelta]

lemma Consistent.of_entries (h : Consistent S pending) (entry : Uint256 → CTxMemPoolEntry)
    (mapDeltas : Uint256 → Option Word) (htx : ∀ v, (entry v).tx = (S.entry v).tx)
    (hsig : ∀ v, (entry v).sigOpCost = (S.entry v).sigOpCost)
    (hdeltas : ∀ v ∈ S.ids, (entry v).feeDelta = (mapDeltas v).getD 0)
    (hanc : Exact S.ids.toFinset (Next S.parents) (fun v => ancestorWeight (entry v))
      fun v => ancestorState (entry v))
    (hdesc : Exact S.ids.toFinset (swap (Next S.parents))
      (fun v => descendantWeight (entry v)) fun v => descendantState (entry v)) :
    Consistent { S with entry := entry, mapDeltas := mapDeltas } pending := by
  have hspends : spends { S with entry := entry, mapDeltas := mapDeltas } = spends S := by
    funext c p
    simp only [spends, htx]
  refine ⟨h.linked.congr rfl rfl rfl, ?_, h.unique, h.pending_mem, h.pending_nodup, ?_, ?_,
    ?_, h.acyclic, ?_, hdeltas, hanc, hdesc⟩
  · simpa only [htx] using h.next
  · rw [hspends]
    exact h.ordered
  · rw [hspends]
    exact h.closed
  · rw [hspends]
    exact h.links
  · simpa only [hsig] using h.sigOps

/-- What `PrioritiseTransaction` does to the entries: that of `hash` gets the new delta, its
descendants and ancestors the change. -/
structure Prioritised (S : MemPool) (hash : Uint256) (nFeeDelta : Word)
    (entry : Uint256 → CTxMemPoolEntry) : Prop where
  self : Shift (updateFeeDelta ((S.mapDeltas hash).getD 0 + nFeeDelta) (S.entry hash)) (entry hash)
    (if hash ∈ belowRemoved S hash then (0, nFeeDelta, 0, 0) else 0)
    (if hash ∈ S.calculateMemPoolAncestors (S.parents hash) then (0, nFeeDelta, 0) else 0)
  other : ∀ v, v ≠ hash → Shift (S.entry v) (entry v)
    (if v ∈ belowRemoved S hash then (0, nFeeDelta, 0, 0) else 0)
    (if v ∈ S.calculateMemPoolAncestors (S.parents hash) then (0, nFeeDelta, 0) else 0)

section

variable {hash : Uint256} {nFeeDelta : Word} {entry : Uint256 → CTxMemPoolEntry}

lemma exists_prioritised (S : MemPool) (nFeeDelta : Word) (hin : hash ∈ S.ids) :
    ∃ entry, S.prioritiseTransaction hash nFeeDelta = { S with
        entry := entry
        mapDeltas := update S.mapDeltas hash (some ((S.mapDeltas hash).getD 0 + nFeeDelta)) } ∧
      Prioritised S hash nFeeDelta entry := by
  obtain ⟨entry, heq, hshift⟩ := prioritiseTransaction_shift S hash nFeeDelta hin
  refine ⟨entry, heq, ?_, fun v hv => ?_⟩
  · have hself := hshift hash
    rwa [update_self] at hself
  · have hother := hshift v
    rwa [update_of_ne hv] at hother

lemma Prioritised.body (hp : Prioritised S hash nFeeDelta entry) (v : Uint256) :
    (entry v).tx = (S.entry v).tx ∧ (entry v).sigOpCost = (S.entry v).sigOpCost := by
  by_cases hv : v = hash
  · subst hv
    exact ⟨hp.self.body.tx, hp.self.body.sigOpCost⟩
  · exact ⟨(hp.other v hv).body.tx, (hp.other v hv).body.sigOpCost⟩

lemma Prioritised.anc (hp : Prioritised S hash nFeeDelta entry) (h : Consistent S pending)
    (hin : hash ∈ S.ids) : Exact S.ids.toFinset (Next S.parents)
      (fun v => ancestorWeight (entry v)) fun v => ancestorState (entry v) := by
  have hdelta : (S.mapDeltas hash).getD 0 + nFeeDelta = (S.entry hash).feeDelta + nFeeDelta := by
    rw [h.deltas hash hin]
  have hbelow : hash ∉ belowRemoved S hash := fun hmem =>
    ((mem_belowRemoved h.linked hash hash hin).mp hmem).1 rfl
  refine h.anc.reweigh (by simpa using hin) (0, nFeeDelta, 0, 0) (belowRemoved S hash)
    (fun v hv => ?_) (fun v => ?_) fun v _ => ?_
  · rw [mem_belowRemoved h.linked v hash hin, reflTransGen_iff_eq_or_transGen]
    constructor
    · rintro ⟨hne, heq | hpath⟩
      · exact absurd heq.symm hne
      · exact hpath
    · intro hpath
      refine ⟨?_, Or.inr hpath⟩
      rintro rfl
      exact h.acyclic _ hpath
  · by_cases hv : v = hash
    · subst hv
      have hmod := hp.self.body.modifiedFee.trans (getModifiedFee_updateFeeDelta _ _ _ hdelta)
      rw [if_pos rfl]
      simp only [ancestorWeight, hmod, hp.self.body.nTxSize, hp.self.body.sigOpCost]
      simp [updateFeeDelta]
    · rw [if_neg hv, add_zero, (hp.other v hv).body.ancestorWeight]
  · by_cases hv : v = hash
    · subst hv
      rw [if_pos rfl, if_neg hbelow, add_zero, hp.self.anc, if_neg hbelow, add_zero,
        ancestorState_updateFeeDelta _ _ _ hdelta]
    · rw [if_neg hv, zero_add, (hp.other v hv).anc]

lemma Prioritised.desc (hp : Prioritised S hash nFeeDelta entry) (h : Consistent S pending)
    (hin : hash ∈ S.ids) : Exact S.ids.toFinset (swap (Next S.parents))
      (fun v => descendantWeight (entry v)) fun v => descendantState (entry v) := by
  have hdelta : (S.mapDeltas hash).getD 0 + nFeeDelta = (S.entry hash).feeDelta + nFeeDelta := by
    rw [h.deltas hash hin]
  have habove : hash ∉ S.calculateMemPoolAncestors (S.parents hash) := fun hmem =>
    h.acyclic hash ((h.linked.mem_linkedAncestors hash hash).mp hmem)
  refine h.desc.reweigh (by simpa using hin) (0, nFeeDelta, 0)
    (S.calculateMemPoolAncestors (S.parents hash)) (fun v hv => ?_) (fun v => ?_) fun v _ => ?_
  · rw [h.linked.mem_linkedAncestors]
    exact transGen_swap.symm
  · by_cases hv : v = hash
    · subst hv
      have hmod := hp.self.body.modifiedFee.trans (getModifiedFee_updateFeeDelta _ _ _ hdelta)
      rw [if_pos rfl]
      simp only [descendantWeight, hmod, hp.self.body.nTxSize]
      simp [updateFeeDelta]
    · rw [if_neg hv, add_zero, (hp.other v hv).body.descendantWeight]
  · by_cases hv : v = hash
    · subst hv
      rw [if_pos rfl, if_neg habove, add_zero, hp.self.desc, if_neg habove, add_zero,
        descendantState_updateFeeDelta _ _ _ hdelta]
    · rw [if_neg hv, zero_add, (hp.other v hv).desc]

end

lemma Consistent.prioritiseTransaction (h : Consistent S pending) (hash : Uint256)
    (nFeeDelta : Word) : Consistent (S.prioritiseTransaction hash nFeeDelta) pending := by
  by_cases hin : hash ∈ S.ids
  · obtain ⟨entry, heq, hp⟩ := exists_prioritised S nFeeDelta hin
    rw [heq]
    refine h.of_entries entry _ (fun v => (hp.body v).1) (fun v => (hp.body v).2) (fun v hv => ?_)
      (hp.anc h hin) (hp.desc h hin)
    by_cases hne : v = hash
    · subst hne
      rw [update_self, hp.self.body.feeDelta]
      rfl
    · rw [update_of_ne hne, (hp.other v hne).body.feeDelta]
      exact h.deltas v hv
  · unfold MemPool.prioritiseTransaction
    dsimp only
    rw [if_neg hin]
    refine h.of_entries S.entry _ (fun _ => rfl) (fun _ => rfl) (fun v hv => ?_) h.anc h.desc
    have hne : v ≠ hash := fun heq => hin (heq ▸ hv)
    rw [update_of_ne hne]
    exact h.deltas v hv

end Prioritise

end PoolAggregates
