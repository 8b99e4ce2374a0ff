import BitcoinC.DagSums
import BitcoinC.TxMempool

/-!
# Entries and links through the mempool's operations

What an entry is worth to its ancestors and descendants, the sums it caches, and
what every operation does to entries, links and the other maps. The links are
kept both ways and stay within the pool.
-/

namespace PoolLinks

open Primitives TxVerify Worklist TxMempool TxMempool.MemPool List Function
open TxMempool.CTxMemPoolEntry

variable (g : Uint256 → CTxMemPoolEntry) (setExclude : List Uint256) (m : Uint256 → List Uint256)
  (s setAlreadyIncluded : List Uint256) (add : Bool) (vs : List Uint256) (h : Uint256)
  {stage : List Uint256} (x v : Uint256) {updateDescendants : Bool} (y : Uint256)

/-- What an entry adds to the cached sums over ancestors: size, modified fee, count, sigop cost. -/
def ancestorWeight (e : CTxMemPoolEntry) : Word × Word × Word × Word :=
  (e.nTxSize, e.getModifiedFee, 1, e.sigOpCost)

def descendantWeight (e : CTxMemPoolEntry) : Word × Word × Word :=
  (e.nTxSize, e.getModifiedFee, 1)

def ancestorState (e : CTxMemPoolEntry) : Word × Word × Word × Word :=
  (e.nSizeWithAncestors, e.nModFeesWithAncestors, e.nCountWithAncestors, e.nSigOpCostWithAncestors)

def descendantState (e : CTxMemPoolEntry) : Word × Word × Word :=
  (e.nSizeWithDescendants, e.nModFeesWithDescendants, e.nCountWithDescendants)

/-- Two entries that differ in their aggregates only. -/
structure SameBody (e e' : CTxMemPoolEntry) : Prop where
  tx : e'.tx = e.tx
  nFee : e'.nFee = e.nFee
  nTxSize : e'.nTxSize = e.nTxSize
  nTime : e'.nTime = e.nTime
  sigOpCost : e'.sigOpCost = e.sigOpCost
  feeDelta : e'.feeDelta = e.feeDelta

lemma SameBody.refl (e : CTxMemPoolEntry) : SameBody e e := ⟨rfl, rfl, rfl, rfl, rfl, rfl⟩

lemma SameBody.trans {e e' e'' : CTxMemPoolEntry} (h : SameBody e e') (h' : SameBody e' e'') :
    SameBody e e'' :=
  ⟨h'.tx.trans h.tx, h'.nFee.trans h.nFee, h'.nTxSize.trans h.nTxSize, h'.nTime.trans h.nTime,
    h'.sigOpCost.trans h.sigOpCost, h'.feeDelta.trans h.feeDelta⟩

lemma SameBody.modifiedFee {e e' : CTxMemPoolEntry} (h : SameBody e e') :
    e'.getModifiedFee = e.getModifiedFee := by
  rw [getModifiedFee, getModifiedFee, h.nFee, h.feeDelta]

lemma SameBody.ancestorWeight {e e' : CTxMemPoolEntry} (h : SameBody e e') :
    ancestorWeight e' = ancestorWeight e := by
  simp only [PoolLinks.ancestorWeight, h.nTxSize, h.modifiedFee, h.sigOpCost]

lemma SameBody.descendantWeight {e e' : CTxMemPoolEntry} (h : SameBody e e') :
    descendantWeight e' = descendantWeight e := by
  simp only [PoolLinks.descendantWeight, h.nTxSize, h.modifiedFee]

/-- The aggregates of an entry change by the given sums. -/
structure Shift (e e' : CTxMemPoolEntry) (a : Word × Word × Word × Word) (d : Word × Word × Word) :
    Prop where
  body : SameBody e e'
  anc : ancestorState e' = ancestorState e + a
  desc : descendantState e' = descendantState e + d

lemma Shift.refl (e : CTxMemPoolEntry) : Shift e e 0 0 :=
  ⟨.refl e, (add_zero _).symm, (add_zero _).symm⟩

lemma Shift.trans {e e' e'' : CTxMemPoolEntry} {a a' : Word × Word × Word × Word}
    {d d' : Word × Word × Word} (h : Shift e e' a d) (h' : Shift e' e'' a' d') :
    Shift e e'' (a + a') (d + d') :=
  ⟨h.body.trans h'.body, by rw [h'.anc, h.anc, add_assoc], by rw [h'.desc, h.desc, add_assoc]⟩

lemma shift_updateDescendantState (a b c : Word) (e : CTxMemPoolEntry) :
    Shift e (updateDescendantState a b c e) 0 (a, b, c) :=
  ⟨⟨rfl, rfl, rfl, rfl, rfl, rfl⟩, (add_zero _).symm, rfl⟩

lemma shift_updateAncestorState (a b c d : Word) (e : CTxMemPoolEntry) :
    Shift e (updateAncestorState a b c d e) (a, b, c, d) 0 :=
  ⟨⟨rfl, rfl, rfl, rfl, rfl, rfl⟩, rfl, (add_zero _).symm⟩

section

variable (p : Prop) [Decidable p] (a b c d : Word) (e : CTxMemPoolEntry)

lemma shift_ancestor_if :
    Shift e (if p then updateAncestorState a b c d e else e) (if p then (a, b, c, d) else 0) 0 := by
  split
  · exact shift_updateAncestorState a b c d e
  · exact .refl e

lemma shift_descendant_if :
    Shift e (if p then updateDescendantState a b c e else e) 0 (if p then (a, b, c) else 0) := by
  split
  · exact shift_updateDescendantState a b c e
  · exact .refl e

end

lemma modifySigOps_eq (e : CTxMemPoolEntry) (h : e.sigOpCost.toNat < 2 ^ 31) :
    modifySigOps e = -e.sigOpCost := by
  unfold modifySigOps
  apply BitVec.eq_of_toInt_eq
  rw [BitVec.toInt_signExtend_of_le (by decide), BitVec.toInt_setWidth, BitVec.toInt_eq_toNat_bmod,
    BitVec.toNat_neg]
  simp only [Int.bmod_def]
  omega

section Modify

variable (S : MemPool) (hs : List Uint256) (f : CTxMemPoolEntry → CTxMemPoolEntry)

lemma modifyAll_eq (hnodup : hs.Nodup) : S.modifyAll hs f =
      { S with entry := fun v => if v ∈ hs then f (S.entry v) else S.entry v } := by
  induction hs generalizing S with
  | nil => simp [modifyAll]
  | cons h hs ih =>
    obtain ⟨hnot, hnodup⟩ := nodup_cons.mp hnodup
    refine (ih (S.modify h f) hnodup).trans ?_
    unfold MemPool.modify
    congr 1
    funext v
    by_cases hv : v = h
    · subst hv
      rw [if_neg hnot, if_pos mem_cons_self]
      exact update_self _ _ _
    · simp only [update_of_ne hv, mem_cons, hv, false_or]

end Modify

/-- Parents and children are duplicate-free, in the pool and inverse to each other. -/
structure Linked (S : MemPool) : Prop where
  ids_nodup : S.ids.Nodup
  parents_nodup : ∀ v, (S.parents v).Nodup
  children_nodup : ∀ v, (S.children v).Nodup
  within : ∀ c p, p ∈ S.parents c → c ∈ S.ids ∧ p ∈ S.ids
  symm : ∀ c p, p ∈ S.parents c ↔ c ∈ S.children p

lemma linked_empty : Linked MemPool.empty where
  ids_nodup := nodup_nil
  parents_nodup _ := nodup_nil
  children_nodup _ := nodup_nil
  within _ _ h := absurd h not_mem_nil
  symm _ _ := by simp [MemPool.empty]

lemma Linked.congr {S S' : MemPool} (h : Linked S) (hids : S'.ids = S.ids)
    (hparents : S'.parents = S.parents) (hchildren : S'.children = S.children) : Linked S' :=
  ⟨hids ▸ h.ids_nodup, hparents ▸ h.parents_nodup, hchildren ▸ h.children_nodup,
    by rw [hids, hparents]; exact h.within, by rw [hparents, hchildren]; exact h.symm⟩

lemma Linked.next_children {S : MemPool} (h : Linked S) :
    Next S.children = swap (Next S.parents) := by
  funext p c
  exact propext (h.symm c p).symm

lemma Linked.within_next {S : MemPool} (h : Linked S) :
    DagSums.Within S.ids.toFinset (Next S.parents) := by
  intro c p hcp
  simpa using h.within c p hcp

lemma fuel_le (S : MemPool) : (S.ids.toFinset \ (([] : List Uint256)).toFinset).card ≤
    S.ids.length := by
  simpa using toFinset_card_le S.ids

lemma Linked.mem_ancestors {S : MemPool} (h : Linked S) (ps : List Uint256) (hps : ps.Nodup)
    (hmem : ∀ p ∈ ps, p ∈ S.ids) (a : Uint256) :
    a ∈ S.calculateMemPoolAncestors ps ↔ ∃ p ∈ ps, Relation.ReflTransGen (Next S.parents) p a := by
  have hstart : Started S.parents S.ids.toFinset ps [] :=
    ⟨fun c _ p hp => by simpa using (h.within c p hp).2, by simpa using hmem, by simp, hps, by simp,
      by simp⟩
  rw [calculateMemPoolAncestors, mem_walk_iff _ _ _ _ _ hstart (fuel_le S)]
  simp

lemma Linked.mem_linkedAncestors {S : MemPool} (h : Linked S) (v a : Uint256) :
    a ∈ S.calculateMemPoolAncestors (S.parents v) ↔ Relation.TransGen (Next S.parents) v a := by
  rw [h.mem_ancestors _ (h.parents_nodup v) fun p hp => (h.within v p hp).2,
    Relation.TransGen.head'_iff]
  rfl

lemma Linked.mem_descendants {S : MemPool} (h : Linked S) (v d : Uint256) (hv : v ∈ S.ids) :
    d ∈ S.calculateDescendants v [] ↔ Relation.ReflTransGen (Next S.parents) d v := by
  have hstart : Started S.children S.ids.toFinset [v] [] :=
    ⟨fun
      p _ c hc => by simpa using (h.within c p ((h.symm c p).mpr hc)).1, by simpa using hv, by simp,
      nodup_singleton v, by simp, by simp⟩
  rw [calculateDescendants, if_neg not_mem_nil, mem_walk_iff _ _ _ _ _ hstart (fuel_le S),
    h.next_children]
  simp [Relation.reflTransGen_swap]

lemma Linked.mem_of_reaches {S : MemPool} (h : Linked S) {v d : Uint256} (hv : v ∈ S.ids)
    (hdv : Relation.ReflTransGen (Next S.parents) d v) : d ∈ S.ids := by
  rcases hdv.cases_head with rfl | ⟨p, hp, -⟩
  · exact hv
  · exact (h.within d p hp).1

/-- `CalculateDescendants` adds the descendants of an entry to a set that has those of its
members. -/
lemma Linked.mem_addDescendants {S : MemPool} (h : Linked S) (v d : Uint256) (hv : v ∈ S.ids)
    (set : List Uint256) (hset : ∀ x ∈ set, x ∈ S.ids)
    (hclosed : ∀ x ∈ set, ∀ c ∈ S.children x, c ∈ set) :
    d ∈ S.calculateDescendants v set ↔ d ∈ set ∨ Relation.ReflTransGen (Next S.parents) d v := by
  have hstart : Started S.children S.ids.toFinset (if v ∈ set then [] else [v]) set := by
    refine ⟨fun p _ c hc => by simpa using (h.within c p ((h.symm c p).mpr hc)).1,
      ?_, by simpa using hset, ?_, ?_, fun x hx c hc => .inl (hclosed x hx c hc)⟩
    all_goals split_ifs <;> simp_all
  have hfuel : (S.ids.toFinset \ set.toFinset).card ≤ S.ids.length :=
    (Finset.card_le_card Finset.sdiff_subset).trans (toFinset_card_le S.ids)
  rw [calculateDescendants, mem_walk_iff _ _ _ _ _ hstart hfuel, h.next_children]
  simp only [Relation.reflTransGen_swap]
  split_ifs with hin
  · -- the descendants of a member are there already
    have hbelow : Relation.ReflTransGen (Next S.parents) d v → d ∈ set := by
      intro hdv
      have := reached_of_closed S.children set [] (fun x hx c hc => .inl (hclosed x hx c hc))
        v d hin (by rwa [h.next_children, Relation.reflTransGen_swap])
      simpa using this
    simp only [not_mem_nil, false_and, exists_false, or_false]
    exact ⟨.inl, fun hd => hd.elim id hbelow⟩
  · simp

lemma Linked.mem_allDescendants {S : MemPool} (h : Linked S) (hs : List Uint256)
    (hmem : ∀ v ∈ hs, v ∈ S.ids) (d : Uint256) :
    d ∈ S.allDescendants hs ↔ ∃ v ∈ hs, Relation.ReflTransGen (Next S.parents) d v := by
  -- over the list, the set is that of the descendants of the entries so far
  have hfold : ∀ (hs set : List Uint256), (∀ v ∈ hs, v ∈ S.ids) → (∀ x ∈ set, x ∈ S.ids) →
      (∀ x ∈ set, ∀ c ∈ S.children x, c ∈ set) →
      (d ∈ hs.foldl (fun s v => S.calculateDescendants v s) set ↔
        d ∈ set ∨ ∃ v ∈ hs, Relation.ReflTransGen (Next S.parents) d v) := by
    intro hs
    induction hs with
    | nil => simp
    | cons v hs ih =>
      intro set hmem hset hclosed
      rw [forall_mem_cons] at hmem
      have hadd := fun x => h.mem_addDescendants v x hmem.1 set hset hclosed
      rw [foldl_cons, ih _ hmem.2 ?_ ?_, hadd]
      · simp [or_assoc]
      · intro x hx
        exact ((hadd x).mp hx).elim (hset x) (h.mem_of_reaches hmem.1)
      · intro x hx c hc
        refine (hadd c).mpr (((hadd x).mp hx).imp (fun hx => hclosed x hx c hc) fun hx => ?_)
        exact .head ((h.symm c x).mpr hc) hx
  rw [allDescendants, hfold hs [] hmem (by simp) (by simp)]
  simp

lemma nodup_ancestors (S : MemPool) (ps : List Uint256) : (S.calculateMemPoolAncestors ps).Nodup :=
  nodup_walk _ _ _ _ nodup_nil

lemma nodup_descendants (S : MemPool) (v : Uint256) : (S.calculateDescendants v []).Nodup :=
  nodup_walk _ _ _ _ nodup_nil


lemma mem_put_false : x ∈ put false s h ↔ x ∈ s ∧ x ≠ h := by
  simp [put]

lemma mem_put_true : x ∈ put true s h ↔ x = h ∨ x ∈ s := by
  simp [put]

lemma nodup_put (s : List Uint256) (h : Uint256) (hs : s.Nodup) : (put add s h).Nodup := by
  unfold put
  split
  · exact hs.insert
  · exact hs.filter _

lemma nodup_update {m : Uint256 → List Uint256} (h : ∀ v, (m v).Nodup) (u : Uint256)
    {s : List Uint256} (hs : s.Nodup) : ∀ v, (update m u s v).Nodup :=
  (forall_update_iff m fun _ (s : List Uint256) => s.Nodup).mpr ⟨hs, fun v _ => h v⟩

lemma mem_foldl_put (ps s : List Uint256) (x : Uint256) :
    x ∈ ps.foldl (put true) s ↔ x ∈ s ∨ x ∈ ps := by
  induction ps generalizing s with
  | nil => simp
  | cons p ps ih =>
    rw [foldl_cons, ih, mem_put_true, mem_cons]
    tauto

lemma nodup_foldl_put (ps s : List Uint256) (h : s.Nodup) : (ps.foldl (put true) s).Nodup := by
  induction ps generalizing s with
  | nil => exact h
  | cons p ps ih => exact ih _ (nodup_put _ _ _ h)

def putEach (add : Bool) (m : Uint256 → List Uint256) (vs : List Uint256) (x : Uint256) :
    Uint256 → List Uint256 :=
  match vs with
  | [] => m
  | v :: vs => putEach add (update m v (put add (m v) x)) vs x

lemma mem_putEach (m : Uint256 → List Uint256) (vs : List Uint256) (x v y : Uint256) :
    y ∈ putEach add m vs x v ↔ if v ∈ vs then y ∈ put add (m v) x else y ∈ m v := by
  induction vs generalizing m with
  | nil => simp [putEach]
  | cons u vs ih =>
    refine (ih _).trans ?_
    by_cases hv : v = u
    · subst hv
      rw [if_pos mem_cons_self, update_self]
      cases add <;> simp only [mem_put_false, mem_put_true] <;> split <;> tauto
    · simp only [update_of_ne hv, mem_cons, hv, false_or]

lemma mem_putEach_false : y ∈ putEach false m vs x v ↔ y ∈ m v ∧ ¬ (v ∈ vs ∧ y = x) := by
  rw [mem_putEach, mem_put_false]
  split <;> tauto

lemma mem_putEach_true : y ∈ putEach true m vs x v ↔ y ∈ m v ∨ (v ∈ vs ∧ y = x) := by
  rw [mem_putEach, mem_put_true]
  split <;> tauto

lemma nodup_putEach (m : Uint256 → List Uint256) (vs : List Uint256) (x : Uint256)
    (h : ∀ v, (m v).Nodup) (v : Uint256) : (putEach add m vs x v).Nodup := by
  induction vs generalizing m with
  | nil => exact h v
  | cons u vs ih =>
    exact ih _ (nodup_update h u (nodup_put _ _ _ (h u)))

lemma foldl_updateChild (S : MemPool) (ps : List Uint256) (h : Uint256) (add : Bool) :
    ps.foldl (fun S p => S.updateChild p h add) S =
      { S with children := putEach add S.children ps h } := by
  induction ps generalizing S with
  | nil => rfl
  | cons p ps ih => exact ih _

lemma foldl_updateParent (S : MemPool) (cs : List Uint256) (h : Uint256) (add : Bool) :
    cs.foldl (fun S c => S.updateParent c h add) S =
      { S with parents := putEach add S.parents cs h } := by
  induction cs generalizing S with
  | nil => rfl
  | cons c cs ih => exact ih _

def belowRemoved (S : MemPool) (r : Uint256) : List Uint256 := (S.calculateDescendants r []).erase r

def removedAncestor (e : CTxMemPoolEntry) : Word × Word × Word × Word :=
  (-e.nTxSize, -e.getModifiedFee, -1, modifySigOps e)

def removedDescendant (e : CTxMemPoolEntry) : Word × Word × Word :=
  (-1 * e.nTxSize, -1 * e.getModifiedFee, -1)

lemma SameBody.removedAncestor {e e' : CTxMemPoolEntry} (h : SameBody e e') :
    removedAncestor e' = removedAncestor e := by
  simp only [PoolLinks.removedAncestor, modifySigOps, h.nTxSize, h.modifiedFee, h.sigOpCost]

lemma SameBody.removedDescendant {e e' : CTxMemPoolEntry} (h : SameBody e e') :
    removedDescendant e' = removedDescendant e := by
  simp only [PoolLinks.removedDescendant, h.nTxSize, h.modifiedFee]

lemma updateDescendantsForRemoval_eq (S : MemPool) (r : Uint256) :
    S.updateDescendantsForRemoval r = { S with
      entry := fun v => if v ∈ belowRemoved S r then
        updateAncestorState (-(S.entry r).nTxSize) (-(S.entry r).getModifiedFee) (-1)
          (modifySigOps (S.entry r)) (S.entry v) else S.entry v } :=
  modifyAll_eq S _ _ ((nodup_descendants S r).erase r)

lemma foldl_updateDescendants (S : MemPool) (rs : List Uint256) :
    ∃ entry, rs.foldl updateDescendantsForRemoval S = { S with entry := entry } ∧
      ∀ v, Shift (S.entry v) (entry v)
        ((rs.map fun r => if v ∈ belowRemoved S r then removedAncestor (S.entry r) else 0).sum)
          0 := by
  induction rs generalizing S with
  | nil => exact ⟨S.entry, rfl, fun v => .refl _⟩
  | cons r rs ih =>
    have hstep := updateDescendantsForRemoval_eq S r
    obtain ⟨entry, heq, hshift⟩ := ih (S.updateDescendantsForRemoval r)
    have hfirst : ∀ v, Shift (S.entry v) ((S.updateDescendantsForRemoval r).entry v)
        (if v ∈ belowRemoved S r then removedAncestor (S.entry r) else 0) 0 := by
      intro v
      rw [hstep]
      exact shift_ancestor_if _ _ _ _ _ _
    refine ⟨entry, ?_, fun v => ?_⟩
    · rw [foldl_cons, heq, hstep]
    · have hbelow : ∀ r', belowRemoved (S.updateDescendantsForRemoval r) r' =
          belowRemoved S r' := by
        intro r'
        rw [hstep]
        rfl
      have hrest := hshift v
      simp only [hbelow, (hfirst _).body.removedAncestor] at hrest
      have hboth := (hfirst v).trans hrest
      rw [add_zero] at hboth
      exact hboth

lemma updateAncestorsForRemoval_eq (S : MemPool) (r : Uint256) :
    S.updateAncestorsForRemoval r = { S with
      children := putEach false S.children (S.parents r) r
      entry := fun v => if v ∈ S.calculateMemPoolAncestors (S.parents r) then
        updateDescendantState (-1 * (S.entry r).nTxSize) (-1 * (S.entry r).getModifiedFee) (-1)
          (S.entry v) else S.entry v } := by
  unfold updateAncestorsForRemoval updateAncestorsOf
  rw [foldl_updateChild]
  exact modifyAll_eq _ _ _ (nodup_ancestors S _)

/-- The second loop: sums over descendants and children of the parents lose the removed entries. -/
lemma foldl_updateAncestors (S : MemPool) (rs : List Uint256) :
    ∃ entry children, rs.foldl updateAncestorsForRemoval S =
        { S with entry := entry, children := children } ∧
      (∀ v, Shift (S.entry v) (entry v) 0 ((rs.map fun r =>
        if v ∈ S.calculateMemPoolAncestors (S.parents r) then removedDescendant (S.entry r)
          else 0).sum)) ∧
      (∀ v c, c ∈ children v ↔ c ∈ S.children v ∧ ¬ (c ∈ rs ∧ v ∈ S.parents c)) ∧
      ((∀ v, (S.children v).Nodup) → ∀ v, (children v).Nodup) := by
  induction rs generalizing S with
  | nil => exact ⟨S.entry, S.children, rfl, fun v => .refl _, by simp, fun h => h⟩
  | cons r rs ih =>
    have hstep := updateAncestorsForRemoval_eq S r
    obtain ⟨entry, children, heq, hshift, hmem, hnodup⟩ := ih (S.updateAncestorsForRemoval r)
    have hfirst : ∀ v, Shift (S.entry v) ((S.updateAncestorsForRemoval r).entry v) 0
        (if v ∈ S.calculateMemPoolAncestors (S.parents r) then removedDescendant (S.entry r)
          else 0) := by
      intro v
      rw [hstep]
      exact shift_descendant_if _ _ _ _ _
    have hparents : (S.updateAncestorsForRemoval r).parents = S.parents := by rw [hstep]
    have hchildren : (S.updateAncestorsForRemoval r).children =
        putEach false S.children (S.parents r) r := by rw [hstep]
    refine ⟨entry, children, ?_, fun v => ?_, fun v c => ?_, fun h => hnodup ?_⟩
    · rw [foldl_cons, heq, hstep]
    · have habove : ∀ ps, (S.updateAncestorsForRemoval r).calculateMemPoolAncestors ps =
          S.calculateMemPoolAncestors ps := by
        intro ps
        rw [hstep]
        rfl
      have hrest := hshift v
      simp only [habove, hparents, (hfirst _).body.removedDescendant] at hrest
      have hboth := (hfirst v).trans hrest
      rw [add_zero] at hboth
      exact hboth
    · rw [hmem, hparents, hchildren, mem_putEach_false, mem_cons]
      by_cases hc : c = r
      · subst hc
        tauto
      · simp only [hc, and_false, not_false_eq_true, and_true, false_or]
    · rw [hchildren]
      exact nodup_putEach _ _ _ _ h

lemma foldl_updateChildren (S : MemPool) (rs : List Uint256) :
    ∃ parents, rs.foldl updateChildrenForRemoval S = { S with parents := parents } ∧
      (∀ v p, p ∈ parents v ↔ p ∈ S.parents v ∧ ¬ (p ∈ rs ∧ v ∈ S.children p)) ∧
      ((∀ v, (S.parents v).Nodup) → ∀ v, (parents v).Nodup) := by
  induction rs generalizing S with
  | nil => exact ⟨S.parents, rfl, by simp, fun h => h⟩
  | cons r rs ih =>
    have hstep : S.updateChildrenForRemoval r =
        { S with parents := putEach false S.parents (S.children r) r } := foldl_updateParent S _ _ _
    obtain ⟨parents, heq, hmem, hnodup⟩ := ih (S.updateChildrenForRemoval r)
    refine ⟨parents, ?_, fun v p => ?_, fun h => hnodup ?_⟩
    · rw [foldl_cons, heq, hstep]
    · rw [hmem, hstep]
      dsimp only
      rw [mem_putEach_false, mem_cons]
      by_cases hp : p = r
      · subst hp
        tauto
      · simp only [hp, and_false, not_false_eq_true, and_true, false_or]
    · rw [hstep]
      exact nodup_putEach _ _ _ _ h

def stackTxKeyImages (tx : CTransaction) : List CCmpPubKey :=
  tx.anonInputs.flatMap fun txin => (stackKeyImages txin).getD []

lemma eraseKeyImages_nil (m : CCmpPubKey → Option Uint256) : eraseKeyImages m [] = m := by
  funext ki
  exact if_neg not_mem_nil

lemma eraseKeyImages_append (m : CCmpPubKey → Option Uint256) (xs ys : List CCmpPubKey) :
    eraseKeyImages (eraseKeyImages m xs) ys = eraseKeyImages m (xs ++ ys) := by
  funext ki
  simp only [eraseKeyImages, mem_append]
  split
  · rename_i h
    rw [if_pos (Or.inr h)]
  · rename_i h
    simp only [h, or_false]

lemma foldl_removeInput (S : MemPool) (vin : List CTxIn) : vin.foldl removeInput S = { S with
      mapNextTx := S.mapNextTx.filter (·.1 ∉ standardPrevouts vin)
      mapKeyImages := eraseKeyImages S.mapKeyImages
        ((vin.filter fun txin => txin.isAnonInput).flatMap fun txin =>
          (stackKeyImages txin).getD []) } := by
  induction vin generalizing S with
  | nil => simp [standardPrevouts, eraseKeyImages_nil]
  | cons txin vin ih =>
    rw [foldl_cons, ih, removeInput]
    by_cases hanon : txin.isAnonInput
    · rw [if_pos hanon]
      simp only [standardPrevouts, hanon, decide_true, filter_cons_of_pos, flatMap_cons,
        not_true_eq_false, decide_false, Bool.false_eq_true, not_false_eq_true,
        filter_cons_of_neg, eraseKeyImages_append]
      congr!
    · rw [if_neg hanon]
      simp only [standardPrevouts, hanon, decide_false, Bool.false_eq_true, not_false_eq_true,
        filter_cons_of_neg, decide_true, filter_cons_of_pos, map_cons,
        mem_cons, not_or, filter_filter]
      congr 1
      refine filter_congr fun x _ => ?_
      simp only [ne_eq, decide_not, Bool.decide_and]
      rw [Bool.and_comm]

lemma removeUnchecked_eq (S : MemPool) (h : Uint256) : S.removeUnchecked h = { S with
      ids := S.ids.filter (· ≠ h)
      parents := update S.parents h []
      children := update S.children h []
      mapNextTx := S.mapNextTx.filter (·.1 ∉ standardPrevouts (S.entry h).tx.vin)
      mapKeyImages := eraseKeyImages S.mapKeyImages (stackTxKeyImages (S.entry h).tx) } := by
  rw [removeUnchecked, foldl_removeInput]
  rfl

lemma foldl_removeUnchecked (S : MemPool) (rs : List Uint256) :
    rs.foldl removeUnchecked S = { S with
      ids := S.ids.filter (· ∉ rs)
      parents := fun v => if v ∈ rs then [] else S.parents v
      children := fun v => if v ∈ rs then [] else S.children v
      mapNextTx := S.mapNextTx.filter fun x =>
        ∀ r ∈ rs, x.1 ∉ standardPrevouts (S.entry r).tx.vin
      mapKeyImages := eraseKeyImages S.mapKeyImages
        (rs.flatMap fun r => stackTxKeyImages (S.entry r).tx) } := by
  induction rs generalizing S with
  | nil => simp [eraseKeyImages_nil]
  | cons r rs ih =>
    rw [foldl_cons, ih, removeUnchecked_eq, MemPool.mk.injEq]
    refine ⟨?_, rfl, ?_, ?_, ?_, rfl, eraseKeyImages_append _ _ _⟩
    · simp only [filter_filter]
      refine filter_congr fun x _ => ?_
      simp only [ne_eq, decide_not, mem_cons, not_or, Bool.decide_and]
      rw [Bool.and_comm]
    · funext v
      by_cases hv : v = r
      · simp [hv]
      · simp [hv]
    · funext v
      by_cases hv : v = r
      · simp [hv]
      · simp [hv]
    · simp only [filter_filter]
      refine filter_congr fun x _ => ?_
      simp only [forall_mem_cons, Bool.decide_and]
      rw [Bool.and_comm]

/-- What `RemoveStaged` does to members, links and aggregates. -/
structure Removed (S : MemPool) (stage : List Uint256) (updateDescendants : Bool) (S' : MemPool) :
    Prop where
  ids : S'.ids = S.ids.filter (· ∉ stage)
  parents : ∀ v p, p ∈ S'.parents v ↔ p ∈ S.parents v ∧ v ∉ stage ∧ p ∉ stage
  children : ∀ v c, c ∈ S'.children v ↔ c ∈ S.children v ∧ v ∉ stage ∧ c ∉ stage
  parents_nodup : ∀ v, (S'.parents v).Nodup
  children_nodup : ∀ v, (S'.children v).Nodup
  entry : ∀ v, Shift (S.entry v) (S'.entry v)
    (if updateDescendants then (stage.map fun r =>
      if v ∈ belowRemoved S r then removedAncestor (S.entry r) else 0).sum else 0)
    ((stage.map fun r => if v ∈ S.calculateMemPoolAncestors (S.parents r) then
      removedDescendant (S.entry r) else 0).sum)
  mapNextTx : ∀ x, x ∈ S'.mapNextTx ↔ x ∈ S.mapNextTx ∧
    ∀ r ∈ stage, x.1 ∉ standardPrevouts (S.entry r).tx.vin
  mapDeltas : S'.mapDeltas = S.mapDeltas
  mapKeyImages : S'.mapKeyImages =
    eraseKeyImages S.mapKeyImages (stage.flatMap fun r => stackTxKeyImages (S.entry r).tx)

lemma removed_removeStaged {S : MemPool} (hS : Linked S) (stage : List Uint256)
    (updateDescendants : Bool) :
    Removed S stage updateDescendants (S.removeStaged stage updateDescendants) := by
  obtain ⟨entry₁, hfirst, hshift₁⟩ : ∃ entry,
      (if updateDescendants then stage.foldl updateDescendantsForRemoval S else S) =
        { S with entry := entry } ∧
      ∀ v, Shift (S.entry v) (entry v) (if updateDescendants then (stage.map fun r =>
        if v ∈ belowRemoved S r then removedAncestor (S.entry r) else 0).sum else 0) 0 := by
    cases updateDescendants with
    | true => exact foldl_updateDescendants S stage
    | false => exact ⟨S.entry, rfl, fun v => .refl _⟩
  obtain ⟨entry₂, children₂, hsecond, hshift₂, hchildren₂, hcnodup⟩ :=
    foldl_updateAncestors { S with entry := entry₁ } stage
  obtain ⟨parents₃, hthird, hparents₃, hpnodup⟩ :=
    foldl_updateChildren { S with entry := entry₂, children := children₂ } stage
  have hupdate : S.updateForRemoveFromMempool stage updateDescendants =
      { S with entry := entry₂, children := children₂, parents := parents₃ } := by
    unfold updateForRemoveFromMempool
    simp only [hfirst, hsecond, hthird]
  -- the links go both ways, so both sides lose the same pairs
  have hchild : ∀ v c, c ∈ children₂ v ↔ c ∈ S.children v ∧ c ∉ stage := by
    intro v c
    rw [hchildren₂]
    dsimp only
    rw [hS.symm]
    tauto
  have hparent : ∀ v p, v ∉ stage → (p ∈ parents₃ v ↔ p ∈ S.parents v ∧ p ∉ stage) := by
    intro v p hv
    rw [hparents₃]
    dsimp only
    rw [hchild, ← hS.symm]
    tauto
  have hbody : ∀ v, Shift (S.entry v) (entry₂ v)
      (if updateDescendants then (stage.map fun r =>
        if v ∈ belowRemoved S r then removedAncestor (S.entry r) else 0).sum else 0)
      ((stage.map fun r => if v ∈ S.calculateMemPoolAncestors (S.parents r) then
        removedDescendant (S.entry r) else 0).sum) := by
    intro v
    have hrest := hshift₂ v
    have hsame : ∀ r, removedDescendant (entry₁ r) = removedDescendant (S.entry r) := fun r =>
      (hshift₁ r).body.removedDescendant
    simp only [hsame] at hrest
    have hboth := (hshift₁ v).trans hrest
    rw [add_zero, zero_add] at hboth
    exact hboth
  rw [removeStaged, hupdate, foldl_removeUnchecked]
  have htx : ∀ r, (entry₂ r).tx = (S.entry r).tx := fun r => (hbody r).body.tx
  refine ⟨rfl, fun v p => ?_, fun v c => ?_, fun v => ?_, fun v => ?_, hbody, fun x => ?_, rfl, ?_⟩
  · dsimp only
    split
    · rename_i hv
      simp [hv]
    · rename_i hv
      rw [hparent v p hv]
      tauto
  · dsimp only
    split
    · rename_i hv
      simp [hv]
    · rename_i hv
      rw [hchild]
      tauto
  · dsimp only
    split
    · exact nodup_nil
    · exact hpnodup hS.parents_nodup v
  · dsimp only
    split
    · exact nodup_nil
    · exact hcnodup hS.children_nodup v
  · dsimp only
    rw [mem_filter, decide_eq_true_eq]
    simp only [htx]
  · simp only [htx]

lemma Removed.linked {S S' : MemPool} (h : Removed S stage updateDescendants S') (hS : Linked S) :
    Linked S' where
  ids_nodup := by
    rw [h.ids]
    exact hS.ids_nodup.filter _
  parents_nodup := h.parents_nodup
  children_nodup := h.children_nodup
  within c p hp := by
    obtain ⟨hp, hc, hps⟩ := (h.parents c p).mp hp
    obtain ⟨hcin, hpin⟩ := hS.within c p hp
    rw [h.ids, mem_filter, mem_filter]
    exact ⟨⟨hcin, by simpa using hc⟩, ⟨hpin, by simpa using hps⟩⟩
  symm c p := by
    rw [h.parents, h.children, hS.symm]
    tauto

/-- `mapNextTx` has the inputs of the pool, each spent once. -/
structure Spenders (S : MemPool) : Prop where
  next : ∀ o c, (o, c) ∈ S.mapNextTx ↔ c ∈ S.ids ∧ o ∈ standardPrevouts (S.entry c).tx.vin
  unique : ∀ o c c', (o, c) ∈ S.mapNextTx → (o, c') ∈ S.mapNextTx → c = c'

lemma spenders_empty : Spenders MemPool.empty where
  next _ _ := by simp [MemPool.empty]
  unique _ _ _ h := absurd h not_mem_nil

lemma Removed.spenders {S S' : MemPool} (hr : Removed S stage updateDescendants S') (h : Spenders S)
    (hstage : ∀ r ∈ stage, r ∈ S.ids) : Spenders S' where
  next o c := by
    rw [hr.mapNextTx, h.next, hr.ids, mem_filter, decide_eq_true_eq, (hr.entry c).body.tx]
    constructor
    · rintro ⟨⟨hc, ho⟩, hnot⟩
      exact ⟨⟨hc, fun hcs => hnot c hcs ho⟩, ho⟩
    · rintro ⟨⟨hc, hcs⟩, ho⟩
      refine ⟨⟨hc, ho⟩, fun r hrs hor => hcs ?_⟩
      -- an outpoint has one spender in the pool
      have hone := h.unique o c r ((h.next o c).mpr ⟨hc, ho⟩) ((h.next o r).mpr ⟨hstage r hrs, hor⟩)
      exact hone ▸ hrs
  unique o c c' hc hc' := h.unique o c c' ((hr.mapNextTx _).mp hc).1 ((hr.mapNextTx _).mp hc').1

lemma searchParents_eq (S : MemPool) (tx : CTransaction) : S.searchParents tx =
      (((standardPrevouts tx.vin).map (·.hash)).filter (· ∈ S.ids)).foldl (put true) [] := by
  rw [searchParents, foldl_filter]
  simp [put]

lemma mem_searchParents (S : MemPool) (tx : CTransaction) (p : Uint256) :
    p ∈ S.searchParents tx ↔ p ∈ S.ids ∧ ∃ o ∈ standardPrevouts tx.vin, o.hash = p := by
  rw [searchParents_eq, mem_foldl_put, mem_filter, mem_map, decide_eq_true_eq, and_comm]
  simp

lemma nodup_searchParents (S : MemPool) (tx : CTransaction) : (S.searchParents tx).Nodup := by
  rw [searchParents_eq]
  exact nodup_foldl_put _ _ nodup_nil

def withDelta (S : MemPool) (hash : Uint256) (e : CTxMemPoolEntry) : CTxMemPoolEntry :=
  match S.mapDeltas hash with
  | some delta => if delta = 0 then e else updateFeeDelta delta e
  | none => e

lemma withDelta_tx (S : MemPool) (hash : Uint256) (e : CTxMemPoolEntry) :
    (withDelta S hash e).tx = e.tx := by
  unfold withDelta
  split
  · split
    · rfl
    · rfl
  · rfl

lemma insert_applyFeeDelta (S : MemPool) (hash : Uint256) (e : CTxMemPoolEntry)
    (hfresh : hash ∉ S.ids) : (S.insertEntry hash e).applyFeeDelta hash = { S with
      ids := hash :: S.ids
      entry := update S.entry hash (withDelta S hash e)
      parents := update S.parents hash []
      children := update S.children hash [] } := by
  unfold insertEntry applyFeeDelta withDelta
  rw [if_neg hfresh]
  dsimp only
  cases hdelta : S.mapDeltas hash with
  | none => rfl
  | some delta =>
    dsimp only
    split
    · rfl
    · simp only [MemPool.modify, update_self, update_idem]

lemma foldl_updateParent_of (S : MemPool) (h : Uint256) (ps : List Uint256) :
    ps.foldl (fun S p => S.updateParent h p true) S =
      { S with parents := update S.parents h (ps.foldl (put true) (S.parents h)) } := by
  induction ps generalizing S with
  | nil => simp
  | cons p ps ih =>
    rw [foldl_cons, ih]
    simp [updateParent, update_idem]

lemma sum_ancestorWeight (hs : List Uint256) : (hs.map fun a => ancestorWeight (g a)).sum =
      ((hs.map fun a => (g a).nTxSize).sum, (hs.map fun a => (g a).getModifiedFee).sum,
        BitVec.ofNat 64 hs.length, (hs.map fun a => (g a).sigOpCost).sum) := by
  induction hs with
  | nil => rfl
  | cons h hs ih =>
    simp only [map_cons, sum_cons, ih, length_cons]
    rw [Nat.add_comm hs.length 1, BitVec.ofNat_add]
    rfl

lemma sum_descendantWeight (hs : List Uint256) : (hs.map fun a => descendantWeight (g a)).sum =
      ((hs.map fun a => (g a).nTxSize).sum, (hs.map fun a => (g a).getModifiedFee).sum,
        BitVec.ofNat 64 hs.length) := by
  induction hs with
  | nil => rfl
  | cons h hs ih =>
    simp only [map_cons, sum_cons, ih, length_cons]
    rw [Nat.add_comm hs.length 1, BitVec.ofNat_add]
    rfl

def newParents (S : MemPool) (hash : Uint256) (tx : CTransaction) : List Uint256 :=
  (searchParents { S with ids := hash :: S.ids } tx).foldl (put true) []

lemma mem_newParents (S : MemPool) (hash : Uint256) (tx : CTransaction) (p : Uint256) :
    p ∈ newParents S hash tx ↔ p ∈ hash :: S.ids ∧ ∃ o ∈ standardPrevouts tx.vin, o.hash = p := by
  rw [newParents, mem_foldl_put, mem_searchParents]
  simp

lemma addParents_eq (S : MemPool) (hash : Uint256) (e : CTxMemPoolEntry) (hfresh : hash ∉ S.ids) :
    (((S.insertEntry hash e).applyFeeDelta hash).addNextTx hash).addParents hash = { S with
      ids := hash :: S.ids
      entry := update S.entry hash (withDelta S hash e)
      parents := update S.parents hash (newParents S hash e.tx)
      children := update S.children hash []
      mapNextTx := (standardPrevouts e.tx.vin).foldl (insertNextTx hash) S.mapNextTx } := by
  have hself : ((S.insertEntry hash e).applyFeeDelta hash).entry hash = withDelta S hash e := by
    rw [insert_applyFeeDelta S hash e hfresh]
    exact update_self _ _ _
  unfold addParents addNextTx
  rw [foldl_updateParent_of]
  dsimp only
  rw [hself, withDelta_tx, insert_applyFeeDelta S hash e hfresh, MemPool.mk.injEq]
  refine ⟨rfl, rfl, ?_, rfl, rfl, rfl, rfl⟩
  dsimp only
  rw [update_idem, update_self]
  rfl

lemma updateAncestorsOf_true (S : MemPool) (h : Uint256) (setAncestors : List Uint256)
    (hnodup : setAncestors.Nodup) : S.updateAncestorsOf true h setAncestors = { S with
      children := putEach true S.children (S.parents h) h
      entry := fun v => if v ∈ setAncestors then
        updateDescendantState (1 * (S.entry h).nTxSize) (1 * (S.entry h).getModifiedFee) 1
          (S.entry v)
        else S.entry v } := by
  unfold updateAncestorsOf
  rw [foldl_updateChild]
  exact modifyAll_eq _ _ _ hnodup

lemma shift_updateEntryForAncestors (g' : Uint256 → CTxMemPoolEntry) (hs : List Uint256)
    (h : ∀ a ∈ hs, SameBody (g a) (g' a)) (e : CTxMemPoolEntry) :
    Shift e (updateAncestorState (hs.map fun a => (g' a).nTxSize).sum
      (hs.map fun a => (g' a).getModifiedFee).sum (BitVec.ofNat 64 hs.length)
      (hs.map fun a => (g' a).sigOpCost).sum e) ((hs.map fun a => ancestorWeight (g a)).sum) 0 := by
  have hmap : (hs.map fun a => ancestorWeight (g a)) = hs.map fun a => ancestorWeight (g' a) :=
    map_congr_left fun a ha => (h a ha).ancestorWeight.symm
  rw [hmap, sum_ancestorWeight]
  exact shift_updateAncestorState _ _ _ _ _

/-- What `addUnchecked` does to members, links and aggregates. -/
structure Added (S : MemPool) (hash : Uint256) (e : CTxMemPoolEntry) (setAncestors : List Uint256)
    (S' : MemPool) : Prop where
  ids : S'.ids = hash :: S.ids
  parents : ∀ v p, p ∈ S'.parents v ↔
    (v ≠ hash ∧ p ∈ S.parents v) ∨ (v = hash ∧ p ∈ newParents S hash e.tx)
  children : ∀ v c, c ∈ S'.children v ↔
    (v ≠ hash ∧ c ∈ S.children v) ∨ (c = hash ∧ v ∈ newParents S hash e.tx)
  parents_nodup : (∀ v, (S.parents v).Nodup) → ∀ v, (S'.parents v).Nodup
  children_nodup : (∀ v, (S.children v).Nodup) → ∀ v, (S'.children v).Nodup
  old : ∀ v, v ≠ hash → Shift (S.entry v) (S'.entry v) 0
    (if v ∈ setAncestors then descendantWeight (withDelta S hash e) else 0)
  new : hash ∉ setAncestors → Shift (withDelta S hash e) (S'.entry hash)
    ((setAncestors.map fun a => ancestorWeight (S.entry a)).sum) 0
  new_tx : (S'.entry hash).tx = e.tx
  mapNextTx : S'.mapNextTx = (standardPrevouts e.tx.vin).foldl (insertNextTx hash) S.mapNextTx
  mapDeltas : S'.mapDeltas = S.mapDeltas
  mapKeyImages : S'.mapKeyImages = S.mapKeyImages

lemma added_addUnchecked (S : MemPool) (hash : Uint256) (e : CTxMemPoolEntry)
    (setAncestors : List Uint256) (hfresh : hash ∉ S.ids) (hnodup : setAncestors.Nodup) :
    Added S hash e setAncestors (S.addUnchecked hash e setAncestors) := by
  have hdesc : (1 * (withDelta S hash e).nTxSize, 1 * (withDelta S hash e).getModifiedFee,
    (1 : Word)) =
      descendantWeight (withDelta S hash e) := by
    rw [one_mul, one_mul]
    rfl
  unfold addUnchecked
  rw [addParents_eq S hash e hfresh]
  dsimp only
  rw [updateAncestorsOf_true _ _ _ hnodup]
  dsimp only
  rw [update_self, update_self]
  unfold updateEntryForAncestors MemPool.modify
  dsimp only
  have hold : ∀ v, v ≠ hash → Shift (S.entry v) (if v ∈ setAncestors then
      updateDescendantState (1 * (withDelta S hash e).nTxSize)
        (1 * (withDelta S hash e).getModifiedFee) 1
        (update S.entry hash (withDelta S hash e) v)
      else update S.entry hash (withDelta S hash e) v) 0
      (if v ∈ setAncestors then descendantWeight (withDelta S hash e) else 0) := by
    intro v hv
    rw [update_of_ne hv, ← hdesc]
    exact shift_descendant_if _ _ _ _ _
  refine ⟨rfl, fun v p => ?_, fun v c => ?_, fun h v => ?_, fun h v => ?_, fun v hv => ?_,
    fun hnot => ?_, ?_, rfl, rfl, rfl⟩
  · by_cases hv : v = hash
    · subst hv
      simp
    · simp [hv]
  · dsimp only
    rw [mem_putEach_true]
    by_cases hv : v = hash
    · subst hv
      simp [and_comm]
    · simp [hv, and_comm]
  · exact nodup_update h hash (nodup_foldl_put _ _ nodup_nil) v
  · exact nodup_putEach _ _ _ _ (nodup_update h hash nodup_nil) v
  · dsimp only
    rw [update_of_ne hv]
    exact hold v hv
  · dsimp only
    rw [update_self, if_neg hnot, update_self]
    exact shift_updateEntryForAncestors S.entry _ _ (fun a ha => (hold a fun heq =>
      hnot (heq ▸ ha)).body) _
  · dsimp only
    rw [update_self, update_self]
    split
    · exact withDelta_tx S hash e
    · exact withDelta_tx S hash e

lemma Added.linked {S S' : MemPool} {hash : Uint256} {e : CTxMemPoolEntry}
    {setAncestors : List Uint256} (h : Added S hash e setAncestors S') (hS : Linked S)
    (hfresh : hash ∉ S.ids) : Linked S' where
  ids_nodup := by
    rw [h.ids]
    exact nodup_cons.mpr ⟨hfresh, hS.ids_nodup⟩
  parents_nodup := h.parents_nodup hS.parents_nodup
  children_nodup := h.children_nodup hS.children_nodup
  within c p hp := by
    rw [h.ids]
    rcases (h.parents c p).mp hp with ⟨-, hp⟩ | ⟨rfl, hp⟩
    · obtain ⟨hc, hp⟩ := hS.within c p hp
      exact ⟨mem_cons_of_mem _ hc, mem_cons_of_mem _ hp⟩
    · exact ⟨mem_cons_self, ((mem_newParents S c e.tx p).mp hp).1⟩
  symm c p := by
    rw [h.parents, h.children]
    refine or_congr ?_ Iff.rfl
    constructor
    · rintro ⟨-, hp⟩
      exact ⟨fun heq => hfresh (heq ▸ (hS.within c p hp).2), (hS.symm c p).mp hp⟩
    · rintro ⟨-, hc⟩
      have hp := (hS.symm c p).mpr hc
      exact ⟨fun heq => hfresh (heq ▸ (hS.within c p hp).1), hp⟩

lemma mem_foldl_insertNextTx (hash : Uint256) (os : List COutPoint) (m : List (COutPoint × Uint256))
    (h : ∀ o ∈ os, ∀ c, (o, c) ∈ m → c = hash) (o : COutPoint) (c : Uint256) :
    (o, c) ∈ os.foldl (insertNextTx hash) m ↔ (o, c) ∈ m ∨ (c = hash ∧ o ∈ os) := by
  induction os generalizing m with
  | nil => simp
  | cons o' os ih =>
    rw [foldl_cons]
    have hmem : ∀ x, x ∈ insertNextTx hash m o' ↔ x ∈ m ∨ x = (o', hash) := by
      intro x
      unfold insertNextTx
      split
      · rename_i hany
        obtain ⟨y, hy, hkey⟩ := any_eq_true.mp hany
        have hy1 : y.1 = o' := of_decide_eq_true hkey
        have hyh := h o' mem_cons_self y.2 (hy1 ▸ hy)
        have hin : (o', hash) ∈ m := by
          rw [← hy1, ← hyh]
          exact hy
        exact ⟨Or.inl, fun hx => hx.elim id fun heq => heq ▸ hin⟩
      · rw [mem_cons, or_comm]
    rw [ih _ fun o'' ho'' c'' hc'' => ?_, hmem, Prod.mk.injEq, mem_cons]
    · tauto
    · rcases (hmem _).mp hc'' with hold | hnew
      · exact h o'' (mem_cons_of_mem o' ho'') c'' hold
      · exact (Prod.mk.inj hnew).2

lemma Added.spenders {S S' : MemPool} {hash : Uint256} {e : CTxMemPoolEntry}
    {setAncestors : List Uint256} (hadd : Added S hash e setAncestors S') (h : Spenders S)
    (hfresh : hash ∉ S.ids) (hfree : ∀ o ∈ standardPrevouts e.tx.vin, ∀ c, (o, c) ∉ S.mapNextTx) :
    Spenders S' := by
  have hnext : ∀ o c, (o, c) ∈ S'.mapNextTx ↔
      (o, c) ∈ S.mapNextTx ∨ (c = hash ∧ o ∈ standardPrevouts e.tx.vin) := by
    intro o c
    rw [hadd.mapNextTx]
    exact mem_foldl_insertNextTx hash _ _ (fun o ho c hc => absurd hc (hfree o ho c)) o c
  have hold : ∀ c ∈ S.ids, (S'.entry c).tx = (S.entry c).tx := fun c hc =>
    (hadd.old c fun heq => hfresh (heq ▸ hc)).body.tx
  refine ⟨fun o c => ?_, fun o c c' hc hc' => ?_⟩
  · rw [hnext, hadd.ids, mem_cons, h.next]
    constructor
    · rintro (⟨hc, ho⟩ | ⟨rfl, ho⟩)
      · exact ⟨Or.inr hc, hold c hc ▸ ho⟩
      · exact ⟨Or.inl rfl, hadd.new_tx ▸ ho⟩
    · rintro ⟨rfl | hc, ho⟩
      · exact Or.inr ⟨rfl, hadd.new_tx ▸ ho⟩
      · exact Or.inl ⟨hc, hold c hc ▸ ho⟩
  · rcases (hnext o c).mp hc with hin | ⟨hch, ho⟩
    · rcases (hnext o c').mp hc' with hin' | ⟨-, ho'⟩
      · exact h.unique o c c' hin hin'
      · exact absurd hin (hfree o ho' c)
    · rcases (hnext o c').mp hc' with hin' | ⟨hch', -⟩
      · exact absurd hin' (hfree o ho c')
      · exact hch.trans hch'.symm

lemma foldl_linkChild_eq (S : MemPool) (cs : List Uint256) :
    cs.foldl (linkChild setAlreadyIncluded h) S = { S with
      parents := putEach true S.parents (cs.filter fun c => c ∈ S.ids ∧ c ∉ setAlreadyIncluded) h
      children := update S.children h
        ((cs.filter fun c => c ∈ S.ids ∧ c ∉ setAlreadyIncluded).foldl (put true) (S.children h))
          } := by
  induction cs generalizing S with
  | nil => simp [putEach]
  | cons c cs ih =>
    rw [foldl_cons, ih, linkChild]
    by_cases hc : c ∈ S.ids ∧ c ∉ setAlreadyIncluded
    · rw [if_pos hc, filter_cons_of_pos (by simpa using hc)]
      simp only [updateChild, updateParent, putEach, foldl_cons, update_self, update_idem]
      rfl
    · rw [if_neg hc, filter_cons_of_neg (by simpa using hc)]

lemma foldl_linkChild (S : MemPool) (cs : List Uint256) :
    ∃ parents children, cs.foldl (linkChild setAlreadyIncluded h) S =
        { S with parents := parents, children := children } ∧
      (∀ v p, p ∈ parents v ↔
        p ∈ S.parents v ∨ (p = h ∧ v ∈ cs ∧ v ∈ S.ids ∧ v ∉ setAlreadyIncluded)) ∧
      (∀ v c, c ∈ children v ↔
        c ∈ S.children v ∨ (v = h ∧ c ∈ cs ∧ c ∈ S.ids ∧ c ∉ setAlreadyIncluded)) ∧
      ((∀ v, (S.parents v).Nodup) → ∀ v, (parents v).Nodup) ∧
      ((∀ v, (S.children v).Nodup) → ∀ v, (children v).Nodup) := by
  refine ⟨_, _, foldl_linkChild_eq _ _ _ _, fun v p => ?_, fun v c => ?_,
    nodup_putEach _ _ _ _, fun hn => ?_⟩
  · rw [mem_putEach_true, mem_filter, decide_eq_true_eq]
    tauto
  · by_cases hv : v = h
    · subst hv
      rw [update_self, mem_foldl_put, mem_filter, decide_eq_true_eq]
      tauto
    · rw [update_of_ne hv]
      tauto
  · exact nodup_update hn h (nodup_foldl_put _ _ (hn h))

def namedChildren (S : MemPool) (h : Uint256) : List Uint256 :=
  (S.mapNextTx.filter (·.1.hash = h)).map (·.2)

lemma linkChildren_linked {S : MemPool} (hS : Linked S) (setAlreadyIncluded : List Uint256)
    (h : Uint256) (hh : h ∈ S.ids) : Linked (linkChildren setAlreadyIncluded S h) := by
  obtain ⟨parents, children, heq, hparents, hchildren, hpn, hcn⟩ :=
    foldl_linkChild setAlreadyIncluded h S (namedChildren S h)
  rw [show linkChildren setAlreadyIncluded S h = _ from heq]
  refine ⟨hS.ids_nodup, hpn hS.parents_nodup, hcn hS.children_nodup, fun c p hp => ?_,
    fun c p => ?_⟩
  · rcases (hparents c p).mp hp with hp | ⟨rfl, -, hc, -⟩
    · exact hS.within c p hp
    · exact ⟨hc, hh⟩
  · dsimp only
    rw [hparents, hchildren, hS.symm]

def countedDescendants (setExclude : List Uint256) (x : MemPool × CacheMap) (h : Uint256) :
    List Uint256 :=
  (walkCached x.1.children x.2 x.1.ids.length (x.1.children h) []).filter (· ∉ setExclude)

lemma nodup_countedDescendants (x : MemPool × CacheMap) (h : Uint256) :
    (countedDescendants setExclude x h).Nodup :=
  (nodup_walkCached _ nodup_nil).filter _

lemma updateForDescendants_shift (x : MemPool × CacheMap) (h : Uint256) :
    ∃ entry, (updateForDescendants setExclude x h).1 = { x.1 with entry := entry } ∧
      ∀ v, Shift (x.1.entry v) (entry v)
        (if v ∈ countedDescendants setExclude x h then ancestorWeight (x.1.entry h) else 0)
        (if v = h then ((countedDescendants setExclude x h).map fun c =>
          descendantWeight (x.1.entry c)).sum else 0) := by
  have hall := modifyAll_eq x.1 _ (updateAncestorState (x.1.entry h).nTxSize
    (x.1.entry h).getModifiedFee 1 (x.1.entry h).sigOpCost)
      (nodup_countedDescendants setExclude x h)
  refine ⟨(updateForDescendants setExclude x h).1.entry, ?_, fun v => ?_⟩
  · unfold updateForDescendants
    dsimp only
    rw [show (walkCached x.1.children x.2 x.1.ids.length (x.1.children h) []).filter
      (· ∉ setExclude) = countedDescendants setExclude x h from rfl, hall]
    rfl
  · unfold updateForDescendants
    dsimp only
    rw [show (walkCached x.1.children x.2 x.1.ids.length (x.1.children h) []).filter
      (· ∉ setExclude) = countedDescendants setExclude x h from rfl, hall]
    unfold MemPool.modify
    dsimp only
    have hfirst := fun v => shift_ancestor_if (v ∈ countedDescendants setExclude x h)
      (x.1.entry h).nTxSize (x.1.entry h).getModifiedFee 1 (x.1.entry h).sigOpCost (x.1.entry v)
    by_cases hv : v = h
    · subst hv
      rw [update_self, if_pos rfl, sum_descendantWeight]
      have hboth := (hfirst v).trans (shift_updateDescendantState
        ((countedDescendants setExclude x v).map fun c => (x.1.entry c).nTxSize).sum
        ((countedDescendants setExclude x v).map fun c => (x.1.entry c).getModifiedFee).sum
        (BitVec.ofNat 64 (countedDescendants setExclude x v).length) _)
      rw [add_zero, zero_add] at hboth
      exact hboth
    · rw [update_of_ne hv, if_neg hv]
      exact hfirst v

lemma prioritiseTransaction_shift (S : MemPool) (hash : Uint256) (nFeeDelta : Word)
    (hmem : hash ∈ S.ids) : ∃ entry, S.prioritiseTransaction hash nFeeDelta = { S with
        entry := entry
        mapDeltas := update S.mapDeltas hash (some ((S.mapDeltas hash).getD 0 + nFeeDelta)) } ∧
      ∀ v, Shift (update S.entry hash
          (updateFeeDelta ((S.mapDeltas hash).getD 0 + nFeeDelta) (S.entry hash)) v) (entry v)
        (if v ∈ belowRemoved S hash then (0, nFeeDelta, 0, 0) else 0)
        (if v ∈ S.calculateMemPoolAncestors (S.parents hash) then (0, nFeeDelta, 0) else 0) := by
  unfold prioritiseTransaction
  dsimp only
  rw [if_pos hmem]
  unfold MemPool.modify
  dsimp only
  rw [modifyAll_eq _ _ _ (nodup_ancestors _ _),
    modifyAll_eq _ _ _ ((nodup_descendants _ _).erase hash)]
  refine ⟨_, rfl, fun v => ?_⟩
  dsimp only
  have hfirst := shift_descendant_if (v ∈ S.calculateMemPoolAncestors (S.parents hash))
    0 nFeeDelta 0 (update S.entry hash
      (updateFeeDelta ((S.mapDeltas hash).getD 0 + nFeeDelta) (S.entry hash)) v)
  have hsecond := shift_ancestor_if (v ∈ belowRemoved S hash) 0 nFeeDelta 0 0
  have hboth := hfirst.trans (hsecond _)
  rw [zero_add, add_zero] at hboth
  exact hboth

end PoolLinks
