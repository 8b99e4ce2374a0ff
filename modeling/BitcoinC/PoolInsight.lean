import BitcoinC.AddressIndex
import BitcoinC.PoolKeyImages
import BitcoinC.RecordedTables

/-!
# The mempool's insight indexes

With the address and spent indexes enabled the mempool keeps a map of address
deltas and a map of spent outputs.
-/

namespace PoolInsight

open Primitives Encoding Environment Verdicts TxVerify CheckInputs TxMempool TxMempool.MemPool
  AddressIndex PoolLinks PoolAcceptance PoolRemovals PoolKeyImages RecordedTables List Function

structure CMempoolAddressDeltaKey where
  type : AddressIndexType
  addressBytes : Uint256
  txhash : Uint256
  index : Nat
  spending : Bool
  deriving DecidableEq

structure CMempoolAddressDelta where
  time : Int
  amount : Int
  prevhash : Uint256
  prevout : UInt32
  deriving DecidableEq

variable (tx : CTransaction) (fEnableReplacement : Bool)
  {kd : CMempoolAddressDeltaKey × CMempoolAddressDelta} {v : Uint256}

structure CSpentIndexValue where
  txid : Uint256
  inputIndex : Nat
  blockHeight : Int
  satoshis : Int
  addressType : AddressIndexType
  addressHash : Uint256
  deriving DecidableEq

section

variable (coins : CoinMap) (time : Int) (txhash : Uint256)

def inputDelta (x : CTxIn × Nat) : Option (CMempoolAddressDeltaKey × CMempoolAddressDelta) :=
  if x.1.isAnonInput then none
  else (classifiedAt coins x.1.prevout).map fun c =>
    (⟨c.2.1, c.2.2, txhash, x.2, true⟩, ⟨time, -c.1.out.nValue, x.1.prevout.hash, x.1.prevout.n⟩)

def outputDelta (x : CTxOutBase × Nat) : Option (CMempoolAddressDeltaKey × CMempoolAddressDelta) :=
  (classified x.1).map fun c => (⟨c.2.1, c.2.2, txhash, x.2, false⟩, ⟨time, c.1.nValue, 0, 0⟩)

def addressDeltas (tx : CTransaction) : List (CMempoolAddressDeltaKey × CMempoolAddressDelta) :=
  tx.vin.zipIdx.filterMap (inputDelta coins time txhash) ++
    tx.vpout.zipIdx.filterMap (outputDelta time txhash)

def spentValue (o : COutPoint) (j : Nat) : CSpentIndexValue :=
  match coins o with
  | none => ⟨txhash, j, -1, -1, .unknown, 0⟩
  | some coin =>
    match extractIndexInfo coin.out.scriptPubKey with
    | none => ⟨txhash, j, -1, coin.out.nValue, .unknown, 0⟩
    | some info => ⟨txhash, j, -1, coin.out.nValue, info.1, info.2⟩

def spentNote (x : CTxIn × Nat) : Option (COutPoint × CSpentIndexValue) :=
  if x.1.isAnonInput then none else some (x.1.prevout, spentValue coins txhash x.1.prevout x.2)

def spentNotes (tx : CTransaction) : List (COutPoint × CSpentIndexValue) :=
  tx.vin.zipIdx.filterMap (spentNote coins txhash)

end

structure Insight where
  address : Table Uint256 CMempoolAddressDeltaKey CMempoolAddressDelta
  spent : Table Uint256 COutPoint CSpentIndexValue

def Insight.empty : Insight := ⟨.empty, .empty⟩

def removeIndexes (I : Insight) (txhash : Uint256) : Insight :=
  ⟨I.address.remove txhash, I.spent.remove txhash⟩

/-- A call that takes the pool from `S` to `S'` has gone through `removeUnchecked` for every member
that is gone. -/
def removeGone (I : Insight) (S S' : MemPool) : Insight :=
  (S.ids.filter (· ∉ S'.ids)).foldl removeIndexes I

section

variable (E : Env)

def addIndexes (I : Insight) (e : CTxMemPoolEntry) (coins : CoinMap) : Insight :=
  if e.tx.isBitcoinCVersion then
    ⟨I.address.add (E.txHash e.tx) (addressDeltas coins e.nTime (E.txHash e.tx) e.tx),
      I.spent.add (E.txHash e.tx) (spentNotes coins (E.txHash e.tx) e.tx)⟩
  else I

structure Indexed where
  node : Node
  insight : Insight
  seen : Uint256 → CoinMap

def Indexed.start : Indexed := ⟨.start, .empty, fun _ _ => none⟩

/-- The pool after the replaced transactions are gone, after the new one is stored, and after the
size limit. -/
def replacedPool (S : MemPool) (c : Accepted) : MemPool := S.removeStaged c.allConflicting false

def storedPool (S : MemPool) (a : Acceptance) (c : Accepted) : MemPool :=
  (replacedPool S c).addUnchecked (E.txHash a.tx) c.entry c.setAncestors

def limitedPool (S : MemPool) (a : Acceptance) (c : Accepted) : MemPool :=
  if a.bypass_limits then storedPool E S a c else limitMempoolSize (storedPool E S a c) a.limits

def storeIndexes (I : Insight) (S : MemPool) (a : Acceptance) (c : Accepted) : Insight :=
  removeGone (addIndexes E (removeGone I S (replacedPool S c)) c.entry a.coins) (storedPool E S a c)
    (limitedPool E S a c)

def acceptIndexed (x : Indexed) (a : Acceptance) : Insight × (Uint256 → CoinMap) :=
  match checkAcceptance E x.node.pool x.node.cache a with
  | .error _ => (x.insight, x.seen)
  | .ok c =>
    if a.test_accept then (x.insight, x.seen)
    else (storeIndexes E x.insight x.node.pool a c, update x.seen (E.txHash a.tx) a.coins)

def indexedStep (x : Indexed) (call : PoolCall) : Indexed :=
  match call with
  | .accept a => ⟨poolStep E x.node (.accept a), (acceptIndexed E x a).1, (acceptIndexed E x a).2⟩
  | .clear => { x with node := poolStep E x.node .clear }
  | call =>
    { x with
      node := poolStep E x.node call
      insight := removeGone x.insight x.node.pool (poolStep E x.node call).pool }

def indexedRun (calls : List PoolCall) : Indexed := calls.foldl (indexedStep E) .start

end

section

variable (coins : CoinMap) (time : Int) (txhash : Uint256)

lemma inputDelta_key {x : CTxIn × Nat} (h : inputDelta coins time txhash x = some kd) :
    kd.1.txhash = txhash ∧ kd.1.index = x.2 ∧ kd.1.spending = true := by
  unfold inputDelta at h
  split_ifs at h
  obtain ⟨c, -, rfl⟩ := Option.map_eq_some_iff.mp h
  exact ⟨rfl, rfl, rfl⟩

lemma outputDelta_key {x : CTxOutBase × Nat} (h : outputDelta time txhash x = some kd) :
    kd.1.txhash = txhash ∧ kd.1.index = x.2 ∧ kd.1.spending = false := by
  obtain ⟨c, -, rfl⟩ := Option.map_eq_some_iff.mp h
  exact ⟨rfl, rfl, rfl⟩

lemma nodup_filterMap_keys {α K V : Type} (note : α × Nat → Option (K × V)) (position : K → Nat)
    (hposition : ∀ x kv, note x = some kv → position kv.1 = x.2) (xs : List α) (n : Nat) :
    (((xs.zipIdx n).filterMap note).map (·.1)).Nodup := by
  induction xs generalizing n with
  | nil => exact nodup_nil
  | cons a xs ih =>
    rw [zipIdx_cons]
    cases hnote : note (a, n) with
    | none => simpa [filterMap_cons, hnote] using ih (n + 1)
    | some kv =>
      rw [filterMap_cons, hnote, map_cons, nodup_cons]
      refine ⟨fun hin => ?_, ih (n + 1)⟩
      obtain ⟨kv', hkv', heq⟩ := mem_map.mp hin
      obtain ⟨x, hx, hnote'⟩ := mem_filterMap.mp hkv'
      have hlate := le_snd_of_mem_zipIdx hx
      have h1 := hposition _ _ hnote
      have h2 := hposition _ _ hnote'
      rw [heq] at h2
      omega

lemma addressDeltas_nodup : ((addressDeltas coins time txhash tx).map (·.1)).Nodup := by
  rw [addressDeltas, map_append]
  refine List.Nodup.append ?_ ?_ ?_
  · exact nodup_filterMap_keys _ (·.index) (fun _ _ h => (inputDelta_key coins time txhash h).2.1)
      _ 0
  · exact nodup_filterMap_keys _ (·.index) (fun _ _ h => (outputDelta_key time txhash h).2.1) _ 0
  · intro k hin hout
    obtain ⟨kd, hkd, rfl⟩ := mem_map.mp hin
    obtain ⟨x, -, hx⟩ := mem_filterMap.mp hkd
    obtain ⟨kd', hkd', heq⟩ := mem_map.mp hout
    obtain ⟨y, -, hy⟩ := mem_filterMap.mp hkd'
    have hspending := (inputDelta_key coins time txhash hx).2.2
    rw [← heq, (outputDelta_key time txhash hy).2.2] at hspending
    cases hspending

lemma addressDeltas_txhash {k : CMempoolAddressDeltaKey}
    (h : k ∈ (addressDeltas coins time txhash tx).map (·.1)) : k.txhash = txhash := by
  obtain ⟨kd, hkd, rfl⟩ := mem_map.mp h
  rcases mem_append.mp hkd with hin | hout
  · obtain ⟨x, -, hx⟩ := mem_filterMap.mp hin
    exact (inputDelta_key coins time txhash hx).1
  · obtain ⟨x, -, hx⟩ := mem_filterMap.mp hout
    exact (outputDelta_key time txhash hx).1

lemma spentNotes_keys : (spentNotes coins txhash tx).map (·.1) = standardPrevouts tx.vin := by
  have hgeneral : ∀ (vin : List CTxIn) (n : Nat),
      ((vin.zipIdx n).filterMap (spentNote coins txhash)).map (·.1) = standardPrevouts vin := by
    intro vin
    induction vin with
    | nil => exact fun _ => rfl
    | cons txin vin ih =>
      intro n
      by_cases hanon : txin.isAnonInput
      · simpa [zipIdx_cons, filterMap_cons, spentNote, standardPrevouts, hanon] using ih (n + 1)
      · simpa [zipIdx_cons, filterMap_cons, spentNote, standardPrevouts, hanon] using ih (n + 1)
  exact hgeneral tx.vin 0

end

def Indexed.deltas (x : Indexed) (h : Uint256) :
    List (CMempoolAddressDeltaKey × CMempoolAddressDelta) :=
  addressDeltas (x.seen h) (x.node.pool.entry h).nTime h (x.node.pool.entry h).tx

def Indexed.spends (x : Indexed) (h : Uint256) : List (COutPoint × CSpentIndexValue) :=
  spentNotes (x.seen h) h (x.node.pool.entry h).tx

/-- The insight tables hold the records of the pool. -/
structure Tracks (x : Indexed) : Prop where
  address : ∀ k d, x.insight.address.entries k = some d ↔ ∃ h ∈ x.node.pool.ids, (k, d) ∈ x.deltas h
  spent : ∀ o v, x.insight.spent.entries o = some v ↔ ∃ h ∈ x.node.pool.ids, (o, v) ∈ x.spends h

structure PoolRight (E : Env) (S : MemPool) : Prop where
  linked : Linked S
  spenders : Spenders S
  txids : ∀ h ∈ S.ids, E.txHash (S.entry h).tx = h

/-- Both tables hold the notes of the members of `S`, taken with the coins of `seen`. -/
structure InsightOf (I : Insight) (S : MemPool) (seen : Uint256 → CoinMap) : Prop where
  address : Holds I.address (· ∈ S.ids) fun h => addressDeltas (seen h) (S.entry h).nTime h
    (S.entry h).tx
  spent : Holds I.spent (· ∈ S.ids) fun h => spentNotes (seen h) h (S.entry h).tx

section

variable {E : Env} {S S' : MemPool} {I : Insight} {seen : Uint256 → CoinMap}

lemma poolRight_empty : PoolRight E .empty :=
  ⟨linked_empty, spenders_empty, fun _ h => absurd h not_mem_nil⟩

lemma PoolRight.shrinks (h : PoolRight E S) (hs : Shrinks S S') : PoolRight E S' := by
  refine hs.keeps (P := PoolRight E) h (fun T stage updateDescendants hT hmem => ?_)
    fun T hash hT => ?_
  · have hr := removed_removeStaged hT.linked stage updateDescendants
    refine ⟨hr.linked hT.linked, hr.spenders hT.spenders hmem, fun v hv => ?_⟩
    rw [hr.ids] at hv
    rw [(hr.entry v).body.tx]
    exact hT.txids v (mem_filter.mp hv).1
  · exact ⟨hT.linked.congr rfl rfl rfl, ⟨hT.spenders.next, hT.spenders.unique⟩, hT.txids⟩

lemma PoolRight.rearranged (h : PoolRight E S) (hr : Rearranged S S') : PoolRight E S' := by
  refine ⟨hr.linked h.linked, ⟨fun o c => ?_, ?_⟩, fun v hv => ?_⟩
  · rw [hr.mapNextTx, hr.ids, hr.tx]
    exact h.spenders.next o c
  · rw [hr.mapNextTx]
    exact h.spenders.unique
  · rw [hr.tx]
    exact h.txids v (hr.ids ▸ hv)

lemma foldl_removeIndexes (hs : List Uint256) (I : Insight) :
    hs.foldl removeIndexes I = ⟨hs.foldl Table.remove I.address,
      hs.foldl Table.remove I.spent⟩ := by
  induction hs generalizing I with
  | nil => rfl
  | cons h hs ih => rw [foldl_cons, ih]; rfl

lemma InsightOf.removeGone (h : InsightOf I S seen) (hfewer : Fewer S S') :
    InsightOf (removeGone I S S') S' seen := by
  have hpresent : ∀ v, (v ∈ S.ids ∧ v ∉ S.ids.filter (· ∉ S'.ids)) ↔ v ∈ S'.ids := by
    intro v
    simp only [mem_filter, decide_eq_true_eq, not_and, not_not]
    exact ⟨fun hv => hv.2 hv.1, fun hv => ⟨hfewer.ids v hv, fun _ => hv⟩⟩
  unfold PoolInsight.removeGone
  rw [foldl_removeIndexes]
  refine ⟨(h.address.removeAll _).congr hpresent fun v _ => ?_,
    (h.spent.removeAll _).congr hpresent fun v _ => ?_⟩
  · rw [(hfewer.body v).tx, (hfewer.body v).nTime]
  · rw [(hfewer.body v).tx]

lemma InsightOf.rearranged (h : InsightOf I S seen) (hr : Rearranged S S') :
    InsightOf I S' seen := by
  refine ⟨h.address.congr (fun v => by rw [hr.ids]) fun v _ => ?_,
    h.spent.congr (fun v => by rw [hr.ids]) fun v _ => ?_⟩
  · rw [hr.tx, hr.nTime]
  · rw [hr.tx]

lemma PoolRight.keyImages (h : PoolRight E S) (m : CCmpPubKey → Option Uint256) :
    PoolRight E { S with mapKeyImages := m } :=
  ⟨h.linked.congr rfl rfl rfl, ⟨h.spenders.next, h.spenders.unique⟩, h.txids⟩

lemma addKeyImages_frame (txhash : Uint256) (vin : List CTxIn) (S : MemPool) :
    ∃ m, (addKeyImages txhash vin S).1 = { S with mapKeyImages := m } := by
  induction vin generalizing S with
  | nil => exact ⟨S.mapKeyImages, rfl⟩
  | cons txin vin ih =>
    unfold addKeyImages
    split
    · split
      · exact ih { S with mapKeyImages := _ }
      · exact ⟨S.mapKeyImages, rfl⟩
    · exact ih S

lemma storeAccepted_frame (S : MemPool) (a : Acceptance) (c : Accepted) :
    ∃ m, (storeAccepted E S a c).1 = { limitedPool E S a c with mapKeyImages := m } := by
  have heq : storeAccepted E S a c =
      if a.bypass_limits = false ∧ E.txHash a.tx ∉ (limitedPool E S a c).ids then
        (limitedPool E S a c, .error (.dos 0 REJECT_INSUFFICIENTFEE "mempool full"))
      else ((addKeyImages (E.txHash a.tx) a.tx.vin (limitedPool E S a c)).1,
        if (addKeyImages (E.txHash a.tx) a.tx.vin (limitedPool E S a c)).2 then .ok ()
        else .error (.dos 100 REJECT_MALFORMED "bad-anonin-keyimages")) := rfl
  rw [heq]
  split
  · exact ⟨(limitedPool E S a c).mapKeyImages, rfl⟩
  · exact addKeyImages_frame _ _ _

end

/-- What acceptance has checked, as far as the insight tables need it. -/
structure Unspent (E : Env) (S : MemPool) (a : Acceptance) (c : Accepted) : Prop where
  fresh : E.txHash a.tx ∉ S.ids
  tx : c.entry.tx = a.tx
  version : a.tx.isBitcoinCVersion
  inputs : (standardPrevouts a.tx.vin).Nodup
  nodup : c.setAncestors.Nodup
  ancestors : ∀ v ∈ c.setAncestors, v ∈ S.ids
  conflicting : ∀ v ∈ c.allConflicting, v ∈ S.ids
  conflicts : ∀ o ∈ standardPrevouts a.tx.vin, ∀ h, (o, h) ∈ S.mapNextTx → h ∈ c.allConflicting

section

variable {E : Env} {S : MemPool}

lemma nextTx_of_mem (h : Spenders S) {o : COutPoint} (hmem : (o, v) ∈ S.mapNextTx) :
    S.nextTx o = some v := by
  cases hfind : S.mapNextTx.find? (·.1 = o) with
  | none => exact absurd (decide_eq_true rfl) (find?_eq_none.mp hfind _ hmem)
  | some y =>
    have hkey : y.1 = o := by simpa using find?_some hfind
    have hy : (o, y.2) ∈ S.mapNextTx := hkey ▸ mem_of_find?_eq_some hfind
    rw [MemPool.nextTx, hfind, Option.map_some, h.unique o y.2 v hy hmem]

lemma findConflict_ok (s t : List Uint256) (o : COutPoint)
    (h : findConflict S fEnableReplacement s o = .ok t) :
    (∀ v ∈ s, v ∈ t) ∧ ∀ v, S.nextTx o = some v → v ∈ t := by
  unfold findConflict at h
  split at h
  · rename_i hnone
    obtain rfl := Except.ok.inj h
    exact ⟨fun _ hv => hv, fun v hv => by rw [hnone] at hv; cases hv⟩
  · rename_i w hw
    split_ifs at h with hin hreplace
    · obtain rfl := Except.ok.inj h
      exact ⟨fun _ hv => hv, fun v hv => Option.some.inj (hw.symm.trans hv) ▸ hin⟩
    · obtain rfl := Except.ok.inj h
      refine ⟨fun v hv => mem_append_left _ hv, fun v hv => mem_append_right _ ?_⟩
      rw [Option.some.inj (hw.symm.trans hv)]
      exact mem_singleton_self v

lemma findConflicts_ok (os : List COutPoint) (s t : List Uint256)
    (h : loop (findConflict S fEnableReplacement) s os = .ok t) :
    (∀ v ∈ s, v ∈ t) ∧ ∀ o ∈ os, ∀ v, S.nextTx o = some v → v ∈ t := by
  induction os generalizing s with
  | nil =>
    rw [loop_nil] at h
    obtain rfl := Except.ok.inj h
    exact ⟨fun _ hv => hv, fun _ ho => absurd ho not_mem_nil⟩
  | cons o os ih =>
    obtain ⟨m, hm, hrest⟩ := (loop_cons_ok_iff _ s t o os).mp h
    obtain ⟨hkeep, hnext⟩ := findConflict_ok fEnableReplacement s m o hm
    obtain ⟨hkeep', hnext'⟩ := ih m hrest
    refine ⟨fun v hv => hkeep' v (hkeep v hv), fun o' ho' v hv => ?_⟩
    rcases mem_cons.mp ho' with rfl | ho'
    · exact hkeep' v (hnext v hv)
    · exact hnext' o' ho' v hv

lemma mem_replaced (hS : Linked S) (a : Acceptance) (setConflicts vs : List Uint256)
    (h : replaced S a setConflicts = .ok vs) (hv : v ∈ setConflicts) (hin : v ∈ S.ids) :
    v ∈ vs := by
  unfold replaced at h
  rw [if_neg (ne_nil_of_mem hv)] at h
  simp only [bind_ok_iff, pure_ok_iff] at h
  obtain ⟨-, -, -, -, -, -, rfl⟩ := h
  refine (hS.mem_allDescendants _ (fun w hw => of_decide_eq_true (mem_filter.mp hw).2) v).mpr ?_
  exact ⟨v, mem_filter.mpr ⟨hv, decide_eq_true hin⟩, .refl⟩

lemma checkAcceptance_unspent (hS : PoolRight E S) (cache : ScriptCache) (a : Acceptance)
    (c : Accepted) (h : checkAcceptance E S cache a = .ok c) : Unspent E S a c := by
  unfold checkAcceptance at h
  simp only [bind_ok_iff, pure_ok_iff, rejectIf_ok_iff] at h
  obtain ⟨u, hcheck, -, -, -, -, -, -, -, hfresh, conflicts, hconflicts, -, -, r, -, -, -, -,
    -, -, -, -, -, -, -, vs, hvs, inserted, -, rfl⟩ := h
  obtain ⟨-, -, hversion, -, hdup⟩ := checkTransaction_ok _ _ _ _ _ hcheck
  have hparents : ∀ p ∈ S.searchParents a.tx, p ∈ S.ids :=
    fun p hp => ((mem_searchParents S a.tx p).mp hp).1
  refine ⟨hfresh, rfl, hversion, hdup rfl, nodup_ancestors S _, fun v hv => ?_,
    replaced_mem hS.linked a _ _ hvs, fun o ho v hv => ?_⟩
  · obtain ⟨p, hp, hpv⟩ :=
      (hS.linked.mem_ancestors _ (nodup_searchParents S a.tx) hparents v).mp hv
    rcases Relation.ReflTransGen.cases_tail hpv with rfl | ⟨w, -, hw⟩
    · exact hparents _ hp
    · exact (hS.linked.within w v hw).2
  · have hin := ((hS.spenders.next o v).mp hv).1
    exact mem_replaced hS.linked a conflicts vs hvs
      ((findConflicts_ok _ _ _ _ hconflicts).2 o ho v (nextTx_of_mem hS.spenders hv)) hin

variable {I : Insight} {seen : Uint256 → CoinMap} {a : Acceptance} {c : Accepted}

lemma Unspent.free (hc : Unspent E S a c) (hS : PoolRight E S) :
    ∀ o ∈ standardPrevouts a.tx.vin, ∀ h, (o, h) ∉ (replacedPool S c).mapNextTx := by
  intro o ho h hin
  have hr := removed_removeStaged hS.linked c.allConflicting false
  obtain ⟨hold, hnot⟩ := (hr.mapNextTx (o, h)).mp hin
  exact hnot h (hc.conflicts o ho h hold) ((hS.spenders.next o h).mp hold).2

lemma Unspent.shrinks (hc : Unspent E S a c) : Shrinks S (replacedPool S c) :=
  (Shrinks.refl S).staged _ _ hc.conflicting

lemma Unspent.fresh_replaced (hc : Unspent E S a c) (hS : PoolRight E S) :
    E.txHash a.tx ∉ (replacedPool S c).ids :=
  fun hin => hc.fresh ((hc.shrinks.fewer hS.linked).ids _ hin)

lemma Unspent.added (hc : Unspent E S a c) (hS : PoolRight E S) :
    Added (replacedPool S c) (E.txHash a.tx) c.entry c.setAncestors (storedPool E S a c) :=
  added_addUnchecked _ _ c.entry c.setAncestors (hc.fresh_replaced hS) hc.nodup

lemma withDelta_nTime (S : MemPool) (hash : Uint256) (e : CTxMemPoolEntry) :
    (withDelta S hash e).nTime = e.nTime := by
  unfold withDelta
  split
  · split
    · rfl
    · rfl
  · rfl

lemma Unspent.new_nTime (hc : Unspent E S a c) (hS : PoolRight E S) :
    ((storedPool E S a c).entry (E.txHash a.tx)).nTime = c.entry.nTime := by
  have hnew := (hc.added hS).new fun hin => hc.fresh (hc.ancestors _ hin)
  rw [hnew.body.nTime, withDelta_nTime]

lemma PoolRight.stored (hS : PoolRight E S) (hc : Unspent E S a c) :
    PoolRight E (storedPool E S a c) := by
  have h₁ := hS.shrinks hc.shrinks
  have hadd := hc.added hS
  have hfresh := hc.fresh_replaced hS
  refine ⟨hadd.linked h₁.linked hfresh, hadd.spenders h₁.spenders hfresh ?_, fun v hv => ?_⟩
  · rw [hc.tx]
    exact hc.free hS
  · rw [hadd.ids] at hv
    rcases mem_cons.mp hv with rfl | hv
    · rw [hadd.new_tx, hc.tx]
    · rw [(hadd.old v fun heq => hfresh (heq ▸ hv)).body.tx]
      exact h₁.txids v hv

lemma shrinks_limitedPool (hS : PoolRight E S) (hc : Unspent E S a c) :
    Shrinks (storedPool E S a c) (limitedPool E S a c) := by
  unfold limitedPool
  split
  · exact .refl _
  · exact shrinks_limitMempoolSize (hS.stored hc).linked a.limits

lemma InsightOf.stored (h : InsightOf I (replacedPool S c) seen) (hS : PoolRight E S)
    (hc : Unspent E S a c) : InsightOf (addIndexes E I c.entry a.coins) (storedPool E S a c)
      (update seen (E.txHash a.tx) a.coins) := by
  have hadd := hc.added hS
  have hfresh := hc.fresh_replaced hS
  have h₁ := hS.shrinks hc.shrinks
  have hne : ∀ v ∈ (replacedPool S c).ids, v ≠ E.txHash a.tx := fun v hv heq => hfresh (heq ▸ hv)
  have hpresent : ∀ v, (v = E.txHash a.tx ∨ v ∈ (replacedPool S c).ids) ↔
      v ∈ (storedPool E S a c).ids := by
    intro v
    rw [hadd.ids, mem_cons]
  have haddress : Holds I.address (· ∈ (replacedPool S c).ids) fun v =>
      addressDeltas (update seen (E.txHash a.tx) a.coins v)
        ((storedPool E S a c).entry v).nTime v ((storedPool E S a c).entry v).tx := by
    refine h.address.congr (fun _ => Iff.rfl) fun v hv => ?_
    rw [update_of_ne (hne v hv), (hadd.old v (hne v hv)).body.tx,
      (hadd.old v (hne v hv)).body.nTime]
  have hspent : Holds I.spent (· ∈ (replacedPool S c).ids) fun v =>
      spentNotes (update seen (E.txHash a.tx) a.coins v) v ((storedPool E S a c).entry v).tx := by
    refine h.spent.congr (fun _ => Iff.rfl) fun v hv => ?_
    rw [update_of_ne (hne v hv), (hadd.old v (hne v hv)).body.tx]
  have haddress' := (haddress.add hfresh (addressDeltas_nodup _ _ _ _) ?_).congr hpresent fun _ _ =>
    rfl
  have hspent' := (hspent.add hfresh ?_ ?_).congr hpresent fun _ _ => rfl
  · rw [addIndexes, if_pos (hc.tx ▸ hc.version), hc.tx]
    rw [update_self, hc.new_nTime hS, hadd.new_tx, hc.tx] at haddress'
    rw [update_self, hadd.new_tx, hc.tx] at hspent'
    exact ⟨haddress', hspent'⟩
  · rw [spentNotes_keys, hadd.new_tx, hc.tx]
    exact hc.inputs
  · intro v hv o ho hov
    rw [spentNotes_keys, hadd.new_tx, hc.tx] at ho
    rw [spentNotes_keys, (hadd.old v (hne v hv)).body.tx] at hov
    exact hc.free hS o ho v ((h₁.spenders.next o v).mpr ⟨hv, hov⟩)
  · intro v hv k hk hkv
    exact hne v hv ((addressDeltas_txhash _ _ _ _ hkv).symm.trans (addressDeltas_txhash _ _ _ _ hk))

lemma InsightOf.storeIndexes (h : InsightOf I S seen) (hS : PoolRight E S) (hc : Unspent E S a c) :
    InsightOf (storeIndexes E I S a c) (limitedPool E S a c)
      (update seen (E.txHash a.tx) a.coins) := by
  have h₁ := h.removeGone (hc.shrinks.fewer hS.linked)
  have h₂ := h₁.stored hS hc
  exact h₂.removeGone ((shrinks_limitedPool hS hc).fewer (hS.stored hc).linked)

end

structure Tracked (E : Env) (x : Indexed) : Prop where
  right : PoolRight E x.node.pool
  insight : InsightOf x.insight x.node.pool x.seen

section

variable {E : Env} {x : Indexed}

lemma tracked_start : Tracked E .start := by
  refine ⟨poolRight_empty, ?_, ?_⟩
  · exact (holds_empty _).congr (fun v => (iff_false_intro not_mem_nil).symm) fun _ _ => rfl
  · exact (holds_empty _).congr (fun v => (iff_false_intro not_mem_nil).symm) fun _ _ => rfl

lemma Tracked.accept (h : Tracked E x) (a : Acceptance) :
    Tracked E (indexedStep E x (.accept a)) := by
  unfold indexedStep acceptIndexed poolStep acceptToMemoryPool
  dsimp only
  cases hc : checkAcceptance E x.node.pool x.node.cache a with
  | error r => exact h
  | ok c =>
    have hun := checkAcceptance_unspent h.right _ a c hc
    dsimp only
    split
    · exact ⟨h.right, h.insight⟩
    · obtain ⟨m, hm⟩ := storeAccepted_frame (E := E) x.node.pool a c
      have hright := ((h.right.stored hun).shrinks (shrinks_limitedPool h.right hun)).keyImages m
      have hinsight := h.insight.storeIndexes h.right hun
      refine ⟨hm ▸ hright, ?_⟩
      dsimp only
      rw [hm]
      exact ⟨hinsight.address, hinsight.spent⟩

lemma Tracked.frame (h : Tracked E x) (call : PoolCall) (haccept : ∀ a, call ≠ .accept a)
    (hclear : call ≠ .clear) : Tracked E (indexedStep E x call) := by
  have heq : indexedStep E x call = { x with
      node := poolStep E x.node call
      insight := removeGone x.insight x.node.pool (poolStep E x.node call).pool } := by
    cases call with
    | accept a => exact absurd rfl (haccept a)
    | clear => exact absurd rfl hclear
    | _ => rfl
  rw [heq]
  rcases poolStep_frame h.right.linked call haccept hclear with hs | hr
  · exact ⟨h.right.shrinks hs, h.insight.removeGone (hs.fewer h.right.linked)⟩
  · -- nothing is gone
    refine ⟨h.right.rearranged hr, ?_⟩
    have hnone : removeGone x.insight x.node.pool (poolStep E x.node call).pool = x.insight := by
      unfold removeGone
      rw [hr.ids, filter_eq_nil_iff.mpr fun v hv => by simpa using hv]
      rfl
    dsimp only
    rw [hnone]
    exact h.insight.rearranged hr

lemma Tracked.clear (h : Tracked E x) (hempty : x.node.pool.ids = []) :
    Tracked E (indexedStep E x .clear) := by
  have hgone : ∀ v, v ∈ x.node.pool.ids ↔ v ∈ (PoolAcceptance.clear x.node.pool).ids := by
    intro v
    rw [hempty]
    exact Iff.rfl
  refine ⟨⟨linked_clear _, ⟨fun o c => ?_, fun o c c' hc => absurd hc not_mem_nil⟩,
    fun v hv => absurd hv not_mem_nil⟩,
    h.insight.address.congr hgone fun _ _ => rfl, h.insight.spent.congr hgone fun _ _ => rfl⟩
  exact ⟨fun hc => absurd hc not_mem_nil, fun hc => absurd hc.1 not_mem_nil⟩

lemma Tracked.step (h : Tracked E x) (call : PoolCall)
    (hempty : call = .clear → x.node.pool.ids = []) : Tracked E (indexedStep E x call) := by
  cases call with
  | accept a => exact h.accept a
  | clear => exact h.clear (hempty rfl)
  | _ => exact h.frame _ (fun _ => nofun) nofun

variable (E) in
def EmptyClears : Indexed → List PoolCall → Prop
  | _, [] => True
  | x, call :: calls =>
    (call = .clear → x.node.pool.ids = []) ∧ EmptyClears (indexedStep E x call) calls

/-- A run keeps the insight tables in step with the pool. -/
lemma Tracked.run (calls : List PoolCall) (h : Tracked E x) (hempty : EmptyClears E x calls) :
    Tracked E (calls.foldl (indexedStep E) x) := by
  induction calls generalizing x with
  | nil => exact h
  | cons call calls ih => exact ih (h.step call hempty.1) hempty.2

lemma Tracked.tracks (h : Tracked E x) : Tracks x :=
  ⟨h.insight.address.entries, h.insight.spent.entries⟩

lemma Tracked.tracks_clear_iff (h : Tracked E x) :
    Tracks (indexedStep E x .clear) ↔ ∀ v ∈ x.node.pool.ids, x.deltas v = [] ∧ x.spends v = [] := by
  have haddress := h.insight.address.entries_forgotten_iff
  have hspent := h.insight.spent.entries_forgotten_iff
  have hnone : ∀ P : Uint256 → Prop, (∃ v ∈ (PoolAcceptance.clear x.node.pool).ids, P v) ↔ False :=
    fun P => iff_false_intro fun ⟨v, hv, _⟩ => not_mem_nil hv
  constructor
  · intro hclear v hv
    exact ⟨haddress.mp (fun k d => (hclear.address k d).trans (hnone _)) v hv,
      hspent.mp (fun o w => (hclear.spent o w).trans (hnone _)) v hv⟩
  · intro hquiet
    exact ⟨fun k d => (haddress.mpr (fun v hv => (hquiet v hv).1) k d).trans (hnone _).symm,
      fun o w => (hspent.mpr (fun v hv => (hquiet v hv).2) o w).trans (hnone _).symm⟩

end

/-- Over any calls that clear only an empty pool, the two maps hold exactly the entries of the
transactions in the pool. Clearing the pool then keeps that exactly when no member has an entry. -/
theorem insight_follows_pool (E : Env) (calls : List PoolCall)
    (hempty : EmptyClears E .start calls) : Tracks (indexedRun E calls) ∧
      (Tracks (indexedStep E (indexedRun E calls) .clear) ↔
        ∀ h ∈ (indexedRun E calls).node.pool.ids,
          (indexedRun E calls).deltas h = [] ∧ (indexedRun E calls).spends h = []) := by
  have h : Tracked E (indexedRun E calls) := tracked_start.run calls hempty
  exact ⟨h.tracks, h.tracks_clear_iff⟩

section Example

open ToyEnvironment ChainRun

def genesisChain : ChainState :=
  ((loop (connectTip chainEnv) .empty [genesisStep]).toOption).getD .empty

def convertAcceptance : Acceptance :=
  { ringAcceptance with
    tx := convertTx
    db := genesisChain.db
    coins := genesisChain.coins
    nSpendHeight := 1
    nTipHeight := 0 }

def convertKey : CMempoolAddressDeltaKey where
  type := .pubkeyAddress
  addressBytes := hashAt (p2pkh (hash160 (keyBytes 3))) 3 23
  txhash := poolEnv.txHash convertTx
  index := 0
  spending := true

/-- The conversion is the only member, and the maps hold its two entries. -/
theorem insight_follows_conversion :
    (indexedRun poolEnv [.clear, .accept convertAcceptance]).node.pool.ids =
      [poolEnv.txHash convertTx] ∧
      ((indexedRun poolEnv [.clear, .accept convertAcceptance]).deltas
        (poolEnv.txHash convertTx)).map (·.1) = [convertKey] ∧
      Tracks (indexedRun poolEnv [.clear, .accept convertAcceptance]) := by
  refine ⟨by decide +kernel, by decide +kernel, (insight_follows_pool poolEnv _ ?_).1⟩
  exact ⟨fun _ => rfl, nofun, trivial⟩

/-- Clearing the pool keeps both entries, which are then those of no member. -/
theorem clear_keeps_insight : let x := indexedRun poolEnv [.accept convertAcceptance, .clear]
    x.node.pool.ids = [] ∧
      x.insight.address.entries convertKey = some ⟨1000, -1000, genesisHash, 1⟩ ∧
      x.insight.spent.entries ⟨genesisHash, 1⟩ =
        some ⟨poolEnv.txHash convertTx, 0, -1, 1000, .pubkeyAddress, convertKey.addressBytes⟩ := by
  decide +kernel

end Example

end PoolInsight
