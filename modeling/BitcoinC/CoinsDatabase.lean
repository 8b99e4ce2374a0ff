import BitcoinC.CoinsCache
import BitcoinC.RedoLog

/-!
# The coin database

`CCoinsViewDB::BatchWrite` of `txdb.cpp`. A flush is a list of batches, each
written as a whole.
-/

namespace CoinsDatabase

open Primitives Environment Verdicts TxVerify KeyedStore CoinsCache RedoLog

@[ext]
structure CCoinsViewDB where
  coins : CoinMap
  bestBlock : Option Uint256
  headBlocks : Option (List Uint256)

def getBestBlock (db : CCoinsViewDB) : Uint256 := db.bestBlock.getD 0

def getHeadBlocks (db : CCoinsViewDB) : List Uint256 := db.headBlocks.getD []

/-- An entry of a batch; no value is an erasure. -/
inductive DbWrite
  | coin (outpoint : COutPoint) (value : Option Coin)
  | bestBlock (value : Option Uint256)
  | headBlocks (value : Option (List Uint256))

abbrev CDBBatch := List DbWrite

def applyWrite (db : CCoinsViewDB) : DbWrite → CCoinsViewDB
  | .coin outpoint value => { db with coins := Function.update db.coins outpoint value }
  | .bestBlock value => { db with bestBlock := value }
  | .headBlocks value => { db with headBlocks := value }

def writeBatch (db : CCoinsViewDB) (batch : CDBBatch) : CCoinsViewDB := batch.foldl applyWrite db

def afterBatches (db : CCoinsViewDB) (batches : List CDBBatch) : CCoinsViewDB :=
  batches.foldl writeBatch db

abbrev CacheEntry := Sigma fun _ : COutPoint => CCoinsCacheEntry

def entryLog (it : CacheEntry) : List (COutPoint × Option Coin) :=
  if it.2.dirty then [(it.1, unspent it.2.coin)] else []

def coinWrites (log : List (COutPoint × Option Coin)) : CDBBatch :=
  log.map fun w => .coin w.1 w.2

/-- The loop over the cache: the partial batches, and what is left in the last one. `full` says that
the size estimate of a batch is above the limit. -/
def collect (full : CDBBatch → Bool) : CDBBatch → List CacheEntry → List CDBBatch × CDBBatch
  | batch, [] => ([], batch)
  | batch, it :: its =>
    let batch' := batch ++ coinWrites (entryLog it)
    if full batch' then
      let r := collect full [] its
      (batch' :: r.1, r.2)
    else collect full batch' its

def oldTip (db : CCoinsViewDB) (hashBlock : Uint256) : Verdict Uint256 :=
  if getBestBlock db = 0 then
    match getHeadBlocks db with
    | [head, tip] => do
      -- in the middle of replaying
      rejectIf (head ≠ hashBlock) (.throws "BatchWrite: old_heads")
      pure tip
    | _ => .ok 0
  else .ok (getBestBlock db)

def batchWrite (full : CDBBatch → Bool) (db : CCoinsViewDB) (mapCoins : CCoinsMap)
    (hashBlock : Uint256) : Verdict (List CDBBatch) := do
  rejectIf (hashBlock = 0) (.throws "BatchWrite: hashBlock")
  let tip ← oldTip db hashBlock
  let r := collect full [.bestBlock none, .headBlocks (some [hashBlock, tip])] mapCoins.entries
  pure (r.1 ++ [r.2 ++ [.headBlocks none, .bestBlock (some hashBlock)]])

def cacheLog (its : List CacheEntry) : List (COutPoint × Option Coin) := its.flatMap entryLog

lemma redo_entryLog (coins : CoinMap) (it : CacheEntry) :
    redo coins (entryLog it) = backingEntry coins it := by
  unfold entryLog backingEntry unspent
  by_cases hdirty : it.2.dirty = true
  · by_cases hspent : isSpent it.2.coin = true
    · simp [hdirty, hspent, update_none]
    · simp [hdirty, hspent, update_some]
  · simp [hdirty]

lemma redo_cacheLog (its : List CacheEntry) (coins : CoinMap) :
    redo coins (cacheLog its) = its.foldl backingEntry coins := by
  induction its generalizing coins with
  | nil => rfl
  | cons it its ih =>
    rw [cacheLog, List.flatMap_cons, redo_append, redo_entryLog]
    exact ih _

lemma keys_entryLog (it : CacheEntry) : (keys (entryLog it)).Sublist [it.1] := by
  unfold entryLog
  split
  · exact List.Sublist.refl _
  · exact List.nil_sublist _

lemma keys_cacheLog_nodup (mapCoins : CCoinsMap) : (keys (cacheLog mapCoins.entries)).Nodup := by
  have hsub : ∀ its : List CacheEntry, (keys (cacheLog its)).Sublist (List.keys its) := by
    intro its
    induction its with
    | nil => exact List.Sublist.refl _
    | cons it its ih =>
      rw [keys, cacheLog, List.flatMap_cons, List.map_append, List.keys_cons]
      exact (keys_entryLog it).append ih
  exact List.Nodup.sublist (hsub _) mapCoins.nodupKeys

lemma afterBatches_eq (db : CCoinsViewDB) (batches : List CDBBatch) :
    afterBatches db batches = writeBatch db batches.flatten := by
  unfold afterBatches writeBatch
  rw [List.foldl_flatten]

lemma writeBatch_append (db : CCoinsViewDB) (batch batch' : CDBBatch) :
    writeBatch db (batch ++ batch') = writeBatch (writeBatch db batch) batch' := List.foldl_append

lemma writeBatch_coins (log : List (COutPoint × Option Coin)) (db : CCoinsViewDB) :
    writeBatch db (coinWrites log) = { db with coins := redo db.coins log } := by
  induction log generalizing db with
  | nil => rfl
  | cons w log ih => exact ih _

lemma collect_flatten (full : CDBBatch → Bool) (its : List CacheEntry) (batch : CDBBatch) :
    (collect full batch its).1.flatten ++ (collect full batch its).2 =
      batch ++ coinWrites (cacheLog its) := by
  induction its generalizing batch with
  | nil => rw [collect, List.flatten_nil, cacheLog, List.flatMap_nil, coinWrites, List.map_nil,
      List.nil_append, List.append_nil]
  | cons it its ih =>
    have hlog : coinWrites (cacheLog (it :: its)) =
        coinWrites (entryLog it) ++ coinWrites (cacheLog its) := by
      rw [cacheLog, List.flatMap_cons, coinWrites, List.map_append]
      rfl
    rw [hlog, ← List.append_assoc, collect]
    dsimp only
    split
    · rw [List.flatten_cons, List.append_assoc, ih, List.nil_append]
    · exact ih _

lemma collect_take (full : CDBBatch → Bool) (its : List CacheEntry) (batch : CDBBatch) (n : Nat)
    (hn : n < (collect full batch its).1.length) :
    ∃ more, ((collect full batch its).1.take (n + 1)).flatten = batch ++ more := by
  induction its generalizing batch with
  | nil => cases hn
  | cons it its ih =>
    rw [collect] at hn ⊢
    dsimp only at hn ⊢
    split at hn
    · rename_i hfull
      rw [if_pos hfull, List.take_succ_cons, List.flatten_cons, List.append_assoc]
      exact ⟨_, rfl⟩
    · rename_i hfull
      rw [if_neg hfull]
      obtain ⟨more, hmore⟩ := ih _ hn
      exact ⟨coinWrites (entryLog it) ++ more, by rw [hmore, List.append_assoc]⟩

lemma collect_part (full : CDBBatch → Bool) (its : List CacheEntry) (batch : CDBBatch) (n : Nat)
    (hn : n < (collect full batch its).1.length) : ∃ first rest, cacheLog its = first ++ rest ∧
      ((collect full batch its).1.take (n + 1)).flatten = batch ++ coinWrites first := by
  obtain ⟨more, hmore⟩ := collect_take full its batch n hn
  have hflat := collect_flatten full its batch
  rw [← List.take_append_drop (n + 1) (collect full batch its).1, List.flatten_append, hmore,
    List.append_assoc, List.append_assoc, List.append_cancel_left_eq, coinWrites, eq_comm,
    List.map_eq_append_iff] at hflat
  obtain ⟨first, rest, hlog, hfirst, -⟩ := hflat
  exact ⟨first, rest, hlog, by rw [hmore, ← hfirst]; rfl⟩

/-- A database at rest: no transition is recorded. A null hash stands for a new database. -/
def settled (coins : CoinMap) (hash : Uint256) : CCoinsViewDB :=
  ⟨coins, if hash = 0 then none else some hash, none⟩

lemma getBestBlock_settled (coins : CoinMap) (hash : Uint256) :
    getBestBlock (settled coins hash) = hash := by
  unfold getBestBlock settled
  by_cases h : hash = 0
  · rw [if_pos h, h]
    rfl
  · rw [if_neg h]
    rfl

lemma oldTip_settled (coins : CoinMap) (hash hashBlock : Uint256) :
    oldTip (settled coins hash) hashBlock = .ok hash := by
  unfold oldTip
  rw [getBestBlock_settled]
  by_cases h : hash = 0
  · rw [if_pos h, h]
    rfl
  · rw [if_neg h]

section

variable {full : CDBBatch → Bool} {coins : CoinMap} {hashOld hashNew : Uint256}
  {mapCoins : CCoinsMap} {batches : List CDBBatch}
  (h : batchWrite full (settled coins hashOld) mapCoins hashNew = .ok batches)

include h

lemma batchWrite_eq : hashNew ≠ 0 ∧
      ∃ r, r = collect full [.bestBlock none, .headBlocks (some [hashNew, hashOld])]
          mapCoins.entries ∧
        batches = r.1 ++ [r.2 ++ [.headBlocks none, .bestBlock (some hashNew)]] := by
  rw [batchWrite, rejectIf_bind_ok_iff, oldTip_settled, ok_bind, pure_ok_iff] at h
  exact ⟨h.1, _, rfl, h.2.symm⟩

/-- A crash leaves a first part of the writes and both head blocks. -/
lemma afterBatches_interrupted (n : Nat) (hpos : 0 < n) (hn : n < batches.length) :
    ∃ first rest, cacheLog mapCoins.entries = first ++ rest ∧
      afterBatches (settled coins hashOld) (batches.take n) =
        ⟨redo coins first, none, some [hashNew, hashOld]⟩ := by
  obtain ⟨-, r, hr, rfl⟩ := batchWrite_eq h
  obtain ⟨m, rfl⟩ : ∃ m, n = m + 1 := ⟨n - 1, by omega⟩
  rw [List.length_append, List.length_singleton] at hn
  have hm : m < r.1.length := by omega
  rw [hr] at hm
  obtain ⟨first, rest, hlog, hflat⟩ := collect_part full mapCoins.entries _ m hm
  refine ⟨first, rest, hlog, ?_⟩
  rw [List.take_append_of_le_length (by omega), afterBatches_eq, hr, hflat, writeBatch_append,
    writeBatch_coins]
  rfl

lemma afterBatches_complete (n : Nat) (hn : batches.length ≤ n) :
    afterBatches (settled coins hashOld) (batches.take n) =
      ⟨redo coins (cacheLog mapCoins.entries), some hashNew, none⟩ := by
  rw [List.take_of_length_le hn, afterBatches_eq]
  obtain ⟨-, r, hr, rfl⟩ := batchWrite_eq h
  rw [List.flatten_append, List.flatten_singleton, ← List.append_assoc, hr, collect_flatten,
    writeBatch_append, writeBatch_append, writeBatch_coins]
  rfl

end

lemma batchWrite_each (coins : CoinMap) (hashOld hashNew : Uint256) (mapCoins : CCoinsMap)
    (hne : hashNew ≠ 0) :
    ∃ batches, batchWrite (fun _ => true) (settled coins hashOld) mapCoins hashNew = .ok batches ∧
      batches.length = mapCoins.entries.length + 1 := by
  have hlength : ∀ (its : List CacheEntry) (batch : CDBBatch),
      (collect (fun _ => true) batch its).1.length = its.length := by
    intro its
    induction its with
    | nil => exact fun _ => rfl
    | cons it its ih => exact fun _ => congrArg (· + 1) (ih [])
  have hok : ∃ batches,
      batchWrite (fun _ => true) (settled coins hashOld) mapCoins hashNew = .ok batches := by
    simp only [batchWrite, rejectIf_bind_ok_iff, oldTip_settled, ok_bind, pure_ok_iff, hne,
      not_false_eq_true, true_and]
    exact ⟨_, rfl⟩
  obtain ⟨batches, hbatches⟩ := hok
  obtain ⟨-, r, rfl, rfl⟩ := batchWrite_eq hbatches
  exact ⟨_, hbatches, by rw [List.length_append, List.length_singleton, hlength]⟩

end CoinsDatabase
