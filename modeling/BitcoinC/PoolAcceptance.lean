import BitcoinC.ChainRun
import BitcoinC.TxMempool

/-!
# Acceptance to the mempool and removal from it

`AcceptToMemoryPoolWorker` of `validation.cpp` and the removals of `txmempool.cpp`
that are made of `RemoveStaged`.
-/

namespace PoolAcceptance

open Primitives Environment Verdicts TxVerify Anon CheckInputs ConnectBlock ChainRun TxMempool
  TxMempool.MemPool TxMempool.CTxMemPoolEntry

def MAX_STANDARD_TX_SIGOPS_COST : Nat := MAX_BLOCK_SIGOPS_COST / 5
def MAX_BIP125_RBF_SEQUENCE : UInt32 := 0xfffffffd
def REJECT_DUPLICATE : UInt8 := 0x12
def REJECT_INSUFFICIENTFEE : UInt8 := 0x42

def view (S : MemPool) : CTxMemPool where
  mapTx h := if h ∈ S.ids then some (S.entry h).tx else none
  mapKeyImages := S.mapKeyImages

def getNumVOuts (tx : CTransaction) : Nat :=
  if tx.isBitcoinCVersion then tx.vpout.length else tx.vout.length

def spenders (S : MemPool) (hash : Uint256) (nOuts : Nat) : List Uint256 :=
  ((List.range nOuts).filterMap fun i => S.nextTx ⟨hash, UInt32.ofNat i⟩).filter (· ∈ S.ids)

section

variable (E : Env)

def removeRecursive (S : MemPool) (origTx : CTransaction) : MemPool :=
  let hash := E.txHash origTx
  let txToRemove := if hash ∈ S.ids then [hash] else spenders S hash (getNumVOuts origTx)
  S.removeStaged (S.allDescendants txToRemove) false

def removeConflict (tx : CTransaction) (S : MemPool) (h : Uint256) : MemPool :=
  if h ∈ S.ids ∧ h ≠ E.txHash tx then
    removeRecursive E (S.clearPrioritisation h) (S.entry h).tx
  else S

def removeConflictOf (tx : CTransaction) (S : MemPool) (h : Option Uint256) : MemPool :=
  match h with
  | some h => removeConflict E tx S h
  | none => S

def removeInputConflicts (tx : CTransaction) (S : MemPool) (txin : CTxIn) : MemPool :=
  if txin.isAnonInput then
    (keyImageSlots (txin.scriptData.headD []) txin.getAnonInfo.1).foldl
      (fun S ki => removeConflictOf E tx S (S.mapKeyImages ki)) S
  else removeConflictOf E tx S (S.nextTx txin.prevout)

def removeConflicts (S : MemPool) (tx : CTransaction) : MemPool :=
  tx.vin.foldl (removeInputConflicts E tx) S

def removeForBlockTx (S : MemPool) (tx : CTransaction) : MemPool :=
  let S := if E.txHash tx ∈ S.ids then S.removeStaged [E.txHash tx] true else S
  (removeConflicts E S tx).clearPrioritisation (E.txHash tx)

def removeForBlock (S : MemPool) (vtx : List CTransaction) : MemPool :=
  vtx.foldl (removeForBlockTx E) S

end

def removeWhere (S : MemPool) (bad : CTxMemPoolEntry → Bool) : MemPool :=
  S.removeStaged (S.allDescendants (S.ids.filter fun h => bad (S.entry h))) false

/-- `removeForReorg`: `bad` says which transactions are not final, break a sequence lock or spend an
immature coinbase. -/
def removeForReorg (S : MemPool) (bad : CTxMemPoolEntry → Bool) : MemPool := removeWhere S bad

def expire (S : MemPool) (time : Int) : MemPool := removeWhere S fun e => e.nTime < time

def worstEntry (S : MemPool) (worse : CTxMemPoolEntry → CTxMemPoolEntry → Bool) : Option Uint256 :=
  S.ids.foldl (fun m h => match m with
    | none => some h
    | some m => if worse (S.entry h) (S.entry m) then some h else some m) none

def trimToSize (tooLarge : MemPool → Bool) (worse : CTxMemPoolEntry → CTxMemPoolEntry → Bool) :
    Nat → MemPool → MemPool
  | 0, S => S
  | n + 1, S =>
    match worstEntry S worse with
    | some h =>
      if tooLarge S then trimToSize tooLarge worse n
        (S.removeStaged (S.calculateDescendants h []) false)
      else S
    | none => S

structure Limits where
  time : Int
  tooLarge : MemPool → Bool
  worse : CTxMemPoolEntry → CTxMemPoolEntry → Bool

def trim (S : MemPool) (L : Limits) : MemPool := trimToSize L.tooLarge L.worse S.ids.length S

def limitMempoolSize (S : MemPool) (L : Limits) : MemPool := trim (expire S L.time) L

def clear (S : MemPool) : MemPool :=
  { S with ids := [], parents := fun _ => [], children := fun _ => [], mapNextTx := [] }

def setKeyImages (m : CCmpPubKey → Option Uint256) (kis : List CCmpPubKey) (txhash : Uint256) :
    CCmpPubKey → Option Uint256 :=
  fun ki => if ki ∈ kis then some txhash else m ki

def addKeyImages (txhash : Uint256) : List CTxIn → MemPool → MemPool × Bool
  | [], S => (S, true)
  | txin :: vin, S =>
    if txin.isAnonInput then
      match stackKeyImages txin with
      | some kis =>
        addKeyImages txhash vin { S with mapKeyImages := setKeyImages S.mapKeyImages kis txhash }
      | none => (S, false)
    else addKeyImages txhash vin S

/-- One call of `AcceptToMemoryPool`: the transaction, the chain it is checked against, and the
outcomes of relay policy. -/
structure Acceptance where
  tx : CTransaction
  process : Process
  db : CBlockTreeDB
  coins : CoinMap
  nSpendHeight : Nat
  nTipHeight : Nat
  fBulletproofsActive : Bool
  bypass_limits : Bool
  test_accept : Bool
  fEnableReplacement : Bool
  nAcceptTime : Int
  nTxSize : Word
  limits : Limits
  /-- `IsStandardTx`, the minimal size and `CheckFinalTx`. -/
  standard : Verdict Unit
  /-- Missing inputs, the sync state, `AllAnonOutputsUnknown` and the sequence locks. -/
  available : Verdict Unit
  /-- Standard inputs and witnesses. -/
  inputsStandard : Verdict Unit
  /-- The fee floors and the absurd fee. -/
  fees : Verdict Unit
  /-- The limits of `CalculateMemPoolAncestors`. -/
  packages : Verdict Unit
  /-- The fee rates of a replacement. -/
  feeRates : Verdict Unit
  /-- Its inputs and its fees. -/
  replacement : Verdict Unit

structure Accepted where
  entry : CTxMemPoolEntry
  setAncestors : List Uint256
  allConflicting : List Uint256
  inserted : Option Uint256

section

variable (E : Env)

def callEnv (a : Acceptance) : Env :=
  withProcess E { a.process with scriptExecutionCacheNonce := E.scriptExecutionCacheNonce }

def findConflict (S : MemPool) (fEnableReplacement : Bool) (setConflicts : List Uint256)
    (o : COutPoint) : Verdict (List Uint256) :=
  match S.nextTx o with
  | none => .ok setConflicts
  | some h =>
    if h ∈ setConflicts then .ok setConflicts
    else if fEnableReplacement ∧
        (S.entry h).tx.vin.any fun txin => txin.nSequence ≤ MAX_BIP125_RBF_SEQUENCE then
      .ok (setConflicts ++ [h])
    else .error (.dos 0 REJECT_DUPLICATE "txn-mempool-conflict")

def replaced (S : MemPool) (a : Acceptance) (setConflicts : List Uint256) :
    Verdict (List Uint256) :=
  if setConflicts = [] then .ok []
  else do
    let found := setConflicts.filter (· ∈ S.ids)
    a.feeRates
    rejectIf (100 < ((found.map fun h => (S.entry h).nCountWithDescendants).sum).toNat)
      (.dos 0 REJECT_NONSTANDARD "too many potential replacements")
    a.replacement
    pure (S.allDescendants found)

def standardMode : CheckMode where
  fScriptChecks := true
  flags := STANDARD_SCRIPT_VERIFY_FLAGS
  cacheFullScriptStore := false
  pvChecks := false

def tipMode (nTipHeight : Nat) : CheckMode where
  fScriptChecks := true
  flags := getBlockScriptFlags E nTipHeight
  cacheFullScriptStore := true
  pvChecks := false

def checkScripts (S : MemPool) (cache : ScriptCache) (a : Acceptance) :
    Verdict (Option Uint256) := do
  let _ ← checkInputs (callEnv E a) a.db (view S) a.coins cache a.tx standardMode
  rejectIf ((standardPrevouts a.tx.vin).any fun o => (a.coins o).isNone)
    (.error "CheckInputsFromMempoolAndCache: coin.IsSpent()")
  let r ← checkInputs (callEnv E a) a.db (view S) a.coins cache a.tx (tipMode E a.nTipHeight)
  pure r.inserted

def checkAcceptance (S : MemPool) (cache : ScriptCache) (a : Acceptance) : Verdict Accepted := do
  checkTransaction (callEnv E a) a.fBulletproofsActive a.tx true
  rejectIf a.tx.isCoinBase (.dos 100 REJECT_INVALID "coinbase")
  rejectIf a.tx.isCoinStake (.dos 100 REJECT_INVALID "coinstake")
  a.standard
  rejectIf (E.txHash a.tx ∈ S.ids) (.dos 0 REJECT_DUPLICATE "txn-already-in-mempool")
  let setConflicts ← loop (findConflict S a.fEnableReplacement) [] (standardPrevouts a.tx.vin)
  a.available
  let r ← checkTxInputs a.coins a.tx a.nSpendHeight
  a.inputsStandard
  let nSigOpsCost := getTransactionSigOpCost (callEnv E a) a.tx a.coins STANDARD_SCRIPT_VERIFY_FLAGS
  rejectIf (MAX_STANDARD_TX_SIGOPS_COST < nSigOpsCost)
    (.dos 0 REJECT_NONSTANDARD "bad-txns-too-many-sigops")
  a.fees
  a.packages
  let setAncestors := S.calculateMemPoolAncestors (S.searchParents a.tx)
  rejectIf (setAncestors.any (· ∈ setConflicts))
    (.dos 10 REJECT_INVALID "bad-txns-spends-conflicting-tx")
  let allConflicting ← replaced S a setConflicts
  let inserted ← checkScripts E S cache a
  pure ⟨make a.tx (BitVec.ofInt 64 r.nTxFee) a.nTxSize a.nAcceptTime (BitVec.ofNat 64 nSigOpsCost),
    setAncestors, allConflicting, inserted⟩

/-- The rest of `AcceptToMemoryPoolWorker`: the pool afterwards and the outcome. A transaction that
the size limit drops again leaves the pool changed. -/
def storeAccepted (S : MemPool) (a : Acceptance) (c : Accepted) : MemPool × Verdict Unit :=
  let hash := E.txHash a.tx
  let S := (S.removeStaged c.allConflicting false).addUnchecked hash c.entry c.setAncestors
  let S := if a.bypass_limits then S else limitMempoolSize S a.limits
  if a.bypass_limits = false ∧ hash ∉ S.ids then
    (S, .error (.dos 0 REJECT_INSUFFICIENTFEE "mempool full"))
  else
    let x := addKeyImages hash a.tx.vin S
    (x.1, if x.2 then .ok () else .error (.dos 100 REJECT_MALFORMED "bad-anonin-keyimages"))

structure Node where
  pool : MemPool
  cache : ScriptCache

def Node.start : Node := ⟨.empty, fun _ => false⟩

def acceptToMemoryPool (s : Node) (a : Acceptance) : Node × Verdict Unit :=
  match checkAcceptance E s.pool s.cache a with
  | .error r => (s, .error r)
  | .ok c =>
    let cache : ScriptCache := fun k => s.cache k || c.inserted = some k
    if a.test_accept then (⟨s.pool, cache⟩, .ok ())
    else (⟨(storeAccepted E s.pool a c).1, cache⟩, (storeAccepted E s.pool a c).2)

end

end PoolAcceptance
