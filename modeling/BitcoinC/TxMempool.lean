import BitcoinC.ConnectBlock
import BitcoinC.Worklist

/-!
# The mempool with its entries and links

`CTxMemPool` of `txmempool.cpp`: the entries with their cached sums over ancestors
and descendants, the links between them, the spent outpoints, the fee deltas and
the key images. Counters are 64-bit words.
-/

namespace TxMempool

open Primitives TxVerify Anon Worklist Function

abbrev Word := BitVec 64

structure CTxMemPoolEntry where
  tx : CTransaction
  nFee : Word
  nTxSize : Word
  nTime : Int
  sigOpCost : Word
  feeDelta : Word
  nCountWithDescendants : Word
  nSizeWithDescendants : Word
  nModFeesWithDescendants : Word
  nCountWithAncestors : Word
  nSizeWithAncestors : Word
  nModFeesWithAncestors : Word
  nSigOpCostWithAncestors : Word
  deriving DecidableEq

namespace CTxMemPoolEntry

def make (tx : CTransaction) (nFee nTxSize : Word) (nTime : Int) (sigOpCost : Word) :
    CTxMemPoolEntry where
  tx := tx
  nFee := nFee
  nTxSize := nTxSize
  nTime := nTime
  sigOpCost := sigOpCost
  feeDelta := 0
  nCountWithDescendants := 1
  nSizeWithDescendants := nTxSize
  nModFeesWithDescendants := nFee
  nCountWithAncestors := 1
  nSizeWithAncestors := nTxSize
  nModFeesWithAncestors := nFee
  nSigOpCostWithAncestors := sigOpCost

def getModifiedFee (e : CTxMemPoolEntry) : Word := e.nFee + e.feeDelta

def updateFeeDelta (newFeeDelta : Word) (e : CTxMemPoolEntry) : CTxMemPoolEntry :=
  { e with
    nModFeesWithDescendants := e.nModFeesWithDescendants + (newFeeDelta - e.feeDelta)
    nModFeesWithAncestors := e.nModFeesWithAncestors + (newFeeDelta - e.feeDelta)
    feeDelta := newFeeDelta }

def updateDescendantState (modifySize modifyFee modifyCount : Word) (e : CTxMemPoolEntry) :
    CTxMemPoolEntry :=
  { e with
    nSizeWithDescendants := e.nSizeWithDescendants + modifySize
    nModFeesWithDescendants := e.nModFeesWithDescendants + modifyFee
    nCountWithDescendants := e.nCountWithDescendants + modifyCount }

def updateAncestorState (modifySize modifyFee modifyCount modifySigOps : Word)
    (e : CTxMemPoolEntry) : CTxMemPoolEntry :=
  { e with
    nSizeWithAncestors := e.nSizeWithAncestors + modifySize
    nModFeesWithAncestors := e.nModFeesWithAncestors + modifyFee
    nCountWithAncestors := e.nCountWithAncestors + modifyCount
    nSigOpCostWithAncestors := e.nSigOpCostWithAncestors + modifySigOps }

end CTxMemPoolEntry

open CTxMemPoolEntry

/-- `CTxMemPool`. `ids` are the txids of `mapTx`; the entry and the links of another txid are never
read. -/
structure MemPool where
  ids : List Uint256
  entry : Uint256 → CTxMemPoolEntry
  parents : Uint256 → List Uint256
  children : Uint256 → List Uint256
  mapNextTx : List (COutPoint × Uint256)
  mapDeltas : Uint256 → Option Word
  mapKeyImages : CCmpPubKey → Option Uint256

namespace MemPool

def empty : MemPool where
  ids := []
  entry _ := make ⟨0, 0, [], [], []⟩ 0 0 0 0
  parents _ := []
  children _ := []
  mapNextTx := []
  mapDeltas _ := none
  mapKeyImages _ := none

def modify (S : MemPool) (h : Uint256) (f : CTxMemPoolEntry → CTxMemPoolEntry) : MemPool :=
  { S with entry := update S.entry h (f (S.entry h)) }

def modifyAll (S : MemPool) (hs : List Uint256) (f : CTxMemPoolEntry → CTxMemPoolEntry) : MemPool :=
  hs.foldl (fun S h => S.modify h f) S

def put (add : Bool) (s : List Uint256) (h : Uint256) : List Uint256 :=
  if add then s.insert h else s.filter (· ≠ h)

def updateChild (S : MemPool) (entry child : Uint256) (add : Bool) : MemPool :=
  { S with children := update S.children entry (put add (S.children entry) child) }

def updateParent (S : MemPool) (entry parent : Uint256) (add : Bool) : MemPool :=
  { S with parents := update S.parents entry (put add (S.parents entry) parent) }

def nextTx (S : MemPool) (o : COutPoint) : Option Uint256 :=
  (S.mapNextTx.find? (·.1 = o)).map (·.2)

def calculateDescendants (S : MemPool) (h : Uint256) (setDescendants : List Uint256) :
    List Uint256 :=
  walk S.children S.ids.length (if h ∈ setDescendants then [] else [h]) setDescendants

def allDescendants (S : MemPool) (hs : List Uint256) : List Uint256 :=
  hs.foldl (fun s h => S.calculateDescendants h s) []

def searchParents (S : MemPool) (tx : CTransaction) : List Uint256 :=
  ((standardPrevouts tx.vin).map (·.hash)).foldl
    (fun s p => if p ∈ S.ids then s.insert p else s) []

/-- `CalculateMemPoolAncestors` without limits: the stage holds the parents found by the inputs, or
those of the links. -/
def calculateMemPoolAncestors (S : MemPool) (parentHashes : List Uint256) : List Uint256 :=
  walk S.parents S.ids.length parentHashes []

def updateAncestorsOf (S : MemPool) (add : Bool) (h : Uint256) (setAncestors : List Uint256) :
    MemPool :=
  let S' := (S.parents h).foldl (fun S p => S.updateChild p h add) S
  let updateCount : Word := if add then 1 else -1
  S'.modifyAll setAncestors (updateDescendantState (updateCount * (S.entry h).nTxSize)
    (updateCount * (S.entry h).getModifiedFee) updateCount)

def updateEntryForAncestors (S : MemPool) (h : Uint256) (setAncestors : List Uint256) : MemPool :=
  S.modify h (updateAncestorState (setAncestors.map fun a => (S.entry a).nTxSize).sum
    (setAncestors.map fun a => (S.entry a).getModifiedFee).sum (BitVec.ofNat 64 setAncestors.length)
    (setAncestors.map fun a => (S.entry a).sigOpCost).sum)

def insertEntry (S : MemPool) (h : Uint256) (e : CTxMemPoolEntry) : MemPool :=
  if h ∈ S.ids then S
  else { S with
    ids := h :: S.ids
    entry := update S.entry h e
    parents := update S.parents h []
    children := update S.children h [] }

def applyFeeDelta (S : MemPool) (h : Uint256) : MemPool :=
  match S.mapDeltas h with
  | some delta => if delta = 0 then S else S.modify h (updateFeeDelta delta)
  | none => S

def insertNextTx (h : Uint256) (m : List (COutPoint × Uint256)) (o : COutPoint) :
    List (COutPoint × Uint256) :=
  if m.any (·.1 = o) then m else (o, h) :: m

def addNextTx (S : MemPool) (h : Uint256) : MemPool :=
  { S with mapNextTx := (standardPrevouts (S.entry h).tx.vin).foldl (insertNextTx h) S.mapNextTx }

def addParents (S : MemPool) (h : Uint256) : MemPool :=
  (S.searchParents (S.entry h).tx).foldl (fun S p => S.updateParent h p true) S

def addUnchecked (S : MemPool) (hash : Uint256) (e : CTxMemPoolEntry)
    (setAncestors : List Uint256) : MemPool :=
  let S := (((S.insertEntry hash e).applyFeeDelta hash).addNextTx hash).addParents hash
  (S.updateAncestorsOf true hash setAncestors).updateEntryForAncestors hash setAncestors

/-- `int modifySigOps = -removeIt->GetSigOpCost()`: cut down to 32 bits and extended again. -/
def modifySigOps (e : CTxMemPoolEntry) : Word := ((-e.sigOpCost).setWidth 32).signExtend 64

def updateDescendantsForRemoval (S : MemPool) (h : Uint256) : MemPool :=
  S.modifyAll ((S.calculateDescendants h []).erase h)
    (updateAncestorState (-(S.entry h).nTxSize) (-(S.entry h).getModifiedFee) (-1)
      (modifySigOps (S.entry h)))

def updateAncestorsForRemoval (S : MemPool) (h : Uint256) : MemPool :=
  S.updateAncestorsOf false h (S.calculateMemPoolAncestors (S.parents h))

def updateChildrenForRemoval (S : MemPool) (h : Uint256) : MemPool :=
  (S.children h).foldl (fun S c => S.updateParent c h false) S

def updateForRemoveFromMempool (S : MemPool) (entriesToRemove : List Uint256)
    (updateDescendants : Bool) : MemPool :=
  let S := if updateDescendants then entriesToRemove.foldl updateDescendantsForRemoval S else S
  let S := entriesToRemove.foldl updateAncestorsForRemoval S
  entriesToRemove.foldl updateChildrenForRemoval S

/-- The key images of an anon input as the mempool reads them, from the front of the stack. -/
def stackKeyImages (txin : CTxIn) : Option (List CCmpPubKey) :=
  let v := txin.scriptData.headD []
  if v.length = 33 * txin.getAnonInfo.1 % 2 ^ 32 then some (keyImageSlots v txin.getAnonInfo.1)
  else none

def eraseKeyImages (m : CCmpPubKey → Option Uint256) (kis : List CCmpPubKey) :
    CCmpPubKey → Option Uint256 :=
  fun ki => if ki ∈ kis then none else m ki

def removeInput (S : MemPool) (txin : CTxIn) : MemPool :=
  if txin.isAnonInput then
    { S with mapKeyImages := eraseKeyImages S.mapKeyImages ((stackKeyImages txin).getD []) }
  else { S with mapNextTx := S.mapNextTx.filter (·.1 ≠ txin.prevout) }

def removeUnchecked (S : MemPool) (h : Uint256) : MemPool :=
  let S := (S.entry h).tx.vin.foldl removeInput S
  { S with
    ids := S.ids.filter (· ≠ h)
    parents := update S.parents h []
    children := update S.children h [] }

def removeStaged (S : MemPool) (stage : List Uint256) (updateDescendants : Bool) : MemPool :=
  stage.foldl removeUnchecked (S.updateForRemoveFromMempool stage updateDescendants)

def prioritiseTransaction (S : MemPool) (hash : Uint256) (nFeeDelta : Word) : MemPool :=
  let delta := (S.mapDeltas hash).getD 0 + nFeeDelta
  let S := { S with mapDeltas := update S.mapDeltas hash (some delta) }
  if hash ∈ S.ids then
    let S := S.modify hash (updateFeeDelta delta)
    let S := S.modifyAll (S.calculateMemPoolAncestors (S.parents hash))
      (updateDescendantState 0 nFeeDelta 0)
    S.modifyAll ((S.calculateDescendants hash []).erase hash) (updateAncestorState 0 nFeeDelta 0 0)
  else S

def clearPrioritisation (S : MemPool) (hash : Uint256) : MemPool :=
  { S with mapDeltas := update S.mapDeltas hash none }

/-- `cacheMap`: what an entry that has been updated reaches outside the block. -/
abbrev CacheMap := Uint256 → Option (List Uint256)

def updateForDescendants (setExclude : List Uint256) (x : MemPool × CacheMap) (h : Uint256) :
    MemPool × CacheMap :=
  let S := x.1
  let setAllDescendants := walkCached S.children x.2 S.ids.length (S.children h) []
  let counted := setAllDescendants.filter (· ∉ setExclude)
  let S' := S.modifyAll counted
    (updateAncestorState (S.entry h).nTxSize (S.entry h).getModifiedFee 1 (S.entry h).sigOpCost)
  (S'.modify h (updateDescendantState (counted.map fun c => (S.entry c).nTxSize).sum
      (counted.map fun c => (S.entry c).getModifiedFee).sum (BitVec.ofNat 64 counted.length)),
    if counted = [] then x.2
    else update x.2 h (some (counted ∪ (x.2 h).getD [])))

/-- A child that `mapNextTx` names is linked unless it comes from the block as well. -/
def linkChild (setAlreadyIncluded : List Uint256) (h : Uint256) (S : MemPool) (c : Uint256) :
    MemPool :=
  if c ∈ S.ids ∧ c ∉ setAlreadyIncluded then (S.updateChild h c true).updateParent c h true else S

def linkChildren (setAlreadyIncluded : List Uint256) (S : MemPool) (h : Uint256) : MemPool :=
  ((S.mapNextTx.filter (·.1.hash = h)).map (·.2)).foldl (linkChild setAlreadyIncluded h) S

def updateFromBlock (setAlreadyIncluded : List Uint256) (x : MemPool × CacheMap) (h : Uint256) :
    MemPool × CacheMap :=
  if h ∈ x.1.ids then
    updateForDescendants setAlreadyIncluded (linkChildren setAlreadyIncluded x.1 h, x.2) h
  else x

def updateTransactionsFromBlock (S : MemPool) (vHashesToUpdate : List Uint256) : MemPool :=
  (vHashesToUpdate.reverse.foldl (updateFromBlock vHashesToUpdate) (S, fun _ => none)).1

end MemPool

end TxMempool
