import BitcoinC.HeaderChecks
import BitcoinC.Calls

/-!
# The block index

`mapBlockIndex` and the objects it points to, `AddToBlockIndex` and
`AcceptBlockHeader`. An object stays where it is when its entry is erased from the
map, and other objects may still point to it.
-/

namespace BlockIndex

open Primitives Encoding Environment Verdicts TxVerify Blocks HeaderChecks Calls

def BLOCK_VALID_HEADER : Nat := 1
def BLOCK_VALID_TREE : Nat := 2
def BLOCK_VALID_TRANSACTIONS : Nat := 3
def BLOCK_VALID_SCRIPTS : Nat := 5

structure IndexEntry extends CBlockIndex where
  pprev : Option Nat := none
  pskip : Option Nat := none
  nTimeMax : UInt32 := 0
  nChainWork : BitVec 256 := 0
  nTx : Nat := 0
  /-- `nStatus & BLOCK_VALID_MASK`. -/
  nValid : Nat := 0
  haveData : Bool := false
  failedValid : Bool := false
  failedChild : Bool := false
  proofOfStake : Bool := false
  duplicateStake : Bool := false
  delayed : Bool := false
  accepted : Bool := false

def IndexEntry.failed (e : IndexEntry) : Bool := e.failedValid || e.failedChild

def IndexEntry.isValid (e : IndexEntry) (nUpTo : Nat) : Bool := !e.failed && nUpTo ≤ e.nValid

def IndexEntry.raiseValidity (e : IndexEntry) (nUpTo : Nat) : IndexEntry :=
  if !e.failed && e.nValid < nUpTo then { e with nValid := nUpTo } else e

def IndexEntry.header (e : IndexEntry) : CBlockIndex :=
  { hashBlock := e.hashBlock, nHeight := e.nHeight, nTime := e.nTime, nBits := e.nBits }

/-- An element of `list_delayed_blocks`. The number tells elements apart, as iterators do. -/
structure DelayedBlock where
  id : Nat
  time : Int
  block : CBlock
  nodeId : Int

structure IndexState where
  /-- All objects, in the order in which they were made. -/
  blocks : List IndexEntry
  mapBlockIndex : Uint256 → Option Nat
  pindexBestHeader : Option Nat
  /-- `chainActive.Tip()`. -/
  tip : Option Nat
  failedBlocks : List Nat
  delayedBlocks : List DelayedBlock
  nDelayed : Nat

abbrev IndexCall := Call IndexState Reject

def entryAt (p : Nat) : IndexCall IndexEntry := do
  let s ← read
  lift (orReject s.blocks[p]? (.throws "null block index"))

def IndexState.update (s : IndexState) (p : Nat) (f : IndexEntry → IndexEntry) : IndexState :=
  { s with blocks := s.blocks.modify p f }

def updateEntry (p : Nat) (f : IndexEntry → IndexEntry) : IndexCall Unit :=
  write fun s => s.update p f

def rejectWhen (p : Prop) [Decidable p] (e : Reject) : IndexCall Unit := lift (rejectIf p e)

def walkBack (blocks : List IndexEntry) : Nat → Option Nat → List IndexEntry
  | n + 1, some p =>
    match blocks[p]? with
    | some e => e :: walkBack blocks n e.pprev
    | none => []
  | _, _ => []

/-- A block with its ancestors. An object only points to older ones, so this reaches the end. -/
def branchAt (blocks : List IndexEntry) (p : Nat) : List IndexEntry := walkBack blocks (p + 1)
    (some p)

def indexBranch (blocks : List IndexEntry) (p : Option Nat) : List CBlockIndex :=
  match p with
  | none => []
  | some p => (branchAt blocks p).map (·.toCBlockIndex)

def headerBranch (blocks : List IndexEntry) (p : Nat) : List CBlockIndex :=
  (branchAt blocks p).map IndexEntry.header

def invertLowestOne (n : Nat) : Nat := n &&& (n - 1)

def getSkipHeight (height : Nat) : Nat :=
  if height < 2 then 0
  else if height % 2 = 1 then invertLowestOne (invertLowestOne (height - 1)) + 1
  else invertLowestOne height

/-- The walk of `GetAncestor` from an object at height `heightWalk`, in at most `n` steps. -/
def ancestorFrom (blocks : List IndexEntry) (height : Nat) : (n heightWalk p : Nat) → Verdict Nat
  | 0, heightWalk, p =>
    if heightWalk ≤ height then .ok p else .error (.throws "GetAncestor: heightWalk")
  | n + 1, heightWalk, p =>
    if heightWalk ≤ height then .ok p
    else do
      let e ← orReject blocks[p]? (.throws "null block index")
      let heightSkip := getSkipHeight heightWalk
      let heightSkipPrev := getSkipHeight (heightWalk - 1)
      -- follow pskip only if pprev->pskip is not better than pskip->pprev
      if e.pskip.isSome ∧ (heightSkip = height ∨ (height < heightSkip ∧
          ¬ (heightSkipPrev + 2 < heightSkip ∧ height ≤ heightSkipPrev))) then do
        let r ← orReject e.pskip (.throws "null block index")
        ancestorFrom blocks height n heightSkip r
      else do
        let q ← orReject e.pprev (.throws "GetAncestor: pprev")
        ancestorFrom blocks height n (heightWalk - 1) q

def getAncestor (blocks : List IndexEntry) (p height : Nat) : Verdict (Option Nat) := do
  let e ← orReject blocks[p]? (.throws "null block index")
  if e.nHeight < height then pure none
  else do
    let r ← ancestorFrom blocks height e.nHeight e.nHeight p
    pure (some r)

section

variable (E : Env) (H : HeaderParams)

def headerHash (block : CBlockHeader) : Uint256 := E.hash256 (serializeHeader block)

/-- The object that `AddToBlockIndex` makes. It is in the map before its parent is looked up. -/
def newEntry (s : IndexState) (block : CBlockHeader) : Verdict IndexEntry :=
  let hash := headerHash E block
  let bare : IndexEntry :=
    { hashBlock := hash, nHeight := 0, nTime := block.nTime, nBits := block.nBits,
      nValid := BLOCK_VALID_TREE }
  match Function.update s.mapBlockIndex hash (some s.blocks.length) block.hashPrevBlock with
  | none => .ok { bare with nTimeMax := block.nTime, nChainWork := getBlockProof block.nBits }
  | some q => do
    let pprev ← orReject (s.blocks ++ [bare])[q]? (.throws "null block index")
    let linked := { bare with pprev := some q, nHeight := pprev.nHeight + 1 }
    let pskip ← getAncestor (s.blocks ++ [linked]) q (getSkipHeight linked.nHeight)
    pure { linked with
      pskip := pskip
      nTimeMax := max pprev.nTimeMax block.nTime
      nChainWork := pprev.nChainWork + getBlockProof block.nBits }

def IndexState.betterHeader (s : IndexState) (e : IndexEntry) : Bool :=
  match s.pindexBestHeader.bind (s.blocks[·]?) with
  | none => true
  | some best => best.nChainWork < e.nChainWork

def IndexState.insert (s : IndexState) (e : IndexEntry) : IndexState :=
  { s with
    blocks := s.blocks ++ [e]
    mapBlockIndex := Function.update s.mapBlockIndex e.hashBlock (some s.blocks.length)
    pindexBestHeader := if s.betterHeader e then some s.blocks.length else s.pindexBestHeader }

def addToBlockIndex (block : CBlockHeader) : IndexCall Nat := do
  let s ← read
  match s.mapBlockIndex (headerHash E block) with
  | some p => pure p
  | none => do
    let e ← lift (newEntry E s block)
    write fun s => s.insert e
    pure s.blocks.length

/-- The peer that a header came from. Its limits are counted in `net_processing.cpp`. -/
structure Peer where
  /-- `state.nodeId >= 0`. -/
  known : Bool
  addNodeHeader : Bool := true
  incDuplicateHeaders : Bool := true

/-- Mark the blocks from `p` down to a failed one as descendants of it, at most `n` of them. -/
def markFailedChildren (failedit : Nat) : Nat → Nat → IndexCall Unit
  | 0, p => rejectWhen (p ≠ failedit) (.throws "AcceptBlockHeader: invalid_walk")
  | n + 1, p =>
    if p = failedit then pure ()
    else do
      updateEntry p fun e => { e with failedChild := true }
      let e ← entryAt p
      let q ← lift (orReject e.pprev (.throws "null block index"))
      markFailedChildren failedit n q

def checkFailedBlocks (pindexPrev : Nat) : List Nat → IndexCall Unit
  | [] => pure ()
  | failedit :: rest => do
    let s ← read
    let f ← entryAt failedit
    let ancestor ← lift (getAncestor s.blocks pindexPrev f.nHeight)
    if ancestor = some failedit then do
      rejectWhen (f.failedValid = false) (.throws "AcceptBlockHeader: failedit")
      markFailedChildren failedit (pindexPrev + 1) pindexPrev
      fail (.dos 100 REJECT_INVALID "bad-prevblk")
    else checkFailedBlocks pindexPrev rest

def lastCheckpoint (s : IndexState) : Option Nat :=
  (H.checkpoints.findSome? s.mapBlockIndex).bind fun p => s.blocks[p]?.map (·.nHeight)

def checkNewHeader (block : CBlockHeader) : IndexCall Unit := do
  lift (checkBlockHeader E block)
  let s ← read
  let q ← lift (orReject (s.mapBlockIndex block.hashPrevBlock) (.dos 10 0 "prev-blk-not-found"))
  let pindexPrev ← entryAt q
  rejectWhen (pindexPrev.failed = true) (.dos 100 REJECT_INVALID "bad-prevblk")
  lift (contextualCheckBlockHeader E H (headerBranch s.blocks q) (lastCheckpoint H s) block)
  if pindexPrev.isValid BLOCK_VALID_SCRIPTS then pure () else checkFailedBlocks q s.failedBlocks

def addHeader (peer : Peer) (block : CBlockHeader) : IndexCall Nat := do
  let limited := E.isInitialBlockDownload = false ∧ peer.known = true
  rejectWhen (limited ∧ peer.addNodeHeader = false) (.dos 20 REJECT_INVALID "dos-limits")
  let p ← addToBlockIndex E block
  if limited then pure p
  else do
    updateEntry p fun e => { e with accepted := true }
    pure p

def knownHeader (peer : Peer) (p : Nat) : IndexCall Nat := do
  rejectWhen (E.isInitialBlockDownload = false ∧ peer.known = true ∧
    peer.incDuplicateHeaders = false) (.dos 5 REJECT_INVALID "dos-limits")
  let e ← entryAt p
  rejectWhen (e.failed = true) (.dos 0 0 "duplicate")
  pure p

def acceptBlockHeader (peer : Peer) (block : CBlockHeader) : IndexCall Nat := do
  let s ← read
  if headerHash E block = E.hashGenesisBlock then addHeader E peer block
  else
    match s.mapBlockIndex (headerHash E block) with
    | some p => knownHeader E peer p
    | none => do
      checkNewHeader E H block
      addHeader E peer block

def processNewBlockHeaders (peer : Peer) : List CBlockHeader → IndexCall Unit
  | [] => pure ()
  | block :: rest => do
    let _ ← acceptBlockHeader E H peer block
    processNewBlockHeaders peer rest

end

end BlockIndex
