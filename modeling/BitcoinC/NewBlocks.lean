import BitcoinC.BlockIndex
import BitcoinC.ChainRun

/-!
# New blocks

`AcceptBlock`, the queue of delayed blocks, `ProcessNewBlock` and the other calls
that change the block index.
-/

namespace NewBlocks

open Primitives Environment Verdicts Kernel Blocks HeaderChecks Calls BlockIndex ChainRun

def MIN_BLOCKS_TO_KEEP : Int := 288
def MAX_DELAYED_BLOCKS : Nat := 64
def MAX_DELAY_BLOCK_SECONDS : Int := 180

structure Delivery where
  process : Process
  /-- The coins, the disk and the rest; its chain is taken from the block index. -/
  node : NodeState
  /-- `GetTime()`. -/
  time : Int
  fRequested : Bool := false
  /-- The block has passed `CheckBlock` before. -/
  fChecked : Bool := false
  /-- `CheckStakeUnique` has seen the kernel in another block. -/
  duplicateStake : Bool := false
  /-- `SaveBlockToDisk` found a place for the block. -/
  saved : Bool := true

def notWanted (H : HeaderParams) (s : IndexState) (fRequested : Bool) (e : IndexEntry) : Bool :=
  let tip := s.tip.bind (s.blocks[·]?)
  let height : Int := (tip.map fun t => (t.nHeight : Int)).getD (-1)
  e.haveData || (!fRequested && (e.nTx ≠ 0 || (tip.any fun t => e.nChainWork < t.nChainWork) ||
    height + MIN_BLOCKS_TO_KEEP < e.nHeight || e.nChainWork < H.nMinimumChainWork))

def dropDelayed (id : Nat) (s : IndexState) : IndexState :=
  { s with delayedBlocks := s.delayedBlocks.filter fun x => x.id ≠ id }

def eraseDelayedBlock (E : Env) (id : Nat) : IndexCall Unit := do
  let s ← read
  let x ← lift (orReject (s.delayedBlocks.find? fun x => x.id = id)
    (.throws "EraseDelayedBlock: p"))
  write fun s => { s with
    mapBlockIndex := Function.update s.mapBlockIndex (headerHash E x.block.header) none }
  write (dropDelayed id)

def trimDelayed (E : Env) : Nat → IndexCall Unit
  | 0 => pure ()
  | n + 1 => do
    let s ← read
    match s.delayedBlocks.getLast? with
    | none => pure ()
    | some x =>
      if MAX_DELAYED_BLOCKS ≤ s.delayedBlocks.length then do
        eraseDelayedBlock E x.id
        trimDelayed E n
      else pure ()

def delayBlock (E : Env) (time nodeId : Int) (b : CBlock) : IndexCall Unit := do
  let s ← read
  trimDelayed E s.delayedBlocks.length
  write fun s => { s with
    delayedBlocks := s.delayedBlocks ++ [⟨s.nDelayed, time, b, nodeId⟩]
    nDelayed := s.nDelayed + 1 }

section

variable (E : Env) (H : HeaderParams)

def checkBlockOnce (d : Delivery) (b : CBlock) : Verdict Unit :=
  if d.fChecked then .ok () else checkBlock (withProcess E d.process) true b

def outOfOrder (blocks : List IndexEntry) (e : IndexEntry) : Bool :=
  match e.pprev.bind (blocks[·]?) with
  | none => true
  | some prev => prev.bnStakeModifier = 0 && prev.hashBlock ≠ E.hashGenesisBlock

/-- What the entry of a proof-of-stake block is given before the block is checked; the result says
that the block has to wait. -/
def placeStake (d : Delivery) (b : CBlock) (p : Nat) : IndexCall Bool := do
  let kernel ← lift (orReject (b.vtx.head?.bind (·.vin.head?)) (.throws "AcceptBlock: vtx[0]"))
  updateEntry p fun e => { e with proofOfStake := true, prevoutStake := kernel.prevout }
  let s ← read
  let e ← entryAt p
  if outOfOrder E s.blocks e then
    if d.process.isInitialBlockDownload then do
      updateEntry p fun e => { e with delayed := false }
      pure false
    else if e.delayed then pure true
    else do
      updateEntry p fun e => { e with delayed := true }
      delayBlock E d.time (-1) b
      pure true
  else do
    let modifier := computeStakeModifierV2 E (indexBranch s.blocks e.pprev) kernel.prevout.hash
    updateEntry p fun e => { e with bnStakeModifier := modifier, delayed := false }
    pure false

def isInvalid : Reject → Bool
  | .dos _ _ _ _ => true
  | _ => false

def corruptionPossible : Reject → Bool
  | .dos _ _ _ corruption => corruption
  | _ => false

def checkInContext (d : Delivery) (b : CBlock) (p : Nat) : IndexCall Unit := do
  let s ← read
  let e ← entryAt p
  let node := { d.node with chainActive := indexBranch s.blocks s.tip }
  match contextualCheckBlock (withProcess E d.process) node (indexBranch s.blocks e.pprev)
    b true with
  | .ok _ => pure ()
  | .error reject => do
    if isInvalid reject && !corruptionPossible reject then do
      updateEntry p fun e => { e with failedValid := true }
      fail reject
    else fail reject

def storeBlock (d : Delivery) (b : CBlock) (p : Nat) : IndexCall Unit := do
  updateEntry p fun e => { e with accepted := true }
  rejectWhen (d.saved = false) (.error "Failed to find position to write new block to disk")
  updateEntry p fun e =>
    { e with nTx := b.vtx.length, haveData := true }.raiseValidity BLOCK_VALID_TRANSACTIONS

def acceptBlockData (d : Delivery) (b : CBlock) (p : Nat) : IndexCall Bool := do
  let s ← read
  let e ← entryAt p
  if notWanted H s d.fRequested e then pure false
  else do
    lift (checkBlockOnce E d b)
    let wait ← if isProofOfStake b then placeStake E d b p else pure false
    if wait then pure true
    else do
      checkInContext E d b p
      storeBlock d b p
      pure false

def acceptBlock (d : Delivery) (b : CBlock) : IndexCall (Nat × Bool) := do
  let p ← acceptBlockHeader (withProcess E d.process) H ⟨false, true, true⟩ b.header
  let wait ← acceptBlockData E H d b p
  pure (p, wait)

def invalidBlockFound (p : Nat) (reject : Reject) : IndexCall Unit :=
  if corruptionPossible reject then pure ()
  else do
    updateEntry p fun e => { e with failedValid := true }
    write fun s => { s with
      failedBlocks := if p ∈ s.failedBlocks then s.failedBlocks else s.failedBlocks ++ [p] }
    let s ← read
    rejectWhen (s.tip = none) (.throws "InvalidChainFound: tip")

def rejectBlock (b : CBlock) (reject : Reject) : IndexCall (Option Nat) := do
  let p ← addToBlockIndex E b.header
  invalidBlockFound p reject
  fail reject

def checkAndAccept (d : Delivery) (b : CBlock) : IndexCall (Nat × Bool) := do
  lift (checkBlockOnce E d b)
  acceptBlock E H d b

/-- `ProcessNewBlock` up to `ActivateBestChain`: the entry of the block, or nothing when it has to
wait. -/
def receiveBlock (d : Delivery) (b : CBlock) : IndexCall (Option Nat) := do
  let r ← attempt (checkAndAccept E H d b)
  match r with
  | .ok (p, wait) =>
    if wait then pure none
    else do
      updateEntry p fun e => { e with duplicateStake := e.duplicateStake || d.duplicateStake }
      pure (some p)
  | .error (.throws what) => fail (.throws what)
  | .error reject => rejectBlock E b reject

/-- `RemoveUnreceivedHeader`: a header that was not accepted goes, whatever points to it. -/
def removeUnreceivedHeader (hash : Uint256) : IndexCall Bool := do
  let s ← read
  match s.mapBlockIndex hash with
  | none => pure false
  | some p => do
    let e ← entryAt p
    if e.accepted then pure false
    else do
      write fun s => { s with mapBlockIndex := Function.update s.mapBlockIndex hash none }
      pure true

def unmark (e : IndexEntry) : IndexEntry :=
  { e with
    duplicateStake := false, nValid := e.nValid ||| BLOCK_VALID_HEADER, failedValid := false,
    failedChild := false }

def unmarkAncestors : Nat → Option Nat → IndexCall Unit
  | n + 1, some q => do
    let e ← entryAt q
    if e.nValid ≠ 0 then pure ()
    else do
      if e.duplicateStake then updateEntry q unmark else pure ()
      unmarkAncestors n e.pprev
  | _, _ => pure ()

def makesValid (nodeId : Int) (peerCount nPeers : Nat) : Bool :=
  nodeId = -1 || (-1 < nodeId && min (nPeers / 2) 4 < peerCount)

def processDuplicateStakeHeader (p : Nat) (nodeId : Int) (peerCount nPeers : Nat) :
    IndexCall Bool := do
  if makesValid nodeId peerCount nPeers then do
    updateEntry p unmark
    let e ← entryAt p
    unmarkAncestors (p + 1) e.pprev
    pure true
  else pure false

end

end NewBlocks
