import BitcoinC.NewBlocks

/-!
# Candidates for the best chain

The part of `CChainState` that chooses a chain.
-/

namespace Candidates

open Primitives Environment Verdicts Blocks HeaderChecks Calls BlockIndex NewBlocks ChainRun

structure CChainState where
  index : IndexState
  /-- The number of transactions up to a block, or 0 for a block that is not linked. -/
  nChainTx : Nat → BitVec 32
  nSequenceId : Nat → Int
  setBlockIndexCandidates : List Nat
  /-- Pairs of a parent and a block that waits for it. -/
  mapBlocksUnlinked : List (Nat × Nat)
  nBlockSequenceId : Int

abbrev ChainCall := Call CChainState Reject

def onIndex {α : Type} (x : IndexCall α) : ChainCall α := fun s =>
  ((x s.index).1, { s with index := (x s.index).2 })

def change (f : CChainState → Verdict CChainState) : ChainCall Unit := fun s =>
  match f s with
  | .ok t => (.ok (), t)
  | .error reject => (.error reject, s)

lemma wp_change (f : CChainState → Verdict CChainState) (Q : Unit → CChainState → Prop)
    (R : Reject → CChainState → Prop) (s : CChainState) :
    Wp (change f) Q R s ↔ (∀ t, f s = .ok t → Q () t) ∧ ∀ reject,
      f s = .error reject → R reject s := by
  unfold Wp change
  cases f s with
  | ok t => simp
  | error reject => simp

def CChainState.entry (s : CChainState) (p : Nat) : Verdict IndexEntry :=
  orReject s.index.blocks[p]? (.throws "null block index")

def CChainState.update (s : CChainState) (p : Nat) (f : IndexEntry → IndexEntry) : CChainState :=
  { s with index := s.index.update p f }

def CChainState.setTip (s : CChainState) (p : Option Nat) : CChainState :=
  { s with index := { s.index with tip := p } }

def CChainState.eraseCandidate (s : CChainState) (p : Nat) : CChainState :=
  { s with setBlockIndexCandidates := s.setBlockIndexCandidates.filter fun c => c ≠ p }

def CChainState.insertCandidate (s : CChainState) (p : Nat) : CChainState :=
  { s with setBlockIndexCandidates := s.setBlockIndexCandidates.insert p }

def lineage (blocks : List IndexEntry) : Nat → Option Nat → List Nat
  | n + 1, some p =>
    match blocks[p]? with
    | some e => p :: lineage blocks n e.pprev
    | none => []
  | _, _ => []

def activeChain (s : CChainState) : List Nat :=
  match s.index.tip with
  | none => []
  | some p => lineage s.index.blocks (p + 1) (some p)

def CChainState.nChainWork (s : CChainState) (p : Nat) : BitVec 256 :=
  (s.index.blocks[p]?.map (·.nChainWork)).getD 0

section

variable (addr : Nat → Nat)

/-- `CBlockIndexWorkComparator`: does `a` come before `b`? Objects that were loaded from disk are
told apart by their addresses. -/
def comesBefore (s : CChainState) (a b : Nat) : Bool :=
  if s.nChainWork b < s.nChainWork a then false
  else if s.nChainWork a < s.nChainWork b then true
  else if s.nSequenceId a < s.nSequenceId b then false
  else if s.nSequenceId b < s.nSequenceId a then true
  else addr b < addr a

def lastCandidate (s : CChainState) : Option Nat :=
  s.setBlockIndexCandidates.foldl (fun best c =>
    match best with
    | none => some c
    | some b => if comesBefore addr s b c then some c else some b) none

/-- The first block that is not usable on the way from a candidate to the active chain, in at most
`n` steps. -/
def testChain (s : CChainState) : Nat → Option Nat → Verdict (Option Nat)
  | _, none => .ok none
  | 0, some _ => .error (.throws "FindMostWorkChain: pindexTest")
  | n + 1, some p =>
    if p ∈ activeChain s then .ok none
    else do
      let e ← s.entry p
      rejectIf (s.nChainTx p = 0 ∧ e.nHeight ≠ 0) (.throws "FindMostWorkChain: nChainTx")
      if e.failed || !e.haveData then pure (some p) else testChain s n e.pprev

/-- Remove the blocks from `p` down to `pindexTest` from the candidates, at most `n` above it. Those
above `pindexTest` are marked as its descendants when it has failed, and wait for their parents when
it has no data. -/
def dropBranch (fFailedChain duplicateStake : Bool) (pindexTest : Nat) :
    Nat → Nat → CChainState → Verdict CChainState
  | 0, p, s =>
    if p = pindexTest then .ok (s.eraseCandidate p) else .error (.throws "null block index")
  | n + 1, p, s =>
    if p = pindexTest then .ok (s.eraseCandidate p)
    else do
      let e ← s.entry p
      let q ← orReject e.pprev (.throws "null block index")
      let t :=
        if fFailedChain then
          s.update p fun e =>
            { e with failedChild := true, duplicateStake := e.duplicateStake || duplicateStake }
        else { s with mapBlocksUnlinked := s.mapBlocksUnlinked ++ [(q, p)] }
      dropBranch fFailedChain duplicateStake pindexTest n q (t.eraseCandidate p)

def findMostWork : Nat → CChainState → Verdict (Option Nat × CChainState)
  | 0, _ => .error (.throws "FindMostWorkChain")
  | n + 1, s =>
    match lastCandidate addr s with
    | none => .ok (none, s)
    | some pindexNew => do
      let bad ← testChain s (pindexNew + 1) (some pindexNew)
      match bad with
      | none => pure (some pindexNew, s)
      | some pindexTest => do
        let e ← s.entry pindexTest
        let t ← dropBranch e.failed e.duplicateStake pindexTest (pindexNew + 1) pindexNew s
        findMostWork n t

def findMostWorkChain (s : CChainState) : Verdict (Option Nat × CChainState) :=
  findMostWork addr (s.setBlockIndexCandidates.length + 1) s

def pruneBlockIndexCandidates (s : CChainState) : Verdict CChainState := do
  let tip ← orReject s.index.tip (.throws "null block index")
  let left := s.setBlockIndexCandidates.filter fun c => !comesBefore addr s c tip
  rejectIf (left = []) (.throws "PruneBlockIndexCandidates: setBlockIndexCandidates")
  pure { s with setBlockIndexCandidates := left }

def competes (s : CChainState) (p : Nat) : Bool :=
  match s.index.tip with
  | none => true
  | some tip => !comesBefore addr s p tip

def link (p : Nat) (e : IndexEntry) (s : CChainState) : CChainState :=
  let linked := { s with
    nChainTx := Function.update s.nChainTx p
      ((e.pprev.map s.nChainTx).getD 0 + BitVec.ofNat 32 e.nTx)
    nSequenceId := Function.update s.nSequenceId p s.nBlockSequenceId
    nBlockSequenceId := s.nBlockSequenceId + 1 }
  if competes addr linked p then linked.insertCandidate p else linked

def waitingFor (s : CChainState) (p : Nat) : List Nat :=
  (s.mapBlocksUnlinked.filter fun x => x.1 = p).map (·.2)

def linkQueue : Nat → List Nat → CChainState → Verdict CChainState
  | _, [], s => .ok s
  | 0, _ :: _, _ => .error (.throws "ReceivedBlockTransactions: queue")
  | n + 1, p :: queue, s => do
    let e ← s.entry p
    let t := link addr p e s
    linkQueue n (queue ++ waitingFor t p)
      { t with mapBlocksUnlinked := t.mapBlocksUnlinked.filter fun x => x.1 ≠ p }

def storeData (nTx p : Nat) (s : CChainState) : CChainState :=
  { s.update p fun e =>
      { e with nTx := nTx, haveData := true }.raiseValidity BLOCK_VALID_TRANSACTIONS with
    nChainTx := Function.update s.nChainTx p 0 }

def receivedBlockTransactions (nTx p : Nat) (s : CChainState) : Verdict CChainState := do
  let t := storeData nTx p s
  let e ← t.entry p
  match e.pprev with
  | none => linkQueue addr (t.mapBlocksUnlinked.length + 1) [p] t
  | some q =>
    if t.nChainTx q ≠ 0 then linkQueue addr (t.mapBlocksUnlinked.length + 1) [p] t
    else do
      let prev ← t.entry q
      if prev.isValid BLOCK_VALID_TREE then
        pure { t with mapBlocksUnlinked := t.mapBlocksUnlinked ++ [(q, p)] }
      else pure t

def invalidBlockFound (p : Nat) (reject : Reject) : ChainCall Unit := do
  onIndex (NewBlocks.invalidBlockFound p reject)
  if corruptionPossible reject then pure () else write fun s => s.eraseCandidate p

def eligible (s : CChainState) (p : Nat) : Bool :=
  match s.index.blocks[p]? with
  | none => false
  | some e => s.index.mapBlockIndex e.hashBlock = some p && e.isValid BLOCK_VALID_TRANSACTIONS &&
      s.nChainTx p ≠ 0 && competes addr s p

/-- Take a block and its successors out of the active chain, where every `DisconnectTip` succeeds,
and mark the successors. -/
def leaveChain (p : Nat) (s : CChainState) : Verdict CChainState := do
  let e ← s.entry p
  if p ∈ activeChain s then do
    let tip ← orReject s.index.tip (.throws "null block index")
    dropBranch true false p (tip + 1) tip (s.setTip e.pprev)
  else pure (s.eraseCandidate p)

def markInvalid (p : Nat) (s : CChainState) : CChainState :=
  { s with index := { s.index.update p fun e => { e with failedValid := true } with
      failedBlocks :=
        if p ∈ s.index.failedBlocks then s.index.failedBlocks else s.index.failedBlocks ++ [p] } }

def invalidateBlock (p : Nat) (s : CChainState) : Verdict CChainState := do
  let t ← leaveChain p s
  rejectIf (t.index.tip = none) (.throws "InvalidChainFound: tip")
  let u := markInvalid p t
  pure (((List.range u.index.blocks.length).filter (eligible addr u)).foldl
    CChainState.insertCandidate u)

/-- `ConnectTip`, where `result` is what `ConnectBlock` says, and the step of
`ActivateBestChainStep` after it. -/
def connectTip (p : Nat) (result : Verdict Unit) : ChainCall Unit := do
  let s ← read
  let e ← lift (s.entry p)
  lift (rejectIf (e.pprev ≠ s.index.tip) (.throws "ConnectTip: pprev"))
  lift (rejectIf (e.haveData = false) (.error "Failed to read block"))
  match result with
  | .ok _ => do
    write fun s => (s.update p fun e => e.raiseValidity BLOCK_VALID_SCRIPTS).setTip (some p)
    change (pruneBlockIndexCandidates addr)
  | .error reject =>
    if isInvalid reject then do
      invalidBlockFound p reject
      fail reject
    else fail reject

def disconnectTip (s : CChainState) : Verdict CChainState := do
  let p ← orReject s.index.tip (.throws "DisconnectTip: pindexDelete")
  let e ← s.entry p
  pure (s.setTip e.pprev)

variable (E : Env) (H : HeaderParams)

structure Arrival where
  process : Process
  header : CBlockHeader
  nTx : Nat
  checkBlock : Verdict Unit
  /-- The block was asked for or is good enough without, and it has not to wait for its parent. -/
  wanted : Bool
  /-- The checks that `AcceptBlock` makes after the header. -/
  checkContext : Verdict Unit

def acceptBlock (a : Arrival) : ChainCall Unit := do
  let p ← onIndex (acceptBlockHeader (withProcess E a.process) H ⟨false, true, true⟩ a.header)
  let s ← read
  let e ← lift (s.entry p)
  if e.haveData || !a.wanted then pure ()
  else
    match a.checkContext with
    | .error reject =>
      if isInvalid reject && !corruptionPossible reject then do
        write fun s => s.update p fun e => { e with failedValid := true }
        fail reject
      else fail reject
    | .ok _ => change (receivedBlockTransactions addr a.nTx p)

def processNewBlock (a : Arrival) : ChainCall Unit := do
  let r ← attempt do
    lift a.checkBlock
    acceptBlock addr E H a
  match r with
  | .ok _ => pure ()
  | .error (.throws what) => fail (.throws what)
  | .error reject => do
    let p ← onIndex (addToBlockIndex E a.header)
    invalidBlockFound p reject
    fail reject

inductive Event
  | header (process : Process) (peer : Peer) (block : CBlockHeader)
  | block (a : Arrival)
  | invalidate (p : Nat)
  | connect (p : Nat) (result : Verdict Unit)
  | disconnect
  | find

def eventCall : Event → ChainCall Unit
  | .header process peer block => do
    let _ ← onIndex (acceptBlockHeader (withProcess E process) H peer block)
    pure ()
  | .block a => processNewBlock addr E H a
  | .invalidate p => change (invalidateBlock addr p)
  | .connect p result => connectTip addr p result
  | .disconnect => change disconnectTip
  | .find => change fun s => (findMostWorkChain addr s).map (·.2)

def step (s : CChainState) (event : Event) : Verdict CChainState :=
  match eventCall addr E H event s with
  | (.error (.throws what), _) => .error (.throws what)
  | (_, t) => .ok t

end

end Candidates
