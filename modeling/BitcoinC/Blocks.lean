import BitcoinC.Kernel

/-!
# Block checks

The checks on a block before it is connected: `CheckBlock` needs the block alone,
`ContextualCheckBlock` also its predecessors. `CheckAirdropCoinbase` and the stake
reward of `chainparams.cpp` are here as well.
-/

namespace Blocks

open Primitives Encoding Scripts Environment Verdicts TxVerify Kernel

def FUTURE_DRIFT : Int := 15

def isProofOfStake (b : CBlock) : Bool := b.vtx.head?.any fun tx => tx.isCoinStake

section

variable (E : Env)

def merkleLevel : List Uint256 → List Uint256
  | [] => []
  | [h] => [E.hash256 (hashBytes h ++ hashBytes h)]
  | h :: h' :: hs => E.hash256 (hashBytes h ++ hashBytes h') :: merkleLevel hs

def levelMutated : List Uint256 → Bool
  | h :: h' :: hs => h = h' || levelMutated hs
  | _ => false

def merkleLoop : Nat → List Uint256 → Bool → Uint256 × Bool
  | n + 1, h :: h' :: hs, mutation =>
    merkleLoop n (merkleLevel E (h :: h' :: hs)) (mutation || levelMutated (h :: h' :: hs))
  | _, hashes, mutation => (hashes.headD 0, mutation)

def computeMerkleRoot (hashes : List Uint256) : Uint256 × Bool :=
  merkleLoop E hashes.length hashes false

def blockMerkleRoot (b : CBlock) : Uint256 × Bool := computeMerkleRoot E (b.vtx.map E.txHash)

def blockWitnessMerkleRoot (b : CBlock) : Uint256 × Bool :=
  if b.header.nVersion = BITCOINC_BLOCK_VERSION then computeMerkleRoot E (b.vtx.map E.witnessHash)
  else computeMerkleRoot E (0 :: b.vtx.tail.map E.witnessHash)

def checkBlockHeader (h : CBlockHeader) : Verdict Unit := do
  rejectIf (h.nVersion ≠ BITCOINC_BLOCK_VERSION) (.dos 100 REJECT_INVALID "block-version")
  rejectIf (h.hashPrevBlock ≠ 0 ∧ E.nAdjustedTime + FUTURE_DRIFT < h.nTime.toNat)
    (.dos 50 REJECT_INVALID "block-timestamp")

def checkBlockSignature (b : CBlock) : Bool :=
  if isProofOfStake b then
    match b.vtx.head?.bind (·.vin.head?) with
    | some txin =>
      match txin.scriptWitness with
      | [_, key] => !b.vchBlockSig.isEmpty && key.length = 33 &&
          E.pubKeyVerify key (E.blockHash b) b.vchBlockSig
      | _ => false
    | none => false
  else b.vchBlockSig.isEmpty

def blockSigOpCount (b : CBlock) : Nat :=
  ((b.vtx.zipIdx.filter fun x => ¬ (0 < x.2 ∧ x.1.isCoinBase)).map
    fun x => getLegacySigOpCount x.1).sum

def fBulletproofsActive (b : CBlock) : Bool := E.bulletproofTime ≤ b.header.nTime.toNat

def checkBlock (fCheckMerkleRoot : Bool) (b : CBlock) : Verdict Unit := do
  checkBlockHeader E b.header
  rejectIf (fCheckMerkleRoot ∧ b.header.hashMerkleRoot ≠ (blockMerkleRoot E b).1)
    (.dos 100 REJECT_INVALID "bad-txnmrklroot" true)
  rejectIf (fCheckMerkleRoot ∧ (blockMerkleRoot E b).2)
    (.dos 100 REJECT_INVALID "bad-txns-duplicate" true)
  rejectIf (b.vtx = [] ∨ MAX_BLOCK_WEIGHT < b.vtx.length * WITNESS_SCALE_FACTOR ∨
      MAX_BLOCK_WEIGHT < (serializeBlock false b).length * WITNESS_SCALE_FACTOR)
    (.dos 100 REJECT_INVALID "bad-blk-length")
  rejectIf (¬ b.vtx.head?.any fun tx => tx.isCoinBase ∨ tx.isCoinStake)
    (.dos 100 REJECT_INVALID "bad-cb-missing")
  rejectIf (b.vtx.tail.any fun tx => tx.isCoinStake) (.dos 100 REJECT_INVALID "bad-cb-multiple")
  rejectIf (checkBlockSignature E b = false) (.dos 100 REJECT_INVALID "bad-block-signature")
  checkEach (fun tx => checkTransaction E (fBulletproofsActive E b) tx true) b.vtx
  rejectIf (MAX_BLOCK_SIGOPS_COST < blockSigOpCount b * WITNESS_SCALE_FACTOR)
    (.dos 100 REJECT_INVALID "bad-blk-sigops")

/-- A block accepted by `CheckBlock` starts with a coinbase or coinstake, has no other coinstake,
and its transactions pass `CheckTransaction`. -/
lemma checkBlock_ok (fCheckMerkleRoot : Bool) (b : CBlock) (r : Unit)
    (h : checkBlock E fCheckMerkleRoot b = .ok r) :
    (∃ tx txs, b.vtx = tx :: txs ∧ (tx.isCoinBase ∨ tx.isCoinStake) ∧ ∀ t ∈ txs, ¬ t.isCoinStake) ∧
      ∀ tx ∈ b.vtx, checkTransaction E (fBulletproofsActive E b) tx true = .ok () := by
  simp only [checkBlock, bind_ok_iff, rejectIf_ok_iff, checkEach_ok_iff] at h
  obtain ⟨-, -, -, -, -, -, -, -, -, hfirst, -, hlater, -, -, -, htxs, -⟩ := h
  refine ⟨?_, htxs⟩
  cases hvtx : b.vtx with
  | nil => simp [hvtx] at hfirst
  | cons tx txs =>
    refine ⟨tx, txs, rfl, ?_, by simpa [hvtx] using hlater⟩
    simpa [hvtx, or_iff_not_imp_left] using hfirst

def countAirdrop (b : CBlock) (nHeight : Nat) (s : Nat × Nat) (cth : CImportedCoinbaseTxn) :
    Verdict (Nat × Nat) :=
  if cth.nHeight ≠ nHeight then .ok s
  else do
    let nTx := (b.vtx.filter fun tx => E.txHash tx = cth.hash ∧ tx.isCoinBase).length
    rejectIf (nTx = 0) (.error "Airdrop tx missing")
    pure (s.1 + 1, s.2 + nTx)

def checkAirdropCoinbase (b : CBlock) (nHeight : Nat) : Bool :=
  match loop (countAirdrop E b nHeight) (0, 0) E.vImportedCoinbaseTxns with
  | .ok s => s.2 = s.1
  | .error _ => false

def getCoinYearReward (nTime : Int) : Int :=
  let nYearsSinceGenesis := (nTime - E.genesisTime).tdiv (365 * 24 * 60 * 60)
  if E.isRegtest = true then E.nCoinYearReward
  else if 0 ≤ nYearsSinceGenesis ∧ nYearsSinceGenesis < 5 then (5 - nYearsSinceGenesis) * CENT
  else if 5 ≤ nYearsSinceGenesis ∧ nYearsSinceGenesis < 10 then CENT
  else if 10 ≤ nYearsSinceGenesis ∧ nYearsSinceGenesis < 15 then CENT / 2
  else if 15 ≤ nYearsSinceGenesis ∧ nYearsSinceGenesis < 25 then CENT / 5
  else if 25 ≤ nYearsSinceGenesis ∧ nYearsSinceGenesis < 50 then CENT / 10
  else E.nCoinYearReward

def getProofOfStakeReward (pindexPrev : CBlockIndex) (nFees : Int) : Int :=
  let nSubsidy := (pindexPrev.nMoneySupply.tdiv COIN * getCoinYearReward E
    pindexPrev.nTime.toNat).tdiv (365 * 24 * (60 * 60 / E.nTargetSpacing) : Nat)
  (if (pindexPrev.nHeight : Int) < E.nLaunchPhaseEndHeight then E.launchPhaseReward nSubsidy
    else nSubsidy) + nFees

def getCoinStakeHeight (tx : CTransaction) : Option Int :=
  match tx.vpout with
  | .data p :: _ :: _ =>
    if p.vData.length < 4 then none else some (Int.bmod (readLE (p.vData.take 4)) (2 ^ 32))
  | _ => none

/-- `CScriptNum::serialize` of a natural number: little endian, with room for the sign bit. -/
def scriptNum (n : Nat) : Bytes :=
  let bytes := leBytes ((Nat.log2 n) / 8 + 1) n
  if n = 0 then [] else if 0x80 ≤ bytes.getLastD 0 then bytes ++ [0] else bytes

def heightScript (nHeight : Nat) : Bytes :=
  OP_RETURN ::
    if nHeight = 0 then [0]
    else if nHeight ≤ 16 then [UInt8.ofNat (0x50 + nHeight)]
    else UInt8.ofNat (scriptNum nHeight).length :: scriptNum nHeight

def checkProofOfWork (hash : Uint256) (nBits : UInt32) (nBlockHeight : Nat) : Bool :=
  let nMin : BitVec 256 := BitVec.allOnes 256 >>> 8
  let nStep := (E.powLimit - nMin) / BitVec.ofNat 256 E.nLastImportHeight
  let limit := if nBlockHeight < E.nLastImportHeight
    then nMin + nStep * BitVec.ofNat 256 nBlockHeight else E.powLimit
  let target := setCompact nBits
  !target.2.1 && target.1 ≠ 0 && !target.2.2 && target.1 ≤ limit && hash ≤ target.1

variable (G : NodeState)

/-- The rules of a proof-of-stake block: the shape, height and time of its coinstake and the stake
itself, which waits for `ConnectBlock` during the initial download and near the start. -/
def checkStakeBlock (branch : List CBlockIndex) (b : CBlock) (accept_block : Bool) (nHeight : Nat) :
    Verdict Unit := do
  let coinstake ← orReject b.vtx.head? (.throws "ContextualCheckBlock: vtx[0]")
  rejectIf (E.OpIsCoinstakeTime ≤ ((branch.head?.map fun p => p.nTime.toNat).getD 0 : Nat) ∧
      6 < coinstake.vpout.length)
    (.dos 100 REJECT_INVALID "bad-cs-outputs")
  let i ← orReject (getCoinStakeHeight coinstake) (.dos 100 REJECT_INVALID "bad-cs-malformed")
  rejectIf (i ≠ nHeight) (.dos 100 REJECT_INVALID "bad-cs-height")
  rejectIf ((blockWitnessMerkleRoot E b).1 ≠ b.header.hashWitnessMerkleRoot)
    (.dos 100 REJECT_INVALID "bad-witness-merkle-match" true)
  rejectIf (b.header.nTime.toNat &&& E.nStakeTimestampMask ≠ 0)
    (.dos 50 REJECT_INVALID "bad-coinstake-time" true)
  let pindexPrev ← orReject branch.head? (.throws "ContextualCheckBlock: pindexPrev")
  rejectIf (b.header.nTime ≤ pindexPrev.nTime ∨
      (b.header.nTime.toNat : Int) + FUTURE_DRIFT < pindexPrev.nTime.toNat)
    (.dos 50 REJECT_INVALID "bad-block-time" true)
  if E.isInitialBlockDownload = false ∧
      (accept_block = false ∨ (E.nStakeMinConfirmations : Int) < (G.chainActive.length : Int) - 1)
  then checkProofOfStake E G branch coinstake b.header.nTime b.header.nBits
  else pure ()

def checkWorkBlock (b : CBlock) (nHeight : Nat) : Verdict Unit := do
  rejectIf (checkProofOfWork E (E.blockHash b) b.header.nBits nHeight = false)
    (.dos 50 REJECT_INVALID "high-hash")
  let txin ← orReject (b.vtx.head?.bind (·.vin.head?)) (.throws "ContextualCheckBlock: vtx[0]")
  rejectIf (¬ (heightScript nHeight).IsSuffix txin.scriptSig)
    (.dos 100 REJECT_INVALID "bad-cb-height")

def checkProof (branch : List CBlockIndex) (b : CBlock) (accept_block : Bool) (nHeight : Nat) :
    Verdict Unit :=
  if isProofOfStake b then checkStakeBlock E G branch b accept_block nHeight
  else checkWorkBlock E b nHeight

def checkCoinbases (b : CBlock) (nHeight : Nat) : Verdict Unit :=
  if 0 < nHeight ∧ nHeight ≤ E.nLastImportHeight then
    rejectIf (checkAirdropCoinbase E b nHeight = false) (.dos 100 REJECT_INVALID "bad-cb")
  else
    rejectIf (b.vtx.tail.any fun tx => tx.isCoinBase) (.dos 100 REJECT_INVALID "bad-cb-multiple")

def nextHeight : List CBlockIndex → Nat
  | [] => 0
  | p :: _ => p.nHeight + 1

def getBlockWeight (b : CBlock) : Nat :=
  (serializeBlock false b).length * (WITNESS_SCALE_FACTOR - 1) + (serializeBlock true b).length

def contextualCheckBlock (branch : List CBlockIndex) (b : CBlock) (accept_block : Bool) :
    Verdict Unit := do
  let nLockTimeCutoff := if branch = [] then (b.header.nTime.toNat : Int)
    else getMedianTimePast branch
  rejectIf (∃ tx ∈ b.vtx, ¬ isFinalTx tx (nextHeight branch) nLockTimeCutoff)
    (.dos 10 REJECT_INVALID "bad-txns-nonfinal")
  checkProof E G branch b accept_block (nextHeight branch)
  rejectIf (0 < nextHeight branch ∧ isProofOfStake b = false)
    (.dos 100 REJECT_INVALID "bad-cs-missing")
  checkCoinbases E b (nextHeight branch)
  rejectIf (MAX_BLOCK_WEIGHT < getBlockWeight b) (.dos 100 REJECT_INVALID "bad-blk-weight")

lemma contextualCheckBlock_ok (branch : List CBlockIndex) (b : CBlock) (accept_block : Bool)
    (r : Unit) (h : contextualCheckBlock E G branch b accept_block = .ok r) :
    (0 < nextHeight branch → isProofOfStake b = true) ∧
      checkCoinbases E b (nextHeight branch) = .ok () := by
  simp only [contextualCheckBlock, bind_ok_iff, rejectIf_ok_iff] at h
  obtain ⟨-, -, -, -, -, hstake, u, hcoinbases, -⟩ := h
  refine ⟨?_, hcoinbases⟩
  intro hheight
  simpa [hheight] using hstake

end

end Blocks
