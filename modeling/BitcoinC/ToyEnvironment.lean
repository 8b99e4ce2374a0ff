import BitcoinC.ChainRun
import BitcoinC.RowMajor

/-!
# A concrete environment

A small instance of the environment in which every operation computes.
-/

namespace ToyEnvironment

open Primitives Encoding Scripts Environment TxVerify Anon Kernel Blocks ChainRun

def OP_TRUE : UInt8 := 0x51

def polyHash (bs : Bytes) : Nat := bs.foldl (fun h b => (h * 257 + b.toNat + 1) % 2 ^ 61) 0

def hash160 (bs : Bytes) : Uint160 := BitVec.ofNat 160 (polyHash bs)

def p2pkh (keyID : Uint160) : Bytes :=
  [OP_DUP, OP_HASH160, 0x14] ++ keyIDBytes keyID ++ [OP_EQUALVERIFY, OP_CHECKSIG]

def lastRow (nCols nRows : Nat) (inCommits outCommits : List Commitment) : List Commitment :=
  (List.range nCols).map fun i =>
    (RowMajor.column nCols (nRows - 1) i inCommits).sum - outCommits.sum

def verifyScript (check : CScriptCheck) : Option String :=
  let s := check.scriptPubKey
  let witness := (check.txTo.vin[check.nIn]?.map (·.scriptWitness)).getD []
  let keyHash := hash160 (witness.getD 1 [])
  if s = [OP_TRUE] ∨
      (isPayToPublicKeyHash s = true ∧ keyIDAt s 3 = keyHash) ∨
      (isPayToPublicKeyHash256CS s = true ∧ check.txTo.isCoinStake ∧ keyIDAt s 5 = keyHash) then
    none
  else some "Script evaluated without error but finished with a false/empty top stack element"

def crypto : Crypto where
  hash256 bs := BitVec.ofNat 256 (polyHash bs)
  sha256 bs := BitVec.ofNat 256 (polyHash bs)
  hash160 := hash160
  keyIDOf256 h := h.setWidth 160
  ecdsaRecover _ sig := some (sig.take 33)
  pubKeyVerify _ _ _ := true
  rangeproofVerify c _ := c.toNat < 2 ^ 64
  bulletproofVerify c _ := c.toNat < 2 ^ 64
  pedersenCommit v := some (BitVec.ofNat 264 v)
  prepareMLSAG nCols nRows inCommits outCommits := .ok (lastRow nCols nRows inCommits outCommits)
  verifyMLSAG _ nCols nRows vM _ _ _ := if (vM.drop (nCols * (nRows - 1))).any (· = 0) then 0 else 1
  pedersenVerifyTally inCommits outCommits := inCommits.sum = outCommits.sum
  verifyScript := verifyScript
  inputSigOpCost _ _ _ := 0

def params : ChainParams where
  hashGenesisBlock := 0
  powLimit := BitVec.allOnes 256
  OpIsCoinstakeTime := 0
  fAllowOpIsCoinstakeWithP2PKH := true
  csp2shHeight := 0
  bulletproofTime := 0
  isRegtest := true
  genesisTime := 0
  nCoinYearReward := 0
  nTargetSpacing := 120
  nStakeMinConfirmations := 1
  nStakeTimestampMask := 0
  nLaunchPhaseEndHeight := 0
  launchPhaseReward := id
  vImportedCoinbaseTxns := []
  vDevFundSettings := [(-1, ⟨none, none, 0, 1⟩)]

def process : Process where
  nAdjustedTime := 1000
  fBusyImporting := false
  fSkipRangeproof := false
  fVerifyingDB := false
  isInitialBlockDownload := false
  nScriptCheckThreads := 0
  scriptExecutionCacheNonce := []
  uninitIndex _ _ := 0
  uninitCommitment _ := 0

def env : Env := { crypto, params, process with }

def spend (hash : Uint256) (n : UInt32) : CTxIn := { prevout := ⟨hash, n⟩ }

def feeOutput (fee : UInt8) : CTxOutBase := .data ⟨[DO_FEE, fee]⟩

def ringOutput (pk : CCmpPubKey) (v : Nat) (fConvert : Bool) : CTxOutBase :=
  .ringCT
    { pk := pk
      vData := List.replicate 33 0
      commitment := BitVec.ofNat 264 v
      vRangeproof := []
      vecSignature := if fConvert then keyBytes pk ++ List.replicate 32 0 else [] }

def ringKey (n : Nat) : CCmpPubKey := BitVec.ofNat 264 (256 * n + 2)

def keyOutput (key : CCmpPubKey) (nValue : Int) : CTxOutBase :=
  .standard
    { nValue := nValue
      scriptPubKey := p2pkh (hash160 (keyBytes key))
      vecSignature := keyBytes key ++ List.replicate 32 0 }

def spendBy3 (hash : Uint256) (n : UInt32) : CTxIn :=
  { spend hash n with scriptWitness := [[1], keyBytes 3] }

def stake (kernel : Uint256) (n : UInt32) (nHeight : UInt8) (vpout : List CTxOutBase) :
    CTransaction :=
  { nVersion := 0x2A0
    vin := [spendBy3 kernel n]
    vpout := .data ⟨[nHeight, 0, 0, 0]⟩ :: vpout }

def ringSpend (keyImage : CCmpPubKey) : CTxIn :=
  { prevout := ⟨1 + 3 * 2 ^ 32, COutPoint.ANON_MARKER⟩
    scriptData := [keyBytes keyImage]
    scriptWitness := [[1, 2, 3], List.replicate 224 0] }

/-- A transaction that spends the first three RingCT outputs and pays one of its own. -/
def ringTx (n : Nat) : CTransaction :=
  { nVersion := 0xA0
    vin := [ringSpend 77]
    vpout := [feeOutput 5, ringOutput (ringKey n) 95 false] }

def mine (E : Env) (prev : CBlockIndex) (vtx : List CTransaction) : CBlock :=
  let header : CBlockHeader :=
    { nVersion := BITCOINC_BLOCK_VERSION
      hashPrevBlock := prev.hashBlock
      hashMerkleRoot := 0
      hashWitnessMerkleRoot := 0
      nTime := prev.nTime + 100
      nBits := 0x1f00ffff
      nNonce := 0 }
  let b : CBlock := ⟨header, vtx, [1]⟩
  { b with header := { header with
      hashMerkleRoot := (blockMerkleRoot E b).1
      hashWitnessMerkleRoot := (blockWitnessMerkleRoot E b).1 } }

def indexOf (E : Env) (prev : CBlockIndex) (b : CBlock) : CBlockIndex :=
  { hashBlock := E.blockHash b
    nHeight := prev.nHeight + 1
    nTime := b.header.nTime
    nBits := b.header.nBits }

/-- A node whose active chain is `branch`, with nothing in the mempool, the cache or on disk. -/
def node (branch : List CBlockIndex) (coins : CoinMap) (db : CBlockTreeDB) : NodeState where
  chainActive := branch
  coinsTip := coins
  db := db
  mempool := .empty
  scriptCache _ := false
  txOnDisk _ := none
  coinStakeOf _ := none

def genesisIndex : CBlockIndex :=
  { hashBlock := 1, nHeight := 0, nTime := 100, nBits := 0x1f00ffff, bnStakeModifier := 5 }

def genesisTx : CTransaction :=
  { nVersion := 0x1A0
    vin := [{ prevout := ⟨0, 0xffffffff⟩, scriptSig := [1, 1] }]
    vpout := List.replicate 4 (keyOutput 3 1000) }

def genesisHash : Uint256 := env.txHash genesisTx

def genesisBlock : CBlock :=
  { header :=
      { nVersion := BITCOINC_BLOCK_VERSION
        hashPrevBlock := 0
        hashMerkleRoot := genesisHash
        hashWitnessMerkleRoot := 0
        nTime := 100
        nBits := 0x1f00ffff
        nNonce := 0 }
    vtx := [genesisTx] }

def chainEnv : Env := { env with hashGenesisBlock := env.blockHash genesisBlock }

def genesisEntry : CBlockIndex :=
  { hashBlock := chainEnv.blockHash genesisBlock, nHeight := 0, nTime := 100, nBits := 0x1f00ffff }

def quiet : Surroundings where
  process := process
  mempool := .empty
  scriptCache _ := false
  txOnDisk _ := none
  coinStakeOf _ := none
  fScriptChecks := true
  notVerifying := rfl

def genesisStep : ConnectStep := ⟨quiet, genesisBlock, genesisEntry⟩

def stepOn (prev : CBlockIndex) (vtx : List CTransaction) : ConnectStep :=
  ⟨quiet, mine chainEnv prev vtx, indexOf chainEnv prev (mine chainEnv prev vtx)⟩

def convertTx : CTransaction :=
  { nVersion := 0xA0
    vin := [spendBy3 genesisHash 1]
    vpout := [feeOutput 5, ringOutput (ringKey 11) 100 true, ringOutput (ringKey 12) 100 true,
      ringOutput (ringKey 13) 795 true] }

def convertStep : ConnectStep :=
  stepOn genesisEntry [stake genesisHash 0 1 [keyOutput 3 1005], convertTx]

end ToyEnvironment
