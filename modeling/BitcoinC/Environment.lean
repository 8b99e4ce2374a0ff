import BitcoinC.Scripts
import BitcoinC.Verdicts

/-!
# What validation reads besides its arguments

Hash functions, secp256k1 operations, the script interpreter and the chain
parameters are fields of one environment, so that a statement about a validator
holds for every choice of them.
-/

namespace Environment

open Primitives Encoding

/-- `CValidationState` after a failed check, or a failure that leaves it unset: `error` is
a plain `return false`, `throws` an exception or a failed assertion. -/
inductive Reject
  | dos (nDoS : Nat) (chRejectCode : UInt8) (strRejectReason : String)
      (corruptionPossible : Bool := false)
  | error (what : String)
  | throws (what : String)
  deriving DecidableEq

abbrev Verdict := Except Reject

def REJECT_MALFORMED : UInt8 := 0x01
def REJECT_INVALID : UInt8 := 0x10
def REJECT_NONSTANDARD : UInt8 := 0x40

structure CScriptCheck where
  scriptPubKey : Bytes
  vchAmount : Bytes
  txTo : CTransaction
  nIn : Nat
  nFlags : UInt32
  deriving DecidableEq

/-- One ring signature: the matrix of ring keys row by row, the commitments of the ring
members in the same order, the commitments of the outputs, the key images and the
signature. -/
structure RingStatement where
  txhash : Uint256
  nCols : Nat
  nRows : Nat
  vM : List CCmpPubKey
  inCommits : List Commitment
  outCommits : List Commitment
  keyImages : List CCmpPubKey
  pc : Bytes
  ps : Bytes

/-- Hashes and curve operations. `prepareMLSAG` is the return code of
`secp256k1_prepare_mlsag` and the last matrix row it computes; a verification returns 0
when it succeeds, the tally 1. -/
structure Crypto where
  hash256 : Bytes → Uint256
  sha256 : Bytes → Uint256
  hash160 : Bytes → Uint160
  keyIDOf256 : Uint256 → Uint160
  ecdsaRecover : Uint256 → Bytes → Option Bytes
  pubKeyVerify : Bytes → Uint256 → Bytes → Bool
  rangeproofVerify : Commitment → Bytes → Bool
  bulletproofVerify : Commitment → Bytes → Bool
  pedersenCommit : Nat → Option Commitment
  prepareMLSAG : Nat → Nat → List Commitment → List Commitment → Except Nat (List CCmpPubKey)
  verifyMLSAG : Uint256 → Nat → Nat → List CCmpPubKey → List CCmpPubKey → Bytes → Bytes → Nat
  pedersenVerifyTally : List Commitment → List Commitment → Bool
  /-- `VerifyScript`: the text of the script error, if any. -/
  verifyScript : CScriptCheck → Option String
  /-- The part of `GetTransactionSigOpCost` that reads the spent scripts. -/
  inputSigOpCost : CTransaction → (COutPoint → Option Coin) → UInt32 → Nat

structure DevFundSettings where
  /-- The key id and the script of the address, when it decodes to them. -/
  keyID : Option Uint160
  scriptPubKey : Option Bytes
  nMinDevStakePercent : Int
  nDevOutputPeriod : Int

structure CImportedCoinbaseTxn where
  nHeight : Nat
  hash : Uint256
  deriving DecidableEq

structure ChainParams where
  hashGenesisBlock : Uint256
  powLimit : Uint256
  OpIsCoinstakeTime : Int
  fAllowOpIsCoinstakeWithP2PKH : Bool
  csp2shHeight : Nat
  bulletproofTime : Nat
  isRegtest : Bool
  genesisTime : Int
  nCoinYearReward : Int
  nTargetSpacing : Nat
  nStakeMinConfirmations : Nat
  nStakeTimestampMask : Nat
  nLaunchPhaseEndHeight : Int
  /-- The `double` multiplication by the launch phase ratio, truncated back. -/
  launchPhaseReward : Int → Int
  vImportedCoinbaseTxns : List CImportedCoinbaseTxn
  vDevFundSettings : List (Int × DevFundSettings)

structure Process where
  nAdjustedTime : Int
  fBusyImporting : Bool
  fSkipRangeproof : Bool
  fVerifyingDB : Bool
  isInitialBlockDownload : Bool
  nScriptCheckThreads : Nat
  scriptExecutionCacheNonce : Bytes
  /-- The value an uninitialised `int64_t nIndex` happens to have. -/
  uninitIndex : Uint256 → Nat → Int
  /-- The bytes an uninitialised commitment happens to have. -/
  uninitCommitment : Uint256 → Commitment

structure Env extends Crypto, ChainParams, Process

namespace Env

variable (E : Env)

def txHash (tx : CTransaction) : Uint256 := E.hash256 (serializeTransaction false tx)

def witnessHash (tx : CTransaction) : Uint256 := E.hash256 (serializeTransaction true tx)

def blockHash (b : CBlock) : Uint256 := E.hash256 (serializeHeader b.header)

def recoverCompact (hash : Uint256) (sig : Bytes) : Option Bytes :=
  if sig.length = 65 then E.ecdsaRecover hash sig else none

def getID (key : Option Bytes) : Uint160 := E.hash160 (key.getD [])

def nLastImportHeight : Nat := (E.vImportedCoinbaseTxns.map (·.nHeight)).foldl max 0

def getDevFundSettings (nTime : Int) : Option DevFundSettings :=
  (E.vDevFundSettings.reverse.find? fun s => s.1 < nTime).map (·.2)

end Env

/-- An entry of the block index. `nMoneySupply` and `nAnonOutputs` are set when the block is
connected. -/
structure CBlockIndex where
  hashBlock : Uint256
  nHeight : Nat
  nTime : UInt32
  nBits : UInt32
  bnStakeModifier : Uint256 := 0
  prevoutStake : COutPoint := ⟨0, 0xffffffff⟩
  nMoneySupply : Int := 0
  nAnonOutputs : Int := 0
  deriving DecidableEq

end Environment
