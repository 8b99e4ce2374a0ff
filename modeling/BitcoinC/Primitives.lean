import Mathlib

/-!
# Transactions, coins and blocks

The data types of `primitives/transaction.h`, `primitives/block.h`, `coins.h` and
`undo.h`.
-/

namespace Primitives

abbrev Bytes := List UInt8
abbrev Uint256 := BitVec 256
abbrev Uint160 := BitVec 160

/-- A compressed public key, a Pedersen commitment or a key image: 33 bytes. -/
abbrev CCmpPubKey := BitVec 264
abbrev Commitment := BitVec 264

def keyHeader (pk : CCmpPubKey) : Nat := pk.toNat % 256

/-- `CCmpPubKey::size`, which only the headers 2 and 3 make positive. -/
def keySize (pk : CCmpPubKey) : Nat := if keyHeader pk = 2 ∨ keyHeader pk = 3 then 33 else 0

/-- A key as `operator==` and `operator<` see it: of a key without size, the header alone. -/
def comparedKey (pk : CCmpPubKey) : CCmpPubKey :=
  if keySize pk = 33 then pk else BitVec.ofNat 264 (keyHeader pk)

/-- A key as the database has it. Of a key without size no byte is written, and a new key keeps the
header 0xFF when it is read. -/
def storedKey (pk : CCmpPubKey) : CCmpPubKey := if keySize pk = 33 then pk else 0xFF

lemma comparedKey_of_size {pk : CCmpPubKey} (h : keySize pk = 33) : comparedKey pk = pk := if_pos h

lemma storedKey_of_size {pk : CCmpPubKey} (h : keySize pk = 33) : storedKey pk = pk := if_pos h

/-- One decision procedure for hashes and keys in a list. -/
instance decidableMemBitVec {w : Nat} (a : BitVec w) (l : List (BitVec w)) : Decidable (a ∈ l) :=
  inferInstance

def COIN : Int := 100000000
def CENT : Int := 1000000
def MAX_MONEY : Int := 10000000000 * COIN

def moneyRange (nValue : Int) : Prop := 0 ≤ nValue ∧ nValue ≤ MAX_MONEY

instance (nValue : Int) : Decidable (moneyRange nValue) :=
  inferInstanceAs (Decidable (_ ∧ _))

def int64 (x : Int) : Int := Int.bmod x (2 ^ 64)

lemma int64_eq_of_bounds (x : Int) (hlo : -2 ^ 63 ≤ x) (hhi : x < 2 ^ 63) : int64 x = x := by
  unfold int64
  rw [Int.bmod_eq_of_le] <;> omega

inductive OutputTypes
  | null
  | standard
  | ct
  | ringCT
  | data
  deriving DecidableEq, Repr

def TXN_COINBASE : UInt32 := 1
def TXN_COINSTAKE : UInt32 := 2
def DO_FEE : UInt8 := 5
def BITCOINC_TXN_VERSION : UInt32 := 0xA0

structure COutPoint where
  hash : Uint256
  n : UInt32
  deriving DecidableEq

namespace COutPoint

def ANON_MARKER : UInt32 := 0xffffffa0

def isNull (o : COutPoint) : Prop := o.hash = 0 ∧ o.n = 0xffffffff

instance (o : COutPoint) : Decidable o.isNull :=
  inferInstanceAs (Decidable (_ ∧ _))

def isAnonInput (o : COutPoint) : Prop := o.n = ANON_MARKER

instance (o : COutPoint) : Decidable o.isAnonInput :=
  inferInstanceAs (Decidable (_ = _))

end COutPoint

/-- `scriptData` carries the key images of an anon input, `scriptWitness` its
ring columns and signature. -/
structure CTxIn where
  prevout : COutPoint
  scriptSig : Bytes := []
  nSequence : UInt32 := 0xffffffff
  scriptData : List Bytes := []
  scriptWitness : List Bytes := []
  deriving DecidableEq

namespace CTxIn

def isAnonInput (txin : CTxIn) : Prop := txin.prevout.isAnonInput

instance (txin : CTxIn) : Decidable txin.isAnonInput :=
  inferInstanceAs (Decidable txin.prevout.isAnonInput)

/-- `GetAnonInfo`: the number of real inputs and the ring size sit in the first
eight bytes of the outpoint hash. -/
def getAnonInfo (txin : CTxIn) : Nat × Nat :=
  (txin.prevout.hash.toNat % 2 ^ 32, txin.prevout.hash.toNat / 2 ^ 32 % 2 ^ 32)

end CTxIn

structure CTxOutStandard where
  nValue : Int
  scriptPubKey : Bytes
  vecSignature : Bytes := []
  deriving DecidableEq

structure CTxOutRingCT where
  pk : CCmpPubKey
  vData : Bytes
  commitment : Commitment
  vRangeproof : Bytes
  vecSignature : Bytes := []
  deriving DecidableEq

structure CTxOutData where
  vData : Bytes
  deriving DecidableEq

inductive CTxOutBase
  | standard (p : CTxOutStandard)
  | ringCT (p : CTxOutRingCT)
  | data (p : CTxOutData)
  deriving DecidableEq

namespace CTxOutBase

def standard? : CTxOutBase → Option CTxOutStandard
  | .standard p => some p
  | _ => none

def ringCT? : CTxOutBase → Option CTxOutRingCT
  | .ringCT p => some p
  | _ => none

def isStandardOutput (o : CTxOutBase) : Bool := o.standard?.isSome
def isRingCT (o : CTxOutBase) : Bool := o.ringCT?.isSome

end CTxOutBase

structure CTxOut where
  nValue : Int
  scriptPubKey : Bytes
  deriving DecidableEq

structure CTransaction where
  nVersion : UInt32
  nLockTime : UInt32 := 0
  vin : List CTxIn
  vout : List CTxOut := []
  vpout : List CTxOutBase
  deriving DecidableEq

namespace CTransaction

def isBitcoinCVersion (tx : CTransaction) : Prop := BITCOINC_TXN_VERSION ≤ tx.nVersion &&& 0xFF

instance (tx : CTransaction) : Decidable tx.isBitcoinCVersion :=
  inferInstanceAs (Decidable (_ ≤ _))

def getType (tx : CTransaction) : UInt32 := (tx.nVersion >>> 8) &&& 0xFF

def hasNullPrevout (tx : CTransaction) : Bool :=
  match tx.vin with
  | [txin] => txin.prevout.isNull
  | _ => false

def isCoinBase (tx : CTransaction) : Prop :=
  if tx.isBitcoinCVersion then tx.getType = TXN_COINBASE ∧ tx.hasNullPrevout
  else tx.hasNullPrevout

instance (tx : CTransaction) : Decidable tx.isCoinBase :=
  inferInstanceAs (Decidable (if tx.isBitcoinCVersion then _ else _))

def hasCoinStakeOutputs : List CTxOutBase → Bool
  | .data _ :: .standard _ :: _ => true
  | _ => false

def isCoinStake (tx : CTransaction) : Prop :=
  tx.getType = TXN_COINSTAKE ∧ tx.vin ≠ [] ∧ hasCoinStakeOutputs tx.vpout

instance (tx : CTransaction) : Decidable tx.isCoinStake :=
  inferInstanceAs (Decidable (_ ∧ _ ∧ _))

lemma not_isCoinBase_of_isCoinStake (tx : CTransaction) (hv : tx.isBitcoinCVersion)
    (h : tx.isCoinStake) : ¬ tx.isCoinBase := by
  intro hcb
  rw [isCoinBase, if_pos hv] at hcb
  have htype := h.1.symm.trans hcb.1
  exact absurd htype (by decide)

def standardOutputs (tx : CTransaction) : List CTxOutStandard := tx.vpout.filterMap (·.standard?)

def standardValues (tx : CTransaction) : List Int := tx.standardOutputs.map (·.nValue)

def ringCTOutputs (tx : CTransaction) : List CTxOutRingCT := tx.vpout.filterMap (·.ringCT?)

def anonInputs (tx : CTransaction) : List CTxIn := tx.vin.filter fun txin => txin.isAnonInput

lemma anonInputs_of_isCoinBase (tx : CTransaction) (h : tx.isCoinBase) : tx.anonInputs = [] := by
  have hnull : tx.hasNullPrevout := by
    unfold isCoinBase at h
    split at h
    · exact h.2
    · exact h
  rw [anonInputs, List.filter_eq_nil_iff]
  intro txin hmem
  unfold hasNullPrevout at hnull
  split at hnull
  · rename_i t hvin
    rw [hvin, List.mem_singleton] at hmem
    subst hmem
    have hn : txin.prevout.n = 0xffffffff := (of_decide_eq_true hnull).2
    simp [CTxIn.isAnonInput, COutPoint.isAnonInput, COutPoint.ANON_MARKER, hn]
  · cases hnull

end CTransaction

/-- `Coin::nHeight` is a 31-bit field and the spent marker is the absence of a coin. -/
structure Coin where
  out : CTxOut
  fCoinBase : Bool
  nHeight : Nat
  nType : OutputTypes := .standard
  deriving DecidableEq

structure CTxUndo where
  vprevout : List Coin
  deriving DecidableEq

structure CBlockUndo where
  vtxundo : List CTxUndo
  deriving DecidableEq

structure CBlockHeader where
  nVersion : UInt32
  hashPrevBlock : Uint256
  hashMerkleRoot : Uint256
  hashWitnessMerkleRoot : Uint256
  nTime : UInt32
  nBits : UInt32
  nNonce : UInt32
  deriving DecidableEq

structure CBlock where
  header : CBlockHeader
  vtx : List CTransaction
  vchBlockSig : Bytes := []
  deriving DecidableEq

structure CAnonOutput where
  pubkey : CCmpPubKey
  commitment : Commitment
  outpoint : COutPoint
  nBlockHeight : Nat
  nCompromised : UInt8 := 0
  deriving DecidableEq

end Primitives
