import BitcoinC.Primitives

/-!
# Serialization

The byte formats of `serialize.h`, `primitives/transaction.h` and
`primitives/block.h` that validation reads sizes and hashes from, and the
byte-vector varint in which a declared fee is written.
-/

namespace Encoding

open Primitives

def leBytes : Nat → Nat → Bytes
  | 0, _ => []
  | k + 1, x => UInt8.ofNat x :: leBytes k (x / 256)

@[simp] lemma leBytes_length (k x : Nat) : (leBytes k x).length = k := by
  induction k generalizing x with
  | zero => rfl
  | succ k ih => simp [leBytes, ih]

def readLE : Bytes → Nat
  | [] => 0
  | b :: bs => b.toNat + 256 * readLE bs

def hashBytes (h : Uint256) : Bytes := leBytes 32 h.toNat
def keyBytes (k : CCmpPubKey) : Bytes := leBytes 33 k.toNat
def keyIDBytes (k : Uint160) : Bytes := leBytes 20 k.toNat
def amountBytes (v : Int) : Bytes := leBytes 8 (v % 2 ^ 64).toNat
def uint32Bytes (x : UInt32) : Bytes := leBytes 4 x.toNat

def writeCompactSize (nSize : Nat) : Bytes :=
  if nSize < 253 then leBytes 1 nSize
  else if nSize ≤ 0xffff then 253 :: leBytes 2 nSize
  else if nSize ≤ 0xffffffff then 254 :: leBytes 4 nSize
  else 255 :: leBytes 8 nSize

lemma writeCompactSize_length_pos (nSize : Nat) : 1 ≤ (writeCompactSize nSize).length := by
  unfold writeCompactSize
  split_ifs <;> simp

def writeBytes (v : Bytes) : Bytes := writeCompactSize v.length ++ v

def writeVector {α : Type} (write : α → Bytes) (xs : List α) : Bytes :=
  writeCompactSize xs.length ++ xs.flatMap write

lemma length_le_writeVector {α : Type} (write : α → Bytes) (k : Nat) (xs : List α)
    (h : ∀ x ∈ xs, k ≤ (write x).length) : xs.length * k ≤ (writeVector write xs).length := by
  have hbody : xs.length * k ≤ (xs.flatMap write).length := by
    induction xs with
    | nil => simp
    | cons x xs ih =>
      have hx := h x List.mem_cons_self
      have hxs := ih fun y hy => h y (List.mem_cons_of_mem x hy)
      rw [List.flatMap_cons, List.length_append, List.length_cons, Nat.add_one_mul]
      omega
  rw [writeVector, List.length_append]
  omega

/-- What `GetVarInt` does. A read at the end of the vector reports success without
writing its results; a read past the end has an unsigned underflow in its length. -/
inductive VarIntRead
  | failure
  | untouched
  | pastEnd
  | value (i : UInt64) (nB : Nat)
  deriving DecidableEq

/-- The `while` loop of `GetVarInt`; `more` is the continuation bit of the byte before.
The shift is the machine's: its amount is taken modulo 64. -/
def getVarIntLoop : Bytes → UInt64 → Nat → Bool → VarIntRead
  | _, i, nB, false => .value i nB
  | [], _, _, true => .failure
  | b :: rest, i, nB, true =>
    getVarIntLoop rest (i + ((b &&& 0x7F).toUInt64 <<< UInt64.ofNat (7 * nB))) (nB + 1)
      (b &&& 0x80 != 0)

def getVarInt (v : Bytes) (ofs : Nat) : VarIntRead :=
  if v.length < ofs then .pastEnd
  else match v.drop ofs with
    | [] => .untouched
    | b :: rest => getVarIntLoop rest (b &&& 0x7F).toUInt64 1 (b &&& 0x80 != 0)

def writeOutPoint (o : COutPoint) : Bytes := hashBytes o.hash ++ uint32Bytes o.n

def writeTxIn (txin : CTxIn) : Bytes :=
  writeOutPoint txin.prevout ++ writeBytes txin.scriptSig ++ uint32Bytes txin.nSequence ++
    if txin.isAnonInput then writeVector writeBytes txin.scriptData else []

/-- The type byte and the body of an output; without witness data a RingCT output
has an empty range proof. -/
def writeTxOutBase (fAllowWitness : Bool) : CTxOutBase → Bytes
  | .standard p => 1 :: (amountBytes p.nValue ++ writeBytes p.scriptPubKey ++
      writeBytes p.vecSignature)
  | .ringCT p => 3 :: (keyBytes p.pk ++ keyBytes p.commitment ++ writeBytes p.vData ++
      writeBytes p.vecSignature ++
      if fAllowWitness then writeBytes p.vRangeproof else writeCompactSize 0)
  | .data p => 4 :: writeBytes p.vData

def writeTxOut (o : CTxOut) : Bytes := amountBytes o.nValue ++ writeBytes o.scriptPubKey

def writeWitnesses (vin : List CTxIn) : Bytes :=
  vin.flatMap fun txin => writeVector writeBytes txin.scriptWitness

def hasWitness (tx : CTransaction) : Bool := tx.vin.any fun txin => !txin.scriptWitness.isEmpty

def serializeLegacyTransaction (fAllowWitness : Bool) (tx : CTransaction) : Bytes :=
  let flags : Bool := fAllowWitness && hasWitness tx
  uint32Bytes tx.nVersion ++
    (if flags then writeCompactSize 0 ++ [1] else []) ++
    writeVector writeTxIn tx.vin ++ writeVector writeTxOut tx.vout ++
    (if flags then writeWitnesses tx.vin else []) ++
    uint32Bytes tx.nLockTime

def serializeTransaction (fAllowWitness : Bool) (tx : CTransaction) : Bytes :=
  if tx.isBitcoinCVersion then
    [(tx.nVersion &&& 0xFF).toUInt8, tx.getType.toUInt8] ++
      uint32Bytes tx.nLockTime ++ writeVector writeTxIn tx.vin ++
      writeVector (writeTxOutBase fAllowWitness) tx.vpout ++
      if fAllowWitness then writeWitnesses tx.vin else []
  else serializeLegacyTransaction fAllowWitness tx

lemma writeTxIn_length (txin : CTxIn) : 41 ≤ (writeTxIn txin).length := by
  have := writeCompactSize_length_pos txin.scriptSig.length
  simp only [writeTxIn, writeOutPoint, hashBytes, uint32Bytes, writeBytes, List.length_append,
    leBytes_length]
  omega

lemma writeTxOutBase_length (fAllowWitness : Bool) (o : CTxOutBase) :
    2 ≤ (writeTxOutBase fAllowWitness o).length := by
  cases o with
  | standard p => simp [writeTxOutBase, amountBytes]; omega
  | ringCT p => simp [writeTxOutBase, keyBytes]; omega
  | data p =>
    have := writeCompactSize_length_pos p.vData.length
    simp only [writeTxOutBase, writeBytes, List.length_cons, List.length_append]
    omega

lemma length_le_serializeTransaction (fAllowWitness : Bool) (tx : CTransaction)
    (hv : tx.isBitcoinCVersion) : tx.vin.length * 41 + tx.vpout.length * 2 ≤
      (serializeTransaction fAllowWitness tx).length := by
  have hin := length_le_writeVector writeTxIn 41 tx.vin fun txin _ => writeTxIn_length txin
  have hout := length_le_writeVector (writeTxOutBase fAllowWitness) 2 tx.vpout
    fun o _ => writeTxOutBase_length fAllowWitness o
  rw [serializeTransaction, if_pos hv]
  simp only [List.length_append]
  omega

def BITCOINC_BLOCK_VERSION : UInt32 := 0xA0

def serializeHeader (h : CBlockHeader) : Bytes :=
  uint32Bytes h.nVersion ++ hashBytes h.hashPrevBlock ++ hashBytes h.hashMerkleRoot ++
    (if h.nVersion = BITCOINC_BLOCK_VERSION then hashBytes h.hashWitnessMerkleRoot else []) ++
    uint32Bytes h.nTime ++ uint32Bytes h.nBits ++ uint32Bytes h.nNonce

def serializeBlock (fAllowWitness : Bool) (b : CBlock) : Bytes :=
  serializeHeader b.header ++ writeVector (serializeTransaction fAllowWitness) b.vtx ++
    if b.header.nVersion = BITCOINC_BLOCK_VERSION then writeBytes b.vchBlockSig else []

end Encoding
