import BitcoinC.Blocks

/-!
# Checks of a header against its predecessors

Compact targets, the work of a header, `GetNextTargetRequired` and
`ContextualCheckBlockHeader`.
-/

namespace HeaderChecks

open Primitives Environment Verdicts TxVerify Kernel Blocks

def REJECT_OBSOLETE : UInt8 := 0x11
def REJECT_CHECKPOINT : UInt8 := 0x43
def MAX_FUTURE_BLOCK_TIME : Int := 2 * 60 * 60

structure HeaderParams where
  nTargetTimespan : Nat
  fCheckpointsEnabled : Bool
  /-- The hashes of the checkpoints, the highest first. -/
  checkpoints : List Uint256
  BIP34Height : Nat
  BIP65Height : Nat
  BIP66Height : Nat
  nMinimumChainWork : BitVec 256

def bits (a : BitVec 256) : Nat := if a = 0 then 0 else Nat.log2 a.toNat + 1

def getCompact (a : BitVec 256) : UInt32 :=
  let nSize := (bits a + 7) / 8
  let nCompact := if nSize ≤ 3 then a.toNat <<< (8 * (3 - nSize)) else a.toNat >>> (8 * (nSize - 3))
  -- a mantissa with the sign bit set is shifted down
  if nCompact &&& 0x00800000 ≠ 0 then UInt32.ofNat (nCompact >>> 8 ||| (nSize + 1) <<< 24)
  else UInt32.ofNat (nCompact ||| nSize <<< 24)

def getBlockProof (nBits : UInt32) : BitVec 256 :=
  let target := setCompact nBits
  if target.2.1 || target.2.2 || target.1 = 0 then 0 else ~~~ target.1 / (target.1 + 1) + 1

section

variable (E : Env) (H : HeaderParams)

def targetLimit (nHeight : Nat) : BitVec 256 :=
  if nHeight < E.nLastImportHeight then
    let nMax : BitVec 256 := BitVec.ofNat 256 0x8ffff <<< 192 ||| BitVec.allOnes 256 >>> 64
    nMax - (nMax - E.powLimit) / BitVec.ofNat 256 E.nLastImportHeight * BitVec.ofNat 256 nHeight
  else E.powLimit

/-- `nProofOfWorkLimit`, which is fixed for the genesis block while there are imports. -/
def compactLimit (nHeight : Nat) : UInt32 :=
  if nHeight = 0 ∧ 0 < E.nLastImportHeight then getCompact (BitVec.allOnes 256 >>> 8)
  else getCompact (targetLimit E nHeight)

/-- The target after a block with target `nBits` that came `nActualSpacing` after its
predecessor. -/
def retarget (nBits : UInt32) (nActualSpacing : Int) : BitVec 256 :=
  let nTargetSpacing : Int := E.nTargetSpacing
  let spacing := min nActualSpacing (nTargetSpacing * 10)
  let nInterval := (H.nTargetTimespan : Int).tdiv nTargetSpacing
  (setCompact nBits).1 *
      (BitVec.ofInt 32 ((nInterval - 1) * nTargetSpacing + spacing + spacing)).setWidth 256 /
    (BitVec.ofInt 64 ((nInterval + 1) * nTargetSpacing)).setWidth 256

def getNextTargetRequired (branch : List CBlockIndex) : UInt32 :=
  let nHeight := nextHeight branch
  match branch with
  | pindexPrev :: pindexPrevPrev :: _ :: _ =>
    let bnNew := retarget E H pindexPrev.nBits
      ((pindexPrev.nTime.toNat : Int) - pindexPrevPrev.nTime.toNat)
    if bnNew = 0 ∨ targetLimit E nHeight < bnNew then compactLimit E nHeight else getCompact bnNew
  | _ => compactLimit E nHeight

def badVersion (nVersion : UInt32) : String :=
  let digits := Nat.toDigits 16 nVersion.toNat
  "bad-version(0x" ++ String.ofList (List.replicate (8 - digits.length) '0' ++ digits) ++ ")"

def int32 (x : UInt32) : Int := Int.bmod x.toNat (2 ^ 32)

/-- `ContextualCheckBlockHeader` on top of `branch`, which is not empty. `nCheckpoint` is the height
of the last checkpoint that is in the block index. -/
def contextualCheckBlockHeader (branch : List CBlockIndex) (nCheckpoint : Option Nat)
    (block : CBlockHeader) : Verdict Unit := do
  let nHeight := nextHeight branch
  rejectIf (block.nBits ≠ getNextTargetRequired E H branch)
    (.dos 100 REJECT_INVALID "bad-proof-of-stake" true)
  rejectIf (H.fCheckpointsEnabled ∧ nCheckpoint.any fun h => nHeight < h)
    (.dos 100 REJECT_CHECKPOINT "bad-fork-prior-to-checkpoint")
  rejectIf ((block.nTime.toNat : Int) ≤ getMedianTimePast branch)
    (.dos 0 REJECT_INVALID "time-too-old")
  rejectIf (0 < nHeight ∧ E.nAdjustedTime + MAX_FUTURE_BLOCK_TIME < block.nTime.toNat)
    (.dos 0 REJECT_INVALID "time-too-new")
  rejectIf ((int32 block.nVersion < 2 ∧ H.BIP34Height ≤ nHeight) ∨
      (int32 block.nVersion < 3 ∧ H.BIP66Height ≤ nHeight) ∨
      (int32 block.nVersion < 4 ∧ H.BIP65Height ≤ nHeight))
    (.dos 0 REJECT_OBSOLETE (badVersion block.nVersion))

/-- An accepted header has the required target and a time after its predecessors, not far ahead. -/
lemma contextualCheckBlockHeader_ok (branch : List CBlockIndex) (nCheckpoint : Option Nat)
    (block : CBlockHeader) (r : Unit)
    (h : contextualCheckBlockHeader E H branch nCheckpoint block = .ok r) :
    block.nBits = getNextTargetRequired E H branch ∧
      getMedianTimePast branch < block.nTime.toNat ∧
      (0 < nextHeight branch → (block.nTime.toNat : Int) ≤ E.nAdjustedTime +
        MAX_FUTURE_BLOCK_TIME) := by
  simp only [contextualCheckBlockHeader, bind_ok_iff, rejectIf_ok_iff] at h
  obtain ⟨-, hbits, -, -, -, hold, -, hnew, -⟩ := h
  refine ⟨not_not.mp hbits, by omega, ?_⟩
  intro hheight
  by_contra hlate
  exact hnew ⟨hheight, by omega⟩

end

end HeaderChecks
