import BitcoinC.CompactTargets
import BitcoinC.ToyEnvironment

/-!
# The stake target

`CheckStakeKernelHash` of `pos/kernel.cpp` over the words of `arith_uint256`: the
target of `nBits` is multiplied by the amount of the kernel, and the kernel hash
may not be above the product.
-/

namespace StakeTarget

open Primitives Encoding Environment ArithUint256 ArithUint256.BaseUint CompactTargets
  ToyEnvironment
open Kernel (StakeKernel)

section

variable (E : Env) (pindexPrev : CBlockIndex) (nBits : UInt32) (k : StakeKernel)
  (prevout : COutPoint) (nTime : UInt32)

def hashProofOfStake : Uint256 :=
  E.hash256 (hashBytes pindexPrev.bnStakeModifier ++ uint32Bytes k.nBlockFromTime ++
    writeOutPoint prevout ++ uint32Bytes nTime)

def checkStakeKernelHash : Bool :=
  -- the transaction may not be older than the block of the kernel
  if nTime < k.nBlockFromTime then false
  else
    let target := setCompact nBits
    let bnTarget := target.1
    if target.2.1 || target.2.2 || equalTo bnTarget 0 then false
    else
      let bnWeight : Arith256 := ofUint64 (UInt64.ofNat (k.amount % 2 ^ 64).toNat)
      let weighted := bnTarget.mulAssign bnWeight
      if compareTo (uintToArith256 (hashProofOfStake E pindexPrev k prevout nTime)) weighted > 0
        then false
      else true

/-- The test that was meant: the hash is at most the product of the target and the amount. -/
def MeetsTarget : Prop :=
  0 < compactValue nBits ∧ compactValue nBits < 2 ^ 256 ∧
    ((hashProofOfStake E pindexPrev k prevout nTime).toNat : Int) ≤ compactValue nBits * k.amount

lemma weight_toNat : (ofUint64 (UInt64.ofNat (k.amount % 2 ^ 64).toNat) : Arith256).toNat =
    (k.amount % 2 ^ 64).toNat := by
  rw [toNat_ofUint64, UInt64.toNat_ofNat', Nat.mod_eq_of_lt (by omega)]

/-- The kernel test compares with the product cut to 256 bits. -/
lemma checkStakeKernelHash_iff : checkStakeKernelHash E pindexPrev nBits k prevout nTime = true ↔
      ¬ nTime < k.nBlockFromTime ∧
      ((setCompact nBits).2.1 = false ∧ (setCompact nBits).2.2 = false ∧
        (setCompact nBits).1.toNat ≠ 0) ∧
      (hashProofOfStake E pindexPrev k prevout nTime).toNat ≤
        (setCompact nBits).1.toNat * (k.amount % 2 ^ 64).toNat % 2 ^ 256 := by
  have hzero := equalTo_zero_iff (setCompact nBits).1
  have hcompare := compareTo_pos_iff
    (uintToArith256 (hashProofOfStake E pindexPrev k prevout nTime))
    ((setCompact nBits).1.mulAssign (ofUint64 (UInt64.ofNat (k.amount % 2 ^ 64).toNat)))
  rw [toNat_mulAssign, weight_toNat, toNat_uintToArith256] at hcompare
  unfold checkStakeKernelHash
  by_cases htime : nTime < k.nBlockFromTime
  · simp [htime]
  · rw [if_neg htime]
    dsimp only
    cases hneg : (setCompact nBits).2.1 <;> cases hover : (setCompact nBits).2.2 <;>
      cases hnull : equalTo (setCompact nBits).1 0 <;> simp_all

/-- The kernel test on limbs is the one on numbers that the chain model uses. -/
theorem checkStakeKernelHash_refines : checkStakeKernelHash E pindexPrev nBits k prevout nTime =
      Kernel.checkStakeKernelHash E pindexPrev nBits k prevout nTime := by
  have hvalue := toBitVec_setCompact nBits
  have hflags : (setCompact nBits).2 = (Kernel.setCompact nBits).2 :=
    congrArg Prod.snd (setCompact_refines nBits)
  have hweight : (BitVec.ofNat 256 (k.amount % 2 ^ 64).toNat).toNat =
      (k.amount % 2 ^ 64).toNat := by
    rw [BitVec.toNat_ofNat, Nat.mod_eq_of_lt (by omega)]
  have hnull : (setCompact nBits).1.toNat ≠ 0 ↔ (Kernel.setCompact nBits).1 ≠ 0 := by
    rw [← hvalue, Ne, Ne, ← BitVec.toNat_inj, toBitVec_toNat]
    rfl
  rw [Bool.eq_iff_iff, checkStakeKernelHash_iff, hnull, hflags]
  unfold Kernel.checkStakeKernelHash
  simp only [BitVec.toNat_mul, hweight, ← hvalue, toBitVec_toNat, Bool.and_eq_true,
    decide_eq_true_eq, Bool.not_eq_true', and_assoc]
  rfl

lemma amount_toNat (hpos : 1 ≤ k.amount) (hmax : k.amount ≤ MAX_MONEY) :
    ((k.amount % 2 ^ 64).toNat : Int) = k.amount := by
  unfold MAX_MONEY COIN at hmax
  omega

lemma checkStakeKernelHash_wraps (hpos : 1 ≤ k.amount) (hmax : k.amount ≤ MAX_MONEY)
    (htime : ¬ nTime < k.nBlockFromTime) :
    checkStakeKernelHash E pindexPrev nBits k prevout nTime = true ↔
      0 < compactValue nBits ∧ compactValue nBits < 2 ^ 256 ∧
        ((hashProofOfStake E pindexPrev k prevout nTime).toNat : Int) ≤
          compactValue nBits * k.amount % 2 ^ 256 := by
  rw [checkStakeKernelHash_iff, setCompact_positive]
  constructor
  · rintro ⟨-, ⟨hlow, hhigh⟩, hhash⟩
    refine ⟨hlow, hhigh, ?_⟩
    rw [← setCompact_toNat nBits hlow hhigh, ← amount_toNat k hpos hmax]
    exact_mod_cast hhash
  · rintro ⟨hlow, hhigh, hhash⟩
    refine ⟨htime, ⟨hlow, hhigh⟩, ?_⟩
    rw [← setCompact_toNat nBits hlow hhigh, ← amount_toNat k hpos hmax] at hhash
    exact_mod_cast hhash

end

/-- The product of a target and an amount fits, or the hash is low enough for what is left of it. -/
def ProductFits (E : Env) (pindexPrev : CBlockIndex) (nBits : UInt32) (k : StakeKernel)
    (prevout : COutPoint) (nTime : UInt32) : Prop :=
  compactValue nBits * k.amount < 2 ^ 256 ∨
    ((hashProofOfStake E pindexPrev k prevout nTime).toNat : Int) ≤
      compactValue nBits * k.amount % 2 ^ 256

/-- The code decides the intended test exactly where the product fits; below `2 ^ 256` a larger
amount keeps an accepted kernel. -/
theorem stakeTarget_exact (E : Env) (pindexPrev : CBlockIndex) (nBits : UInt32) (k : StakeKernel)
    (prevout : COutPoint) (nTime : UInt32) (hpos : 1 ≤ k.amount) (hmax : k.amount ≤ MAX_MONEY)
    (htime : ¬ nTime < k.nBlockFromTime) :
    ((checkStakeKernelHash E pindexPrev nBits k prevout nTime = true ↔
        MeetsTarget E pindexPrev nBits k prevout nTime) ↔
      (0 < compactValue nBits → compactValue nBits < 2 ^ 256 →
        ProductFits E pindexPrev nBits k prevout nTime)) ∧
    (∀ amount, k.amount ≤ amount → amount ≤ MAX_MONEY →
      compactValue nBits * amount < 2 ^ 256 →
      checkStakeKernelHash E pindexPrev nBits k prevout nTime = true →
      checkStakeKernelHash E pindexPrev nBits { k with amount := amount } prevout nTime =
        true) := by
  have hhash : ((hashProofOfStake E pindexPrev k prevout nTime).toNat : Int) < 2 ^ 256 := by
    exact_mod_cast (hashProofOfStake E pindexPrev k prevout nTime).isLt
  constructor
  · rw [checkStakeKernelHash_wraps E pindexPrev nBits k prevout nTime hpos hmax htime]
    unfold MeetsTarget ProductFits
    generalize ((hashProofOfStake E pindexPrev k prevout nTime).toNat : Int) = hash at hhash
    generalize hproduct : compactValue nBits * k.amount = product
    by_cases hT : 0 < compactValue nBits ∧ compactValue nBits < 2 ^ 256
    · have hnonneg : 0 ≤ product := hproduct ▸ mul_nonneg hT.1.le (by omega)
      simp only [hT, true_and, forall_const]
      omega
    · constructor
      · intro _ hlow hhigh
        exact absurd ⟨hlow, hhigh⟩ hT
      · intro _
        constructor
        · rintro ⟨hlow, hhigh, -⟩
          exact absurd ⟨hlow, hhigh⟩ hT
        · rintro ⟨hlow, hhigh, -⟩
          exact absurd ⟨hlow, hhigh⟩ hT
  · intro amount hle hamount hfits haccept
    rw [checkStakeKernelHash_wraps E pindexPrev nBits k prevout nTime hpos hmax htime] at haccept
    obtain ⟨hlow, hhigh, hok⟩ := haccept
    rw [checkStakeKernelHash_wraps E pindexPrev nBits { k with amount := amount } prevout nTime
      (le_trans hpos hle) hamount htime]
    refine ⟨hlow, hhigh, ?_⟩
    have hmono : compactValue nBits * k.amount ≤ compactValue nBits * amount :=
      mul_le_mul_of_nonneg_left hle hlow.le
    have hnonneg : 0 ≤ compactValue nBits * k.amount := mul_nonneg hlow.le (by omega)
    calc ((hashProofOfStake E pindexPrev k prevout nTime).toNat : Int)
        ≤ compactValue nBits * k.amount % 2 ^ 256 := hok
      _ ≤ compactValue nBits * k.amount := by omega
      _ ≤ compactValue nBits * amount := hmono
      _ = compactValue nBits * amount % 2 ^ 256 :=
        (Int.emod_eq_of_lt (le_trans hnonneg hmono) hfits).symm

def oneEnv : Env := { env with hash256 := fun _ => 1 }

def toyIndex : CBlockIndex := { hashBlock := 0, nHeight := 1, nTime := 0, nBits := 0 }

theorem stakeTarget_exact_one :
    (checkStakeKernelHash oneEnv toyIndex 0x03000001 ⟨[], 1, 0⟩ ⟨0, 0⟩ 0 = true ↔
      MeetsTarget oneEnv toyIndex 0x03000001 ⟨[], 1, 0⟩ ⟨0, 0⟩ 0) ∧
    checkStakeKernelHash oneEnv toyIndex 0x03000001 ⟨[], 2, 0⟩ ⟨0, 0⟩ 0 = true := by
  obtain ⟨hexact, hlarger⟩ := stakeTarget_exact oneEnv toyIndex 0x03000001 ⟨[], 1, 0⟩ ⟨0, 0⟩ 0
    (by decide) (by decide) (by decide)
  exact ⟨hexact.mpr fun _ _ => Or.inl (by decide +kernel),
    hlarger 2 (by decide) (by decide) (by decide +kernel) (by decide +kernel)⟩

/-- With the target `2 ^ 254`, an amount of two is accepted, and of four, where the product is
`2 ^ 256`, rejected: what is left of the product is zero. -/
theorem larger_amount_rejected :
    checkStakeKernelHash oneEnv toyIndex 0x20400000 ⟨[], 2, 0⟩ ⟨0, 0⟩ 0 = true ∧
      checkStakeKernelHash oneEnv toyIndex 0x20400000 ⟨[], 4, 0⟩ ⟨0, 0⟩ 0 = false ∧
      MeetsTarget oneEnv toyIndex 0x20400000 ⟨[], 4, 0⟩ ⟨0, 0⟩ 0 := by
  unfold MeetsTarget
  decide +kernel

end StakeTarget
