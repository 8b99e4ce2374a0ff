import BitcoinC.CompactTargets
import BitcoinC.ToyEnvironment

/-!
# Retargeting

`GetNextTargetRequired` over the words of `arith_uint256`.
-/

namespace Retarget

open Primitives Environment Blocks HeaderChecks ArithUint256 ArithUint256.BaseUint ToyEnvironment
open CompactTargets (equalTo uintToArith256 toBitVec toBitVec_toNat compactValue compactForm)

def nMaxProofOfWorkLimit : Arith256 := ⟨List.replicate 6 0xffffffff ++ [0x0008ffff, 0], rfl⟩

def genesisLimit : Arith256 := ⟨List.replicate 7 0xffffffff ++ [0x00ffffff], rfl⟩

def toUint32 (x : Int) : UInt32 := UInt32.ofNat (x % 2 ^ 32).toNat

def ofInt64 (x : Int) : Arith256 := ofUint64 (UInt64.ofNat (x % 2 ^ 64).toNat)

section

variable (E : Env) (H : HeaderParams)

def bnProofOfWorkLimit (nHeight : Nat) : Option Arith256 :=
  if nHeight < E.nLastImportHeight then do
    let nMin := uintToArith256 E.powLimit
    let nStep ← (nMaxProofOfWorkLimit.subAssign nMin).divAssign (ofInt64 E.nLastImportHeight)
    pure (nMaxProofOfWorkLimit.subAssign (nStep.mulAssign32 (toUint32 nHeight)))
  else some (uintToArith256 E.powLimit)

def nActualSpacing (pindexPrev pindexPrevPrev : CBlockIndex) : Int :=
  let nActualSpacing : Int := (pindexPrev.nTime.toNat : Int) - pindexPrevPrev.nTime.toNat
  if nActualSpacing > E.nTargetSpacing * 10 then E.nTargetSpacing * 10 else nActualSpacing

def nInterval : Int := (H.nTargetTimespan : Int).tdiv E.nTargetSpacing

def factor (spacing : Int) : Int := (nInterval E H - 1) * E.nTargetSpacing + spacing + spacing

def divisor : Int := (nInterval E H + 1) * E.nTargetSpacing

/-- `GetNextTargetRequired`; `branch` is the last block with its ancestors. A division by zero
throws. -/
def getNextTargetRequired (branch : List CBlockIndex) : Option UInt32 := do
  let nHeight := nextHeight branch
  if nHeight < E.nLastImportHeight ∧ nHeight = 0 then return CompactTargets.getCompact genesisLimit
  let limit ← bnProofOfWorkLimit E nHeight
  match branch with
  | pindexPrev :: pindexPrevPrev :: _ :: _ =>
    let spacing := nActualSpacing E pindexPrev pindexPrevPrev
    let bnProduct := (CompactTargets.setCompact pindexPrev.nBits).1.mulAssign32
      (toUint32 (factor E H spacing))
    let bnNew ← bnProduct.divAssign (ofInt64 (divisor E H))
    if compareTo bnNew zero ≤ 0 ∨ compareTo bnNew limit > 0 then
      return CompactTargets.getCompact limit
    else return CompactTargets.getCompact bnNew
  | _ => return CompactTargets.getCompact limit

/-- The parameters fit the types of the source. -/
structure Representable : Prop where
  spacing_pos : 0 < E.nTargetSpacing
  spacing_lt : E.nTargetSpacing < 2 ^ 32
  timespan_lt : H.nTargetTimespan < 2 ^ 32
  lastImport_lt : E.nLastImportHeight < 2 ^ 31

end

variable (a : Arith256) (x : Int)

lemma toNat_toUint32 : (toUint32 x).toNat = (x % 2 ^ 32).toNat := by
  rw [toUint32, UInt32.toNat_ofNat', Nat.mod_eq_of_lt (by omega)]

lemma toNat_ofInt64 : (ofInt64 x).toNat = (x % 2 ^ 64).toNat := by
  rw [ofInt64, toNat_ofUint64, UInt64.toNat_ofNat', Nat.mod_eq_of_lt (by omega)]

lemma toBitVec_subAssign (b : Arith256) : toBitVec (a.subAssign b) = toBitVec a - toBitVec b := by
  apply BitVec.eq_of_toNat_eq
  rw [BitVec.toNat_sub, toBitVec_toNat, toBitVec_toNat, toBitVec_toNat, toNat_subAssign_mod]

lemma toNat_wide (w : Nat) (hw : w ≤ 256) (x : Int) :
    ((BitVec.ofInt w x).setWidth 256).toNat = (x % 2 ^ w).toNat := by
  have hlt : (BitVec.ofInt w x).toNat < 2 ^ 256 :=
    lt_of_lt_of_le (BitVec.ofInt w x).isLt (Nat.pow_le_pow_right (by decide) hw)
  rw [BitVec.toNat_setWidth, Nat.mod_eq_of_lt hlt, BitVec.toNat_ofInt]
  norm_cast

lemma toBitVec_mulAssign32 :
    toBitVec (a.mulAssign32 (toUint32 x)) = toBitVec a * (BitVec.ofInt 32 x).setWidth 256 := by
  apply BitVec.eq_of_toNat_eq
  rw [BitVec.toNat_mul, toBitVec_toNat, toBitVec_toNat, toNat_mulAssign32, toNat_toUint32,
    toNat_wide 32 (by decide)]

lemma divAssign_ofInt64 (hx : x % 2 ^ 64 ≠ 0) : ∃ q, a.divAssign (ofInt64 x) = some q ∧
      toBitVec q = toBitVec a / (BitVec.ofInt 64 x).setWidth 256 := by
  have hsome : a.divAssign (ofInt64 x) ≠ none := by
    intro hnone
    rw [divAssign_eq_none_iff, toNat_ofInt64] at hnone
    omega
  obtain ⟨q, hq⟩ := Option.ne_none_iff_exists'.mp hsome
  refine ⟨q, hq, ?_⟩
  apply BitVec.eq_of_toNat_eq
  rw [BitVec.toNat_udiv, toBitVec_toNat, toBitVec_toNat, toNat_wide 64 (by decide),
    toNat_divAssign a _ q hq, toNat_ofInt64]

lemma wide_ofNat (w n : Nat) (hw : w ≤ 256) (hn : n < 2 ^ w) :
    (BitVec.ofInt w n).setWidth 256 = BitVec.ofNat 256 n := by
  apply BitVec.eq_of_toNat_eq
  have hlt : n < 2 ^ 256 := lt_of_lt_of_le hn (Nat.pow_le_pow_right (by decide) hw)
  rw [toNat_wide w hw, BitVec.toNat_ofNat, Nat.mod_eq_of_lt hlt]
  norm_cast
  exact Nat.mod_eq_of_lt hn

section

variable {E : Env} {H : HeaderParams}

lemma toBitVec_uintToArith256 (a : Uint256) : toBitVec (uintToArith256 a) = a := by
  apply BitVec.eq_of_toNat_eq
  rw [toBitVec_toNat, CompactTargets.toNat_uintToArith256]

lemma bnProofOfWorkLimit_refines (hrep : Representable E H) (nHeight : Nat) :
    ∃ limit, bnProofOfWorkLimit E nHeight = some limit ∧ toBitVec limit =
      targetLimit E nHeight := by
  have hlast := hrep.lastImport_lt
  unfold bnProofOfWorkLimit targetLimit
  by_cases himport : nHeight < E.nLastImportHeight
  · rw [if_pos himport, if_pos himport]
    have hne : (E.nLastImportHeight : Int) % 2 ^ 64 ≠ 0 := by omega
    obtain ⟨nStep, hstep, hvalue⟩ :=
      divAssign_ofInt64 (nMaxProofOfWorkLimit.subAssign (uintToArith256 E.powLimit)) _ hne
    dsimp only
    refine ⟨_, by rw [hstep]; rfl, ?_⟩
    have hmax : toBitVec nMaxProofOfWorkLimit =
        BitVec.ofNat 256 0x8ffff <<< 192 ||| BitVec.allOnes 256 >>> 64 := by decide +kernel
    rw [toBitVec_subAssign, toBitVec_mulAssign32, hvalue, toBitVec_subAssign, hmax,
      toBitVec_uintToArith256, wide_ofNat 64 _ (by decide) (by omega),
      wide_ofNat 32 _ (by decide) (by omega)]
  · rw [if_neg himport, if_neg himport]
    exact ⟨_, rfl, toBitVec_uintToArith256 _⟩

lemma divisor_bounds (hrep : Representable E H) : 0 < divisor E H ∧ divisor E H < 2 ^ 34 := by
  have hs := hrep.spacing_pos
  have hlt := hrep.spacing_lt
  have hspan := hrep.timespan_lt
  have hcast : nInterval E H = ((H.nTargetTimespan / E.nTargetSpacing : Nat) : Int) := by
    unfold nInterval
    rfl
  have hle : H.nTargetTimespan / E.nTargetSpacing * E.nTargetSpacing ≤ H.nTargetTimespan :=
    Nat.div_mul_le_self _ _
  have heq : divisor E H =
      ((H.nTargetTimespan / E.nTargetSpacing * E.nTargetSpacing +
        E.nTargetSpacing : Nat) : Int) := by
    unfold divisor
    rw [hcast]
    push_cast
    ring
  rw [heq]
  omega

lemma nActualSpacing_eq (p q : CBlockIndex) :
    nActualSpacing E p q = min ((p.nTime.toNat : Int) - q.nTime.toNat) (E.nTargetSpacing * 10) := by
  unfold nActualSpacing
  dsimp only
  split <;> omega

lemma compactLimit_eq (nHeight : Nat) (h : ¬ (nHeight < E.nLastImportHeight ∧ nHeight = 0)) :
    compactLimit E nHeight = getCompact (targetLimit E nHeight) := by
  unfold compactLimit
  rw [if_neg]
  rintro ⟨rfl, hpos⟩
  exact h ⟨hpos, rfl⟩

lemma choice_refines (bnNew limit : Arith256) :
    (compareTo bnNew zero ≤ 0 ∨ compareTo bnNew limit > 0) ↔
      (toBitVec bnNew = 0 ∨ toBitVec limit < toBitVec bnNew) := by
  have hzero : compareTo bnNew zero ≤ 0 ↔ bnNew.toNat = 0 := by
    rw [← not_lt, ← gt_iff_lt, compareTo_pos_iff, toNat_zero]
    omega
  have hnull : toBitVec bnNew = 0 ↔ bnNew.toNat = 0 := by
    rw [← BitVec.toNat_inj, toBitVec_toNat]
    rfl
  rw [hzero, hnull, compareTo_pos_iff, BitVec.lt_def, toBitVec_toNat, toBitVec_toNat]

lemma getNextTargetRequired_refines (hrep : Representable E H) (branch : List CBlockIndex) :
    getNextTargetRequired E H branch = some (HeaderChecks.getNextTargetRequired E H branch) := by
  obtain ⟨limit, hlimit, hvalue⟩ := bnProofOfWorkLimit_refines hrep (nextHeight branch)
  unfold getNextTargetRequired HeaderChecks.getNextTargetRequired
  dsimp only
  by_cases hfirst : nextHeight branch < E.nLastImportHeight ∧ nextHeight branch = 0
  · have hgenesis : toBitVec genesisLimit = BitVec.allOnes 256 >>> 8 := by decide +kernel
    have hcompact : compactLimit E (nextHeight branch) =
        CompactTargets.getCompact genesisLimit := by
      rw [compactLimit, if_pos ⟨hfirst.2, by omega⟩, CompactTargets.getCompact_refines, hgenesis]
    rw [if_pos hfirst]
    match branch, hfirst.2 with
    | [], _ => exact congrArg some hcompact.symm
  · rw [if_neg hfirst, hlimit, compactLimit_eq _ hfirst, ← hvalue,
      ← CompactTargets.getCompact_refines]
    match branch with
    | [] => rfl
    | [_] => rfl
    | [_, _] => rfl
    | p :: q :: _ :: _ =>
      have hdivisor := divisor_bounds hrep
      obtain ⟨bnNew, hdiv, hnew⟩ := divAssign_ofInt64
        ((CompactTargets.setCompact p.nBits).1.mulAssign32
        (toUint32 (factor E H (nActualSpacing E p q)))) (divisor E H) (by omega)
      have hretarget : toBitVec bnNew =
          retarget E H p.nBits ((p.nTime.toNat : Int) - q.nTime.toNat) := by
        rw [hnew, toBitVec_mulAssign32, nActualSpacing_eq, CompactTargets.toBitVec_setCompact]
        rfl
      show ((CompactTargets.setCompact p.nBits).1.mulAssign32 _).divAssign _ >>= _ = _
      dsimp only
      rw [hdiv, ← hretarget, ← CompactTargets.getCompact_refines,
        ← if_congr (choice_refines _ _) rfl rfl]
      show (if _ then _ else _) = _
      split <;> rfl

def limitAfter (E : Env) (pindexPrev : CBlockIndex) : Nat :=
  (targetLimit E (pindexPrev.nHeight + 1)).toNat

def nextTarget (limit quotient : Nat) : Nat := if quotient = 0 then limit else min limit quotient

def wrappedQuotient (E : Env) (H : HeaderParams) (T spacing : Int) : Nat :=
  (T * (factor E H spacing % 2 ^ 32) % 2 ^ 256 / divisor E H).toNat

def quotient (E : Env) (H : HeaderParams) (T spacing : Int) : Nat :=
  (T * factor E H spacing / divisor E H).toNat

lemma getCompact_nextTarget (limit bnNew : BitVec 256) :
    (if bnNew = 0 ∨ limit < bnNew then getCompact limit else getCompact bnNew) =
      UInt32.ofNat (compactForm (nextTarget limit.toNat bnNew.toNat)) := by
  rw [CompactTargets.getCompact_eq_compactForm, CompactTargets.getCompact_eq_compactForm]
  unfold nextTarget
  by_cases hnull : bnNew = 0
  · have hzero : bnNew.toNat = 0 := congrArg BitVec.toNat hnull
    rw [if_pos (Or.inl hnull), if_pos hzero]
  · have hne : bnNew.toNat ≠ 0 := fun h => hnull (BitVec.eq_of_toNat_eq h)
    rw [if_neg hne]
    by_cases habove : limit < bnNew
    · rw [if_pos (Or.inr habove), Nat.min_eq_left (BitVec.lt_def.mp habove).le]
    · have hwithin : ¬ limit.toNat < bnNew.toNat := fun h => habove (BitVec.lt_def.mpr h)
      rw [if_neg (not_or.mpr ⟨hnull, habove⟩), Nat.min_eq_right (Nat.not_lt.mp hwithin)]

lemma retarget_toNat (hrep : Representable E H) (p q : CBlockIndex)
    (hpos : 0 < compactValue p.nBits) (hlt : compactValue p.nBits < 2 ^ 256) :
    (retarget E H p.nBits ((p.nTime.toNat : Int) - q.nTime.toNat)).toNat =
      wrappedQuotient E H (compactValue p.nBits) (nActualSpacing E p q) := by
  have hdivisor := divisor_bounds hrep
  have hvalue : (Kernel.setCompact p.nBits).1.toNat = (compactValue p.nBits).toNat := by
    rw [← CompactTargets.toBitVec_setCompact, toBitVec_toNat,
      ← CompactTargets.setCompact_toNat p.nBits hpos hlt, Int.toNat_natCast]
  have hword : ((BitVec.ofInt 64 (divisor E H)).setWidth 256).toNat = (divisor E H).toNat := by
    rw [toNat_wide 64 (by decide), Int.emod_eq_of_lt (by omega) (by omega)]
  have hform : retarget E H p.nBits ((p.nTime.toNat : Int) - q.nTime.toNat) =
      (Kernel.setCompact p.nBits).1 *
        (BitVec.ofInt 32 (factor E H (nActualSpacing E p q))).setWidth 256 /
        (BitVec.ofInt 64 (divisor E H)).setWidth 256 := by
    rw [nActualSpacing_eq]
    rfl
  have hfactor := Int.emod_nonneg (factor E H (nActualSpacing E p q))
    (by decide : (2 : Int) ^ 32 ≠ 0)
  rw [hform, BitVec.toNat_udiv, BitVec.toNat_mul, hvalue, toNat_wide 32 (by decide), hword]
  unfold wrappedQuotient
  generalize compactValue p.nBits = T at hpos
  generalize factor E H (nActualSpacing E p q) % 2 ^ 32 = w at hfactor
  generalize divisor E H = d at hdivisor
  obtain ⟨T, rfl⟩ := Int.eq_ofNat_of_zero_le hpos.le
  obtain ⟨w, rfl⟩ := Int.eq_ofNat_of_zero_le hfactor
  obtain ⟨d, rfl⟩ := Int.eq_ofNat_of_zero_le hdivisor.1.le
  norm_cast

/-- The limb arithmetic returns the compact form of the next target. -/
lemma getNextTargetRequired_eq (hrep : Representable E H) (p q r : CBlockIndex)
    (rest : List CBlockIndex) (hpos : 0 < compactValue p.nBits)
    (hlt : compactValue p.nBits < 2 ^ 256) :
    getNextTargetRequired E H (p :: q :: r :: rest) = some (UInt32.ofNat (compactForm
      (nextTarget (limitAfter E p)
        (wrappedQuotient E H (compactValue p.nBits) (nActualSpacing E p q))))) := by
  rw [getNextTargetRequired_refines hrep, HeaderChecks.getNextTargetRequired]
  rw [compactLimit_eq _ (by simp [nextHeight]), getCompact_nextTarget,
    retarget_toNat hrep p q hpos hlt]
  rfl

/-- Neither the multiplier nor the product is truncated. -/
structure Fits (E : Env) (H : HeaderParams) (T spacing : Int) : Prop where
  factor_nonneg : 0 ≤ factor E H spacing
  factor_lt : factor E H spacing < 2 ^ 32
  product_lt : T * factor E H spacing < 2 ^ 256

lemma wrappedQuotient_eq {T spacing : Int} (hpos : 0 ≤ T) (hfits : Fits E H T spacing) :
    wrappedQuotient E H T spacing = quotient E H T spacing := by
  have hproduct : 0 ≤ T * factor E H spacing := mul_nonneg hpos hfits.factor_nonneg
  unfold wrappedQuotient quotient
  rw [Int.emod_eq_of_lt hfits.factor_nonneg hfits.factor_lt,
    Int.emod_eq_of_lt hproduct hfits.product_lt]

lemma quotient_mono (hrep : Representable E H) {T spacing spacing' : Int} (hpos : 0 ≤ T)
    (hle : spacing ≤ spacing') : quotient E H T spacing ≤ quotient E H T spacing' := by
  have hfactor : factor E H spacing ≤ factor E H spacing' := by
    unfold factor
    omega
  apply Int.toNat_le_toNat
  exact Int.ediv_le_ediv (divisor_bounds hrep).1 (mul_le_mul_of_nonneg_left hfactor hpos)

lemma nextTarget_mono {limit m n : Nat} (hne : m ≠ 0) (hle : m ≤ n) :
    nextTarget limit m ≤ nextTarget limit n := by
  unfold nextTarget
  rw [if_neg hne, if_neg (by omega)]
  exact min_le_min_left limit hle

lemma nextTarget_le (limit n : Nat) : nextTarget limit n ≤ limit := by
  unfold nextTarget
  split
  · exact le_refl _
  · exact Nat.min_le_left _ _

/-- The compact form of a target that stands for the limit when it is 0. -/
def nextCompact (limit quotient : Nat) : Nat := compactForm (nextTarget limit quotient)

lemma toNat_nextCompact {limit : Nat} (hlimit : limit < 2 ^ 256) (n : Nat) :
    (UInt32.ofNat (nextCompact limit n)).toNat = nextCompact limit n := by
  have hlt := CompactTargets.compactForm_lt _ (lt_of_le_of_lt (nextTarget_le limit n) hlimit)
  rw [UInt32.toNat_ofNat', nextCompact, Nat.mod_eq_of_lt hlt]

end

/-- The result is the compact form of the moving average, at most the limit, exactly when the
truncations do not show in it, and the results for two last intervals compare as the truncated ones.
Where neither truncation happens the average is exact, and it grows with the last interval unless it
is zero, which stands for the limit. -/
theorem retarget_exact (E : Env) (H : HeaderParams) (hrep : Representable E H)
    (p q r : CBlockIndex) (rest : List CBlockIndex) (hT : 1 ≤ compactValue p.nBits)
    (hL : compactValue p.nBits ≤ limitAfter E p) :
    (getNextTargetRequired E H (p :: q :: r :: rest) =
      some (UInt32.ofNat (nextCompact (limitAfter E p)
        (quotient E H (compactValue p.nBits) (nActualSpacing E p q)))) ↔
      nextCompact (limitAfter E p)
          (wrappedQuotient E H (compactValue p.nBits) (nActualSpacing E p q)) =
        nextCompact (limitAfter E p) (quotient E H (compactValue p.nBits) (nActualSpacing E p q))) ∧
    (∀ p' q' r' : CBlockIndex, ∀ rest' : List CBlockIndex,
      p'.nBits = p.nBits → p'.nHeight = p.nHeight →
      ∀ nBits nBits', getNextTargetRequired E H (p :: q :: r :: rest) = some nBits →
        getNextTargetRequired E H (p' :: q' :: r' :: rest') = some nBits' →
        (nBits ≤ nBits' ↔ nextCompact (limitAfter E p)
            (wrappedQuotient E H (compactValue p.nBits) (nActualSpacing E p q)) ≤
          nextCompact (limitAfter E p)
            (wrappedQuotient E H (compactValue p.nBits) (nActualSpacing E p' q')))) ∧
    (∀ a, Fits E H (compactValue p.nBits) a →
      wrappedQuotient E H (compactValue p.nBits) a = quotient E H (compactValue p.nBits) a) ∧
    ∀ a a', a ≤ a' → quotient E H (compactValue p.nBits) a ≠ 0 →
      nextCompact (limitAfter E p) (quotient E H (compactValue p.nBits) a) ≤
        nextCompact (limitAfter E p) (quotient E H (compactValue p.nBits) a') := by
  have hlimit : limitAfter E p < 2 ^ 256 := (targetLimit E (p.nHeight + 1)).isLt
  have hlt : compactValue p.nBits < 2 ^ 256 := by omega
  have hresult := getNextTargetRequired_eq hrep p q r rest (by omega) hlt
  refine ⟨?_, ?_, fun a => wrappedQuotient_eq (by omega), fun a a' hle hne => ?_⟩
  · rw [hresult, Option.some.injEq, ← UInt32.toNat_inj]
    exact (toNat_nextCompact hlimit _).congr_left.trans (toNat_nextCompact hlimit _).congr_right
  · intro p' q' r' rest' hbits hheight nBits nBits' h h'
    rw [hresult] at h
    rw [getNextTargetRequired_eq hrep p' q' r' rest' (by rw [hbits]; omega)
      (by rw [hbits]; exact hlt), hbits, limitAfter, hheight] at h'
    obtain rfl := Option.some.inj h
    obtain rfl := Option.some.inj h'
    rw [UInt32.le_iff_toNat_le]
    exact Eq.to_iff (congrArg₂ (· ≤ ·) (toNat_nextCompact hlimit _) (toNat_nextCompact hlimit _))
  · exact CompactTargets.compactForm_mono
      (nextTarget_mono hne (quotient_mono hrep (by omega) hle))

def mainEnv : Env := { env with powLimit := BitVec.allOnes 256 >>> 1, nTargetSpacing := 60 }

def mainParams : HeaderParams where
  nTargetTimespan := 24 * 60
  fCheckpointsEnabled := false
  checkpoints := []
  BIP34Height := 0
  BIP65Height := 0
  BIP66Height := 0
  nMinimumChainWork := 0

def threeBlocks (nBits nTime : UInt32) : List CBlockIndex :=
  [{ hashBlock := 3, nHeight := 2, nTime := nTime, nBits := nBits },
    { hashBlock := 2, nHeight := 1, nTime := 0, nBits := nBits },
    { hashBlock := 1, nHeight := 0, nTime := 0, nBits := nBits }]

lemma representable_main : Representable mainEnv mainParams := by
  constructor <;> decide

theorem retarget_exact_main :
    getNextTargetRequired mainEnv mainParams (threeBlocks 0x1b00ffff 60) = some 0x1b00ffff := by
  have hexact := retarget_exact mainEnv mainParams representable_main
    { hashBlock := 3, nHeight := 2, nTime := 60, nBits := 0x1b00ffff }
    { hashBlock := 2, nHeight := 1, nTime := 0, nBits := 0x1b00ffff }
    { hashBlock := 1, nHeight := 0, nTime := 0, nBits := 0x1b00ffff } [] (by decide +kernel)
    (by decide +kernel)
  exact (hexact.1.mpr (by decide +kernel)).trans (by decide +kernel)

/-- At the target `2 ^ 254` and on schedule the product is zero modulo `2 ^ 256`, and the result is
the limit instead of the same target; one second later it is far below. A target of one falls to
zero after a short interval, which is the limit again. -/
theorem retarget_truncates :
    (getNextTargetRequired mainEnv mainParams (threeBlocks 0x20400000 60) = some 0x207fffff ∧
      compactForm (nextTarget (2 ^ 255 - 1) (quotient mainEnv mainParams (2 ^ 254) 60)) =
        0x20400000 ∧
      getNextTargetRequired mainEnv mainParams (threeBlocks 0x20400000 61) = some 0x1f15d867) ∧
    getNextTargetRequired mainEnv mainParams (threeBlocks 0x03000001 0) = some 0x207fffff ∧
      getNextTargetRequired mainEnv mainParams (threeBlocks 0x03000001 60) = some 0x01010000 := by
  decide +kernel

end Retarget
