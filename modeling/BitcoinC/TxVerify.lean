import BitcoinC.Environment

/-!
# Transaction checks

`consensus/tx_verify.cpp`: the checks on a transaction alone (`checkTransaction`),
the checks against the coins it spends (`checkTxInputs`) and the relative lock
times.
-/

namespace TxVerify

open Primitives Encoding Scripts Environment Verdicts List

def MAX_BLOCK_WEIGHT : Nat := 4000000
def MAX_BLOCK_SIGOPS_COST : Nat := 80000
def WITNESS_SCALE_FACTOR : Nat := 2
def COINBASE_MATURITY : Int := 100
def COMPACT_SIGNATURE_SIZE : Nat := 65

/-- Unspent coins by outpoint; a spent or unknown outpoint has none. -/
abbrev CoinMap := COutPoint → Option Coin

def sumInRange (e : Reject) : Int → List Int → Verdict Int
  | s, [] => .ok s
  | s, v :: vs =>
    if moneyRange v ∧ moneyRange (s + v) then sumInRange e (s + v) vs else .error e

lemma sumInRange_ok_iff (e : Reject) (s t : Int) (vs : List Int) (hs : moneyRange s) :
    sumInRange e s vs = .ok t ↔
      (∀ v ∈ vs, moneyRange v) ∧ moneyRange (s + vs.sum) ∧ t = s + vs.sum := by
  induction vs generalizing s with
  | nil => simp [sumInRange, hs, eq_comm]
  | cons v vs ih =>
    have hsum : s + (v :: vs).sum = s + v + vs.sum := by
      rw [sum_cons]; omega
    have hnonneg : (∀ u ∈ vs, moneyRange u) → 0 ≤ vs.sum := fun h =>
      sum_nonneg fun u hu => (h u hu).1
    by_cases hv : moneyRange v ∧ moneyRange (s + v)
    · rw [sumInRange, if_pos hv, ih (s + v) hv.2, hsum, forall_mem_cons]
      tauto
    · rw [sumInRange, if_neg hv, hsum, forall_mem_cons]
      constructor
      · simp
      · rintro ⟨⟨hv', hvs⟩, htot, -⟩
        have := hnonneg hvs
        refine absurd ⟨hv', ?_⟩ hv
        unfold moneyRange at *
        omega

def getValueOut (tx : CTransaction) : Verdict Int :=
  sumInRange (.throws "GetValueOut: value out of range") 0
    (tx.vout.map (·.nValue) ++ tx.standardValues)

def getPlainValueOut (tx : CTransaction) : Verdict Int :=
  sumInRange (.throws "GetPlainValueOut: value out of range") 0 tx.standardValues

/-- `CTxOutData::GetCTFee`: the amount is the `int64_t` with the bits of the varint. -/
def dataFee (p : CTxOutData) : Option Int :=
  match p.vData with
  | b :: _ :: _ =>
    if b = DO_FEE then
      match getVarInt p.vData 1 with
      | .value i _ => some (int64 i.toNat)
      | _ => none
    else none
  | _ => none

def getCTFee (tx : CTransaction) : Option Int :=
  match tx.vpout with
  | .data p :: _ :: _ => dataFee p
  | _ => none

lemma moneyRange_zero : moneyRange 0 := by decide

lemma getPlainValueOut_ok_iff (tx : CTransaction) (v : Int) : getPlainValueOut tx = .ok v ↔
      (∀ u ∈ tx.standardValues, moneyRange u) ∧
        moneyRange tx.standardValues.sum ∧
        v = tx.standardValues.sum := by
  unfold getPlainValueOut
  rw [sumInRange_ok_iff _ _ _ _ moneyRange_zero, zero_add]

lemma getValueOut_ok_iff (tx : CTransaction) (hvout : tx.vout = []) (v : Int) :
    getValueOut tx = .ok v ↔
      (∀ u ∈ tx.standardValues, moneyRange u) ∧
        moneyRange tx.standardValues.sum ∧
        v = tx.standardValues.sum := by
  unfold getValueOut
  rw [hvout, map_nil, nil_append, sumInRange_ok_iff _ _ _ _ moneyRange_zero, zero_add]

def stakingOutputBytes (keyID : Uint160) (nAmount : Int) (vin : List CTxIn) : Bytes :=
  keyIDBytes keyID ++ amountBytes nAmount ++ vin.flatMap fun txin => writeOutPoint txin.prevout

def spendingOutputBytes (keyID : Uint160) (vRangeproof : Bytes) (vin : List CTxIn) : Bytes :=
  keyIDBytes keyID ++ writeBytes vRangeproof ++ vin.flatMap fun txin => writeOutPoint txin.prevout

section Outputs

variable (E : Env)
variable (fBulletproofsActive : Bool)

def signatureHashStakingOutput (keyID : Uint160) (nAmount : Int) (vin : List CTxIn) : Uint256 :=
  E.hash256 (stakingOutputBytes keyID nAmount vin)

def signatureHashSpendingOutput (keyID : Uint160) (vRangeproof : Bytes) (vin : List CTxIn) :
    Uint256 :=
  E.hash256 (spendingOutputBytes keyID vRangeproof vin)

def checkValue (nValue nValueOut : Int) : Verdict Int := do
  rejectIf (nValue < 0) (.dos 100 REJECT_INVALID "bad-txns-vout-negative")
  rejectIf (MAX_MONEY < nValue) (.dos 100 REJECT_INVALID "bad-txns-vout-toolarge")
  pure (nValueOut + nValue)

/-- The receiver's signature on a standard output. The second key id and hash are unset, hence
zero, unless the script is a conditional coinstake script. -/
def checkStakingSignature (p : CTxOutStandard) (keyID1 keyID2 : Uint160)
    (nSigHash1 nSigHash2 : Uint256) : Verdict Unit := do
  let pubKey1 := E.recoverCompact nSigHash1 p.vecSignature
  let pubKey2 := E.recoverCompact nSigHash2 p.vecSignature
  rejectIf (pubKey1 = none ∧ pubKey2 = none) (.dos 100 REJECT_INVALID "bad-staking-out-signature")
  rejectIf (E.getID pubKey1 ≠ keyID1 ∧ E.getID pubKey2 ≠ keyID2)
    (.dos 100 REJECT_INVALID "bad-staking-out-signature-key")

/-- The signature rule of a standard output in a transaction that is not a coinbase. -/
def checkStakingOutput (nTime : Int) (tx : CTransaction) (p : CTxOutStandard) : Verdict Unit :=
  if hasIsCoinstakeOp p.scriptPubKey then do
    let scripts ← orReject (splitConditionalCoinstakeScript p.scriptPubKey)
      (.dos 100 REJECT_INVALID "bad-staking-out-script-coinstake")
    let keyID1 ← orReject (extractStakingKeyID E.keyIDOf256 scripts.1)
      (.dos 100 REJECT_INVALID "bad-staking-out-script-coinstake-dest1")
    let keyID2 ← orReject (extractStakingKeyID E.keyIDOf256 scripts.2)
      (.dos 100 REJECT_INVALID "bad-staking-out-script-coinstake-dest2")
    checkStakingSignature E p keyID1 keyID2
      (signatureHashStakingOutput E keyID1 p.nValue tx.vin)
      (signatureHashStakingOutput E keyID2 p.nValue tx.vin)
  else do
    let keyID1 ← orReject (extractStakingKeyID E.keyIDOf256 p.scriptPubKey)
      (.dos 100 REJECT_INVALID "bad-staking-out-script-dest")
    -- the settings are used without a null check
    let settings ← orReject (E.getDevFundSettings nTime)
      (.throws "CheckStandardOutput: null settings")
    if settings.keyID = some keyID1 then pure ()
    else
      checkStakingSignature E p keyID1 0 (signatureHashStakingOutput E keyID1 p.nValue tx.vin) 0

def checkStandardOutput (nTime : Int) (tx : CTransaction) (nValueOut : Int) (p : CTxOutStandard) :
    Verdict Int := do
  let total ← checkValue p.nValue nValueOut
  rejectIf (COMPACT_SIGNATURE_SIZE < p.vecSignature.length)
    (.dos 10 REJECT_INVALID "bad-stake-vout-signature-size")
  rejectIf (hasIsCoinstakeOp p.scriptPubKey ∧ E.nAdjustedTime < E.OpIsCoinstakeTime)
    (.dos 10 REJECT_INVALID "bad-stake-vout-opiscoinstake")
  rejectIf (hasIsCoinstakeOp p.scriptPubKey ∧ E.fAllowOpIsCoinstakeWithP2PKH = false ∧
      isSpendScriptP2PKH p.scriptPubKey)
    (.dos 10 REJECT_INVALID "bad-stak-vout-opiscoinstake-spend-p2pkh")
  if tx.isCoinBase then pure total
  else do
    checkStakingOutput E nTime tx p
    pure total

def rangeproofAccepted (fBulletproofsActive : Bool) (p : CTxOutRingCT) : Bool :=
  if fBulletproofsActive then E.bulletproofVerify p.commitment p.vRangeproof
  else E.rangeproofVerify p.commitment p.vRangeproof

def keyIDOf (k : CCmpPubKey) : Uint160 := E.hash160 (keyBytes k)

/-- `CheckAnonOutput`; while blocks are imported the range proof and everything after it can be
switched off. -/
def checkAnonOutput (fBulletproofsActive : Bool) (tx : CTransaction) (fIsConvertOutput : Bool)
    (p : CTxOutRingCT) : Verdict Unit := do
  rejectIf (p.vData.length < 33 ∨ 33 + 5 < p.vData.length)
    (.dos 100 REJECT_INVALID "bad-rctout-ephem-size")
  rejectIf (5134 < p.vRangeproof.length) (.dos 100 REJECT_INVALID "bad-rctout-rangeproof-size")
  if E.fBusyImporting && E.fSkipRangeproof then pure ()
  else do
    rejectIf (rangeproofAccepted E fBulletproofsActive p = false)
      (.dos 100 REJECT_INVALID "bad-rctout-rangeproof-verify")
    rejectIf ((fIsConvertOutput ∧ COMPACT_SIGNATURE_SIZE < p.vecSignature.length) ∨
        (¬ fIsConvertOutput ∧ p.vecSignature ≠ []))
      (.dos 10 REJECT_INVALID "bad-txns-vout-spending-signature-size")
    if fIsConvertOutput then do
      rejectIf (p.vecSignature = []) (.dos 100 REJECT_INVALID "bad-spending-out-signature-missing")
      let key ← orReject
        (E.recoverCompact (signatureHashSpendingOutput E (keyIDOf E p.pk) p.vRangeproof tx.vin)
          p.vecSignature)
        (.dos 100 REJECT_INVALID "bad-spending-out-signature")
      rejectIf (E.getID (some key) ≠ keyIDOf E p.pk)
        (.dos 100 REJECT_INVALID "bad-spending-out-signature-key")
    else pure ()

def checkDataOutput (p : CTxOutData) : Verdict Unit := do
  rejectIf (p.vData.length < 1) (.dos 100 REJECT_INVALID "bad-output-data-size")
  rejectIf (34 + 5 + 34 < p.vData.length) (.dos 100 REJECT_INVALID "bad-output-data-size")

/-- The check of one output by its type and the running total after it; the clock is read as an
`int`. -/
def checkOutputBody (fBulletproofsActive : Bool) (tx : CTransaction) (fIsConvertOutput : Bool)
    (nValueOut : Int) : CTxOutBase → Verdict Int
  | .standard p => checkStandardOutput E (Int.bmod E.nAdjustedTime (2 ^ 32)) tx nValueOut p
  | .ringCT p => do
    checkAnonOutput E fBulletproofsActive tx fIsConvertOutput p
    pure nValueOut
  | .data p => do
    checkDataOutput p
    pure nValueOut

def checkOutput (fBulletproofsActive : Bool) (tx : CTransaction) (fIsConvertOutput : Bool)
    (nValueOut : Int) (o : CTxOutBase) : Verdict Int := do
  let total ← checkOutputBody E fBulletproofsActive tx fIsConvertOutput nValueOut o
  rejectIf (¬ moneyRange total) (.dos 100 REJECT_INVALID "bad-txns-txouttotal-toolarge")
  pure total

def standardPrevouts (vin : List CTxIn) : List COutPoint :=
  (vin.filter fun txin => ¬ txin.isAnonInput).map (·.prevout)

def checkOutputs (fBulletproofsActive : Bool) (tx : CTransaction) : Verdict Unit := do
  rejectIf (tx.vpout = []) (.dos 10 REJECT_INVALID "bad-txns-vpout-empty")
  rejectIf (tx.vout ≠ []) (.dos 10 REJECT_INVALID "bad-txns-vout-not-empty")
  let fHasStandardInput := tx.vin.any fun txin => ¬ txin.isAnonInput
  let fHasStandardOutput := tx.vpout.any (·.isStandardOutput)
  let _ ← loop (checkOutput E fBulletproofsActive tx (fHasStandardInput || fHasStandardOutput)) 0
    tx.vpout
  let nDataOutputs := (tx.vpout.filter fun o => !o.isStandardOutput && !o.isRingCT).length
  rejectIf (1 + tx.standardOutputs.length < nDataOutputs)
    (.dos 100 REJECT_INVALID "too-many-data-outputs")

def checkTransaction (fBulletproofsActive : Bool) (tx : CTransaction)
    (fCheckDuplicateInputs : Bool) : Verdict Unit := do
  rejectIf (tx.vin = []) (.dos 10 REJECT_INVALID "bad-txns-vin-empty")
  rejectIf (MAX_BLOCK_WEIGHT < (serializeTransaction false tx).length * WITNESS_SCALE_FACTOR)
    (.dos 100 REJECT_INVALID "bad-txns-oversize")
  rejectIf (¬ tx.isBitcoinCVersion) (.dos 100 REJECT_INVALID "bad-txn-version")
  checkOutputs E fBulletproofsActive tx
  rejectIf (fCheckDuplicateInputs ∧ ¬ (standardPrevouts tx.vin).Nodup)
    (.dos 100 REJECT_INVALID "bad-txns-inputs-duplicate")
  if tx.isCoinBase then
    rejectIf (tx.vin.any fun txin => txin.scriptSig.length < 2 || 150 < txin.scriptSig.length)
      (.dos 100 REJECT_INVALID "bad-cb-length")
  else
    rejectIf (tx.vin.any fun txin => ¬ txin.isAnonInput && txin.prevout.isNull)
      (.dos 10 REJECT_INVALID "bad-txns-prevout-null")

lemma checkTransaction_ok (tx : CTransaction) (fCheckDuplicateInputs : Bool) (r : Unit)
    (h : checkTransaction E fBulletproofsActive tx fCheckDuplicateInputs = .ok r) :
    tx.vin ≠ [] ∧ (serializeTransaction false tx).length * WITNESS_SCALE_FACTOR ≤ MAX_BLOCK_WEIGHT ∧
      tx.isBitcoinCVersion ∧ checkOutputs E fBulletproofsActive tx = .ok () ∧
      (fCheckDuplicateInputs → (standardPrevouts tx.vin).Nodup) := by
  simp only [checkTransaction, bind_ok_iff, rejectIf_ok_iff] at h
  obtain ⟨-, hvin, -, hsize, -, hversion, u, houts, -, hdup, -⟩ := h
  exact ⟨hvin, Nat.not_lt.mp hsize, not_not.mp hversion, houts, by tauto⟩

lemma checkOutputs_ok (tx : CTransaction) (r : Unit)
    (h : checkOutputs E fBulletproofsActive tx = .ok r) :
    tx.vpout ≠ [] ∧ tx.vout = [] ∧ ∃ fIsConvertOutput total,
      loop (checkOutput E fBulletproofsActive tx fIsConvertOutput) 0 tx.vpout = .ok total := by
  simp only [checkOutputs, bind_ok_iff, rejectIf_ok_iff] at h
  obtain ⟨-, hvpout, -, hvout, total, hloop, -⟩ := h
  exact ⟨hvpout, not_not.mp hvout, _, total, hloop⟩

lemma checkTransaction_rangeproof (tx : CTransaction) (fCheckDuplicateInputs : Bool) (r : Unit)
    (h : checkTransaction E fBulletproofsActive tx fCheckDuplicateInputs = .ok r)
    (hskip : (E.fBusyImporting && E.fSkipRangeproof) = false) (p : CTxOutRingCT)
    (hp : p ∈ tx.ringCTOutputs) : rangeproofAccepted E fBulletproofsActive p = true := by
  obtain ⟨-, -, -, houts, -⟩ := checkTransaction_ok E _ _ _ _ h
  obtain ⟨-, -, fConvert, total, hloop⟩ := checkOutputs_ok E _ _ _ houts
  obtain ⟨o, ho, hop⟩ := mem_filterMap.mp hp
  obtain rfl : o = .ringCT p := by
    cases o <;> simp_all [CTxOutBase.ringCT?]
  obtain ⟨m, m', hstep⟩ := loop_ok_mem _ _ _ _ hloop _ ho
  simp only [checkOutput, checkOutputBody, checkAnonOutput, hskip, bind_ok_iff, rejectIf_ok_iff,
    Bool.false_eq_true, if_false] at hstep
  obtain ⟨-, ⟨-, ⟨-, -, -, -, -, hproof, -⟩, -⟩, -⟩ := hstep
  simpa using hproof

lemma checkTransaction_length (tx : CTransaction) (fCheckDuplicateInputs : Bool) (r : Unit)
    (h : checkTransaction E fBulletproofsActive tx fCheckDuplicateInputs = .ok r) :
    tx.vin.length * 41 + tx.vpout.length * 2 ≤ 2000000 := by
  obtain ⟨-, hsize, hversion, -, -⟩ := checkTransaction_ok E _ _ _ _ h
  have := length_le_serializeTransaction false tx hversion
  unfold WITNESS_SCALE_FACTOR MAX_BLOCK_WEIGHT at hsize
  omega

end Outputs

section Inputs

variable (coins : CoinMap)

def haveInputs (tx : CTransaction) : Prop :=
  tx.isCoinBase ∨ ∀ txin ∈ tx.vin, ¬ txin.isAnonInput → (coins txin.prevout).isSome

instance (tx : CTransaction) : Decidable (haveInputs coins tx) :=
  inferInstanceAs (Decidable (_ ∨ _))

/-- The depth rule for coinbase and coinstake coins, scaled in at the start of the chain. -/
def premature (nSpendHeight : Nat) (coin : Coin) : Prop :=
  coin.fCoinBase ∧ (nSpendHeight : Int) - coin.nHeight < COINBASE_MATURITY ∧
    (nSpendHeight : Int) - coin.nHeight < min COINBASE_MATURITY ((coin.nHeight / 2 : Nat) : Int)

instance (nSpendHeight : Nat) (coin : Coin) : Decidable (premature nSpendHeight coin) :=
  inferInstanceAs (Decidable (_ ∧ _ ∧ _))

structure InputTally where
  nValueIn : Int
  nStandard : Nat
  nRingCT : Nat
  deriving DecidableEq

def tallyInput (nSpendHeight : Nat) (t : InputTally) (txin : CTxIn) : Verdict InputTally :=
  if txin.isAnonInput then .ok { t with nRingCT := t.nRingCT + 1 }
  else do
    let coin ← orReject (coins txin.prevout) (.throws "CheckTxInputs: coin.IsSpent()")
    rejectIf (premature nSpendHeight coin)
      (.dos 0 REJECT_INVALID "bad-txns-premature-spend-of-coinbase")
    rejectIf (coin.nType ≠ .standard) (.dos 100 REJECT_INVALID "bad-txns-input-type")
    rejectIf (¬ moneyRange coin.out.nValue ∨ ¬ moneyRange (t.nValueIn + coin.out.nValue))
      (.dos 100 REJECT_INVALID "bad-txns-inputvalues-outofrange")
    pure ⟨t.nValueIn + coin.out.nValue, t.nStandard + 1, t.nRingCT⟩

/-- The fee before its range is checked: declared in a data output as soon as any input or output
is a RingCT one, the difference of the plain values otherwise. -/
def feeOf (tx : CTransaction) (nValueIn nPlainValueOut : Int) (nRingCT : Nat) : Verdict Int :=
  if 0 < nRingCT then orReject (getCTFee tx) (.dos 100 REJECT_INVALID "bad-fee-output")
  else do
    rejectIf (nValueIn < nPlainValueOut) (.dos 100 REJECT_INVALID "bad-txns-in-belowout")
    pure (nValueIn - nPlainValueOut)

def txFee (tx : CTransaction) (nValueIn nPlainValueOut : Int) (nRingCT : Nat) : Verdict Int :=
  if tx.isCoinStake then do
    rejectIf (0 < nRingCT) (.dos 100 REJECT_INVALID "bad-coinstake-outputs")
    pure (nPlainValueOut - nValueIn)
  else do
    let nTxFee ← feeOf tx nValueIn nPlainValueOut nRingCT
    rejectIf (nTxFee < 0) (.dos 100 REJECT_INVALID "bad-txns-fee-negative")
    rejectIf (¬ moneyRange nTxFee) (.dos 100 REJECT_INVALID "bad-txns-fee-outofrange")
    pure nTxFee

/-- What `CheckTxInputs` hands back: the fee and the two flags of the validation state. -/
structure TxInputs where
  nTxFee : Int
  fHasAnonInput : Bool
  fHasAnonOutput : Bool
  deriving DecidableEq

variable (tx : CTransaction) (nSpendHeight : Nat) (txin : CTxIn) (vin : List CTxIn) (nValueIn : Int)
  (t : InputTally) (r : TxInputs) (nPlainValueOut : Int) (t' : InputTally) (nRingCT : Nat)
  (fee : Int)

def checkTxInputs (tx : CTransaction) (nSpendHeight : Nat) : Verdict TxInputs := do
  rejectIf (tx.isBitcoinCVersion ∧ tx.vin = []) (.dos 100 REJECT_INVALID "bad-txn-no-inputs")
  rejectIf (¬ haveInputs coins tx) (.dos 100 REJECT_INVALID "bad-txns-inputs-missingorspent")
  let t ← loop (tallyInput coins nSpendHeight) ⟨0, 0, 0⟩ tx.vin
  rejectIf (0 < t.nStandard ∧ 0 < t.nRingCT) (.dos 100 REJECT_INVALID "mixed-input-types")
  let nPlainValueOut ← getPlainValueOut tx
  let nTxFee ← txFee tx t.nValueIn nPlainValueOut (t.nRingCT + tx.ringCTOutputs.length)
  pure ⟨nTxFee, tx.vin.any fun txin => txin.isAnonInput, tx.ringCTOutputs ≠ []⟩

/-- A mature standard coin with a value in range. -/
def Spendable (nSpendHeight : Nat) (txin : CTxIn) : Prop :=
  ∃ coin, coins txin.prevout = some coin ∧ ¬ premature nSpendHeight coin ∧
    coin.nType = .standard ∧ moneyRange coin.out.nValue

def inputValue (txin : CTxIn) : Int := ((coins txin.prevout).map (·.out.nValue)).getD 0

def valueIn (vin : List CTxIn) : Int :=
  ((vin.filter fun txin => ¬ txin.isAnonInput).map (inputValue coins)).sum

@[simp] lemma valueIn_nil : valueIn coins [] = 0 := rfl

lemma valueIn_cons_anon (h : txin.isAnonInput) :
    valueIn coins (txin :: vin) = valueIn coins vin := by
  simp [valueIn, h]

lemma valueIn_cons_standard (h : ¬ txin.isAnonInput) :
    valueIn coins (txin :: vin) = inputValue coins txin + valueIn coins vin := by
  simp [valueIn, h]

lemma tallyInput_standard_ok_iff (txin : CTxIn) (h : ¬ txin.isAnonInput) :
    tallyInput coins nSpendHeight t txin = .ok t' ↔
      Spendable coins nSpendHeight txin ∧ moneyRange (t.nValueIn + inputValue coins txin) ∧
        t' = ⟨t.nValueIn + inputValue coins txin, t.nStandard + 1, t.nRingCT⟩ := by
  simp only [tallyInput, if_neg h, bind_ok_iff, orReject_ok_iff, rejectIf_ok_iff, pure_ok_iff,
    Spendable, inputValue]
  constructor
  · rintro ⟨coin, hcoin, -, hmature, -, htype, -, hrange, rfl⟩
    simp only [hcoin, Option.map_some, Option.getD_some]
    tauto
  · rintro ⟨⟨coin, hcoin, hmature, htype, hvalue⟩, hsum, rfl⟩
    simp only [hcoin, Option.map_some, Option.getD_some] at hsum ⊢
    exact ⟨coin, rfl, ⟨⟩, hmature, ⟨⟩, not_not.mpr htype, ⟨⟩, by tauto, rfl⟩

lemma valueIn_nonneg (h : ∀ txin ∈ vin, ¬ txin.isAnonInput → Spendable coins nSpendHeight txin) :
    0 ≤ valueIn coins vin := by
  refine sum_nonneg ?_
  intro v hv
  obtain ⟨txin, hmem, rfl⟩ := mem_map.mp hv
  obtain ⟨hvin, hstd⟩ := mem_filter.mp hmem
  obtain ⟨coin, hcoin, -, -, hrange⟩ := h txin hvin (by simpa using hstd)
  simpa [inputValue, hcoin] using hrange.1

lemma tallyInputs_ok_iff (ht : moneyRange t.nValueIn) :
    loop (tallyInput coins nSpendHeight) t vin = .ok t' ↔
      (∀ txin ∈ vin, ¬ txin.isAnonInput → Spendable coins nSpendHeight txin) ∧
        moneyRange (t.nValueIn + valueIn coins vin) ∧
        t' = ⟨t.nValueIn + valueIn coins vin,
          t.nStandard + (vin.filter fun txin => ¬ txin.isAnonInput).length,
          t.nRingCT + (vin.filter fun txin => txin.isAnonInput).length⟩ := by
  induction vin generalizing t with
  | nil => simp [ht, eq_comm]
  | cons txin vin ih =>
    rw [loop_cons_ok_iff, forall_mem_cons]
    by_cases h : txin.isAnonInput
    · simp only [tallyInput, if_pos h, Except.ok.injEq, exists_eq_left']
      rw [ih ⟨t.nValueIn, t.nStandard, t.nRingCT + 1⟩ ht, valueIn_cons_anon coins txin vin h]
      simp [h, Nat.add_assoc, Nat.add_comm 1]
    · simp only [tallyInput_standard_ok_iff coins nSpendHeight t _ txin h]
      rw [valueIn_cons_standard coins txin vin h]
      constructor
      · rintro ⟨m, ⟨hspend, hrange, rfl⟩, hrest⟩
        obtain ⟨hall, htot, rfl⟩ := (ih _ hrange).mp hrest
        refine ⟨⟨fun _ => hspend, hall⟩, ?_, ?_⟩
        · simpa [add_assoc] using htot
        · simp [h, Nat.add_comm 1, add_assoc]
      · rintro ⟨⟨hspend, hall⟩, htot, rfl⟩
        have hrange : moneyRange (t.nValueIn + inputValue coins txin) := by
          have hrest := valueIn_nonneg coins nSpendHeight vin hall
          obtain ⟨coin, hcoin, -, -, hvalue⟩ := hspend h
          have hthis : inputValue coins txin = coin.out.nValue := by simp [inputValue, hcoin]
          unfold moneyRange at *
          omega
        refine ⟨_, ⟨hspend h, hrange, rfl⟩, (ih _ hrange).mpr ⟨hall, ?_, ?_⟩⟩
        · simpa [add_assoc] using htot
        · simp [h, Nat.add_comm 1, add_assoc]

lemma checkTxInputs_ok_iff : checkTxInputs coins tx nSpendHeight = .ok r ↔
      ¬ (tx.isBitcoinCVersion ∧ tx.vin = []) ∧ haveInputs coins tx ∧
      (∀ txin ∈ tx.vin, ¬ txin.isAnonInput → Spendable coins nSpendHeight txin) ∧
      moneyRange (valueIn coins tx.vin) ∧
      ((∀ txin ∈ tx.vin, txin.isAnonInput) ∨ ∀ txin ∈ tx.vin, ¬ txin.isAnonInput) ∧
      getPlainValueOut tx = .ok tx.standardValues.sum ∧
      txFee tx (valueIn coins tx.vin) tx.standardValues.sum
        (tx.anonInputs.length + tx.ringCTOutputs.length) = .ok r.nTxFee ∧
      r.fHasAnonInput = (tx.vin.any fun txin => txin.isAnonInput) ∧
      r.fHasAnonOutput = decide (tx.ringCTOutputs ≠ []) := by
  simp only [checkTxInputs, bind_ok_iff, rejectIf_ok_iff, pure_ok_iff,
    tallyInputs_ok_iff coins nSpendHeight tx.vin ⟨0, 0, 0⟩ _ moneyRange_zero]
  have hmix : ∀ vin : List CTxIn,
      ¬ (0 < (vin.filter fun txin => ¬ txin.isAnonInput).length ∧
          0 < (vin.filter fun txin => txin.isAnonInput).length) ↔
        (∀ txin ∈ vin, txin.isAnonInput) ∨ ∀ txin ∈ vin, ¬ txin.isAnonInput := by
    intro vin
    simp only [not_and_or, Nat.not_lt, Nat.le_zero, length_eq_zero_iff, filter_eq_nil_iff,
      decide_eq_true_eq, not_not]
  constructor
  · rintro ⟨-, hne, -, hhave, t, ⟨hspend, hrange, rfl⟩, -, hmixed, v, hv, fee, hfee, rfl⟩
    obtain ⟨-, -, rfl⟩ := (getPlainValueOut_ok_iff tx v).mp hv
    simp only [zero_add] at hrange hmixed hfee
    exact ⟨hne, not_not.mp hhave, hspend, hrange, (hmix tx.vin).mp hmixed, hv, hfee, rfl, rfl⟩
  · rintro ⟨hne, hhave, hspend, hrange, hmixed, hv, hfee, hin, hout⟩
    refine ⟨⟨⟩, hne, ⟨⟩, not_not.mpr hhave, _, ⟨hspend, ?_, rfl⟩, ⟨⟩, ?_, _, hv, r.nTxFee, ?_, ?_⟩
    · simpa only [zero_add] using hrange
    · simpa only [zero_add] using (hmix tx.vin).mpr hmixed
    · simpa only [zero_add, CTransaction.anonInputs] using hfee
    · rw [← hin, ← hout]

lemma feeOf_ok_iff : feeOf tx nValueIn nPlainValueOut nRingCT = .ok fee ↔
      (0 < nRingCT ∧ getCTFee tx = some fee) ∨
        (nRingCT = 0 ∧ nPlainValueOut ≤ nValueIn ∧ fee = nValueIn - nPlainValueOut) := by
  unfold feeOf
  by_cases hr : 0 < nRingCT
  · rw [if_pos hr, orReject_ok_iff]
    simp [hr, Nat.ne_of_gt hr]
  · rw [if_neg hr, rejectIf_bind_ok_iff, pure_ok_iff]
    have hzero : nRingCT = 0 := by omega
    simp [hzero, eq_comm]

lemma txFee_ok_iff (hcs : ¬ tx.isCoinStake) : txFee tx nValueIn nPlainValueOut nRingCT = .ok fee ↔
      moneyRange fee ∧
        ((0 < nRingCT ∧ getCTFee tx = some fee) ∨
          (nRingCT = 0 ∧ fee = nValueIn - nPlainValueOut)) := by
  simp only [txFee, if_neg hcs, bind_ok_iff, rejectIf_ok_iff, pure_ok_iff, feeOf_ok_iff]
  constructor
  · rintro ⟨a, ha, -, -, -, hrange, rfl⟩
    exact ⟨not_not.mp hrange, ha.imp_right fun h => ⟨h.1, h.2.2⟩⟩
  · rintro ⟨hrange, hfee⟩
    refine ⟨fee, hfee.imp_right fun h => ⟨h.1, ?_, h.2⟩, ⟨⟩, Int.not_lt.mpr hrange.1, ⟨⟩,
      not_not.mpr hrange, rfl⟩
    have := hrange.1
    omega

lemma txFee_coinStake_ok_iff (reward : Int) (hcs : tx.isCoinStake) :
    txFee tx nValueIn nPlainValueOut nRingCT = .ok reward ↔
      nRingCT = 0 ∧ reward = nPlainValueOut - nValueIn := by
  simp only [txFee, if_pos hcs, bind_ok_iff, rejectIf_ok_iff, pure_ok_iff]
  constructor
  · rintro ⟨-, hr, rfl⟩
    exact ⟨by omega, rfl⟩
  · rintro ⟨hr, rfl⟩
    exact ⟨⟨⟩, by omega, rfl⟩

lemma checkTxInputs_coinStake (hcs : tx.isCoinStake)
    (h : checkTxInputs coins tx nSpendHeight = .ok r) :
    (∀ txin ∈ tx.vin, ¬ txin.isAnonInput ∧ Spendable coins nSpendHeight txin) ∧
      valueIn coins tx.vin = (tx.vin.map (inputValue coins)).sum ∧
      moneyRange (valueIn coins tx.vin) ∧ (∀ v ∈ tx.standardValues, moneyRange v) ∧
      moneyRange tx.standardValues.sum := by
  obtain ⟨-, -, hspend, hrange, -, hout, hfee, -, -⟩ :=
    (checkTxInputs_ok_iff coins tx nSpendHeight r).mp h
  obtain ⟨hvalues, hsum, -⟩ := (getPlainValueOut_ok_iff tx _).mp hout
  rw [txFee_coinStake_ok_iff _ _ _ _ _ hcs] at hfee
  have hanon : tx.anonInputs = [] := length_eq_zero_iff.mp (by omega)
  rw [CTransaction.anonInputs, filter_eq_nil_iff] at hanon
  have hstd : ∀ txin ∈ tx.vin, ¬ txin.isAnonInput := fun txin hmem => by simpa using hanon txin hmem
  refine ⟨fun txin hmem => ⟨hstd txin hmem, hspend txin hmem (hstd txin hmem)⟩, ?_, hrange, hvalues,
    hsum⟩
  rw [valueIn, filter_eq_self.mpr]
  simpa using hstd

end Inputs

def LOCKTIME_THRESHOLD : Nat := 500000000
def SEQUENCE_FINAL : UInt32 := 0xffffffff
def SEQUENCE_LOCKTIME_DISABLE_FLAG : UInt32 := 0x80000000
def SEQUENCE_LOCKTIME_TYPE_FLAG : UInt32 := 0x00400000
def SEQUENCE_LOCKTIME_MASK : UInt32 := 0x0000ffff

def isFinalTx (tx : CTransaction) (nBlockHeight : Nat) (nBlockTime : Int) : Prop :=
  tx.nLockTime = 0 ∨
    (tx.nLockTime.toNat : Int) <
      (if tx.nLockTime.toNat < LOCKTIME_THRESHOLD then (nBlockHeight : Int) else nBlockTime) ∨
    ∀ txin ∈ tx.vin, txin.nSequence = SEQUENCE_FINAL

instance (tx : CTransaction) (nBlockHeight : Nat) (nBlockTime : Int) :
    Decidable (isFinalTx tx nBlockHeight nBlockTime) :=
  inferInstanceAs (Decidable (_ ∨ _ ∨ _))

/-- `CBlockIndex::GetMedianTimePast` over the entry and at most ten of its ancestors. -/
def getMedianTimePast (branch : List CBlockIndex) : Int :=
  let times := (branch.take 11).map fun p => p.nTime.toNat
  ((times.insertionSort (· ≤ ·)).getD (times.length / 2) 0 : Nat)

def getAncestor (branch : List CBlockIndex) (h : Nat) : List CBlockIndex :=
  branch.dropWhile fun p => p.nHeight ≠ h

/-- One iteration of `CalculateSequenceLocks` on an input and the height of its coin. -/
def sequenceLock (branch : List CBlockIndex) (lock : Int × Int) (x : CTxIn × Nat) :
    Verdict (Int × Int) :=
  if x.1.isAnonInput ∨ x.1.nSequence &&& SEQUENCE_LOCKTIME_DISABLE_FLAG ≠ 0 then .ok lock
  else
    let masked : Int := (x.1.nSequence &&& SEQUENCE_LOCKTIME_MASK).toNat
    if x.1.nSequence &&& SEQUENCE_LOCKTIME_TYPE_FLAG ≠ 0 then
      match getAncestor branch (x.2 - 1) with
      | [] => .error (.throws "CalculateSequenceLocks: null ancestor")
      | p :: ps => .ok (lock.1, max lock.2 (getMedianTimePast (p :: ps) + masked * 512 - 1))
    else .ok (max lock.1 (x.2 + masked - 1), lock.2)

def calculateSequenceLocks (tx : CTransaction) (prevHeights : List Nat)
    (branch : List CBlockIndex) : Verdict (Int × Int) :=
  if tx.nVersion < 2 then .ok (-1, -1)
  else loop (sequenceLock branch) (-1, -1) (tx.vin.zip prevHeights)

def sequenceLocks (tx : CTransaction) (prevHeights : List Nat) (branch : List CBlockIndex) :
    Verdict Bool := do
  let lock ← calculateSequenceLocks tx prevHeights branch
  match branch with
  | pindex :: p :: ps => pure (lock.1 < pindex.nHeight && lock.2 < getMedianTimePast (p :: ps))
  | _ => .error (.throws "EvaluateSequenceLocks: block.pprev")

def getLegacySigOpCount (tx : CTransaction) : Nat :=
  (if tx.isBitcoinCVersion then 0
    else (tx.vin.map fun txin => getSigOpCount txin.scriptSig).sum +
      (tx.vout.map fun o => getSigOpCount o.scriptPubKey).sum) +
    (tx.standardOutputs.map fun p => getSigOpCount p.scriptPubKey).sum

def getTransactionSigOpCost (E : Env) (tx : CTransaction) (coins : CoinMap) (flags : UInt32) :
    Nat :=
  getLegacySigOpCount tx * WITNESS_SCALE_FACTOR +
    if tx.isCoinBase then 0 else E.inputSigOpCost tx coins flags

end TxVerify
