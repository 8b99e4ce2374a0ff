import BitcoinC.OutputAuthority

/-!
# The table of dev-fund settings

The settings in force at a time are those of the last table entry that lies before
it; with no such entry there are none.
-/

namespace DevFundTable

open Primitives Encoding Scripts Environment Verdicts TxVerify

variable (E : Env) (fBulletproofsActive : Bool) (tx : CTransaction)

variable (nTime : Int) (fIsConvertOutput : Bool) (p : CTxOutStandard) (nValueOut : Int)
  (what : String)

def clock : Int := Int.bmod E.nAdjustedTime (2 ^ 32)

/-- No entry of the table lies before the time. -/
def NoneBefore (nTime : Int) : Prop := ∀ entry ∈ E.vDevFundSettings, nTime ≤ entry.1

lemma getDevFundSettings_eq_none_iff : E.getDevFundSettings nTime = none ↔ NoneBefore E nTime := by
  simp [Env.getDevFundSettings, NoneBefore]

/-- A plain output that passes all checks up to the one for the dev fund. -/
structure PaysKey (p : CTxOutStandard) : Prop where
  nonneg : 0 ≤ p.nValue
  bounded : p.nValue ≤ MAX_MONEY
  size : p.vecSignature.length ≤ COMPACT_SIGNATURE_SIZE
  plain : ¬ hasIsCoinstakeOp p.scriptPubKey
  key : ∃ k, extractStakingKeyID E.keyIDOf256 p.scriptPubKey = some k

def hasStandard : Bool :=
  (tx.vin.any fun txin => ¬ txin.isAnonInput) || tx.vpout.any (·.isStandardOutput)

/-- The transaction passes all checks up to an output that looks up the dev fund. -/
structure LooksUp : Prop where
  vin : tx.vin ≠ []
  size : (serializeTransaction false tx).length * WITNESS_SCALE_FACTOR ≤ MAX_BLOCK_WEIGHT
  version : tx.isBitcoinCVersion
  vout : tx.vout = []
  notCoinBase : ¬ tx.isCoinBase
  output : ∃ before p after total, tx.vpout = before ++ .standard p :: after ∧
    loop (checkOutput E fBulletproofsActive tx (hasStandard tx)) 0 before = .ok total ∧ PaysKey E p

lemma checkStakingSignature_gives_verdict (keyID1 keyID2 : Uint160) (nSigHash1 nSigHash2 : Uint256)
    (what : String) :
    checkStakingSignature E p keyID1 keyID2 nSigHash1 nSigHash2 ≠ .error (.throws what) := by
  simp [checkStakingSignature, bind_error_iff, rejectIf_error_iff]

lemma checkAnonOutput_gives_verdict (p : CTxOutRingCT) (what : String) :
    checkAnonOutput E fBulletproofsActive tx fIsConvertOutput p ≠ .error (.throws what) := by
  unfold checkAnonOutput
  split_ifs <;> simp [bind_error_iff, rejectIf_error_iff, orReject_error_iff]

lemma checkDataOutput_gives_verdict (p : CTxOutData) (what : String) :
    checkDataOutput p ≠ .error (.throws what) := by
  simp [checkDataOutput, bind_error_iff, rejectIf_error_iff]

lemma checkStakingOutput_throws_iff : checkStakingOutput E nTime tx p = .error (.throws what) ↔
      ¬ hasIsCoinstakeOp p.scriptPubKey ∧
        (∃ k, extractStakingKeyID E.keyIDOf256 p.scriptPubKey = some k) ∧
        E.getDevFundSettings nTime = none ∧ what = "CheckStandardOutput: null settings" := by
  unfold checkStakingOutput
  by_cases hcs : hasIsCoinstakeOp p.scriptPubKey
  · simp [hcs, bind_error_iff, orReject_error_iff, checkStakingSignature_gives_verdict]
  · -- past the lookup only the signature check is left
    have hrest : ∀ (k : Uint160) (settings : DevFundSettings),
        (if settings.keyID = some k then (pure () : Verdict Unit) else
          checkStakingSignature E p k 0 (signatureHashStakingOutput E k p.nValue tx.vin) 0) ≠
            .error (.throws what) := by
      intro k settings
      split_ifs
      · exact pure_ne_error _ _
      · exact checkStakingSignature_gives_verdict E p _ _ _ _ what
    simp only [hcs, if_false, bind_error_iff, orReject_error_iff, orReject_ok_iff,
      hrest, reduceCtorEq, and_false, exists_false, or_false, false_or, not_false_eq_true, true_and,
      Reject.throws.injEq, @eq_comm _ what]
    tauto

lemma checkStandardOutput_throws_iff (p : CTxOutStandard) (what : String) :
    checkStandardOutput E nTime tx nValueOut p = .error (.throws what) ↔
      ¬ tx.isCoinBase ∧ PaysKey E p ∧ E.getDevFundSettings nTime = none ∧
        what = "CheckStandardOutput: null settings" := by
  have hvalue : ∀ what, checkValue p.nValue nValueOut ≠ .error (.throws what) := by
    intro what
    simp only [checkValue, bind_error_iff, rejectIf_error_iff, pure_ne_error, reduceCtorEq,
      and_false, exists_false, or_false, not_false_eq_true, ne_eq]
  constructor
  · intro h
    simp only [checkStandardOutput, bind_error_iff, rejectIf_error_iff, hvalue, reduceCtorEq,
      and_false, false_or, rejectIf_ok_iff] at h
    obtain ⟨total, htotal, -, hsize, -, -, -, -, h⟩ := h
    simp only [checkValue, bind_ok_iff, rejectIf_ok_iff, not_lt] at htotal
    obtain ⟨-, hnonneg, -, hbounded, -⟩ := htotal
    split_ifs at h with hcb
    · exact absurd h (pure_ne_error _ _)
    · simp only [bind_error_iff, checkStakingOutput_throws_iff, pure_ne_error, and_false,
        exists_false, or_false] at h
      exact ⟨hcb, ⟨hnonneg, hbounded, not_lt.mp hsize, h.1, h.2.1⟩, h.2.2⟩
  · rintro ⟨hcb, hp, hnone, rfl⟩
    have hstaking := (checkStakingOutput_throws_iff E tx nTime p _).mpr ⟨hp.plain,
      hp.key, hnone, rfl⟩
    simp [checkStandardOutput, checkValue, rejectIf, hp.nonneg.not_gt, hp.bounded.not_gt,
      hp.size.not_gt, hp.plain, hcb, hstaking]

lemma checkOutput_throws_iff (o : CTxOutBase) (what : String) :
    checkOutput E fBulletproofsActive tx fIsConvertOutput nValueOut o = .error (.throws what) ↔
      ¬ tx.isCoinBase ∧ (∃ p, o = .standard p ∧ PaysKey E p) ∧
        E.getDevFundSettings (clock E) = none ∧ what = "CheckStandardOutput: null settings" := by
  simp only [checkOutput, bind_error_iff, rejectIf_error_iff, reduceCtorEq, and_false,
    pure_ne_error, exists_false, or_false]
  cases o with
  | standard p => simp [checkOutputBody, checkStandardOutput_throws_iff, clock]
  | ringCT p =>
    simp only [checkOutputBody, bind_error_iff, checkAnonOutput_gives_verdict, pure_ne_error,
      reduceCtorEq, false_and, and_false, exists_false, or_false]
  | data p =>
    simp only [checkOutputBody, bind_error_iff, checkDataOutput_gives_verdict, pure_ne_error,
      reduceCtorEq, false_and, and_false, exists_false, or_false]

lemma checkOutputs_throws_iff : checkOutputs E fBulletproofsActive tx = .error (.throws what) ↔
      tx.vout = [] ∧ ¬ tx.isCoinBase ∧
        (∃ before p after total, tx.vpout = before ++ .standard p :: after ∧
          loop (checkOutput E fBulletproofsActive tx (hasStandard tx)) 0 before = .ok total ∧
          PaysKey E p) ∧
        E.getDevFundSettings (clock E) = none ∧ what = "CheckStandardOutput: null settings" := by
  simp only [checkOutputs, bind_error_iff, rejectIf_error_iff, rejectIf_ok_iff, loop_error_iff,
    checkOutput_throws_iff, reduceCtorEq, and_false, false_or, exists_false, or_false, not_not]
  constructor
  · rintro ⟨-, -, -, hvout, before, o, after, total, hsplit, hbefore, hcb, ⟨p, rfl, hp⟩, hnone⟩
    exact ⟨hvout, hcb, ⟨before, p, after, total, hsplit, hbefore, hp⟩, hnone⟩
  · rintro ⟨hvout, hcb, ⟨before, p, after, total, hsplit, hbefore, hp⟩, hnone⟩
    have hvpout : tx.vpout ≠ [] := by simp [hsplit]
    exact ⟨(), hvpout, (), hvout, before, _, after, total, hsplit, hbefore, hcb,
      ⟨p, rfl, hp⟩, hnone⟩

/-- `CheckTransaction` ends without a verdict exactly when no entry of the table lies before the
time on the clock and its checks come to a plain output that pays to a key. -/
theorem checkTransaction_without_verdict_iff (fCheckDuplicateInputs : Bool) :
    (∃ what, checkTransaction E fBulletproofsActive tx fCheckDuplicateInputs =
      .error (.throws what)) ↔ NoneBefore E (clock E) ∧ LooksUp E fBulletproofsActive tx := by
  have hlast : ∀ what, (if tx.isCoinBase then
      rejectIf (tx.vin.any fun txin => txin.scriptSig.length < 2 || 150 < txin.scriptSig.length)
        (.dos 100 REJECT_INVALID "bad-cb-length")
      else rejectIf (tx.vin.any fun txin => ¬ txin.isAnonInput && txin.prevout.isNull)
        (.dos 10 REJECT_INVALID "bad-txns-prevout-null")) ≠
          (.error (.throws what) : Verdict Unit) := by
    intro what
    split_ifs <;> simp [rejectIf_error_iff]
  rw [← getDevFundSettings_eq_none_iff]
  simp only [checkTransaction, bind_error_iff, rejectIf_error_iff, rejectIf_ok_iff,
    checkOutputs_throws_iff, hlast, reduceCtorEq, and_false, exists_false, false_or, or_false,
    not_lt, not_not]
  constructor
  · rintro ⟨what, -, hvin, -, hsize, -, hversion, hvout, hcb, houtput, hnone, -⟩
    exact ⟨hnone, hvin, hsize, hversion, hvout, hcb, houtput⟩
  · rintro ⟨hnone, hl⟩
    exact ⟨_, (), hl.vin, (), hl.size, (), hl.version, hl.vout, hl.notCoinBase, hl.output,
      hnone, rfl⟩

section

open OutputAuthority

def emptyTable : Env := { keyEnv with vDevFundSettings := [] }

/-- A network whose first settings come into force at time 2000; the clock stands at 1000. -/
def futureTable : Env := { keyEnv with vDevFundSettings := [(2000, ⟨none, none, 0, 1⟩)] }

/-- A payment to a key, signed by it, meets the missing settings of both networks. -/
theorem signed_payment_meets_no_settings :
    checkTransaction emptyTable true (paying signedOutput) true =
        .error (.throws "CheckStandardOutput: null settings") ∧
      checkTransaction futureTable true (paying signedOutput) true =
        .error (.throws "CheckStandardOutput: null settings") := by
  decide +kernel

end

end DevFundTable
