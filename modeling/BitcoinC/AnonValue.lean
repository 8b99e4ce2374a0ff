import BitcoinC.Commitments
import BitcoinC.RingIndex
import BitcoinC.RingSpends

/-!
# The value of anon transactions

With sound ring signatures, homomorphic and binding commitments and range proofs
that show 64-bit values, an accepted transaction with anon inputs spends exactly
what it pays, as integers.
-/

namespace AnonValue

open Primitives Environment Verdicts TxVerify Anon Blocks ConnectBlock KeyedStore RingRecords
  ChainRun RowMajor Commitments RingSpends List Option

variable (E : Env) (db : CBlockTreeDB) (tx : CTransaction)

section

variable {G : Type} [AddCommGroup G] {q : ℕ} (point : Commitment → G) (value : G →+ ZMod q)
  (real : RingStatement → Nat)

/-- What is assumed of the curve operations: `real` is the column that the signer of a statement
could sign for. -/
structure SoundCrypto (X : Crypto) : Prop where
  modulus : 2 ^ 128 ≤ q
  ring : ∀ (r : RingStatement) (lastRow : List CCmpPubKey),
    r.vM.length = r.nCols * (r.nRows - 1) → r.inCommits.length = r.nCols * (r.nRows - 1) →
    X.prepareMLSAG r.nCols r.nRows r.inCommits r.outCommits = .ok lastRow →
    X.verifyMLSAG r.txhash r.nCols r.nRows (r.vM ++ lastRow) r.keyImages r.pc r.ps = 0 →
    real r < r.nCols ∧
      Balances point value (column r.nCols (r.nRows - 1) (real r) r.inCommits) r.outCommits
  tally : ∀ ins outs, X.pedersenVerifyTally ins outs = true → Balances point value ins outs
  commit : ∀ v c, v < 2 ^ 64 → X.pedersenCommit v = some c → value (point c) = v
  rangeproof : ∀ c proof, X.rangeproofVerify c proof = true → amount point value c < 2 ^ 64
  bulletproof : ∀ c proof, X.bulletproofVerify c proof = true → amount point value c < 2 ^ 64

def storedAmount (db : CBlockTreeDB) (i : Int) : ℕ :=
  ((db.rctOutput i).map fun r => amount point value r.commitment).getD 0

def spent (E : Env) (db : CBlockTreeDB) (tx : CTransaction) : List Int :=
  spentIndices real (txRings E db tx)

/-- Range proofs are verified. -/
def Proving (P : Process) : Prop := (P.fBusyImporting && P.fSkipRangeproof) = false

def Ranged (db : CBlockTreeDB) : Prop :=
  ∀ i r, db.rctOutput i = some r → amount point value r.commitment < 2 ^ 64

variable {point value real}

/-- Range proofs bound the amounts of the outputs. -/
lemma outputs_ranged (hsound : SoundCrypto point value real E.toCrypto)
    (hproving : Proving E.toProcess) (fBulletproofsActive fCheckDuplicateInputs : Bool)
    (tx : CTransaction)
    (h : checkTransaction E fBulletproofsActive tx fCheckDuplicateInputs = .ok ()) :
    ∀ p ∈ tx.ringCTOutputs, amount point value p.commitment < 2 ^ 64 := by
  intro p hp
  have hproof := checkTransaction_rangeproof E _ tx _ () h hproving p hp
  unfold rangeproofAccepted at hproof
  split at hproof
  · exact hsound.bulletproof _ _ hproof
  · exact hsound.rangeproof _ _ hproof

lemma connectTip_ranged (hsound : SoundCrypto point value real E.toCrypto) (S T : ChainState)
    (a : ConnectStep) (ha : Proving a.around.process) (hS : Ranged point value S.db)
    (h : connectTip E S a = .ok T) : Ranged point value T.db := by
  obtain ⟨c, hc, rfl⟩ := (connectTip_ok_iff E S T a).mp h
  intro i r hr
  rcases mem_or_of_putAll _ _ _ _ hr with hnew | hold
  · obtain ⟨y, hy, heq⟩ := mem_map.mp hnew
    obtain ⟨rfl, rfl⟩ := Prod.mk.inj heq
    rcases connectBlock_anonOutputs _ _ _ _ _ c hc y hy with hview | ⟨tx, htx, hrec⟩
    · cases hview
    · obtain ⟨p, hp, -, hcommit⟩ := mem_ringRecords _ _ _ _ hrec
      obtain ⟨hbefore, -⟩ := (connectBlock_ok_iff _ _ _ _ _ _).mp hc
      obtain ⟨-, hblock, -⟩ := checkBefore_ok _ _ _ _ _ _ hbefore
      have hcheck := (checkBlock_ok _ _ _ _ hblock).2 tx htx
      show amount point value y.2.commitment < _
      rw [hcommit]
      exact outputs_ranged (withProcess E a.around.process) hsound ha _ _ tx hcheck p hp
  · exact hS i r hold

lemma disconnectTip_ranged (S T : ChainState) (A : Surroundings) (hS : Ranged point value S.db)
    (h : disconnectTip E S A = .ok T) : Ranged point value T.db := by
  obtain ⟨e, rest, view, -, -, rfl⟩ := disconnectTip_ok E S T A h
  intro i r hr
  have hr' : eraseAll S.db.rctOutput (view.anonOutputLinks.map Prod.snd) i = some r := hr
  rw [eraseAll_apply] at hr'
  split at hr'
  · cases hr'
  · exact hS i r hr'

def ProvingStep : ChainStep → Prop
  | .connect a => Proving a.around.process
  | .disconnect _ => True

/-- Along a run every stored commitment hides a 64-bit amount. -/
lemma run_ranged (hsound : SoundCrypto point value real E.toCrypto) (steps : List ChainStep)
    (T : ChainState) (hsteps : ∀ a ∈ steps, ProvingStep a)
    (hrun : loop (chainStep E) .empty steps = .ok T) : Ranged point value T.db := by
  refine loop_induction (chainStep E) (fun S => Ranged point value S.db) steps ?_ .empty T ?_ hrun
  · intro S S' a ha hS hstep
    have hproving := hsteps a ha
    cases a with
    | connect a => exact connectTip_ranged E hsound S S' a hproving hS hstep
    | disconnect A => exact disconnectTip_ranged E S S' A hS hstep
  · intro i r hr
    cases hr

lemma verifyRing_ok (r : RingStatement) (h : verifyRing E r = .ok ()) :
    ∃ lastRow, E.prepareMLSAG r.nCols r.nRows r.inCommits r.outCommits = .ok lastRow ∧
      E.verifyMLSAG r.txhash r.nCols r.nRows (r.vM ++ lastRow) r.keyImages r.pc r.ps = 0 := by
  unfold verifyRing at h
  split at h
  · cases h
  · rename_i lastRow hrow
    exact ⟨lastRow, hrow, not_not.mp ((rejectIf_ok_iff _ _ _).mp h)⟩

lemma rings_balance (hsound : SoundCrypto point value real E.toCrypto) (db : CBlockTreeDB)
    (rings : List Ring) (h : ∀ r ∈ rings, Verified E db r) :
    Balances point value (spentCommits real rings) (rings.flatMap (·.statement.outCommits)) := by
  refine balances_flatMap point value rings _ _ fun r hr => ?_
  obtain ⟨lastRow, hrow, hsig⟩ := verifyRing_ok E r.statement (h r hr).signed
  exact (hsound.ring r.statement lastRow (h r hr).keys (h r hr).commits hrow hsig).2

/-- The inputs of an accepted transaction balance the plain commitment and the RingCT outputs. -/
lemma spent_balance (hsound : SoundCrypto point value real E.toCrypto) (db : CBlockTreeDB)
    (tx : CTransaction) (plainCommitment : Commitment)
    (hrings : ∀ r ∈ txRings E db tx, Verified E db r)
    (hout : (txRings E db tx).flatMap (·.statement.outCommits) =
        plainCommitment :: ringCommitments tx ∨
      E.pedersenVerifyTally ((txRings E db tx).flatMap (·.statement.outCommits))
        (plainCommitment :: ringCommitments tx) = true) :
    Balances point value (spentCommits real (txRings E db tx))
      (plainCommitment :: ringCommitments tx) := by
  have hbalance := rings_balance E hsound db _ hrings
  rcases hout with hsame | htally
  · exact hsame ▸ hbalance
  · exact Balances.trans point value hbalance (hsound.tally _ _ htally)

lemma anonFee (coins : CoinMap) (tx : CTransaction) (nSpendHeight : Nat) (r : TxInputs)
    (hne : tx.vin ≠ []) (hanon : ∀ txin ∈ tx.vin, txin.isAnonInput)
    (h : checkTxInputs coins tx nSpendHeight = .ok r) :
    getCTFee tx = some r.nTxFee ∧ moneyRange r.nTxFee ∧ moneyRange tx.standardValues.sum := by
  obtain ⟨-, -, -, -, -, hplain, hfee, -, -⟩ := (checkTxInputs_ok_iff coins tx nSpendHeight r).mp h
  obtain ⟨-, hsum, -⟩ := (getPlainValueOut_ok_iff tx _).mp hplain
  have hall : tx.anonInputs = tx.vin := by
    rw [CTransaction.anonInputs, filter_eq_self]
    simpa using hanon
  have hpos : 0 < tx.anonInputs.length + tx.ringCTOutputs.length := by
    have := length_pos_of_ne_nil hne
    rw [hall]
    omega
  by_cases hcs : tx.isCoinStake
  · rw [txFee_coinStake_ok_iff _ _ _ _ _ hcs] at hfee
    omega
  · rw [txFee_ok_iff _ _ _ _ _ hcs] at hfee
    obtain ⟨hrange, hdeclared | hzero⟩ := hfee
    · exact ⟨hdeclared.2, hrange, hsum⟩
    · omega

lemma plainCommitmentOf_amount (hsound : SoundCrypto point value real E.toCrypto)
    (tx : CTransaction) (v : Int) (plainCommitment : Commitment) (hpos : 0 < v)
    (hv : v ≤ 2 * MAX_MONEY) (h : plainCommitmentOf E tx (int64 v) = .ok plainCommitment) :
    (amount point value plainCommitment : Int) = v := by
  unfold MAX_MONEY COIN at hv
  rw [int64_eq_of_bounds v (by omega) (by omega), plainCommitmentOf, if_pos hpos,
    orReject_ok_iff] at h
  have hvalue := hsound.commit v.toNat plainCommitment (by omega) h
  have hmod := hsound.modulus
  rw [amount_of_value point value hvalue (by omega)]
  omega

lemma spent_stored (h : ∀ r ∈ txRings E db tx, Verified E db r) (i : Int)
    (hi : i ∈ spent real E db tx) : (db.rctOutput i).isSome := by
  have hmem := mem_map_of_mem (f := fun i => (db.rctOutput i).map (·.commitment)) hi
  rw [spent, spentIndices_stored real E db _ h] at hmem
  obtain ⟨c, -, hc⟩ := mem_map.mp hmem
  rw [← isSome_map (f := (·.commitment)), ← hc]
  rfl

lemma spent_amounts (h : ∀ r ∈ txRings E db tx, Verified E db r) :
    (spent real E db tx).map (storedAmount point value db) =
      (spentCommits real (txRings E db tx)).map (amount point value) := by
  have hstored := congrArg (map fun o : Option Commitment =>
    (o.map (amount point value)).getD 0) (spentIndices_stored real E db _ h)
  rw [List.map_map, List.map_map] at hstored
  refine Eq.trans (List.map_congr_left fun i _ => ?_) hstored
  simp only [storedAmount, Function.comp_apply, Option.map_map]
  rfl

lemma spentCommits_ranged (h : ∀ r ∈ txRings E db tx, Verified E db r)
    (hdb : Ranged point value db) :
    ∀ c ∈ spentCommits real (txRings E db tx), amount point value c ≤ 2 ^ 64 := by
  intro c hc
  have hmem := mem_map_of_mem (f := some) hc
  rw [← spentIndices_stored real E db _ h] at hmem
  obtain ⟨i, -, hi⟩ := mem_map.mp hmem
  obtain ⟨r, hr, rfl⟩ := map_eq_some_iff.mp hi
  exact Nat.le_of_lt (hdb i r hr)

/-- An accepted transaction with only anon inputs and a positive plain side spends distinct stored
RingCT outputs, worth exactly its standard outputs, its fee and its RingCT outputs, provided that
range proofs are verified for it and were verified for the blocks of the chain. -/
theorem anonValue_conserved (E : Env) [NeZero q]
    (hsound : SoundCrypto point value real E.toCrypto) (steps : List ChainStep) (T : ChainState)
    (hsteps : ∀ a ∈ steps, ProvingStep a) (hrun : loop (chainStep E) .empty steps = .ok T)
    (P : Process) (hP : Proving P) (pool : CTxMemPool) (coins : CoinMap) (nSpendHeight : Nat)
    (fBulletproofsActive fCheckDuplicateInputs : Bool) (tx : CTransaction) (r : TxInputs)
    (hanon : ∀ txin ∈ tx.vin, txin.isAnonInput)
    (hcheck : checkTransaction (withProcess E P) fBulletproofsActive tx fCheckDuplicateInputs =
      .ok ())
    (hinputs : checkTxInputs coins tx nSpendHeight = .ok r)
    (hverify : verifyMLSAG (withProcess E P) T.db pool tx = .ok ())
    (hpos : 0 < tx.standardValues.sum + r.nTxFee) : (spent real (withProcess E P) T.db tx).Nodup ∧
      (∀ i ∈ spent real (withProcess E P) T.db tx, (T.db.rctOutput i).isSome) ∧
      (((spent real (withProcess E P) T.db tx).map (storedAmount point value T.db)).sum : Int) =
        tx.standardValues.sum + r.nTxFee +
          (((ringCommitments tx).map (amount point value)).sum : ℕ) := by
  have hne : tx.vin ≠ [] := (checkTransaction_ok _ _ _ _ _ hcheck).1
  obtain ⟨hfee, hfeeRange, hsumRange⟩ := anonFee coins tx nSpendHeight r hne hanon hinputs
  obtain ⟨fee, plain, hfee', hplain, hlen, hrings, hdistinct, hout⟩ :=
    verifyMLSAG_rings (withProcess E P) T.db pool tx () hne hverify
  obtain rfl : r.nTxFee = fee := some.inj (hfee.symm.trans hfee')
  have hamount := plainCommitmentOf_amount (withProcess E P) hsound tx _ plain hpos
    (by unfold moneyRange at *; omega) hplain
  have hbalance := spent_balance (withProcess E P) hsound T.db tx plain hrings hout
  refine ⟨spentIndices_nodup real _ _ _ hrings hdistinct, spent_stored _ _ _ hrings, ?_⟩
  rw [spent_amounts _ _ _ hrings]
  -- both totals stay far below the modulus: at most 2 ^ 21 amounts of 64 bits on either side
  have hsize := checkTransaction_length _ _ _ _ _ hcheck
  have hmod := hsound.modulus
  have hins := sum_amount_le point value (spentCommits real (txRings (withProcess E P) T.db tx)) _
    (spentCommits_ranged _ _ _ hrings (run_ranged E hsound steps T hsteps hrun))
  have hcount := length_spentCommits_le real _ _ _ hrings
  rw [hlen, MAX_ANON_INPUTS] at hcount
  have houts := sum_amount_le point value (ringCommitments tx) (2 ^ 64) fun c hc => by
    obtain ⟨p, hp, rfl⟩ := mem_map.mp hc
    exact Nat.le_of_lt (outputs_ranged (withProcess E P) hsound hP _ _ tx hcheck p hp)
  have hcount' : (ringCommitments tx).length ≤ tx.vpout.length := by
    rw [ringCommitments, length_map]
    exact length_filterMap_le _ _
  have hplainRange : amount point value plain ≤ 2 ^ 64 := by
    unfold moneyRange MAX_MONEY COIN at *
    omega
  have heq := hbalance.sum_amount_eq point value (by omega) (by
    rw [map_cons, sum_cons]
    omega)
  rw [heq, map_cons, sum_cons, Nat.cast_add, hamount]

end

open ToyEnvironment

def bitValue (w : Nat) : BitVec w →+ ZMod (2 ^ w) where
  toFun c := (c.toNat : ZMod (2 ^ w))
  map_zero' := by simp
  map_add' a b := by rw [BitVec.toNat_add, ZMod.natCast_mod, Nat.cast_add]

lemma amount_bitValue {w : Nat} (c : BitVec w) : amount id (bitValue w) c = c.toNat :=
  ZMod.val_natCast_of_lt c.isLt

lemma bitValue_ofNat (w v : Nat) : bitValue w (BitVec.ofNat w v) = v := by
  show ((BitVec.ofNat w v).toNat : ZMod (2 ^ w)) = v
  rw [BitVec.toNat_ofNat, ZMod.natCast_mod]

def toyReal (r : RingStatement) : Nat :=
  ((range r.nCols).find? fun i =>
    (column r.nCols (r.nRows - 1) i r.inCommits).sum - r.outCommits.sum = 0).getD 0

lemma toyReal_spec (r : RingStatement)
    (h : (lastRow r.nCols r.nRows r.inCommits r.outCommits).any (· = 0) = true) :
    toyReal r < r.nCols ∧
      (column r.nCols (r.nRows - 1) (toyReal r) r.inCommits).sum - r.outCommits.sum = 0 := by
  rw [lastRow, List.any_map] at h
  obtain ⟨i, hi, hzero⟩ := any_eq_true.mp h
  cases hfind : (range r.nCols).find? fun i =>
      (column r.nCols (r.nRows - 1) i r.inCommits).sum - r.outCommits.sum = 0 with
  | none => exact absurd hzero (find?_eq_none.mp hfind i hi)
  | some j =>
    have hj : toyReal r = j := by rw [toyReal, hfind, getD_some]
    rw [hj]
    exact ⟨mem_range.mp (mem_of_find?_eq_some hfind), by simpa using find?_some hfind⟩

lemma toy_sound : SoundCrypto id (bitValue 264) toyReal chainEnv.toCrypto where
  modulus := Nat.pow_le_pow_right (by decide) (by decide)
  ring r row hkeys _ hrow hsig := by
    obtain rfl : lastRow r.nCols r.nRows r.inCommits r.outCommits = row := Except.ok.inj hrow
    have hany : (lastRow r.nCols r.nRows r.inCommits r.outCommits).any (· = 0) = true := by
      by_contra hno
      have hsig' : (if ((r.vM ++ lastRow r.nCols r.nRows r.inCommits r.outCommits).drop
          (r.nCols * (r.nRows - 1))).any (· = 0) then 0 else 1) = 0 := hsig
      rw [drop_left' hkeys, if_neg hno] at hsig'
      cases hsig'
    obtain ⟨hlt, hzero⟩ := toyReal_spec r hany
    refine ⟨hlt, ?_⟩
    refine balances_of_sum_eq id (bitValue 264) ?_
    rw [List.map_id, List.map_id]
    exact sub_eq_zero.mp hzero
  tally ins outs h := by
    refine balances_of_sum_eq id (bitValue 264) ?_
    rw [List.map_id, List.map_id]
    exact of_decide_eq_true h
  commit v c _ h := by
    obtain rfl : BitVec.ofNat 264 v = c := some.inj h
    exact bitValue_ofNat 264 v
  rangeproof c _ h := by
    rw [amount_bitValue]
    exact of_decide_eq_true h
  bulletproof c _ h := by
    rw [amount_bitValue]
    exact of_decide_eq_true h

/-- Spends 100 from the ring to a standard output of 40, a fee of 5 and a RingCT output of 55. -/
def payingTx : CTransaction :=
  { nVersion := 0xA0
    vin := [ringSpend 77]
    vpout := [feeOutput 5, keyOutput 3 40, ringOutput (ringKey 21) 55 true] }

lemma convertSteps_proving : ∀ a ∈ RingIndex.convertSteps, ProvingStep a := by
  intro a ha
  rcases mem_cons.mp ha with rfl | ha
  · rfl
  · rw [mem_singleton.mp ha]
    rfl

theorem anonValue_conserved_paying :
    ∃ T, loop (chainStep chainEnv) .empty RingIndex.convertSteps = .ok T ∧
      (((spent toyReal chainEnv T.db payingTx).map (storedAmount id (bitValue 264) T.db)).sum :
        Int) = 40 + 5 + 55 := by
  obtain ⟨T, hT, hchecks⟩ := exists_ok_of_toOption
    (loop (chainStep chainEnv) .empty RingIndex.convertSteps)
    (fun T => decide (checkTxInputs T.coins payingTx 2 = .ok ⟨5, true, true⟩ ∧
      verifyMLSAG chainEnv T.db .empty payingTx = .ok ())) true (by decide +kernel)
  obtain ⟨hinputs, hverify⟩ := of_decide_eq_true hchecks
  have h := (anonValue_conserved chainEnv toy_sound RingIndex.convertSteps T convertSteps_proving hT
    process rfl .empty T.coins 2 false true payingTx ⟨5, true, true⟩ (by decide) (by decide +kernel)
    hinputs hverify (by decide)).2.2
  refine ⟨T, hT, ?_⟩
  have hring : ((ringCommitments payingTx).map (amount id (bitValue 264))).sum = 55 := by
    simp only [funext amount_bitValue]
    decide
  rw [hring] at h
  exact h

def importing : Process := { process with fBusyImporting := true, fSkipRangeproof := true }

/-- Spends 100 from the ring to a standard output of 1000 and a RingCT output of the missing 905
below zero. -/
def mintingTx : CTransaction :=
  { nVersion := 0xA0
    vin := [ringSpend 77]
    vpout := [feeOutput 5, keyOutput 3 1000, ringOutput (ringKey 21) (2 ^ 264 - 905) true] }

/-- Without range proofs an accepted transaction pays more than it spends, although the chain before
it was verified. -/
theorem mintingTx_not_conserved : SoundCrypto id (bitValue 264) toyReal chainEnv.toCrypto ∧
      (∀ a ∈ RingIndex.convertSteps, ProvingStep a) ∧
      ∃ T, loop (chainStep chainEnv) .empty RingIndex.convertSteps = .ok T ∧
        (∀ txin ∈ mintingTx.vin, txin.isAnonInput) ∧
        checkTransaction (withProcess chainEnv importing) true mintingTx true = .ok () ∧
        checkTxInputs T.coins mintingTx 2 = .ok ⟨5, true, true⟩ ∧
        verifyMLSAG (withProcess chainEnv importing) T.db .empty mintingTx = .ok () ∧
        0 < mintingTx.standardValues.sum + 5 ∧
        (((spent toyReal (withProcess chainEnv importing) T.db mintingTx).map
            (storedAmount id (bitValue 264) T.db)).sum : Int) ≠
          mintingTx.standardValues.sum + 5 +
            (((ringCommitments mintingTx).map (amount id (bitValue 264))).sum : ℕ) := by
  obtain ⟨T, hT, hchecks⟩ := exists_ok_of_toOption
    (loop (chainStep chainEnv) .empty RingIndex.convertSteps)
    (fun T => decide (checkTxInputs T.coins mintingTx 2 = .ok ⟨5, true, true⟩ ∧
      verifyMLSAG (withProcess chainEnv importing) T.db .empty mintingTx = .ok () ∧
      ((spent toyReal (withProcess chainEnv importing) T.db mintingTx).map fun i =>
        ((T.db.rctOutput i).map fun r => r.commitment.toNat).getD 0) = [100])) true
    (by decide +kernel)
  obtain ⟨hinputs, hverify, hspent⟩ := of_decide_eq_true hchecks
  refine ⟨toy_sound, convertSteps_proving, T, hT, by decide, by decide +kernel, hinputs, hverify,
    by decide, ?_⟩
  have hamounts : (spent toyReal (withProcess chainEnv importing) T.db mintingTx).map
      (storedAmount id (bitValue 264) T.db) = [100] := by
    rw [← hspent]
    refine map_congr_left fun i _ => ?_
    simp only [storedAmount, amount_bitValue]
  have hpaid : mintingTx.standardValues.sum = 1000 := by decide
  rw [hamounts, hpaid, sum_singleton]
  omega

end AnonValue
