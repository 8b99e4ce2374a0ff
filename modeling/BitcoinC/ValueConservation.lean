import BitcoinC.ToyEnvironment

/-!
# Value conservation of transactions with standard inputs

With standard inputs only, the checks compare plain values. As soon as there is
a RingCT output the fee is read from a data output and no commitment tally is
run, so the input values are compared with nothing.
-/

namespace ValueConservation

open Primitives Environment TxVerify Anon CheckInputs

variable (v : Int) (coins : CoinMap) (nSpendHeight : Nat)

/-- The inputs cover the standard outputs and the fee, and what is left is the value committed to by
the RingCT outputs. -/
def Conserved (committed : Commitment → Int) (coins : CoinMap) (tx : CTransaction) (nTxFee : Int) :
    Prop :=
  tx.standardValues.sum + nTxFee ≤ valueIn coins tx.vin ∧
    (tx.ringCTOutputs ≠ [] →
      valueIn coins tx.vin - tx.standardValues.sum - nTxFee =
        ((ringCommitments tx).map committed).sum)

def revalue (v : Int) (coins : CoinMap) : CoinMap :=
  fun o => (coins o).map fun coin => { coin with out := { coin.out with nValue := v } }

lemma revalue_isSome (o : COutPoint) : (revalue v coins o).isSome = (coins o).isSome := by
  simp [revalue]

lemma spendable_revalue (txin : CTxIn) (hv : moneyRange v) (h : Spendable coins nSpendHeight txin) :
    Spendable (revalue v coins) nSpendHeight txin ∧ inputValue (revalue v coins) txin = v := by
  obtain ⟨coin, hcoin, hmature, htype, -⟩ := h
  refine ⟨⟨{ coin with out := { coin.out with nValue := v } }, ?_, hmature, htype, hv⟩, ?_⟩
  · simp [revalue, hcoin]
  · simp [inputValue, revalue, hcoin]

lemma valueIn_revalue (vin : List CTxIn) (hv : moneyRange v)
    (hstd : ∀ txin ∈ vin, ¬ txin.isAnonInput)
    (h : ∀ txin ∈ vin, Spendable coins nSpendHeight txin) :
    valueIn (revalue v coins) vin = vin.length * v := by
  induction vin with
  | nil => simp
  | cons txin vin ih =>
    rw [List.forall_mem_cons] at hstd h
    rw [valueIn_cons_standard _ _ _ hstd.1, ih hstd.2 h.2,
      (spendable_revalue v coins nSpendHeight txin hv h.1).2, List.length_cons]
    push_cast
    rw [Int.add_mul, Int.one_mul, Int.add_comm]

/-- With a RingCT output the input values do not enter the verdict: any values inside the money
range are accepted with the same fee. -/
lemma checkTxInputs_revalue (tx : CTransaction) (nSpendHeight : Nat) (r : TxInputs)
    (hcs : ¬ tx.isCoinStake) (hstd : ∀ txin ∈ tx.vin, ¬ txin.isAnonInput)
    (hring : tx.ringCTOutputs ≠ []) (hv : moneyRange v) (htotal : moneyRange (tx.vin.length * v))
    (h : checkTxInputs coins tx nSpendHeight = .ok r) :
    checkTxInputs (revalue v coins) tx nSpendHeight = .ok r := by
  obtain ⟨hne, hhave, hspend, -, hmixed, hout, hfee, hin, hflag⟩ :=
    (checkTxInputs_ok_iff coins tx nSpendHeight r).mp h
  have hspend' : ∀ txin ∈ tx.vin, Spendable coins nSpendHeight txin :=
    fun txin hmem => hspend txin hmem (hstd txin hmem)
  have hvalue := valueIn_revalue v coins nSpendHeight tx.vin hv hstd hspend'
  have hpos : 0 < tx.anonInputs.length + tx.ringCTOutputs.length :=
    Nat.add_pos_right _ (List.length_pos_of_ne_nil hring)
  refine (checkTxInputs_ok_iff _ tx nSpendHeight r).mpr
    ⟨hne, ?_, ?_, hvalue ▸ htotal, hmixed, hout, ?_, hin, hflag⟩
  · simpa only [haveInputs, revalue_isSome] using hhave
  · intro txin hmem _
    exact (spendable_revalue v coins nSpendHeight txin hv (hspend' txin hmem)).1
  · rw [txFee_ok_iff _ _ _ _ _ hcs] at hfee ⊢
    refine ⟨hfee.1, hfee.2.imp_right fun hzero => ?_⟩
    exact absurd hzero.1 (Nat.ne_of_gt hpos)

/-- For a transaction that can be accepted at all, acceptance implies conservation in every view and
for every way of calling `CheckInputs` exactly when the transaction has no RingCT output. -/
theorem conserved_iff_no_ringCT (E : Env) (db : CBlockTreeDB) (pool : CTxMemPool)
    (cache : ScriptCache) (committed : Commitment → Int) (fBulletproofsActive : Bool)
    (tx : CTransaction) (hcs : ¬ tx.isCoinStake) (hstd : ∀ txin ∈ tx.vin, ¬ txin.isAnonInput)
    (hcheck : checkTransaction E fBulletproofsActive tx true = .ok ())
    (haccept : ∃ coins nSpendHeight r, checkTxInputs coins tx nSpendHeight = .ok r) :
    (∀ coins nSpendHeight r m checks, checkTxInputs coins tx nSpendHeight = .ok r →
        checkInputs E db pool coins cache tx m = .ok checks →
        Conserved committed coins tx r.nTxFee) ↔
      tx.ringCTOutputs = [] := by
  constructor
  · intro hall
    by_contra hring
    obtain ⟨coins, nSpendHeight, r, h⟩ := haccept
    have hne : tx.vin ≠ [] := (checkTransaction_ok E _ _ _ _ hcheck).1
    have hlen := checkTransaction_length E _ _ _ _ hcheck
    -- the same transaction, once with worthless inputs and once with inputs worth one each
    have hone : moneyRange (tx.vin.length * 1) := by
      unfold moneyRange MAX_MONEY COIN
      omega
    have h0 := checkTxInputs_revalue 0 coins tx nSpendHeight r hcs hstd hring moneyRange_zero
      (by simpa using moneyRange_zero) h
    have h1 := checkTxInputs_revalue 1 coins tx nSpendHeight r hcs hstd hring (by decide) hone h
    have hspend := ((checkTxInputs_ok_iff coins tx nSpendHeight r).mp h).2.2.1
    have hv0 := valueIn_revalue 0 coins nSpendHeight tx.vin moneyRange_zero hstd
      fun txin hmem => hspend txin hmem (hstd txin hmem)
    have hv1 := valueIn_revalue 1 coins nSpendHeight tx.vin (by decide) hstd
      fun txin hmem => hspend txin hmem (hstd txin hmem)
    have hmode : ∀ coins, checkInputs E db pool coins cache tx ⟨false, 0, false, false, true⟩ =
        .ok ⟨[], none⟩ := by
      intro coins
      simp [checkInputs]
    have e0 := (hall _ _ _ _ _ h0 (hmode _)).2 hring
    have e1 := (hall _ _ _ _ _ h1 (hmode _)).2 hring
    have hpos := List.length_pos_of_ne_nil hne
    rw [hv0] at e0
    rw [hv1] at e1
    omega
  · intro hring coins nSpendHeight r m checks h _
    obtain ⟨-, -, -, -, -, -, hfee, -, -⟩ := (checkTxInputs_ok_iff coins tx nSpendHeight r).mp h
    have hanon : tx.anonInputs = [] := by
      rw [CTransaction.anonInputs, List.filter_eq_nil_iff]
      simpa using hstd
    rw [txFee_ok_iff _ _ _ _ _ hcs, hring, hanon] at hfee
    rcases hfee.2 with hpos | hplain
    · exact absurd hpos.1 (by simp)
    · refine ⟨?_, fun hne => absurd hring hne⟩
      have := hplain.2
      omega

open ToyEnvironment

def openCoin (v : Int) : Coin := ⟨⟨v, [OP_TRUE]⟩, false, 1, .standard⟩

def oneCoin (v : Int) : CoinMap := fun o => if o = ⟨7, 0⟩ then some (openCoin v) else none

def transferTx : CTransaction := { nVersion := 0xA0, vin := [spend 7 0], vpout := [keyOutput 3 40] }

def convertTx : CTransaction :=
  { nVersion := 0xA0, vin := [spend 7 0], vpout := [feeOutput 5, ringOutput 3 100 true] }

theorem conserved_iff_no_ringCT_transfer :
    (∀ coins nSpendHeight r m checks, checkTxInputs coins transferTx nSpendHeight = .ok r →
        checkInputs env .empty .empty coins (fun _ => false) transferTx m = .ok checks →
        Conserved (fun c => c.toNat) coins transferTx r.nTxFee) ↔
      transferTx.ringCTOutputs = [] :=
  conserved_iff_no_ringCT env .empty .empty (fun _ => false) (fun c => c.toNat) false transferTx
    (by decide) (by decide) (by decide +kernel)
    ⟨oneCoin 50, 10, ⟨10, false, false⟩, by decide +kernel⟩

/-- A coin worth 1 pays a fee of 5 and a RingCT output of 100. -/
theorem convertTx_not_conserved : checkTransaction env false convertTx true = .ok () ∧
      checkTxInputs (oneCoin 1) convertTx 10 = .ok ⟨5, false, true⟩ ∧
      (checkInputs env .empty .empty (oneCoin 1) (fun _ => false) convertTx
        ⟨true, 0, true, false, true⟩).isOk = true ∧
      ¬ convertTx.isCoinStake ∧ (∀ txin ∈ convertTx.vin, ¬ txin.isAnonInput) ∧
      ¬ Conserved (fun c => c.toNat) (oneCoin 1) convertTx 5 := by
  refine ⟨by decide +kernel, by decide +kernel, by decide +kernel, by decide, by decide, ?_⟩
  rintro ⟨hcover, -⟩
  exact absurd hcover (by decide)

end ValueConservation
