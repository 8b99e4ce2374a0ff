import BitcoinC.Kernel
import BitcoinC.ToyEnvironment

/-!
# Cold-staked coins in a coinstake

A conditional coinstake script lets a staking node use coins it cannot spend.
-/

namespace ColdStake

open Primitives Encoding Scripts Environment Verdicts TxVerify CheckInputs Kernel List

section

variable (coins : CoinMap)
variable (E : Env) (G : NodeState) (branch : List CBlockIndex) (nSpendHeight : Nat)
  (nTime nBits : UInt32)

def scriptAt (o : COutPoint) : Option Bytes := (coins o).map (·.out.scriptPubKey)

def valueFrom (s : Bytes) (vin : List CTxIn) : Int :=
  ((vin.filter fun txin => scriptAt coins txin.prevout = some s).map (inputValue coins)).sum

/-- Every conditional coinstake script among the inputs gets back at least what it put in. -/
def Kept (tx : CTransaction) : Prop :=
  ∀ s, hasIsCoinstakeOp s → (∃ txin ∈ tx.vin, scriptAt coins txin.prevout = some s) →
    valueFrom coins s tx.vin ≤ (valuesTo s tx).sum

/-- The kernel has a conditional coinstake script, or no coin of positive value does. -/
def Guarded (prevouts : List COutPoint) : Prop :=
  (∃ o coin, prevouts.head? = some o ∧ coins o = some coin ∧
      hasIsCoinstakeOp coin.out.scriptPubKey) ∨
    ∀ o ∈ prevouts, ∀ coin, coins o = some coin → hasIsCoinstakeOp coin.out.scriptPubKey →
      coin.out.nValue = 0

def Accepted (E : Env) (G : NodeState) (branch : List CBlockIndex) (nTime nBits : UInt32)
    (nSpendHeight : Nat) (tx : CTransaction) : Prop :=
  checkProofOfStake E G branch tx nTime nBits = .ok () ∧
    ∃ r, checkTxInputs coins tx nSpendHeight = .ok r

/-- The staker can sign the kernel for any outputs. -/
def CanSign (E : Env) (prevouts : List COutPoint) : Prop :=
  ∀ vpout, ∃ tx : CTransaction, tx.vin.map (·.prevout) = prevouts ∧ tx.vpout = vpout ∧
    tx.getType = TXN_COINSTAKE ∧
    ∀ o coin, prevouts.head? = some o → coins o = some coin →
      E.verifyScript ⟨coin.out.scriptPubKey, amountBytes coin.out.nValue, tx, 0,
        STANDARD_SCRIPT_VERIFY_FLAGS⟩ = none

lemma sum_filter_le (p : CTxOutStandard → Bool) (ps : List CTxOutStandard)
    (h : ∀ q ∈ ps, 0 ≤ q.nValue) :
    ((ps.filter p).map (·.nValue)).sum ≤ (ps.map (·.nValue)).sum := by
  induction ps with
  | nil => simp
  | cons q ps ih =>
    rw [forall_mem_cons] at h
    have hrest := ih h.2
    by_cases hq : p q
    · rw [filter_cons_of_pos hq, map_cons, map_cons, sum_cons, sum_cons]
      omega
    · rw [filter_cons_of_neg hq, map_cons, sum_cons]
      have := h.1
      omega

lemma addAmounts_valuesTo (s : Bytes) (tx : CTransaction)
    (hvalues : ∀ v ∈ tx.standardValues, moneyRange v) (hsum : moneyRange tx.standardValues.sum) :
    addAmounts 0 (valuesTo s tx) = (valuesTo s tx).sum ∧ 0 ≤ (valuesTo s tx).sum := by
  have hnonneg : ∀ q ∈ tx.standardOutputs, 0 ≤ q.nValue := fun q hq =>
    (hvalues q.nValue (mem_map_of_mem hq)).1
  have hto : ∀ v ∈ valuesTo s tx, 0 ≤ v := by
    intro v hv
    obtain ⟨q, hq, rfl⟩ := mem_map.mp hv
    exact hnonneg q (mem_of_mem_filter hq)
  have hle : (valuesTo s tx).sum ≤ tx.standardValues.sum := sum_filter_le _ _ hnonneg
  have hmax := hsum.2
  have hbound : 0 + (valuesTo s tx).sum < 2 ^ 63 := by
    unfold MAX_MONEY COIN at hmax
    omega
  exact ⟨by rw [addAmounts_eq 0 _ (le_refl 0) hto hbound]; omega, sum_nonneg hto⟩

lemma inputValue_nonneg (txin : CTxIn) (h : Spendable coins nSpendHeight txin) :
    0 ≤ inputValue coins txin := by
  obtain ⟨coin, hcoin, -, -, hrange⟩ := h
  have hvalue : inputValue coins txin = coin.out.nValue := by simp [inputValue, hcoin]
  exact hvalue ▸ hrange.1

/-- With a conditional coinstake kernel the comparison covers all inputs, which then have one
script. -/
lemma kept_of_cold_kernel (nSpendHeight : Nat) (tx : CTransaction)
    (hfind : ∀ txin ∈ tx.vin, FindsCoin G coins txin.prevout)
    (hacc : Accepted coins E G branch nTime nBits nSpendHeight tx) (txin : CTxIn) (coin : Coin)
    (hhead : tx.vin.head? = some txin) (hcoin : coins txin.prevout = some coin)
    (hcold : hasIsCoinstakeOp coin.out.scriptPubKey) : Kept coins tx := by
  obtain ⟨hpos, r, hin⟩ := hacc
  obtain ⟨hcs, txin', tip, k, hhead', -, hk, -, -, hrule⟩ :=
    (checkProofOfStake_ok_iff E G branch tx nTime nBits ()).mp hpos
  obtain rfl : txin = txin' := Option.some.inj (hhead.symm.trans hhead')
  obtain ⟨rest, hvin⟩ : ∃ rest, tx.vin = txin :: rest := by
    cases hv : tx.vin with
    | nil => simp [hv] at hhead
    | cons a rest => exact ⟨rest, by simpa [hv] using hhead⟩
  obtain ⟨hstd, hvalue, hrange, hvalues, hsum⟩ := checkTxInputs_coinStake coins tx _ r hcs hin
  rw [hvin, forall_mem_cons] at hfind hstd
  obtain ⟨hkscript, hkamount⟩ := kernelOf_ok E G coins tip branch _ coin k hfind.1 hcoin hk
  have hrule := hrule (hkscript ▸ hcold)
  simp only [checkColdStake, hvin, tail_cons, bind_ok_iff, rejectIf_ok_iff] at hrule
  obtain ⟨amount, hloop, -, -, henough⟩ := hrule
  have hfound : ∀ t ∈ rest, FindsCoin G coins t.prevout ∧ (coins t.prevout).isSome := by
    intro t ht
    obtain ⟨c, hc, -⟩ := (hstd.2 t ht).2
    exact ⟨hfind.2 t ht, by rw [hc]; rfl⟩
  obtain ⟨hscripts, hamount⟩ := addExtraInputs_ok G coins _ rest _ _ hfound hloop
  have hfirst : inputValue coins txin = coin.out.nValue := by simp [inputValue, hcoin]
  have hrest : ∀ v ∈ rest.map (inputValue coins), 0 ≤ v := by
    intro v hv
    obtain ⟨t, ht, rfl⟩ := mem_map.mp hv
    exact inputValue_nonneg coins nSpendHeight t (hstd.2 t ht).2
  have htotal : valueIn coins tx.vin = k.amount + (rest.map (inputValue coins)).sum := by
    rw [hvalue, hvin, map_cons, sum_cons, hfirst, hkamount]
  have hmax := hrange.2
  rw [htotal] at hmax
  have hknonneg : 0 ≤ k.amount := by
    rw [hkamount, ← hfirst]
    exact inputValue_nonneg coins nSpendHeight txin hstd.1.2
  have hexact : amount = valueIn coins tx.vin := by
    rw [hamount, htotal]
    refine addAmounts_eq _ _ hknonneg hrest ?_
    unfold MAX_MONEY COIN at hmax
    omega
  intro s _ hs
  -- every input has the kernel's script, so `s` is that script and all inputs count
  have hall : ∀ t ∈ tx.vin, scriptAt coins t.prevout = some k.scriptPubKey := by
    rw [hvin, forall_mem_cons]
    refine ⟨by rw [scriptAt, hcoin, hkscript]; rfl, ?_⟩
    intro t ht
    obtain ⟨c, hc, -⟩ := (hstd.2 t ht).2
    rw [scriptAt, hc, ← hscripts t ht c hc]
    rfl
  obtain ⟨t, ht, hts⟩ := hs
  obtain rfl : k.scriptPubKey = s := Option.some.inj ((hall t ht).symm.trans hts)
  have hfrom : valueFrom coins k.scriptPubKey tx.vin = valueIn coins tx.vin := by
    rw [valueFrom, hvalue, filter_eq_self.mpr]
    intro t ht
    simpa using hall t ht
  rw [hfrom, ← hexact, ← (addAmounts_valuesTo k.scriptPubKey tx hvalues hsum).1]
  omega

lemma kept_of_worthless (tx : CTransaction) (nSpendHeight : Nat) (r : TxInputs)
    (hcs : tx.isCoinStake) (hin : checkTxInputs coins tx nSpendHeight = .ok r)
    (hzero : ∀ txin ∈ tx.vin, ∀ coin, coins txin.prevout = some coin →
      hasIsCoinstakeOp coin.out.scriptPubKey → coin.out.nValue = 0) : Kept coins tx := by
  obtain ⟨-, -, -, hvalues, hsum⟩ := checkTxInputs_coinStake coins tx nSpendHeight r hcs hin
  intro s hs _
  have hfrom : valueFrom coins s tx.vin = 0 := by
    refine sum_eq_zero ?_
    intro v hv
    obtain ⟨txin, hmem, rfl⟩ := mem_map.mp hv
    obtain ⟨hvin, hscript⟩ := mem_filter.mp hmem
    cases hc : coins txin.prevout with
    | none => simp [scriptAt, hc] at hscript
    | some coin =>
      have hcs : coin.out.scriptPubKey = s := by simpa [scriptAt, hc] using hscript
      simpa [inputValue, hc] using hzero txin hvin coin hc (hcs ▸ hs)
  rw [hfrom]
  exact (addAmounts_valuesTo s tx hvalues hsum).2

lemma spendable_congr (t t' : CTxIn) (h : t.prevout = t'.prevout) :
    (¬ t.isAnonInput ∧ Spendable coins nSpendHeight t) ↔
      (¬ t'.isAnonInput ∧ Spendable coins nSpendHeight t') := by
  simp only [CTxIn.isAnonInput, Spendable, h]

/-- The acceptance of a coinstake's inputs depends on their outpoints, not on its outputs. -/
lemma checkTxInputs_diverted (tx tx' : CTransaction) (nSpendHeight : Nat) (r : TxInputs)
    (hcs : tx.isCoinStake) (hcs' : tx'.isCoinStake)
    (hprev : tx'.vin.map (·.prevout) = tx.vin.map (·.prevout))
    (hout : tx'.vpout = [.data ⟨[0]⟩, .standard ⟨0, [], []⟩])
    (hin : checkTxInputs coins tx nSpendHeight = .ok r) :
    ∃ r', checkTxInputs coins tx' nSpendHeight = .ok r' := by
  obtain ⟨hspend, hvalue, hrange, -, -⟩ := checkTxInputs_coinStake coins tx nSpendHeight r hcs hin
  have hspend' : ∀ t ∈ tx'.vin, ¬ t.isAnonInput ∧ Spendable coins nSpendHeight t := by
    intro t ht
    have hmem : t.prevout ∈ tx.vin.map (·.prevout) := hprev ▸ mem_map_of_mem ht
    obtain ⟨t', ht', hsame⟩ := mem_map.mp hmem
    exact (spendable_congr coins nSpendHeight t' t hsame).mp (hspend t' ht')
  have hvalue' : valueIn coins tx'.vin = valueIn coins tx.vin := by
    have hmap : ∀ vin : List CTxIn, vin.map (inputValue coins) =
        (vin.map (·.prevout)).map fun o => ((coins o).map (·.out.nValue)).getD 0 := by
      intro vin
      rw [map_map]
      rfl
    rw [hvalue, hmap, ← hprev, ← hmap, valueIn, filter_eq_self.mpr]
    intro t ht
    simpa using (hspend' t ht).1
  have hring : tx'.ringCTOutputs =
    [] := by simp [CTransaction.ringCTOutputs, hout, CTxOutBase.ringCT?]
  have hstd : tx'.standardValues = [0] := by
    simp [CTransaction.standardValues, CTransaction.standardOutputs, hout, CTxOutBase.standard?]
  have hanon : tx'.anonInputs = [] := by
    rw [CTransaction.anonInputs, filter_eq_nil_iff]
    intro t ht
    simpa using (hspend' t ht).1
  refine ⟨⟨0 - valueIn coins tx'.vin, _, _⟩, (checkTxInputs_ok_iff coins tx' nSpendHeight _).mpr
    ⟨?_, Or.inr ?_, fun t ht _ => (hspend' t ht).2, hvalue' ▸ hrange,
      Or.inr fun t ht => (hspend' t ht).1, ?_, ?_, rfl, rfl⟩⟩
  · exact fun h => hcs'.2.1 h.2
  · intro t ht _
    obtain ⟨coin, hcoin, -⟩ := (hspend' t ht).2
    rw [hcoin]
    rfl
  · rw [getPlainValueOut_ok_iff, hstd]
    exact ⟨by simp [moneyRange_zero], by simp [moneyRange_zero], rfl⟩
  · rw [txFee_coinStake_ok_iff _ _ _ _ _ hcs', hanon, hring, hstd]
    exact ⟨rfl, by simp⟩

/-- Without a guard the same inputs make an accepted coinstake that diverts the coins. -/
lemma exists_diverted (nSpendHeight : Nat) (tx : CTransaction)
    (hfind : ∀ txin ∈ tx.vin, FindsCoin G coins txin.prevout)
    (hunguarded : ¬ Guarded coins (tx.vin.map (·.prevout)))
    (hsign : CanSign coins E (tx.vin.map (·.prevout)))
    (hacc : Accepted coins E G branch nTime nBits nSpendHeight tx) :
    ∃ tx' : CTransaction, tx'.vin.map (·.prevout) = tx.vin.map (·.prevout) ∧
      Accepted coins E G branch nTime nBits nSpendHeight tx' ∧ ¬ Kept coins tx' := by
  obtain ⟨hpos, r, hin⟩ := hacc
  obtain ⟨hcs, txin, tip, k, hhead, htip, hk, -, hhash, -⟩ :=
    (checkProofOfStake_ok_iff E G branch tx nTime nBits ()).mp hpos
  have hmem : txin ∈ tx.vin := mem_of_mem_head? hhead
  obtain ⟨hspend, -⟩ := checkTxInputs_coinStake coins tx nSpendHeight r hcs hin
  obtain ⟨coin, hcoin, -⟩ := (hspend txin hmem).2
  obtain ⟨hkscript, hkamount⟩ := kernelOf_ok E G coins tip branch _ coin k
    (hfind txin hmem) hcoin hk
  have hhead' : (tx.vin.map (·.prevout)).head? = some txin.prevout := by
    rw [head?_map, hhead]
    rfl
  rw [Guarded, not_or] at hunguarded
  have hplain : ¬ hasIsCoinstakeOp coin.out.scriptPubKey := fun hcold =>
    hunguarded.1 ⟨txin.prevout, coin, hhead', hcoin, hcold⟩
  obtain ⟨tx', hprev, hout, htype, hscript⟩ := hsign [.data ⟨[0]⟩, .standard ⟨0, [], []⟩]
  have hcs' : tx'.isCoinStake := by
    refine ⟨htype, ?_, by rw [hout]; rfl⟩
    intro hnil
    rw [hnil, map_nil] at hprev
    exact hcs.2.1 (map_eq_nil_iff.mp hprev.symm)
  obtain ⟨txin', hhead'', hsame⟩ : ∃ t, tx'.vin.head? = some t ∧ t.prevout = txin.prevout := by
    have h := hprev ▸ hhead'
    rw [head?_map] at h
    exact Option.map_eq_some_iff.mp h
  refine ⟨tx', hprev, ⟨?_, checkTxInputs_diverted coins tx tx' nSpendHeight r hcs hcs'
    hprev hout hin⟩, ?_⟩
  · refine (checkProofOfStake_ok_iff E G branch tx' nTime nBits ()).mpr
      ⟨hcs', txin', tip, k, hhead'', htip, hsame ▸ hk, ?_, hsame ▸ hhash, ?_⟩
    · rw [hkscript, hkamount]
      exact hscript txin.prevout coin hhead' hcoin
    · intro hcold
      exact False.elim (hplain (hkscript ▸ hcold))
  · intro hkept
    obtain ⟨o, ho⟩ := not_forall.mp hunguarded.2
    simp only [not_forall] at ho
    obtain ⟨hmemo, cold, hcold, hop, hvalue⟩ := ho
    rw [← hprev] at hmemo
    obtain ⟨t, ht, rfl⟩ := mem_map.mp hmemo
    have hat : scriptAt coins t.prevout = some cold.out.scriptPubKey := by rw [scriptAt, hcold]; rfl
    have hle := hkept _ hop ⟨t, ht, hat⟩
    have hto : valuesTo cold.out.scriptPubKey tx' = [] := by
      have hne : ¬ ([] : Bytes) = cold.out.scriptPubKey := by
        intro h
        rw [← h] at hop
        exact absurd hop (by decide)
      simp [valuesTo, CTransaction.standardOutputs, hout, CTxOutBase.standard?, hne]
    obtain ⟨r', hin'⟩ := checkTxInputs_diverted coins tx tx' nSpendHeight r hcs hcs' hprev hout hin
    obtain ⟨hspend', -⟩ := checkTxInputs_coinStake coins tx' nSpendHeight r' hcs' hin'
    have hone : inputValue coins t ≤ valueFrom coins cold.out.scriptPubKey tx'.vin := by
      refine single_le_sum ?_ _ (mem_map_of_mem (mem_filter.mpr ⟨ht, by simpa using hat⟩))
      intro v hv
      obtain ⟨t', ht', rfl⟩ := mem_map.mp hv
      exact inputValue_nonneg coins nSpendHeight t' (hspend' t' (mem_of_mem_filter ht')).2
    have hpositive := inputValue_nonneg coins nSpendHeight t (hspend' t ht).2
    have hthis : inputValue coins t = cold.out.nValue := by simp [inputValue, hcold]
    rw [hto, sum_nil] at hle
    omega

/-- For a list of staked outpoints, the checks keep cold-staked value in every accepted coinstake
when the outpoints are guarded; when they are not, a staker who can sign the kernel has an accepted
coinstake that diverts it. -/
theorem coldStake_kept_iff_guarded (E : Env) (G : NodeState) (branch : List CBlockIndex)
    (nTime nBits : UInt32) (nSpendHeight : Nat) (prevouts : List COutPoint)
    (hfind : ∀ o ∈ prevouts, FindsCoin G coins o) :
    (Guarded coins prevouts → ∀ tx : CTransaction, tx.vin.map (·.prevout) = prevouts →
      Accepted coins E G branch nTime nBits nSpendHeight tx → Kept coins tx) ∧
    (¬ Guarded coins prevouts → CanSign coins E prevouts →
      (∃ tx : CTransaction, tx.vin.map (·.prevout) = prevouts ∧
        Accepted coins E G branch nTime nBits nSpendHeight tx) →
      ∃ tx : CTransaction, tx.vin.map (·.prevout) = prevouts ∧
        Accepted coins E G branch nTime nBits nSpendHeight tx ∧ ¬ Kept coins tx) := by
  constructor
  · rintro hguard tx rfl hacc
    have hfind' : ∀ txin ∈ tx.vin, FindsCoin G coins txin.prevout := fun txin hmem =>
      hfind _ (mem_map_of_mem hmem)
    rcases hguard with ⟨o, coin, hhead, hcoin, hcold⟩ | hzero
    · rw [head?_map] at hhead
      obtain ⟨txin, hfirst, rfl⟩ := Option.map_eq_some_iff.mp hhead
      exact kept_of_cold_kernel coins E G branch nTime nBits nSpendHeight tx hfind' hacc txin coin
        hfirst hcoin hcold
    · obtain ⟨hpos, r, hin⟩ := hacc
      have hcs := ((checkProofOfStake_ok_iff E G branch tx nTime nBits ()).mp hpos).1
      exact kept_of_worthless coins tx nSpendHeight r hcs hin fun txin hmem =>
        hzero _ (mem_map_of_mem hmem)
  · rintro hunguarded hsign ⟨tx, rfl, hacc⟩
    exact exists_diverted coins E G branch nTime nBits nSpendHeight tx
      (fun txin hmem => hfind _ (mem_map_of_mem hmem)) hunguarded hsign hacc

end

open ToyEnvironment

def coldScript : Bytes :=
  [OP_ISCOINSTAKE, OP_IF] ++ p2pkh (hash160 (keyBytes 3)) ++ [OP_ELSE] ++
    [OP_DUP, OP_SHA256, 0x20] ++ leBytes 32 4 ++ [OP_EQUALVERIFY, OP_CHECKSIG] ++ [OP_ENDIF]

def stakedCoins : CoinMap := fun o =>
  if o = ⟨7, 0⟩ then some ⟨⟨10, p2pkh (hash160 (keyBytes 3))⟩, false, 1, .standard⟩
  else if o = ⟨8, 0⟩ then some ⟨⟨50, coldScript⟩, false, 1, .standard⟩
  else if o = ⟨9, 0⟩ then some ⟨⟨20, coldScript⟩, false, 1, .standard⟩
  else none

def stakedBranch : List CBlockIndex :=
  [⟨21, 2, 200, 0x1f00ffff, 5, ⟨0, 0⟩, 0, 0⟩, ⟨20, 1, 100, 0x1f00ffff, 4, ⟨0, 0⟩, 0, 0⟩]

def stakedNode : NodeState where
  chainActive := stakedBranch
  coinsTip := stakedCoins
  db := .empty
  mempool := .empty
  scriptCache _ := false
  txOnDisk _ := none
  coinStakeOf _ := none

def coinStake (kernel extra : Uint256) (vpout : List CTxOutBase) : CTransaction :=
  { nVersion := 0x2A0
    vin := [{ spend kernel 0 with scriptWitness := [[1], keyBytes 3] },
      { spend extra 0 with scriptWitness := [[1], keyBytes 3] }]
    vpout := .data ⟨[3, 0, 0, 0]⟩ :: vpout }

lemma findsCoin_stakedNode (o : COutPoint) : FindsCoin stakedNode stakedCoins o := by
  intro coin hcoin
  refine ⟨?_, ?_⟩
  · intro c hc
    have hsame : some c = some coin := hc.symm.trans hcoin
    rw [Option.some.inj hsame]
  · intro tx p htx
    rcases htx with h | h <;> cases h

theorem coldStake_kept_iff_guarded_cold_kernel :
    Accepted stakedCoins env stakedNode stakedBranch 300 0x1f00ffff 3
        (coinStake 8 9 [.standard ⟨70, coldScript, []⟩]) ∧
      Kept stakedCoins (coinStake 8 9 [.standard ⟨70, coldScript, []⟩]) := by
  have haccepted : Accepted stakedCoins env stakedNode stakedBranch 300 0x1f00ffff 3
      (coinStake 8 9 [.standard ⟨70, coldScript, []⟩]) :=
    ⟨by decide +kernel, ⟨0, false, false⟩, by decide +kernel⟩
  exact ⟨haccepted, (coldStake_kept_iff_guarded stakedCoins env stakedNode stakedBranch
    300 0x1f00ffff 3 [⟨8, 0⟩, ⟨9, 0⟩] fun o _ => findsCoin_stakedNode o).1
    (Or.inl ⟨_, _, rfl, rfl, by decide⟩) _ rfl haccepted⟩

/-- Key 3 stakes its own coin with the cold-staked coin behind it and takes both. -/
theorem coldStake_diverted : Accepted stakedCoins env stakedNode stakedBranch 300 0x1f00ffff 3
        (coinStake 7 8 [keyOutput 3 60]) ∧
      hasIsCoinstakeOp coldScript ∧ valueFrom stakedCoins coldScript (coinStake 7 8 []).vin = 50 ∧
      ¬ Kept stakedCoins (coinStake 7 8 [keyOutput 3 60]) := by
  refine ⟨⟨by decide +kernel, ⟨0, false, false⟩, by decide +kernel⟩, by decide, by decide +kernel,
    ?_⟩
  intro hkept
  exact absurd (hkept coldScript (by decide) ⟨_, mem_cons_of_mem _ mem_cons_self, rfl⟩)
    (by decide +kernel)

end ColdStake
