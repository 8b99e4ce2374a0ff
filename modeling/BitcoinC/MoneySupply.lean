import BitcoinC.Totals
import BitcoinC.ToyEnvironment

/-!
# The money supply and the coins

`nMoneySupply` of the tip against the total value of the unspent coins, for chains
without RingCT inputs or outputs.
-/

namespace MoneySupply

open Primitives Scripts Environment Verdicts TxVerify Coins Kernel Blocks ConnectBlock KeyedStore
  RingRecords ChainRun Totals List

def coinValue (coin : Coin) : Int := coin.out.nValue

noncomputable def totalCoins (coins : CoinMap) : Int := total coinValue coins

/-- Finitely many coins, none of negative value. -/
structure Sound (coins : CoinMap) : Prop where
  finite : FiniteStore coins
  nonneg : ∀ o coin, coins o = some coin → 0 ≤ coinValue coin

/-- Only standard inputs, only standard and data outputs, and no unspendable script. -/
def PlainTx (tx : CTransaction) : Prop :=
  tx.anonInputs = [] ∧ tx.ringCTOutputs = [] ∧
    ∀ p ∈ tx.standardOutputs, isUnspendable p.scriptPubKey = false

instance (tx : CTransaction) : Decidable (PlainTx tx) :=
  inferInstanceAs (Decidable (_ ∧ _ ∧ _))

/-- The money a transaction creates: what a coinbase pays and what a coinstake pays beyond its
inputs. -/
def issued (coins : CoinMap) (tx : CTransaction) : Int :=
  if tx.isCoinBase then tx.standardValues.sum
  else if tx.isCoinStake then tx.standardValues.sum - valueIn coins tx.vin
  else 0

section

variable (txHash : CTransaction → Uint256) (nHeight : Nat)

/-- The coins a transaction takes out of circulation: its fee, or for a coinbase the coins that its
outputs replace. -/
def lost (coins : CoinMap) (tx : CTransaction) : Int :=
  if tx.isCoinBase then
    ((newCoins (txHash tx) tx nHeight).map fun x => weightAt coinValue coins x.1).sum
  else if tx.isCoinStake then 0
  else valueIn coins tx.vin - tx.standardValues.sum

def blockIssued : CoinMap → List CTransaction → Int
  | _, [] => 0
  | coins, tx :: txs => issued coins tx + blockIssued (afterTx txHash nHeight coins tx) txs

def blockLost : CoinMap → List CTransaction → Int
  | _, [] => 0
  | coins, tx :: txs =>
    lost txHash nHeight coins tx + blockLost (afterTx txHash nHeight coins tx) txs

lemma newCoins_values (txid : Uint256) (tx : CTransaction) (hv : tx.isBitcoinCVersion)
    (hplain : PlainTx tx) :
    (newCoins txid tx nHeight).map (fun x => coinValue x.2) = tx.standardValues := by
  have hall : newCoins txid tx nHeight = txCoins txid tx nHeight := by
    rw [newCoins, filter_eq_self]
    intro x hx
    rw [txCoins, if_pos hv] at hx
    obtain ⟨⟨o, i⟩, hoi, hcoin⟩ := mem_filterMap.mp hx
    obtain ⟨p, hp, rfl⟩ := Option.map_eq_some_iff.mp hcoin
    have hmem : p ∈ tx.standardOutputs :=
      mem_filterMap.mpr ⟨o, (mem_zipIdx' hoi).2 ▸ getElem_mem _, hp⟩
    simp [spendable, hplain.2.2 p hmem]
  have houts : tx.standardOutputs = tx.vpout.zipIdx.filterMap fun x => x.1.standard? := by
    conv_lhs => rw [CTransaction.standardOutputs, ← zipIdx_map_fst 0 tx.vpout]
    exact filterMap_map
  rw [hall, txCoins, if_pos hv, CTransaction.standardValues, houts, map_filterMap, map_filterMap]
  refine congrArg (fun f => filterMap f _) (funext fun x => ?_)
  rw [outputCoin, Option.map_map]
  rfl

lemma spent_values (coins : CoinMap) (tx : CTransaction) (hcb : ¬ tx.isCoinBase) :
    ((spentOutpoints tx).map (weightAt coinValue coins)).sum = valueIn coins tx.vin := by
  rw [spentOutpoints, if_neg hcb, standardPrevouts, map_map]
  rfl

lemma Sound.afterTx {coins : CoinMap} (h : Sound coins) (tx : CTransaction)
    (hv : tx.isBitcoinCVersion) (hplain : PlainTx tx) (hvalues : ∀ v ∈ tx.standardValues, 0 ≤ v) :
    Sound (afterTx txHash nHeight coins tx) := by
  refine ⟨(h.finite.eraseAll _).putAll _, ?_⟩
  intro o coin ho
  rcases mem_or_of_putAll _ _ _ _ ho with hnew | hold
  · refine hvalues _ ?_
    rw [← newCoins_values nHeight (txHash tx) tx hv hplain]
    exact mem_map_of_mem (f := fun x => coinValue x.2) hnew
  · rw [eraseAll_apply] at hold
    split at hold
    · cases hold
    · exact h.nonneg o coin hold

lemma totalCoins_afterTx {coins : CoinMap} (h : Sound coins) (tx : CTransaction)
    (hv : tx.isBitcoinCVersion) (hplain : PlainTx tx) (hspent : (spentOutpoints tx).Nodup)
    (hnew : ((newCoins (txHash tx) tx nHeight).map Prod.fst).Nodup) :
    totalCoins (afterTx txHash nHeight coins tx) =
      totalCoins coins - ((spentOutpoints tx).map (weightAt coinValue coins)).sum -
        ((newCoins (txHash tx) tx nHeight).map fun x =>
          weightAt coinValue (eraseAll coins (spentOutpoints tx)) x.1).sum +
        tx.standardValues.sum := by
  rw [totalCoins, Coins.afterTx, total_putAll _ (h.finite.eraseAll _) _ hnew,
    total_eraseAll _ h.finite _ hspent, newCoins_values nHeight (txHash tx) tx hv hplain]
  rfl

lemma sum_weightAt_of_none (coins : CoinMap) (xs : List (COutPoint × Coin))
    (h : ∀ x ∈ xs, coins x.1 = none) : (xs.map fun x => weightAt coinValue coins x.1).sum = 0 := by
  refine sum_eq_zero ?_
  intro v hv
  obtain ⟨x, hx, rfl⟩ := mem_map.mp hv
  exact weightAt_of_none _ (h x hx)

end

/-- From `coins` and `money` created to `coins'` and `money'`, with what was issued and lost. -/
structure Booked (coins coins' : CoinMap) (money money' issue loss : Int) : Prop where
  sound : Sound coins'
  total : totalCoins coins' = totalCoins coins + issue - loss
  lost_nonneg : 0 ≤ loss
  created : int64 money' = int64 (money + issue)

lemma int64_add_congr (a b c : Int) (h : int64 a = int64 b) : int64 (c + a) = int64 (c + b) := by
  unfold int64 at *
  rw [← Int.add_bmod_bmod, h, Int.add_bmod_bmod]

lemma Booked.trans {coins₁ coins₂ coins₃ : CoinMap} {money₁ money₂ money₃ i j i' j' : Int}
    (h : Booked coins₁ coins₂ money₁ money₂ i j) (h' : Booked coins₂ coins₃ money₂ money₃ i' j') :
    Booked coins₁ coins₃ money₁ money₃ (i + i') (j + j') := by
  refine ⟨h'.sound, ?_, ?_, ?_⟩
  · rw [h'.total, h.total]
    omega
  · have := h.lost_nonneg
    have := h'.lost_nonneg
    omega
  · rw [h'.created, Int.add_comm, int64_add_congr _ _ _ h.created]
    congr 1
    omega

section

variable (E : Env) (G : NodeState) (C : BlockContext)

/-- The transaction books what it issues, less what it loses. -/
def TxBooked (s t : BlockState) (tx : CTransaction) : Prop :=
  Booked s.view.coins t.view.coins s.nMoneyCreated t.nMoneyCreated
    (issued s.view.coins tx) (lost E.txHash C.pindex.nHeight s.view.coins tx)

section

variable {s t : BlockState} {x : CTransaction × Nat} {fBulletproofs : Bool}
  (hcheck : checkTransaction E fBulletproofs x.1 true = .ok ()) (hplain : PlainTx x.1)
  (hcoins : Sound s.view.coins) (h : applyTx E G C s x = .ok t)

include hcheck hplain hcoins h

lemma applyTx_total : totalCoins t.view.coins =
        totalCoins s.view.coins - ((spentOutpoints x.1).map (weightAt coinValue s.view.coins)).sum -
          ((newCoins (E.txHash x.1) x.1 C.pindex.nHeight).map fun y =>
            weightAt coinValue (eraseAll s.view.coins (spentOutpoints x.1)) y.1).sum +
          x.1.standardValues.sum ∧ ((∀ v ∈ x.1.standardValues, moneyRange v) → Sound t.view.coins) ∧
      (isCoinBaseOrStake x.1 = true ∨ ∀ y ∈ newCoins (E.txHash x.1) x.1 C.pindex.nHeight,
        eraseAll s.view.coins (spentOutpoints x.1) y.1 = none) := by
  obtain ⟨-, -, hversion, -, -⟩ := checkTransaction_ok E _ _ _ _ hcheck
  have hlen := checkTransaction_length E _ _ _ _ hcheck
  have hnodup := newCoins_nodup (E.txHash x.1) x.1 C.pindex.nHeight hversion (by omega)
  obtain ⟨undo, hupdate, -, -⟩ := applyTx_coins E G C s t x h
  obtain ⟨hspent, -, hnew, hcoins'⟩ := (updateCoins_ok_iff _ _ _ _ _ _).mp hupdate
  refine ⟨?_, ?_, hnew.imp_right And.right⟩
  · rw [hcoins']
    exact totalCoins_afterTx E.txHash C.pindex.nHeight hcoins x.1 hversion hplain hspent hnodup
  · intro hvalues
    rw [hcoins']
    exact hcoins.afterTx E.txHash C.pindex.nHeight x.1 hversion hplain fun v hv => (hvalues v hv).1

lemma coinBase_booked (hcb : x.1.isCoinBase) : TxBooked E C s t x.1 := by
  obtain ⟨htotal, hsound, -⟩ := applyTx_total E G C hcheck hplain hcoins h
  obtain ⟨-, -, -, houts, -⟩ := checkTransaction_ok E _ _ _ _ hcheck
  obtain ⟨n, u, v, -, hv, rfl⟩ := applyTx_coinBase_ok E G C s t x hcb h
  obtain ⟨hvalues, -, rfl⟩ := (getValueOut_ok_iff x.1 (checkOutputs_ok E _ _ _ houts).2.1 v).mp hv
  rw [TxBooked, issued, lost, if_pos hcb, if_pos hcb]
  refine ⟨hsound hvalues, ?_, ?_, Int.bmod_bmod⟩
  · rw [htotal, spentOutpoints, if_pos hcb, map_nil, sum_nil]
    show _ - _ - ((newCoins _ _ _).map fun x => weightAt coinValue s.view.coins x.1).sum + _ = _
    omega
  · refine sum_nonneg fun v hv => ?_
    obtain ⟨y, -, rfl⟩ := mem_map.mp hv
    exact weightAt_nonneg _ hcoins.nonneg _

lemma coinStake_booked (hcs : x.1.isCoinStake) (hfirst : s.nStakeReward = 0)
    (hfresh : ∀ y ∈ newCoins (E.txHash x.1) x.1 C.pindex.nHeight, s.view.coins y.1 = none) :
    TxBooked E C s t x.1 := by
  obtain ⟨htotal, hsound, -⟩ := applyTx_total E G C hcheck hplain hcoins h
  obtain ⟨-, -, hversion, -, -⟩ := checkTransaction_ok E _ _ _ _ hcheck
  have hcb := x.1.not_isCoinBase_of_isCoinStake hversion hcs
  obtain ⟨n, r, q, u, hr, -, -, -, rfl⟩ := applyTx_ok E G C s t x hcb h
  obtain ⟨-, -, -, hvalues, -⟩ := checkTxInputs_coinStake _ _ _ _ hcs hr
  obtain ⟨-, -, -, -, -, -, hfee, -, -⟩ := (checkTxInputs_ok_iff _ _ _ _).mp hr
  obtain ⟨-, hreward⟩ := (txFee_coinStake_ok_iff _ _ _ _ _ hcs).mp hfee
  rw [TxBooked, issued, lost, if_neg hcb, if_neg hcb, if_pos hcs, if_pos hcs]
  refine ⟨hsound hvalues, ?_, le_refl 0, ?_⟩
  · rw [htotal, spent_values _ _ hcb, sum_weightAt_of_none]
    · omega
    · intro y hy
      rw [eraseAll_apply, hfresh y hy, ite_self]
  · show int64 (addFee s x.1 r).nMoneyCreated = _
    rw [addFee, if_pos hcs, hfirst, Int.zero_add, hreward]
    exact Int.bmod_bmod

lemma payment_booked (hcb : ¬ x.1.isCoinBase) (hcs : ¬ x.1.isCoinStake) : TxBooked E C s t x.1 := by
  obtain ⟨htotal, hsound, hnew⟩ := applyTx_total E G C hcheck hplain hcoins h
  have hfresh := hnew.resolve_left (by simp [isCoinBaseOrStake, hcb, hcs])
  obtain ⟨n, r, q, u, hr, -, -, -, rfl⟩ := applyTx_ok E G C s t x hcb h
  obtain ⟨-, -, -, -, -, hout, hfee, -, -⟩ := (checkTxInputs_ok_iff _ _ _ _).mp hr
  obtain ⟨hvalues, -, -⟩ := (getPlainValueOut_ok_iff x.1 _).mp hout
  rw [hplain.1, hplain.2.1] at hfee
  obtain ⟨hrange, hfee⟩ := (txFee_ok_iff _ _ _ _ _ hcs).mp hfee
  have hloss : r.nTxFee = valueIn s.view.coins x.1.vin - x.1.standardValues.sum := by
    rcases hfee with ⟨hpos, -⟩ | ⟨-, hfee⟩
    · exact absurd hpos (by simp)
    · exact hfee
  rw [TxBooked, issued, lost, if_neg hcb, if_neg hcb, if_neg hcs, if_neg hcs]
  refine ⟨hsound hvalues, ?_, hloss ▸ hrange.1, ?_⟩
  · rw [htotal, spent_values _ _ hcb, sum_weightAt_of_none _ _ hfresh]
    omega
  · show int64 (addFee s x.1 r).nMoneyCreated = _
    rw [addFee, if_neg hcs, Int.add_zero]

end

lemma connectTx_booked {s t : BlockState} {x : CTransaction × Nat} (h : connectTx E G C s x = .ok t)
    (hbooked : ∀ m, applyTx E G C s x = .ok m → TxBooked E C s m x.1) : TxBooked E C s t x.1 := by
  obtain ⟨m, hm, hindex⟩ := (connectTx_ok_iff E G C s t x).mp h
  obtain ⟨hframe, hview, -⟩ := indexRingCT_frame E G C m t x.1 hindex
  have hmoney : t.nMoneyCreated = m.nMoneyCreated := by rw [hframe]
  rw [TxBooked, hview, hmoney]
  exact hbooked m hm

lemma connectTx_afterTx {s t : BlockState} {x : CTransaction × Nat}
    (h : connectTx E G C s x = .ok t) :
    t.view.coins = afterTx E.txHash C.pindex.nHeight s.view.coins x.1 := by
  obtain ⟨undo, hupdate, -⟩ := connectTx_coins E G C s t x h
  exact ((updateCoins_ok_iff _ _ _ _ _ _).mp hupdate).2.2.2

lemma TxBooked.cons {s m t : BlockState} {tx : CTransaction} {txs : List CTransaction}
    (hfirst : TxBooked E C s m tx)
    (hafter : m.view.coins = afterTx E.txHash C.pindex.nHeight s.view.coins tx)
    (hrest : Booked m.view.coins t.view.coins m.nMoneyCreated t.nMoneyCreated
      (blockIssued E.txHash C.pindex.nHeight m.view.coins txs)
      (blockLost E.txHash C.pindex.nHeight m.view.coins txs)) :
    Booked s.view.coins t.view.coins s.nMoneyCreated t.nMoneyCreated
      (blockIssued E.txHash C.pindex.nHeight s.view.coins (tx :: txs))
      (blockLost E.txHash C.pindex.nHeight s.view.coins (tx :: txs)) := by
  rw [blockIssued, blockLost, ← hafter]
  exact Booked.trans hfirst hrest

lemma connectTxs_booked (xs : List (CTransaction × Nat)) (fBulletproofs : Bool)
    (hcheck : ∀ x ∈ xs, checkTransaction E fBulletproofs x.1 true = .ok ())
    (hplain : ∀ x ∈ xs, PlainTx x.1) (hcs : ∀ x ∈ xs, ¬ x.1.isCoinStake) (s t : BlockState)
    (hcoins : Sound s.view.coins) (h : loop (connectTx E G C) s xs = .ok t) :
    Booked s.view.coins t.view.coins s.nMoneyCreated t.nMoneyCreated
      (blockIssued E.txHash C.pindex.nHeight s.view.coins (xs.map Prod.fst))
      (blockLost E.txHash C.pindex.nHeight s.view.coins (xs.map Prod.fst)) := by
  induction xs generalizing s with
  | nil =>
    rw [loop_nil, Except.ok.injEq] at h
    subst h
    exact ⟨hcoins, by simp [blockIssued, blockLost], le_refl 0, by simp [blockIssued]⟩
  | cons x xs ih =>
    rw [forall_mem_cons] at hcheck hplain hcs
    obtain ⟨m, hm, hrest⟩ := (loop_cons_ok_iff _ _ _ _ _).mp h
    have hfirst := connectTx_booked E G C hm fun m' hm' => (em x.1.isCoinBase).elim
      (coinBase_booked E G C hcheck.1 hplain.1 hcoins hm')
      (fun hcb => payment_booked E G C hcheck.1 hplain.1 hcoins hm' hcb hcs.1)
    exact hfirst.cons E C (connectTx_afterTx E G C hm)
      (ih hcheck.2 hplain.2 hcs.2 m (Booked.sound hfirst) hrest)

lemma connectBlock_booked (view : CCoinsViewCache) (b : CBlock) (c : Connected)
    (hplain : ∀ tx ∈ b.vtx, PlainTx tx) (hjust : C.fJustCheck = false) (hcoins : Sound view.coins)
    (h : connectBlock E G C view b = .ok c) : ∃ money, Booked view.coins c.view.coins 0 money
        (blockIssued E.txHash C.pindex.nHeight view.coins b.vtx)
        (blockLost E.txHash C.pindex.nHeight view.coins b.vtx) ∧
      c.pindex.nMoneySupply = int64 ((C.branch.head?.map (·.nMoneySupply)).getD 0 + money) := by
  have hnew := connectBlock_newCoins E G C view b c h
  obtain ⟨hbefore, t, hloop, -, rfl⟩ := (connectBlock_ok_iff E G C view b c).mp h
  obtain ⟨-, hblock, -, -, -⟩ := checkBefore_ok E G C view b () hbefore
  obtain ⟨⟨tx, txs, hvtx, hkind, hcs⟩, hcheck⟩ := checkBlock_ok E _ b () hblock
  rw [finish, if_neg (by simp [hjust])]
  refine ⟨t.nMoneyCreated, ?_, rfl⟩
  rw [hvtx] at hnew hloop hcheck hplain ⊢
  rw [forall_mem_cons] at hcheck hplain
  obtain ⟨m, hm, hrest⟩ := (loop_cons_ok_iff _ _ _ _ _).mp hloop
  have hfirst := connectTx_booked E G C hm fun m' hm' => hkind.elim
    (coinBase_booked E G C hcheck.1 hplain.1 hcoins hm')
    (fun hcs => coinStake_booked E G C hcheck.1 hplain.1 hcoins hm' hcs rfl
      (hnew tx mem_cons_self))
  have hlater := connectTxs_booked E G C (txs.zipIdx 1) (fBulletproofsActive E b)
    (fun x hx => hcheck.2 _ (fst_mem_of_mem_zipIdx hx))
    (fun x hx => hplain.2 _ (fst_mem_of_mem_zipIdx hx))
    (fun x hx => hcs _ (fst_mem_of_mem_zipIdx hx)) m t (Booked.sound hfirst) hrest
  rw [zipIdx_map_fst] at hlater
  exact hfirst.cons E C (connectTx_afterTx E G C hm) hlater

def moneySupply (S : ChainState) : Int := (S.branch.head?.map (·.nMoneySupply)).getD 0

def stepIssued (S : ChainState) (a : ConnectStep) : Int :=
  blockIssued E.txHash a.pindex.nHeight S.coins a.block.vtx

def stepLost (S : ChainState) (a : ConnectStep) : Int :=
  blockLost E.txHash a.pindex.nHeight S.coins a.block.vtx

/-- Plain transactions that keep the supply in its range. -/
def Plain (S : ChainState) (a : ConnectStep) : Prop :=
  (∀ tx ∈ a.block.vtx, PlainTx tx) ∧ -2 ^ 63 ≤ moneySupply S + stepIssued E S a ∧
    moneySupply S + stepIssued E S a < 2 ^ 63

/-- No payment of the block has a fee and no coinbase output replaces a coin that has a value. -/
def Lossless (S : ChainState) (a : ConnectStep) : Prop := stepLost E S a = 0

lemma connectTip_supply (S T : ChainState) (a : ConnectStep) (hcoins : Sound S.coins)
    (hplain : Plain E S a) (h : connectTip E S a = .ok T) :
    Sound T.coins ∧ totalCoins T.coins = totalCoins S.coins + stepIssued E S a - stepLost E S a ∧
      moneySupply T = moneySupply S + stepIssued E S a ∧ 0 ≤ stepLost E S a := by
  obtain ⟨c, hc, rfl⟩ := (connectTip_ok_iff E S T a).mp h
  obtain ⟨money, hbooked, hsupply⟩ :=
    connectBlock_booked (withProcess E a.around.process) _ _ S.view a.block c hplain.1 rfl hcoins hc
  refine ⟨hbooked.sound, hbooked.total, ?_, hbooked.lost_nonneg⟩
  have hcreated : int64 money = int64 (stepIssued E S a) := by
    rw [hbooked.created, Int.zero_add]
    rfl
  calc c.pindex.nMoneySupply
      = int64 (moneySupply S + money) := hsupply
    _ = int64 (moneySupply S + stepIssued E S a) := int64_add_congr _ _ _ hcreated
    _ = moneySupply S + stepIssued E S a := int64_eq_of_bounds _ hplain.2.1 hplain.2.2

/-- The supply never falls behind the coins, and stays level with them as long as nothing is
lost. -/
lemma run_supply_iff (steps : List ConnectStep) (S T : ChainState) (hcoins : Sound S.coins)
    (hahead : totalCoins S.coins ≤ moneySupply S)
    (hsteps : everyStep (Plain E) (connectTip E) S steps)
    (hrun : loop (connectTip E) S steps = .ok T) : moneySupply T = totalCoins T.coins ↔
      moneySupply S = totalCoins S.coins ∧ everyStep (Lossless E) (connectTip E) S steps := by
  induction steps generalizing S with
  | nil =>
    rw [loop_nil, Except.ok.injEq] at hrun
    subst hrun
    simp [everyStep]
  | cons a steps ih =>
    obtain ⟨m, hm, hrest⟩ := (loop_cons_ok_iff _ _ _ _ _).mp hrun
    obtain ⟨hsound, htotal, hsupply, hnonneg⟩ := connectTip_supply E S m a hcoins hsteps.1 hm
    rw [ih m hsound (by omega) (hsteps.2 m hm) hrest, everyStep]
    constructor
    · rintro ⟨hlevel, hlossless⟩
      have hzero : stepLost E S a = 0 := by omega
      refine ⟨by omega, hzero, ?_⟩
      intro t ht
      rw [hm, Except.ok.injEq] at ht
      exact ht ▸ hlossless
    · rintro ⟨hlevel, hzero, hlossless⟩
      have hzero : stepLost E S a = 0 := hzero
      exact ⟨by omega, hlossless m hm⟩

lemma sound_empty : Sound ChainState.empty.coins :=
  ⟨finiteStore_none, fun _ _ h => nomatch h⟩

lemma totalCoins_empty : totalCoins ChainState.empty.coins = 0 := total_none coinValue

/-- After any run of plain blocks from the empty chain, the tip's money supply is the total value of
the unspent coins if and only if no block of the run lost a coin to fees or to a coinbase output on
top of it. -/
theorem moneySupply_eq_total_iff (steps : List ConnectStep) (T : ChainState)
    (hsteps : everyStep (Plain E) (connectTip E) .empty steps)
    (hrun : loop (connectTip E) .empty steps = .ok T) :
    moneySupply T = totalCoins T.coins ↔ everyStep (Lossless E) (connectTip E) .empty steps := by
  have hzero : moneySupply .empty = totalCoins ChainState.empty.coins := totalCoins_empty.symm
  rw [run_supply_iff E steps .empty T sound_empty hzero.ge hsteps hrun]
  exact and_iff_right hzero

end

open ToyEnvironment

def payTx (fee : Int) : CTransaction :=
  { nVersion := 0xA0
    vin := [spendBy3 genesisHash 1]
    vpout := [keyOutput 3 (1000 - fee)] }

def payStep (fee : Int) : ConnectStep :=
  stepOn genesisEntry [stake genesisHash 0 1 [keyOutput 3 (1000 + fee)], payTx fee]

lemma genesisStep_plain : Plain chainEnv .empty genesisStep := by
  refine ⟨by decide +kernel, ?_⟩
  decide +kernel

/-- The supply after the genesis block, and what a block on top of it issues and loses. -/
def genesisBooks (a : ConnectStep) : Option (Int × Int × Int) :=
  (connectTip chainEnv .empty genesisStep).toOption.map fun S =>
    (moneySupply S, stepIssued chainEnv S a, stepLost chainEnv S a)

lemma of_genesisBooks {a : ConnectStep} {supply issue loss : Int}
    (h : genesisBooks a = some (supply, issue, loss)) (S : ChainState)
    (hS : connectTip chainEnv .empty genesisStep = .ok S) :
    moneySupply S = supply ∧ stepIssued chainEnv S a = issue ∧ stepLost chainEnv S a = loss := by
  rw [genesisBooks, hS] at h
  simpa [Except.toOption] using h

lemma genesisBooks_plain {a : ConnectStep} {supply issue loss : Int}
    (h : genesisBooks a = some (supply, issue, loss)) (hplain : ∀ tx ∈ a.block.vtx, PlainTx tx)
    (hlo : -2 ^ 63 ≤ supply + issue) (hhi : supply + issue < 2 ^ 63) :
    everyStep (Plain chainEnv) (connectTip chainEnv) .empty [genesisStep, a] := by
  refine ⟨genesisStep_plain, ?_⟩
  intro S hS
  obtain ⟨hsupply, hissue, -⟩ := of_genesisBooks h S hS
  refine ⟨⟨hplain, ?_, ?_⟩, fun _ _ => trivial⟩ <;> rw [hsupply, hissue] <;> assumption

theorem moneySupply_eq_total_iff_free :
    ∃ T, loop (connectTip chainEnv) .empty [genesisStep, payStep 0] = .ok T ∧
      moneySupply T = 4000 ∧ moneySupply T = totalCoins T.coins := by
  have hbooks : genesisBooks (payStep 0) = some (4000, 0, 0) := by decide +kernel
  obtain ⟨T, hT, hsupply⟩ := exists_ok_of_toOption
    (loop (connectTip chainEnv) .empty [genesisStep, payStep 0]) moneySupply 4000
      (by decide +kernel)
  have hplain := genesisBooks_plain hbooks (by decide +kernel) (by decide) (by decide)
  refine ⟨T, hT, hsupply, (moneySupply_eq_total_iff chainEnv _ T hplain hT).mpr ⟨?_, ?_⟩⟩
  · exact show stepLost chainEnv .empty genesisStep = 0 by decide +kernel
  · intro S hS
    exact ⟨(of_genesisBooks hbooks S hS).2.2, fun _ _ => trivial⟩

/-- A fee of 5 is counted as money created when the coinstake collects it. -/
theorem moneySupply_counts_fee :
    everyStep (Plain chainEnv) (connectTip chainEnv) .empty [genesisStep, payStep 5] ∧
      ∃ T, loop (connectTip chainEnv) .empty [genesisStep, payStep 5] = .ok T ∧
        moneySupply T = 4005 ∧ totalCoins T.coins = 4000 := by
  have hbooks : genesisBooks (payStep 5) = some (4000, 5, 5) := by decide +kernel
  have hplain := genesisBooks_plain hbooks (by decide +kernel) (by decide) (by decide)
  refine ⟨hplain, ?_⟩
  obtain ⟨T, hT, hsupply⟩ := exists_ok_of_toOption
    (loop (connectTip chainEnv) .empty [genesisStep, payStep 5]) moneySupply 4005
      (by decide +kernel)
  refine ⟨T, hT, hsupply, ?_⟩
  obtain ⟨S, hS, hrest⟩ := (loop_cons_ok_iff _ _ _ _ _).mp hT
  obtain ⟨T', hT', hlast⟩ := (loop_cons_ok_iff _ _ _ _ _).mp hrest
  obtain rfl : T' = T := Except.ok.inj hlast
  obtain ⟨hsound, htotal, -, -⟩ :=
    connectTip_supply chainEnv _ S _ sound_empty genesisStep_plain hS
  obtain ⟨-, htotal', -, -⟩ :=
    connectTip_supply chainEnv S T' _ hsound (hplain.2 S hS).1 hT'
  obtain ⟨-, hissue, hloss⟩ := of_genesisBooks hbooks S hS
  have hgenesis : (stepIssued chainEnv .empty genesisStep, stepLost chainEnv .empty genesisStep) =
      (4000, 0) := by decide +kernel
  rw [htotal', htotal, hissue, hloss, (Prod.mk.inj hgenesis).1, (Prod.mk.inj hgenesis).2,
    totalCoins_empty]
  rfl

end MoneySupply
