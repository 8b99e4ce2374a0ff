import BitcoinC.MoneySupply

/-!
# Emission

What the blocks of a chain pay out under one dev-fund setting.
-/

namespace Emission

open Primitives Encoding Environment Verdicts TxVerify Coins Kernel Blocks ConnectBlock RingRecords
  ChainRun MoneySupply List

def feeAt (nHeight : Nat) (coins : CoinMap) (tx : CTransaction) : Int :=
  if tx.isCoinBase ∨ tx.isCoinStake then 0
  else ((checkTxInputs coins tx nHeight).toOption.map (·.nTxFee)).getD 0

def feesOf (txHash : CTransaction → Uint256) (nHeight : Nat) : CoinMap → List CTransaction → Int
  | _, [] => 0
  | coins, tx :: txs =>
    feeAt nHeight coins tx + feesOf txHash nHeight (afterTx txHash nHeight coins tx) txs

section

variable (E : Env) (G : NodeState) (C : BlockContext)

/-- Fees and stake reward change only where the transaction is applied. -/
lemma connectTx_totals (s t : BlockState) (x : CTransaction × Nat)
    (h : connectTx E G C s x = .ok t) : ∃ m, applyTx E G C s x = .ok m ∧
      t.nStakeReward = m.nStakeReward ∧ t.nFees = m.nFees := by
  obtain ⟨m, hm, hindex⟩ := (connectTx_ok_iff E G C s t x).mp h
  obtain ⟨hframe, -, -⟩ := indexRingCT_frame E G C m t x.1 hindex
  exact ⟨m, hm, by rw [hframe], by rw [hframe]⟩

lemma connectTx_fee (s t : BlockState) (x : CTransaction × Nat) (hcs : ¬ x.1.isCoinStake)
    (h : connectTx E G C s x = .ok t) :
    t.nStakeReward = s.nStakeReward ∧ t.nFees = s.nFees + feeAt C.pindex.nHeight s.view.coins x.1 ∧
      0 ≤ feeAt C.pindex.nHeight s.view.coins x.1 := by
  obtain ⟨m, hm, hstake, hfees⟩ := connectTx_totals E G C s t x h
  rw [hstake, hfees]
  by_cases hcb : x.1.isCoinBase
  · obtain ⟨n, u, v, -, -, rfl⟩ := applyTx_coinBase_ok E G C s m x hcb hm
    rw [feeAt, if_pos (Or.inl hcb)]
    exact ⟨rfl, (Int.add_zero _).symm, le_rfl⟩
  · obtain ⟨n, r, q, u, hr, -, -, -, rfl⟩ := applyTx_ok E G C s m x hcb hm
    obtain ⟨-, -, -, -, -, -, hfee, -, -⟩ := (checkTxInputs_ok_iff _ _ _ _).mp hr
    have hrange := ((txFee_ok_iff _ _ _ _ _ hcs).mp hfee).1
    have hfeeAt : feeAt C.pindex.nHeight s.view.coins x.1 = r.nTxFee := by
      rw [feeAt, if_neg (not_or.mpr ⟨hcb, hcs⟩), hr]
      rfl
    rw [hfeeAt]
    refine ⟨?_, ?_, hrange.1⟩
    · show (addFee s x.1 r).nStakeReward = _
      rw [addFee, if_neg hcs]
    · show (addFee s x.1 r).nFees = _
      rw [addFee, if_neg hcs]

lemma connectTx_stake (s t : BlockState) (x : CTransaction × Nat) (hv : x.1.isBitcoinCVersion)
    (hcs : x.1.isCoinStake) (h : connectTx E G C s x = .ok t) :
    t.nStakeReward = s.nStakeReward + (x.1.standardValues.sum - valueIn s.view.coins x.1.vin) ∧
      t.nFees = s.nFees := by
  obtain ⟨m, hm, hstake, hfees⟩ := connectTx_totals E G C s t x h
  have hcb := x.1.not_isCoinBase_of_isCoinStake hv hcs
  obtain ⟨n, r, q, u, hr, -, -, -, rfl⟩ := applyTx_ok E G C s m x hcb hm
  obtain ⟨-, -, -, -, -, -, hfee, -, -⟩ := (checkTxInputs_ok_iff _ _ _ _).mp hr
  obtain ⟨-, hreward⟩ := (txFee_coinStake_ok_iff _ _ _ _ _ hcs).mp hfee
  rw [hstake, hfees]
  constructor
  · show (addFee s x.1 r).nStakeReward = _
    rw [addFee, if_pos hcs, hreward]
  · show (addFee s x.1 r).nFees = _
    rw [addFee, if_pos hcs]

lemma connectTxs_fees (xs : List (CTransaction × Nat)) (hcs : ∀ x ∈ xs, ¬ x.1.isCoinStake)
    (s t : BlockState) (h : loop (connectTx E G C) s xs = .ok t) : t.nStakeReward = s.nStakeReward ∧
      t.nFees = s.nFees + feesOf E.txHash C.pindex.nHeight s.view.coins (xs.map Prod.fst) ∧
      0 ≤ feesOf E.txHash C.pindex.nHeight s.view.coins (xs.map Prod.fst) := by
  induction xs generalizing s with
  | nil =>
    rw [loop_nil, Except.ok.injEq] at h
    subst h
    exact ⟨rfl, (Int.add_zero _).symm, le_rfl⟩
  | cons x xs ih =>
    rw [forall_mem_cons] at hcs
    obtain ⟨m, hm, hrest⟩ := (loop_cons_ok_iff _ _ _ _ _).mp h
    obtain ⟨hstake, hfee, hnonneg⟩ := connectTx_fee E G C s m x hcs.1 hm
    obtain ⟨hstake', hfees, hnonneg'⟩ := ih hcs.2 m hrest
    have hafter := connectTx_afterTx E G C hm
    rw [hafter] at hfees hnonneg'
    refine ⟨hstake'.trans hstake, ?_, ?_⟩
    · rw [map_cons, feesOf]
      omega
    · rw [map_cons, feesOf]
      omega

def stakePaid (coins : CoinMap) (b : CBlock) : Int :=
  match b.vtx with
  | [] => 0
  | tx :: _ => tx.standardValues.sum - valueIn coins tx.vin

/-- A connected block other than the genesis block passed the reward rule for its coinstake and
fees. -/
lemma connectBlock_reward (view : CCoinsViewCache) (b : CBlock) (c : Connected)
    (hb : E.blockHash b ≠ E.hashGenesisBlock) (h : connectBlock E G C view b = .ok c) :
    isProofOfStake b = true ∧
      checkReward E G C b (stakePaid view.coins b)
        (feesOf E.txHash C.pindex.nHeight view.coins b.vtx) = .ok () ∧
      0 ≤ feesOf E.txHash C.pindex.nHeight view.coins b.vtx := by
  obtain ⟨hbefore, t, hloop, hafter, -⟩ := (connectBlock_ok_iff E G C view b c).mp h
  obtain ⟨-, hblock, -, -, -⟩ := checkBefore_ok E G C view b () hbefore
  obtain ⟨⟨tx, txs, hvtx, -, hlater⟩, hcheck⟩ := checkBlock_ok E _ b () hblock
  simp only [checkAfter, bind_ok_iff, rejectIf_ok_iff] at hafter
  obtain ⟨-, -, hreward⟩ := hafter
  have hpos : isProofOfStake b = true := by
    by_contra hwork
    rw [checkReward, if_neg hwork, rejectIf_ok_iff] at hreward
    exact hreward hb
  have hcs : tx.isCoinStake := by simpa [isProofOfStake, hvtx] using hpos
  obtain ⟨-, -, hversion, -, -⟩ := checkTransaction_ok E _ _ _ _ (hcheck tx (by simp [hvtx]))
  rw [hvtx] at hloop
  obtain ⟨m, hm, hrest⟩ := (loop_cons_ok_iff _ _ _ _ _).mp hloop
  obtain ⟨hstake, hnone⟩ := connectTx_stake E G C _ m (tx, 0) hversion hcs hm
  obtain ⟨hstake', hfees, hnonneg⟩ := connectTxs_fees E G C (txs.zipIdx 1)
    (fun x hx => hlater _ (fst_mem_of_mem_zipIdx hx)) m t hrest
  have hafter := connectTx_afterTx E G C hm
  rw [zipIdx_map_fst, hafter] at hfees hnonneg
  have hfirst : feeAt C.pindex.nHeight view.coins tx = 0 := by rw [feeAt, if_pos (Or.inr hcs)]
  have hall : feesOf E.txHash C.pindex.nHeight view.coins b.vtx =
      feesOf E.txHash C.pindex.nHeight
        (afterTx E.txHash C.pindex.nHeight view.coins tx) txs := by
    rw [hvtx, feesOf, hfirst, Int.zero_add]
  have hpaid : t.nStakeReward = stakePaid view.coins b := by
    rw [hstake', hstake, stakePaid, hvtx]
    exact Int.zero_add _
  have hsum : t.nFees = feesOf E.txHash C.pindex.nHeight view.coins b.vtx := by
    rw [hall, hfees, hnone]
    exact Int.zero_add _
  refine ⟨hpos, ?_, ?_⟩
  · rw [← hpaid, ← hsum]
    exact hreward
  · rw [hall]
    exact hnonneg

lemma getProofOfStakeReward_fees (p : CBlockIndex) (nFees : Int) :
    getProofOfStakeReward E p nFees = getProofOfStakeReward E p 0 + nFees := by
  simp only [getProofOfStakeReward, Int.add_zero]

def stakerPart (settings : DevFundSettings) (pprev : CBlockIndex) (nFees : Int) : Int :=
  (getProofOfStakeReward E pprev nFees * (100 - settings.nMinDevStakePercent)).tdiv 100

/-- The mandatory output to the dev fund: output 1 of the coinstake, when it pays the fund's
script. -/
def devOutput (settings : DevFundSettings) (b : CBlock) : Int :=
  (((b.vtx.head?.bind (·.vpout[1]?)).bind (·.standard?)).map fun p =>
    if settings.scriptPubKey = some p.scriptPubKey then p.nValue else 0).getD 0

/-- Under a dev-fund setting the end of a period pays its shares on top, by output 1. -/
lemma checkReward_devFund (settings : DevFundSettings) (b : CBlock) (nStakeReward nFees : Int)
    (hpos : isProofOfStake b = true) (hpercent : 0 < settings.nMinDevStakePercent)
    (hsettings : E.getDevFundSettings b.header.nTime.toNat = some settings)
    (h : checkReward E G C b nStakeReward nFees = .ok ()) : ∃ pprev, C.branch.head? = some pprev ∧
      if settings.nDevOutputPeriod ∣ (C.pindex.nHeight : Int) then
        nStakeReward = devReward E C settings + stakerPart E settings pprev nFees ∧
          devOutput settings b = devReward E C settings
      else nStakeReward = stakerPart E settings pprev nFees := by
  have hfilter : (E.getDevFundSettings b.header.nTime.toNat).filter
      (fun s => 0 < s.nMinDevStakePercent) = some settings := by
    rw [hsettings]
    simp [Option.filter, hpercent]
  rw [checkReward, if_pos hpos, hfilter] at h
  simp only [bind_ok_iff, orReject_ok_iff] at h
  obtain ⟨coinstake, hcoinstake, pprev, hpprev, hdev⟩ := h
  refine ⟨pprev, hpprev, ?_⟩
  simp only [checkDevFund, bind_ok_iff, rejectIf_ok_iff] at hdev
  obtain ⟨-, -, -, -, -, -, hrule⟩ := hdev
  split at hrule
  · rename_i hend
    rw [if_pos (Int.dvd_of_tmod_eq_zero hend)]
    simp only [bind_ok_iff, rejectIf_ok_iff, not_not, checkDevFundOutput, orReject_ok_iff] at hrule
    obtain ⟨-, hamount, script, hscript, out, hout, -, hpays, hvalue⟩ := hrule
    refine ⟨hamount, ?_⟩
    rw [devOutput, hcoinstake, Option.bind_some, hout, Option.map_some, Option.getD_some, hscript,
      hpays, if_pos rfl, hvalue]
  · rename_i hinside
    rw [if_neg fun hdvd => hinside (Int.tmod_eq_zero_of_dvd hdvd)]
    rw [rejectIf_ok_iff, not_or, not_not] at hrule
    exact hrule.2

variable (settings : DevFundSettings)
variable (p : CBlockIndex) (branch : List CBlockIndex) (q : CBlockIndex) (ps : List CBlockIndex)

def share (p : CBlockIndex) : Int :=
  getProofOfStakeReward E p 0 * settings.nMinDevStakePercent / 100

def Consecutive : List CBlockIndex → Prop
  | [] => True
  | p :: ps => p.nHeight = ps.length ∧ Consecutive ps

lemma nextHeight_of_consecutive (h : Consecutive branch) : nextHeight branch = branch.length := by
  cases branch with
  | nil => rfl
  | cons p ps =>
    rw [nextHeight, h.1, length_cons]

lemma takeWhile_heights (bottom : Int) (branch : List CBlockIndex) (h : Consecutive branch)
    (hbottom : 0 ≤ bottom) :
    (branch.takeWhile fun p => bottom ≤ p.nHeight) =
      branch.take (branch.length - bottom.toNat) := by
  induction branch with
  | nil => simp
  | cons p ps ih =>
    by_cases hp : bottom ≤ (p.nHeight : Int)
    · have hlen : (p :: ps).length - bottom.toNat = ps.length - bottom.toNat + 1 := by
        rw [length_cons]
        have := h.1
        omega
      rw [takeWhile_cons_of_pos (by simpa using hp), ih h.2, hlen, take_succ_cons]
    · have hlen : (p :: ps).length - bottom.toNat = 0 := by
        rw [length_cons]
        have := h.1
        omega
      rw [takeWhile_cons_of_neg (by simpa using hp), hlen, take_zero]

def paidFor (branch : List CBlockIndex) : Int :=
  ((branch.drop (1 + (branch.length - 1) % settings.nDevOutputPeriod.toNat)).map
    (share E settings)).sum

lemma paidFor_inside (h : ¬ settings.nDevOutputPeriod.toNat ∣ (q :: ps).length) :
    paidFor E settings (p :: q :: ps) = paidFor E settings (q :: ps) := by
  have hmod : (ps.length + 1) % settings.nDevOutputPeriod.toNat =
      ps.length % settings.nDevOutputPeriod.toNat + 1 := by
    rw [length_cons, Nat.dvd_iff_mod_eq_zero, ← Nat.mod_add_mod] at h
    rw [← Nat.mod_add_mod]
    by_cases hzero : settings.nDevOutputPeriod.toNat = 0
    · rw [hzero, Nat.mod_zero, Nat.mod_zero]
    · have hlt := Nat.mod_lt ps.length (Nat.pos_of_ne_zero hzero)
      refine Nat.mod_eq_of_lt (lt_of_le_of_ne hlt ?_)
      intro heq
      rw [heq, Nat.mod_self] at h
      exact h rfl
  simp only [paidFor, length_cons, Nat.add_sub_cancel, hmod]
  rw [Nat.add_comm 1 (_ + 1), drop_succ_cons, Nat.add_comm]

lemma paidFor_end (hperiod : 0 < settings.nDevOutputPeriod.toNat)
    (h : settings.nDevOutputPeriod.toNat ∣ (q :: ps).length) : paidFor E settings (p :: q :: ps) =
      (((q :: ps).take settings.nDevOutputPeriod.toNat).map (share E settings)).sum +
        paidFor E settings (q :: ps) := by
  have hmod : ps.length % settings.nDevOutputPeriod.toNat + 1 =
      settings.nDevOutputPeriod.toNat := by
    rw [length_cons, Nat.dvd_iff_mod_eq_zero, ← Nat.mod_add_mod] at h
    have hlt := Nat.mod_lt ps.length hperiod
    by_contra hne
    rw [Nat.mod_eq_of_lt (lt_of_le_of_ne hlt hne)] at h
    omega
  have hzero : (ps.length + 1) % settings.nDevOutputPeriod.toNat = 0 := Nat.mod_eq_zero_of_dvd h
  simp only [paidFor, length_cons, Nat.add_sub_cancel, hzero, Nat.add_comm 1, hmod,
    drop_succ_cons, drop_zero]
  rw [← sum_append, ← map_append, take_append_drop]

def keptBack (branch : List CBlockIndex) : Int := ((branch.drop 1).map (share E settings)).sum

lemma paidFor_eq_keptBack (h : settings.nDevOutputPeriod.toNat ∣ branch.length - 1) :
    paidFor E settings branch = keptBack E settings branch := by
  rw [paidFor, Nat.mod_eq_zero_of_dvd h]
  rfl

/-- With no negative reward the shares added up at the end of a period are those of its entries. -/
lemma devReward_eq (hconsec : Consecutive C.branch) (hheight : C.pindex.nHeight = C.branch.length)
    (hperiod : settings.nDevOutputPeriod ≤ C.branch.length) (hpos : 0 < settings.nDevOutputPeriod)
    (hpercent : 0 ≤ settings.nMinDevStakePercent)
    (hreward : ∀ p ∈ C.branch, 0 ≤ getProofOfStakeReward E p 0) : devReward E C settings =
      ((C.branch.take settings.nDevOutputPeriod.toNat).map (share E settings)).sum := by
  have hbottom : (0 : Int) ≤ C.pindex.nHeight - settings.nDevOutputPeriod := by omega
  have hcount : C.branch.length - ((C.pindex.nHeight : Int) - settings.nDevOutputPeriod).toNat =
      settings.nDevOutputPeriod.toNat := by omega
  rw [devReward, takeWhile_heights _ C.branch hconsec hbottom, hcount]
  refine congrArg sum (map_congr_left fun p hp => ?_)
  exact Int.tdiv_eq_ediv_of_nonneg (Int.mul_nonneg (hreward p (mem_of_mem_take hp)) hpercent)

lemma share_add_stakerPart_le (nFees : Int) (hfees : 0 ≤ nFees)
    (hreward : 0 ≤ getProofOfStakeReward E p 0) (hlow : 0 ≤ settings.nMinDevStakePercent)
    (hhigh : settings.nMinDevStakePercent ≤ 100) :
    share E settings p + stakerPart E settings p nFees ≤ getProofOfStakeReward E p 0 + nFees := by
  have hrest : 0 ≤ 100 - settings.nMinDevStakePercent := by omega
  have hsum : 0 ≤ getProofOfStakeReward E p 0 + nFees := by omega
  have hfund := Int.mul_nonneg hfees hlow
  have hstaker := Int.tdiv_eq_ediv_of_nonneg (b := 100) (Int.mul_nonneg hsum hrest)
  rw [share, stakerPart, getProofOfStakeReward_fees E p nFees, hstaker]
  have hfirst := Int.mul_ediv_self_le (x := getProofOfStakeReward E p 0 *
    settings.nMinDevStakePercent) (k := 100) (by decide)
  have hsecond := Int.mul_ediv_self_le
    (x := (getProofOfStakeReward E p 0 + nFees) * (100 - settings.nMinDevStakePercent))
    (k := 100) (by decide)
  have hsplit : getProofOfStakeReward E p 0 * settings.nMinDevStakePercent +
      (getProofOfStakeReward E p 0 + nFees) * (100 - settings.nMinDevStakePercent) +
      nFees * settings.nMinDevStakePercent = 100 * (getProofOfStakeReward E p 0 + nFees) := by ring
  omega

/-- A block at the next height, not the genesis block, under the given settings. -/
structure Follows (S : ChainState) (a : ConnectStep) : Prop where
  height : a.pindex.nHeight = nextHeight S.branch
  later : E.blockHash a.block ≠ E.hashGenesisBlock
  settled : E.getDevFundSettings a.block.header.nTime.toNat = some settings

def rewardOf (S : ChainState) (_ : ConnectStep) : Int :=
  (S.branch.head?.map fun p => getProofOfStakeReward E p 0).getD 0

def stakeOf (S : ChainState) (a : ConnectStep) : Int := stakePaid S.coins a.block

def blockFees (S : ChainState) (a : ConnectStep) : Int :=
  feesOf E.txHash a.pindex.nHeight S.coins a.block.vtx

def shareOf (S : ChainState) (_ : ConnectStep) : Int :=
  (S.branch.head?.map (share E settings)).getD 0

def devPaid (_ : ChainState) (a : ConnectStep) : Int :=
  if settings.nDevOutputPeriod ∣ (a.pindex.nHeight : Int) then devOutput settings a.block else 0

/-- No reward on the branch is negative. -/
structure Rewarded (S : ChainState) : Prop where
  nonempty : S.branch ≠ []
  consecutive : Consecutive S.branch
  nonneg : ∀ p ∈ S.branch.tail, 0 ≤ getProofOfStakeReward E p 0

lemma connectTip_reward (S T : ChainState) (a : ConnectStep)
    (hlow : 1 ≤ settings.nMinDevStakePercent)
    (hfollows : Follows E settings S a) (h : connectTip E S a = .ok T) :
    ∃ q, S.branch.head? = some q ∧ 0 ≤ blockFees E S a ∧
      if settings.nDevOutputPeriod ∣ (a.pindex.nHeight : Int) then
        stakeOf S a = devReward E (S.context a) settings + stakerPart E settings q
          (blockFees E S a) ∧ devOutput settings a.block = devReward E (S.context a) settings
      else stakeOf S a = stakerPart E settings q (blockFees E S a) := by
  obtain ⟨c, hc, -⟩ := (connectTip_ok_iff E S T a).mp h
  obtain ⟨hpos, hrule, hfees⟩ := connectBlock_reward (withProcess E a.around.process)
    (S.node a.around) (S.context a) S.view a.block c hfollows.later hc
  obtain ⟨q, hq, hpays⟩ := checkReward_devFund (withProcess E a.around.process) (S.node a.around)
    (S.context a) settings a.block _ _ hpos hlow hfollows.settled hrule
  exact ⟨q, hq, hfees, hpays⟩

lemma rewards_nonneg (S : ChainState) (a : ConnectStep) (hS : Rewarded E S)
    (hreward : 0 ≤ rewardOf E S a) : ∀ p ∈ S.branch, 0 ≤ getProofOfStakeReward E p 0 := by
  have htail := hS.nonneg
  obtain ⟨q, qs, hbranch⟩ := exists_cons_of_ne_nil hS.nonempty
  rw [rewardOf, hbranch] at hreward
  rw [hbranch] at htail ⊢
  exact forall_mem_cons.mpr ⟨hreward, htail⟩

/-- Reward and fees cover what a block pays besides the mandatory output and the share kept back. -/
lemma connectTip_covered (S T : ChainState) (a : ConnectStep)
    (hlow : 1 ≤ settings.nMinDevStakePercent)
    (hhigh : settings.nMinDevStakePercent ≤ 100) (hfollows : Follows E settings S a)
    (hreward : 0 ≤ rewardOf E S a) (h : connectTip E S a = .ok T) :
    stakeOf S a - devPaid settings S a ≤
      rewardOf E S a + blockFees E S a - shareOf E settings S a := by
  obtain ⟨q, hq, hfees, hpays⟩ := connectTip_reward E settings S T a hlow hfollows h
  have hshare : shareOf E settings S a = share E settings q := by rw [shareOf, hq]; rfl
  have hrewardOf : rewardOf E S a = getProofOfStakeReward E q 0 := by rw [rewardOf, hq]; rfl
  have hparts := share_add_stakerPart_le E settings q (blockFees E S a) hfees (hrewardOf ▸ hreward)
    (by omega) hhigh
  rw [devPaid]
  by_cases hend : settings.nDevOutputPeriod ∣ (a.pindex.nHeight : Int)
  · rw [if_pos hend] at hpays ⊢
    omega
  · rw [if_neg hend] at hpays ⊢
    omega

section

variable (hlow : 1 ≤ settings.nMinDevStakePercent)
  (hperiod : 0 < settings.nDevOutputPeriod) {S T : ChainState} {a : ConnectStep} (hS : Rewarded E S)
  (hfollows : Follows E settings S a) (hreward : 0 ≤ rewardOf E S a)
  (h : connectTip E S a = .ok T)

include hS hfollows

lemma nHeight_eq : a.pindex.nHeight = S.branch.length := by
  rw [hfollows.height, nextHeight_of_consecutive _ hS.consecutive]

include h

lemma connectTip_branch : ∃ p, T.branch = p :: S.branch ∧ p.nHeight = S.branch.length := by
  obtain ⟨c, hc, rfl⟩ := (connectTip_ok_iff E S T a).mp h
  exact ⟨c.pindex, rfl, (connectStep_nHeight E S a c hc).trans (nHeight_eq E settings hS hfollows)⟩

/-- What is kept back grows by the share of the block. -/
lemma connectTip_keptBack :
    shareOf E settings S a + keptBack E settings S.branch = keptBack E settings T.branch := by
  obtain ⟨p, hbranch, -⟩ := connectTip_branch E settings hS hfollows h
  obtain ⟨q, qs, hold⟩ := exists_cons_of_ne_nil hS.nonempty
  rw [shareOf, keptBack, keptBack, hbranch, hold, drop_succ_cons, drop_zero,
    drop_succ_cons, drop_zero, map_cons, sum_cons]
  rfl

include hreward

lemma connectTip_rewarded : Rewarded E T := by
  have hall := rewards_nonneg E S a hS hreward
  obtain ⟨p, hbranch, hp⟩ := connectTip_branch E settings hS hfollows h
  refine ⟨?_, ?_, ?_⟩
  · rw [hbranch]
    exact cons_ne_nil _ _
  · rw [hbranch]
    exact ⟨hp, hS.consecutive⟩
  · rw [hbranch, tail_cons]
    exact hall

include hlow hperiod

/-- The mandatory output pays for the entries of the period that ends, and for none otherwise. -/
lemma connectTip_paidFor :
    devPaid settings S a + paidFor E settings S.branch = paidFor E settings T.branch := by
  obtain ⟨p, hbranch, -⟩ := connectTip_branch E settings hS hfollows h
  obtain ⟨_, -, -, hpays⟩ := connectTip_reward E settings S T a hlow hfollows h
  obtain ⟨q, qs, hold⟩ := exists_cons_of_ne_nil hS.nonempty
  have hheight := nHeight_eq E settings hS hfollows
  have hdvd : settings.nDevOutputPeriod ∣ (a.pindex.nHeight : Int) ↔
      settings.nDevOutputPeriod.toNat ∣ S.branch.length := by
    rw [hheight, ← Int.natCast_dvd_natCast, Int.toNat_of_nonneg (le_of_lt hperiod)]
  rw [devPaid, hbranch]
  by_cases hend : settings.nDevOutputPeriod ∣ (a.pindex.nHeight : Int)
  · rw [if_pos hend] at hpays
    have hlen := Nat.le_of_dvd (length_pos_of_ne_nil hS.nonempty) (hdvd.mp hend)
    have hall : devReward E (S.context a) settings =
        ((S.branch.take settings.nDevOutputPeriod.toNat).map (share E settings)).sum :=
      devReward_eq E (S.context a) settings hS.consecutive hheight
        (show settings.nDevOutputPeriod ≤ (S.branch.length : Int) by omega) hperiod (by omega)
        (rewards_nonneg E S a hS hreward)
    have hfull := hdvd.mp hend
    rw [if_pos hend, hpays.2, hall, hold]
    rw [hold] at hfull
    rw [paidFor_end E settings p q qs (by omega) hfull]
  · have hpart := fun hd => hend (hdvd.mpr hd)
    rw [hold] at hpart ⊢
    rw [if_neg hend, Int.zero_add, paidFor_inside E settings p q qs hpart]

end

lemma run_length (steps : List ConnectStep) (S T : ChainState)
    (h : loop (connectTip E) S steps = .ok T) : T.branch.length = S.branch.length +
      steps.length := by
  induction steps generalizing S with
  | nil =>
    rw [loop_nil, Except.ok.injEq] at h
    rw [h]
    rfl
  | cons a steps ih =>
    obtain ⟨m, hm, hrest⟩ := (loop_cons_ok_iff _ _ _ _ _).mp h
    obtain ⟨c, -, rfl⟩ := (connectTip_ok_iff E S m a).mp hm
    have hlen := ih _ hrest
    rw [hlen, length_cons]
    show (c.pindex :: S.branch).length + _ = _
    rw [length_cons]
    omega

/-- Over whole periods from height 1 on, with no negative reward on the way: the coinstakes pay
out at most the rewards and fees, and the mandatory outputs exactly the fund's share of each
block's reward. -/
theorem emission_bounded (hlow : 1 ≤ settings.nMinDevStakePercent)
    (hhigh : settings.nMinDevStakePercent ≤ 100) (hperiod : 0 < settings.nDevOutputPeriod)
    (steps : List ConnectStep) (S T : ChainState) (genesis : ChainBlock)
    (hgenesis : S.chain = [genesis]) (hzero : genesis.pindex.nHeight = 0)
    (hsteps : everyStep (fun S a => Follows E settings S a ∧ 0 ≤ rewardOf E S a)
      (connectTip E) S steps)
    (hrun : loop (connectTip E) S steps = .ok T)
    (hend : settings.nDevOutputPeriod ∣ (steps.length : Int)) :
    stepSum stakeOf (connectTip E) S steps ≤
        stepSum (fun S a => rewardOf E S a + blockFees E S a) (connectTip E) S steps ∧
      stepSum (devPaid settings) (connectTip E) S steps =
        stepSum (shareOf E settings) (connectTip E) S steps := by
  have hbranch : S.branch = [genesis.pindex] := by rw [ChainState.branch, hgenesis]; rfl
  have hS : Rewarded E S := by
    refine ⟨?_, ?_, ?_⟩
    · rw [hbranch]
      exact cons_ne_nil _ _
    · rw [hbranch]
      exact ⟨hzero, trivial⟩
    · rw [hbranch]
      exact fun p hp => absurd hp not_mem_nil
  have hpaid := stepSum_telescope (connectTip E) _ (Rewarded E) (devPaid settings)
    (fun S => paidFor E settings S.branch)
    (fun S T a hS ha h => ⟨connectTip_rewarded E settings hS ha.1 ha.2 h,
      connectTip_paidFor E settings hlow hperiod hS ha.1 ha.2 h⟩) steps S T hS hsteps hrun
  have hkept := stepSum_telescope (connectTip E) _ (Rewarded E) (shareOf E settings)
    (fun S => keptBack E settings S.branch)
    (fun S T a hS ha h => ⟨connectTip_rewarded E settings hS ha.1 ha.2 h,
      connectTip_keptBack E settings hS ha.1 h⟩) steps S T hS hsteps hrun
  have hcovered := stepSum_le (connectTip E) _ (Rewarded E)
    (fun S a => stakeOf S a - devPaid settings S a)
    (fun S a => rewardOf E S a + blockFees E S a - shareOf E settings S a)
    (fun S T a hS ha h => ⟨connectTip_rewarded E settings hS ha.1 ha.2 h,
      connectTip_covered E settings S T a hlow hhigh ha.1 ha.2 h⟩) steps S T hS hsteps hrun
  have hstart : paidFor E settings S.branch = keptBack E settings S.branch :=
    paidFor_eq_keptBack E settings S.branch (by rw [hbranch]; exact Nat.dvd_zero _)
  have hfinish : paidFor E settings T.branch = keptBack E settings T.branch := by
    refine paidFor_eq_keptBack E settings T.branch ?_
    rw [run_length E steps S T hrun, hbranch, length_singleton, Nat.add_sub_cancel_left]
    rw [← Int.natCast_dvd_natCast, Int.toNat_of_nonneg (le_of_lt hperiod)]
    exact hend
  rw [stepSum_sub, stepSum_sub (connectTip E) (fun S a => rewardOf E S a + blockFees E S a)]
    at hcovered
  constructor <;> omega

end

section

open ToyEnvironment

def fund (nMinDevStakePercent nDevOutputPeriod : Int) : DevFundSettings :=
  ⟨some (hash160 (keyBytes 9)), some (p2pkh (hash160 (keyBytes 9))), nMinDevStakePercent,
    nDevOutputPeriod⟩

def coinbase (tag : UInt8) (values : List Int) : CTransaction :=
  { nVersion := 0x1A0
    vin := [{ prevout := ⟨0, 0xffffffff⟩, scriptSig := [1, tag] }]
    vpout := values.map (keyOutput 3) }

def firstBlock (vtx : List CTransaction) : CBlock :=
  let header : CBlockHeader :=
    { nVersion := BITCOINC_BLOCK_VERSION
      hashPrevBlock := 0
      hashMerkleRoot := 0
      hashWitnessMerkleRoot := 0
      nTime := 100
      nBits := 0x1f00ffff
      nNonce := 0 }
  { header := { header with hashMerkleRoot := (blockMerkleRoot env ⟨header, vtx, []⟩).1 }, vtx }

def fundEnv (genesis : CBlock) (nCoinYearReward : Int) (settings : DevFundSettings) : Env :=
  { env with
    hashGenesisBlock := env.blockHash genesis
    nCoinYearReward
    vDevFundSettings := [(-1, settings)] }

lemma getDevFundSettings_fundEnv (genesis : CBlock) (rate : Int) (settings : DevFundSettings)
    (nTime : Nat) : (fundEnv genesis rate settings).getDevFundSettings nTime = some settings := by
  have hpast : (-1 : Int) < nTime := by omega
  simp [Env.getDevFundSettings, fundEnv, hpast]

def firstStep (genesis : CBlock) : ConnectStep :=
  ⟨quiet, genesis, ⟨env.blockHash genesis, 0, 100, 0x1f00ffff, 0, ⟨0, 0xffffffff⟩, 0, 0⟩⟩

def knowing (coinstake : CTransaction) : Surroundings :=
  { quiet with coinStakeOf := fun _ => some coinstake }

def nextStep (E : Env) (prev : CBlockIndex) (A : Surroundings) (coinstake : CTransaction) :
    ConnectStep :=
  ⟨A, mine E prev [coinstake], indexOf E prev (mine E prev [coinstake])⟩

def fundOutput (nValue : Int) : CTxOutBase := .standard ⟨nValue, p2pkh (hash160 (keyBytes 9)), []⟩

def oneCoin : CTransaction := coinbase 1 [COIN, 1000, 1000]

def coinEnv : Env := fundEnv (firstBlock [oneCoin]) 2628000 (fund 30 2)

def oddStake : CTransaction := stake (env.txHash oneCoin) 1 1 [keyOutput 3 1007]

def oddStep : ConnectStep := nextStep coinEnv (firstStep (firstBlock [oneCoin])).pindex
    quiet oddStake

def evenStake : CTransaction := stake (env.txHash oneCoin) 2 2 [fundOutput 6, keyOutput 3 1007]

def evenStep : ConnectStep := nextStep coinEnv oddStep.pindex (knowing oddStake) evenStake

theorem emission_bounded_period :
    ∃ S T, connectTip coinEnv .empty (firstStep (firstBlock [oneCoin])) = .ok S ∧
      loop (connectTip coinEnv) S [oddStep, evenStep] = .ok T ∧
      stepSum (devPaid (fund 30 2)) (connectTip coinEnv) S [oddStep, evenStep] = 6 ∧
      stepSum (shareOf coinEnv (fund 30 2)) (connectTip coinEnv) S [oddStep, evenStep] = 6 ∧
      stepSum stakeOf (connectTip coinEnv) S [oddStep, evenStep] ≤ 20 := by
  obtain ⟨⟨S, M, T⟩, hrun, hfacts⟩ := exists_ok_of_toOption
    (connectTip coinEnv .empty (firstStep (firstBlock [oneCoin])) >>= fun S =>
      connectTip coinEnv S oddStep >>= fun M => connectTip coinEnv M evenStep >>= fun T =>
        pure (S, M, T))
    (fun x : ChainState × ChainState × ChainState => decide
      (nextHeight x.1.branch = 1 ∧ nextHeight x.2.1.branch = 2 ∧ rewardOf coinEnv x.1 oddStep = 10 ∧
        rewardOf coinEnv x.2.1 evenStep = 10 ∧ blockFees coinEnv x.1 oddStep = 0 ∧
        blockFees coinEnv x.2.1 evenStep = 0 ∧
        devPaid (fund 30 2) x.1 oddStep = 0 ∧ devPaid (fund 30 2) x.2.1 evenStep = 6)) true
    (by decide +kernel)
  simp only [bind_ok_iff, pure_ok_iff, Prod.mk.injEq] at hrun
  obtain ⟨S', hS, M', hM, T', hT, rfl, rfl, rfl⟩ := hrun
  obtain ⟨hodd, heven, hten, hten', hfee, hfee', hnone, hsix⟩ := of_decide_eq_true hfacts
  have hsteps : everyStep (fun S a => Follows coinEnv (fund 30 2) S a ∧ 0 ≤ rewardOf coinEnv S a)
      (connectTip coinEnv) S' [oddStep, evenStep] := by
    refine ⟨⟨⟨hodd.symm, by decide +kernel, getDevFundSettings_fundEnv _ _ _ _⟩, hten ▸ by decide⟩,
      ?_⟩
    intro t ht
    obtain rfl : M' = t := Except.ok.inj (hM.symm.trans ht)
    exact ⟨⟨⟨heven.symm, by decide +kernel, getDevFundSettings_fundEnv _ _ _ _⟩, hten' ▸ by decide⟩,
      fun _ _ => trivial⟩
  have hloop : loop (connectTip coinEnv) S' [oddStep, evenStep] = .ok T' :=
    (loop_cons_ok_iff _ _ _ _ _).mpr ⟨M', hM, (loop_cons_ok_iff _ _ _ _ _).mpr ⟨T', hT, rfl⟩⟩
  obtain ⟨c, hc, hchain⟩ := (connectTip_ok_iff coinEnv .empty S' _).mp hS
  have honly : S'.chain = [⟨(firstStep (firstBlock [oneCoin])).block, c.pindex, c.undo⟩] := by
    rw [hchain]
    rfl
  obtain ⟨hbound, hfund⟩ := emission_bounded coinEnv (fund 30 2) (by decide) (by decide) (by decide)
    [oddStep, evenStep] S' T' _ honly (connectStep_nHeight coinEnv .empty _ c hc) hsteps hloop
    (by decide)
  rw [stepSum_cons _ _ _ _ _ _ hM, stepSum_cons _ _ _ _ _ _ hT, hnone, hsix] at hfund
  rw [stepSum_cons (fun S a => rewardOf coinEnv S a + blockFees coinEnv S a) _ _ _ _ _ hM,
    stepSum_cons (fun S a => rewardOf coinEnv S a + blockFees coinEnv S a) _ _ _ _ _ hT, hten,
    hten', hfee, hfee'] at hbound
  refine ⟨S', T', hS, hloop, ?_, hfund.symm, hbound⟩
  rw [stepSum_cons _ _ _ _ _ _ hM, stepSum_cons _ _ _ _ _ _ hT, hnone, hsix]
  rfl

def smallCoins : CTransaction := coinbase 0 [1000, 1000]

def wrappedEnv : Env := fundEnv (firstBlock [smallCoins]) 300000 (fund 1 1)

def idleStake (n : UInt32) (nHeight : UInt8) : CTransaction :=
  stake (env.txHash smallCoins) n nHeight [fundOutput 0, keyOutput 3 1000]

/-- Coinbases that take the supply to `2 ^ 64 - COIN`. -/
def overflowing : List CTransaction :=
  (range 18).map (fun i => coinbase (UInt8.ofNat (i + 1)) [MAX_MONEY]) ++
    [coinbase 19 [2 ^ 64 - COIN - 18 * MAX_MONEY - 2000]]

def importStep : ConnectStep :=
  let prev := (firstStep (firstBlock [smallCoins])).pindex
  let block := mine wrappedEnv prev (idleStake 0 1 :: overflowing)
  ⟨quiet, block, indexOf wrappedEnv prev block⟩

def wrappedStep : ConnectStep :=
  nextStep wrappedEnv importStep.pindex (knowing (idleStake 0 1)) (idleStake 1 2)

/-- The block at height 1 makes the supply counter wrap, and the reward of the next one is -1: it is
connected, the coinstakes pay out 0, and the fund gets 0, which is not -1 percent rounded down. -/
theorem emission_exceeds_wrapped :
    ∃ S T, connectTip wrappedEnv .empty (firstStep (firstBlock [smallCoins])) = .ok S ∧
      everyStep (Follows wrappedEnv (fund 1 1)) (connectTip wrappedEnv) S [importStep,
        wrappedStep] ∧
      loop (connectTip wrappedEnv) S [importStep, wrappedStep] = .ok T ∧
      stepSum stakeOf (connectTip wrappedEnv) S [importStep, wrappedStep] = 0 ∧
      stepSum (fun S a => rewardOf wrappedEnv S a + blockFees wrappedEnv S a)
        (connectTip wrappedEnv) S [importStep, wrappedStep] = -1 ∧
      stepSum (devPaid (fund 1 1)) (connectTip wrappedEnv) S [importStep, wrappedStep] = 0 ∧
      stepSum (shareOf wrappedEnv (fund 1 1)) (connectTip wrappedEnv) S [importStep,
        wrappedStep] = -1 := by
  obtain ⟨⟨S, M, T⟩, hrun, hfacts⟩ := exists_ok_of_toOption
    (connectTip wrappedEnv .empty (firstStep (firstBlock [smallCoins])) >>= fun S =>
      connectTip wrappedEnv S importStep >>= fun M =>
      connectTip wrappedEnv M wrappedStep >>= fun T => pure (S, M, T))
    (fun x : ChainState × ChainState × ChainState => decide
      ((nextHeight x.1.branch = 1 ∧ nextHeight x.2.1.branch = 2) ∧
        stakeOf x.1 importStep + stakeOf x.2.1 wrappedStep = 0 ∧
        rewardOf wrappedEnv x.1 importStep + blockFees wrappedEnv x.1 importStep +
          (rewardOf wrappedEnv x.2.1 wrappedStep + blockFees wrappedEnv x.2.1 wrappedStep) = -1 ∧
        devPaid (fund 1 1) x.1 importStep + devPaid (fund 1 1) x.2.1 wrappedStep = 0 ∧
        shareOf wrappedEnv (fund 1 1) x.1 importStep +
          shareOf wrappedEnv (fund 1 1) x.2.1 wrappedStep = -1)) true
    (by decide +kernel)
  simp only [bind_ok_iff, pure_ok_iff, Prod.mk.injEq] at hrun
  obtain ⟨S', hS, M', hM, T', hT, rfl, rfl, rfl⟩ := hrun
  obtain ⟨⟨hone, htwo⟩, hstake, hreward, hpaid, hshare⟩ := of_decide_eq_true hfacts
  have htwoSteps (f : ChainState → ConnectStep → Int) :
      stepSum f (connectTip wrappedEnv) S' [importStep, wrappedStep] =
        f S' importStep + f M' wrappedStep := by
    rw [stepSum_cons _ _ _ _ _ _ hM, stepSum_cons _ _ _ _ _ _ hT, stepSum, Int.add_zero]
  refine ⟨S', T', hS, ⟨⟨hone.symm, by decide +kernel, getDevFundSettings_fundEnv _ _ _ _⟩, ?_⟩,
    (loop_cons_ok_iff _ _ _ _ _).mpr ⟨M', hM, (loop_cons_ok_iff _ _ _ _ _).mpr ⟨T', hT, rfl⟩⟩,
    (htwoSteps _).trans hstake, (htwoSteps _).trans hreward, (htwoSteps _).trans hpaid,
    (htwoSteps _).trans hshare⟩
  intro t ht
  obtain rfl : M' = t := Except.ok.inj (hM.symm.trans ht)
  exact ⟨⟨htwo.symm, by decide +kernel, getDevFundSettings_fundEnv _ _ _ _⟩, fun _ _ => trivial⟩

end

end Emission
