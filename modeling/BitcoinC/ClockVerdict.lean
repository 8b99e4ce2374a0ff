import BitcoinC.ColdStake

/-!
# Verdicts at two clocks

`CheckBlock` followed by `ConnectBlock` on nodes that differ in their adjusted
time only.
-/

namespace ClockVerdict

open Primitives Encoding Scripts Environment Verdicts TxVerify Coins Kernel Blocks ConnectBlock

def atTime (E : Env) (nAdjustedTime : Int) : Env := { E with nAdjustedTime := nAdjustedTime }

section

variable (E : Env) (t t' : Int) (fBulletproofsActive : Bool)
variable (tx : CTransaction) (b : CBlock) (p : CTxOutStandard)

def checkAndConnect (G : NodeState) (C : BlockContext) (view : CCoinsViewCache) (b : CBlock) :
    Except Failure Connected := do
  relabel (Failure.at view) (checkBlock E true b)
  connectBlock E G C view b

/-- The rules of a standard output that read the clock. -/
def InTime (tx : CTransaction) (p : CTxOutStandard) : Prop :=
  ¬ (hasIsCoinstakeOp p.scriptPubKey ∧ t < E.OpIsCoinstakeTime) ∧
    (tx.isCoinBase ∨ checkStakingOutput E (Int.bmod t (2 ^ 32)) tx p = .ok ())

/-- The rules that read the clock hold for all standard outputs at `t`. -/
def AllInTime (b : CBlock) : Prop :=
  ∀ tx ∈ b.vtx, ∀ p ∈ tx.standardOutputs, InTime E t tx p

/-- `CheckOutput` without the rules that read the clock. -/
def checkUntimed (fIsConvertOutput : Bool) (nValueOut : Int) : CTxOutBase → Verdict Int
  | .standard p => do
    let total ← checkValue p.nValue nValueOut
    rejectIf (COMPACT_SIGNATURE_SIZE < p.vecSignature.length)
      (.dos 10 REJECT_INVALID "bad-stake-vout-signature-size")
    rejectIf (hasIsCoinstakeOp p.scriptPubKey ∧ E.fAllowOpIsCoinstakeWithP2PKH = false ∧
        isSpendScriptP2PKH p.scriptPubKey)
      (.dos 10 REJECT_INVALID "bad-stak-vout-opiscoinstake-spend-p2pkh")
    rejectIf (¬ moneyRange total) (.dos 100 REJECT_INVALID "bad-txns-txouttotal-toolarge")
    pure total
  | o => checkOutput E fBulletproofsActive tx fIsConvertOutput nValueOut o

/-- The transaction passes the checks of `CheckTransaction` that do not read the clock. -/
structure UntimedTx (tx : CTransaction) : Prop where
  inputs : tx.vin ≠ []
  size : ¬ MAX_BLOCK_WEIGHT < (serializeTransaction false tx).length * WITNESS_SCALE_FACTOR
  version : tx.isBitcoinCVersion
  outputs : tx.vpout ≠ [] ∧ tx.vout = []
  each : ∃ total, loop (checkUntimed E fBulletproofsActive tx
    ((tx.vin.any fun txin => ¬ txin.isAnonInput) || tx.vpout.any (·.isStandardOutput))) 0 tx.vpout =
      .ok total
  data : ¬ 1 + tx.standardOutputs.length <
    (tx.vpout.filter fun o => !o.isStandardOutput && !o.isRingCT).length
  distinct : (standardPrevouts tx.vin).Nodup
  kind : (if tx.isCoinBase then
      rejectIf (tx.vin.any fun txin => txin.scriptSig.length < 2 || 150 < txin.scriptSig.length)
        (.dos 100 REJECT_INVALID "bad-cb-length")
    else rejectIf (tx.vin.any fun txin => ¬ txin.isAnonInput && txin.prevout.isNull)
      (.dos 10 REJECT_INVALID "bad-txns-prevout-null") : Verdict Unit) = .ok ()

/-- The block passes the checks of `CheckBlock` that do not read the clock. -/
structure UntimedBlock (fCheckMerkleRoot : Bool) (b : CBlock) : Prop where
  version : b.header.nVersion = BITCOINC_BLOCK_VERSION
  root : ¬ (fCheckMerkleRoot ∧ b.header.hashMerkleRoot ≠ (blockMerkleRoot E b).1)
  unmutated : ¬ (fCheckMerkleRoot ∧ (blockMerkleRoot E b).2)
  length : ¬ (b.vtx = [] ∨ MAX_BLOCK_WEIGHT < b.vtx.length * WITNESS_SCALE_FACTOR ∨
    MAX_BLOCK_WEIGHT < (serializeBlock false b).length * WITNESS_SCALE_FACTOR)
  first : b.vtx.head?.any fun tx => tx.isCoinBase ∨ tx.isCoinStake
  later : ¬ b.vtx.tail.any fun tx => tx.isCoinStake
  signature : checkBlockSignature E b = true
  txs : ∀ tx ∈ b.vtx, UntimedTx E (Blocks.fBulletproofsActive E b) tx
  sigOps : ¬ MAX_BLOCK_SIGOPS_COST < blockSigOpCount b * WITNESS_SCALE_FACTOR

/-- The block passes the checks of `CheckBlock` and `ConnectBlock` that do not read the clock. -/
structure Untimed (G : NodeState) (C : BlockContext) (view : CCoinsViewCache) (b : CBlock) :
    Prop where
  block : UntimedBlock E true b
  hash : C.pindex.hashBlock = E.blockHash b
  stake : checkStake E G C b = .ok ()
  best : bestBlock C.branch = view.hashBlock
  fresh : checkBIP30 E view.coins b = .ok ()
  connected : ∃ s, loop (connectTx E G C) { view } b.vtx.zipIdx = .ok s ∧
    checkAfter E G C b s = .ok ()

def devFundKey : Option (Option Uint160) :=
  (E.getDevFundSettings (Int.bmod t (2 ^ 32))).map (·.keyID)

/-- Both clocks lie on the same side of the activation, or select the same dev fund. -/
def SameRules (tx : CTransaction) (p : CTxOutStandard) : Prop :=
  if hasIsCoinstakeOp p.scriptPubKey then t < E.OpIsCoinstakeTime ↔ t' < E.OpIsCoinstakeTime
  else tx.isCoinBase ∨ devFundKey E t = devFundKey E t'

instance (tx : CTransaction) (p : CTxOutStandard) : Decidable (SameRules E t t' tx p) :=
  inferInstanceAs (Decidable (if hasIsCoinstakeOp p.scriptPubKey then _ else _))

lemma merkleLevel_atTime (hashes : List Uint256) :
    merkleLevel (atTime E t) hashes = merkleLevel E hashes := by
  fun_induction merkleLevel E hashes with
  | case1 => rfl
  | case2 h => rfl
  | case3 h h' hs ih =>
    rw [merkleLevel, ih]
    rfl

lemma merkleLoop_atTime (n : Nat) (hashes : List Uint256) (mutation : Bool) :
    merkleLoop (atTime E t) n hashes mutation = merkleLoop E n hashes mutation := by
  fun_induction merkleLoop E n hashes mutation with
  | case1 n h h' hs mutation ih => rw [merkleLoop, merkleLevel_atTime, ih]
  | case2 n hashes mutation hshort =>
    rw [merkleLoop]
    exact hshort

lemma blockMerkleRoot_atTime : blockMerkleRoot (atTime E t) b = blockMerkleRoot E b :=
  merkleLoop_atTime E t _ _ false

lemma checkBlockHeader_atTime (h : CBlockHeader) (ht : (h.nTime.toNat : Int) ≤ t) :
    checkBlockHeader (atTime E t) h = .ok () ↔ h.nVersion = BITCOINC_BLOCK_VERSION := by
  have hdrift : ¬ (h.hashPrevBlock ≠ 0 ∧ (atTime E t).nAdjustedTime + FUTURE_DRIFT <
      h.nTime.toNat) := by
    rintro ⟨-, hlate⟩
    simp only [atTime, FUTURE_DRIFT] at hlate
    omega
  simp only [checkBlockHeader, bind_ok_iff, rejectIf_ok_iff, exists_const, hdrift,
    not_false_eq_true, and_true, not_not]

lemma checkOutput_ok_iff_inTime (fIsConvertOutput : Bool) (nValueOut total : Int) (o : CTxOutBase) :
    checkOutput (atTime E t) fBulletproofsActive tx fIsConvertOutput nValueOut o = .ok total ↔
      checkUntimed E fBulletproofsActive tx fIsConvertOutput nValueOut o = .ok total ∧
        ∀ p, o = .standard p → InTime E t tx p := by
  cases o with
  | standard p =>
    have hsame : checkStakingOutput (atTime E t) (Int.bmod (atTime E t).nAdjustedTime (2 ^ 32))
      tx p = checkStakingOutput E (Int.bmod t (2 ^ 32)) tx p := rfl
    simp only [checkOutput, checkOutputBody, checkStandardOutput, checkUntimed, InTime,
      CTxOutBase.standard.injEq, forall_eq', bind_ok_iff, rejectIf_ok_iff, exists_const,
      pure_ok_iff]
    constructor
    · rintro ⟨_, ⟨n, hn, hsize, hactive, hspend, hrest⟩, hrange, rfl⟩
      split_ifs at hrest with hcb
      · obtain rfl := Except.ok.inj hrest
        exact ⟨⟨n, hn, hsize, hspend, hrange, rfl⟩, hactive, .inl hcb⟩
      · obtain ⟨_, hstaking, hn'⟩ := (bind_ok_iff ..).mp hrest
        obtain rfl := Except.ok.inj hn'
        exact ⟨⟨n, hn, hsize, hspend, hrange, rfl⟩, hactive, .inr hstaking⟩
    · rintro ⟨⟨n, hn, hsize, hspend, hrange, rfl⟩, hactive, hrule⟩
      refine ⟨n, ⟨n, hn, hsize, hactive, hspend, ?_⟩, hrange, rfl⟩
      by_cases hcb : tx.isCoinBase
      · rw [if_pos hcb]
        rfl
      · rw [if_neg hcb, hsame, hrule.resolve_left hcb]
        rfl
  | ringCT p => exact (and_iff_left fun _ h => CTxOutBase.noConfusion h).symm
  | data p => exact (and_iff_left fun _ h => CTxOutBase.noConfusion h).symm

lemma checkTransaction_ok_iff_inTime :
    checkTransaction (atTime E t) fBulletproofsActive tx true = .ok () ↔
      UntimedTx E fBulletproofsActive tx ∧ ∀ p ∈ tx.standardOutputs, InTime E t tx p := by
  have hmem : (∀ o ∈ tx.vpout, ∀ p, o = .standard p → InTime E t tx p) ↔
      ∀ p ∈ tx.standardOutputs, InTime E t tx p := by
    constructor
    · intro h p hp
      obtain ⟨o, ho, hop⟩ := List.mem_filterMap.mp hp
      exact h o ho p (by cases o <;> simp_all [CTxOutBase.standard?])
    · rintro h _ ho p rfl
      exact h p (List.mem_filterMap.mpr ⟨_, ho, rfl⟩)
  simp only [checkTransaction, checkOutputs, bind_ok_iff, rejectIf_ok_iff, exists_const,
    loop_ok_and_iff (checkOutput_ok_iff_inTime E t fBulletproofsActive tx _), hmem,
    true_and, not_not]
  constructor
  · rintro ⟨hvin, hsize, hversion, ⟨hvpout, hvout, total, ⟨hloop, hin⟩, hdata⟩, hnodup, hkind⟩
    exact ⟨⟨hvin, hsize, hversion, ⟨hvpout, hvout⟩, ⟨total, hloop⟩, hdata, hnodup, hkind⟩, hin⟩
  · rintro ⟨⟨hvin, hsize, hversion, ⟨hvpout, hvout⟩, ⟨total, hloop⟩, hdata, hnodup, hkind⟩, hin⟩
    exact ⟨hvin, hsize, hversion, ⟨hvpout, hvout, total, ⟨hloop, hin⟩, hdata⟩, hnodup, hkind⟩

lemma checkBlock_ok_iff_inTime (fCheckMerkleRoot : Bool) (ht : (b.header.nTime.toNat : Int) ≤ t) :
    checkBlock (atTime E t) fCheckMerkleRoot b = .ok () ↔
      UntimedBlock E fCheckMerkleRoot b ∧ AllInTime E t b := by
  have hsignature : checkBlockSignature (atTime E t) b = checkBlockSignature E b := rfl
  have hactive : Blocks.fBulletproofsActive (atTime E t) b = Blocks.fBulletproofsActive E b := rfl
  simp only [checkBlock, bind_ok_iff, rejectIf_ok_iff, exists_const, checkEach_ok_iff,
    checkBlockHeader_atTime E t _ ht, blockMerkleRoot_atTime, hsignature, hactive,
    checkTransaction_ok_iff_inTime, not_not, Bool.not_eq_false]
  constructor
  · rintro ⟨hversion, hroot, hmutated, hlength, hfirst, hlater, hsig, htxs, hsigops⟩
    exact ⟨⟨hversion, hroot, hmutated, hlength, hfirst, hlater, hsig, fun tx htx => (htxs tx htx).1,
      hsigops⟩, fun tx htx => (htxs tx htx).2⟩
  · rintro ⟨⟨hversion, hroot, hmutated, hlength, hfirst, hlater, hsig, htxs, hsigops⟩, hin⟩
    exact ⟨hversion, hroot, hmutated, hlength, hfirst, hlater, hsig,
      fun tx htx => ⟨htxs tx htx, hin tx htx⟩, hsigops⟩

lemma UntimedBlock.mono {fCheckMerkleRoot : Bool} (h : UntimedBlock E true b) :
    UntimedBlock E fCheckMerkleRoot b :=
  ⟨h.version, fun hroot => h.root ⟨rfl, hroot.2⟩, fun hmut => h.unmutated ⟨rfl, hmut.2⟩, h.length,
    h.first, h.later, h.signature, h.txs, h.sigOps⟩

def Accepted (G : NodeState) (C : BlockContext) (view : CCoinsViewCache) (b : CBlock) : Prop :=
  ∃ c, checkAndConnect E G C view b = .ok c

/-- Acceptance is the checks without the clock and those with it. -/
lemma accepted_iff_inTime (G : NodeState) (C : BlockContext) (view : CCoinsViewCache) (b : CBlock)
    (ht : (b.header.nTime.toNat : Int) ≤ t) :
    Accepted (atTime E t) G C view b ↔ Untimed E G C view b ∧ AllInTime E t b := by
  have hconnect : connectTx (atTime E t) G C = connectTx E G C := rfl
  have hafter : checkAfter (atTime E t) G C b = checkAfter E G C b := rfl
  have hstake : checkStake (atTime E t) G C b = checkStake E G C b := rfl
  have hbip : checkBIP30 (atTime E t) view.coins b = checkBIP30 E view.coins b := rfl
  have hhash : (atTime E t).blockHash b = E.blockHash b := rfl
  simp only [Accepted, checkAndConnect, bind_ok_iff, relabel_ok_iff, connectBlock_ok_iff,
    checkBefore, rejectIf_ok_iff, exists_const, checkBlock_ok_iff_inTime E t b _ ht, hconnect,
    hafter, hstake, hbip, hhash, not_not]
  constructor
  · rintro ⟨c, ⟨hblock, hin⟩, ⟨hsame, -, _, hstake, hbest, hfresh⟩, s, hloop, hend, -⟩
    exact ⟨⟨hblock, hsame, hstake, hbest, hfresh, s, hloop, hend⟩, hin⟩
  · rintro ⟨⟨hblock, hsame, hstake, hbest, hfresh, s, hloop, hend⟩, hin⟩
    exact ⟨_, ⟨hblock, hin⟩, ⟨hsame, ⟨hblock.mono, hin⟩, (), hstake, hbest, hfresh⟩, s, hloop,
      hend, rfl⟩

/-- With the settings of both clocks naming one key, an output is waived at both or at neither. -/
lemma checkStakingOutput_sameKey (hplain : ¬ hasIsCoinstakeOp p.scriptPubKey)
    (hkey : devFundKey E t = devFundKey E t') : checkStakingOutput E (Int.bmod t (2 ^ 32)) tx p =
      checkStakingOutput E (Int.bmod t' (2 ^ 32)) tx p := by
  unfold devFundKey at hkey
  simp only [checkStakingOutput, if_neg hplain]
  congr 1
  funext keyID1
  cases hs : E.getDevFundSettings (Int.bmod t (2 ^ 32)) with
  | none =>
    rw [hs, Option.map_none, eq_comm, Option.map_eq_none_iff] at hkey
    rw [hkey]
  | some settings =>
    rw [hs, Option.map_some, eq_comm, Option.map_eq_some_iff] at hkey
    obtain ⟨settings', hs', hsame⟩ := hkey
    rw [hs']
    simp only [orReject, ok_bind, hsame]

lemma checkStakingOutput_conditional (hcond : hasIsCoinstakeOp p.scriptPubKey)
    (nTime nTime' : Int) : checkStakingOutput E nTime tx p = checkStakingOutput E nTime' tx p := by
  simp only [checkStakingOutput, if_pos hcond]

lemma inTime_congr (h : SameRules E t t' tx p) : InTime E t tx p ↔ InTime E t' tx p := by
  unfold SameRules at h
  unfold InTime
  by_cases hcond : hasIsCoinstakeOp p.scriptPubKey
  · rw [if_pos hcond] at h
    rw [h, checkStakingOutput_conditional E tx p hcond _ (Int.bmod t' (2 ^ 32))]
  · rw [if_neg hcond] at h
    have hrule : (tx.isCoinBase ∨ checkStakingOutput E (Int.bmod t (2 ^ 32)) tx p = .ok ()) ↔
        (tx.isCoinBase ∨ checkStakingOutput E (Int.bmod t' (2 ^ 32)) tx p = .ok ()) := by
      rcases h with hcb | hkey
      · exact iff_of_true (.inl hcb) (.inl hcb)
      · rw [checkStakingOutput_sameKey E t t' tx p hcond hkey]
    rw [hrule]
    simp only [hcond, false_and, not_false_eq_true]

/-- The verdict at two clocks is the same exactly when the outputs of a block that passes every
other check are in time at both clocks or at neither, as they are if the two clocks select the
same rules. -/
theorem verdict_sameSide (G : NodeState) (C : BlockContext) (view : CCoinsViewCache) (b : CBlock)
    (ht : (b.header.nTime.toNat : Int) ≤ t) (ht' : (b.header.nTime.toNat : Int) ≤ t') :
    ((Accepted (atTime E t) G C view b ↔ Accepted (atTime E t') G C view b) ↔
      (Untimed E G C view b → (AllInTime E t b ↔ AllInTime E t' b))) ∧
    ((∀ tx ∈ b.vtx, ∀ p ∈ tx.standardOutputs, SameRules E t t' tx p) →
      (AllInTime E t b ↔ AllInTime E t' b)) := by
  rw [accepted_iff_inTime E t G C view b ht, accepted_iff_inTime E t' G C view b ht']
  refine ⟨and_congr_right_iff, fun h => ?_⟩
  exact forall₂_congr fun tx htx => forall₂_congr fun p hp => inTime_congr E t t' tx p
    (h tx htx p hp)

end

section

open ToyEnvironment ColdStake

def activationEnv : Env := { chainEnv with OpIsCoinstakeTime := 1500 }

def paidTo (scriptPubKey : Bytes) : CBlock :=
  mine activationEnv genesisEntry
    [stake genesisHash 0 1 [.standard ⟨1000, scriptPubKey, keyBytes 3 ++ List.replicate 32 0⟩]]

def genesisView : CCoinsViewCache where
  coins o := if o = ⟨genesisHash, 0⟩
    then some ⟨⟨1000, p2pkh (hash160 (keyBytes 3))⟩, true, 0, .standard⟩ else none
  hashBlock := genesisEntry.hashBlock

def contextOf (b : CBlock) : BlockContext :=
  { branch := [genesisEntry], pindex := indexOf activationEnv genesisEntry b }

def acceptedAt (t : Int) (b : CBlock) : Prop :=
  Accepted (atTime activationEnv t) (node [genesisEntry] genesisView.coins .empty) (contextOf b)
    genesisView b

instance (t : Int) (b : CBlock) : Decidable (acceptedAt t b) :=
  inferInstanceAs (Decidable (∃ c, _ = Except.ok c))

/-- A plain output of key 3 is judged alike before and after the activation. -/
theorem verdict_sameSide_plain : acceptedAt 1000 (paidTo (p2pkh (hash160 (keyBytes 3)))) ∧
      acceptedAt 2000 (paidTo (p2pkh (hash160 (keyBytes 3)))) := by
  have hboth := verdict_sameSide activationEnv 1000 2000
    (node [genesisEntry] genesisView.coins .empty)
      (contextOf (paidTo (p2pkh (hash160 (keyBytes 3)))))
    genesisView (paidTo (p2pkh (hash160 (keyBytes 3)))) (by decide +kernel) (by decide +kernel)
  have hfirst : acceptedAt 1000 (paidTo (p2pkh (hash160 (keyBytes 3)))) := by decide +kernel
  exact ⟨hfirst, (hboth.1.mpr fun _ => hboth.2 (by decide +kernel)).mp hfirst⟩

/-- The block of time 200 is rejected at time 1000 and accepted at time 2000. -/
theorem verdict_depends_on_clock : (paidTo coldScript).header.nTime = 200 ∧
      ¬ acceptedAt 1000 (paidTo coldScript) ∧ acceptedAt 2000 (paidTo coldScript) :=
  ⟨by decide +kernel, by decide +kernel, by decide +kernel⟩

end

end ClockVerdict
