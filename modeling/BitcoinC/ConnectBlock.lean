import BitcoinC.Blocks

/-!
# Connecting a block

`CChainState::ConnectBlock` on a coins view, and the connecting half of
`FlushView`. A failure carries the view as it was left, since the caller can still
see it.
-/

namespace ConnectBlock

open Primitives Environment Verdicts TxVerify Anon Coins CheckInputs Kernel Blocks KeyedStore

/-- A failed connection: the reason, the view it leaves, and the range of the RingCT index that
`RollBackRCTIndex` is asked to repair, if any. -/
structure Failure where
  reject : Reject
  view : CCoinsViewCache
  repair : Option (Int × Int) := none

def Failure.at (view : CCoinsViewCache) (reject : Reject) : Failure := { reject, view }

/-- The arguments of `ConnectBlock` besides the block and the view: the branch `pindex->pprev` ends,
the entry of the block itself, and how the call is made. -/
structure BlockContext where
  branch : List CBlockIndex
  pindex : CBlockIndex
  fJustCheck : Bool := false
  fScriptChecks : Bool := true

/-- The variables of the transaction loop. `fHasAnon` is `state.fHasAnonOutput ||
state.fHasAnonInput`, which only `CheckTxInputs` sets. -/
structure BlockState where
  view : CCoinsViewCache
  nFees : Int := 0
  nStakeReward : Int := 0
  nMoneyCreated : Int := 0
  nSigOpsCost : Nat := 0
  fHasAnon : Bool := false
  vtxundo : List CTxUndo := []
  vChecks : List CScriptCheck := []
  inserted : List Uint256 := []

/-- What an accepted block leaves: the view, the updated index entry, the undo data written and the
entries put into the script execution cache. -/
structure Connected where
  view : CCoinsViewCache
  pindex : CBlockIndex
  undo : Option CBlockUndo
  inserted : List Uint256

section

variable (E : Env) (G : NodeState) (C : BlockContext)
variable (view : CCoinsViewCache) (s : BlockState) (b : CBlock) (t : BlockState) (c : Connected)
  (x : CTransaction × Nat)

def getBlockScriptFlags (nHeight : Nat) : UInt32 :=
  if nHeight < E.csp2shHeight then 0x100E15 else 0xE15

def prevHeights (coins : CoinMap) (tx : CTransaction) : List Nat :=
  tx.vin.map fun txin =>
    if txin.isAnonInput then 0 else ((coins txin.prevout).map (·.nHeight)).getD 0

/-- The fee of an ordinary transaction goes to `nFees`, that of a coinstake is its reward. -/
def addFee (s : BlockState) (tx : CTransaction) (r : TxInputs) : BlockState :=
  if tx.isCoinStake then
    { s with
      nStakeReward := s.nStakeReward + r.nTxFee
      nMoneyCreated := int64 (s.nMoneyCreated + (s.nStakeReward + r.nTxFee))
      fHasAnon := r.fHasAnonOutput || r.fHasAnonInput }
  else
    { s with
      nFees := s.nFees + r.nTxFee
      fHasAnon := r.fHasAnonOutput || r.fHasAnonInput }

def tallyTx (s : BlockState) (tx : CTransaction) : Verdict BlockState :=
  if tx.isCoinBase then .ok s
  else do
    let r ← checkTxInputs s.view.coins tx C.pindex.nHeight
    rejectIf (¬ moneyRange (addFee s tx r).nFees)
      (.dos 100 REJECT_INVALID "bad-txns-accumulated-fee-outofrange")
    let final ← sequenceLocks tx (prevHeights s.view.coins tx) (C.pindex :: C.branch)
    rejectIf (final = false) (.dos 100 REJECT_INVALID "bad-txns-nonfinal")
    pure (addFee s tx r)

def countSigOps (s : BlockState) (x : CTransaction × Nat) : Verdict BlockState := do
  let nSigOpsCost := if x.2 = 0 ∨ ¬ x.1.isCoinBase
    then s.nSigOpsCost +
      getTransactionSigOpCost E x.1 s.view.coins (getBlockScriptFlags E C.pindex.nHeight)
    else s.nSigOpsCost
  rejectIf (MAX_BLOCK_SIGOPS_COST < nSigOpsCost) (.dos 100 REJECT_INVALID "bad-blk-sigops")
  pure { s with nSigOpsCost }

def checkMode : CheckMode where
  fScriptChecks := C.fScriptChecks
  flags := getBlockScriptFlags E C.pindex.nHeight
  cacheFullScriptStore := C.fJustCheck
  pvChecks := E.nScriptCheckThreads ≠ 0

def cacheWith (inserted : List Uint256) : ScriptCache := fun k => G.scriptCache k || k ∈ inserted

/-- Check the inputs and update the coins; only a transaction that is not a coinbase leaves undo
data, and a coinbase creates what it pays. -/
def spendTx (s : BlockState) (tx : CTransaction) : Verdict BlockState :=
  if tx.isCoinBase then do
    let u ← updateCoins (E.txHash tx) s.view.coins tx C.pindex.nHeight
    let value ← getValueOut tx
    pure { s with
      view := { s.view with coins := u.1 }
      nMoneyCreated := int64 (s.nMoneyCreated + value) }
  else do
    let r ← checkInputs E G.db G.mempool s.view.coins (cacheWith G s.inserted) tx (checkMode E C)
    let u ← updateCoins (E.txHash tx) s.view.coins tx C.pindex.nHeight
    pure { s with
      view := { s.view with coins := u.1 }
      vtxundo := s.vtxundo ++ [u.2]
      vChecks := s.vChecks ++ r.vChecks
      inserted := s.inserted ++ r.inserted.toList }

def applyTx (s : BlockState) (x : CTransaction × Nat) : Verdict BlockState := do
  let t ← tallyTx C s x.1
  let c ← countSigOps E C t x
  spendTx E G C c x.1

def startIndex (view : CCoinsViewCache) : CCoinsViewCache :=
  if view.nLastRCTOutput = 0 then
    { view with nLastRCTOutput := (C.branch.head?.map (·.nAnonOutputs)).getD 0 }
  else view

def pushKeyImages (txhash : Uint256) (view : CCoinsViewCache) (txin : CTxIn) :
    Except Failure CCoinsViewCache :=
  if txin.isAnonInput then
    match anonKeyImages txin with
    | none => .error (.at view (.error "Bad scriptData stack"))
    | some kis => .ok { view with keyImages := view.keyImages ++ kis.map fun ki => (ki, txhash) }
  else .ok view

/-- A RingCT output whose key is in the database: above the last index of the chain the database is
taken to be damaged and repaired. -/
def duplicateOutput (view : CCoinsViewCache) (nTestExists : Int) : Failure :=
  match C.branch.head? with
  | none => .at view (.throws "ConnectBlock: pindex->pprev")
  | some pprev =>
    if pprev.nAnonOutputs < nTestExists then
      ⟨.error "Duplicate anon-output, above last index", view,
        some (pprev.nAnonOutputs, nTestExists)⟩
    else .at view (.error "Duplicate anon-output (db)")

def setLink (links : List (CCmpPubKey × Int)) (pk : CCmpPubKey) (n : Int) :
    List (CCmpPubKey × Int) :=
  links.filter (fun link => link.1 ≠ pk) ++ [(pk, n)]

def indexOutput (txhash : Uint256) (p : CTxOutRingCT) (k : Nat) (view : CCoinsViewCache) :
    CCoinsViewCache :=
  { view with
    nLastRCTOutput := view.nLastRCTOutput + 1
    anonOutputLinks := setLink view.anonOutputLinks (comparedKey p.pk) (view.nLastRCTOutput + 1)
    anonOutputs := view.anonOutputs ++ [(view.nLastRCTOutput + 1,
      ⟨p.pk, p.commitment, ⟨txhash, UInt32.ofNat k⟩, C.pindex.nHeight, 0⟩)] }

def pushOutput (txhash : Uint256) (view : CCoinsViewCache) (x : CTxOutBase × Nat) :
    Except Failure CCoinsViewCache :=
  match x.1.ringCT? with
  | none => .ok view
  | some p =>
    if E.fVerifyingDB then .ok (indexOutput C txhash p x.2 view)
    else
      match G.db.rctOutputLink (storedKey p.pk) with
      | some nTestExists => .error (duplicateOutput C view nTestExists)
      | none =>
        if comparedKey p.pk ∈ view.anonOutputLinks.map Prod.fst then
          .error (.at view (.error "Duplicate anon-output (view)"))
        else .ok (indexOutput C txhash p x.2 view)

def indexRingCT (s : BlockState) (tx : CTransaction) : Except Failure BlockState :=
  if s.fHasAnon then do
    let view ← loop (pushKeyImages (E.txHash tx)) (startIndex C s.view) tx.vin
    let view ← loop (pushOutput E G C (E.txHash tx)) view tx.vpout.zipIdx
    pure { s with view }
  else .ok { s with view := startIndex C s.view }

def connectTx (s : BlockState) (x : CTransaction × Nat) : Except Failure BlockState := do
  let t ← relabel (Failure.at s.view) (applyTx E G C s x)
  indexRingCT E G C t x.1

def relabelCorrupt : Reject → Reject
  | .dos _ _ _ true =>
    .error "Corrupt block found indicating potential hardware failure; shutting down"
  | e => e

def checkStake (b : CBlock) : Verdict Unit :=
  match b.vtx.head? with
  | some tx =>
    if tx.isCoinStake then checkProofOfStake E G C.branch tx b.header.nTime b.header.nBits
      else .ok ()
  | none => .ok ()

def bestBlock : List CBlockIndex → Uint256
  | [] => 0
  | p :: _ => p.hashBlock

def getNumVOuts (tx : CTransaction) : Nat :=
  if tx.isBitcoinCVersion then tx.vpout.length else tx.vout.length

def checkBIP30 (coins : CoinMap) (b : CBlock) : Verdict Unit :=
  rejectIf (∃ tx ∈ b.vtx, ∃ o ∈ List.range (getNumVOuts tx),
      (coins ⟨E.txHash tx, UInt32.ofNat o⟩).isSome)
    (.dos 100 REJECT_INVALID "bad-txns-BIP30")

def checkBefore (view : CCoinsViewCache) (b : CBlock) : Verdict Unit := do
  rejectIf (C.pindex.hashBlock ≠ E.blockHash b) (.throws "ConnectBlock: phashBlock")
  relabel relabelCorrupt (checkBlock E (!C.fJustCheck) b)
  checkStake E G C b
  rejectIf (bestBlock C.branch ≠ view.hashBlock) (.throws "ConnectBlock: GetBestBlock")
  checkBIP30 E view.coins b

def devReward (settings : DevFundSettings) : Int :=
  ((C.branch.takeWhile fun p => C.pindex.nHeight - settings.nDevOutputPeriod ≤ p.nHeight).map
    fun p => (getProofOfStakeReward E p 0 * settings.nMinDevStakePercent).tdiv 100).sum

def checkPrevCoinStake (pprev : CBlockIndex) : Verdict Unit :=
  if 0 < pprev.nHeight then do
    let prev ← orReject (G.coinStakeOf pprev.hashBlock) (.dos 100 REJECT_INVALID "bad-cs-amount")
    rejectIf (¬ prev.isCoinStake) (.throws "ConnectBlock: txPrevCoinstake")
  else .ok ()

def checkDevFundOutput (settings : DevFundSettings) (coinstake : CTransaction) (nDevReward : Int) :
    Verdict Unit := do
  let script ← orReject settings.scriptPubKey (.error "Failed to get foundation fund destination")
  let out ← orReject ((coinstake.vpout[1]?).bind (·.standard?)) (.dos 100 REJECT_INVALID "bad-cs")
  rejectIf (out.scriptPubKey ≠ script) (.dos 100 REJECT_INVALID "bad-cs")
  rejectIf (out.nValue ≠ nDevReward) (.dos 100 REJECT_INVALID "bad-cs-fund-amount")

def checkDevFund (settings : DevFundSettings) (pprev : CBlockIndex) (coinstake : CTransaction)
    (nStakeReward nCalculated : Int) : Verdict Unit := do
  rejectIf (100 < settings.nMinDevStakePercent) (.throws "ConnectBlock: nMinDevStakePercent")
  let nCalculatedStakeReward := (nCalculated * (100 - settings.nMinDevStakePercent)).tdiv 100
  checkPrevCoinStake G pprev
  rejectIf (settings.nDevOutputPeriod = 0) (.throws "ConnectBlock: nDevOutputPeriod")
  if (C.pindex.nHeight : Int).tmod settings.nDevOutputPeriod = 0 then do
    rejectIf (nStakeReward ≠ devReward E C settings + nCalculatedStakeReward)
      (.dos 100 REJECT_INVALID "bad-cs-amount")
    checkDevFundOutput settings coinstake (devReward E C settings)
  else
    rejectIf (nStakeReward < 0 ∨ nStakeReward ≠ nCalculatedStakeReward)
      (.dos 100 REJECT_INVALID "bad-cs-amount")

def checkReward (b : CBlock) (nStakeReward nFees : Int) : Verdict Unit :=
  if isProofOfStake b then do
    let coinstake ← orReject b.vtx.head? (.throws "ConnectBlock: vtx[0]")
    let pprev ← orReject C.branch.head? (.throws "ConnectBlock: pindex->pprev")
    match (E.getDevFundSettings b.header.nTime.toNat).filter fun s => 0 < s.nMinDevStakePercent with
    | none =>
      rejectIf (nStakeReward < 0 ∨ nStakeReward ≠ getProofOfStakeReward E pprev nFees)
        (.dos 100 REJECT_INVALID "bad-cs-amount")
    | some settings =>
      checkDevFund E G C settings pprev coinstake nStakeReward (getProofOfStakeReward E pprev nFees)
  else
    rejectIf (E.blockHash b ≠ E.hashGenesisBlock) (.dos 100 REJECT_INVALID "bad-cs")

def checkAfter (b : CBlock) (s : BlockState) : Verdict Unit := do
  rejectIf (queueSucceeds E s.vChecks = false) (.dos 100 REJECT_INVALID "block-validation-failed")
  checkReward E G C b s.nStakeReward s.nFees

def stakedIndex (b : CBlock) : CBlockIndex :=
  if isProofOfStake b then
    { C.pindex with bnStakeModifier :=
      computeStakeModifierV2 E C.branch C.pindex.prevoutStake.hash }
  else C.pindex

/-- What is written once all checks have passed; nothing when the block is only checked. -/
def finish (b : CBlock) (s : BlockState) : Connected :=
  if C.fJustCheck then ⟨s.view, stakedIndex E C b, none, s.inserted⟩
  else
    { view := { s.view with hashBlock := C.pindex.hashBlock }
      pindex := { stakedIndex E C b with
        nMoneySupply := int64 ((C.branch.head?.map (·.nMoneySupply)).getD 0 + s.nMoneyCreated)
        nAnonOutputs := s.view.nLastRCTOutput }
      undo := if E.blockHash b = E.hashGenesisBlock then none else some ⟨s.vtxundo⟩
      inserted := s.inserted }

def connectBlock (view : CCoinsViewCache) (b : CBlock) : Except Failure Connected := do
  relabel (Failure.at view) (checkBefore E G C view b)
  let s ← loop (connectTx E G C) { view } b.vtx.zipIdx
  relabel (Failure.at s.view) (checkAfter E G C b s)
  pure (finish E C b s)

lemma checkBefore_ok (r : Unit) (h : checkBefore E G C view b = .ok r) :
    C.pindex.hashBlock = E.blockHash b ∧ checkBlock E (!C.fJustCheck) b = .ok () ∧
      checkStake E G C b = .ok () ∧ bestBlock C.branch = view.hashBlock ∧
      ∀ tx ∈ b.vtx, ∀ o < getNumVOuts tx, view.coins ⟨E.txHash tx, UInt32.ofNat o⟩ = none := by
  simp only [checkBefore, checkBIP30, bind_ok_iff, rejectIf_ok_iff, relabel_ok_iff] at h
  obtain ⟨-, hhash, u, hblock, v, hstake, -, hbest, hfresh⟩ := h
  refine ⟨not_not.mp hhash, hblock, hstake, not_not.mp hbest, ?_⟩
  intro tx htx o ho
  by_contra hsome
  exact hfresh ⟨tx, htx, o, List.mem_range.mpr ho, Option.isSome_iff_ne_none.mpr hsome⟩

lemma connectBlock_ok_iff : connectBlock E G C view b = .ok c ↔
      checkBefore E G C view b = .ok () ∧ ∃ s, loop (connectTx E G C) { view } b.vtx.zipIdx =
        .ok s ∧ checkAfter E G C b s = .ok () ∧ c = finish E C b s := by
  simp only [connectBlock, bind_ok_iff, relabel_ok_iff, pure_ok_iff]
  constructor
  · rintro ⟨u, hbefore, s, hloop, v, hafter, rfl⟩
    exact ⟨hbefore, s, hloop, hafter, rfl⟩
  · rintro ⟨hbefore, s, hloop, hafter, rfl⟩
    exact ⟨(), hbefore, s, hloop, (), hafter, rfl⟩

lemma connectTx_ok_iff : connectTx E G C s x = .ok t ↔
      ∃ m, applyTx E G C s x = .ok m ∧ indexRingCT E G C m x.1 = .ok t := by
  simp only [connectTx, bind_ok_iff, relabel_ok_iff]

lemma connectBlock_newCoins (h : connectBlock E G C view b = .ok c) (tx : CTransaction)
    (htx : tx ∈ b.vtx) (x : COutPoint × Coin)
    (hx : x ∈ newCoins (E.txHash tx) tx C.pindex.nHeight) : view.coins x.1 = none := by
  obtain ⟨hbefore, -⟩ := (connectBlock_ok_iff E G C view b c).mp h
  obtain ⟨-, hblock, -, -, hfresh⟩ := checkBefore_ok E G C view b () hbefore
  obtain ⟨-, htxs⟩ := checkBlock_ok E _ b () hblock
  obtain ⟨-, -, hversion, -, -⟩ := checkTransaction_ok E _ _ _ _ (htxs tx htx)
  obtain ⟨i, hi, hout⟩ := newCoins_outpoint _ tx _ hversion x hx
  rw [hout]
  refine hfresh tx htx i ?_
  rwa [getNumVOuts, if_pos hversion]

lemma countSigOps_ok (h : countSigOps E C s x = .ok t) : ∃ n, t = { s with nSigOpsCost := n } := by
  simp only [countSigOps, bind_ok_iff, rejectIf_ok_iff, pure_ok_iff] at h
  obtain ⟨-, -, rfl⟩ := h
  exact ⟨_, rfl⟩

lemma applyTx_coinBase_ok (hcb : x.1.isCoinBase) (h : applyTx E G C s x = .ok t) :
    ∃ n u v, updateCoins (E.txHash x.1) s.view.coins x.1 C.pindex.nHeight = .ok u ∧
      getValueOut x.1 = .ok v ∧
      t = { s with
        view := { s.view with coins := u.1 }
        nMoneyCreated := int64 (s.nMoneyCreated + v)
        nSigOpsCost := n } := by
  simp only [applyTx, tallyTx, if_pos hcb, bind_ok_iff, Except.ok.injEq, exists_eq_left'] at h
  obtain ⟨c, hc, hspend⟩ := h
  obtain ⟨n, rfl⟩ := countSigOps_ok E C _ _ _ hc
  simp only [spendTx, if_pos hcb, bind_ok_iff, pure_ok_iff] at hspend
  obtain ⟨u, hu, v, hv, rfl⟩ := hspend
  exact ⟨n, u, v, hu, hv, rfl⟩

/-- Any other accepted transaction passes `CheckTxInputs` and `CheckInputs`, counts its fee and
leaves undo data. -/
lemma applyTx_ok (hcb : ¬ x.1.isCoinBase) (h : applyTx E G C s x = .ok t) :
    ∃ n r q u, checkTxInputs s.view.coins x.1 C.pindex.nHeight = .ok r ∧
      moneyRange (addFee s x.1 r).nFees ∧
      checkInputs E G.db G.mempool s.view.coins (cacheWith G s.inserted) x.1 (checkMode E C) =
        .ok q ∧
      updateCoins (E.txHash x.1) s.view.coins x.1 C.pindex.nHeight = .ok u ∧
      t = { addFee s x.1 r with
        view := { s.view with coins := u.1 }
        nSigOpsCost := n
        vtxundo := s.vtxundo ++ [u.2]
        vChecks := s.vChecks ++ q.vChecks
        inserted := s.inserted ++ q.inserted.toList } := by
  simp only [applyTx, tallyTx, if_neg hcb, bind_ok_iff, rejectIf_ok_iff, pure_ok_iff] at h
  obtain ⟨m, ⟨r, hr, -, hfees, final, -, -, -, rfl⟩, c, hc, hspend⟩ := h
  obtain ⟨n, rfl⟩ := countSigOps_ok E C _ _ _ hc
  have hsame : (addFee s x.1 r).view = s.view ∧ (addFee s x.1 r).inserted = s.inserted ∧
      (addFee s x.1 r).vtxundo = s.vtxundo ∧ (addFee s x.1 r).vChecks = s.vChecks := by
    unfold addFee
    split <;> exact ⟨rfl, rfl, rfl, rfl⟩
  obtain ⟨hview, hins, hundo, hchecks⟩ := hsame
  simp only [spendTx, if_neg hcb, bind_ok_iff, pure_ok_iff, hview, hins, hundo, hchecks] at hspend
  obtain ⟨q, hq, u, hu, rfl⟩ := hspend
  exact ⟨n, r, q, u, hr, not_not.mp hfees, hq, hu, rfl⟩

/-- The coins follow `UpdateCoins`, the rest stays, and only a coinbase leaves no undo data. -/
lemma applyTx_coins (h : applyTx E G C s x = .ok t) :
    ∃ undo, updateCoins (E.txHash x.1) s.view.coins x.1 C.pindex.nHeight =
        .ok (t.view.coins, undo) ∧
      t.view = { s.view with coins := t.view.coins } ∧
      t.vtxundo = s.vtxundo ++ if x.1.isCoinBase then [] else [undo] := by
  by_cases hcb : x.1.isCoinBase
  · obtain ⟨n, u, v, hu, -, rfl⟩ := applyTx_coinBase_ok E G C s t x hcb h
    refine ⟨u.2, hu, rfl, ?_⟩
    rw [if_pos hcb, List.append_nil]
  · obtain ⟨n, r, q, u, -, -, -, hu, rfl⟩ := applyTx_ok E G C s t x hcb h
    refine ⟨u.2, hu, rfl, ?_⟩
    rw [if_neg hcb]

lemma applyTx_inserted (hjust : C.fJustCheck = false) (s t : BlockState) (x : CTransaction × Nat)
    (h : applyTx E G C s x = .ok t) : t.inserted = s.inserted := by
  by_cases hcb : x.1.isCoinBase
  · obtain ⟨n, u, v, -, -, rfl⟩ := applyTx_coinBase_ok E G C s t x hcb h
    rfl
  · obtain ⟨n, r, q, u, -, -, hq, -, rfl⟩ := applyTx_ok E G C s t x hcb h
    have hnone := checkInputs_inserted E _ _ _ _ _ (checkMode E C) q hjust hq
    show s.inserted ++ q.inserted.toList = s.inserted
    rw [hnone, Option.toList_none, List.append_nil]

/-- `CheckTxInputs` sets the flag that switches indexing on; a coinbase goes by the one before. -/
lemma applyTx_idle (h : applyTx E G C s x = .ok t) (hoff : t.fHasAnon = false) :
    x.1.anonInputs = [] ∧ (¬ x.1.isCoinBase → x.1.ringCTOutputs = []) := by
  by_cases hcb : x.1.isCoinBase
  · exact ⟨x.1.anonInputs_of_isCoinBase hcb, fun hno => absurd hcb hno⟩
  · obtain ⟨n, r, q, u, hr, -, -, -, rfl⟩ := applyTx_ok E G C s t x hcb h
    obtain ⟨-, -, -, -, -, -, -, hin, hout⟩ := (checkTxInputs_ok_iff _ _ _ _).mp hr
    have hflag : (addFee s x.1 r).fHasAnon = (r.fHasAnonOutput || r.fHasAnonInput) := by
      unfold addFee
      split <;> rfl
    rw [show (addFee s x.1 r).fHasAnon = false from hoff, eq_comm, Bool.or_eq_false_iff] at hflag
    rw [hflag.2, eq_comm, List.any_eq_false] at hin
    rw [hflag.1, eq_comm, decide_eq_false_iff_not, not_not] at hout
    refine ⟨?_, fun _ => hout⟩
    rw [CTransaction.anonInputs, List.filter_eq_nil_iff]
    exact hin

end

/-- A RingCT record as the database gives it back. -/
def stored (ao : CAnonOutput) : CAnonOutput := { ao with pubkey := storedKey ao.pubkey }

/-- The links in the order of the map's keys, which decides between keys without size. -/
def inKeyOrder (links : List (CCmpPubKey × Int)) : List (CCmpPubKey × Int) :=
  links.insertionSort fun x y => keyHeader x.1 ≤ keyHeader y.1

/-- The RingCT records that a flush leaves in the database after a connection. -/
def flushConnected (db : CBlockTreeDB) (view : CCoinsViewCache) : CBlockTreeDB where
  rctOutput := putAll db.rctOutput (view.anonOutputs.map fun x => (x.1, stored x.2))
  rctOutputLink := putAll db.rctOutputLink
    ((inKeyOrder view.anonOutputLinks).map fun x => (storedKey x.1, x.2))
  rctKeyImage := putAll db.rctKeyImage view.keyImages

end ConnectBlock
