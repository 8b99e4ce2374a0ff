import BitcoinC.ToyEnvironment

/-!
# Proof of stake seen from different active chains

`CheckProofOfStake` reads the coins and the chain of the active tip, not of the
block it checks.
-/

namespace StakeForks

open Primitives Encoding Scripts Environment Verdicts CheckInputs TxVerify Kernel List

/-- The chain of a block, from the block down: heights fall and no hash occurs twice. -/
structure Ordered (branch : List CBlockIndex) : Prop where
  heights : branch.Pairwise fun p q => q.nHeight < p.nHeight
  hashes : ∀ p ∈ branch, ∀ q ∈ branch, p.hashBlock = q.hashBlock → p = q

lemma mem_takeWhile_iff (top : Nat) (n : Int) (branch : List CBlockIndex)
    (h : branch.Pairwise fun p q => q.nHeight < p.nHeight) (p : CBlockIndex) :
    (p ∈ branch.takeWhile fun q => (top : Int) - q.nHeight < n) ↔
      p ∈ branch ∧ (top : Int) - p.nHeight < n := by
  induction branch with
  | nil => simp
  | cons q branch ih =>
    rw [pairwise_cons] at h
    by_cases hq : (top : Int) - q.nHeight < n
    · rw [takeWhile_cons_of_pos (by simpa using hq), mem_cons, mem_cons, ih h.2]
      constructor
      · rintro (rfl | ⟨hmem, hp⟩)
        · exact ⟨.inl rfl, hq⟩
        · exact ⟨.inr hmem, hp⟩
      · rintro ⟨rfl | hmem, hp⟩
        · exact .inl rfl
        · exact .inr ⟨hmem, hp⟩
    · rw [takeWhile_cons_of_neg (by simpa using hq), mem_cons]
      constructor
      · intro hmem
        cases hmem
      · rintro ⟨rfl | hmem, hp⟩
        · exact absurd hp hq
        · have hlt := h.1 p hmem
          omega

lemma isConfirmed_iff (tip pindex : CBlockIndex) (branch : List CBlockIndex) (h : Ordered branch)
    (hmem : pindex ∈ branch) (n : Int) :
    isConfirmedInNPrevBlocks pindex.hashBlock tip branch n = true ↔
      (tip.nHeight : Int) - pindex.nHeight < n := by
  simp only [isConfirmedInNPrevBlocks, any_eq_true, decide_eq_true_eq,
    mem_takeWhile_iff _ _ _ h.heights]
  constructor
  · rintro ⟨q, ⟨hq, hlt⟩, hhash⟩
    rwa [← h.hashes q hq pindex hmem hhash]
  · intro hlt
    exact ⟨pindex, ⟨hmem, hlt⟩, rfl⟩

section

variable (E : Env)
variable (G G₁ G₂ : NodeState) (tip : CBlockIndex) (branch : List CBlockIndex) (o : COutPoint)
  (p : CTxOutStandard) (pindex : CBlockIndex)

/-- The output `o`, with contents `p`, was made in the block `pindex`. Its coin is one of the tip,
and then the block is in the active chain, or it is read back from disk. -/
structure Knows (G : NodeState) (o : COutPoint) (p : CTxOutStandard) (pindex : CBlockIndex) :
    Prop where
  coin : ∀ c, G.coinsTip o = some c → c.out = ⟨p.nValue, p.scriptPubKey⟩ ∧
    c.nHeight = pindex.nHeight ∧ c.nType = .standard ∧
    G.chainActive.find? (fun q => q.nHeight = pindex.nHeight) = some pindex
  disk : G.coinsTip o = none → G.mempool.mapTx o.hash = none ∧
    ∃ tx header, G.txOnDisk o.hash = some (tx, header) ∧ outputOf tx o.n = some (.standard p) ∧
      E.hash256 (serializeHeader header) = pindex.hashBlock ∧ header.nTime = pindex.nTime

/-- The active chain has the block. -/
def InActive (G : NodeState) (pindex : CBlockIndex) : Prop :=
  ∃ q ∈ G.chainActive, q.hashBlock = pindex.hashBlock

/-- The active chain has the block of the kernel, and the kernel is deep enough below `tip`. An
unspent kernel may be one block younger. -/
def Reaches (G : NodeState) (tip : CBlockIndex) (o : COutPoint) (pindex : CBlockIndex) : Prop :=
  if G.coinsTip o = none then
    InActive G pindex ∧ requiredDepth E tip ≤ (tip.nHeight : Int) - pindex.nHeight
  else requiredDepth E tip ≤ (tip.nHeight : Int) - pindex.nHeight + 1

def kernelFound (p : CTxOutStandard) (pindex : CBlockIndex) : StakeKernel :=
  ⟨p.scriptPubKey, p.nValue, pindex.nTime⟩

/-- The coinstake passes the checks that do not ask for the active chain. -/
structure Deserves (tip : CBlockIndex) (tx : CTransaction) (nTime nBits : UInt32)
    (made : COutPoint → CTxOutStandard × CBlockIndex) (o : COutPoint) : Prop where
  coinstake : tx.isCoinStake
  script : E.verifyScript ⟨(made o).1.scriptPubKey, amountBytes (made o).1.nValue, tx, 0,
    STANDARD_SCRIPT_VERIFY_FLAGS⟩ = none
  hash : checkStakeKernelHash E tip nBits (kernelFound (made o).1 (made o).2) o nTime = true
  cold : hasIsCoinstakeOp (made o).1.scriptPubKey →
    (∀ txin ∈ tx.vin.tail, (made txin.prevout).1.scriptPubKey = (made o).1.scriptPubKey) ∧
    tx.ringCTOutputs = [] ∧ ¬ addAmounts 0 (valuesTo (made o).1.scriptPubKey tx) <
      addAmounts (made o).1.nValue (tx.vin.tail.map fun txin => (made txin.prevout).1.nValue)

lemma kernelOf_ok_iff (hbranch : Ordered branch) (hmem : pindex ∈ branch)
    (h : Knows E G o p pindex) (k : StakeKernel) :
    kernelOf E G tip branch o = .ok k ↔ Reaches E G tip o pindex ∧ kernelFound p pindex = k := by
  unfold Reaches
  cases hcoin : G.coinsTip o with
  | none =>
    obtain ⟨-, tx, header, hdisk, hout, hhash, htime⟩ := h.disk hcoin
    simp only [kernelOf, hcoin, kernelOnDisk, hdisk, orReject, ok_bind, hout, CTxOutBase.standard?,
      hhash, htime, bind_ok_iff, rejectIf_ok_iff, exists_const, pure_ok_iff,
      isConfirmed_iff tip pindex branch hbranch hmem, if_true, InActive, not_forall, not_not,
      exists_prop, not_lt, and_assoc, kernelFound]
  | some c =>
    obtain ⟨hout, hheight, htype, hactive⟩ := h.coin c hcoin
    simp only [kernelOf, hcoin, kernelOfCoin, htype, hheight, hactive, hout, orReject, ok_bind,
      bind_ok_iff, rejectIf_ok_iff, exists_const, pure_ok_iff, ne_eq, not_true_eq_false,
      not_false_eq_true, true_and, gt_iff_lt, not_lt, reduceCtorEq, if_false, kernelFound]

lemma extraInput_eq (h : Knows E G o p pindex) :
    extraInput G o = .ok ⟨p.nValue, p.scriptPubKey⟩ := by
  cases hcoin : G.coinsTip o with
  | none =>
    obtain ⟨hpool, tx, header, hdisk, hout, -⟩ := h.disk hcoin
    simp only [extraInput, hcoin, NodeState.getTransaction, hpool, hdisk, Option.map_some, orReject,
      ok_bind, hout, CTxOutBase.standard?]
    rfl
  | some c =>
    obtain ⟨hout, -, htype, -⟩ := h.coin c hcoin
    simp only [extraInput, hcoin, htype, ne_eq, not_true_eq_false, rejectIf, if_false,
      ok_bind, hout]
    rfl

lemma addExtraInputs_ok_iff (made : COutPoint → CTxOutStandard × CBlockIndex) (script : Bytes)
    (vin : List CTxIn) (amount total : Int)
    (h : ∀ txin ∈ vin, Knows E G txin.prevout (made txin.prevout).1 (made txin.prevout).2) :
    loop (addExtraInput G script) amount vin = .ok total ↔
      (∀ txin ∈ vin, (made txin.prevout).1.scriptPubKey = script) ∧
        total = addAmounts amount (vin.map fun txin => (made txin.prevout).1.nValue) := by
  induction vin generalizing amount with
  | nil => simp [addAmounts, eq_comm]
  | cons txin vin ih =>
    rw [forall_mem_cons] at h
    simp only [loop_cons_ok_iff, addExtraInput, extraInput_eq E G _ _ _ h.1, ok_bind, bind_ok_iff,
      rejectIf_ok_iff, exists_const, pure_ok_iff, ih _ h.2, not_not, forall_mem_cons, map_cons]
    constructor
    · rintro ⟨_, ⟨hscript, rfl⟩, hall, htotal⟩
      exact ⟨⟨hscript.symm, hall⟩, htotal⟩
    · rintro ⟨⟨hscript, hall⟩, htotal⟩
      exact ⟨_, ⟨hscript.symm, rfl⟩, hall, htotal⟩

/-- A node that can read the inputs accepts a coinstake that passes the other checks if its active
chain reaches the kernel. -/
lemma checkProofOfStake_iff_reaches (below : List CBlockIndex) (hbranch : Ordered (tip :: below))
    (tx : CTransaction) (nTime nBits : UInt32) (made : COutPoint → CTxOutStandard × CBlockIndex)
    (txin : CTxIn) (hhead : tx.vin.head? = some txin)
    (hown : (made txin.prevout).2 ∈ tip :: below)
    (h : ∀ txin ∈ tx.vin, Knows E G txin.prevout (made txin.prevout).1 (made txin.prevout).2) :
    checkProofOfStake E G (tip :: below) tx nTime nBits = .ok () ↔
      Deserves E tip tx nTime nBits made txin.prevout ∧
        Reaches E G tip txin.prevout (made txin.prevout).2 := by
  have hmem : txin ∈ tx.vin := mem_of_mem_head? (Option.mem_def.mpr hhead)
  have hkernel := kernelOf_ok_iff E G tip (tip :: below) txin.prevout _ _ hbranch hown (h txin hmem)
  have hcold : ∀ k, checkColdStake G tx k = .ok () ↔
      (∀ txin ∈ tx.vin.tail, (made txin.prevout).1.scriptPubKey = k.scriptPubKey) ∧
      tx.ringCTOutputs = [] ∧ ¬ addAmounts 0 (valuesTo k.scriptPubKey tx) <
        addAmounts k.amount (tx.vin.tail.map fun txin => (made txin.prevout).1.nValue) := by
    intro k
    simp only [checkColdStake, bind_ok_iff, rejectIf_ok_iff, exists_const, ne_eq, not_not,
      addExtraInputs_ok_iff E G made _ _ _ _ fun txin hin => h txin (mem_of_mem_tail hin)]
    constructor
    · rintro ⟨_, ⟨hall, rfl⟩, hring, hpaid⟩
      exact ⟨hall, hring, hpaid⟩
    · rintro ⟨hall, hring, hpaid⟩
      exact ⟨_, ⟨hall, rfl⟩, hring, hpaid⟩
  rw [checkProofOfStake_ok_iff]
  constructor
  · rintro ⟨hcs, _, _, k, hin, htip, hk, hscript, hhash, hrule⟩
    obtain rfl := Option.some.inj (hhead.symm.trans hin)
    obtain rfl := Option.some.inj htip
    obtain ⟨hreach, rfl⟩ := (hkernel k).mp hk
    exact ⟨⟨hcs, hscript, hhash, fun hop => (hcold _).mp (hrule hop)⟩, hreach⟩
  · rintro ⟨hdeserves, hreach⟩
    exact ⟨hdeserves.coinstake, txin, tip, _, hhead, rfl, (hkernel _).mpr ⟨hreach, rfl⟩,
      hdeserves.script, hdeserves.hash, fun hop => (hcold _).mpr (hdeserves.cold hop)⟩

lemma reaches_congr (h₁ : InActive G₁ pindex) (h₂ : InActive G₂ pindex)
    (hdepth : (tip.nHeight : Int) - pindex.nHeight + 1 = requiredDepth E tip →
      (G₁.coinsTip o = none ↔ G₂.coinsTip o = none)) :
    Reaches E G₁ tip o pindex ↔ Reaches E G₂ tip o pindex := by
  unfold Reaches
  split_ifs with hspent hspent' hspent' <;> simp only [h₁, h₂, true_and] <;> grind

/-- Two nodes that can read the inputs of a coinstake, whose kernel was made in the chain of the
block that is checked, give the same verdict exactly when the active chains of both reach the
kernel or neither does, if the coinstake passes the other checks. Chains that both have the block
of the kernel do so, unless the kernel is at the depth where its age is just enough and is spent
in one of them. -/
theorem stake_verdict_eq (G₁ G₂ : NodeState) (tip : CBlockIndex) (below : List CBlockIndex)
    (hbranch : Ordered (tip :: below)) (tx : CTransaction) (nTime nBits : UInt32)
    (made : COutPoint → CTxOutStandard × CBlockIndex) (txin : CTxIn)
    (hhead : tx.vin.head? = some txin)
    (hown : tx.isCoinStake → (made txin.prevout).2 ∈ tip :: below)
    (h₁ : tx.isCoinStake →
      ∀ txin ∈ tx.vin, Knows E G₁ txin.prevout (made txin.prevout).1 (made txin.prevout).2)
    (h₂ : tx.isCoinStake →
      ∀ txin ∈ tx.vin, Knows E G₂ txin.prevout (made txin.prevout).1 (made txin.prevout).2) :
    ((checkProofOfStake E G₁ (tip :: below) tx nTime nBits = .ok () ↔
        checkProofOfStake E G₂ (tip :: below) tx nTime nBits = .ok ()) ↔
      (Deserves E tip tx nTime nBits made txin.prevout →
        (Reaches E G₁ tip txin.prevout (made txin.prevout).2 ↔
          Reaches E G₂ tip txin.prevout (made txin.prevout).2))) ∧
    (InActive G₁ (made txin.prevout).2 → InActive G₂ (made txin.prevout).2 →
      ((tip.nHeight : Int) - (made txin.prevout).2.nHeight + 1 = requiredDepth E tip →
        (G₁.coinsTip txin.prevout = none ↔ G₂.coinsTip txin.prevout = none)) →
      (Reaches E G₁ tip txin.prevout (made txin.prevout).2 ↔
        Reaches E G₂ tip txin.prevout (made txin.prevout).2)) := by
  refine ⟨?_, reaches_congr E G₁ G₂ tip txin.prevout _⟩
  by_cases hcs : tx.isCoinStake
  · rw [checkProofOfStake_iff_reaches E G₁ tip below hbranch tx nTime nBits made txin hhead
      (hown hcs)
        (h₁ hcs),
      checkProofOfStake_iff_reaches E G₂ tip below hbranch tx nTime nBits made txin hhead (hown hcs)
        (h₂ hcs)]
    exact and_congr_right_iff
  · have hmalformed : ∀ G, checkProofOfStake E G (tip :: below) tx nTime nBits ≠ .ok () :=
      fun G h => hcs ((checkProofOfStake_ok_iff ..).mp h).1
    exact iff_of_true (iff_of_false (hmalformed G₁) (hmalformed G₂)) fun h => absurd h.coinstake hcs

end

open ToyEnvironment ChainRun

def diskOf (E : Env) (blocks : List CBlock) (hash : Uint256) :
    Option (CTransaction × CBlockHeader) :=
  blocks.findSome? fun b => (b.vtx.find? fun tx => E.txHash tx = hash).map fun tx => (tx, b.header)

def storing (blocks : List CBlock) : Surroundings := { quiet with txOnDisk := diskOf env blocks }

def restake (kernel : Uint256) (n : UInt32) (nHeight : UInt8) : CTransaction :=
  stake kernel n nHeight [keyOutput 3 1000]

def leftTx : CTransaction := restake genesisHash 0 1
def leftStep : ConnectStep := stepOn genesisEntry [leftTx]
def rightStep : ConnectStep := stepOn genesisEntry [restake genesisHash 1 1]

def secondTx : CTransaction := restake (env.txHash leftTx) 1 2
def secondStep : ConnectStep := stepOn leftStep.pindex [secondTx]

def thirdTx : CTransaction := restake (env.txHash secondTx) 1 3
def thirdStep : ConnectStep := stepOn secondStep.pindex [thirdTx]

def forkBlocks : List CBlock := [genesisBlock, leftStep.block, rightStep.block]
def chainBlocks : List CBlock := [genesisBlock, leftStep.block, secondStep.block, thirdStep.block]

def deeperEnv : Env := { chainEnv with nStakeMinConfirmations := 2 }

/-- The verdict on a coinstake for a block on the tip of `own`, by a node on the tip of `active`. -/
def verdictFrom (E : Env) (blocks : List CBlock) (active own : ChainState) (tx : CTransaction)
    (nTime : UInt32) : Verdict Unit :=
  checkProofOfStake E (active.node (storing blocks)) own.branch tx nTime 0x1f00ffff

def genesisStake : CTransaction := restake genesisHash 2 2

def genesisOut : COutPoint := ⟨genesisHash, 2⟩

def genesisCoinOut : CTxOutStandard :=
  ⟨1000, p2pkh (hash160 (keyBytes 3)), keyBytes 3 ++ replicate 32 0⟩

def genesisConnected : CBlockIndex := { genesisEntry with nMoneySupply := 4000 }

def knowsGenesisCoin (S : ChainState) : Bool :=
  decide (S.branch.find? (fun q => q.nHeight = 0) = some genesisConnected ∧
    S.coins genesisOut =
      some ⟨⟨genesisCoinOut.nValue, genesisCoinOut.scriptPubKey⟩, true, 0, .standard⟩)

lemma knows_of_computed (S : ChainState) (h : knowsGenesisCoin S = true) :
    Knows chainEnv (S.node (storing forkBlocks)) genesisOut genesisCoinOut genesisConnected ∧
      InActive (S.node (storing forkBlocks)) genesisConnected ∧
      (S.node (storing forkBlocks)).coinsTip genesisOut ≠ none := by
  obtain ⟨hfind, hcoin⟩ := of_decide_eq_true h
  have hcoin' : (S.node (storing forkBlocks)).coinsTip genesisOut = _ := hcoin
  have hunspent : (S.node (storing forkBlocks)).coinsTip genesisOut ≠ none :=
    fun hnone => nomatch hcoin'.symm.trans hnone
  refine ⟨⟨?_, fun hnone => absurd hnone hunspent⟩, ⟨_, mem_of_find?_eq_some hfind, rfl⟩, hunspent⟩
  intro c hc
  cases hcoin'.symm.trans hc
  exact ⟨rfl, rfl, rfl, hfind⟩

/-- On both forks the stake of a coin of the genesis block is accepted. -/
theorem stake_verdict_eq_genesis : ∃ left right,
      loop (connectTip chainEnv) .empty [genesisStep, leftStep] = .ok left ∧
      loop (connectTip chainEnv) .empty [genesisStep, rightStep] = .ok right ∧
      left.branch ≠ right.branch ∧
      verdictFrom chainEnv forkBlocks left left genesisStake 300 = .ok () ∧
      verdictFrom chainEnv forkBlocks right left genesisStake 300 = .ok () := by
  obtain ⟨⟨left, right⟩, hrun, hfacts⟩ := exists_ok_of_toOption
    (do
      let left ← loop (connectTip chainEnv) .empty [genesisStep, leftStep]
      let right ← loop (connectTip chainEnv) .empty [genesisStep, rightStep]
      pure (left, right))
    (fun S => (knowsGenesisCoin S.1 && knowsGenesisCoin S.2 && decide (S.1.branch ≠ S.2.branch) &&
        decide (verdictFrom chainEnv forkBlocks S.1 S.1 genesisStake 300 = .ok ()),
      S.1.branch.map fun p => (p.hashBlock, p.nHeight)))
    (true, [(leftStep.pindex.hashBlock, 1), (genesisEntry.hashBlock, 0)]) (by decide +kernel)
  simp only [bind_ok_iff, pure_ok_iff, Prod.mk.injEq, Bool.and_eq_true, decide_eq_true_eq]
    at hrun hfacts
  obtain ⟨l, hl, r, hr, rfl, rfl⟩ := hrun
  obtain ⟨⟨⟨⟨hleft, hright⟩, hne⟩, haccepted⟩, hmap⟩ := hfacts
  have hfind := (of_decide_eq_true hleft).1
  obtain ⟨tip, below, hbranch, htip, hbelow⟩ := map_eq_cons_iff.mp hmap
  obtain ⟨bottom, none', hlist, hbottom, hnil⟩ := map_eq_cons_iff.mp hbelow
  rw [map_eq_nil_iff.mp hnil] at hlist
  rw [Prod.mk.injEq] at htip hbottom
  rw [hlist] at hbranch
  refine ⟨l, r, hl, hr, hne, haccepted, ?_⟩
  have hgenesis : bottom = genesisConnected := by
    rw [hbranch] at hfind
    simpa [htip.2, hbottom.2] using hfind
  have hhash : leftStep.pindex.hashBlock ≠ genesisEntry.hashBlock := by decide +kernel
  have hordered : Ordered [tip, bottom] := by
    constructor
    · simp [htip.2, hbottom.2]
    · simp [htip.1, hbottom.1, hhash, hhash.symm]
  have hmem : ∀ txin ∈ genesisStake.vin, txin.prevout = genesisOut := by
    simp [genesisStake, restake, stake, spendBy3, spend, genesisOut]
  obtain ⟨hknowsL, hactiveL, hunspentL⟩ := knows_of_computed l hleft
  obtain ⟨hknowsR, hactiveR, hunspentR⟩ := knows_of_computed r hright
  rw [verdictFrom, hbranch] at haccepted ⊢
  obtain ⟨hiff, hsame⟩ := stake_verdict_eq chainEnv _ _ tip [bottom] hordered genesisStake 300
    0x1f00ffff (fun _ => (genesisCoinOut, genesisConnected)) (spendBy3 genesisHash 2) rfl
    (by simp [hgenesis]) (fun _ txin hin => hmem txin hin ▸ hknowsL)
    (fun _ txin hin => hmem txin hin ▸ hknowsR)
  exact (hiff.mpr fun _ => hsame hactiveL hactiveR fun _ => iff_of_false hunspentL hunspentR).mp
    haccepted

/-- The stake on the left block is accepted while the left block is active and rejected while the
right one is. A stake whose kernel is just deep enough is rejected once it has been connected. -/
theorem stake_verdict_differs : (∃ left right,
      loop (connectTip chainEnv) .empty [genesisStep, leftStep] = .ok left ∧
      loop (connectTip chainEnv) .empty [genesisStep, rightStep] = .ok right ∧
      verdictFrom chainEnv forkBlocks left left secondTx 300 = .ok () ∧
      verdictFrom chainEnv forkBlocks right left secondTx 300 =
        .error (.dos 20 REJECT_INVALID "prevout-not-in-chain")) ∧
    ∃ before after,
      loop (connectTip deeperEnv) .empty [genesisStep, leftStep, secondStep] = .ok before ∧
      connectTip deeperEnv before thirdStep = .ok after ∧
      verdictFrom deeperEnv chainBlocks before before thirdTx thirdStep.block.header.nTime =
        .ok () ∧
      verdictFrom deeperEnv chainBlocks after before thirdTx thirdStep.block.header.nTime =
        .error (.dos 100 REJECT_INVALID "invalid-stake-depth") := by
  constructor
  · obtain ⟨⟨left, right⟩, hrun, hverdicts⟩ := exists_ok_of_toOption
      (do
        let left ← loop (connectTip chainEnv) .empty [genesisStep, leftStep]
        let right ← loop (connectTip chainEnv) .empty [genesisStep, rightStep]
        pure (left, right))
      (fun S => (verdictFrom chainEnv forkBlocks S.1 S.1 secondTx 300,
        verdictFrom chainEnv forkBlocks S.2 S.1 secondTx 300))
      (.ok (), .error (.dos 20 REJECT_INVALID "prevout-not-in-chain")) (by decide +kernel)
    simp only [bind_ok_iff, pure_ok_iff, Prod.mk.injEq] at hrun
    obtain ⟨l, hl, r, hr, rfl, rfl⟩ := hrun
    exact ⟨l, r, hl, hr, Prod.mk.inj hverdicts⟩
  · obtain ⟨⟨before, after⟩, hrun, hverdicts⟩ := exists_ok_of_toOption
      (do
        let before ← loop (connectTip deeperEnv) .empty [genesisStep, leftStep, secondStep]
        let after ← connectTip deeperEnv before thirdStep
        pure (before, after))
      (fun S => (verdictFrom deeperEnv chainBlocks S.1 S.1 thirdTx thirdStep.block.header.nTime,
        verdictFrom deeperEnv chainBlocks S.2 S.1 thirdTx thirdStep.block.header.nTime))
      (.ok (), .error (.dos 100 REJECT_INVALID "invalid-stake-depth")) (by decide +kernel)
    simp only [bind_ok_iff, pure_ok_iff, Prod.mk.injEq] at hrun
    obtain ⟨b, hb, a, ha, rfl, rfl⟩ := hrun
    exact ⟨b, a, hb, ha, Prod.mk.inj hverdicts⟩

end StakeForks
