import BitcoinC.StakeForks

/-!
# The age of a stake kernel

`CheckKernel`, by which a staker picks a coin, and the two branches of
`CheckProofOfStake` each have their own rule for how deep a kernel must lie.
-/

namespace KernelAge

open Primitives Encoding Environment Verdicts Kernel StakeForks

variable (E : Env) (G : NodeState)

def checkKernel (pindexPrev : CBlockIndex) (nBits nTime : UInt32) (prevout : COutPoint) : Bool :=
  match G.coinsTip prevout with
  | none => false
  | some coin =>
    if coin.nType ≠ .standard then false
    else
      match G.chainActive.find? fun q => q.nHeight = coin.nHeight with
      | none => false
      | some pindex =>
        let nDepth : Int := (pindexPrev.nHeight : Int) - coin.nHeight + 1
        if requiredDepth E pindexPrev > nDepth then false
        else
          checkStakeKernelHash E pindexPrev nBits
            ⟨coin.out.scriptPubKey, coin.out.nValue, pindex.nTime⟩ prevout nTime

def stakeVerdict (tip : CBlockIndex) (branch : List CBlockIndex) (nBits nTime : UInt32)
    (prevout : COutPoint) : Bool :=
  match kernelOf E G tip branch prevout with
  | .ok k => checkStakeKernelHash E tip nBits k prevout nTime
  | .error _ => false

section

variable {E G} {tip pindex : CBlockIndex} {branch : List CBlockIndex} {o : COutPoint}
  {p : CTxOutStandard}

/-- The verdict is one on the depth of the kernel and on its hash. -/
lemma stakeVerdict_iff (hbranch : Ordered branch) (hmem : pindex ∈ branch)
    (h : Knows E G o p pindex) (nBits nTime : UInt32) :
    stakeVerdict E G tip branch nBits nTime o = true ↔ Reaches E G tip o pindex ∧
      checkStakeKernelHash E tip nBits (kernelFound p pindex) o nTime = true := by
  have hkernel := kernelOf_ok_iff E G tip branch o p pindex hbranch hmem h
  unfold stakeVerdict
  cases hk : kernelOf E G tip branch o with
  | ok k =>
    obtain ⟨hreaches, rfl⟩ := (hkernel k).mp hk
    simp [hreaches]
  | error _ =>
    have hnot : ¬ Reaches E G tip o pindex := fun hreaches => by
      have := (hkernel (kernelFound p pindex)).mpr ⟨hreaches, rfl⟩
      simp [hk] at this
    simp [hnot]

/-- The staker's rule is the one for an unspent kernel. -/
lemma checkKernel_iff (h : Knows E G o p pindex) (hunspent : G.coinsTip o ≠ none)
    (nBits nTime : UInt32) :
    checkKernel E G tip nBits nTime o = true ↔ Reaches E G tip o pindex ∧
      checkStakeKernelHash E tip nBits (kernelFound p pindex) o nTime = true := by
  obtain ⟨c, hc⟩ := Option.ne_none_iff_exists'.mp hunspent
  obtain ⟨hout, hheight, htype, hactive⟩ := h.coin c hc
  simp only [checkKernel, Reaches, hc, htype, ne_eq, not_true_eq_false, if_false, hheight, hactive,
    gt_iff_lt, hout, reduceCtorEq, kernelFound]
  by_cases hdepth : (tip.nHeight : Int) - pindex.nHeight + 1 < requiredDepth E tip
  · simp [hdepth]
  · simp [hdepth, not_lt.mp hdepth]

end

/-- The staker and the unspent branch always agree. The spent branch agrees with them unless the
kernel's hash is good and its depth is exactly the required one. -/
theorem kernel_verdicts_agree_iff (G' : NodeState) (tip : CBlockIndex) (branch : List CBlockIndex)
    (hbranch : Ordered branch) (o : COutPoint) (p : CTxOutStandard) (pindex : CBlockIndex)
    (hmem : pindex ∈ branch) (h : Knows E G o p pindex) (hunspent : G.coinsTip o ≠ none)
    (h' : Knows E G' o p pindex) (hspent : G'.coinsTip o = none) (hactive : InActive G' pindex)
    (nBits nTime : UInt32) :
    checkKernel E G tip nBits nTime o = stakeVerdict E G tip branch nBits nTime o ∧
      (stakeVerdict E G' tip branch nBits nTime o = stakeVerdict E G tip branch nBits nTime o ↔
        ((tip.nHeight : Int) - pindex.nHeight + 1 ≠ requiredDepth E tip ∨
          checkStakeKernelHash E tip nBits (kernelFound p pindex) o nTime = false)) := by
  have hcurrent : stakeVerdict E G tip branch nBits nTime o = true ↔ _ :=
    stakeVerdict_iff hbranch hmem h nBits nTime
  refine ⟨Bool.eq_iff_iff.mpr ((checkKernel_iff h hunspent nBits nTime).trans hcurrent.symm), ?_⟩
  rw [Bool.eq_iff_iff, hcurrent, stakeVerdict_iff hbranch hmem h', Reaches, Reaches, if_pos hspent,
    if_neg hunspent]
  cases hhash : checkStakeKernelHash E tip nBits (kernelFound p pindex) o nTime with
  | false => simp
  | true =>
    simp only [hactive, true_and, and_true, Bool.true_eq_false, or_false]
    omega

open ToyEnvironment ChainRun

variable (S : ChainState) (blocks : List CBlock) (hash : Uint256)

def secondOut : COutPoint := ⟨env.txHash secondTx, 1⟩

def spending (E : Env) : Verdict (ChainState × ChainState) := do
  let before ← loop (connectTip E) .empty [genesisStep, leftStep, secondStep]
  let after ← connectTip E before thirdStep
  pure (before, after)

lemma storing_txOnDisk : (S.node (storing blocks)).txOnDisk hash = diskOf env blocks hash := rfl

lemma storing_mempool : (S.node (storing blocks)).mempool.mapTx hash = none := rfl

def nodeOf (S : ChainState) : NodeState := S.node (storing chainBlocks)

def knowsSecond (before after : ChainState) (tip : CBlockIndex) : Bool :=
  decide (before.branch.find? (fun q => q.nHeight = 2) = some tip ∧
    after.branch.find? (fun q => q.nHeight = 2) = some tip ∧ tip.nHeight = 2 ∧
    tip.hashBlock = env.hash256 (serializeHeader secondStep.block.header) ∧
    tip.nTime = secondStep.block.header.nTime ∧
    before.coins secondOut = some ⟨⟨genesisCoinOut.nValue, genesisCoinOut.scriptPubKey⟩, true, 2,
      .standard⟩ ∧ after.coins secondOut = none)

lemma knows_of_knowsSecond (E : Env) (hhash : E.hash256 = env.hash256) (before after : ChainState)
    (tip : CBlockIndex) (h : knowsSecond before after tip = true) :
    (Knows E (nodeOf before) secondOut genesisCoinOut tip ∧
        (nodeOf before).coinsTip secondOut ≠ none) ∧
      Knows E (nodeOf after) secondOut genesisCoinOut tip ∧
      (nodeOf after).coinsTip secondOut = none ∧ InActive (nodeOf after) tip := by
  obtain ⟨hbefore, hafter, hheight, htipHash, htime, hcoin, hspent⟩ := of_decide_eq_true h
  have hcoin' : (nodeOf before).coinsTip secondOut = _ := hcoin
  have hspent' : (nodeOf after).coinsTip secondOut = none := hspent
  have hdisk : diskOf env chainBlocks secondOut.hash = some (secondTx,
      secondStep.block.header) := by
    decide +kernel
  have hout : outputOf secondTx secondOut.n = some (.standard genesisCoinOut) := by decide +kernel
  refine ⟨⟨⟨?_, ?_⟩, by rw [hcoin']; simp⟩, ⟨?_, ?_⟩, hspent',
    ⟨tip, List.mem_of_find?_eq_some hafter, rfl⟩⟩
  · intro c hc
    cases hcoin'.symm.trans hc
    exact ⟨rfl, hheight.symm, rfl, by rw [hheight]; exact hbefore⟩
  · intro hnone
    cases hcoin'.symm.trans hnone
  · intro c hc
    cases hspent'.symm.trans hc
  · intro _
    refine ⟨storing_mempool after chainBlocks _, secondTx, secondStep.block.header, ?_, hout, ?_,
      htime.symm⟩
    · exact (storing_txOnDisk after chainBlocks secondOut.hash).trans hdisk
    · rw [hhash, htipHash]

/-- With one confirmation the kernel is deep enough for all three. -/
theorem kernel_verdicts_agree_second :
    ∃ before after tip below, spending chainEnv = .ok (before, after) ∧
      before.branch = tip :: below ∧
      checkKernel chainEnv (nodeOf before) tip 0x1f00ffff 400 secondOut =
        stakeVerdict chainEnv (nodeOf before) tip before.branch 0x1f00ffff 400 secondOut ∧
      stakeVerdict chainEnv (nodeOf after) tip before.branch 0x1f00ffff 400 secondOut =
        stakeVerdict chainEnv (nodeOf before) tip before.branch 0x1f00ffff 400 secondOut := by
  obtain ⟨⟨before, after⟩, hrun, hfacts⟩ := exists_ok_of_toOption (spending chainEnv)
    (fun S : ChainState × ChainState => S.1.branch.head?.any fun tip => knowsSecond S.1 S.2 tip &&
      decide (S.1.branch.map (fun q : CBlockIndex => q.nHeight) = [2, 1, 0] ∧
        (S.1.branch.map fun q : CBlockIndex => q.hashBlock).Nodup ∧
        (tip.nHeight : Int) - tip.nHeight + 1 ≠ requiredDepth chainEnv tip)) true
          (by decide +kernel)
  rw [Option.any_eq_true] at hfacts
  obtain ⟨tip, hhead, hfacts⟩ := hfacts
  rw [Bool.and_eq_true, decide_eq_true_eq] at hfacts
  obtain ⟨hknows, hheights, hhashes, hdepth⟩ := hfacts
  obtain ⟨⟨hbefore, hunspent⟩, hafter, hspent, hactive⟩ :=
    knows_of_knowsSecond chainEnv rfl before after tip hknows
  obtain ⟨below, hbranch⟩ := List.head?_eq_some_iff.mp hhead
  have hordered : Ordered before.branch := by
    constructor
    · have hpairs : (before.branch.map (·.nHeight)).Pairwise fun a b => b < a := by
        rw [hheights]
        decide
      exact List.pairwise_map.mp hpairs
    · exact List.inj_on_of_nodup_map hhashes
  have hmem : tip ∈ before.branch := List.mem_of_mem_head? (Option.mem_def.mpr hhead)
  obtain ⟨hstaker, hiff⟩ := kernel_verdicts_agree_iff chainEnv (nodeOf before) (nodeOf after) tip
    before.branch hordered secondOut genesisCoinOut tip hmem hbefore hunspent hafter hspent hactive
    0x1f00ffff 400
  exact ⟨before, after, tip, below, hrun, hbranch, hstaker, hiff.mpr (.inl hdepth)⟩

/-- With two confirmations it is accepted while it is unspent and rejected once it is spent. -/
theorem kernel_verdicts_differ :
    ∃ before after tip below, spending deeperEnv = .ok (before, after) ∧
      before.branch = tip :: below ∧
      checkKernel deeperEnv (nodeOf before) tip 0x1f00ffff 400 secondOut = true ∧
      stakeVerdict deeperEnv (nodeOf before) tip before.branch 0x1f00ffff 400 secondOut = true ∧
      stakeVerdict deeperEnv (nodeOf after) tip before.branch 0x1f00ffff 400 secondOut = false := by
  obtain ⟨⟨before, after⟩, hrun, hfacts⟩ := exists_ok_of_toOption (spending deeperEnv)
    (fun S : ChainState × ChainState => S.1.branch.head?.any fun tip =>
      checkKernel deeperEnv (nodeOf S.1) tip 0x1f00ffff 400 secondOut &&
      stakeVerdict deeperEnv (nodeOf S.1) tip S.1.branch 0x1f00ffff 400 secondOut &&
      !stakeVerdict deeperEnv (nodeOf S.2) tip S.1.branch 0x1f00ffff 400 secondOut) true
    (by decide +kernel)
  rw [Option.any_eq_true] at hfacts
  obtain ⟨tip, hhead, hfacts⟩ := hfacts
  obtain ⟨below, hbranch⟩ := List.head?_eq_some_iff.mp hhead
  simp only [Bool.and_eq_true, Bool.not_eq_true'] at hfacts
  exact ⟨before, after, tip, below, hrun, hbranch, hfacts.1.1, hfacts.1.2, hfacts.2⟩

end KernelAge
