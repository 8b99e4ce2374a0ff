import BitcoinC.CheckInputs

/-!
# Proof of stake

`CheckProofOfStake` of `pos/kernel.cpp` with the functions it calls.
-/

namespace Kernel

open Primitives Encoding Scripts Environment Verdicts TxVerify Anon CheckInputs

/-- The globals of the node: the active chain (tip first), the coins of its tip, the RingCT
database, the mempool, the script execution cache, and what can be read back from disk. -/
structure NodeState where
  chainActive : List CBlockIndex
  coinsTip : CoinMap
  db : CBlockTreeDB
  mempool : CTxMemPool
  scriptCache : ScriptCache
  txOnDisk : Uint256 → Option (CTransaction × CBlockHeader)
  coinStakeOf : Uint256 → Option CTransaction

def NodeState.getTransaction (G : NodeState) (hash : Uint256) : Option CTransaction :=
  match G.mempool.mapTx hash with
  | some tx => some tx
  | none => (G.txOnDisk hash).map (·.1)

def setCompact (nCompact : UInt32) : BitVec 256 × Bool × Bool :=
  let nSize := (nCompact >>> 24).toNat
  let mantissa := (nCompact &&& 0x007fffff).toNat
  let nWord := if nSize ≤ 3 then mantissa >>> (8 * (3 - nSize)) else mantissa
  let value := if nSize ≤ 3 then BitVec.ofNat 256 nWord
    else BitVec.ofNat 256 nWord <<< (8 * (nSize - 3))
  (value, nWord ≠ 0 && nCompact &&& 0x00800000 ≠ 0,
    nWord ≠ 0 && (34 < nSize || (0xff < nWord && 33 < nSize) || (0xffff < nWord && 32 < nSize)))

structure StakeKernel where
  scriptPubKey : Bytes
  amount : Int
  nBlockFromTime : UInt32

def addAmounts (s : Int) (vs : List Int) : Int := vs.foldl (fun a v => int64 (a + v)) s

lemma addAmounts_eq (s : Int) (vs : List Int) (hs : 0 ≤ s) (hvs : ∀ v ∈ vs, 0 ≤ v)
    (htotal : s + vs.sum < 2 ^ 63) : addAmounts s vs = s + vs.sum := by
  induction vs generalizing s with
  | nil => simp [addAmounts]
  | cons v vs ih =>
    rw [List.forall_mem_cons] at hvs
    rw [List.sum_cons] at htotal ⊢
    have hrest : 0 ≤ vs.sum := List.sum_nonneg hvs.2
    have hstep : int64 (s + v) = s + v := int64_eq_of_bounds _ (by omega) (by omega)
    have hih := ih (s + v) (by omega) hvs.2 (by omega)
    calc addAmounts s (v :: vs) = addAmounts (s + v) vs := by
          show addAmounts (int64 (s + v)) vs = _
          rw [hstep]
      _ = s + (v + vs.sum) := by rw [hih]; omega

section

variable (E : Env) (G : NodeState)
variable (coins : CoinMap)

def checkStakeKernelHash (pindexPrev : CBlockIndex) (nBits : UInt32) (k : StakeKernel)
    (prevout : COutPoint) (nTime : UInt32) : Bool :=
  let target := setCompact nBits
  let bnTarget := target.1 * BitVec.ofNat 256 (k.amount % 2 ^ 64).toNat
  let hashProofOfStake := E.hash256 (hashBytes pindexPrev.bnStakeModifier ++
    uint32Bytes k.nBlockFromTime ++ writeOutPoint prevout ++ uint32Bytes nTime)
  ¬ nTime < k.nBlockFromTime && !target.2.1 && !target.2.2 && target.1 ≠ 0 &&
    hashProofOfStake.toNat ≤ bnTarget.toNat

def requiredDepth (pindexPrev : CBlockIndex) : Int :=
  min ((E.nStakeMinConfirmations : Int) - 1) ((pindexPrev.nHeight / 2 : Nat) : Int)

def isConfirmedInNPrevBlocks (hashBlock : Uint256) (tip : CBlockIndex) (branch : List CBlockIndex)
    (nMaxDepth : Int) : Bool :=
  (branch.takeWhile fun p => (tip.nHeight : Int) - p.nHeight < nMaxDepth).any
    fun p => p.hashBlock = hashBlock

def outputOf (tx : CTransaction) (n : UInt32) : Option CTxOutBase := tx.vpout[n.toNat]?

def kernelOnDisk (tip : CBlockIndex) (branch : List CBlockIndex) (prevout : COutPoint) :
    Verdict StakeKernel := do
  let found ← orReject (G.txOnDisk prevout.hash) (.dos 20 REJECT_INVALID "prevout-not-in-chain")
  let out ← orReject (outputOf found.1 prevout.n) (.dos 20 REJECT_INVALID "prevout-not-in-chain")
  let p ← orReject out.standard? (.dos 100 REJECT_INVALID "invalid-prevout")
  let hashBlock := E.hash256 (serializeHeader found.2)
  rejectIf (∀ q ∈ G.chainActive, q.hashBlock ≠ hashBlock)
    (.dos 20 REJECT_INVALID "prevout-not-in-chain")
  rejectIf (isConfirmedInNPrevBlocks hashBlock tip branch (requiredDepth E tip) = true)
    (.dos 100 REJECT_INVALID "invalid-stake-depth")
  pure ⟨p.scriptPubKey, p.nValue, found.2.nTime⟩

def kernelOfCoin (tip : CBlockIndex) (coin : Coin) : Verdict StakeKernel := do
  rejectIf (coin.nType ≠ .standard) (.dos 100 REJECT_INVALID "invalid-prevout")
  let pindex ← orReject (G.chainActive.find? fun q => q.nHeight = coin.nHeight)
    (.dos 100 REJECT_INVALID "invalid-prevout")
  rejectIf (requiredDepth E tip > (tip.nHeight : Int) - coin.nHeight + 1)
    (.dos 100 REJECT_INVALID "invalid-stake-depth")
  pure ⟨coin.out.scriptPubKey, coin.out.nValue, pindex.nTime⟩

def kernelOf (tip : CBlockIndex) (branch : List CBlockIndex) (prevout : COutPoint) :
    Verdict StakeKernel :=
  match G.coinsTip prevout with
  | none => kernelOnDisk E G tip branch prevout
  | some coin => kernelOfCoin E G tip coin

/-- The script and value of a further input; a spent coin is looked up by its transaction. -/
def extraInput (prevout : COutPoint) : Verdict CTxOut :=
  match G.coinsTip prevout with
  | none => do
    let tx ← orReject (G.getTransaction prevout.hash) (.dos 1 REJECT_INVALID "prevout-not-in-chain")
    let out ← orReject (outputOf tx prevout.n) (.dos 1 REJECT_INVALID "prevout-not-in-chain")
    let p ← orReject out.standard? (.dos 100 REJECT_INVALID "invalid-prevout")
    pure ⟨p.nValue, p.scriptPubKey⟩
  | some coin => do
    rejectIf (coin.nType ≠ .standard) (.dos 100 REJECT_INVALID "invalid-prevout")
    pure coin.out

def addExtraInput (kernelPubKey : Bytes) (amount : Int) (txin : CTxIn) : Verdict Int := do
  let out ← extraInput G txin.prevout
  rejectIf (kernelPubKey ≠ out.scriptPubKey) (.dos 100 REJECT_INVALID "mixed-prevout-scripts")
  pure (int64 (amount + out.nValue))

def valuesTo (s : Bytes) (tx : CTransaction) : List Int :=
  (tx.standardOutputs.filter fun p => p.scriptPubKey = s).map (·.nValue)

/-- The rule for a conditional coinstake kernel: one script in, and at least as much out to it. -/
def checkColdStake (tx : CTransaction) (k : StakeKernel) : Verdict Unit := do
  let amount ← loop (addExtraInput G k.scriptPubKey) k.amount tx.vin.tail
  rejectIf (tx.ringCTOutputs ≠ []) (.dos 100 REJECT_INVALID "bad-output-type")
  rejectIf (addAmounts 0 (valuesTo k.scriptPubKey tx) < amount)
    (.dos 100 REJECT_INVALID "verify-amount-script-failed")

/-- `CheckProofOfStake`; `branch` is the previous block's index entry with its ancestors. -/
def checkProofOfStake (branch : List CBlockIndex) (tx : CTransaction) (nTime nBits : UInt32) :
    Verdict Unit := do
  rejectIf (¬ tx.isCoinStake) (.dos 100 REJECT_INVALID "malformed-txn")
  let txin ← orReject tx.vin.head? (.dos 100 REJECT_INVALID "malformed-txn")
  let tip ← orReject branch.head? (.throws "CheckProofOfStake: pindexPrev")
  let k ← kernelOf E G tip branch txin.prevout
  rejectIf (E.verifyScript ⟨k.scriptPubKey, amountBytes k.amount, tx, 0,
      STANDARD_SCRIPT_VERIFY_FLAGS⟩ ≠ none)
    (.dos 100 REJECT_INVALID "verify-script-failed")
  rejectIf (checkStakeKernelHash E tip nBits k txin.prevout nTime = false)
    (.dos 1 REJECT_INVALID "check-kernel-failed")
  if hasIsCoinstakeOp k.scriptPubKey then checkColdStake G tx k else pure ()

def computeStakeModifierV2 (branch : List CBlockIndex) (kernel : Uint256) : Uint256 :=
  match branch with
  | [] => 0
  | p :: _ => E.hash256 (hashBytes kernel ++ hashBytes p.bnStakeModifier)

lemma checkProofOfStake_ok_iff (branch : List CBlockIndex) (tx : CTransaction)
    (nTime nBits : UInt32) (r : Unit) : checkProofOfStake E G branch tx nTime nBits = .ok r ↔
      tx.isCoinStake ∧ ∃ txin tip k, tx.vin.head? = some txin ∧ branch.head? = some tip ∧
        kernelOf E G tip branch txin.prevout = .ok k ∧
        E.verifyScript ⟨k.scriptPubKey, amountBytes k.amount, tx, 0,
          STANDARD_SCRIPT_VERIFY_FLAGS⟩ = none ∧
        checkStakeKernelHash E tip nBits k txin.prevout nTime = true ∧
        (hasIsCoinstakeOp k.scriptPubKey → checkColdStake G tx k = .ok ()) := by
  have hlast : ∀ k : StakeKernel,
      (if hasIsCoinstakeOp k.scriptPubKey then checkColdStake G tx k else pure ()) = .ok r ↔
        (hasIsCoinstakeOp k.scriptPubKey → checkColdStake G tx k = .ok ()) := by
    intro k
    by_cases h : hasIsCoinstakeOp k.scriptPubKey
    · simp [h]
    · simp [h, pure, Except.pure]
  simp only [checkProofOfStake, bind_ok_iff, rejectIf_ok_iff, orReject_ok_iff, hlast]
  constructor
  · rintro ⟨-, hcs, txin, hin, tip, htip, k, hk, -, hscript, -, hhash, hcold⟩
    exact ⟨not_not.mp hcs, txin, tip, k, hin, htip, hk, not_not.mp hscript, by simpa using hhash,
      hcold⟩
  · rintro ⟨hcs, txin, tip, k, hin, htip, hk, hscript, hhash, hcold⟩
    exact ⟨(), not_not.mpr hcs, txin, hin, tip, htip, k, hk, (), not_not.mpr hscript, (),
      by simp [hhash], hcold⟩

/-- What the node finds under an outpoint, in the tip's coins, in the mempool or on disk, is the
output that the coin of the view was made from. -/
def FindsCoin (coins : CoinMap) (o : COutPoint) : Prop :=
  ∀ coin, coins o = some coin →
    (∀ c, G.coinsTip o = some c → c.out = coin.out) ∧
      ∀ tx p, (G.getTransaction o.hash = some tx ∨ (G.txOnDisk o.hash).map (·.1) = some tx) →
        outputOf tx o.n = some (.standard p) → coin.out = ⟨p.nValue, p.scriptPubKey⟩

lemma standard?_eq_some_iff (o : CTxOutBase) (p : CTxOutStandard) :
    o.standard? = some p ↔ o = .standard p := by
  cases o <;> simp [CTxOutBase.standard?]

lemma kernelOf_ok (tip : CBlockIndex) (branch : List CBlockIndex) (o : COutPoint) (coin : Coin)
    (k : StakeKernel) (hfind : FindsCoin G coins o) (hcoin : coins o = some coin)
    (h : kernelOf E G tip branch o = .ok k) :
    k.scriptPubKey = coin.out.scriptPubKey ∧ k.amount = coin.out.nValue := by
  obtain ⟨htip, hdisk⟩ := hfind coin hcoin
  unfold kernelOf at h
  cases hc : G.coinsTip o with
  | none =>
    simp only [hc, kernelOnDisk, bind_ok_iff, orReject_ok_iff, rejectIf_ok_iff, pure_ok_iff] at h
    obtain ⟨found, hfound, out, hout, p, hp, -, -, -, -, rfl⟩ := h
    rw [(standard?_eq_some_iff out p).mp hp] at hout
    have hsame := hdisk found.1 p (Or.inr (by rw [hfound]; rfl)) hout
    rw [hsame]
    exact ⟨rfl, rfl⟩
  | some c =>
    simp only [hc, kernelOfCoin, bind_ok_iff, orReject_ok_iff, rejectIf_ok_iff, pure_ok_iff] at h
    obtain ⟨-, -, pindex, -, -, -, rfl⟩ := h
    rw [← htip c hc]
    exact ⟨rfl, rfl⟩

lemma extraInput_ok (o : COutPoint) (coin : Coin) (out : CTxOut) (hfind : FindsCoin G coins o)
    (hcoin : coins o = some coin) (h : extraInput G o = .ok out) : out = coin.out := by
  obtain ⟨htip, hdisk⟩ := hfind coin hcoin
  unfold extraInput at h
  cases hc : G.coinsTip o with
  | none =>
    simp only [hc, bind_ok_iff, orReject_ok_iff, pure_ok_iff] at h
    obtain ⟨tx, htx, o', ho', p, hp, rfl⟩ := h
    rw [(standard?_eq_some_iff o' p).mp hp] at ho'
    exact (hdisk tx p (Or.inl htx) ho').symm
  | some c =>
    simp only [hc, bind_ok_iff, rejectIf_ok_iff, pure_ok_iff] at h
    obtain ⟨-, -, rfl⟩ := h
    exact htip c hc

/-- An accepted run over the further inputs found the kernel's script and added up the values. -/
lemma addExtraInputs_ok (kernelPubKey : Bytes) (vin : List CTxIn) (amount total : Int)
    (hfind : ∀ txin ∈ vin, FindsCoin G coins txin.prevout ∧ (coins txin.prevout).isSome)
    (h : loop (addExtraInput G kernelPubKey) amount vin = .ok total) :
    (∀ txin ∈ vin, ∀ coin, coins txin.prevout = some coin → coin.out.scriptPubKey = kernelPubKey) ∧
      total = addAmounts amount (vin.map (inputValue coins)) := by
  induction vin generalizing amount with
  | nil =>
    rw [loop_nil, Except.ok.injEq] at h
    exact ⟨by simp, h.symm⟩
  | cons txin vin ih =>
    rw [List.forall_mem_cons] at hfind ⊢
    obtain ⟨m, hm, hrest⟩ := (loop_cons_ok_iff _ _ _ _ _).mp h
    obtain ⟨hscripts, htotal⟩ := ih m hfind.2 hrest
    obtain ⟨coin, hcoin⟩ := Option.isSome_iff_exists.mp hfind.1.2
    simp only [addExtraInput, bind_ok_iff, rejectIf_ok_iff, pure_ok_iff] at hm
    obtain ⟨out, hout, -, hscript, rfl⟩ := hm
    have hsame := extraInput_ok G coins _ coin out hfind.1.1 hcoin hout
    subst hsame
    refine ⟨⟨?_, hscripts⟩, ?_⟩
    · intro c hc
      rw [hcoin] at hc
      rw [← Option.some.inj hc]
      exact (not_not.mp hscript).symm
    · have hvalue : inputValue coins txin = coin.out.nValue := by simp [inputValue, hcoin]
      rw [htotal, List.map_cons, hvalue]
      rfl

end

end Kernel
