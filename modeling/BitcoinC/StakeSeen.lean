import BitcoinC.StakeForks

/-!
# Kernels that were seen

`CheckBlock` remembers which block used a stake kernel first and flags any other
block that uses it.
-/

namespace StakeSeen

open Primitives Encoding Environment Verdicts TxVerify Blocks ChainRun

def MAX_STAKE_SEEN_SIZE : Nat := 1000

structure Seen where
  mapStakeSeen : COutPoint → Option Uint256
  listStakeSeen : List COutPoint

def Seen.empty : Seen := ⟨fun _ => none, []⟩

def addToMapStakeSeen (kernel : COutPoint) (blockHash : Uint256) (s : Seen) : Seen where
  mapStakeSeen := Function.update s.mapStakeSeen kernel (some blockHash)
  listStakeSeen :=
    if (s.mapStakeSeen kernel).isSome then s.listStakeSeen else s.listStakeSeen ++ [kernel]

def forgetOldest (seen : COutPoint → Option Uint256) : List COutPoint → Seen
  | [] => ⟨seen, []⟩
  | oldest :: rest =>
    if MAX_STAKE_SEEN_SIZE < (oldest :: rest).length then
      forgetOldest (Function.update seen oldest none) rest
    else ⟨seen, oldest :: rest⟩

def checkStakeUnique (blockHash : Uint256) (kernel : COutPoint) (fUpdate : Bool) (s : Seen) :
    Bool × Seen :=
  match s.mapStakeSeen kernel with
  | some first => (first = blockHash, s)
  | none =>
    if fUpdate then
      (true, addToMapStakeSeen kernel blockHash (forgetOldest s.mapStakeSeen s.listStakeSeen))
    else (true, s)

section

variable (E : Env)

def checkBlockShape (fCheckMerkleRoot : Bool) (b : CBlock) : Verdict Unit := do
  checkBlockHeader E b.header
  rejectIf (fCheckMerkleRoot ∧ b.header.hashMerkleRoot ≠ (blockMerkleRoot E b).1)
    (.dos 100 REJECT_INVALID "bad-txnmrklroot" true)
  rejectIf (fCheckMerkleRoot ∧ (blockMerkleRoot E b).2)
    (.dos 100 REJECT_INVALID "bad-txns-duplicate" true)
  rejectIf (b.vtx = [] ∨ MAX_BLOCK_WEIGHT < b.vtx.length * WITNESS_SCALE_FACTOR ∨
      MAX_BLOCK_WEIGHT < (serializeBlock false b).length * WITNESS_SCALE_FACTOR)
    (.dos 100 REJECT_INVALID "bad-blk-length")

def checkBlockContents (b : CBlock) : Verdict Unit := do
  rejectIf (¬ b.vtx.head?.any fun tx => tx.isCoinBase ∨ tx.isCoinStake)
    (.dos 100 REJECT_INVALID "bad-cb-missing")
  rejectIf (b.vtx.tail.any fun tx => tx.isCoinStake) (.dos 100 REJECT_INVALID "bad-cb-multiple")
  rejectIf (checkBlockSignature E b = false) (.dos 100 REJECT_INVALID "bad-block-signature")
  checkEach (fun tx => checkTransaction E (fBulletproofsActive E b) tx true) b.vtx
  rejectIf (MAX_BLOCK_SIGOPS_COST < blockSigOpCount b * WITNESS_SCALE_FACTOR)
    (.dos 100 REJECT_INVALID "bad-blk-sigops")

/-- `CheckBlock` is these two halves; the kernel is noted between them. -/
lemma checkBlock_eq (fCheckMerkleRoot : Bool) (b : CBlock) : checkBlock E fCheckMerkleRoot b =
      (do checkBlockShape E fCheckMerkleRoot b; checkBlockContents E b) := by
  simp only [checkBlock, checkBlockShape, checkBlockContents, bind_assoc]

structure BlockCall where
  process : Process
  block : CBlock
  /-- The block object has passed before. -/
  fChecked : Bool := false
  fCheckMerkleRoot : Bool := true

variable (s : Seen) (c : BlockCall)

def stakeKernel (b : CBlock) : Option COutPoint :=
  b.vtx.head?.bind fun tx => tx.vin.head?.map (·.prevout)

/-- The map after a block got as far as `CheckStakeUnique`, and whether it is unique. -/
def noteStake (c : BlockCall) (s : Seen) : Bool × Seen :=
  if c.process.isInitialBlockDownload = false ∧ isProofOfStake c.block = true then
    match stakeKernel c.block with
    | some kernel => checkStakeUnique (E.blockHash c.block) kernel true s
    | none => (true, s)
  else (true, s)

/-- The verdict of a call, whether it sets `BLOCK_FAILED_DUPLICATE_STAKE`, and the map after it. -/
def checkBlockCall (s : Seen) (c : BlockCall) : (Verdict Unit × Bool) × Seen :=
  if c.fChecked then ((.ok (), false), s)
  else
    match checkBlockShape (withProcess E c.process) c.fCheckMerkleRoot c.block with
    | .error e => ((.error e, false), s)
    | .ok _ =>
      ((checkBlockContents (withProcess E c.process) c.block, !(noteStake E c s).1),
        (noteStake E c s).2)

def seenAfter (calls : List BlockCall) : Seen :=
  calls.foldl (fun s c => (checkBlockCall E s c).2) .empty

def Passes (c : BlockCall) : Prop :=
  c.fChecked = true ∨ checkBlock (withProcess E c.process) c.fCheckMerkleRoot c.block = .ok ()

/-- The call gets as far as the kernel check. -/
structure Claims (c : BlockCall) (kernel : COutPoint) : Prop where
  unchecked : c.fChecked = false
  shape : checkBlockShape (withProcess E c.process) c.fCheckMerkleRoot c.block = .ok ()
  looks : c.process.isInitialBlockDownload = false ∧ isProofOfStake c.block = true
  uses : stakeKernel c.block = some kernel

lemma forgetOldest_some (list : List COutPoint) (seen : COutPoint → Option Uint256)
    (kernel : COutPoint) (hash : Uint256)
    (h : (forgetOldest seen list).mapStakeSeen kernel = some hash) : seen kernel = some hash := by
  induction list generalizing seen with
  | nil => exact h
  | cons oldest rest ih =>
    unfold forgetOldest at h
    split at h
    · have hrest := ih _ h
      by_cases heq : kernel = oldest
      · rw [heq, Function.update_self] at hrest
        cases hrest
      · rwa [Function.update_of_ne heq] at hrest
    · exact h

lemma noteStake_some (s : Seen) (kernel : COutPoint) (hash : Uint256)
    (h : (noteStake E c s).2.mapStakeSeen kernel = some hash) : s.mapStakeSeen kernel = some hash ∨
      ((c.process.isInitialBlockDownload = false ∧ isProofOfStake c.block = true) ∧
        stakeKernel c.block = some kernel ∧ E.blockHash c.block = hash) := by
  unfold noteStake at h
  split at h
  · rename_i hlooks
    cases hkernel : stakeKernel c.block with
    | none =>
      simp only [hkernel] at h
      exact .inl h
    | some k =>
      simp only [hkernel, checkStakeUnique] at h
      cases hseen : s.mapStakeSeen k with
      | some first =>
        simp only [hseen] at h
        exact .inl h
      | none =>
        simp only [hseen, if_true, addToMapStakeSeen] at h
        by_cases heq : kernel = k
        · rw [heq, Function.update_self] at h
          exact .inr ⟨hlooks, by rw [heq], Option.some.inj h⟩
        · rw [Function.update_of_ne heq] at h
          exact .inl (forgetOldest_some _ _ kernel hash h)
  · exact .inl h

lemma checkBlockCall_some (kernel : COutPoint) (hash : Uint256)
    (h : (checkBlockCall E s c).2.mapStakeSeen kernel = some hash) :
    s.mapStakeSeen kernel = some hash ∨ (Claims E c kernel ∧ E.blockHash c.block = hash) := by
  unfold checkBlockCall at h
  cases hchecked : c.fChecked with
  | true =>
    simp only [hchecked, if_true] at h
    exact .inl h
  | false =>
    simp only [hchecked, Bool.false_eq_true, if_false] at h
    cases hshape : checkBlockShape (withProcess E c.process) c.fCheckMerkleRoot c.block with
    | error e =>
      simp only [hshape] at h
      exact .inl h
    | ok u =>
      simp only [hshape] at h
      rcases noteStake_some E c s kernel hash h with hold | ⟨hlooks, huses, hhash⟩
      · exact .inl hold
      · exact .inr ⟨⟨hchecked, hshape, hlooks, huses⟩, hhash⟩

lemma seenAfter_some (calls : List BlockCall) (kernel : COutPoint) (hash : Uint256)
    (h : (seenAfter E calls).mapStakeSeen kernel = some hash) :
    ∃ c ∈ calls, Claims E c kernel ∧ E.blockHash c.block = hash := by
  induction calls using List.reverseRecOn with
  | nil => cases h
  | append_singleton calls c ih =>
    rw [seenAfter, List.foldl_append] at h
    rcases checkBlockCall_some E _ c kernel hash h with hold | hnew
    · obtain ⟨c', hmem, hclaims⟩ := ih hold
      exact ⟨c', List.mem_append_left _ hmem, hclaims⟩
    · exact ⟨c, List.mem_append_right _ List.mem_cons_self, hnew⟩

lemma checkBlockCall_flag (h : (checkBlockCall E s c).1.2 = true) :
    ∃ kernel hash, stakeKernel c.block = some kernel ∧ s.mapStakeSeen kernel = some hash ∧
      hash ≠ E.blockHash c.block := by
  unfold checkBlockCall at h
  split at h
  · cases h
  · split at h
    · cases h
    · simp only [noteStake, Bool.not_eq_true'] at h
      split at h
      · cases hkernel : stakeKernel c.block with
        | none => simp [hkernel] at h
        | some kernel =>
          simp only [hkernel, checkStakeUnique] at h
          cases hseen : s.mapStakeSeen kernel with
          | none => simp [hseen] at h
          | some first =>
            simp only [hseen, decide_eq_false_iff_not] at h
            exact ⟨kernel, first, rfl, hseen, h⟩
      · cases h

/-- A block is not flagged when no other block with its kernel has passed before, as long as every
call that claimed the kernel went on to pass. -/
theorem first_block_not_flagged (calls : List BlockCall) (c : BlockCall)
    (hvalid : ∀ c' ∈ calls, ∀ kernel, stakeKernel c.block = some kernel → Claims E c' kernel →
      Passes E c')
    (hfirst : ∀ c' ∈ calls, Passes E c' → stakeKernel c'.block = stakeKernel c.block →
      E.blockHash c'.block = E.blockHash c.block) :
    (checkBlockCall E (seenAfter E calls) c).1.2 = false := by
  by_contra hflag
  obtain ⟨kernel, hash, huses, hseen, hne⟩ :=
    checkBlockCall_flag E (seenAfter E calls) c (by simpa using hflag)
  obtain ⟨c', hmem, hclaims, hhash⟩ := seenAfter_some E calls kernel hash hseen
  have hpassed := hvalid c' hmem kernel huses hclaims
  exact hne (hhash.symm.trans (hfirst c' hmem hpassed (hclaims.uses.trans huses.symm)))

end

section

open ToyEnvironment StakeForks

def received (b : CBlock) : BlockCall := { process := process, block := b }

/-- Two calls on the same block. -/
theorem first_block_not_flagged_twice : Passes chainEnv (received leftStep.block) ∧
      (checkBlockCall chainEnv (seenAfter chainEnv [received leftStep.block])
        (received leftStep.block)).1.2 = false := by
  have hpass : Passes chainEnv (received leftStep.block) := .inr (by decide +kernel)
  refine ⟨hpass, first_block_not_flagged chainEnv [received leftStep.block]
    (received leftStep.block) ?_ ?_⟩
  · intro c' hmem _ _ _
    rw [List.mem_singleton.mp hmem]
    exact hpass
  · intro c' hmem _ _
    rw [List.mem_singleton.mp hmem]

def unsigned : CBlock :=
  { leftStep.block with header := { leftStep.block.header with nNonce := 1 }, vchBlockSig := [] }

/-- A block without a signature claims the kernel, and the signed block is flagged. -/
theorem invalid_block_claims_kernel :
    ¬ Passes chainEnv (received unsigned) ∧ Passes chainEnv (received leftStep.block) ∧
      stakeKernel unsigned = stakeKernel leftStep.block ∧
      (received leftStep.block).process.isInitialBlockDownload = false ∧
      (checkBlockCall chainEnv (seenAfter chainEnv [received unsigned])
        (received leftStep.block)).1.2 = true := by
  refine ⟨?_, .inr (by decide +kernel), rfl, rfl, by decide +kernel⟩
  rintro (hchecked | hpassed)
  · cases hchecked
  · have hfails : checkBlock (withProcess chainEnv process) true unsigned ≠
      .ok () := by decide +kernel
    exact hfails hpassed

end

end StakeSeen
