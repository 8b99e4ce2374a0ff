import BitcoinC.MerkleTrees
import BitcoinC.RoundTrip
import BitcoinC.ToyEnvironment

/-!
# What a block header commits to

The header of a proof-of-stake block has the root of the transaction hashes and
the root of the hashes with witness data.
-/

namespace MerkleRoot

open Primitives Encoding Environment Verdicts Kernel Blocks WireFormat TransactionFormat
  ReadTransaction RoundTrip MerkleTrees ToyEnvironment List

variable {b : CBlock} {tx : CTransaction} {b' : CBlock} {tx' : CTransaction}

/-- The values fit their machine types, and the transaction has only what its format can carry. -/
structure Representable (tx : CTransaction) : Prop where
  vin : tx.vin.length < 2 ^ 32 ∧ ∀ txin ∈ tx.vin, WellFormedIn txin
  bitcoinC : tx.isBitcoinCVersion → tx.nVersion.toNat < 2 ^ 16 ∧ tx.vout = [] ∧
    tx.vpout.length < 2 ^ 64 ∧ ∀ out ∈ tx.vpout, WellFormedOut out
  legacy : ¬tx.isBitcoinCVersion → tx.vpout = [] ∧ tx.vout.length < 2 ^ 32 ∧
    ∀ out ∈ tx.vout, (-2 ^ 63 ≤ out.nValue ∧ out.nValue < 2 ^ 63) ∧ out.scriptPubKey.length < 2 ^ 32

lemma Representable.wellFormed (h : Representable tx) (hv : tx.isBitcoinCVersion) : WellFormed tx :=
  ⟨h.vin, h.bitcoinC, fun hnot => absurd hv hnot⟩

lemma Representable.vin_dom (h : Representable tx) :
    (vector txIn).dom (tx.vin.map withoutWitness) := by
  refine (vector_dom _ _).mpr ⟨by rw [length_map]; exact h.vin.1, ?_⟩
  rw [forall_mem_map]
  exact fun txin hmem => txIn_dom_of_wellFormed txin (h.vin.2 txin hmem)

lemma Representable.witnesses_dom (h : Representable tx) :
    (witnesses tx.vin.length).dom (tx.vin.map (·.scriptWitness)) := by
  refine ⟨length_map _, ?_⟩
  rw [forall_mem_map]
  exact fun txin hmem => items_dom _ (h.vin.2 txin hmem).scriptWitness

lemma Representable.vout_dom (h : Representable tx) (hv : ¬tx.isBitcoinCVersion) :
    (vector txOut).dom tx.vout := by
  obtain ⟨-, hlength, hvout⟩ := h.legacy hv
  exact (vector_dom _ _).mpr ⟨hlength, fun out hmem =>
    ⟨⟨amount_dom _ (hvout out hmem).1.1 (hvout out hmem).1.2, (bytes_dom _).mpr (hvout out hmem).2⟩,
      rfl⟩⟩

lemma isBitcoinCVersion_congr (h : serializeTransaction false tx = serializeTransaction false tx') :
    tx.isBitcoinCVersion ↔ tx'.isBitcoinCVersion := by
  have hfirst : ∀ t : CTransaction, (serializeTransaction false t).head? = some (lowByte t) := by
    intro t
    unfold serializeTransaction
    split
    · rw [version_byte]
      rfl
    · rfl
  have hbyte : lowByte tx = lowByte tx' := by
    apply Option.some.inj
    rw [← hfirst, ← hfirst, h]
  rw [isBitcoinCVersion_iff, isBitcoinCVersion_iff, hbyte]

lemma legacy_noWitness_inj (h : Representable tx) (h' : Representable tx')
    (hv : ¬tx.isBitcoinCVersion) (hv' : ¬tx'.isBitcoinCVersion)
    (heq : serializeTransaction false tx = serializeTransaction false tx') :
    tx.nVersion = tx'.nVersion ∧ tx.vin.map withoutWitness = tx'.vin.map withoutWitness ∧
      tx.vout = tx'.vout ∧ tx.nLockTime = tx'.nLockTime := by
  have hform : ∀ t : CTransaction, ¬t.isBitcoinCVersion → serializeTransaction false t =
      uint32.enc t.nVersion ++ ((vector txIn).enc (t.vin.map withoutWitness) ++
        ((vector txOut).enc t.vout ++ (uint32.enc t.nLockTime ++ []))) := by
    intro t ht
    rw [serializeTransaction, if_neg ht, serializeLegacyTransaction, vector_txIn_enc_map]
    simp only [Bool.false_and, Bool.false_eq_true, if_false, append_assoc, append_nil]
    rfl
  rw [hform tx hv, hform tx' hv'] at heq
  obtain ⟨hversion, heq⟩ := uint32.split (uint32_dom _) (uint32_dom _) heq
  obtain ⟨hvin, heq⟩ := (vector txIn).split h.vin_dom h'.vin_dom heq
  obtain ⟨hvout, heq⟩ := (vector txOut).split (h.vout_dom hv) (h'.vout_dom hv') heq
  obtain ⟨hlock, -⟩ := uint32.split (uint32_dom _) (uint32_dom _) heq
  exact ⟨hversion, hvin, hvout, hlock⟩

lemma legacy_length (t : CTransaction) (ht : ¬t.isBitcoinCVersion) :
    (serializeTransaction true t).length = (serializeTransaction false t).length +
      if hasWitness t then 2 + (writeWitnesses t.vin).length else 0 := by
  simp only [serializeTransaction, if_neg ht, serializeLegacyTransaction]
  cases hasWitness t with
  | false => simp
  | true =>
    simp [writeCompactSize]
    omega

lemma hasWitness_congr (hv : ¬tx.isBitcoinCVersion) (hv' : ¬tx'.isBitcoinCVersion)
    (hfalse : serializeTransaction false tx = serializeTransaction false tx')
    (htrue : serializeTransaction true tx = serializeTransaction true tx') :
    hasWitness tx = hasWitness tx' := by
  have hlen := congrArg length htrue
  rw [legacy_length tx hv, legacy_length tx' hv', hfalse] at hlen
  cases hx : hasWitness tx <;> cases hx' : hasWitness tx' <;> simp [hx, hx'] at hlen ⊢

lemma vin_eq_of_parts {vin vin' : List CTxIn}
    (hin : vin.map withoutWitness = vin'.map withoutWitness)
    (hwitness : vin.map (·.scriptWitness) = vin'.map (·.scriptWitness)) : vin = vin' := by
  rw [← withWitnesses_map vin, ← withWitnesses_map vin', hin, hwitness]

lemma legacy_witness_inj (h : Representable tx) (h' : Representable tx')
    (hv : ¬tx.isBitcoinCVersion) (hv' : ¬tx'.isBitcoinCVersion) (hsome : hasWitness tx = true)
    (hsome' : hasWitness tx' = true) (hin : tx.vin.map withoutWitness = tx'.vin.map withoutWitness)
    (heq : serializeTransaction true tx = serializeTransaction true tx') :
    tx.vin.map (·.scriptWitness) = tx'.vin.map (·.scriptWitness) := by
  have hform : ∀ t : CTransaction, ¬t.isBitcoinCVersion → hasWitness t = true →
      serializeTransaction true t = uint32.enc t.nVersion ++ ([0, 1] ++
        ((vector txIn).enc (t.vin.map withoutWitness) ++ ((vector txOut).enc t.vout ++
          ((witnesses t.vin.length).enc (t.vin.map (·.scriptWitness)) ++
            uint32.enc t.nLockTime)))) := by
    intro t ht hw
    rw [serializeTransaction, if_neg ht, serializeLegacyTransaction, vector_txIn_enc_map,
      witnesses_enc, hw]
    simp only [Bool.and_true, if_true, append_assoc]
    rfl
  have hlength : tx.vin.length = tx'.vin.length := by simpa using congrArg length hin
  rw [hform tx hv hsome, hform tx' hv' hsome'] at heq
  obtain ⟨-, heq⟩ := uint32.split (uint32_dom _) (uint32_dom _) heq
  obtain ⟨-, heq⟩ := (vector txIn).split h.vin_dom h'.vin_dom (append_cancel_left heq)
  obtain ⟨-, heq⟩ := (vector txOut).split (h.vout_dom hv) (h'.vout_dom hv') heq
  rw [hlength] at heq
  exact ((witnesses tx'.vin.length).split (hlength ▸ h.witnesses_dom) h'.witnesses_dom heq).1

lemma serializeTransaction_inj (h : Representable tx) (h' : Representable tx')
    (hfalse : serializeTransaction false tx = serializeTransaction false tx')
    (htrue : serializeTransaction true tx = serializeTransaction true tx') : tx = tx' := by
  have hformat := isBitcoinCVersion_congr hfalse
  by_cases hv : tx.isBitcoinCVersion
  · have hread := unserialize_serialize tx (h.wellFormed hv) []
    rw [htrue, unserialize_serialize tx' (h'.wellFormed (hformat.mp hv)) []] at hread
    exact (mutable_injective (Prod.ext_iff.mp (Option.some.inj hread)).1).symm
  · have hv' : ¬tx'.isBitcoinCVersion := fun hx => hv (hformat.mpr hx)
    obtain ⟨hversion, hin, hvout, hlock⟩ := legacy_noWitness_inj h h' hv hv' hfalse
    have hsome := hasWitness_congr hv hv' hfalse htrue
    have hvin : tx.vin = tx'.vin := by
      cases hw : hasWitness tx with
      | false =>
        rwa [map_withoutWitness tx.vin hw, map_withoutWitness tx'.vin (hsome.symm.trans hw)] at hin
      | true =>
        exact vin_eq_of_parts hin
          (legacy_witness_inj h h' hv hv' hw (hsome.symm.trans hw) hin htrue)
    have hvpout : tx.vpout = tx'.vpout := (h.legacy hv).1.trans (h'.legacy hv').1.symm
    cases tx
    cases tx'
    simp_all

section

variable (E : Env)

def inner (h h' : Uint256) : Uint256 := E.hash256 (hashBytes h ++ hashBytes h')

lemma merkleLevel_eq (hashes : List Uint256) : merkleLevel E hashes = level (inner E) hashes := by
  fun_induction merkleLevel E hashes with
  | case1 => rfl
  | case2 h => rfl
  | case3 h h' hs ih => rw [ih]; rfl

lemma levelMutated_eq (hashes : List Uint256) : levelMutated hashes = twins hashes := by
  fun_induction twins hashes with
  | case1 h h' hs ih => rw [levelMutated, ih]
  | case2 hs hnot =>
    match hs, hnot with
    | [], _ => rfl
    | [_], _ => rfl
    | _ :: _ :: _, hnot => exact absurd rfl (hnot _ _ _)

/-- The loop of `ComputeMerkleRoot` computes the root of the tree and whether some level has
twins. -/
lemma merkleLoop_eq (n : Nat) (hashes : List Uint256) (mutation : Bool) :
    merkleLoop E n hashes mutation =
      (root (inner E) 0 n hashes, mutation || twinned (inner E) n hashes) := by
  induction n generalizing hashes mutation with
  | zero => match hashes with
    | [] => exact Prod.ext rfl (Bool.or_false mutation).symm
    | [_] => exact Prod.ext rfl (Bool.or_false mutation).symm
    | _ :: _ :: _ => exact Prod.ext rfl (Bool.or_false mutation).symm
  | succ n ih => match hashes with
    | [] => exact Prod.ext rfl (Bool.or_false mutation).symm
    | [_] => exact Prod.ext rfl (Bool.or_false mutation).symm
    | h :: h' :: hs =>
      show merkleLoop E n (merkleLevel E (h :: h' :: hs))
        (mutation || levelMutated (h :: h' :: hs)) = _
      rw [ih, merkleLevel_eq, levelMutated_eq, root, twinned, Bool.or_assoc]

def txNodes (b : CBlock) : List (Uint256 × Uint256) :=
  nodes (inner E) b.vtx.length (b.vtx.map E.txHash)

def witnessNodes (b : CBlock) : List (Uint256 × Uint256) :=
  nodes (inner E) b.vtx.length (b.vtx.map E.witnessHash)

def nodeBytes (p : Uint256 × Uint256) : Bytes := hashBytes p.1 ++ hashBytes p.2

/-- The byte strings hashed when the transactions of a block and its trees are hashed. -/
def hashedBytes (b : CBlock) : List Bytes :=
  b.vtx.map (serializeTransaction false) ++ b.vtx.map (serializeTransaction true) ++
    ((txNodes E b).map nodeBytes ++ (witnessNodes E b).map nodeBytes)

/-- Equal hashes of what the two blocks hash come from equal bytes. -/
def NoCollision (b b' : CBlock) : Prop :=
  ∀ x ∈ hashedBytes E b, ∀ y ∈ hashedBytes E b', E.hash256 x = E.hash256 y → x = y

/-- No txid of one block is an inner node of the other. -/
def TxHashesApart (b b' : CBlock) : Prop :=
  ∀ tx ∈ b.vtx, ∀ p ∈ txNodes E b', E.txHash tx ≠ inner E p.1 p.2

/-- The checks of `CheckBlock` up to the merkle root and its flag, and the check of the witness root
in `ContextualCheckBlock`, which proof-of-stake blocks pass through. -/
structure MerkleChecks (b : CBlock) : Prop where
  header : checkBlockHeader E b.header = .ok ()
  merkleRoot : b.header.hashMerkleRoot = (blockMerkleRoot E b).1
  unmutated : (blockMerkleRoot E b).2 = false
  stake : isProofOfStake b = true
  witnessRoot : (blockWitnessMerkleRoot E b).1 = b.header.hashWitnessMerkleRoot

variable {E}

lemma merkleChecks_of_accepted {G : NodeState} {branch : List CBlockIndex} {accept_block : Bool}
    (hcheck : checkBlock E true b = .ok ())
    (hcontext : contextualCheckBlock E G branch b accept_block = .ok ())
    (hstake : isProofOfStake b = true) : MerkleChecks E b := by
  simp only [checkBlock, bind_ok_iff, rejectIf_ok_iff] at hcheck
  obtain ⟨_, hheader, -, hroot, -, hflag, -⟩ := hcheck
  simp only [contextualCheckBlock, bind_ok_iff, rejectIf_ok_iff, checkProof, if_pos hstake,
    checkStakeBlock] at hcontext
  obtain ⟨-, -, -, ⟨-, -, -, -, -, -, -, -, -, hwitness, -⟩, -⟩ := hcontext
  exact ⟨hheader, by simpa using hroot, by simpa using hflag, hstake, not_not.mp hwitness⟩

lemma nodeBytes_inj {p q : Uint256 × Uint256} (h : nodeBytes p = nodeBytes q) : p = q := by
  obtain ⟨hfst, hrest⟩ := hash.split (hash_dom p.1) (hash_dom q.1) h
  have hsnd : hash.enc p.2 ++ [] = hash.enc q.2 ++ [] := by
    rw [append_nil, append_nil]
    exact hrest
  exact Prod.ext hfst (hash.split (hash_dom p.2) (hash_dom q.2) hsnd).1

lemma NoCollision.txNodes (h : NoCollision E b b') :
    CollisionFree (inner E) (txNodes E b) (txNodes E b') := by
  intro p hp q hq heq
  exact nodeBytes_inj (h _ (mem_append_right _ (mem_append_left _ (mem_map_of_mem hp)))
    _ (mem_append_right _ (mem_append_left _ (mem_map_of_mem hq))) heq)

lemma NoCollision.witnessNodes (h : NoCollision E b b') :
    CollisionFree (inner E) (witnessNodes E b) (witnessNodes E b') := by
  intro p hp q hq heq
  exact nodeBytes_inj (h _ (mem_append_right _ (mem_append_right _ (mem_map_of_mem hp)))
    _ (mem_append_right _ (mem_append_right _ (mem_map_of_mem hq))) heq)

lemma NoCollision.serialize (h : NoCollision E b b') (hmem : tx ∈ b.vtx) (hmem' : tx' ∈ b'.vtx) :
    (E.txHash tx = E.txHash tx' → serializeTransaction false tx = serializeTransaction false tx') ∧
      (E.witnessHash tx = E.witnessHash tx' →
        serializeTransaction true tx = serializeTransaction true tx') :=
  ⟨h _ (mem_append_left _ (mem_append_left _ (mem_map_of_mem hmem))) _
      (mem_append_left _ (mem_append_left _ (mem_map_of_mem hmem'))),
    h _ (mem_append_left _ (mem_append_right _ (mem_map_of_mem hmem))) _
      (mem_append_left _ (mem_append_right _ (mem_map_of_mem hmem')))⟩

lemma MerkleChecks.version (h : MerkleChecks E b) : b.header.nVersion = BITCOINC_BLOCK_VERSION := by
  have hheader := h.header
  simp only [checkBlockHeader, bind_ok_iff, rejectIf_ok_iff] at hheader
  obtain ⟨-, hversion, -⟩ := hheader
  exact not_not.mp hversion

lemma MerkleChecks.nonempty (h : MerkleChecks E b) : b.vtx ≠ [] := by
  intro hnil
  have hstake := h.stake
  simp [isProofOfStake, hnil] at hstake

lemma MerkleChecks.txRoot (h : MerkleChecks E b) :
    root (inner E) 0 b.vtx.length (b.vtx.map E.txHash) = b.header.hashMerkleRoot ∧
      twinned (inner E) b.vtx.length (b.vtx.map E.txHash) = false := by
  have hroot := h.merkleRoot
  have hflag := h.unmutated
  rw [blockMerkleRoot, computeMerkleRoot, merkleLoop_eq, length_map] at hroot hflag
  exact ⟨hroot.symm, by simpa using hflag⟩

lemma MerkleChecks.witnessTree (h : MerkleChecks E b) :
    root (inner E) 0 b.vtx.length (b.vtx.map E.witnessHash) = b.header.hashWitnessMerkleRoot := by
  have hroot := h.witnessRoot
  rwa [blockWitnessMerkleRoot, if_pos h.version, computeMerkleRoot, merkleLoop_eq, length_map]
    at hroot

lemma TxHashesApart.leaves (h : TxHashesApart E b b') :
    LeavesApart (inner E) (b.vtx.map E.txHash) (txNodes E b') := by
  intro x hx
  obtain ⟨tx, hmem, rfl⟩ := mem_map.mp hx
  exact h tx hmem

lemma vtx_eq_of_hashes (hfree : NoCollision E b b') (hb : ∀ tx ∈ b.vtx, Representable tx)
    (hb' : ∀ tx ∈ b'.vtx, Representable tx) (htx : b.vtx.map E.txHash = b'.vtx.map E.txHash)
    (hwitness : b.vtx.map E.witnessHash = b'.vtx.map E.witnessHash) : b.vtx = b'.vtx := by
  have hlength : b.vtx.length = b'.vtx.length := by simpa using congrArg length htx
  apply ext_getElem hlength
  intro i hi hi'
  have hmem := getElem_mem hi
  have hmem' := getElem_mem hi'
  obtain ⟨hplain, hfull⟩ := hfree.serialize hmem hmem'
  have hat : ∀ f : CTransaction → Uint256, b.vtx.map f = b'.vtx.map f →
      f b.vtx[i] = f b'.vtx[i] := by
    intro f hf
    simpa [hi, hi'] using congrArg (fun l : List Uint256 => l[i]?) hf
  exact serializeTransaction_inj (hb _ hmem) (hb' _ hmem') (hplain (hat _ htx))
    (hfull (hat _ hwitness))

end

/-- Two proof-of-stake blocks with one header that pass the merkle checks have the same
transactions, witness data included. Every proof-of-stake block that `CheckBlock` and
`ContextualCheckBlock` accept passes them. -/
theorem header_commits_to_vtx (E : Env) (b b' : CBlock) (hheader : b.header = b'.header)
    (hb : MerkleChecks E b) (hb' : MerkleChecks E b')
    (hrep : ∀ tx ∈ b.vtx, Representable tx) (hrep' : ∀ tx ∈ b'.vtx, Representable tx)
    (hfree : NoCollision E b b') (hapart : TxHashesApart E b b') (hapart' : TxHashesApart E b' b) :
    b.vtx = b'.vtx ∧ ∀ G branch accept_block block, checkBlock E true block = .ok () →
      contextualCheckBlock E G branch block accept_block = .ok () → isProofOfStake block = true →
      MerkleChecks E block := by
  refine ⟨?_, fun _ _ _ _ => merkleChecks_of_accepted⟩
  obtain ⟨hroot, hflag⟩ := hb.txRoot
  obtain ⟨hroot', hflag'⟩ := hb'.txRoot
  have htx : b.vtx.map E.txHash = b'.vtx.map E.txHash :=
    eq_of_root_of_twinned 0 b.vtx.length b'.vtx.length _ _ (length_map _).le (length_map _).le
      (by simpa using hb.nonempty) (by simpa using hb'.nonempty) hfree.txNodes hapart.leaves
      hapart'.leaves hflag hflag' (by rw [hroot, hroot', hheader])
  have hlength : b'.vtx.length = b.vtx.length := by simpa using (congrArg length htx).symm
  -- the second tree has as many leaves, so its own flag does not matter
  have hwitness : b.vtx.map E.witnessHash = b'.vtx.map E.witnessHash := by
    have hwitnessNodes := hfree.witnessNodes
    have htree := hb'.witnessTree
    unfold witnessNodes at hwitnessNodes
    rw [hlength] at hwitnessNodes htree
    exact eq_of_root_of_length 0 b.vtx.length _ _ (length_map _).le
      (by rw [length_map, length_map, hlength]) hwitnessNodes
      (by rw [hb.witnessTree, htree, hheader])
  exact vtx_eq_of_hashes hfree hrep hrep' htx hwitness

instance : DecidablePred WellFormedOut
  | .standard p => inferInstanceAs (Decidable ((-2 ^ 63 ≤ p.nValue ∧ p.nValue < 2 ^ 63) ∧
      p.scriptPubKey.length < 2 ^ 32 ∧ p.vecSignature.length < 2 ^ 32))
  | .ringCT p => inferInstanceAs (Decidable (p.vData.length < 2 ^ 32 ∧
      p.vecSignature.length < 2 ^ 32 ∧ p.vRangeproof.length < 2 ^ 32))
  | .data p => inferInstanceAs (Decidable (p.vData.length < 2 ^ 32))

lemma wellFormedIn_spendBy3 (hash : Uint256) (n : UInt32) : WellFormedIn (spendBy3 hash n) :=
  ⟨Nat.two_pow_pos 32, ⟨Nat.two_pow_pos 32, by simp [spendBy3, spend]⟩, fun _ => rfl,
    by simp [spendBy3, keyBytes]⟩

lemma representable_convert : ∀ tx ∈ convertStep.block.vtx, Representable tx := by
  have hvtx : convertStep.block.vtx = [stake genesisHash 0 1 [keyOutput 3 1005], convertTx] := rfl
  rw [hvtx]
  rintro tx (_ | ⟨_, _ | ⟨_, hnil⟩⟩)
  · refine ⟨⟨by decide, ?_⟩, fun _ => ⟨by decide, rfl, by decide, by decide +kernel⟩,
      fun hnot => absurd (by decide) hnot⟩
    exact forall_mem_singleton.mpr (wellFormedIn_spendBy3 _ _)
  · refine ⟨⟨by decide, ?_⟩, fun _ => ⟨by decide, rfl, by decide, by decide +kernel⟩,
      fun hnot => absurd (by decide) hnot⟩
    exact forall_mem_singleton.mpr (wellFormedIn_spendBy3 _ _)
  · exact absurd hnil not_mem_nil

lemma merkleChecks_convert (sig : Bytes) :
    MerkleChecks chainEnv { convertStep.block with vchBlockSig := sig } := by
  have hchecks : checkBlockHeader chainEnv convertStep.block.header = .ok () ∧
      convertStep.block.header.hashMerkleRoot = (blockMerkleRoot chainEnv convertStep.block).1 ∧
      (blockMerkleRoot chainEnv convertStep.block).2 = false ∧
      isProofOfStake convertStep.block = true ∧
      (blockWitnessMerkleRoot chainEnv convertStep.block).1 =
        convertStep.block.header.hashWitnessMerkleRoot := by decide +kernel
  obtain ⟨hheader, hroot, hflag, hstake, hwitness⟩ := hchecks
  exact ⟨hheader, hroot, hflag, hstake, hwitness⟩

/-- The first block of the toy chain and the same block with another signature. -/
theorem header_commits_to_vtx_toy :
    convertStep.block.vtx = ({ convertStep.block with vchBlockSig := [2] } : CBlock).vtx := by
  have hfree : (hashedBytes chainEnv convertStep.block).all (fun x =>
      (hashedBytes chainEnv convertStep.block).all fun y =>
        chainEnv.hash256 x ≠ chainEnv.hash256 y || x = y) = true := by decide +kernel
  have hapart : convertStep.block.vtx.all
    (fun tx => (txNodes chainEnv convertStep.block).all fun p =>
      chainEnv.txHash tx ≠ inner chainEnv p.1 p.2) = true := by decide +kernel
  simp only [all_eq_true, Bool.or_eq_true, decide_eq_true_eq] at hfree hapart
  refine (header_commits_to_vtx chainEnv convertStep.block
    { convertStep.block with vchBlockSig := [2] } rfl (merkleChecks_convert _)
    (merkleChecks_convert [2]) representable_convert representable_convert ?_ hapart hapart).1
  intro x hx y hy heq
  rcases hfree x hx y hy with hne | hsame
  · exact absurd heq hne
  · exact hsame

end MerkleRoot
