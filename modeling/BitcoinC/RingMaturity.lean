import BitcoinC.RingIndex
import BitcoinC.KeyImages
import BitcoinC.RingSpends

/-!
# The age of ring members

`VerifyMLSAG` looks every ring member up in the RingCT index and never compares
the height stored there with the height of the block it is verified for; the depth
`nMinRCTOutputDepth` is read by the wallet alone.
-/

namespace RingMaturity

open Primitives Environment Verdicts Anon Blocks ConnectBlock LogIndex RingRecords
    ChainRun RingIndex
  RingSpends List Option

section

variable (E : Env)
variable (chain rest : List ChainBlock)

def AtNextHeight (S : ChainState) : ChainStep → Prop
  | .connect a => a.pindex.nHeight = nextHeight S.branch
  | .disconnect _ => True

/-- Heights fall strictly along the chain. -/
def Falling (chain : List ChainBlock) : Prop :=
  chain.Pairwise fun e e' => e'.pindex.nHeight < e.pindex.nHeight

lemma lt_nextHeight (h : Falling chain) (e : ChainBlock) (he : e ∈ chain) :
    e.pindex.nHeight < nextHeight (chain.map (·.pindex)) := by
  cases chain with
  | nil => cases he
  | cons tip rest =>
    show e.pindex.nHeight < tip.pindex.nHeight + 1
    rcases mem_cons.mp he with rfl | he
    · omega
    · have := (pairwise_cons.mp h).1 e he
      omega

lemma chainStep_falling (S T : ChainState) (a : ChainStep) (hS : Falling S.chain)
    (ha : AtNextHeight S a) (h : chainStep E S a = .ok T) : Falling T.chain := by
  cases a with
  | connect a =>
    obtain ⟨c, hc, rfl⟩ := (connectTip_ok_iff E S T a).mp h
    refine pairwise_cons.mpr ⟨fun e he => ?_, hS⟩
    show e.pindex.nHeight < c.pindex.nHeight
    rw [connectStep_nHeight E S a c hc, ha]
    exact lt_nextHeight S.chain hS e he
  | disconnect A =>
    obtain ⟨e, rest, view, hchain, -, rfl⟩ := disconnectTip_ok E S T A h
    rw [hchain] at hS
    exact (pairwise_cons.mp hS).2

/-- The state of the chain before a block is connected: its RingCT outputs are listed and its
heights fall. -/
structure Before (S : ChainState) : Prop extends OutputsIndexed E S where
  falling : Falling S.chain

lemma run_before (steps : List ChainStep) (S : ChainState)
    (hsteps : everyStep (fun S a => Plain a ∧ AtNextHeight S a) (chainStep E) .empty steps)
    (hrun : loop (chainStep E) .empty steps = .ok S) : Before E S := by
  refine everyStep_induction (chainStep E) _ (Before E) ?_ steps _ S ?_ hsteps hrun
  · rintro S T a hS ⟨hplain, hheight⟩ h
    exact ⟨chainStep_outputs E S T a hS.toOutputsIndexed hplain h,
      chainStep_falling E S T a hS.falling hheight h⟩
  · exact ⟨(indexed_empty E).toOutputsIndexed, List.Pairwise.nil⟩

lemma exists_block_of_numbered (i : Int) (r : CAnonOutput)
    (h : (i, r) ∈ numbered 0 (chainRecords E chain)) :
    ∃ e rest, e :: rest <:+ chain ∧ r ∈ blockRecords E e.pindex.nHeight e.block ∧
      (chainRecords E rest).length < i ∧ i ≤ (chainRecords E (e :: rest)).length := by
  induction chain with
  | nil => cases h
  | cons e rest ih =>
    rw [chainRecords, numbered_append, mem_append, Int.zero_add] at h
    rcases h with h | h
    · obtain ⟨e', rest', hsuffix, hr, hlow, hhigh⟩ := ih h
      exact ⟨e', rest', hsuffix.trans (suffix_cons e rest), hr, hlow, hhigh⟩
    · obtain ⟨hlow, hhigh⟩ := mem_numbered_bounds _ _ _ _ h
      refine ⟨e, rest, suffix_refl _, ?_, hlow, ?_⟩
      · rw [← map_snd_numbered (chainRecords E rest).length
          (blockRecords E e.pindex.nHeight e.block)]
        exact mem_map_of_mem h
      · rw [chainRecords, length_append, Int.natCast_add]
        exact hhigh

lemma nBlockHeight_of_mem (nHeight : Nat) (b : CBlock) (r : CAnonOutput)
    (h : r ∈ blockRecords E nHeight b) : r.nBlockHeight = nHeight := by
  obtain ⟨tx, -, hr⟩ := mem_flatMap.mp h
  obtain ⟨x, -, hx⟩ := mem_filterMap.mp hr
  obtain ⟨p, -, rfl⟩ := map_eq_some_iff.mp hx
  rfl

lemma length_chainRecords_le (h : rest <:+ chain) :
    (chainRecords E rest).length ≤ (chainRecords E chain).length := by
  induction chain with
  | nil => rw [suffix_nil.mp h]
  | cons e chain ih =>
    rcases suffix_cons_iff.mp h with rfl | h
    · exact le_rfl
    · have := ih h
      rw [chainRecords, length_append]
      omega

lemma nAnonOutputs_of_suffix (e : ChainBlock) (h : Counted E chain)
    (hsuffix : e :: rest <:+ chain) :
    e.pindex.nAnonOutputs = (chainRecords E (e :: rest)).length := by
  induction chain with
  | nil => cases suffix_nil.mp hsuffix
  | cons e' chain ih =>
    rcases suffix_cons_iff.mp hsuffix with heq | hsuffix
    · rw [heq] at hsuffix ⊢
      obtain ⟨rfl, rfl⟩ := cons.inj heq
      exact h.1
    · exact ih h.2 hsuffix

/-- The index refers to a RingCT output created in a block of the chain at least `depth` below
`nHeight`. -/
def Mature (S : ChainState) (nHeight : Nat) (depth : Int) (i : Int) : Prop :=
  ∃ e ∈ S.chain, (e.pindex.nHeight : Int) ≤ nHeight - depth ∧
    ∃ r ∈ blockRecords E e.pindex.nHeight e.block, S.db.rctOutput i = some (stored r)

lemma exists_block_of_stored (S : ChainState) (hS : Before E S) (i : Int) (ao : CAnonOutput)
    (h : S.db.rctOutput i = some ao) : ∃ e rest r, e :: rest <:+ S.chain ∧
      r ∈ blockRecords E e.pindex.nHeight e.block ∧ ao = stored r ∧
      (chainRecords E rest).length < i ∧ i ≤ (chainRecords E (e :: rest)).length := by
  have hmem := (hS.outputs i ao).mp h
  rw [← numbered_map, List.mem_map] at hmem
  obtain ⟨⟨j, r⟩, hr, heq⟩ := hmem
  obtain ⟨rfl, rfl⟩ := Prod.mk.inj heq
  obtain ⟨e, rest, hsuffix, hmem, hlow, hhigh⟩ := exists_block_of_numbered E S.chain j r hr
  exact ⟨e, rest, r, hsuffix, hmem, rfl, hlow, hhigh⟩

lemma mature_iff (S : ChainState) (hS : Before E S) (nHeight : Nat) (depth i : Int)
    (hi : (S.db.rctOutput i).isSome) : Mature E S nHeight depth i ↔
      ∃ e ∈ S.chain, (e.pindex.nHeight : Int) ≤ nHeight - depth ∧ i ≤ e.pindex.nAnonOutputs := by
  obtain ⟨ao, hr⟩ := isSome_iff_exists.mp hi
  obtain ⟨e, rest, r, hsuffix, hmem, rfl, hlow, hhigh⟩ := exists_block_of_stored E S hS i ao hr
  have he : e ∈ S.chain := hsuffix.subset mem_cons_self
  constructor
  · rintro ⟨e', -, hdeep, r', hr', hstored⟩
    -- the record tells the height of the block that made it
    have hsame : (stored r').nBlockHeight = (stored r).nBlockHeight := by
      rw [some.inj (hstored.symm.trans hr)]
    change r'.nBlockHeight = r.nBlockHeight at hsame
    have hheight : e'.pindex.nHeight = e.pindex.nHeight := by
      rw [← nBlockHeight_of_mem E _ _ _ hr', hsame, nBlockHeight_of_mem E _ _ _ hmem]
    refine ⟨e, he, hheight ▸ hdeep, ?_⟩
    rw [nAnonOutputs_of_suffix E S.chain rest e hS.counted hsuffix]
    exact hhigh
  · rintro ⟨e', he', hdeep, hle⟩
    obtain ⟨pre, rest', hsplit⟩ := append_of_mem he'
    have hsuffix' : e' :: rest' <:+ S.chain := ⟨pre, hsplit.symm⟩
    rw [nAnonOutputs_of_suffix E S.chain rest' e' hS.counted hsuffix'] at hle
    have hbelow : e.pindex.nHeight ≤ e'.pindex.nHeight := by
      rcases suffix_or_suffix_of_suffix hsuffix hsuffix' with h | h
      · rcases suffix_cons_iff.mp h with heq | h
        · rw [(cons.inj heq).1]
        · have hfall := (pairwise_cons.mp (hS.falling.sublist hsuffix'.sublist)).1 e
            (h.subset mem_cons_self)
          omega
      · rcases suffix_cons_iff.mp h with heq | h
        · rw [(cons.inj heq).1]
        -- a block above `e'` numbers its outputs after those of `e'`
        · have := length_chainRecords_le E rest (e' :: rest') h
          omega
    exact ⟨e, he, by omega, r, hmem, hr⟩

def ringMembers (db : CBlockTreeDB) (tx : CTransaction) : List Int :=
  (txRings E db tx).flatMap (·.indices)

lemma ringMembers_stored (db : CBlockTreeDB) (pool : CTxMemPool) (tx : CTransaction)
    (hne : tx.vin ≠ []) (h : verifyMLSAG E db pool tx = .ok ()) (i : Int)
    (hi : i ∈ ringMembers E db tx) :
    (db.rctOutput i).isSome := by
  obtain ⟨-, -, -, -, -, hverified, -, -⟩ := verifyMLSAG_rings E db pool tx () hne h
  obtain ⟨ring, hring, hi⟩ := mem_flatMap.mp hi
  have hmem := mem_map_of_mem (f := fun i => (db.rctOutput i).map (·.commitment)) hi
  rw [(hverified ring hring).stored] at hmem
  obtain ⟨c, -, hc⟩ := mem_map.mp hmem
  obtain ⟨r, hr, -⟩ := map_eq_some_iff.mp hc.symm
  exact isSome_iff_exists.mpr ⟨r, hr⟩

/-- For a block connected with its ring signatures verified, every ring member index refers to an
output of an earlier block of the same chain; it is `depth` deep exactly when some block that deep
had reached the index. -/
theorem ringMembers_mature_iff (steps : List ChainStep) (S T : ChainState)
    (hsteps : everyStep (fun S a => Plain a ∧ AtNextHeight S a) (chainStep E) .empty steps)
    (hrun : loop (chainStep E) .empty steps = .ok S) (a : ConnectStep)
    (hchecked : KeyImages.Checked a)
    (hheight : a.pindex.nHeight = nextHeight S.branch) (h : connectTip E S a = .ok T)
    (tx : CTransaction) (htx : tx ∈ a.block.vtx) (hanon : tx.anonInputs ≠ []) (depth : Int) :
    ∀ i ∈ ringMembers (withProcess E a.around.process) S.db tx,
      (Mature E S a.pindex.nHeight depth i ↔
        ∃ e ∈ S.chain, (e.pindex.nHeight : Int) ≤ a.pindex.nHeight - depth ∧
          i ≤ e.pindex.nAnonOutputs) ∧
      (depth ≤ 1 → Mature E S a.pindex.nHeight depth i) := by
  intro i hi
  have hS := run_before E steps S hsteps hrun
  obtain ⟨c, hc, -⟩ := (connectTip_ok_iff E S T a).mp h
  have hverify := KeyImages.connectBlock_verified _ _ _ rfl hchecked.1 hchecked.2 _ _ _
    hc tx htx hanon
  have hne : tx.vin ≠ [] := by
    intro hnil
    rw [CTransaction.anonInputs, hnil] at hanon
    exact hanon rfl
  have hstored := ringMembers_stored _ _ _ tx hne hverify i hi
  refine ⟨mature_iff E S hS a.pindex.nHeight depth i hstored, fun hdepth => ?_⟩
  obtain ⟨ao, hr⟩ := isSome_iff_exists.mp hstored
  obtain ⟨e, rest, r, hsuffix, hmem, rfl, -, -⟩ := exists_block_of_stored E S hS i ao hr
  have he : e ∈ S.chain := hsuffix.subset mem_cons_self
  have hlt := lt_nextHeight S.chain hS.falling e he
  rw [show nextHeight (S.chain.map (·.pindex)) = a.pindex.nHeight from hheight.symm] at hlt
  exact ⟨e, he, by omega, r, hmem, hr⟩

end

section

open ToyEnvironment KeyImages

def ringStep : ConnectStep := ringStepOf (ringTx 21)

lemma convertSteps_plain :
    everyStep (fun S a => Plain a ∧ AtNextHeight S a) (chainStep chainEnv) .empty convertSteps := by
  have hgenesis : ∀ tx ∈ genesisStep.block.vtx, PlainCoinBase tx := by decide
  have hconvert : ∀ tx ∈ convertStep.block.vtx, PlainCoinBase tx := by decide
  refine ⟨⟨hgenesis, rfl⟩, fun S hS => ⟨⟨hconvert, ?_⟩, fun _ _ => trivial⟩⟩
  obtain ⟨c, hc, rfl⟩ := (connectTip_ok_iff chainEnv .empty S genesisStep).mp hS
  have hheight := connectStep_nHeight chainEnv .empty genesisStep c hc
  show convertStep.pindex.nHeight = c.pindex.nHeight + 1
  rw [hheight]
  rfl

lemma ringTx_mem : ringTx 21 ∈ ringStep.block.vtx := mem_cons_of_mem _ mem_cons_self

lemma ringStep_connected :
    ∃ S T, loop (chainStep chainEnv) .empty convertSteps = .ok S ∧ connectTip chainEnv S ringStep =
      .ok T ∧ S.chain.map (·.pindex.nHeight) = [1, 0] ∧ nextHeight S.branch = 2 ∧
      ringMembers chainEnv S.db (ringTx 21) = [1, 2, 3] := by
  obtain ⟨⟨S, T⟩, hrun, hfacts⟩ := exists_ok_of_toOption
    (loop (chainStep chainEnv) .empty convertSteps >>= fun S =>
      connectTip chainEnv S ringStep >>= fun T => pure (S, T))
    (fun S : ChainState × ChainState => decide (S.1.chain.map (·.pindex.nHeight) = [1, 0] ∧
      nextHeight S.1.branch = 2 ∧ ringMembers chainEnv S.1.db (ringTx 21) = [1, 2, 3])) true
    (by decide +kernel)
  simp only [bind_ok_iff, pure_ok_iff, Prod.mk.injEq] at hrun
  obtain ⟨S', hS, T', hT, rfl, rfl⟩ := hrun
  exact ⟨S', T', hS, hT, of_decide_eq_true hfacts⟩

theorem ringMembers_mature_iff_depth_one :
    ∃ S T, loop (chainStep chainEnv) .empty convertSteps = .ok S ∧ connectTip chainEnv S ringStep =
      .ok T ∧ Mature chainEnv S 2 1 1 := by
  obtain ⟨S, T, hS, hT, -, hheight, hmembers⟩ := ringStep_connected
  refine ⟨S, T, hS, hT, (ringMembers_mature_iff chainEnv convertSteps S T convertSteps_plain
    hS ringStep ⟨rfl, fun _ => rfl⟩ hheight.symm hT (ringTx 21) ringTx_mem (by decide) 1 1
    ?_).2 (by decide)⟩
  show (1 : Int) ∈ ringMembers chainEnv S.db (ringTx 21)
  rw [hmembers]
  decide

/-- At the depth of 12 that the main network sets, the same block is connected and its ring is not
mature. -/
theorem young_ring_is_connected :
    ∃ S T, loop (chainStep chainEnv) .empty convertSteps = .ok S ∧ connectTip chainEnv S ringStep =
      .ok T ∧ ringTx 21 ∈ ringStep.block.vtx ∧ 1 ∈ ringMembers chainEnv S.db (ringTx 21) ∧
      ¬ Mature chainEnv S ringStep.pindex.nHeight 12 1 := by
  obtain ⟨S, T, hS, hT, hheights, -, hmembers⟩ := ringStep_connected
  refine ⟨S, T, hS, hT, ringTx_mem, by rw [hmembers]; decide, ?_⟩
  rintro ⟨e, he, hdeep, -⟩
  have hmem := mem_map_of_mem (f := fun e : ChainBlock => e.pindex.nHeight) he
  rw [show S.chain.map (fun e : ChainBlock => e.pindex.nHeight) = [1, 0] from hheights] at hmem
  have htwo : ringStep.pindex.nHeight = 2 := rfl
  rw [htwo] at hdeep
  omega

end

end RingMaturity
