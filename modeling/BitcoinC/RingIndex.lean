import BitcoinC.ToyEnvironment

/-!
# The RingCT index follows the chain

Along every run of connections and disconnections the database lists exactly the
RingCT outputs of the active chain, numbered consecutively, with links back from
their keys, and exactly its key images.
-/

namespace RingIndex

open Primitives Environment Verdicts Coins ConnectBlock DisconnectBlock KeyedStore LogIndex
  RingRecords ChainRun List

section

variable (E : Env)
variable (S T : ChainState) (a : ConnectStep) (A : Surroundings)

/-- Every block's count is that of the outputs up to it. -/
def Counted : List ChainBlock → Prop
  | [] => True
  | e :: rest =>
    e.pindex.nAnonOutputs = (chainRecords E (e :: rest)).length ∧ Counted rest

/-- The stored outputs are those of the chain, numbered from 1, as far as the database keeps
them. -/
structure OutputsIndexed (S : ChainState) : Prop where
  outputs : Holds (numbered 0 ((chainRecords E S.chain).map stored)) S.db.rctOutput
  apart : ∀ e ∈ S.chain, ((blockRecords E e.pindex.nHeight e.block).map linkKey).Nodup
  counted : Counted E S.chain

/-- With keys that are written whole, the links and the key images are those of the chain too. -/
structure Indexed (S : ChainState) : Prop extends OutputsIndexed E S where
  sized : ∀ r ∈ chainRecords E S.chain, keySize r.pubkey = 33
  linked : Linked CAnonOutput.pubkey (chainRecords E S.chain) S.db.rctOutputLink
  keyImages : Holds (chainKeyImages E S.chain) S.db.rctKeyImage
  distinct : ((chainKeyImages E S.chain).map Prod.fst).Nodup

/-- A connected block has no RingCT output in a coinbase and shows new, distinct key images. -/
def Allowed (S : ChainState) : ChainStep → Prop
  | .connect a =>
    (∀ tx ∈ a.block.vtx, PlainCoinBase tx) ∧
      ((chainKeyImages E S.chain ++ blockKeyImages E a.block).map Prod.fst).Nodup
  | .disconnect _ => True

/-- The keys of a connected block's RingCT outputs start with 2 or 3. -/
def Sized : ChainStep → Prop
  | .connect a => ∀ tx ∈ a.block.vtx, ∀ p ∈ tx.ringCTOutputs, keySize p.pk = 33
  | .disconnect _ => True

instance (S : ChainState) : (a : ChainStep) → Decidable (Allowed E S a)
  | .connect _ => inferInstanceAs (Decidable (_ ∧ _))
  | .disconnect _ => .isTrue trivial

instance : (a : ChainStep) → Decidable (Sized a)
  | .connect a => inferInstanceAs (Decidable (∀ tx ∈ a.block.vtx, _))
  | .disconnect _ => .isTrue trivial

lemma indexed_empty : Indexed E .empty where
  outputs := holds_nil
  apart e he := by cases he
  counted := trivial
  sized r hr := by cases hr
  linked := Linked.nil
  keyImages := holds_nil
  distinct := nodup_nil

lemma prevAnonOutputs_eq (h : Counted E S.chain) :
    prevAnonOutputs (S.context a) = (chainRecords E S.chain).length := by
  show (((S.chain.map (·.pindex)).head?).map (·.nAnonOutputs)).getD 0 = _
  cases hchain : S.chain with
  | nil => rfl
  | cons e rest =>
    rw [hchain] at h
    exact h.1

def Plain : ChainStep → Prop
  | .connect a => ∀ tx ∈ a.block.vtx, PlainCoinBase tx
  | .disconnect _ => True

lemma connectTip_pending (hS : Counted E S.chain) (ha : ∀ tx ∈ a.block.vtx, PlainCoinBase tx)
    (c : Connected) (hc : connectStep E S a = .ok c) :
    Pending (S.node a.around) (S.context a) (blockRecords E a.pindex.nHeight a.block) c.view ∧
      c.pindex.nAnonOutputs = (chainRecords E S.chain ++
        blockRecords E a.pindex.nHeight a.block).length := by
  have hprev := prevAnonOutputs_eq E S a hS
  obtain ⟨hpending, hcount⟩ := connectBlock_pending _ _ _ a.around.notVerifying
    (by rw [hprev]; exact Int.natCast_nonneg _) rfl S.view (view_fresh S) a.block ha c hc
  refine ⟨hpending, ?_⟩
  rw [hcount, hprev, length_append, Int.natCast_add]
  rfl

lemma chainRecords_connect (c : Connected) (hc : connectStep E S a = .ok c) :
    chainRecords E (⟨a.block, c.pindex, c.undo⟩ :: S.chain) =
      chainRecords E S.chain ++ blockRecords E a.pindex.nHeight a.block := by
  rw [chainRecords, connectStep_nHeight E S a c hc]

lemma connectTip_outputs (hS : OutputsIndexed E S) (ha : ∀ tx ∈ a.block.vtx, PlainCoinBase tx)
    (h : connectTip E S a = .ok T) : OutputsIndexed E T := by
  obtain ⟨c, hc, rfl⟩ := (connectTip_ok_iff E S T a).mp h
  obtain ⟨hpending, hcount⟩ := connectTip_pending E S a hS.counted ha c hc
  have hrecords := chainRecords_connect E S a c hc
  refine ⟨?_, ?_, ?_, hS.counted⟩
  · show Holds (numbered 0 ((chainRecords E (_ :: S.chain)).map stored))
      (putAll S.db.rctOutput (c.view.anonOutputs.map fun x => (x.1, stored x.2)))
    have hprev := prevAnonOutputs_eq E S a hS.counted
    rw [← length_map (f := stored)] at hprev
    rw [hrecords, map_append, hpending.outputs, numbered_map, hprev]
    exact holds_numbered_append hS.outputs
  · intro e he
    rcases mem_cons.mp he with rfl | he
    · show ((blockRecords E c.pindex.nHeight a.block).map linkKey).Nodup
      rw [connectStep_nHeight E S a c hc]
      exact hpending.nodup
    · exact hS.apart e he
  · show c.pindex.nAnonOutputs = _
    rw [hcount, hrecords]

/-- `DisconnectBlock` collects the links of the tip's outputs, last one first, and its key
images. -/
lemma disconnectBlock_tip (e : ChainBlock) (rest : List ChainBlock) (P : Process)
    (S : ChainState) (hS : OutputsIndexed E S) (hchain : S.chain = e :: rest)
    (view : CCoinsViewCache)
    (hdisc : disconnectBlock (withProcess E P) S.db e.pindex (rest.map (·.pindex)) S.view e.block
      e.undo = .ok (view, true)) :
    view.anonOutputLinks = (links linkKey (chainRecords E rest).length
        (blockRecords E e.pindex.nHeight e.block)).reverse ∧
      view.keyImages = e.block.vtx.reverse.flatMap (keyImageRecords E) := by
  obtain ⟨-, hapart, hcounted⟩ := hS
  rw [hchain] at hapart hcounted
  have hcount : e.pindex.nAnonOutputs =
      (chainRecords E rest).length + (blockRecords E e.pindex.nHeight e.block).length := by
    rw [hcounted.1, chainRecords, length_append, Int.natCast_add]
  obtain ⟨hlinks, hviewkis⟩ := disconnectBlock_records _ _ _ _ _ _ (view_fresh S) _ _ _
    e.pindex.nHeight (hapart e mem_cons_self) (by
      rw [hcount]
      have := Int.natCast_nonneg (chainRecords E rest).length
      exact Int.le_add_of_nonneg_left this) hdisc
  refine ⟨?_, hviewkis⟩
  rw [hlinks, hcount]
  exact downwards_reverse _ _ _

lemma disconnectTip_outputs (hS : OutputsIndexed E S) (h : disconnectTip E S A = .ok T) :
    OutputsIndexed E T := by
  obtain ⟨e, rest, view, hchain, hdisc, rfl⟩ := disconnectTip_ok E S T A h
  obtain ⟨hlinks, -⟩ := disconnectBlock_tip E e rest A.process S hS hchain view hdisc
  obtain ⟨houtputs, hapart, hcounted⟩ := hS
  rw [hchain] at houtputs hapart hcounted
  rw [chainRecords, map_append] at houtputs
  refine ⟨holds_numbered_truncate houtputs ?_, fun e' he' => hapart e' (mem_cons_of_mem e he'),
    hcounted.2⟩
  intro n
  rw [hlinks, map_reverse, mem_reverse, map_snd_links, length_map, ← numbered_map, map_map]
  rfl

lemma chainStep_outputs (a : ChainStep) (hS : OutputsIndexed E S) (ha : Plain a)
    (h : chainStep E S a = .ok T) : OutputsIndexed E T := by
  cases a with
  | connect a => exact connectTip_outputs E S T a hS ha h
  | disconnect A => exact disconnectTip_outputs E S T A hS h

lemma sized_blockRecords (nHeight : Nat) (b : CBlock)
    (h : ∀ tx ∈ b.vtx, ∀ p ∈ tx.ringCTOutputs, keySize p.pk = 33) :
    ∀ r ∈ blockRecords E nHeight b, keySize r.pubkey = 33 := by
  intro r hr
  obtain ⟨tx, htx, hr⟩ := mem_flatMap.mp hr
  obtain ⟨p, hp, hpk, -⟩ := mem_ringRecords E nHeight tx r hr
  rw [hpk]
  exact h tx htx p hp

/-- Keys that are written whole are linked as they are. -/
lemma links_of_sized (n : Int) (rs : List CAnonOutput) (h : ∀ r ∈ rs, keySize r.pubkey = 33) :
    (links linkKey n rs).map (fun x => (storedKey x.1, x.2)) = links CAnonOutput.pubkey n rs := by
  induction rs generalizing n with
  | nil => rfl
  | cons r rs ih =>
    rw [forall_mem_cons] at h
    rw [links_cons, links_cons, map_cons, ih _ h.2, linkKey, comparedKey_of_size h.1,
      storedKey_of_size h.1]

lemma connectTip_indexed (hS : Indexed E S) (ha : Allowed E S (.connect a))
    (hsized : Sized (.connect a)) (h : connectTip E S a = .ok T) : Indexed E T := by
  have houtputs := connectTip_outputs E S T a hS.toOutputsIndexed ha.1 h
  obtain ⟨hkis, hchain⟩ := connectTip_keyImages E S T a h
  obtain ⟨c, hc, rfl⟩ := (connectTip_ok_iff E S T a).mp h
  obtain ⟨hpending, -⟩ := connectTip_pending E S a hS.counted ha.1 c hc
  have hrecords := chainRecords_connect E S a c hc
  have hnew := sized_blockRecords E a.pindex.nHeight a.block hsized
  have hkeys : (blockRecords E a.pindex.nHeight a.block).map linkKey =
      (blockRecords E a.pindex.nHeight a.block).map CAnonOutput.pubkey :=
    map_congr_left fun r hr => comparedKey_of_size (hnew r hr)
  refine { houtputs with sized := ?_, linked := ?_, keyImages := ?_, distinct := ?_ }
  · show ∀ r ∈ chainRecords E (_ :: S.chain), _
    rw [hrecords, forall_mem_append]
    exact ⟨hS.sized, hnew⟩
  · show Linked _ (chainRecords E (_ :: S.chain)) (putAll S.db.rctOutputLink
      ((inKeyOrder c.view.anonOutputLinks).map fun x => (storedKey x.1, x.2)))
    rw [hrecords, hpending.linked, prevAnonOutputs_eq E S a hS.counted]
    have hfresh : ∀ r ∈ blockRecords E a.pindex.nHeight a.block,
        S.db.rctOutputLink r.pubkey = none := by
      intro r hr
      have hnone := hpending.fresh r hr
      rwa [storedKey_of_size (hnew r hr)] at hnone
    refine hS.linked.append (hS.linked.nodup_append (hkeys ▸ hpending.nodup) hfresh) ?_
    rw [← links_of_sized _ _ hnew]
    exact (perm_insertionSort _ _).map _
  · rw [hkis, hchain]
    exact hS.keyImages.putAll ha.2
  · rw [hchain]
    exact ha.2

lemma disconnectTip_indexed (hS : Indexed E S) (h : disconnectTip E S A = .ok T) : Indexed E T := by
  have houtputs := disconnectTip_outputs E S T A hS.toOutputsIndexed h
  obtain ⟨e, rest, view, hchain, hdisc, rfl⟩ := disconnectTip_ok E S T A h
  obtain ⟨hlinks, hviewkis⟩ := disconnectBlock_tip E e rest A.process S hS.toOutputsIndexed
    hchain view hdisc
  obtain ⟨-, hsized, hlinked, hkis, hdistinct⟩ := hS
  rw [hchain] at hsized hlinked hkis hdistinct
  rw [chainRecords] at hlinked
  rw [chainRecords, forall_mem_append] at hsized
  refine { houtputs with sized := hsized.1, linked := ?_, keyImages := ?_, distinct := ?_ }
  · refine hlinked.truncate fun pk => ?_
    show pk ∈ view.anonOutputLinks.map (fun x => storedKey x.1) ↔ _
    rw [hlinks, map_reverse, mem_reverse, ← map_fst_links CAnonOutput.pubkey
      (chainRecords E rest).length, ← links_of_sized _ _ hsized.2, map_map]
    rfl
  · refine hkis.eraseAll hdistinct ?_
    intro ki
    rw [hviewkis, blockKeyImages, mem_map, mem_map]
    constructor
    · rintro ⟨x, hx, rfl⟩
      obtain ⟨tx, htx, hx⟩ := mem_flatMap.mp hx
      exact ⟨x, mem_flatMap.mpr ⟨tx, mem_reverse.mp htx, hx⟩, rfl⟩
    · rintro ⟨x, hx, rfl⟩
      obtain ⟨tx, htx, hx⟩ := mem_flatMap.mp hx
      exact ⟨x, mem_flatMap.mpr ⟨tx, mem_reverse.mpr htx, hx⟩, rfl⟩
  · rw [chainKeyImages, map_append] at hdistinct
    exact hdistinct.of_append_left

/-- Connecting and disconnecting keep the index exact. -/
lemma chainStep_indexed (a : ChainStep) (hS : Indexed E S) (ha : Allowed E S a) (hsized : Sized a)
    (h : chainStep E S a = .ok T) : Indexed E T := by
  cases a with
  | connect a => exact connectTip_indexed E S T a hS ha hsized h
  | disconnect A => exact disconnectTip_indexed E S T A hS h

/-- What the claims of the index come to: the stored outputs are those of the active chain numbered
from 1 in chain order, the links are the inverse of that numbering, the stored key images are those
of the chain under their transactions, and the tip counts the outputs. -/
structure Exact (T : ChainState) : Prop where
  outputs : ∀ n r, T.db.rctOutput n = some r ↔ (n, r) ∈ numbered 0 (chainRecords E T.chain)
  links : ∀ pk n, T.db.rctOutputLink pk = some n ↔ ∃ r, T.db.rctOutput n = some r ∧ r.pubkey = pk
  keyImages : ∀ ki txid, T.db.rctKeyImage ki = some txid ↔ (ki, txid) ∈ chainKeyImages E T.chain
  counted : ∀ tip ∈ T.branch.head?, tip.nAnonOutputs = (chainRecords E T.chain).length

end

open ToyEnvironment

def convertSteps : List ChainStep := [.connect genesisStep, .connect convertStep]

def ringStepOf (tx : CTransaction) : ConnectStep :=
  stepOn convertStep.pindex [stake genesisHash 2 2 [keyOutput 3 1005], tx]

/-- The third block is connected, disconnected and replaced by another one. -/
def reorgSteps : List ChainStep :=
  convertSteps ++ [.connect (ringStepOf (ringTx 21)), .disconnect quiet,
    .connect (ringStepOf (ringTx 22))]

/-- A transaction whose output key has a header without size. -/
def lostKeyTx : CTransaction := { ringTx 21 with vpout := [feeOutput 5, ringOutput 21 95 false] }

def lostKeySteps : List ChainStep := convertSteps ++ [.connect (ringStepOf lostKeyTx)]

end RingIndex
