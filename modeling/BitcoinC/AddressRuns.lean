import BitcoinC.AddressUndo
import BitcoinC.ColdStake

/-!
# The indexes along a chain

The records of a chain, computed from its blocks and their undo data, and the
indexes after any run of connections and disconnections.
-/

namespace AddressRuns

open Primitives Encoding Scripts Environment Verdicts TxVerify Coins Blocks ConnectBlock KeyedStore
  RingRecords ChainRun CoinUndo UndoBlock RingMaturity AddressIndex AddressRecords AddressUndo
  List Option

def pairUndo : List CTransaction → List CTxUndo → List (CTransaction × CTxUndo)
  | [], _ => []
  | tx :: txs, undos =>
    if tx.isCoinBase then (tx, ⟨[]⟩) :: pairUndo txs undos
    else (tx, undos.headD ⟨[]⟩) :: pairUndo txs undos.tail

lemma pairUndo_records (ys : List (CTransaction × CTxUndo)) (h : ∀ y ∈ ys, Recorded y) :
    pairUndo (ys.map Prod.fst) (ys.flatMap record) = ys := by
  induction ys with
  | nil => rfl
  | cons y ys ih =>
    rw [forall_mem_cons] at h
    obtain ⟨tx, undo⟩ := y
    rw [map_cons, flatMap_cons, record, pairUndo]
    by_cases hcb : tx.isCoinBase
    · obtain ⟨hnil, -, -⟩ := h.1.spent_cases.resolve_right fun hy => hy.1 hcb
      obtain rfl : undo = ⟨[]⟩ := congrArg CTxUndo.mk hnil
      rw [if_pos hcb, if_pos hcb, nil_append, ih h.2]
    · rw [if_neg hcb, if_neg hcb]
      show (tx, undo) :: pairUndo _ _ = _
      rw [singleton_append, tail_cons, ih h.2]

def transactions (e : ChainBlock) : List (CTransaction × CTxUndo) :=
  pairUndo e.block.vtx ((e.undo.map (·.vtxundo)).getD [])

section

variable (E : Env)
variable (Ps : List Pending) (nHeight : Nat) (e : ChainBlock) (chain : List ChainBlock)
  (S : IndexedState) (txhash : Uint256) (T : IndexedState) (i : Nat) (a : ConnectStep)
  (A : Surroundings)

def blockNotes (e : ChainBlock) : Pending :=
  gather ((transactions e).zipIdx.map (txNotes E.txHash e.pindex.nHeight))

def chainAddressRecords : List ChainBlock → List (CAddressIndexKey × Int)
  | [] => []
  | e :: rest => chainAddressRecords rest ++ (blockNotes E e).addressIndex

def chainSpentRecords : List ChainBlock → List (COutPoint × CSpentIndexValue)
  | [] => []
  | e :: rest => chainSpentRecords rest ++ (blockNotes E e).spentIndex

def blockSpends (b : CBlock) : List COutPoint := b.vtx.flatMap spentOutpoints

def chainSpends : List ChainBlock → List COutPoint
  | [] => []
  | e :: rest => chainSpends rest ++ blockSpends e.block

lemma gather_addressIndex : (gather Ps).addressIndex = Ps.flatMap (·.addressIndex) := by
  induction Ps with
  | nil => rfl
  | cons P Ps ih => rw [gather_cons, append_addressIndex, ih, flatMap_cons]

lemma gather_spentIndex : (gather Ps).spentIndex = Ps.flatMap (·.spentIndex) := by
  induction Ps with
  | nil => rfl
  | cons P Ps ih => rw [gather_cons, append_spentIndex, ih, flatMap_cons]

lemma map_filterMap_sublist {α β γ : Type} (r : α → Option β) (g : β → γ) (h : α → γ)
    (hr : ∀ a b, r a = some b → g b = h a) (xs : List α) :
    ((xs.filterMap r).map g).Sublist (xs.map h) := by
  induction xs with
  | nil => exact List.Sublist.slnil
  | cons x xs ih =>
    cases hx : r x with
    | none =>
      rw [filterMap_cons_none hx, map_cons]
      exact ih.cons _
    | some b =>
      rw [filterMap_cons_some hx, map_cons, map_cons, hr x b hx]
      exact ih.cons_cons _

def place (r : CAddressIndexKey × Int) : Nat × Bool × Nat := (r.1.txindex, r.1.spending, r.1.index)

lemma spendRecord_key (z : (CTxIn × Nat) × Coin) (r : CAddressIndexKey × Int)
    (h : spendRecord nHeight txhash i z = some r) :
    place r = (i, true, z.1.2) ∧ r.1.blockHeight = nHeight := by
  obtain ⟨info, -, rfl⟩ := map_eq_some_iff.mp h
  exact ⟨rfl, rfl⟩

lemma receiveRecord_key (x : CTxOutBase × Nat) (r : CAddressIndexKey × Int)
    (h : receiveRecord nHeight txhash i x = some r) :
    place r = (i, false, x.2) ∧ r.1.blockHeight = nHeight := by
  obtain ⟨y, -, rfl⟩ := map_eq_some_iff.mp h
  exact ⟨rfl, rfl⟩

lemma txNotes_places (z : (CTransaction × CTxUndo) × Nat) :
    ((txNotes E.txHash nHeight z).addressIndex.map place).Nodup ∧
      ∀ r ∈ (txNotes E.txHash nHeight z).addressIndex,
        (place r).1 = z.2 ∧ r.1.blockHeight = nHeight := by
  have hin := map_filterMap_sublist (spendRecord nHeight (E.txHash z.1.1) z.2) place
    (fun w => (z.2, true, w.1.2)) (fun w r h => (spendRecord_key _ _ _ w r h).1) (inputsOf z.1)
  have hout := map_filterMap_sublist (receiveRecord nHeight (E.txHash z.1.1) z.2) place
    (fun x => (z.2, false, x.2)) (fun x r h => (receiveRecord_key _ _ _ x r h).1) z.1.1.vpout.zipIdx
  have hpos : ((inputsOf z.1).map (·.1.2)).Nodup := by
    have hsub : ((inputsOf z.1).map Prod.fst).Sublist z.1.1.vin.zipIdx := by
      rw [inputsOf, zip_eq_zip_take_min, map_fst_zip (by simp)]
      exact take_sublist _ _
    have hsnd := hsub.map Prod.snd
    rw [List.map_map, List.zipIdx_map_snd] at hsnd
    exact List.Nodup.sublist hsnd nodup_range'
  refine ⟨?_, ?_⟩
  · rw [txNotes, map_append, nodup_append']
    refine ⟨List.Nodup.sublist hin ?_, List.Nodup.sublist hout ?_, ?_⟩
    · refine List.Nodup.of_map (fun p : Nat × Bool × Nat => p.2.2) ?_
      rw [List.map_map]
      exact hpos
    · refine List.Nodup.of_map (fun p : Nat × Bool × Nat => p.2.2) ?_
      rw [List.map_map]
      exact (zipIdx_map_snd 0 z.1.1.vpout).symm ▸ nodup_range'
    · intro p hp hp'
      obtain ⟨w, -, rfl⟩ := mem_map.mp (hin.subset hp)
      obtain ⟨x, -, hx⟩ := mem_map.mp (hout.subset hp')
      simp at hx
  · intro r hr
    rw [txNotes, mem_append, mem_filterMap, mem_filterMap] at hr
    rcases hr with ⟨w, -, hw⟩ | ⟨x, -, hx⟩
    · obtain ⟨hplace, hheight⟩ := spendRecord_key _ _ _ w r hw
      exact ⟨by rw [hplace], hheight⟩
    · obtain ⟨hplace, hheight⟩ := receiveRecord_key _ _ _ x r hx
      exact ⟨by rw [hplace], hheight⟩

lemma blockNotes_keys : ((blockNotes E e).addressIndex.map Prod.fst).Nodup ∧
      ∀ k ∈ (blockNotes E e).addressIndex.map Prod.fst, k.blockHeight = e.pindex.nHeight := by
  rw [blockNotes, gather_addressIndex, flatMap_map]
  refine ⟨?_, ?_⟩
  · refine List.Nodup.of_map (fun k : CAddressIndexKey => (k.txindex, k.spending, k.index)) ?_
    rw [List.map_map, List.map_flatMap, List.nodup_flatMap]
    refine ⟨fun z _ => (txNotes_places E _ z).1, ?_⟩
    have hidx : (transactions e).zipIdx.Pairwise fun z w => z.2 ≠ w.2 := by
      have := nodup_range' (s := 0) (n := (transactions e).length)
      rw [← zipIdx_map_snd 0 (transactions e)] at this
      exact pairwise_map.mp this
    refine hidx.imp fun {z w} hzw p hp hp' => hzw ?_
    obtain ⟨r, hr, rfl⟩ := mem_map.mp hp
    obtain ⟨r', hr', hsame⟩ := mem_map.mp hp'
    rw [← ((txNotes_places E _ z).2 r hr).1, ← ((txNotes_places E _ w).2 r' hr').1]
    exact (congrArg Prod.fst hsame).symm
  · intro k hk
    obtain ⟨r, hr, rfl⟩ := mem_map.mp hk
    obtain ⟨z, -, hz⟩ := mem_flatMap.mp hr
    exact ((txNotes_places E _ z).2 r hz).2

lemma chainAddressRecords_height :
    ∀ k ∈ (chainAddressRecords E chain).map Prod.fst, ∃ e ∈ chain,
      k.blockHeight = e.pindex.nHeight := by
  induction chain with
  | nil => simp [chainAddressRecords]
  | cons e rest ih =>
    intro k hk
    rw [chainAddressRecords, map_append, mem_append] at hk
    rcases hk with hk | hk
    · obtain ⟨e', he', hheight⟩ := ih k hk
      exact ⟨e', mem_cons_of_mem e he', hheight⟩
    · exact ⟨e, mem_cons_self, (blockNotes_keys E e).2 k hk⟩

lemma chainAddressRecords_nodup (h : Falling chain) :
    ((chainAddressRecords E chain).map Prod.fst).Nodup := by
  induction chain with
  | nil => exact nodup_nil
  | cons e rest ih =>
    obtain ⟨hbelow, hrest⟩ := pairwise_cons.mp h
    rw [chainAddressRecords, map_append, nodup_append']
    refine ⟨ih hrest, (blockNotes_keys E e).1, fun k hk hk' => ?_⟩
    obtain ⟨e', he', hheight⟩ := chainAddressRecords_height E rest k hk
    have := hbelow e' he'
    have := (blockNotes_keys E e).2 k hk'
    omega

/-- What connecting a block has made sure of for its transactions and undo data. -/
structure Written (e : ChainBlock) : Prop where
  paired : (transactions e).map Prod.fst = e.block.vtx
  accepted : ∀ y ∈ transactions e, Accepted E.txHash e.pindex.nHeight y
  spendable : ∀ y ∈ transactions e, ∀ o ∈ y.1.vpout, Spendable o
  sound : ∀ y ∈ transactions e, ∀ coin ∈ y.2.vprevout, Sound coin
  recorded : ∀ undo, e.undo = some undo → undo.vtxundo = (transactions e).flatMap record
  named : ∀ tx ∈ e.block.vtx, E.txHash tx ≠ 0

lemma txNotes_spent_keys (ys : List (CTransaction × CTxUndo)) (n : Nat)
    (hys : ∀ y ∈ ys, Recorded y) :
    ((gather ((ys.zipIdx n).map (txNotes E.txHash nHeight))).spentIndex.map Prod.fst).Sublist
      ((ys.map Prod.fst).flatMap spentOutpoints) := by
  induction ys generalizing n with
  | nil => exact List.Sublist.slnil
  | cons y ys ih =>
    rw [forall_mem_cons] at hys
    rw [zipIdx_cons, map_cons, gather_cons, append_spentIndex, map_append, map_cons, flatMap_cons]
    refine List.Sublist.append ?_ (ih (n + 1) hys.2)
    rw [← inputsOf_prevouts y hys.1]
    refine map_filterMap_sublist _ _ _ (fun z r h => ?_) _
    obtain ⟨info, -, rfl⟩ := map_eq_some_iff.mp h
    rfl

lemma blockNotes_spent_keys (he : Written E e) :
    ((blockNotes E e).spentIndex.map Prod.fst).Sublist (blockSpends e.block) := by
  rw [blockSpends, ← he.paired]
  exact txNotes_spent_keys E _ _ 0 fun y hy => (he.accepted y hy).toRecorded

lemma blockNotes_spent_value (he : Written E e) :
    ∀ r ∈ (blockNotes E e).spentIndex, r.2.isNull = false := by
  rw [blockNotes, gather_spentIndex]
  intro r hr
  obtain ⟨P, hP, hr⟩ := mem_flatMap.mp hr
  obtain ⟨z, hz, rfl⟩ := mem_map.mp hP
  obtain ⟨w, -, hw⟩ := mem_filterMap.mp hr
  obtain ⟨info, -, rfl⟩ := map_eq_some_iff.mp hw
  refine decide_eq_false (he.named _ ?_)
  rw [← he.paired]
  exact mem_map_of_mem (fst_mem_of_mem_zipIdx hz)

lemma chainSpentRecords_keys (h : ∀ e ∈ chain, Written E e) :
    ((chainSpentRecords E chain).map Prod.fst).Sublist (chainSpends chain) := by
  induction chain with
  | nil => exact List.Sublist.slnil
  | cons e rest ih =>
    rw [forall_mem_cons] at h
    rw [chainSpentRecords, chainSpends, map_append]
    exact (ih h.2).append (blockNotes_spent_keys E e h.1)

/-- The indexes of a chain: an entry for every classified coin, the receive and spend records, and
the classified inputs spent. -/
structure IndexesOf (S : IndexedState) : Prop where
  unspent : S.indexes.addressUnspentIndex = unspentEntries S.state.coins
  address : Holds (chainAddressRecords E S.state.chain) S.indexes.addressIndex
  spent : Holds (chainSpentRecords E S.state.chain) S.indexes.spentIndex

/-- The invariant of runs: exact indexes, and what undoing the blocks needs. -/
structure Tracked (S : IndexedState) : Prop extends IndexesOf E S where
  falling : Falling S.state.chain
  once : (chainSpends S.state.chain).Nodup
  coins : AllSound S.state.coins
  written : ∀ e ∈ S.state.chain, Written E e

/-- A block on top of the tip whose classified outputs are spendable, whose coins land on no unspent
coin and whose inputs were not spent before. No transaction has the null id, and a block whose undo
data is not written has coinbases only. -/
structure Regular (S : ChainState) (a : ConnectStep) : Prop where
  height : a.pindex.nHeight = nextHeight S.branch
  spendable : ∀ tx ∈ a.block.vtx, ∀ o ∈ tx.vpout, Spendable o
  fresh : NothingReplaced E.txHash a.pindex.nHeight S.coins a.block.vtx
  once : (chainSpends S.chain ++ blockSpends a.block).Nodup
  named : ∀ tx ∈ a.block.vtx, E.txHash tx ≠ 0
  genesis : E.blockHash a.block = E.hashGenesisBlock → ∀ tx ∈ a.block.vtx, tx.isCoinBase

def RegularStep (S : IndexedState) : ChainStep → Prop
  | .connect a => Regular E S.state a
  | .disconnect _ => True

lemma checkTransaction_valued (fBulletproofs : Bool) (tx : CTransaction) (fDup : Bool) (r : Unit)
    (h : checkTransaction E fBulletproofs tx fDup = .ok r) : ∀ o ∈ tx.vpout, Valued o := by
  intro o ho p hp
  obtain ⟨-, -, -, houts, -⟩ := checkTransaction_ok E _ _ _ _ h
  obtain ⟨-, -, fConvert, total, hloop⟩ := checkOutputs_ok E _ _ _ houts
  obtain rfl : o = .standard p := by
    cases o <;> simp_all [CTxOutBase.standard?]
  obtain ⟨m, m', hstep⟩ := loop_ok_mem _ _ _ _ hloop _ ho
  simp only [checkOutput, checkOutputBody, checkStandardOutput, checkValue, bind_ok_iff,
    rejectIf_ok_iff] at hstep
  obtain ⟨-, ⟨-, ⟨-, hneg, -⟩, -⟩, -⟩ := hstep
  omega

lemma connectTipIndexed_ok (h : connectTipIndexed E S a = .ok T) :
    ∃ c P, connectStep E S.state a = .ok c ∧
      T = ⟨⟨⟨a.block, c.pindex, c.undo⟩ :: S.state.chain, c.view.coins,
        flushConnected S.state.db c.view⟩, flushIndexes false S.indexes P⟩ ∧
      ∀ ys coins', ys.map Prod.fst = a.block.vtx → (∀ y ∈ ys, Recorded y) →
        Connects E.txHash a.pindex.nHeight S.state.coins ys coins' →
        P = gather (ys.zipIdx.map (txNotes E.txHash a.pindex.nHeight)) := by
  simp only [connectTipIndexed, connectBlockIndexed, bind_ok_iff, relabel_ok_iff, pure_ok_iff] at h
  obtain ⟨-, ⟨u, hbefore, s, hloop, v, hafter, rfl⟩, rfl⟩ := h
  refine ⟨_, s.2, ?_, rfl, ?_⟩
  · exact (connectBlock_ok_iff _ _ _ _ _ _).mpr ⟨hbefore, s.1, loop_carry_ok _ _ _ _ _ hloop,
      hafter, rfl⟩
  · intro ys coins' hmap hrec hconnects
    have hnotes := connectTxs_notes _ _ _ ys 0 hrec _ s coins' hconnects (hmap ▸ hloop)
    rw [hnotes]
    rfl

lemma connected_written (S : ChainState) (a : ConnectStep) (c : Connected)
    (hcoins : AllSound S.coins) (hregular : Regular E S a) (h : connectStep E S a = .ok c) :
    Written E ⟨a.block, c.pindex, c.undo⟩ ∧ c.pindex.nHeight = a.pindex.nHeight ∧
      Connects E.txHash a.pindex.nHeight S.coins (transactions ⟨a.block, c.pindex, c.undo⟩)
        c.view.coins ∧ AllSound c.view.coins := by
  have hheight := connectStep_nHeight E S a c h
  obtain ⟨ys, hmap, hconnects, hundo, hrecs⟩ := connectBlock_recorded _ _ _ rfl h
  obtain ⟨hbefore, -⟩ := (connectBlock_ok_iff _ _ _ _ _ _).mp h
  obtain ⟨-, hblock, -, -, -⟩ := checkBefore_ok _ _ _ _ _ () hbefore
  obtain ⟨-, hcheck⟩ := checkBlock_ok _ _ a.block () hblock
  have hpairs : transactions ⟨a.block, c.pindex, c.undo⟩ = ys := by
    have hrecord : (c.undo.map (·.vtxundo)).getD [] = ys.flatMap record := by
      rw [hundo]
      split
      · rename_i hgenesis
        have hnone : ∀ y ∈ ys, record y = [] := fun y hy =>
          if_pos (hregular.genesis hgenesis _ (hmap ▸ mem_map_of_mem hy))
        exact (flatMap_eq_nil_iff.mpr hnone).symm
      · rfl
    rw [transactions, hrecord, ← hmap]
    exact pairUndo_records ys fun y hy => (hrecs y hy).1
  have hmem : ∀ y ∈ ys, y.1 ∈ a.block.vtx := fun y hy => hmap ▸ mem_map_of_mem hy
  have haccepted : ∀ y ∈ ys, Accepted E.txHash a.pindex.nHeight y := fun y hy =>
    ⟨(hrecs y hy).1, (hrecs y hy).2, checkTransaction_valued _ _ _ _ _ (hcheck _ (hmem y hy))⟩
  obtain ⟨hsound, hspent⟩ := connects_sound E.txHash a.pindex.nHeight ys S.coins
    c.view.coins haccepted hcoins hconnects
  refine ⟨⟨?_, ?_, ?_, ?_, ?_, hregular.named⟩, hheight, ?_, hsound⟩
  · rw [hpairs, hmap]
  · rw [hpairs, hheight]
    exact haccepted
  · rw [hpairs]
    exact fun y hy => hregular.spendable _ (hmem y hy)
  · rw [hpairs]
    exact hspent
  · intro undo hsome
    rw [hpairs]
    change c.undo = some undo at hsome
    rw [hundo] at hsome
    split at hsome
    · cases hsome
    · rw [← some.inj hsome]
  · rw [hpairs]
    exact hconnects

lemma connectTipIndexed_tracked (hS : Tracked E S) (hregular : Regular E S.state a)
    (h : connectTipIndexed E S a = .ok T) : Tracked E T := by
  obtain ⟨c, P, hc, rfl, hnotes⟩ := connectTipIndexed_ok E S T a h
  obtain ⟨hwritten, hheight, hconnects, hsound⟩ :=
    connected_written E S.state a c hS.coins hregular hc
  have hP : P = blockNotes E ⟨a.block, c.pindex, c.undo⟩ := by
    rw [blockNotes, hheight]
    exact hnotes _ _ hwritten.paired (fun y hy => (hwritten.accepted y hy).toRecorded) hconnects
  have hfalling : Falling (⟨a.block, c.pindex, c.undo⟩ :: S.state.chain) := by
    refine pairwise_cons.mpr ⟨fun e he => ?_, hS.falling⟩
    show e.pindex.nHeight < c.pindex.nHeight
    rw [hheight, hregular.height]
    exact lt_nextHeight S.state.chain hS.falling e he
  have hall : ∀ e ∈ (⟨a.block, c.pindex, c.undo⟩ :: S.state.chain : List ChainBlock), Written E e :=
    forall_mem_cons.mpr ⟨hwritten, hS.written⟩
  have honce : (chainSpends (⟨a.block, c.pindex, c.undo⟩ :: S.state.chain)).Nodup := hregular.once
  subst hP
  refine ⟨⟨?_, ?_, ?_⟩, hfalling, honce, hsound, hall⟩
  · show updateAddressUnspentIndex S.indexes.addressUnspentIndex _ = unspentEntries c.view.coins
    rw [hS.unspent, blockNotes, hheight]
    refine connects_follow E.txHash a.pindex.nHeight _ 0 _ _ (hheight ▸ hwritten.accepted)
      hwritten.spendable hconnects ?_
    rw [hwritten.paired]
    exact hregular.fresh
  · exact hS.address.putAll (chainAddressRecords_nodup E _ hfalling)
  · show Holds _ (updateSpentIndex S.indexes.spentIndex _)
    rw [updateSpentIndex, updateAll_eq_putAll _ _ _ (blockNotes_spent_value E _ hwritten)]
    exact hS.spent.putAll (List.Nodup.sublist (chainSpentRecords_keys E _ hall) honce)

lemma disconnectTipIndexed_ok (hS : Tracked E S) (h : disconnectTipIndexed E S A = .ok T) :
    ∃ e rest, S.state.chain = e :: rest ∧ T.state.chain = rest ∧
      loop (undoCoins E.txHash e.pindex.nHeight) (S.state.coins, true) (transactions e).reverse =
        .ok (T.state.coins, true) ∧
      T.indexes.addressIndex = eraseAll S.indexes.addressIndex
        ((blockNotes E e).addressIndex.reverse.map Prod.fst) ∧
      T.indexes.spentIndex = eraseAll S.indexes.spentIndex (blockSpends e.block).reverse ∧
      T.indexes.addressUnspentIndex = unspentEntries T.state.coins := by
  unfold disconnectTipIndexed at h
  split at h
  · cases h
  rename_i e rest hchain
  simp only [disconnectBlockIndexed, bind_ok_iff, rejectIf_ok_iff, orReject_ok_iff,
    pure_ok_iff] at h
  obtain ⟨r, ⟨-, -, blockUndo, hsome, -, -, s, hloop, pprev, -, rfl⟩, -, hclean, rfl⟩ := h
  have hclean' : s.1.fClean = true := by simpa using hclean
  have hwritten : Written E e := hS.written e (hchain ▸ mem_cons_self)
  have hrecorded : ∀ y ∈ transactions e, Recorded y :=
    fun y hy => (hwritten.accepted y hy).toRecorded
  have hundo := hwritten.recorded blockUndo hsome
  rw [← hwritten.paired] at hloop
  obtain ⟨hplain, haddr, hspent, hfollow⟩ := undoTxsIndexed_notes (withProcess E A.process)
    S.state.db e.pindex blockUndo (transactions e) 0 hrecorded hwritten.spendable hwritten.sound
    S.indexes.addressUnspentIndex [] hundo _ s (by rw [hundo]; rfl) hloop
  obtain ⟨hcoins, -⟩ := undoTxs_coins S.state.db e.pindex (withProcess E A.process) blockUndo
    (transactions e) hrecorded [] hundo _ s.1 (by rw [hundo]; rfl) hplain
  refine ⟨e, rest, hchain, rfl, ?_, ?_, ?_, ?_⟩
  · rw [hclean'] at hcoins
    exact hcoins
  · show eraseAll S.indexes.addressIndex (s.2.addressIndex.map Prod.fst) = _
    rw [haddr]
    rfl
  · show updateSpentIndex S.indexes.spentIndex s.2.spentIndex = _
    rw [updateSpentIndex, updateAll_eq_eraseAll, hspent, hwritten.paired]
    · rw [List.nil_append, List.map_map]
      exact congrArg _ (map_id _)
    · rw [hspent]
      intro r hr
      obtain ⟨o, -, rfl⟩ := mem_map.mp hr
      rfl
  · exact hfollow (fun _ => hS.unspent) hclean'

lemma disconnectTipIndexed_tracked (hS : Tracked E S) (h : disconnectTipIndexed E S A = .ok T) :
    Tracked E T := by
  obtain ⟨e, rest, hchain, hrest, hcoins, haddr, hspent, hunspent⟩ :=
    disconnectTipIndexed_ok E S T A hS h
  have hfalling := hS.falling
  have honce := hS.once
  have hall := hS.written
  have haddress := hS.address
  have hspents := hS.spent
  rw [hchain] at hfalling honce hall haddress hspents
  rw [forall_mem_cons] at hall
  rw [chainSpends, nodup_append'] at honce
  refine ⟨⟨hunspent, ?_, ?_⟩, ?_, ?_, ?_, ?_⟩
  · rw [hrest, haddr]
    refine haddress.eraseAll (chainAddressRecords_nodup E _ hfalling) fun k => ?_
    simp only [map_reverse, mem_reverse]
  · rw [hrest, hspent]
    refine hspents.eraseAll_of_disjoint (fun k hk => ?_) fun k hk hk' => ?_
    · exact mem_reverse.mpr ((blockNotes_spent_keys E e hall.1).subset hk)
    · exact honce.2.2 ((chainSpentRecords_keys E rest hall.2).subset hk) (mem_reverse.mp hk')
  · rw [hrest]
    exact (pairwise_cons.mp hfalling).2
  · rw [hrest]
    exact honce.1
  · refine undoCoins_sound E.txHash e.pindex.nHeight _ _ _ (fun y hy => ?_) hS.coins hcoins
    have hy := mem_reverse.mp hy
    exact ⟨(hall.1.accepted y hy).nodup, hall.1.sound y hy⟩
  · rw [hrest]
    exact hall.2

lemma indexedStep_tracked (step : ChainStep) (hS : Tracked E S) (hregular : RegularStep E S step)
    (h : indexedStep E S step = .ok T) : Tracked E T := by
  cases step with
  | connect a => exact connectTipIndexed_tracked E S T a hS hregular h
  | disconnect A => exact disconnectTipIndexed_tracked E S T A hS h

lemma tracked_empty : Tracked E .empty where
  unspent := rfl
  address := holds_nil
  spent := holds_nil
  falling := List.Pairwise.nil
  once := nodup_nil
  coins := fun _ _ h => absurd h (some_ne_none _).symm
  written := fun _ h => absurd h not_mem_nil

/-- Connecting a block and disconnecting it leaves the address and spent indexes, and the unspent
index if it leaves the coins. -/
lemma indexes_restored (U : IndexedState) (a : ConnectStep) (A : Surroundings) (hS : Tracked E S)
    (hregular : Regular E S.state a) (hconnect : connectTipIndexed E S a = .ok T)
    (hdisconnect : disconnectTipIndexed E T A = .ok U) :
    U.indexes.addressIndex = S.indexes.addressIndex ∧ U.indexes.spentIndex = S.indexes.spentIndex ∧
      (BlockUndoable E.txHash a.pindex.nHeight S.state.coins a.block.vtx →
        U.indexes = S.indexes) := by
  have hT := connectTipIndexed_tracked E S T a hS hregular hconnect
  have hU := disconnectTipIndexed_tracked E T U A hT hdisconnect
  obtain ⟨c, P, hc, rfl, -⟩ := connectTipIndexed_ok E S T a hconnect
  obtain ⟨e, rest, hchain, hrest, hcoins, -, -, -⟩ := disconnectTipIndexed_ok E _ U A hT hdisconnect
  obtain ⟨rfl, rfl⟩ := cons.inj hchain
  have haddress : U.indexes.addressIndex = S.indexes.addressIndex :=
    Holds.unique (hrest ▸ hU.address) hS.address
  have hspent : U.indexes.spentIndex = S.indexes.spentIndex :=
    Holds.unique (hrest ▸ hU.spent) hS.spent
  refine ⟨haddress, hspent, fun hundoable => ?_⟩
  obtain ⟨hwritten, hheight, hconnects, -⟩ := connected_written E S.state a c hS.coins hregular hc
  rw [← hwritten.paired] at hundoable
  have hback := undoBlock_ok E.txHash a.pindex.nHeight _
    (fun y hy => hheight ▸ (hwritten.accepted y hy).nodup) S.state.coins c.view.coins true hconnects
    hundoable
  rw [hheight, hback, Except.ok.injEq, Prod.mk.injEq] at hcoins
  have hunspent : U.indexes.addressUnspentIndex = S.indexes.addressUnspentIndex := by
    rw [hU.unspent, hS.unspent, hcoins.1]
  cases hi : U.indexes
  cases hj : S.indexes
  rw [hi, hj] at haddress hspent hunspent
  congr

/-- After any run of regular blocks the indexes are those of the chain, and a block that comes off
cleanly leaves them as they were. -/
theorem indexes_follow_chain (steps : List ChainStep) (S : IndexedState)
    (hsteps : everyStep (RegularStep E) (indexedStep E) .empty steps)
    (hrun : loop (indexedStep E) .empty steps = .ok S) :
    IndexesOf E S ∧ ∀ a A T U, Regular E S.state a → indexedStep E S (.connect a) = .ok T →
      indexedStep E T (.disconnect A) = .ok U →
      U.indexes.addressIndex = S.indexes.addressIndex ∧
        U.indexes.spentIndex = S.indexes.spentIndex ∧
        (BlockUndoable E.txHash a.pindex.nHeight S.state.coins a.block.vtx →
          U.indexes = S.indexes) := by
  have hS : Tracked E S := everyStep_induction (indexedStep E) (RegularStep E) (Tracked E)
    (fun S T a hS hregular h => indexedStep_tracked E S T a hS hregular h) steps _ S
    (tracked_empty E) hsteps hrun
  refine ⟨hS.toIndexesOf, fun a A T U hregular hconnect hdisconnect => ?_⟩
  exact indexes_restored E S T U a A hS hregular hconnect hdisconnect

end

section

open ToyEnvironment ColdStake

/-- The records of a chain of two blocks, the second one taken off again. -/
theorem indexes_follow_short_chain : ∃ S T U : IndexedState,
      loop (indexedStep chainEnv) .empty [.connect genesisStep] = .ok S ∧
      Regular chainEnv S.state convertStep ∧
      indexedStep chainEnv S (.connect convertStep) = .ok T ∧
      indexedStep chainEnv T (.disconnect quiet) = .ok U ∧
      T.indexes.spentIndex ⟨genesisHash, 1⟩ =
        some ⟨chainEnv.txHash convertTx, 0, 1, 1000, .pubkeyAddress,
          hashAt (p2pkh (hash160 (keyBytes 3))) 3 23⟩ ∧
      IndexesOf chainEnv S ∧ U.indexes = S.indexes := by
  obtain ⟨⟨S, T, U⟩, hrun, hfacts⟩ := exists_ok_of_toOption
    (connectTipIndexed chainEnv .empty genesisStep >>= fun S =>
      connectTipIndexed chainEnv S convertStep >>= fun T =>
        disconnectTipIndexed chainEnv T quiet >>= fun U => pure (S, T, U))
    (fun x : IndexedState × IndexedState × IndexedState => decide
      ((convertStep.pindex.nHeight = nextHeight x.1.state.branch ∧
        NothingReplaced chainEnv.txHash convertStep.pindex.nHeight x.1.state.coins
          convertStep.block.vtx ∧
        (chainSpends x.1.state.chain ++ blockSpends convertStep.block).Nodup) ∧
      BlockUndoable chainEnv.txHash convertStep.pindex.nHeight x.1.state.coins
        convertStep.block.vtx ∧
      x.2.1.indexes.spentIndex ⟨genesisHash, 1⟩ = some ⟨chainEnv.txHash convertTx, 0, 1, 1000,
        .pubkeyAddress, hashAt (p2pkh (hash160 (keyBytes 3))) 3 23⟩)) true (by decide +kernel)
  simp only [bind_ok_iff, pure_ok_iff, Prod.mk.injEq] at hrun
  obtain ⟨S', hS, T', hT, U', hU, rfl, rfl, rfl⟩ := hrun
  obtain ⟨⟨hheight, hfresh, honce⟩, hundoable, hspent⟩ := of_decide_eq_true hfacts
  have hfirst : Regular chainEnv IndexedState.empty.state genesisStep :=
    ⟨by decide +kernel, by decide +kernel, by decide +kernel, by decide +kernel, by decide +kernel,
      by decide +kernel⟩
  have hsecond : Regular chainEnv S'.state convertStep :=
    ⟨hheight, by decide +kernel, hfresh, honce, by decide +kernel, by decide +kernel⟩
  have hloop : loop (indexedStep chainEnv) .empty [.connect genesisStep] = .ok S' := by
    rw [loop_cons_ok_iff]
    exact ⟨S', hS, rfl⟩
  obtain ⟨hindexes, hrestored⟩ := indexes_follow_chain chainEnv [.connect genesisStep] S'
    ⟨hfirst, fun _ _ => trivial⟩ hloop
  exact ⟨S', T', U', hloop, hsecond, hT, hU, hspent, hindexes,
    (hrestored convertStep quiet T' U' hsecond hT hU).2.2 hundoable⟩

def shortEnv : Env :=
  { chainEnv with hash256 := fun bs => BitVec.ofNat 256 (polyHash (bs.take 500)) }

def longScript : Bytes := coldScript ++ [OP_PUSHDATA2, 0x10, 0x27] ++ replicate 10000 0

def longTx : CTransaction :=
  { nVersion := 0xA0
    vin := [spendBy3 genesisHash 1]
    vpout := [feeOutput 5, .standard
      { nValue := 995
        scriptPubKey := longScript
        vecSignature := keyBytes 3 ++ replicate 32 0 }] }

def longStep : ConnectStep :=
  let b := mine shortEnv genesisEntry [stake genesisHash 0 1 [keyOutput 3 1005], longTx]
  ⟨quiet, b, indexOf shortEnv genesisEntry b⟩

/-- The address of a script is read up to `OP_ENDIF`, so that an output too long to be spent gets an
entry in the unspent index and no coin. -/
theorem unspendable_output_is_indexed :
    ∃ S, loop (indexedStep shortEnv) .empty [.connect genesisStep, .connect longStep] = .ok S ∧
      ∃ k v, S.indexes.addressUnspentIndex k = some v ∧
        S.state.coins ⟨k.txhash, k.index⟩ = none := by
  obtain ⟨S, hrun, hfacts⟩ := exists_ok_of_toOption
    (loop (indexedStep shortEnv) .empty [.connect genesisStep, .connect longStep])
    (fun S : IndexedState => decide
      ((S.indexes.addressUnspentIndex ⟨.pubkeyAddress256, 4, shortEnv.txHash longTx, 1⟩).isSome =
        true ∧ S.state.coins ⟨shortEnv.txHash longTx, 1⟩ = none)) true (by decide +kernel)
  obtain ⟨hentry, hcoin⟩ := of_decide_eq_true hfacts
  obtain ⟨v, hv⟩ := isSome_iff_exists.mp hentry
  exact ⟨S, hrun, _, v, hv, hcoin⟩

end

end AddressRuns
