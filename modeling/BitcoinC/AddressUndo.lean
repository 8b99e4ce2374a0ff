import BitcoinC.AddressRecords

/-!
# What a disconnected block takes out of the indexes

As long as the undo is clean, the unspent index follows the coins back.
-/

namespace AddressUndo

open Primitives Scripts Environment Verdicts TxVerify Anon Coins DisconnectBlock KeyedStore
  RingRecords CoinUndo UndoBlock AddressIndex AddressRecords List


/-- As long as the undo is clean, the unspent index follows the coins. -/
def Following (u : CAddressUnspentKey → Option CAddressUnspentValue)
    (s : UndoState × Pending) : Prop :=
  s.1.fClean = true →
    updateAddressUnspentIndex u s.2.addressUnspentIndex = unspentEntries s.1.view.coins

section

variable (db : CBlockTreeDB) (pindex : CBlockIndex) (txhash : Uint256) (i : Nat)
variable (u : CAddressUnspentKey → Option CAddressUnspentValue) (txundo : CTxUndo)
  (fCoinBase : Bool)

lemma following_step (s t : UndoState × Pending)
    (batch : List (CAddressUnspentKey × CAddressUnspentValue)) (hs : Following u s)
    (hclean : t.1.fClean = true → s.1.fClean = true)
    (hbatch : t.2.addressUnspentIndex = s.2.addressUnspentIndex ++ batch)
    (hstep : t.1.fClean = true →
      updateAddressUnspentIndex (unspentEntries s.1.view.coins) batch =
        unspentEntries t.1.view.coins) : Following u t := by
  intro ht
  have hbefore := hs (hclean ht)
  have hafter := hstep ht
  rw [updateAddressUnspentIndex] at hbefore hafter ⊢
  rw [hbatch, updateAll_append, hbefore, hafter]

lemma undoOutputIndexed_notes (x : CTxOutBase × Nat) (hsp : Spendable x.1)
    (s t : UndoState × Pending) (h : undoOutputIndexed db pindex txhash i fCoinBase s x = .ok t) :
    t.2.addressIndex = s.2.addressIndex ++ (receiveRecord pindex.nHeight txhash i x).toList ∧
      t.2.spentIndex = s.2.spentIndex ∧ (Following u s → Following u t) := by
  obtain ⟨hstep, hnote⟩ := (carry_ok_iff _ _ _ _ _).mp h
  obtain ⟨hrec, hspent⟩ := unreceiveNotes_records pindex.nHeight txhash i x
  have hcoins := (undoOutput_coins db pindex txhash fCoinBase x s.1 t.1 hstep).1
  refine ⟨by rw [hnote, append_addressIndex, hrec], by
    rw [hnote, append_spentIndex, hspent, append_nil], fun hs => ?_⟩
  have hbatch := unreceiveEntry_eq pindex.nHeight txhash i fCoinBase x hsp
  cases hx : newCoin txhash pindex.nHeight fCoinBase x with
  | none =>
    rw [hx] at hcoins hbatch
    obtain ⟨hsame, hclean⟩ := Prod.mk.inj hcoins
    refine following_step u s t [] hs (fun ht => hclean ▸ ht) ?_ fun _ => ?_
    · rw [hnote, append_addressUnspentIndex, hbatch]
      rfl
    · rw [hsame]
      rfl
  | some y =>
    rw [hx] at hcoins hbatch
    obtain ⟨hsame, hclean⟩ := Prod.mk.inj hcoins
    have hboth : t.1.fClean = true → s.1.fClean = true ∧
        ∃ coin, s.1.view.coins y.1 = some coin ∧ core coin = core y.2 := by
      intro ht
      rw [hclean, Bool.and_eq_true, Option.any_eq_true] at ht
      obtain ⟨hc, coin, hcoin, hcore⟩ := ht
      exact ⟨hc, coin, hcoin, of_decide_eq_true hcore⟩
    refine following_step u s t (eraseEntry y.1 y.2) hs (fun ht => (hboth ht).1) ?_ fun ht => ?_
    · rw [hnote, append_addressUnspentIndex, hbatch]
      rfl
    · obtain ⟨-, coin, hcoin, hcore⟩ := hboth ht
      have hout : coin.out = y.2.out := (Prod.mk.inj hcore).1
      have hentry : eraseEntry y.1 y.2 = eraseEntry y.1 coin := by
        rw [eraseEntry, eraseEntry, hout]
      rw [hentry, unspentEntries_erase _ _ _ hcoin, hsame]

lemma undoOutputsIndexed_notes (xs : List (CTxOutBase × Nat)) (hsp : ∀ x ∈ xs, Spendable x.1)
    (s t : UndoState × Pending)
    (h : loop (undoOutputIndexed db pindex txhash i fCoinBase) s xs = .ok t) :
    t.2.addressIndex = s.2.addressIndex ++ xs.filterMap (receiveRecord pindex.nHeight txhash i) ∧
      t.2.spentIndex = s.2.spentIndex ∧ (Following u s → Following u t) := by
  induction xs generalizing s with
  | nil =>
    obtain rfl := Except.ok.inj h
    exact ⟨by simp, rfl, id⟩
  | cons x xs ih =>
    rw [forall_mem_cons] at hsp
    obtain ⟨m, hm, hrest⟩ := (loop_cons_ok_iff _ _ _ _ _).mp h
    obtain ⟨haddr, hspent, hfollow⟩ := undoOutputIndexed_notes db pindex txhash i u
      fCoinBase x hsp.1 s m hm
    obtain ⟨haddr', hspent', hfollow'⟩ := ih hsp.2 m hrest
    refine ⟨?_, hspent'.trans hspent, hfollow' ∘ hfollow⟩
    rw [haddr', haddr, filterMap_cons, append_assoc]
    cases receiveRecord pindex.nHeight txhash i x <;> rfl

/-- A restored coin has the script and value of its undo record; a clean undo puts it on nothing. -/
lemma restoreInput_coins (x : CTxIn × Nat) (undo : Coin) (s t : UndoState)
    (hstd : ¬ x.1.isAnonInput) (hundo : txundo.vprevout[x.2]? = some undo)
    (hsp : ¬ isUnspendable undo.out.scriptPubKey) (h : restoreInput txundo s x = .ok t) :
    ∃ coin : Coin, coin.out = undo.out ∧ t.view.coins = put s.view.coins x.1.prevout coin ∧
      (t.fClean = true → s.fClean = true ∧ s.view.coins x.1.prevout = none) := by
  rw [restoreInput, if_neg hstd, hundo] at h
  simp only [bind_ok_iff, orReject_ok_iff, pure_ok_iff, applyTxInUndo] at h
  obtain ⟨_, hsome, r, ⟨coin, hmeta, coins', hadd, rfl⟩, rfl⟩ := h
  obtain rfl := Option.some.inj hsome
  have hout : coin.out = undo.out := undoMetadata_out _ _ _ _ hmeta
  obtain ⟨-, hput⟩ := (addCoin_ok_iff _ _ _ (x.1.prevout, coin)
    (by simp [spendable, hout, hsp])).mp hadd
  refine ⟨coin, hout, hput, fun hclean => ?_⟩
  have hboth : s.fClean = true ∧ (s.view.coins x.1.prevout).isNone = true := by
    simpa using hclean
  exact ⟨hboth.1, Option.isNone_iff_eq_none.mp hboth.2⟩

lemma restoreInputsIndexed_loop (zs : List ((CTxIn × Nat) × Coin))
    (hzs : ∀ z ∈ zs, ¬ z.1.1.isAnonInput ∧ txundo.vprevout[z.1.2]? = some z.2 ∧ Sound z.2)
    (s t : UndoState × Pending)
    (h : loop (restoreInputIndexed pindex txhash i txundo) s (zs.map Prod.fst) = .ok t) :
    t.2.addressIndex = s.2.addressIndex ++ zs.filterMap (spendRecord pindex.nHeight txhash i) ∧
      t.2.spentIndex = s.2.spentIndex ++ zs.map (fun z => (z.1.1.prevout, .null)) ∧
      (Following u s → Following u t) := by
  induction zs generalizing s with
  | nil =>
    obtain rfl := Except.ok.inj h
    exact ⟨by simp, by simp, id⟩
  | cons z zs ih =>
    rw [forall_mem_cons] at hzs
    obtain ⟨⟨hstd, hundo, hsound⟩, hzs⟩ := hzs
    obtain ⟨m, hm, hrest⟩ := (loop_cons_ok_iff _ _ _ _ _).mp h
    obtain ⟨hstep, hnote⟩ := (carry_ok_iff _ _ _ _ _).mp hm
    obtain ⟨coin, hout, hcoins, hclean⟩ := restoreInput_coins txundo z.1 z.2 s.1 m.1 hstd hundo
      hsound.1 hstep
    rw [unspendNotes_eq _ _ _ _ _ coin z.2 hstd (by rw [hcoins, put_self]) hout] at hnote
    obtain ⟨haddr, hspent, hfollow⟩ := ih hzs m hrest
    refine ⟨?_, ?_, fun hs => hfollow ?_⟩
    · rw [haddr, hnote, append_addressIndex, filterMap_cons, append_assoc]
      cases spendRecord pindex.nHeight txhash i z <;> rfl
    · rw [hspent, hnote, append_spentIndex, map_cons, append_assoc]
      rfl
    · refine following_step u s m (writeEntry z.1.1.prevout coin) hs (fun ht => (hclean ht).1)
        (by rw [hnote]; rfl) fun ht => ?_
      rw [hcoins]
      exact unspentEntries_put _ _ _ (hclean ht).2 (hout ▸ hsound.2)

lemma restoreInputIndexed_anon (xs : List (CTxIn × Nat)) (s t : UndoState × Pending)
    (h : ∀ x ∈ xs, x.1.isAnonInput)
    (hloop : loop (restoreInputIndexed pindex txhash i txundo) s xs = .ok t) : t = s := by
  refine loop_induction _ (· = s) xs (fun m m' x hx hm hstep => ?_) s t rfl hloop
  subst hm
  obtain ⟨hplain, hnote⟩ := (carry_ok_iff _ _ _ _ _).mp hstep
  rw [restoreInput, if_pos (h x hx), Except.ok.injEq] at hplain
  rw [unspendNotes, if_pos (h x hx)] at hnote
  exact Prod.ext hplain.symm (hnote.trans (by simp [Pending.append]))

end

section

variable (E : Env) (db : CBlockTreeDB) (pindex : CBlockIndex) (blockUndo : CBlockUndo)

lemma restoreInputsIndexed_ok (s t : UndoState × Pending) (x : CTransaction × Nat)
    (h : restoreInputsIndexed E pindex blockUndo s x = .ok t) :
    ∃ n txundo, s.1.nVtxundo = n + 1 ∧ blockUndo.vtxundo[n]? = some txundo ∧
      loop (restoreInputIndexed pindex (E.txHash x.1) x.2 txundo) ({ s.1 with nVtxundo := n }, s.2)
        x.1.vin.zipIdx.reverse = .ok t ∧
      restoreInputs blockUndo s.1 x.1 = .ok t.1 := by
  unfold restoreInputsIndexed at h
  unfold restoreInputs
  cases hn : s.1.nVtxundo with
  | zero =>
    rw [hn] at h
    cases h
  | succ n =>
    rw [hn] at h
    simp only [bind_ok_iff, orReject_ok_iff, rejectIf_ok_iff] at h ⊢
    obtain ⟨txundo, hundo, -, hlen, hloop⟩ := h
    exact ⟨n, txundo, rfl, hundo, hloop, txundo, hundo, (), hlen, loop_carry_ok _ _ _ _ _ hloop⟩

section

variable {y : CTransaction × CTxUndo} {pre post : List CTxUndo} {s : UndoState × Pending}
  (hy : Recorded y) (hundo : blockUndo.vtxundo = pre ++ (record y ++ post))
  (hn : s.1.nVtxundo = (pre ++ record y).length) (hsound : ∀ coin ∈ y.2.vprevout, Sound coin)

include hy hundo hn hsound

lemma restored_notes (u : CAddressUnspentKey → Option CAddressUnspentValue) (i : Nat)
    (t : UndoState × Pending) (h : (if y.1.isCoinBase then .ok s
      else restoreInputsIndexed E pindex blockUndo s (y.1, i)) = .ok t) :
    (if y.1.isCoinBase then .ok s.1 else restoreInputs blockUndo s.1 y.1) = .ok t.1 ∧
      t.2.addressIndex = s.2.addressIndex ++
        (inputsOf y).reverse.filterMap (spendRecord pindex.nHeight (E.txHash y.1) i) ∧
      t.2.spentIndex = s.2.spentIndex ++ (spentOutpoints y.1).reverse.map (fun o => (o, .null)) ∧
      (Following u s → Following u t) := by
  by_cases hcb : y.1.isCoinBase
  · rw [if_pos hcb] at h ⊢
    obtain rfl := Except.ok.inj h
    obtain ⟨hnil, hnone, -⟩ := hy.spent_cases.resolve_right fun h => h.1 hcb
    rw [hnone, inputsOf, hnil, zip_nil_right]
    exact ⟨rfl, by simp, by simp, id⟩
  rw [if_neg hcb] at h ⊢
  obtain ⟨n, txundo, hn', htxundo, hloop, hrestore⟩ := restoreInputsIndexed_ok E pindex blockUndo
    _ _ _ h
  have hpos : n = pre.length := by
    rw [show s.1.nVtxundo = _ from hn, record, if_neg hcb, length_append, length_singleton] at hn'
    omega
  obtain rfl : y.2 = txundo := by
    rw [hpos, record_at hundo hcb] at htxundo
    exact Option.some.inj htxundo
  refine ⟨hrestore, ?_⟩
  rcases hy.spent_cases with ⟨hnil, hnone, hkind⟩ | ⟨-, hstd, -, hlen⟩
  · have hanon := hkind.resolve_left hcb
    have hsame := restoreInputIndexed_anon pindex (E.txHash y.1) i y.2 _ _ t
      (fun x hx => hanon _ (fst_mem_of_mem_zipIdx (mem_reverse.mp hx))) hloop
    rw [hsame, hnone, inputsOf, hnil, zip_nil_right]
    exact ⟨by simp, by simp, id⟩
  · obtain ⟨hfst, hinputs⟩ := inputsOf_standard y hlen hstd
    rw [← hfst, ← map_reverse] at hloop
    obtain ⟨haddr, hspent, hfollow⟩ := restoreInputsIndexed_loop pindex (E.txHash y.1) i u y.2
      (inputsOf y).reverse (fun z hz => by
        obtain ⟨hz₁, hz₂, hz₃⟩ := hinputs z (mem_reverse.mp hz)
        exact ⟨hz₁, hz₂, hsound _ hz₃⟩) _ t hloop
    refine ⟨haddr, ?_, hfollow⟩
    rw [hspent, ← inputsOf_prevouts y hy, ← map_reverse, map_map]
    rfl

/-- An undone transaction names its own records again, backwards, and every outpoint it spent. -/
lemma undoTxIndexed_notes (hsp : ∀ o ∈ y.1.vpout, Spendable o)
    (u : CAddressUnspentKey → Option CAddressUnspentValue) (i : Nat)
    (t : UndoState × Pending) (h : undoTxIndexed E db pindex blockUndo s (y.1, i) = .ok t) :
    undoTx E db pindex blockUndo s.1 y.1 = .ok t.1 ∧
      t.2.addressIndex = s.2.addressIndex ++
        (txNotes E.txHash pindex.nHeight (y, i)).addressIndex.reverse ∧
      t.2.spentIndex = s.2.spentIndex ++ (spentOutpoints y.1).reverse.map (fun o => (o, .null)) ∧
      (Following u s → Following u t) := by
  simp only [undoTxIndexed, bind_ok_iff, relabel_ok_iff] at h
  obtain ⟨view, hview, m, hm, hrest⟩ := h
  have hframe := ((pushKeyImages_loop_ok_iff _ _ _ _).mp hview).2
  have hstart : Following u s → Following u ({ s.1 with view }, s.2) := by
    intro hs hclean
    rw [hframe]
    exact hs hclean
  obtain ⟨haddr, hspent, hfollow⟩ := undoOutputsIndexed_notes db pindex (E.txHash y.1) i u _ _
    (fun x hx => hsp _ (fst_mem_of_mem_zipIdx (mem_reverse.mp hx))) _ m hm
  have hplain := loop_carry_ok _ _ _ _ _ hm
  have hcount := (undoOutputs_coins db pindex _ _ _ _ m.1 hplain).2
  obtain ⟨hrest', haddr', hspent', hfollow'⟩ := restored_notes E pindex blockUndo hy hundo
    (hcount.trans hn) hsound u i t hrest
  refine ⟨?_, ?_, by rw [hspent', hspent], hfollow' ∘ hfollow ∘ hstart⟩
  · simp only [undoTx, bind_ok_iff, relabel_ok_iff]
    exact ⟨view, hview, m.1, hplain, hrest'⟩
  · rw [haddr', haddr, txNotes]
    simp only [reverse_append, filterMap_reverse, append_assoc]

end

lemma undoTxsIndexed_notes (ys : List (CTransaction × CTxUndo)) (n : Nat)
    (hys : ∀ y ∈ ys, Recorded y) (hsp : ∀ y ∈ ys, ∀ o ∈ y.1.vpout, Spendable o)
    (hsound : ∀ y ∈ ys, ∀ coin ∈ y.2.vprevout, Sound coin)
    (u : CAddressUnspentKey → Option CAddressUnspentValue) (pre : List CTxUndo)
    (hundo : blockUndo.vtxundo = pre ++ ys.flatMap record) (s t : UndoState × Pending)
    (hn : s.1.nVtxundo = (pre ++ ys.flatMap record).length)
    (h : loop (undoTxIndexed E db pindex blockUndo) s ((ys.map Prod.fst).zipIdx n).reverse =
      .ok t) :
    loop (undoTx E db pindex blockUndo) s.1 (ys.map Prod.fst).reverse = .ok t.1 ∧
      t.2.addressIndex = s.2.addressIndex ++
        (gather ((ys.zipIdx n).map (txNotes E.txHash pindex.nHeight))).addressIndex.reverse ∧
      t.2.spentIndex = s.2.spentIndex ++
        ((ys.map Prod.fst).flatMap spentOutpoints).reverse.map (fun o => (o, .null)) ∧
      (Following u s → Following u t) := by
  induction ys generalizing pre n t with
  | nil =>
    obtain rfl := Except.ok.inj h
    exact ⟨rfl, by simp, by simp, id⟩
  | cons y ys ih =>
    rw [forall_mem_cons] at hys hsp hsound
    rw [map_cons, zipIdx_cons, reverse_cons, loop_append_ok_iff] at h
    rw [flatMap_cons] at hundo hn
    obtain ⟨m, hm, hlast⟩ := h
    obtain ⟨t', hstep, ht⟩ := (loop_cons_ok_iff _ _ _ _ _).mp hlast
    obtain rfl := Except.ok.inj ht
    have hundo' : blockUndo.vtxundo = pre ++ record y ++ ys.flatMap record := by
      rw [hundo, append_assoc]
    have hn' : s.1.nVtxundo = (pre ++ record y ++ ys.flatMap record).length := by
      rw [hn, append_assoc]
    obtain ⟨hplain, haddr, hspent, hfollow⟩ := ih (n + 1) hys.2 hsp.2 hsound.2 _ hundo' m hn' hm
    obtain ⟨-, hcount⟩ := undoTxs_coins db pindex E blockUndo ys hys.2 _ hundo' s.1 m.1 hn' hplain
    obtain ⟨hplain', haddr', hspent', hfollow'⟩ := undoTxIndexed_notes E db pindex blockUndo hys.1
      hundo hcount hsound.1 hsp.1 u n t' hstep
    refine ⟨?_, ?_, ?_, hfollow' ∘ hfollow⟩
    · rw [map_cons, reverse_cons, loop_append_ok_iff]
      exact ⟨m.1, hplain, by rw [loop_cons_ok_iff]; exact ⟨t'.1, hplain', rfl⟩⟩
    · rw [haddr', haddr, zipIdx_cons, map_cons, gather_cons, append_addressIndex,
        reverse_append, append_assoc]
    · rw [hspent', hspent, map_cons, flatMap_cons, reverse_append, map_append, append_assoc]

end

end AddressUndo
