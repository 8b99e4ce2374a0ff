import BitcoinC.CoinUndo
import BitcoinC.ToyEnvironment

/-!
# Disconnecting after connecting

`DisconnectBlock` on what `ConnectBlock` left, with the undo data it wrote.
-/

namespace UndoBlock

open Primitives Encoding Environment Verdicts TxVerify Anon Coins Kernel Blocks ConnectBlock
  DisconnectBlock KeyedStore LogIndex RingRecords CoinUndo List

section

variable (db : CBlockTreeDB) (pindex : CBlockIndex)
variable (txhash : Uint256) (txundo : CTxUndo) (fCoinBase : Bool)

/-- The RingCT outputs with keys `pks`, counted down from `n`, pass the check of the index: wherever
the count is 0 it starts again at the block's last number, and the record there has the key. -/
def Matched : (n : Int) → (pks : List CCmpPubKey) → Prop
  | _, [] => True
  | n, pk :: pks =>
    if n = 0 then (db.rctOutput pindex.nAnonOutputs).map linkKey = some pk ∧
      Matched (pindex.nAnonOutputs - 1) pks
    else Matched (n - 1) pks

/-- The check of the index lets the RingCT outputs with keys `pks` pass. -/
def Ready (pks : List CCmpPubKey) (view : CCoinsViewCache) : Prop :=
  view.fForceDisconnect = false → Matched db pindex view.nLastRCTOutput pks

lemma ready_cons_iff (pk : CCmpPubKey) (pks : List CCmpPubKey) (view : CCoinsViewCache) :
    Ready db pindex (comparedKey pk :: pks) view ↔
      ∃ view', checkLastOutput db pindex view pk = .ok view' ∧
        Ready db pindex pks (unindexOutput pk view') := by
  rw [Ready, Matched, checkLastOutput]
  by_cases hzero : view.nLastRCTOutput = 0
  · simp only [if_pos hzero, rejectIf_bind_ok_iff, pure_ok_iff]
    constructor
    · intro h
      exact ⟨_, ⟨fun hbad => hbad.2 (h hbad.1).1, rfl⟩, fun hforce => (h hforce).2⟩
    · rintro ⟨_, ⟨hgood, rfl⟩, h⟩ hforce
      exact ⟨not_not.mp fun hne => hgood ⟨hforce, hne⟩, h hforce⟩
  · simp only [if_neg hzero, Except.ok.injEq, exists_eq_left']
    rfl

/-- A count of at least as many outputs as are met does not come to 0. -/
lemma matched_of_le (n : Int) (pks : List CCmpPubKey) (h : (pks.length : Int) ≤ n) :
    Matched db pindex n pks := by
  induction pks generalizing n with
  | nil => trivial
  | cons pk pks ih =>
    rw [length_cons] at h
    rw [Matched, if_neg (by omega)]
    exact ih _ (by omega)

def newCoin (txid : Uint256) (nHeight : Nat) (fCoinBase : Bool) (x : CTxOutBase × Nat) :
    Option (COutPoint × Coin) :=
  (outputCoin txid nHeight fCoinBase x).filter spendable

lemma newCoins_eq (txid : Uint256) (tx : CTransaction) (nHeight : Nat) (hv : tx.isBitcoinCVersion) :
    newCoins txid tx nHeight =
      tx.vpout.zipIdx.filterMap (newCoin txid nHeight (isCoinBaseOrStake tx)) := by
  rw [newCoins, txCoins, if_pos hv, filter_filterMap]
  rfl

lemma undoOutput_coins (x : CTxOutBase × Nat) (s t : UndoState)
    (h : undoOutput db pindex txhash fCoinBase s x = .ok t) :
    (t.view.coins, t.fClean) = takeCoins (s.view.coins, s.fClean)
        (newCoin txhash pindex.nHeight fCoinBase x).toList ∧
      t.nVtxundo = s.nVtxundo := by
  obtain ⟨o, k⟩ := x
  cases o with
  | ringCT p =>
    simp only [undoOutput, bind_ok_iff, pure_ok_iff] at h
    obtain ⟨view, hview, rfl⟩ := h
    rw [checkLastOutput_ok db pindex _ _ _ hview]
    exact ⟨rfl, rfl⟩
  | data p =>
    rw [← Except.ok.inj h]
    exact ⟨rfl, rfl⟩
  | standard p =>
    simp only [undoOutput] at h
    split at h
    · rename_i hun
      have hnone : newCoin txhash pindex.nHeight fCoinBase (.standard p, k) = none := by
        simp [newCoin, outputCoin, CTxOutBase.standard?, spendable, hun]
      rw [← Except.ok.inj h, hnone]
      exact ⟨rfl, rfl⟩
    · rename_i hsp
      have hsome : newCoin txhash pindex.nHeight fCoinBase (.standard p, k) =
          some (⟨txhash, UInt32.ofNat k⟩,
            ⟨⟨p.nValue, p.scriptPubKey⟩, fCoinBase, pindex.nHeight, .standard⟩) := by
        simp [newCoin, outputCoin, CTxOutBase.standard?, spendable, hsp]
      rw [← Except.ok.inj h, hsome]
      refine ⟨?_, rfl⟩
      have hexpected : expectedCoin pindex fCoinBase p = fun coin => decide (core coin =
          core ⟨⟨p.nValue, p.scriptPubKey⟩, fCoinBase, pindex.nHeight, .standard⟩) := by
        funext coin
        simp only [expectedCoin, core, Prod.mk.injEq, Bool.decide_and, Bool.and_assoc]
      show (_, _) = (_, _)
      rw [← hexpected]

lemma undoOutputs_coins (xs : List (CTxOutBase × Nat)) (s t : UndoState)
    (h : loop (undoOutput db pindex txhash fCoinBase) s xs = .ok t) :
    (t.view.coins, t.fClean) = takeCoins (s.view.coins, s.fClean)
        (xs.filterMap (newCoin txhash pindex.nHeight fCoinBase)) ∧
      t.nVtxundo = s.nVtxundo := by
  induction xs generalizing s with
  | nil =>
    rw [loop_nil, Except.ok.injEq] at h
    subst h
    exact ⟨rfl, rfl⟩
  | cons x xs ih =>
    obtain ⟨m, hm, hrest⟩ := (loop_cons_ok_iff _ _ _ _ _).mp h
    obtain ⟨hfirst, hn⟩ := undoOutput_coins db pindex txhash fCoinBase x s m hm
    obtain ⟨hall, hn'⟩ := ih m hrest
    refine ⟨?_, hn'.trans hn⟩
    rw [hall, hfirst, takeCoins, takeCoins, takeCoins, ← foldl_append]
    cases hx : newCoin txhash pindex.nHeight fCoinBase x with
    | none => rw [filterMap_cons_none hx]; rfl
    | some y => rw [filterMap_cons_some hx]; rfl

lemma undoOutputs_ready_iff (xs : List (CTxOutBase × Nat)) (pks : List CCmpPubKey) (s : UndoState) :
    Ready db pindex (ringKeys xs ++ pks) s.view ↔
      ∃ t, loop (undoOutput db pindex txhash fCoinBase) s xs = .ok t ∧
        Ready db pindex pks t.view := by
  induction xs generalizing s with
  | nil => simp [ringKeys]
  | cons x xs ih =>
    simp only [loop_cons_ok_iff, ← exists_and_right]
    rw [exists_comm]
    simp only [and_assoc, exists_and_left, ← ih]
    obtain ⟨o, k⟩ := x
    cases o with
    | ringCT p =>
      show Ready db pindex (comparedKey p.pk :: (ringKeys xs ++ pks)) s.view ↔ _
      rw [ready_cons_iff]
      simp only [undoOutput, bind_ok_iff, pure_ok_iff]
      constructor
      · rintro ⟨view, hview, hready⟩
        exact ⟨_, ⟨view, hview, rfl⟩, hready⟩
      · rintro ⟨_, ⟨view, hview, rfl⟩, hready⟩
        exact ⟨view, hview, hready⟩
    | data p => simp [undoOutput, ringKeys, CTxOutBase.ringCT?]
    | standard p =>
      -- only the coins and the flag change
      show Ready db pindex (ringKeys xs ++ pks) s.view ↔ _
      simp only [undoOutput]
      split <;> simp [Ready]

/-- A transaction and the undo data that spending its inputs leaves. -/
structure Recorded (x : CTransaction × CTxUndo) : Prop where
  version : x.1.isBitcoinCVersion
  kind : ¬ x.1.isCoinBase →
    (∀ txin ∈ x.1.vin, txin.isAnonInput) ∨ ∀ txin ∈ x.1.vin, ¬ txin.isAnonInput
  length : x.2.vprevout.length = (spentOutpoints x.1).length
  keyImages : ∀ txin ∈ x.1.anonInputs, (anonKeyImages txin).isSome

lemma Recorded.spent_cases {x : CTransaction × CTxUndo} (hx : Recorded x) :
    (x.2.vprevout = [] ∧ spentOutpoints x.1 = [] ∧
        (x.1.isCoinBase ∨ ∀ txin ∈ x.1.vin, txin.isAnonInput)) ∨
      (¬ x.1.isCoinBase ∧ (∀ txin ∈ x.1.vin, ¬ txin.isAnonInput) ∧
        spentOutpoints x.1 = x.1.vin.map (·.prevout) ∧ x.2.vprevout.length = x.1.vin.length) := by
  have hlen := hx.length
  by_cases hcb : x.1.isCoinBase
  · have hnone : spentOutpoints x.1 = [] := if_pos hcb
    rw [hnone] at hlen
    exact Or.inl ⟨length_eq_zero_iff.mp hlen, hnone, Or.inl hcb⟩
  have hspent : spentOutpoints x.1 = standardPrevouts x.1.vin := if_neg hcb
  rcases hx.kind hcb with hanon | hstd
  · have hnone : spentOutpoints x.1 = [] := by
      rw [hspent, standardPrevouts, filter_eq_nil_iff.mpr, map_nil]
      intro txin hmem
      simpa using hanon txin hmem
    rw [hnone] at hlen
    exact Or.inl ⟨length_eq_zero_iff.mp hlen, hnone, Or.inr hanon⟩
  · have hall : spentOutpoints x.1 = x.1.vin.map (·.prevout) := by
      rw [hspent, standardPrevouts, filter_eq_self.mpr]
      intro txin hmem
      simpa using hstd txin hmem
    exact Or.inr ⟨hcb, hstd, hall, by rw [hlen, hall, length_map]⟩

def withCoins (s : UndoState) (r : CoinMap × Bool) : UndoState :=
  { s with view := { s.view with coins := r.1 }, fClean := r.2 }

def SameInput (txundo : CTxUndo) (x : CTxIn × Nat) (z : COutPoint × Coin) : Prop :=
  ¬ x.1.isAnonInput ∧ x.1.prevout = z.1 ∧ txundo.vprevout[x.2]? = some z.2

lemma restoreInput_loop (xs : List (CTxIn × Nat)) (zs : List (COutPoint × Coin))
    (h : List.Forall₂ (SameInput txundo) xs zs) (s : UndoState) : loop (restoreInput txundo) s xs =
      (loop restoreCoin (s.view.coins, s.fClean) zs >>= fun r => pure (withCoins s r)) := by
  induction h generalizing s with
  | nil => rfl
  | @cons x z xs zs hxz _ ih =>
    obtain ⟨hstd, hout, hundo⟩ := hxz
    rw [loop, loop, restoreInput, if_neg hstd, hundo, hout, restoreCoin]
    show (applyTxInUndo _ _ _ >>= fun r => _) >>=
      _ = ((applyTxInUndo _ _ _ >>= fun r => _) >>= _) >>= _
    cases applyTxInUndo s.view.coins z.2 z.1 with
    | error e => rfl
    | ok r => exact ih _

lemma restoreInput_anon (xs : List (CTxIn × Nat)) (s : UndoState) (h : ∀ x ∈ xs, x.1.isAnonInput) :
    loop (restoreInput txundo) s xs = .ok s := by
  induction xs with
  | nil => rfl
  | cons x xs ih =>
    rw [forall_mem_cons] at h
    rw [loop_cons_ok_iff]
    exact ⟨s, by rw [restoreInput, if_pos h.1], ih h.2⟩

lemma restoreInputs_eq (blockUndo : CBlockUndo) (x : CTransaction × CTxUndo) (s : UndoState)
    (n : Nat) (hx : Recorded x) (hcb : ¬ x.1.isCoinBase) (hn : s.nVtxundo = n + 1)
    (hundo : blockUndo.vtxundo[n]? = some x.2) : restoreInputs blockUndo s x.1 =
      (loop restoreCoin (s.view.coins, s.fClean)
          ((spentOutpoints x.1).zip x.2.vprevout).reverse >>=
        fun r => pure (withCoins { s with nVtxundo := n } r)) := by
  have hspent : spentOutpoints x.1 = standardPrevouts x.1.vin := if_neg hcb
  have hlen : x.2.vprevout.length = (x.1.vin.filter fun txin => ¬ txin.isAnonInput).length := by
    rw [hx.length, hspent, standardPrevouts, length_map]
  have hloop : restoreInputs blockUndo s x.1 =
      loop (restoreInput x.2) { s with nVtxundo := n } x.1.vin.zipIdx.reverse := by
    unfold restoreInputs
    rw [hn]
    dsimp only
    rw [hundo]
    show (rejectIf _ _ >>= fun _ => _) = _
    rw [rejectIf, if_neg (not_not.mpr hlen)]
    rfl
  rw [hloop]
  rcases hx.spent_cases with ⟨-, hnone, hkind⟩ | ⟨-, hstd, hall, hlen'⟩
  · rw [restoreInput_anon, hnone]
    · rfl
    · intro y hy
      exact hkind.resolve_left hcb _ (fst_mem_of_mem_zipIdx (mem_reverse.mp hy))
  · refine restoreInput_loop x.2 _ _ (rel_reverse ?_) _
    rw [hall]
    rw [forall₂_iff_get]
    refine ⟨by simp [hlen'], ?_⟩
    intro i h₁ h₂
    have hi : i < x.1.vin.length := by simpa using h₁
    refine ⟨?_, ?_, ?_⟩
    · simpa using hstd _ (getElem_mem hi)
    · simp
    · simp

/-- The keys of the RingCT outputs of a block, in the order in which `DisconnectBlock` meets
them. -/
def undoKeys (b : CBlock) : List CCmpPubKey :=
  b.vtx.reverse.flatMap fun tx => ringKeys tx.vpout.zipIdx.reverse

/-- The database gives the key back as an equal one. -/
def Readable (pk : CCmpPubKey) : Prop := keySize pk = 33 ∨ keyHeader pk = 0xFF

instance (pk : CCmpPubKey) : Decidable (Readable pk) := inferInstanceAs (Decidable (_ ∨ _))

lemma comparedKey_storedKey_iff (pk : CCmpPubKey) :
    comparedKey (storedKey pk) = comparedKey pk ↔ Readable pk := by
  unfold storedKey Readable
  by_cases hsize : keySize pk = 33
  · simp [hsize]
  · have hheader : keyHeader pk < 256 := Nat.mod_lt _ (by decide)
    have hlost : comparedKey 0xFF = 0xFF := by decide
    rw [if_neg hsize, hlost, comparedKey, if_neg hsize, or_iff_right hsize, eq_comm,
      BitVec.toNat_eq, BitVec.toNat_ofNat, Nat.mod_eq_of_lt (by omega)]
    rfl

variable (E : Env)

lemma undoTx_ready (blockUndo : CBlockUndo) (pks : List CCmpPubKey) (s t : UndoState)
    (tx : CTransaction) (h : undoTx E db pindex blockUndo s tx = .ok t)
    (ht : Ready db pindex pks t.view) :
    Ready db pindex (ringKeys tx.vpout.zipIdx.reverse ++ pks) s.view := by
  obtain ⟨m, hm, hframe⟩ := undoTx_outputs E db pindex blockUndo tx s t h
  rw [hframe] at ht
  have hready := (undoOutputs_ready_iff db pindex _ _ _ pks _).mpr ⟨m, hm, ht⟩
  exact hready

lemma undoTxs_ready (blockUndo : CBlockUndo) (txs : List CTransaction) (s t : UndoState)
    (h : loop (undoTx E db pindex blockUndo) s txs = .ok t) :
    Ready db pindex (txs.flatMap fun tx => ringKeys tx.vpout.zipIdx.reverse) s.view := by
  induction txs generalizing s with
  | nil => exact fun _ => trivial
  | cons tx txs ih =>
    obtain ⟨m, hm, hrest⟩ := (loop_cons_ok_iff _ _ _ _ _).mp h
    exact undoTx_ready db pindex E blockUndo _ s m tx hm (ih m hrest)

def record (x : CTransaction × CTxUndo) : List CTxUndo := if x.1.isCoinBase then [] else [x.2]

lemma length_records (xs : List (CTransaction × CTxUndo)) :
    (xs.flatMap record).length = ((xs.map Prod.fst).filter fun tx => ¬ tx.isCoinBase).length := by
  induction xs with
  | nil => rfl
  | cons x xs ih =>
    rw [flatMap_cons, length_append, ih, record, map_cons]
    by_cases hcb : x.1.isCoinBase
    · simp [hcb]
    · simp [hcb, Nat.add_comm 1]

lemma record_at {blockUndo : CBlockUndo} {pre post : List CTxUndo} {x : CTransaction × CTxUndo}
    (hundo : blockUndo.vtxundo = pre ++ (record x ++ post)) (hcb : ¬ x.1.isCoinBase) :
    blockUndo.vtxundo[pre.length]? = some x.2 := by
  rw [hundo, record, if_neg hcb]
  simp

section

variable {blockUndo : CBlockUndo} {x : CTransaction × CTxUndo} {pre post : List CTxUndo}
  {s : UndoState} (hx : Recorded x) (hundo : blockUndo.vtxundo = pre ++ (record x ++ post))
  (hn : s.nVtxundo = (pre ++ record x).length)

include hx hundo hn

lemma undoTx_coins (t : UndoState) (h : undoTx E db pindex blockUndo s x.1 = .ok t) :
    undoCoins E.txHash pindex.nHeight (s.view.coins, s.fClean) x = .ok (t.view.coins, t.fClean) ∧
      t.nVtxundo = pre.length := by
  simp only [undoTx, bind_ok_iff, relabel_ok_iff] at h
  obtain ⟨view, hview, m, hm, hrest⟩ := h
  obtain ⟨-, rfl⟩ := (pushKeyImages_loop_ok_iff _ _ _ _).mp hview
  obtain ⟨hcoins, hsame⟩ := undoOutputs_coins db pindex _ _ _ _ m hm
  rw [filterMap_reverse, ← newCoins_eq _ _ _ hx.version] at hcoins
  rw [undoCoins, ← hcoins]
  split at hrest
  · rename_i hcb
    obtain rfl := Except.ok.inj hrest
    rw [spentOutpoints, if_pos hcb]
    refine ⟨rfl, ?_⟩
    rw [hsame, show s.nVtxundo = _ from hn, record, if_pos hcb, append_nil]
  · rename_i hcb
    have hcount : m.nVtxundo = pre.length + 1 := by
      rw [hsame, show s.nVtxundo = _ from hn, record, if_neg hcb, length_append, length_singleton]
    rw [restoreInputs_eq blockUndo x m pre.length hx hcb hcount (record_at hundo hcb)] at hrest
    simp only [bind_ok_iff, pure_ok_iff] at hrest
    obtain ⟨r, hr, rfl⟩ := hrest
    exact ⟨hr, rfl⟩

/-- A transaction whose coins can be restored and whose RingCT outputs pass the check is undone. -/
lemma undoTx_accepted (pks : List CCmpPubKey) (r : CoinMap × Bool)
    (hready : Ready db pindex (ringKeys x.1.vpout.zipIdx.reverse ++ pks) s.view)
    (h : undoCoins E.txHash pindex.nHeight (s.view.coins, s.fClean) x = .ok r) :
    ∃ t, undoTx E db pindex blockUndo s x.1 = .ok t ∧ Ready db pindex pks t.view := by
  simp only [undoTx, bind_ok_iff, relabel_ok_iff]
  obtain ⟨view, hview⟩ : ∃ view, loop (pushKeyImages (E.txHash x.1)) s.view x.1.vin = .ok view :=
    ⟨_, (pushKeyImages_loop_ok_iff _ _ _ _).mpr ⟨fun txin hmem hanon =>
      hx.keyImages txin (mem_filter.mpr ⟨hmem, decide_eq_true hanon⟩), rfl⟩⟩
  have hframe := ((pushKeyImages_loop_ok_iff _ _ _ _).mp hview).2
  obtain ⟨m, hm, hlast⟩ := (undoOutputs_ready_iff db pindex (E.txHash x.1) (isCoinBaseOrStake x.1) _
    pks { s with view }).mp (by rw [hframe]; exact hready)
  obtain ⟨hcoins, hsame⟩ := undoOutputs_coins db pindex _ _ _ _ m hm
  have hstart : view.coins = s.view.coins := by rw [hframe]
  rw [filterMap_reverse, ← newCoins_eq _ _ _ hx.version, hstart] at hcoins
  rw [undoCoins, ← hcoins] at h
  by_cases hcb : x.1.isCoinBase
  · exact ⟨m, ⟨view, hview, m, hm, by rw [if_pos hcb]⟩, hlast⟩
  · have hcount : m.nVtxundo = pre.length + 1 := by
      rw [hsame, show s.nVtxundo = _ from hn, record, if_neg hcb, length_append, length_singleton]
    refine ⟨withCoins { m with nVtxundo := pre.length } r, ⟨view, hview, m, hm, ?_⟩, hlast⟩
    rw [if_neg hcb, restoreInputs_eq blockUndo x m pre.length hx hcb hcount (record_at hundo hcb),
      h]
    rfl

end

section

variable (blockUndo : CBlockUndo) (xs : List (CTransaction × CTxUndo)) (hxs : ∀ x ∈ xs, Recorded x)

include hxs

lemma undoTxs_coins (pre : List CTxUndo) (hundo : blockUndo.vtxundo = pre ++ xs.flatMap record)
    (s t : UndoState) (hn : s.nVtxundo = (pre ++ xs.flatMap record).length)
    (h : loop (undoTx E db pindex blockUndo) s (xs.map Prod.fst).reverse = .ok t) :
    loop (undoCoins E.txHash pindex.nHeight) (s.view.coins, s.fClean) xs.reverse =
        .ok (t.view.coins, t.fClean) ∧ t.nVtxundo = pre.length := by
  induction xs generalizing pre t with
  | nil =>
    obtain rfl := Except.ok.inj h
    exact ⟨rfl, by simpa using hn⟩
  | cons x xs ih =>
    rw [forall_mem_cons] at hxs
    rw [map_cons, reverse_cons, loop_append_ok_iff] at h
    rw [flatMap_cons] at hundo hn
    obtain ⟨m, hm, hlast⟩ := h
    obtain ⟨t', hstep, ht⟩ := (loop_cons_ok_iff _ _ _ _ _).mp hlast
    obtain rfl := Except.ok.inj ht
    obtain ⟨hlater, hcount⟩ := ih hxs.2 (pre ++ record x) (by rw [hundo, append_assoc]) m
      (by rw [hn, append_assoc]) hm
    obtain ⟨hfirst, hcount'⟩ := undoTx_coins db pindex E hxs.1 hundo hcount t' hstep
    rw [reverse_cons, loop_append_ok_iff]
    refine ⟨⟨_, hlater, ?_⟩, hcount'⟩
    rw [loop_cons_ok_iff]
    exact ⟨_, hfirst, rfl⟩

lemma undoTxs_accepted (pre : List CTxUndo)
    (hundo : blockUndo.vtxundo = pre ++ xs.flatMap record) (s : UndoState) (r : CoinMap × Bool)
    (hn : s.nVtxundo = (pre ++ xs.flatMap record).length) (pks : List CCmpPubKey)
    (hready : Ready db pindex
      ((xs.map Prod.fst).reverse.flatMap (fun tx => ringKeys tx.vpout.zipIdx.reverse) ++ pks)
        s.view)
    (h : loop (undoCoins E.txHash pindex.nHeight) (s.view.coins, s.fClean) xs.reverse = .ok r) :
    ∃ t, loop (undoTx E db pindex blockUndo) s (xs.map Prod.fst).reverse = .ok t ∧
      Ready db pindex pks t.view := by
  induction xs generalizing pre pks r with
  | nil => exact ⟨s, rfl, hready⟩
  | cons x xs ih =>
    rw [forall_mem_cons] at hxs
    rw [map_cons, reverse_cons, flatMap_append, flatMap_singleton, append_assoc] at hready
    rw [reverse_cons, loop_append_ok_iff] at h
    rw [flatMap_cons] at hundo hn
    obtain ⟨r', hlater, hlast⟩ := h
    obtain ⟨r'', hstep, hr⟩ := (loop_cons_ok_iff _ _ _ _ _).mp hlast
    have hundo' : blockUndo.vtxundo = pre ++ record x ++ xs.flatMap record := by
      rw [hundo, append_assoc]
    have hn' : s.nVtxundo = (pre ++ record x ++ xs.flatMap record).length := by
      rw [hn, append_assoc]
    obtain ⟨m, hm, hready'⟩ := ih hxs.2 _ hundo' r' hn' _ hready hlater
    obtain ⟨hcoins, hcount⟩ := undoTxs_coins db pindex E blockUndo xs hxs.2 _ hundo' s m hn' hm
    rw [hlater, Except.ok.injEq] at hcoins
    subst hcoins
    obtain ⟨t, ht, hlast⟩ := undoTx_accepted db pindex E hxs.1 hundo hcount pks r'' hready' hstep
    refine ⟨t, ?_, hlast⟩
    rw [map_cons, reverse_cons, loop_append_ok_iff]
    exact ⟨m, hm, by rw [loop_cons_ok_iff]; exact ⟨t, ht, rfl⟩⟩

end

end

section

variable (E : Env) (G : NodeState) (C : BlockContext)

lemma connectTx_recorded (s t : BlockState) (x : CTransaction × Nat) (fBulletproofs : Bool)
    (hcheck : checkTransaction E fBulletproofs x.1 true = .ok ())
    (h : connectTx E G C s x = .ok t) :
    ∃ undo, updateCoins (E.txHash x.1) s.view.coins x.1 C.pindex.nHeight =
        .ok (t.view.coins, undo) ∧
      t.vtxundo = s.vtxundo ++ record (x.1, undo) ∧ Recorded (x.1, undo) := by
  obtain ⟨undo, hupdate, hundo⟩ := connectTx_coins E G C s t x h
  obtain ⟨-, hspent, -, -⟩ := (updateCoins_ok_iff _ _ _ _ _ _).mp hupdate
  have hlen := congrArg length hspent
  rw [length_map, length_map] at hlen
  obtain ⟨m, hm, -⟩ := (connectTx_ok_iff E G C s t x).mp h
  refine ⟨undo, hupdate, hundo, (checkTransaction_ok E _ _ _ _ hcheck).2.2.1, ?_, hlen.symm,
    (connectTx_keyImages E G C s t x h).2⟩
  intro hcb
  obtain ⟨n, r, q, u, hr, -⟩ := applyTx_ok E G C s m x hcb hm
  exact ((checkTxInputs_ok_iff _ _ _ _).mp hr).2.2.2.2.1

lemma connectTxs_recorded (xs : List (CTransaction × Nat)) (fBulletproofs : Bool)
    (hcheck : ∀ x ∈ xs, checkTransaction E fBulletproofs x.1 true = .ok ()) (s t : BlockState)
    (h : loop (connectTx E G C) s xs = .ok t) :
    ∃ ys : List (CTransaction × CTxUndo), ys.map Prod.fst = xs.map Prod.fst ∧
      Connects E.txHash C.pindex.nHeight s.view.coins ys t.view.coins ∧
      t.vtxundo = s.vtxundo ++ ys.flatMap record ∧ ∀ y ∈ ys, Recorded y := by
  induction xs generalizing s with
  | nil =>
    obtain rfl := Except.ok.inj h
    exact ⟨[], rfl, rfl, by simp, by simp⟩
  | cons x xs ih =>
    rw [forall_mem_cons] at hcheck
    obtain ⟨m, hm, hrest⟩ := (loop_cons_ok_iff _ _ _ _ _).mp h
    obtain ⟨undo, hupdate, hundo, hrec⟩ := connectTx_recorded E G C s m x _ hcheck.1 hm
    obtain ⟨ys, hmap, hconnects, hundo', hrecs⟩ := ih hcheck.2 m hrest
    refine ⟨(x.1, undo) :: ys, ?_, ⟨_, hupdate, hconnects⟩, ?_, ?_⟩
    · rw [map_cons, map_cons, hmap]
    · rw [hundo', hundo, flatMap_cons, append_assoc]
    · rw [forall_mem_cons]
      exact ⟨hrec, hrecs⟩

section

variable {view : CCoinsViewCache} {b : CBlock} {c : Connected} (hjust : C.fJustCheck = false)
  (h : connectBlock E G C view b = .ok c)
variable {db' : CBlockTreeDB} {v : CCoinsViewCache}

include hjust h

lemma connectBlock_recorded : ∃ ys : List (CTransaction × CTxUndo), ys.map Prod.fst = b.vtx ∧
      Connects E.txHash C.pindex.nHeight view.coins ys c.view.coins ∧
      c.undo = (if E.blockHash b = E.hashGenesisBlock then none else some ⟨ys.flatMap record⟩) ∧
      ∀ y ∈ ys, Recorded y ∧
        ((newCoins (E.txHash y.1) y.1 C.pindex.nHeight).map Prod.fst).Nodup := by
  obtain ⟨hbefore, t, hloop, -, rfl⟩ := (connectBlock_ok_iff E G C view b c).mp h
  obtain ⟨-, hblock, -, -, -⟩ := checkBefore_ok E G C view b () hbefore
  obtain ⟨-, hcheck⟩ := checkBlock_ok E _ b () hblock
  obtain ⟨ys, hmap, hconnects, hundo, hrecs⟩ :=
    connectTxs_recorded E G C _ (fBulletproofsActive E b)
    (fun x hx => hcheck _ (fst_mem_of_mem_zipIdx hx)) _ t hloop
  rw [zipIdx_map_fst] at hmap
  rw [nil_append] at hundo
  rw [finish, if_neg (by simp [hjust])]
  refine ⟨ys, hmap, hconnects, by rw [← hundo], fun y hy => ⟨hrecs y hy, ?_⟩⟩
  have hlen := checkTransaction_length E _ _ _ _ (hcheck y.1 (hmap ▸ mem_map_of_mem hy))
  exact newCoins_nodup _ _ _ (hrecs y hy).version (by omega)

lemma connectBlock_index :
    c.pindex.nHeight = C.pindex.nHeight ∧ c.pindex.hashBlock = c.view.hashBlock ∧
      c.pindex.nAnonOutputs = c.view.nLastRCTOutput ∧
      (E.blockHash b ≠ E.hashGenesisBlock → ∃ pprev, C.branch.head? = some pprev ∧
        pprev.hashBlock = view.hashBlock) := by
  obtain ⟨hbefore, t, -, hafter, rfl⟩ := (connectBlock_ok_iff E G C view b c).mp h
  obtain ⟨-, -, -, hbest, -⟩ := checkBefore_ok E G C view b () hbefore
  have hstaked : (stakedIndex E C b).nHeight = C.pindex.nHeight ∧
      (stakedIndex E C b).hashBlock = C.pindex.hashBlock := by
    unfold stakedIndex
    split <;> exact ⟨rfl, rfl⟩
  rw [finish, if_neg (by simp [hjust])]
  refine ⟨hstaked.1, hstaked.2, rfl, ?_⟩
  intro hgenesis
  have hpprev : ∃ pprev, C.branch.head? = some pprev := by
    simp only [checkAfter, checkReward, bind_ok_iff, rejectIf_ok_iff] at hafter
    obtain ⟨-, -, hreward⟩ := hafter
    split at hreward
    · simp only [bind_ok_iff, orReject_ok_iff] at hreward
      obtain ⟨-, -, pprev, hpprev, -⟩ := hreward
      exact ⟨pprev, hpprev⟩
    · rw [rejectIf_ok_iff] at hreward
      exact absurd hgenesis hreward
  obtain ⟨pprev, hpprev⟩ := hpprev
  refine ⟨pprev, hpprev, ?_⟩
  obtain ⟨rest, hbranch⟩ := head?_eq_some_iff.mp hpprev
  rw [← hbest, hbranch]
  rfl

/-- The RingCT outputs of the block are numbered after those of the chain, outside `VerifyDB` and
for coinbases without such outputs. -/
structure Numbered (view : CCoinsViewCache) (b : CBlock) : Prop where
  verify : E.fVerifyingDB = false
  fresh : view.Fresh
  prev : 0 ≤ prevAnonOutputs C
  coinBase : ∀ tx ∈ b.vtx, PlainCoinBase tx

/-- A connected view still counts the outputs of the block. -/
lemma matched_of_counted (hnumbered : Numbered E C view b) :
    Matched db' c.pindex c.view.nLastRCTOutput (undoKeys b) := by
  obtain ⟨-, hcount⟩ := connectBlock_pending E G C hnumbered.verify hnumbered.prev hjust view
    hnumbered.fresh b hnumbered.coinBase c h
  obtain ⟨-, -, hsame, -⟩ := connectBlock_index E G C hjust h
  have hprev := hnumbered.prev
  refine matched_of_le db' c.pindex _ _ ?_
  rw [undoKeys, ringKeys_block E C.pindex.nHeight, ← hsame, hcount, length_reverse, length_map]
  omega

/-- After a flush the count starts at the record of the block's last output. -/
lemma matched_flushed_iff (hnumbered : Numbered E C view b) :
    Matched (flushConnected G.db c.view) c.pindex 0 (undoKeys b) ↔
      ∀ r ∈ (blockRecords E C.pindex.nHeight b).getLast?, Readable r.pubkey := by
  obtain ⟨hpending, hcount⟩ := connectBlock_pending E G C hnumbered.verify hnumbered.prev hjust view
    hnumbered.fresh b hnumbered.coinBase c h
  have hprev := hnumbered.prev
  rw [undoKeys, ringKeys_block E C.pindex.nHeight]
  cases hrs : (blockRecords E C.pindex.nHeight b).getLast? with
  | none =>
    rw [getLast?_eq_none_iff] at hrs
    simp [hrs, Matched]
  | some r =>
    have hstored : (flushConnected G.db c.view).rctOutput c.pindex.nAnonOutputs =
        some (stored r) := by
      rw [hcount]
      show putAll G.db.rctOutput (c.view.anonOutputs.map fun x => (x.1, stored x.2)) _ = _
      rw [hpending.outputs, numbered_map, ← length_map (f := stored)]
      exact putAll_numbered_last _ _ _ _ (by rw [getLast?_map, hrs]; rfl)
    obtain ⟨init, hinit⟩ := getLast?_eq_some_iff.mp hrs
    have hlen : (((init.map linkKey).reverse.length : Nat) : Int) ≤ c.pindex.nAnonOutputs - 1 := by
      rw [hcount, hinit, length_reverse, length_map, length_append, length_singleton]
      omega
    rw [hinit, map_append, reverse_append, map_singleton, reverse_singleton, singleton_append,
      Matched, if_pos rfl, hstored, Option.map_some, and_iff_left (matched_of_le _ _ _ _ hlen)]
    simp only [Option.some.injEq, Option.mem_def, forall_eq']
    exact comparedKey_storedKey_iff r.pubkey

/-- `DisconnectBlock` returns `DISCONNECT_OK` with the coins and the best block of `view`. -/
def Undone (db' : CBlockTreeDB) (view : CCoinsViewCache) (b : CBlock) (c : Connected)
    (v : CCoinsViewCache) : Prop :=
  ∃ r, disconnectBlock E db' c.pindex C.branch v b c.undo = .ok (r, true) ∧
    r.coins = view.coins ∧ r.hashBlock = view.hashBlock

/-- A block that is undone met the condition. -/
lemma undoable_of_undone (hundone : Undone E C db' view b c v) :
    E.blockHash b ≠ E.hashGenesisBlock ∧
      BlockUndoable E.txHash C.pindex.nHeight view.coins b.vtx ∧
      Ready db' c.pindex (undoKeys b) v := by
  obtain ⟨ys, hmap, hconnects, hundo, hrecs⟩ := connectBlock_recorded E G C hjust h
  obtain ⟨hheight, -, -, -⟩ := connectBlock_index E G C hjust h
  obtain ⟨r, hdisc, hcoins, -⟩ := hundone
  simp only [disconnectBlock, bind_ok_iff, orReject_ok_iff, pure_ok_iff, Prod.mk.injEq] at hdisc
  obtain ⟨-, -, blockUndo, hsome, -, -, s, hloop, pprev, -, rfl, hclean⟩ := hdisc
  rw [hsome] at hundo
  split at hundo
  · cases hundo
  · rename_i hgenesis
    obtain rfl := Option.some.inj hundo
    have hready := undoTxs_ready db' c.pindex E _ _ _ s hloop
    rw [← hmap] at hloop ⊢
    obtain ⟨hundone, -⟩ := undoTxs_coins db' c.pindex E _ ys (fun y hy => (hrecs y hy).1)
      [] rfl _ s rfl hloop
    rw [hheight, hclean] at hundone
    exact ⟨hgenesis, (undoBlock_inv E.txHash C.pindex.nHeight ys (fun y hy => (hrecs y hy).2)
      _ _ _ _ _ hconnects (congrArg cores hcoins) hundone).2, hready⟩

/-- A block that meets the condition is undone. -/
lemma undone_of_undoable (hsame : v.coins = c.view.coins) (hview : v.hashBlock = c.view.hashBlock)
    (hgenesis : E.blockHash b ≠ E.hashGenesisBlock)
    (hundoable : BlockUndoable E.txHash C.pindex.nHeight view.coins b.vtx)
    (hready : Ready db' c.pindex (undoKeys b) v) : Undone E C db' view b c v := by
  obtain ⟨ys, hmap, hconnects, hundo, hrecs⟩ := connectBlock_recorded E G C hjust h
  obtain ⟨hheight, hbest, -, hpprev⟩ := connectBlock_index E G C hjust h
  rw [if_neg hgenesis] at hundo
  rw [undoKeys, ← hmap] at hready
  rw [← hmap] at hundoable
  have hcoins := undoBlock_ok E.txHash C.pindex.nHeight ys (fun y hy => (hrecs y hy).2) view.coins
    c.view.coins true hconnects hundoable
  rw [← hsame, ← hheight] at hcoins
  obtain ⟨t, ht, -⟩ := undoTxs_accepted db' c.pindex E ⟨ys.flatMap record⟩ ys
    (fun y hy => (hrecs y hy).1) [] rfl ⟨v, true, (ys.flatMap record).length⟩ _ rfl []
    (by rw [append_nil]; exact hready) hcoins
  obtain ⟨hcoins', -⟩ := undoTxs_coins db' c.pindex E _ ys (fun y hy => (hrecs y hy).1)
    [] rfl _ t rfl ht
  rw [hcoins, Except.ok.injEq, Prod.mk.injEq] at hcoins'
  obtain ⟨pprev, hhead, hhash⟩ := hpprev hgenesis
  have hlen := length_records ys
  rw [hmap] at hlen
  refine ⟨{ t.view with hashBlock := pprev.hashBlock }, ?_, hcoins'.1.symm, hhash⟩
  simp only [disconnectBlock, bind_ok_iff, rejectIf_ok_iff, orReject_ok_iff, pure_ok_iff]
  refine ⟨(), ?_, ⟨ys.flatMap record⟩, hundo, (), ?_, t, ?_, pprev, hhead, ?_⟩
  · rw [hbest, hview]
    exact not_not.mpr rfl
  · exact fun hne => hne.2 hlen
  · rw [← hmap]
    exact ht
  · rw [← hcoins'.2]

/-- A disconnection from the coins of the connected view returns `DISCONNECT_OK` and the view before
the block exactly when the block is not the genesis block, every coin it spent is recoverable, none
that it created replaced another, and its RingCT outputs pass the check of the index. Where they are
numbered as they should be, they pass on the connected view, and after a flush exactly when the last
of their keys is read back as it was written. -/
theorem undone_iff_undoable (db' : CBlockTreeDB) (v : CCoinsViewCache)
    (hsame : v.coins = c.view.coins) (hview : v.hashBlock = c.view.hashBlock) :
    (Undone E C db' view b c v ↔ E.blockHash b ≠ E.hashGenesisBlock ∧
        BlockUndoable E.txHash C.pindex.nHeight view.coins b.vtx ∧
        Ready db' c.pindex (undoKeys b) v) ∧
      (Numbered E C view b →
        (v.nLastRCTOutput = c.view.nLastRCTOutput → Ready db' c.pindex (undoKeys b) v) ∧
        (v.nLastRCTOutput = 0 → v.fForceDisconnect = false → db' = flushConnected G.db c.view →
          (Ready db' c.pindex (undoKeys b) v ↔
            ∀ r ∈ (blockRecords E C.pindex.nHeight b).getLast?, Readable r.pubkey))) := by
  refine ⟨⟨undoable_of_undone E G C hjust h, fun ⟨hgenesis, hundoable, hready⟩ =>
    undone_of_undoable E G C hjust h hsame hview hgenesis hundoable hready⟩,
      fun hnumbered => ⟨?_, ?_⟩⟩
  · intro hcount _
    rw [hcount]
    exact matched_of_counted E G C hjust h hnumbered
  · rintro hzero hforce rfl
    rw [Ready, hzero, forall_prop_of_true hforce]
    exact matched_flushed_iff E G C hjust h hnumbered

end

end

open ToyEnvironment ChainRun

def flushed (c : Connected) : CCoinsViewCache :=
  { coins := c.view.coins, hashBlock := c.view.hashBlock }

theorem undone_iff_undoable_convert :
    ∃ S c, connectTip chainEnv .empty genesisStep = .ok S ∧ connectStep chainEnv S convertStep =
      .ok c ∧ (c.view.nLastRCTOutput, c.view.coins ⟨genesisHash, 0⟩) = (3, none) ∧
      Undone chainEnv (S.context convertStep) (flushConnected S.db c.view) S.view
        convertStep.block c (flushed c) := by
  obtain ⟨S, hS, hundoable⟩ := exists_ok_of_toOption (connectTip chainEnv .empty genesisStep)
    (fun S => ((connectStep chainEnv S convertStep).toOption.map fun c =>
        (c.view.nLastRCTOutput, c.view.coins ⟨genesisHash, 0⟩),
      decide (0 ≤ prevAnonOutputs (S.context convertStep)),
      decide (BlockUndoable chainEnv.txHash 1 S.coins convertStep.block.vtx)))
    (some (3, none), true, true) (by decide +kernel)
  simp only [Prod.mk.injEq, decide_eq_true_eq] at hundoable
  obtain ⟨hconnects, hprev, hundoable⟩ := hundoable
  obtain ⟨c, hc, hview⟩ := exists_ok_of_toOption _ _ _ hconnects
  have hnumbered : Numbered chainEnv (S.context convertStep) S.view convertStep.block :=
    ⟨rfl, view_fresh S, hprev, by decide +kernel⟩
  refine ⟨S, c, hS, hc, hview, ?_⟩
  obtain ⟨hiff, hindex⟩ := undone_iff_undoable chainEnv (S.node quiet)
    (S.context convertStep) rfl hc (flushConnected S.db c.view) (flushed c) rfl rfl
  have hlast : ∀ r ∈ (blockRecords chainEnv 1 convertStep.block).getLast?, Readable r.pubkey := by
    decide +kernel
  exact hiff.mpr ⟨by decide +kernel, hundoable, ((hindex hnumbered).2 rfl rfl rfl).mpr hlast⟩

def lastCoin : CoinMap := fun o =>
  if o = ⟨77, 0⟩ then some ⟨⟨1000, p2pkh (hash160 (keyBytes 3))⟩, true, 0, .standard⟩ else none

def lastView : CCoinsViewCache := { coins := lastCoin, hashBlock := 1 }

def lastBlock : CBlock := mine env genesisIndex [stake 77 0 1 [keyOutput 3 1000]]

def lastContext : BlockContext :=
  { branch := [genesisIndex], pindex := indexOf env genesisIndex lastBlock }

lemma accessFrom_of_none (coins : CoinMap) (txid : Uint256) (count n : Nat)
    (h : ∀ o, coins o = none) : accessFrom coins txid count n = none := by
  induction count generalizing n with
  | zero => rfl
  | succ count ih => rw [accessFrom, h, ih]

/-- Once that output is staked, nothing is left to read its metadata from. -/
theorem lastCoin_not_undone :
    ∃ c, connectBlock env (node [genesisIndex] lastCoin .empty) lastContext lastView lastBlock
      = .ok c ∧
      ¬ Undone env lastContext (flushConnected .empty c.view) lastView lastBlock c (flushed c) := by
  obtain ⟨c, hc, -⟩ := exists_ok_of_toOption
    (connectBlock env (node [genesisIndex] lastCoin .empty) lastContext lastView lastBlock)
    (fun c => c.pindex.nHeight) 1 (by decide +kernel)
  refine ⟨c, hc, fun hundone => ?_⟩
  obtain ⟨-, ⟨⟨⟨hspent, -⟩, -⟩, -⟩, -⟩ := undoable_of_undone env _ _ rfl hc hundone
  have hrecoverable : Recoverable (erase lastCoin ⟨77, 0⟩) ⟨77, 0⟩
      ⟨⟨1000, p2pkh (hash160 (keyBytes 3))⟩, true, 0, .standard⟩ := hspent _ rfl
  obtain ⟨alternate, haccess, -⟩ := hrecoverable.2 rfl
  have hnone : ∀ o, erase lastCoin ⟨77, 0⟩ o = none := by
    intro o
    unfold erase lastCoin
    split <;> rfl
  rw [accessByTxid, accessFrom_of_none _ _ _ _ hnone] at haccess
  cases haccess

end UndoBlock
