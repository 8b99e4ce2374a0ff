import BitcoinC.CoinsDatabase
import BitcoinC.ToyEnvironment

/-!
# Replaying blocks after a crash

`CChainState::ReplayBlocks` and `RollforwardBlock`, on a database that a crash
left in the middle of a flush.
-/

namespace ReplayBlocks

open Primitives Environment Verdicts TxVerify Anon Coins ConnectBlock DisconnectBlock RingRecords
  ChainRun KeyedStore RedoLog CoinsDatabase
open CoinsCache (CCoinsMap backingEntry isSpent)

def tipHash : List ChainBlock → Uint256
  | [] => 0
  | e :: _ => e.pindex.hashBlock

/-- The output numbers of the transactions stay below the anon marker. -/
def Fits (e : ChainBlock) : Prop :=
  ∀ tx ∈ e.block.vtx, tx.isBitcoinCVersion ∧ tx.vpout.length ≤ COutPoint.ANON_MARKER.toNat

/-- `mapBlockIndex` with the blocks and undo data on disk: a hash leads to the block and its
ancestors. -/
structure BlockTree where
  lookup : Uint256 → Option (List ChainBlock)
  entry : ∀ hash branch, lookup hash = some branch →
    ∃ e rest, branch = e :: rest ∧ e.pindex.hashBlock = hash ∧ e.pindex.nHeight = rest.length ∧
      (rest = [] ∨ lookup (tipHash rest) = some rest) ∧ Fits e
  notNull : lookup 0 = none

def ancestorAt (branch : List ChainBlock) (nHeight : Nat) : List ChainBlock :=
  branch.dropWhile fun e => e.pindex.nHeight ≠ nHeight

def heightOf : List ChainBlock → Nat
  | [] => 0
  | e :: _ => e.pindex.nHeight

def meet : List ChainBlock → List ChainBlock → List ChainBlock
  | a :: as, b :: bs => if a.pindex.hashBlock = b.pindex.hashBlock then a :: as else meet as bs
  | _, _ => []

def lastCommonAncestor (pa pb : List ChainBlock) : List ChainBlock :=
  if heightOf pa > heightOf pb then meet (ancestorAt pa (heightOf pb)) pb
  else if heightOf pb > heightOf pa then meet pa (ancestorAt pb (heightOf pa))
  else meet pa pb

section

variable (E : Env) (rct : CBlockTreeDB)

def addCoinsChecked (txid : Uint256) (coins : CoinMap) (tx : CTransaction) (nHeight : Nat) :
    Verdict CoinMap :=
  loop (fun coins x => addCoin (coins x.1).isSome coins x) coins (txCoins txid tx nHeight)

def rollforwardTx (nHeight : Nat) (coins : CoinMap) (tx : CTransaction) : Verdict CoinMap :=
  let spent := if tx.isCoinBase then coins else eraseAll coins (tx.vin.map (·.prevout))
  addCoinsChecked (E.txHash tx) spent tx nHeight

def rollforwardBlock (coins : CoinMap) (e : ChainBlock) : Verdict CoinMap :=
  loop (rollforwardTx E e.pindex.nHeight) coins e.block.vtx

def rollback (fork : List ChainBlock) : CCoinsViewCache → List ChainBlock → Verdict CCoinsViewCache
  | view, [] => if fork = [] then .ok view else .error (.throws "ReplayBlocks: pindexOld")
  | view, e :: rest =>
    if e.pindex.hashBlock = tipHash fork then .ok view
    else if e.pindex.nHeight > 0 then do
      let r ← disconnectBlock E rct e.pindex (rest.map (·.pindex)) view e.block e.undo
      rollback fork r.1 rest
    else rollback fork view rest

def rollforwardAt (new : List ChainBlock) (coins : CoinMap) (nHeight : Nat) : Verdict CoinMap := do
  let e ← orReject (ancestorAt new nHeight).head? (.throws "ReplayBlocks: GetAncestor")
  rollforwardBlock E coins e

def forkFrom (tree : BlockTree) (new : List ChainBlock) (hashOld : Uint256) :
    Verdict (List ChainBlock × List ChainBlock) :=
  if hashOld = 0 then .ok ([], [])
  else do
    let old ← orReject (tree.lookup hashOld)
      (.error "ReplayBlocks(): reorganization from unknown block requested")
    let fork := lastCommonAncestor old new
    rejectIf (fork = []) (.throws "ReplayBlocks: pindexFork")
    pure (old, fork)

def flushCache (db : CCoinsViewDB) (coins : CoinMap) (hashBlock : Uint256) :
    Verdict CCoinsViewDB := do
  rejectIf (hashBlock = 0) (.throws "BatchWrite: hashBlock")
  let _ ← oldTip db hashBlock
  pure ⟨coins, some hashBlock, none⟩

def replayBlocks (tree : BlockTree) (db : CCoinsViewDB) : Verdict CCoinsViewDB :=
  match getHeadBlocks db with
  | [] => .ok db
  | [hashNew, hashOld] => do
    let new ← orReject (tree.lookup hashNew)
      (.error "ReplayBlocks(): reorganization to unknown block requested")
    let r ← forkFrom tree new hashOld
    let view ← rollback E rct r.2 { coins := db.coins, hashBlock := getBestBlock db } r.1
    let nForkHeight := heightOf r.2
    let coins ← loop (rollforwardAt E new) view.coins
      (List.range' (nForkHeight + 1) (heightOf new - nForkHeight))
    flushCache db coins hashNew
  | _ => .error (.error "ReplayBlocks(): unknown inconsistent state")

def txLog (nHeight : Nat) (tx : CTransaction) : List (COutPoint × Option Coin) :=
  ((if tx.isCoinBase then [] else tx.vin.map (·.prevout)).map fun o => (o, none)) ++
    (newCoins (E.txHash tx) tx nHeight).map fun x => (x.1, some x.2)

def blockLog (e : ChainBlock) : List (COutPoint × Option Coin) :=
  e.block.vtx.flatMap (txLog E e.pindex.nHeight)

lemma addCoinsChecked_eq (txid : Uint256) (coins : CoinMap) (tx : CTransaction) (nHeight : Nat) :
    addCoinsChecked txid coins tx nHeight = .ok (putAll coins (newCoins txid tx nHeight)) := by
  unfold addCoinsChecked newCoins
  induction txCoins txid tx nHeight generalizing coins with
  | nil => rfl
  | cons x xs ih =>
    by_cases hx : spendable x
    · have hadd : addCoin (coins x.1).isSome coins x = .ok (put coins x.1 x.2) := by
        rw [addCoin_ok_iff _ _ _ x hx]
        refine ⟨?_, rfl⟩
        cases coins x.1 with
        | none => exact Or.inr rfl
        | some coin => exact Or.inl rfl
      rw [List.filter_cons_of_pos hx, putAll_cons, loop, hadd]
      exact ih _
    · have hadd : addCoin (coins x.1).isSome coins x = .ok coins := by
        rw [addCoin, if_pos]
        simpa [spendable] using hx
      rw [List.filter_cons_of_neg hx, loop, hadd]
      exact ih _

lemma loop_redo {α : Type} (step : CoinMap → α → Verdict CoinMap)
    (log : α → List (COutPoint × Option Coin))
    (hstep : ∀ coins a, step coins a = .ok (redo coins (log a))) (as : List α) (coins : CoinMap) :
    loop step coins as = .ok (redo coins (as.flatMap log)) := by
  induction as generalizing coins with
  | nil => rfl
  | cons a as ih =>
    rw [loop, hstep, List.flatMap_cons, redo_append]
    exact ih _

lemma rollforwardTx_eq (nHeight : Nat) (coins : CoinMap) (tx : CTransaction) :
    rollforwardTx E nHeight coins tx = .ok (redo coins (txLog E nHeight tx)) := by
  rw [rollforwardTx, addCoinsChecked_eq, txLog, redo_append, redo_erasures, redo_puts]
  by_cases hcb : tx.isCoinBase
  · rw [if_pos hcb, if_pos hcb]
    rfl
  · rw [if_neg hcb, if_neg hcb]

lemma rollforwardBlock_eq (coins : CoinMap) (e : ChainBlock) :
    rollforwardBlock E coins e = .ok (redo coins (blockLog E e)) :=
  loop_redo _ _ (rollforwardTx_eq E e.pindex.nHeight) e.block.vtx coins

def Linked : List ChainBlock → Prop
  | [] => True
  | e :: rest => e.pindex.nHeight = rest.length ∧ Linked rest

lemma ancestorAt_cons {e : ChainBlock} {rest : List ChainBlock} {nHeight : Nat}
    (h : e.pindex.nHeight ≠ nHeight) : ancestorAt (e :: rest) nHeight =
      ancestorAt rest nHeight := by
  rw [ancestorAt, List.dropWhile_cons_of_pos (by simpa using h)]
  rfl

lemma ancestorAt_range (k m : Nat) (new : List ChainBlock) (hlinked : Linked new)
    (hlen : new.length = k + 1 + m) :
    (List.range' (k + 1) m).map (fun nHeight => (ancestorAt new nHeight).head?) =
      (new.take m).reverse.map some := by
  induction m generalizing new with
  | zero => rfl
  | succ m ih =>
    cases new with
    | nil => simp at hlen
    | cons e rest =>
      obtain ⟨hheight, hrest⟩ := hlinked
      have hrestlen : rest.length = k + 1 + m := by
        rw [List.length_cons] at hlen
        omega
      have hlower : (List.range' (k + 1) m).map
          (fun nHeight => (ancestorAt (e :: rest) nHeight).head?) =
          (List.range' (k + 1) m).map fun nHeight => (ancestorAt rest nHeight).head? := by
        refine List.map_congr_left fun nHeight hmem => ?_
        rw [List.mem_range'_1] at hmem
        rw [ancestorAt_cons (by omega)]
      have htip : (ancestorAt (e :: rest) (k + 1 + m)).head? = some e := by
        rw [ancestorAt, List.dropWhile_cons_of_neg (by simp; omega)]
        rfl
      rw [List.range'_1_concat, List.map_append, hlower, ih rest hrest hrestlen, List.map_singleton,
        htip, List.take_succ_cons, List.reverse_cons, List.map_append, List.map_singleton]

lemma loop_rollforwardAt (new es : List ChainBlock) (heights : List Nat) (coins : CoinMap)
    (h : heights.map (fun nHeight => (ancestorAt new nHeight).head?) = es.map some) :
    loop (rollforwardAt E new) coins heights = .ok (redo coins (es.flatMap (blockLog E))) := by
  induction es generalizing heights coins with
  | nil =>
    rw [List.map_nil, List.map_eq_nil_iff] at h
    subst h
    rfl
  | cons e es ih =>
    rw [List.map_cons, List.map_eq_cons_iff] at h
    obtain ⟨nHeight, rest, rfl, hhead, hrest⟩ := h
    rw [loop, rollforwardAt, hhead, List.flatMap_cons, redo_append]
    show (rollforwardBlock E coins e >>= _) = _
    rw [rollforwardBlock_eq]
    exact ih rest _ hrest

def coinsOf : List ChainBlock → CoinMap
  | [] => fun _ => none
  | e :: rest => e.block.vtx.foldl (afterTx E.txHash e.pindex.nHeight) (coinsOf rest)

lemma connectTip_coins (S T : ChainState) (a : ConnectStep) (h : connectTip E S a = .ok T)
    (hS : S.coins = coinsOf E S.chain) : T.coins = coinsOf E T.chain := by
  obtain ⟨c, hc, rfl⟩ := (connectTip_ok_iff E S T a).mp h
  have hheight := connectStep_nHeight E S a c hc
  obtain ⟨-, s, hloop, -, rfl⟩ := (connectBlock_ok_iff _ _ _ _ _ _).mp hc
  have hrun : ∀ (xs : List (CTransaction × Nat)) (r t : BlockState),
      loop (connectTx (withProcess E a.around.process) (S.node a.around) (S.context a)) r xs
        = .ok t → t.view.coins = (xs.map Prod.fst).foldl (afterTx E.txHash a.pindex.nHeight)
          r.view.coins := by
    intro xs
    induction xs with
    | nil =>
      intro r t hnil
      cases hnil
      rfl
    | cons x xs ih =>
      intro r t hcons
      obtain ⟨m, hm, hrest⟩ := (loop_cons_ok_iff _ _ _ _ _).mp hcons
      obtain ⟨undo, hupdate, -⟩ := connectTx_coins _ _ _ r m x hm
      rw [ih m t hrest, ((updateCoins_ok_iff _ _ _ _ _ _).mp hupdate).2.2.2]
      rfl
  show s.view.coins = a.block.vtx.foldl (afterTx E.txHash _) (coinsOf E S.chain)
  rw [hrun _ _ s hloop, List.zipIdx_map_fst, hheight, ← hS]
  rfl

lemma run_coins (steps : List ConnectStep) (S : ChainState)
    (h : loop (connectTip E) .empty steps = .ok S) : S.coins = coinsOf E S.chain := by
  refine loop_induction (connectTip E) (fun T => T.coins = coinsOf E T.chain) steps ?_ _ S rfl h
  intro T T' a _ hT hstep
  exact connectTip_coins E T T' a hstep hT

lemma connectTip_cons (S T : ChainState) (a : ConnectStep) (h : connectTip E S a = .ok T) :
    ∃ e, T.chain = e :: S.chain ∧ e.pindex.hashBlock = a.pindex.hashBlock ∧
      e.pindex.nHeight = a.pindex.nHeight ∧ Fits e := by
  obtain ⟨c, hc, rfl⟩ := (connectTip_ok_iff E S T a).mp h
  refine ⟨_, rfl, ?_, connectStep_nHeight E S a c hc, ?_⟩
  · obtain ⟨-, s, -, -, rfl⟩ := (connectBlock_ok_iff _ _ _ _ _ _).mp hc
    show (stakedIndex _ _ _).hashBlock = _
    unfold stakedIndex
    split <;> rfl
  · obtain ⟨hbefore, -⟩ := (connectBlock_ok_iff _ _ _ _ _ _).mp hc
    obtain ⟨-, hblock, -⟩ := checkBefore_ok _ _ _ _ _ () hbefore
    intro tx htx
    have hcheck := (Blocks.checkBlock_ok _ _ _ () hblock).2 tx htx
    have hlen := checkTransaction_length _ _ _ _ _ hcheck
    refine ⟨(checkTransaction_ok _ _ _ _ _ hcheck).2.2.1, ?_⟩
    show _ ≤ 4294967200
    omega

/-- No coin has an outpoint that reads as an anon input. -/
def NoMarker (coins : CoinMap) : Prop := ∀ o, o.isAnonInput → coins o = none

lemma eraseAll_prevouts {coins : CoinMap} (h : NoMarker coins) (vin : List CTxIn) :
    eraseAll coins (vin.map (·.prevout)) = eraseAll coins (standardPrevouts vin) := by
  funext o
  rw [eraseAll_apply, eraseAll_apply]
  by_cases hanon : o.isAnonInput
  · rw [h o hanon, ite_self, ite_self]
  · have hmem : o ∈ vin.map (·.prevout) ↔ o ∈ standardPrevouts vin := by
      simp only [standardPrevouts, List.mem_map, List.mem_filter, decide_eq_true_eq]
      constructor
      · rintro ⟨txin, htxin, rfl⟩
        exact ⟨txin, ⟨htxin, hanon⟩, rfl⟩
      · rintro ⟨txin, ⟨htxin, -⟩, rfl⟩
        exact ⟨txin, htxin, rfl⟩
    simp only [hmem]

lemma afterTx_eq_redo {coins : CoinMap} (h : NoMarker coins) (nHeight : Nat) (tx : CTransaction) :
    afterTx E.txHash nHeight coins tx = redo coins (txLog E nHeight tx) := by
  rw [afterTx, txLog, redo_append, redo_erasures, redo_puts, spentOutpoints]
  by_cases hcb : tx.isCoinBase
  · rw [if_pos hcb, if_pos hcb]
  · rw [if_neg hcb, if_neg hcb, eraseAll_prevouts h]

lemma afterTx_noMarker {coins : CoinMap} (h : NoMarker coins) (nHeight : Nat) (tx : CTransaction)
    (hversion : tx.isBitcoinCVersion) (hlen : tx.vpout.length ≤ COutPoint.ANON_MARKER.toNat) :
    NoMarker (afterTx E.txHash nHeight coins tx) := by
  intro o hanon
  have hnew : o ∉ (newCoins (E.txHash tx) tx nHeight).map Prod.fst := by
    intro hmem
    obtain ⟨x, hx, rfl⟩ := List.mem_map.mp hmem
    obtain ⟨i, hi, hout⟩ := newCoins_outpoint _ tx _ hversion x hx
    have hn : (UInt32.ofNat i).toNat = COutPoint.ANON_MARKER.toNat := by
      rw [hout] at hanon
      exact congrArg UInt32.toNat hanon
    have hmarker : COutPoint.ANON_MARKER.toNat < 2 ^ 32 := UInt32.toNat_lt _
    rw [UInt32.toNat_ofNat', Nat.mod_eq_of_lt (by omega)] at hn
    omega
  rw [afterTx, putAll_of_notMem _ _ _ hnew, eraseAll_apply, h o hanon, ite_self]

lemma foldl_afterTx {nHeight : Nat} (txs : List CTransaction)
    (hfits : ∀ tx ∈ txs, tx.isBitcoinCVersion ∧ tx.vpout.length ≤ COutPoint.ANON_MARKER.toNat)
    {coins : CoinMap} (h : NoMarker coins) :
    txs.foldl (afterTx E.txHash nHeight) coins = redo coins (txs.flatMap (txLog E nHeight)) ∧
      NoMarker (txs.foldl (afterTx E.txHash nHeight) coins) := by
  induction txs generalizing coins with
  | nil => exact ⟨rfl, h⟩
  | cons tx txs ih =>
    rw [List.forall_mem_cons] at hfits
    have hnext := afterTx_noMarker E h nHeight tx hfits.1.1 hfits.1.2
    rw [List.foldl_cons, List.flatMap_cons, redo_append, ← afterTx_eq_redo E h]
    exact ih hfits.2 hnext

lemma coinsOf_noMarker (branch : List ChainBlock) (h : ∀ e ∈ branch, Fits e) :
    NoMarker (coinsOf E branch) := by
  induction branch with
  | nil => exact fun _ _ => rfl
  | cons e rest ih =>
    rw [List.forall_mem_cons] at h
    exact (foldl_afterTx E e.block.vtx h.1 (ih h.2)).2

def branchLog (blocks : List ChainBlock) : List (COutPoint × Option Coin) :=
  blocks.reverse.flatMap (blockLog E)

lemma coinsOf_append (above base : List ChainBlock) (h : ∀ e ∈ above ++ base, Fits e) :
    coinsOf E (above ++ base) = redo (coinsOf E base) (branchLog E above) := by
  induction above with
  | nil => rfl
  | cons e above ih =>
    rw [List.cons_append, List.forall_mem_cons] at h
    rw [branchLog, List.reverse_cons, List.flatMap_append, redo_append, List.flatMap_singleton]
    have hbelow : redo (coinsOf E base) (above.reverse.flatMap (blockLog E)) =
        coinsOf E (above ++ base) := (ih h.2).symm
    rw [hbelow]
    exact (foldl_afterTx E e.block.vtx h.1 (coinsOf_noMarker E _ h.2)).1

lemma BlockTree.branch (tree : BlockTree) (branch : List ChainBlock) (hash : Uint256)
    (h : tree.lookup hash = some branch) : Linked branch ∧ (∀ e ∈ branch, Fits e) ∧
      ∀ e rest, (e :: rest) <:+ branch → tree.lookup e.pindex.hashBlock = some (e :: rest) := by
  induction branch generalizing hash with
  | nil =>
    obtain ⟨e, rest, hnil, -⟩ := tree.entry hash _ h
    cases hnil
  | cons e rest ih =>
    obtain ⟨e', rest', hcons, hhash, hheight, hparent, hfits⟩ := tree.entry hash _ h
    cases hcons
    have hself : tree.lookup e.pindex.hashBlock = some (e :: rest) := hhash.symm ▸ h
    rcases hparent with rfl | hparent
    · refine ⟨⟨hheight, trivial⟩, List.forall_mem_singleton.mpr hfits, ?_⟩
      intro a as hsuffix
      rcases List.suffix_cons_iff.mp hsuffix with heq | hnil
      · cases heq
        exact hself
      · cases List.suffix_nil.mp hnil
    · obtain ⟨hlinked, hall, hsuffixes⟩ := ih _ hparent
      refine ⟨⟨hheight, hlinked⟩, List.forall_mem_cons.mpr ⟨hfits, hall⟩, ?_⟩
      intro a as hsuffix
      rcases List.suffix_cons_iff.mp hsuffix with heq | hrest
      · cases heq
        exact hself
      · exact hsuffixes a as hrest

lemma Linked.suffix {branch part : List ChainBlock} (h : Linked branch) (hpart : part <:+ branch) :
    Linked part := by
  obtain ⟨above, rfl⟩ := hpart
  induction above with
  | nil => exact h
  | cons e above ih => exact ih h.2

lemma heightOf_linked {branch : List ChainBlock} (h : Linked branch) :
    heightOf branch = branch.length - 1 := by
  cases branch with
  | nil => rfl
  | cons e rest => exact h.1

lemma meet_self (e : ChainBlock) (rest : List ChainBlock) : meet (e :: rest)
    (e :: rest) = e :: rest :=
  if_pos rfl

lemma meet_cases (pa pb : List ChainBlock) :
    meet pa pb = [] ∨ ∃ a as b bs, meet pa pb = a :: as ∧ (a :: as) <:+ pa ∧ (b :: bs) <:+ pb ∧
      a.pindex.hashBlock = b.pindex.hashBlock := by
  induction pa generalizing pb with
  | nil => exact Or.inl rfl
  | cons a as ih =>
    cases pb with
    | nil => exact Or.inl rfl
    | cons b bs =>
      by_cases hsame : a.pindex.hashBlock = b.pindex.hashBlock
      · exact Or.inr ⟨a, as, b, bs, if_pos hsame, List.suffix_refl _, List.suffix_refl _, hsame⟩
      · have hstep : meet (a :: as) (b :: bs) = meet as bs := if_neg hsame
        rw [hstep]
        rcases ih bs with hnil | ⟨a', as', b', bs', hmeet, ha, hb, hhash⟩
        · exact Or.inl hnil
        · exact Or.inr ⟨a', as', b', bs', hmeet, ha.trans (List.suffix_cons a as),
            hb.trans (List.suffix_cons b bs), hhash⟩

lemma lastCommonAncestor_cases (pa pb : List ChainBlock) :
    lastCommonAncestor pa pb = [] ∨ ∃ a as b bs, lastCommonAncestor pa pb = a :: as ∧
      (a :: as) <:+ pa ∧ (b :: bs) <:+ pb ∧ a.pindex.hashBlock = b.pindex.hashBlock := by
  have hdown : ∀ (branch : List ChainBlock) (nHeight : Nat), ancestorAt branch nHeight <:+ branch :=
    fun branch nHeight => List.dropWhile_suffix _
  unfold lastCommonAncestor
  split
  · rcases meet_cases (ancestorAt pa (heightOf pb)) pb with h | ⟨a, as, b, bs, h, ha, hb, hhash⟩
    · exact Or.inl h
    · exact Or.inr ⟨a, as, b, bs, h, ha.trans (hdown pa _), hb, hhash⟩
  · split
    · rcases meet_cases pa (ancestorAt pb (heightOf pa)) with h | ⟨a, as, b, bs, h, ha, hb, hhash⟩
      · exact Or.inl h
      · exact Or.inr ⟨a, as, b, bs, h, ha, hb.trans (hdown pb _), hhash⟩
    · exact meet_cases pa pb

lemma ancestorAt_suffix {branch : List ChainBlock} (h : Linked branch) {e : ChainBlock}
    {rest : List ChainBlock} (hsuffix : (e :: rest) <:+ branch) :
    ancestorAt branch e.pindex.nHeight = e :: rest := by
  induction branch with
  | nil => cases List.suffix_nil.mp hsuffix
  | cons x xs ih =>
    rcases List.suffix_cons_iff.mp hsuffix with heq | hxs
    · cases heq
      exact List.dropWhile_cons_of_neg (by simp)
    · have hlen := hxs.length_le
      have hheight : e.pindex.nHeight = rest.length := (h.2.suffix hxs).1
      rw [List.length_cons] at hlen
      rw [ancestorAt_cons (by rw [h.1, hheight]; omega)]
      exact ih h.2 hxs

lemma lastCommonAncestor_of_suffix {old new : List ChainBlock} (hne : old ≠ [])
    (hlinked : Linked new) (h : old <:+ new) : lastCommonAncestor old new = old := by
  cases old with
  | nil => exact absurd rfl hne
  | cons e rest =>
    have hold := heightOf_linked (hlinked.suffix h)
    have hnew := heightOf_linked hlinked
    have hlen := h.length_le
    unfold lastCommonAncestor
    rw [if_neg (by omega)]
    by_cases hhigher : heightOf new > heightOf (e :: rest)
    · rw [if_pos hhigher]
      have hdown : ancestorAt new (heightOf (e :: rest)) = e :: rest := ancestorAt_suffix hlinked h
      rw [hdown, meet_self]
    · rw [if_neg hhigher]
      have hpos : 0 < (e :: rest).length := List.length_pos_of_ne_nil hne
      have hsame : e :: rest = new := h.eq_of_length (by omega)
      rw [← hsame, meet_self]

def interrupted (coins : CoinMap) (hashNew hashOld : Uint256) : CCoinsViewDB :=
  ⟨coins, none, some [hashNew, hashOld]⟩

lemma flushCache_interrupted {hashNew : Uint256} (hne : hashNew ≠ 0) (hashOld : Uint256)
    (coins coins' : CoinMap) : flushCache (interrupted coins hashNew hashOld) coins' hashNew =
      .ok ⟨coins', some hashNew, none⟩ := by
  have htip : oldTip (interrupted coins hashNew hashOld) hashNew = .ok hashOld := by
    show (rejectIf (hashNew ≠ hashNew) _ >>= _) = _
    rw [rejectIf_bind_ok_iff]
    exact ⟨fun h => h rfl, rfl⟩
  rw [flushCache, rejectIf_bind_ok_iff, htip]
  exact ⟨hne, rfl⟩

lemma rollback_asserts {fork rest : List ChainBlock} {e : ChainBlock}
    (hfork : e.pindex.hashBlock ≠ tipHash fork) (hheight : e.pindex.nHeight > 0)
    (hne : e.pindex.hashBlock ≠ 0) (coins : CoinMap) :
    rollback E rct fork { coins := coins, hashBlock := 0 } (e :: rest) =
      .error (.throws "DisconnectBlock: GetBestBlock") := by
  rw [rollback, if_neg hfork, if_pos hheight, disconnectBlock, rejectIf, if_pos hne]
  rfl

lemma BlockTree.tipHash_ne (tree : BlockTree) {branch : List ChainBlock}
    (h : tree.lookup (tipHash branch) = some branch) : tipHash branch ≠ 0 := by
  intro hnull
  rw [hnull, tree.notNull] at h
  cases h

section

variable (tree : BlockTree) {old new : List ChainBlock}
  (hnew : tree.lookup (tipHash new) = some new) (coins : CoinMap)

include hnew

lemma replayBlocks_interrupted (hashOld : Uint256) :
    replayBlocks E rct tree (interrupted coins (tipHash new) hashOld) =
      (forkFrom tree new hashOld >>= fun r =>
        rollback E rct r.2 { coins := coins, hashBlock := 0 } r.1 >>= fun view =>
          loop (rollforwardAt E new) view.coins
              (List.range' (heightOf r.2 + 1) (heightOf new - heightOf r.2)) >>= fun coins' =>
            .ok ⟨coins', some (tipHash new), none⟩) := by
  show (orReject (tree.lookup (tipHash new)) _ >>= _) = _
  simp only [flushCache_interrupted (tree.tipHash_ne hnew)]
  rw [hnew]
  rfl

lemma replayBlocks_forward {hashOld : Uint256} {fork : List ChainBlock} (m : Nat)
    (hfork : forkFrom tree new hashOld = .ok (fork, fork))
    (hlen : new.length = heightOf fork + 1 + m) :
    replayBlocks E rct tree (interrupted coins (tipHash new) hashOld) =
      .ok ⟨redo coins (branchLog E (new.take m)), some (tipHash new), none⟩ := by
  have hlinked := (tree.branch new _ hnew).1
  have hback : ∀ view, rollback E rct fork view fork = .ok view := by
    intro view
    cases fork <;> exact if_pos rfl
  have hcount : heightOf new - heightOf fork = m := by
    rw [heightOf_linked hlinked]
    omega
  rw [replayBlocks_interrupted E rct tree hnew, hfork, ok_bind, hback, ok_bind, hcount,
    loop_rollforwardAt E new _ _ coins (ancestorAt_range (heightOf fork) m new hlinked hlen),
    ok_bind]
  rfl

lemma replayBlocks_first : replayBlocks E rct tree (interrupted coins (tipHash new) 0) =
      .ok ⟨redo coins (branchLog E new.dropLast), some (tipHash new), none⟩ := by
  obtain ⟨e, rest, hcons, -⟩ := tree.entry _ _ hnew
  rw [List.dropLast_eq_take]
  refine replayBlocks_forward E rct tree hnew coins (new.length - 1) (if_pos rfl) ?_
  rw [hcons, List.length_cons, heightOf]
  omega

section

variable (hold : tree.lookup (tipHash old) = some old)

include hold

omit hnew in
lemma forkFrom_eq : forkFrom tree new (tipHash old) =
      (rejectIf (lastCommonAncestor old new = []) (.throws "ReplayBlocks: pindexFork") >>= fun _ =>
        pure (old, lastCommonAncestor old new)) := by
  rw [forkFrom, if_neg (tree.tipHash_ne hold), hold]
  rfl

lemma replayBlocks_ancestor (above : List ChainBlock) (habove : above ++ old = new) :
    replayBlocks E rct tree (interrupted coins (tipHash new) (tipHash old)) =
      .ok ⟨redo coins (branchLog E above), some (tipHash new), none⟩ := by
  have hlinked := (tree.branch new _ hnew).1
  have hsuffix : old <:+ new := ⟨above, habove⟩
  have hne : old ≠ [] := by
    rintro rfl
    exact tree.tipHash_ne hold rfl
  have hfork : forkFrom tree new (tipHash old) = .ok (old, old) := by
    rw [forkFrom_eq tree hold, lastCommonAncestor_of_suffix hne hlinked hsuffix,
      rejectIf_bind_ok_iff]
    exact ⟨hne, rfl⟩
  have hheight := heightOf_linked (hlinked.suffix hsuffix)
  have hpos := List.length_pos_of_ne_nil hne
  have hlen : new.length = heightOf old + 1 + above.length := by
    rw [← habove, List.length_append]
    omega
  rw [replayBlocks_forward E rct tree hnew coins above.length hfork hlen, ← habove, List.take_left]

lemma tipHash_fork (h : ¬ old <:+ new) (hfork : lastCommonAncestor old new ≠ []) :
    tipHash old ≠ tipHash (lastCommonAncestor old new) ∧ 1 < old.length := by
  rcases lastCommonAncestor_cases old new with hnil | ⟨a, as, b, bs, hmeet, ha, hb, hhash⟩
  · exact absurd hnil hfork
  have hbelow := (tree.branch old _ hold).2.2 a as ha
  have hshared := (tree.branch new _ hnew).2.2 b bs hb
  rw [← hhash, hbelow] at hshared
  have hcommon : (a :: as) <:+ new := by
    rw [Option.some.inj hshared]
    exact hb
  constructor
  · intro heq
    rw [hmeet] at heq
    -- a hash leads to one branch, so the old tip would be on the new branch
    rw [heq, show tipHash (a :: as) = a.pindex.hashBlock from rfl, hbelow] at hold
    exact h (Option.some.inj hold ▸ hcommon)
  · by_contra hshort
    have hlen := ha.length_le
    rw [List.length_cons] at hlen
    have hsame : a :: as = old := ha.eq_of_length (by rw [List.length_cons]; omega)
    exact h (hsame ▸ hcommon)

lemma replayBlocks_fork (h : ¬ old <:+ new) (hfork : lastCommonAncestor old new ≠ []) :
    replayBlocks E rct tree (interrupted coins (tipHash new) (tipHash old)) =
      .error (.throws "DisconnectBlock: GetBestBlock") := by
  obtain ⟨htip, hlen⟩ := tipHash_fork tree hnew hold h hfork
  have hlinked := (tree.branch old _ hold).1
  have hne := tree.tipHash_ne hold
  cases old with
  | nil => exact absurd rfl hne
  | cons e rest =>
    have hheight : e.pindex.nHeight > 0 := by
      rw [List.length_cons] at hlen
      rw [hlinked.1]
      omega
    rw [replayBlocks_interrupted E rct tree hnew, forkFrom_eq tree hold, rejectIf, if_neg hfork]
    show (rollback E rct (lastCommonAncestor (e :: rest) new) _ (e :: rest) >>= _) = _
    rw [rollback_asserts E rct htip hheight hne]
    rfl

lemma replayBlocks_apart (hfork : lastCommonAncestor old new = []) :
    replayBlocks E rct tree (interrupted coins (tipHash new) (tipHash old)) =
      .error (.throws "ReplayBlocks: pindexFork") := by
  rw [replayBlocks_interrupted E rct tree hnew, forkFrom_eq tree hold, rejectIf, if_pos hfork]
  rfl

end

end

/-- What replaying an interrupted flush needs: the old tip is an ancestor of the new one. On the
first flush, which has no old tip, the coins must be there that only the genesis block creates. -/
def Recoverable (old new : List ChainBlock) (coins : CoinMap) : Prop :=
  (old ≠ [] ∧ old <:+ new) ∨
    (old = [] ∧ ∀ o, o ∉ keys (branchLog E new.dropLast) → coins o = coinsOf E new o)

/-- Replaying reaches the coins of the new head exactly when it is recoverable. -/
lemma replayBlocks_interrupted_iff (tree : BlockTree) {old new : List ChainBlock}
    (hold : old = [] ∨ tree.lookup (tipHash old) = some old)
    (hnew : tree.lookup (tipHash new) = some new) (coins : CoinMap)
    (hcoins : ∀ o, coins o = coinsOf E old o ∨ coins o = coinsOf E new o) :
    (∃ db, replayBlocks E rct tree (interrupted coins (tipHash new) (tipHash old)) = .ok db ∧
        db.coins = coinsOf E new) ↔
      Recoverable E old new coins := by
  have hfits := (tree.branch new _ hnew).2.1
  rcases hold with rfl | hold
  · -- the first flush: nothing is undone, and the genesis block is not redone
    obtain ⟨e, rest, hcons, -⟩ := tree.entry _ _ hnew
    have hne : new ≠ [] := by
      rw [hcons]
      exact List.cons_ne_nil e rest
    have hlast := List.dropLast_append_getLast hne
    have hlog : coinsOf E new = redo (coinsOf E [new.getLast hne]) (branchLog E new.dropLast) := by
      rw [← coinsOf_append E _ _ (by rwa [hlast]), hlast]
    rw [show tipHash [] = 0 from rfl, replayBlocks_first E rct tree hnew]
    simp only [Except.ok.injEq, exists_eq_left', Recoverable, ne_eq, not_true_eq_false, false_and,
      true_and, false_or]
    rw [hlog]
    exact redo_eq_iff _ _ _
  · have hne : old ≠ [] := by
      rintro rfl
      exact tree.tipHash_ne hold rfl
    by_cases hsuffix : old <:+ new
    · obtain ⟨above, habove⟩ := hsuffix
      have hlog : coinsOf E new = redo (coinsOf E old) (branchLog E above) := by
        rw [← habove] at hfits ⊢
        exact coinsOf_append E above old hfits
      have hrepaired := redo_repairs (coinsOf E old) coins (branchLog E above)
        (by rw [← hlog]; exact hcoins)
      rw [replayBlocks_ancestor E rct tree hnew coins hold above habove]
      refine iff_of_true ⟨_, rfl, hrepaired.trans hlog.symm⟩ ?_
      exact Or.inl ⟨hne, above, habove⟩
    · refine iff_of_false ?_ ?_
      · rintro ⟨db, hok, -⟩
        by_cases hfork : lastCommonAncestor old new = []
        · rw [replayBlocks_apart E rct tree hnew coins hold hfork] at hok
          cases hok
        · rw [replayBlocks_fork E rct tree hnew coins hold hsuffix hfork] at hok
          cases hok
      · rintro (⟨-, h⟩ | ⟨h, -⟩)
        · exact hsuffix h
        · exact hne h

/-- Replaying after a crash restores the coins of the new tip exactly when the flush was
completed, or when some but not all of it was written and it is recoverable. A crash before the
first batch leaves the coins of the old tip. -/
theorem replayBlocks_restores_iff (tree : BlockTree) (old new : List ChainBlock)
    (hold : old = [] ∨ tree.lookup (tipHash old) = some old)
    (hnew : tree.lookup (tipHash new) = some new) (full : CDBBatch → Bool) (mapCoins : CCoinsMap)
    (hcache : mapCoins.entries.foldl backingEntry (coinsOf E old) = coinsOf E new)
    (batches : List CDBBatch)
    (hbatches : batchWrite full (settled (coinsOf E old) (tipHash old)) mapCoins (tipHash new) =
      .ok batches) (n : Nat) (crashed : CCoinsViewDB)
    (hcrashed : crashed = afterBatches (settled (coinsOf E old) (tipHash old)) (batches.take n)) :
    (∃ db, replayBlocks E rct tree crashed = .ok db ∧ db.coins = coinsOf E new) ↔
      batches.length ≤ n ∨ (n = 0 ∧ coinsOf E old = coinsOf E new) ∨
        (0 < n ∧ Recoverable E old new crashed.coins) := by
  rw [← redo_cacheLog] at hcache
  by_cases hcomplete : batches.length ≤ n
  · rw [afterBatches_complete hbatches n hcomplete, hcache] at hcrashed
    subst hcrashed
    exact iff_of_true ⟨_, rfl, rfl⟩ (Or.inl hcomplete)
  rw [or_iff_right hcomplete]
  rcases Nat.eq_zero_or_pos n with rfl | hpos
  · subst hcrashed
    simp only [lt_irrefl, false_and, or_false, true_and, List.take_zero]
    show (∃ db, (.ok (settled (coinsOf E old) (tipHash old)) : Verdict CCoinsViewDB) = .ok db ∧ _) ↔
      _
    simp only [Except.ok.injEq, exists_eq_left']
    rfl
  · rw [or_iff_right (fun h => absurd h.1 (by omega)), and_iff_right hpos]
    obtain ⟨first, rest, hlog, hstate⟩ :=
      afterBatches_interrupted hbatches n hpos (Nat.lt_of_not_le hcomplete)
    rw [hstate] at hcrashed
    subst hcrashed
    have hnodup := keys_cacheLog_nodup mapCoins
    rw [hlog] at hnodup hcache
    refine replayBlocks_interrupted_iff E rct tree hold hnew _ fun o => ?_
    rw [← hcache]
    exact redo_part (coinsOf E old) first rest hnodup o

end

section

open ToyEnvironment CoinsCache

def cacheOf (ks : List COutPoint) (new : CoinMap) : CCoinsMap where
  entries := ks.dedup.map fun o => ⟨o, (new o).getD coinEmpty, true, false⟩
  nodupKeys := by
    rw [List.NodupKeys, List.keys, List.map_map]
    show (ks.dedup.map fun o => o).Nodup
    rw [List.map_id']
    exact List.nodup_dedup ks

lemma cacheOf_turns (ks : List COutPoint) (old new : CoinMap)
    (hks : ∀ o, o ∉ ks → old o = new o)
    (hlive : ∀ o coin, new o = some coin → isSpent coin = false) :
    (cacheOf ks new).entries.foldl backingEntry old = new := by
  have hvalue : ∀ o, unspent ((new o).getD coinEmpty) = new o := by
    intro o
    cases h : new o with
    | none => rfl
    | some coin => exact unspent_of_live (hlive o coin h)
  have hlog : cacheLog (cacheOf ks new).entries = ks.dedup.map fun o => (o, new o) := by
    rw [cacheLog, cacheOf, List.flatMap_map]
    simp only [entryLog, hvalue, if_true]
    exact List.flatMap_pure_eq_map _ _
  rw [← redo_cacheLog, hlog]
  refine redo_copy old new _ fun o ho => hks o ?_
  rwa [List.mem_dedup] at ho

def cacheBetween (E : Env) (old new : List ChainBlock) : CCoinsMap :=
  cacheOf (keys (branchLog E old ++ branchLog E new)) (coinsOf E new)

lemma cacheBetween_turns (E : Env) (old new : List ChainBlock) (hold : ∀ e ∈ old, Fits e)
    (hnew : ∀ e ∈ new, Fits e) (hlive : ∀ w ∈ branchLog E new, ∀ coin ∈ w.2, isSpent coin = false) :
    (cacheBetween E old new).entries.foldl backingEntry (coinsOf E old) = coinsOf E new := by
  have hlog : ∀ branch : List ChainBlock, (∀ e ∈ branch, Fits e) →
      coinsOf E branch = redo (fun _ => none) (branchLog E branch) := by
    intro branch hbranch
    have happend := coinsOf_append E branch [] (by rwa [List.append_nil])
    rwa [List.append_nil] at happend
  refine cacheOf_turns _ _ _ ?_ ?_
  · intro o ho
    rw [keys, List.map_append, List.mem_append, not_or] at ho
    rw [hlog old hold, hlog new hnew, redo_of_notMem _ _ _ ho.1, redo_of_notMem _ _ _ ho.2]
  · intro o coin hcoin
    rw [hlog new hnew] at hcoin
    rcases mem_of_redo (fun _ => none) (branchLog E new) o with hnone | hmem
    · rw [hnone] at hcoin
      cases hcoin
    · exact hlive _ hmem coin hcoin

lemma find?_tip {branches : List (List ChainBlock)} (hnodup : (branches.map tipHash).Nodup)
    {branch : List ChainBlock} (h : branch ∈ branches) :
    branches.find? (fun b => tipHash b = tipHash branch) = some branch := by
  cases hfind : branches.find? fun b => tipHash b = tipHash branch with
  | none =>
    have hnone := List.find?_eq_none.mp hfind branch h
    simp at hnone
  | some found =>
    have hmem := List.mem_of_find?_eq_some hfind
    have htip : tipHash found = tipHash branch := by simpa using List.find?_some hfind
    rw [List.inj_on_of_nodup_map hnodup hmem h htip]

def treeOf (branches : List (List ChainBlock)) (hnodup : (branches.map tipHash).Nodup)
    (hnull : ∀ branch ∈ branches, tipHash branch ≠ 0)
    (hentry : ∀ branch ∈ branches, ∃ e rest, branch = e :: rest ∧ e.pindex.nHeight = rest.length ∧
      (rest = [] ∨ rest ∈ branches) ∧ Fits e) : BlockTree where
  lookup hash := branches.find? fun branch => tipHash branch = hash
  entry hash branch h := by
    have htip : tipHash branch = hash := by simpa using List.find?_some h
    obtain ⟨e, rest, rfl, hheight, hrest, hfits⟩ := hentry branch (List.mem_of_find?_eq_some h)
    exact ⟨e, rest, rfl, htip, hheight, hrest.imp_right (find?_tip hnodup), hfits⟩
  notNull := by
    rw [List.find?_eq_none]
    intro branch hbranch
    simpa using hnull branch hbranch

lemma treeOf_lookup (branches : List (List ChainBlock)) (hnodup : (branches.map tipHash).Nodup)
    (hnull : ∀ branch ∈ branches, tipHash branch ≠ 0)
    (hentry : ∀ branch ∈ branches, ∃ e rest, branch = e :: rest ∧ e.pindex.nHeight = rest.length ∧
      (rest = [] ∨ rest ∈ branches) ∧ Fits e) {branch : List ChainBlock} (h : branch ∈ branches) :
    (treeOf branches hnodup hnull hentry).lookup (tipHash branch) = some branch :=
  find?_tip hnodup h

def stakeStep (n : UInt32) : ConnectStep :=
  stepOn genesisEntry [stake genesisHash n 1 [keyOutput 3 1000]]

def runOf (steps : List ConnectStep) : ChainState :=
  (loop (connectTip chainEnv) .empty steps).toOption.getD .empty

lemma runOf_concat (steps : List ConnectStep) (a : ConnectStep)
    (h : (loop (connectTip chainEnv) .empty (steps ++ [a])).toOption.isSome = true) :
    loop (connectTip chainEnv) .empty (steps ++ [a]) = .ok (runOf (steps ++ [a])) ∧
      connectTip chainEnv (runOf steps) a = .ok (runOf (steps ++ [a])) := by
  obtain ⟨T, hT⟩ : ∃ T, loop (connectTip chainEnv) .empty (steps ++ [a]) = .ok T := by
    cases hrun : loop (connectTip chainEnv) .empty (steps ++ [a]) with
    | error e =>
      rw [hrun] at h
      cases h
    | ok T => exact ⟨T, rfl⟩
  have hrunT : runOf (steps ++ [a]) = T := by
    rw [runOf, hT]
    rfl
  obtain ⟨S, hS, hrest⟩ := (loop_append_ok_iff _ _ _ _ _).mp hT
  obtain ⟨U, hstep, hU⟩ := (loop_cons_ok_iff _ _ _ _ _).mp hrest
  cases hU
  have hrunS : runOf steps = S := by
    rw [runOf, hS]
    rfl
  rw [hrunT, hrunS]
  exact ⟨hT, hstep⟩

/-- The chain of the genesis block alone, and with a block on top that stakes output `n`. -/
def genesisRun : ChainState := runOf [genesisStep]

def stakeRun (n : UInt32) : ChainState := runOf [genesisStep, stakeStep n]

lemma genesisRun_cons : ∃ e, genesisRun.chain = [e] ∧ e.pindex.hashBlock = genesisEntry.hashBlock ∧
      e.pindex.nHeight = 0 ∧ Fits e := by
  obtain ⟨-, hstep⟩ := runOf_concat [] genesisStep (by decide +kernel)
  exact connectTip_cons chainEnv .empty genesisRun genesisStep hstep

lemma stakeStep_accepted (n : UInt32) (hn : n = 0 ∨ n = 2) :
    (loop (connectTip chainEnv) .empty [genesisStep, stakeStep n]).toOption.isSome = true := by
  rcases hn with rfl | rfl
  · decide +kernel
  · decide +kernel

section

variable (n : UInt32) (hn : n = 0 ∨ n = 2)

include hn

lemma stakeRun_cons : ∃ e, (stakeRun n).chain = e :: genesisRun.chain ∧
      e.pindex.hashBlock = (stakeStep n).pindex.hashBlock ∧ e.pindex.nHeight = 1 ∧ Fits e := by
  obtain ⟨-, hstep⟩ := runOf_concat [genesisStep] (stakeStep n) (stakeStep_accepted n hn)
  exact connectTip_cons chainEnv genesisRun (stakeRun n) (stakeStep n) hstep

lemma stakeRun_loop :
    loop (connectTip chainEnv) .empty [genesisStep, stakeStep n] = .ok (stakeRun n) :=
  (runOf_concat [genesisStep] (stakeStep n) (stakeStep_accepted n hn)).1

lemma stakeRun_coins : (stakeRun n).coins = coinsOf chainEnv (stakeRun n).chain :=
  run_coins chainEnv _ _ (stakeRun_loop n hn)

lemma stakeRun_length : (stakeRun n).chain.length = 2 := by
  obtain ⟨e, hcons, -⟩ := stakeRun_cons n hn
  obtain ⟨g, hgenesis, -⟩ := genesisRun_cons
  rw [hcons, hgenesis]
  rfl

end

def forkBranches : List (List ChainBlock) :=
  [genesisRun.chain, (stakeRun 0).chain, (stakeRun 2).chain]

lemma forkBranches_nodup : (forkBranches.map tipHash).Nodup := by decide +kernel

lemma forkBranches_notNull : ∀ branch ∈ forkBranches, tipHash branch ≠ 0 := by decide +kernel

lemma forkBranches_entry (branch : List ChainBlock) (h : branch ∈ forkBranches) :
    ∃ e rest, branch = e :: rest ∧ e.pindex.nHeight = rest.length ∧
      (rest = [] ∨ rest ∈ forkBranches) ∧ Fits e := by
  obtain ⟨g, hgenesis, -, hgheight, hgfits⟩ := genesisRun_cons
  have hbase : genesisRun.chain ∈ forkBranches := List.mem_cons_self
  have hstake : ∀ n, n = 0 ∨ n = 2 → ∃ e rest, (stakeRun n).chain = e :: rest ∧
      e.pindex.nHeight = rest.length ∧ (rest = [] ∨ rest ∈ forkBranches) ∧ Fits e := by
    intro n hn
    obtain ⟨e, hcons, -, hheight, hfits⟩ := stakeRun_cons n hn
    exact ⟨e, _, hcons, by rw [hheight, hgenesis]; rfl, Or.inr hbase, hfits⟩
  simp only [forkBranches, List.mem_cons, List.not_mem_nil, or_false] at h
  rcases h with h | h | h
  · rw [h]
    exact ⟨g, [], hgenesis, hgheight, Or.inl rfl, hgfits⟩
  · rw [h]
    exact hstake 0 (Or.inl rfl)
  · rw [h]
    exact hstake 2 (Or.inr rfl)

def forkTree : BlockTree :=
  treeOf forkBranches forkBranches_nodup forkBranches_notNull forkBranches_entry

lemma forkTree_lookup {branch : List ChainBlock} (h : branch ∈ forkBranches) :
    forkTree.lookup (tipHash branch) = some branch :=
  treeOf_lookup forkBranches forkBranches_nodup forkBranches_notNull forkBranches_entry h

lemma forkTree_turns {old new : List ChainBlock} (hold : old ∈ forkBranches)
    (hnew : new ∈ forkBranches)
    (hlive : ∀ w ∈ branchLog chainEnv new, ∀ coin ∈ w.2, isSpent coin = false) :
    (cacheBetween chainEnv old new).entries.foldl backingEntry (coinsOf chainEnv old) =
      coinsOf chainEnv new :=
  cacheBetween_turns chainEnv old new (forkTree.branch old _ (forkTree_lookup hold)).2.1
    (forkTree.branch new _ (forkTree_lookup hnew)).2.1 hlive

/-- A flush from the genesis block to a block on top of it, interrupted after its first batch. -/
theorem replayBlocks_restores_stake : ∃ batches db, 1 < batches.length ∧
      batchWrite (fun _ => true) (settled (coinsOf chainEnv genesisRun.chain)
        (tipHash genesisRun.chain))
        (cacheBetween chainEnv genesisRun.chain (stakeRun 0).chain) (tipHash (stakeRun 0).chain) =
          .ok batches ∧
      replayBlocks chainEnv .empty forkTree
        (afterBatches (settled (coinsOf chainEnv genesisRun.chain) (tipHash genesisRun.chain))
          (batches.take 1)) = .ok db ∧
      db.coins = coinsOf chainEnv (stakeRun 0).chain := by
  have hgenesis : genesisRun.chain ∈ forkBranches := List.mem_cons_self
  have hstake : (stakeRun 0).chain ∈ forkBranches := List.mem_cons_of_mem _ List.mem_cons_self
  have hold := forkTree_lookup hgenesis
  have hnew := forkTree_lookup hstake
  have hentries : 0 < (cacheBetween chainEnv genesisRun.chain
      (stakeRun 0).chain).entries.length := by
    decide +kernel
  have hturns := forkTree_turns hgenesis hstake (by decide +kernel)
  obtain ⟨batches, hbatches, hlen⟩ := batchWrite_each (coinsOf chainEnv genesisRun.chain)
    (tipHash genesisRun.chain) (tipHash (stakeRun 0).chain)
    (cacheBetween chainEnv genesisRun.chain (stakeRun 0).chain) (forkTree.tipHash_ne hnew)
  obtain ⟨e, hcons, -⟩ := stakeRun_cons 0 (Or.inl rfl)
  have hancestor : genesisRun.chain <:+ (stakeRun 0).chain := ⟨[e], hcons.symm⟩
  have hne : genesisRun.chain ≠ [] := by
    intro hnil
    exact forkTree.tipHash_ne hold (by rw [hnil]; rfl)
  obtain ⟨db, hdb, hcoins⟩ := (replayBlocks_restores_iff chainEnv .empty forkTree genesisRun.chain
    (stakeRun 0).chain (Or.inr hold) hnew (fun _ => true) _ hturns batches hbatches 1 _ rfl).mpr
    (Or.inr (Or.inr ⟨Nat.one_pos, Or.inl ⟨hne, hancestor⟩⟩))
  exact ⟨batches, db, by omega, hbatches, hdb, hcoins⟩

/-- A flush from a block at height 1 to another one, interrupted after its first batch. Both blocks
are on top of the genesis block, and replaying aborts. -/
theorem replayBlocks_aborts : ∃ S T batches,
      loop (connectTip chainEnv) .empty [genesisStep, stakeStep 0] = .ok S ∧
      loop (connectTip chainEnv) .empty [genesisStep, stakeStep 2] = .ok T ∧
      forkTree.lookup (tipHash S.chain) = some S.chain ∧
      forkTree.lookup (tipHash T.chain) = some T.chain ∧
      (cacheBetween chainEnv S.chain T.chain).entries.foldl backingEntry S.coins = T.coins ∧
      batchWrite (fun _ => true) (settled S.coins (tipHash S.chain))
        (cacheBetween chainEnv S.chain T.chain) (tipHash T.chain) = .ok batches ∧
      1 < batches.length ∧
      ∀ rct, replayBlocks chainEnv rct forkTree
        (afterBatches (settled S.coins (tipHash S.chain)) (batches.take 1)) =
          .error (.throws "DisconnectBlock: GetBestBlock") := by
  have hS : (stakeRun 0).chain ∈ forkBranches := List.mem_cons_of_mem _ List.mem_cons_self
  have hT : (stakeRun 2).chain ∈ forkBranches :=
    List.mem_cons_of_mem _ (List.mem_cons_of_mem _ List.mem_cons_self)
  have hold := forkTree_lookup hS
  have hnew := forkTree_lookup hT
  have hentries : 0 < (cacheBetween chainEnv (stakeRun 0).chain
      (stakeRun 2).chain).entries.length := by
    decide +kernel
  have hturns := forkTree_turns hS hT (by decide +kernel)
  rw [← stakeRun_coins 0 (Or.inl rfl), ← stakeRun_coins 2 (Or.inr rfl)] at hturns
  obtain ⟨batches, hbatches, hlen⟩ := batchWrite_each (stakeRun 0).coins
    (tipHash (stakeRun 0).chain) (tipHash (stakeRun 2).chain)
    (cacheBetween chainEnv (stakeRun 0).chain (stakeRun 2).chain) (forkTree.tipHash_ne hnew)
  have hmany : 1 < batches.length := by omega
  refine ⟨stakeRun 0, stakeRun 2, batches, stakeRun_loop 0 (Or.inl rfl),
    stakeRun_loop 2 (Or.inr rfl), hold, hnew, hturns, hbatches, hmany, ?_⟩
  intro rct
  have hfork : ¬ (stakeRun 0).chain <:+ (stakeRun 2).chain := by
    intro hsuffix
    have hsame := hsuffix.eq_of_length
      ((stakeRun_length 0 (Or.inl rfl)).trans (stakeRun_length 2 (Or.inr rfl)).symm)
    have htips : tipHash (stakeRun 0).chain ≠ tipHash (stakeRun 2).chain := by decide +kernel
    exact htips (congrArg tipHash hsame)
  have hmeet : lastCommonAncestor (stakeRun 0).chain (stakeRun 2).chain ≠ [] := by
    rw [ne_eq, ← List.isEmpty_iff]
    decide +kernel
  obtain ⟨first, rest, -, hstate⟩ := afterBatches_interrupted hbatches 1 Nat.one_pos hmany
  rw [hstate]
  exact replayBlocks_fork chainEnv rct forkTree hnew _ hold hfork hmeet

end

end ReplayBlocks
