import BitcoinC.Anon

/-!
# The coins view

The operations of `coins.cpp` and `UpdateCoins` of `validation.cpp` on a view seen
as a map from outpoints to unspent coins, and the RingCT records a view holds back
until it is flushed.
-/

namespace Coins

open Primitives Scripts Environment Verdicts TxVerify KeyedStore List

variable (fOverwrite : Bool) (txid : Uint256) (coins coins' : CoinMap) (tx : CTransaction)
  (nHeight : Nat)

/-- A coins view with its pending RingCT records. `anonOutputLinks` is an ordered map in the
source, with keys compared by `comparedKey`; here the last entry of a key counts. -/
structure CCoinsViewCache where
  coins : CoinMap
  hashBlock : Uint256
  nLastRCTOutput : Int := 0
  anonOutputs : List (Int × CAnonOutput) := []
  anonOutputLinks : List (CCmpPubKey × Int) := []
  keyImages : List (CCmpPubKey × Uint256) := []
  fForceDisconnect : Bool := false

/-- Nothing of the RingCT index is pending in the view. -/
def CCoinsViewCache.Fresh (view : CCoinsViewCache) : Prop :=
  view.nLastRCTOutput = 0 ∧ view.anonOutputs = [] ∧ view.anonOutputLinks = [] ∧
    view.keyImages = [] ∧ view.fForceDisconnect = false

def MAX_OUTPUTS_PER_BLOCK : Nat := 222222

/-- The first unspent output of a transaction among `count` outputs from number `n` on. -/
def accessFrom (coins : CoinMap) (txid : Uint256) : (count n : Nat) → Option Coin
  | 0, _ => none
  | count + 1, n =>
    match coins ⟨txid, UInt32.ofNat n⟩ with
    | some coin => some coin
    | none => accessFrom coins txid count (n + 1)

def accessByTxid (coins : CoinMap) (txid : Uint256) : Option Coin :=
  accessFrom coins txid MAX_OUTPUTS_PER_BLOCK 0

def addCoin (fOverwrite : Bool) (coins : CoinMap) (x : COutPoint × Coin) : Verdict CoinMap :=
  if isUnspendable x.2.out.scriptPubKey then .ok coins
  else do
    rejectIf (fOverwrite = false ∧ (coins x.1).isSome)
      (.throws "Adding new coin that replaces non-pruned entry")
    pure (put coins x.1 x.2)

def isCoinBaseOrStake (tx : CTransaction) : Bool := tx.isCoinBase || tx.isCoinStake

def outputCoin (txid : Uint256) (nHeight : Nat) (fCoinBase : Bool) (x : CTxOutBase × Nat) :
    Option (COutPoint × Coin) :=
  x.1.standard?.map fun p =>
    (⟨txid, UInt32.ofNat x.2⟩, ⟨⟨p.nValue, p.scriptPubKey⟩, fCoinBase, nHeight, .standard⟩)

def txCoins (txid : Uint256) (tx : CTransaction) (nHeight : Nat) : List (COutPoint × Coin) :=
  if tx.isBitcoinCVersion then
    tx.vpout.zipIdx.filterMap (outputCoin txid nHeight (isCoinBaseOrStake tx))
  else
    tx.vout.zipIdx.map fun x =>
      (⟨txid, UInt32.ofNat x.2⟩, ⟨x.1, isCoinBaseOrStake tx, nHeight, .standard⟩)

def addCoins (txid : Uint256) (coins : CoinMap) (tx : CTransaction) (nHeight : Nat) :
    Verdict CoinMap :=
  loop (addCoin (isCoinBaseOrStake tx)) coins (txCoins txid tx nHeight)

def spendInput (s : CoinMap × List Coin) (txin : CTxIn) : Verdict (CoinMap × List Coin) :=
  if txin.isAnonInput then .ok s
  else do
    let coin ← orReject (s.1 txin.prevout) (.throws "UpdateCoins: is_spent")
    pure (erase s.1 txin.prevout, s.2 ++ [coin])

def spendInputs (coins : CoinMap) (tx : CTransaction) : Verdict (CoinMap × List Coin) :=
  if tx.isCoinBase then .ok (coins, []) else loop spendInput (coins, []) tx.vin

def updateCoins (txid : Uint256) (coins : CoinMap) (tx : CTransaction) (nHeight : Nat) :
    Verdict (CoinMap × CTxUndo) := do
  let s ← spendInputs coins tx
  let coins' ← addCoins txid s.1 tx nHeight
  pure (coins', ⟨s.2⟩)

lemma spendInputs_loop_ok_iff (vin : List CTxIn) (coins coins' : CoinMap) (u u' : List Coin) :
    loop spendInput (coins, u) vin = .ok (coins', u') ↔
      (standardPrevouts vin).Nodup ∧
        (∃ cs, (standardPrevouts vin).map coins = cs.map some ∧ u' = u ++ cs) ∧
        coins' = eraseAll coins (standardPrevouts vin) := by
  induction vin generalizing coins u with
  | nil =>
    rw [loop_nil, Except.ok.injEq, Prod.mk.injEq]
    constructor
    · rintro ⟨rfl, rfl⟩
      exact ⟨nodup_nil, ⟨[], rfl, (append_nil u).symm⟩, rfl⟩
    · rintro ⟨-, ⟨cs, hcs, rfl⟩, rfl⟩
      obtain rfl : cs = [] := map_eq_nil_iff.mp hcs.symm
      exact ⟨rfl, (append_nil u).symm⟩
  | cons txin vin ih =>
    rw [loop_cons_ok_iff]
    by_cases h : txin.isAnonInput
    · have hps : standardPrevouts (txin :: vin) = standardPrevouts vin := by
        simp [standardPrevouts, h]
      simp only [spendInput, if_pos h, Except.ok.injEq, exists_eq_left', hps]
      exact ih coins u
    · have hps : standardPrevouts (txin :: vin) = txin.prevout :: standardPrevouts vin := by
        simp [standardPrevouts, h]
      have herase : ∀ ps : List COutPoint, txin.prevout ∉ ps →
          ps.map (erase coins txin.prevout) = ps.map coins := by
        intro ps hnot
        refine map_congr_left fun o ho => erase_other coins _ o ?_
        rintro rfl
        exact hnot ho
      simp only [spendInput, if_neg h, bind_ok_iff, orReject_ok_iff, pure_ok_iff, hps,
        nodup_cons, map_cons]
      constructor
      · rintro ⟨⟨m, mu⟩, ⟨coin, hcoin, hm⟩, hrest⟩
        obtain ⟨rfl, rfl⟩ := Prod.mk.inj hm
        obtain ⟨hnodup, ⟨cs, hcs, rfl⟩, rfl⟩ := (ih _ _).mp hrest
        have hnot : txin.prevout ∉ standardPrevouts vin := by
          intro hmem
          have hnone := mem_map_of_mem (f := erase coins txin.prevout) hmem
          rw [hcs, erase_self] at hnone
          simp at hnone
        refine ⟨⟨hnot, hnodup⟩, ⟨coin :: cs, ?_, ?_⟩, rfl⟩
        · rw [herase _ hnot] at hcs
          rw [map_cons, hcoin, hcs]
        · simp
      · rintro ⟨⟨hnot, hnodup⟩, ⟨cs, hcs, rfl⟩, rfl⟩
        cases cs with
        | nil => simp at hcs
        | cons coin cs =>
          obtain ⟨hcoin, hrest⟩ := cons.inj hcs
          refine ⟨_, ⟨coin, hcoin, rfl⟩, (ih _ _).mpr ⟨hnodup, ⟨cs, ?_, ?_⟩, rfl⟩⟩
          · rw [herase _ hnot, hrest]
          · simp

lemma spendInputs_ok_iff (u : List Coin) (tx : CTransaction) (hcb : ¬ tx.isCoinBase) :
    spendInputs coins tx = .ok (coins', u) ↔
      (standardPrevouts tx.vin).Nodup ∧ (standardPrevouts tx.vin).map coins = u.map some ∧
        coins' = eraseAll coins (standardPrevouts tx.vin) := by
  rw [spendInputs, if_neg hcb, spendInputs_loop_ok_iff]
  constructor
  · rintro ⟨hnodup, ⟨cs, hcs, rfl⟩, rfl⟩
    exact ⟨hnodup, hcs, rfl⟩
  · rintro ⟨hnodup, hu, rfl⟩
    exact ⟨hnodup, ⟨u, hu, rfl⟩, rfl⟩

def spendable (x : COutPoint × Coin) : Bool := ¬ isUnspendable x.2.out.scriptPubKey

def newCoins (txid : Uint256) (tx : CTransaction) (nHeight : Nat) : List (COutPoint × Coin) :=
  (txCoins txid tx nHeight).filter spendable

lemma addCoin_ok_iff (x : COutPoint × Coin) (h : spendable x = true) :
    addCoin fOverwrite coins x = .ok coins' ↔
      (fOverwrite = true ∨ coins x.1 = none) ∧ coins' = put coins x.1 x.2 := by
  have hsp : ¬ isUnspendable x.2.out.scriptPubKey := by simpa [spendable] using h
  rw [addCoin, if_neg hsp, rejectIf_bind_ok_iff, pure_ok_iff, eq_comm (a := coins')]
  cases fOverwrite <;> cases coins x.1 <;> simp

lemma addCoins_loop_ok_iff (xs : List (COutPoint × Coin)) (coins coins' : CoinMap) :
    loop (addCoin fOverwrite) coins xs = .ok coins' ↔
      (fOverwrite = true ∨
        (((xs.filter spendable).map Prod.fst).Nodup ∧
          ∀ x ∈ xs.filter spendable, coins x.1 = none)) ∧
      coins' = putAll coins (xs.filter spendable) := by
  induction xs generalizing coins with
  | nil => simp [eq_comm]
  | cons x xs ih =>
    rw [loop_cons_ok_iff]
    by_cases h : spendable x
    · simp only [addCoin_ok_iff fOverwrite coins _ x h, filter_cons_of_pos h, putAll_cons]
      constructor
      · rintro ⟨m, ⟨hx, rfl⟩, hrest⟩
        obtain ⟨hnew, rfl⟩ := (ih _).mp hrest
        refine ⟨?_, rfl⟩
        rcases hx with hx | hx
        · exact Or.inl hx
        rcases hnew with hnew | ⟨hnodup, hnone⟩
        · exact Or.inl hnew
        refine Or.inr ⟨?_, ?_⟩
        · rw [map_cons, nodup_cons]
          refine ⟨?_, hnodup⟩
          intro hmem
          obtain ⟨y, hy, hyx⟩ := mem_map.mp hmem
          have := hnone y hy
          rw [hyx, put_self] at this
          cases this
        · rw [forall_mem_cons]
          refine ⟨hx, ?_⟩
          intro y hy
          have := hnone y hy
          by_cases hyx : y.1 = x.1
          · rw [hyx, hx]
          · rwa [put_other _ _ _ _ hyx] at this
      · rintro ⟨hnew, rfl⟩
        refine ⟨_, ⟨hnew.imp_right fun h => ?_, rfl⟩, (ih _).mpr ⟨hnew.imp_right fun h => ?_, rfl⟩⟩
        · exact h.2 x mem_cons_self
        · rw [map_cons, nodup_cons, forall_mem_cons] at h
          refine ⟨h.1.2, fun y hy => ?_⟩
          rw [put_other _ _ _ _ ?_, h.2.2 y hy]
          intro hyx
          exact h.1.1 (mem_map.mpr ⟨y, hy, hyx⟩)
    · have hun : isUnspendable x.2.out.scriptPubKey := by simpa [spendable] using h
      simp only [addCoin, if_pos hun, Except.ok.injEq, exists_eq_left', filter_cons_of_neg h]
      exact ih coins

def spentOutpoints (tx : CTransaction) : List COutPoint :=
  if tx.isCoinBase then [] else standardPrevouts tx.vin

lemma updateCoins_ok_iff (undo : CTxUndo) : updateCoins txid coins tx nHeight = .ok (coins', undo) ↔
      (spentOutpoints tx).Nodup ∧ (spentOutpoints tx).map coins = undo.vprevout.map some ∧
      (isCoinBaseOrStake tx = true ∨
        (((newCoins txid tx nHeight).map Prod.fst).Nodup ∧
          ∀ x ∈ newCoins txid tx nHeight, eraseAll coins (spentOutpoints tx) x.1 = none)) ∧
      coins' = putAll (eraseAll coins (spentOutpoints tx)) (newCoins txid tx nHeight) := by
  have hspend : ∀ (m : CoinMap) (u : List Coin), spendInputs coins tx = .ok (m, u) ↔
      (spentOutpoints tx).Nodup ∧ (spentOutpoints tx).map coins = u.map some ∧
        m = eraseAll coins (spentOutpoints tx) := by
    intro m u
    by_cases hcb : tx.isCoinBase
    · rw [spendInputs, spentOutpoints, if_pos hcb, if_pos hcb, Except.ok.injEq, Prod.mk.injEq]
      constructor
      · rintro ⟨rfl, rfl⟩
        exact ⟨nodup_nil, rfl, rfl⟩
      · rintro ⟨-, hu, rfl⟩
        exact ⟨rfl, (map_eq_nil_iff.mp hu.symm).symm⟩
    · rw [spendInputs_ok_iff _ _ _ _ hcb, spentOutpoints, if_neg hcb]
  simp only [updateCoins, bind_ok_iff, pure_ok_iff, addCoins, addCoins_loop_ok_iff, Prod.exists,
    hspend, Prod.mk.injEq]
  constructor
  · rintro ⟨m, u, ⟨hnodup, hu, rfl⟩, c, ⟨hnew, rfl⟩, rfl, rfl⟩
    exact ⟨hnodup, hu, hnew, rfl⟩
  · rintro ⟨hnodup, hu, hnew, rfl⟩
    exact ⟨_, _, ⟨hnodup, hu, rfl⟩, _, ⟨hnew, rfl⟩, rfl, rfl⟩

lemma newCoins_nodup (hv : tx.isBitcoinCVersion) (hlen : tx.vpout.length ≤ 2 ^ 32) :
    ((newCoins txid tx nHeight).map Prod.fst).Nodup := by
  have hidx : (tx.vpout.zipIdx.map Prod.snd).Nodup := by
    rw [zipIdx_map_snd]
    exact nodup_range'
  have hall : ((txCoins txid tx nHeight).map Prod.fst).Nodup := by
    rw [txCoins, if_pos hv]
    refine List.Nodup.of_map (fun o : COutPoint => o.n.toNat) ?_
    rw [map_map]
    refine List.Nodup.sublist ?_ hidx
    have hsub : ∀ xs : List (CTxOutBase × Nat), (∀ x ∈ xs, x.2 < 2 ^ 32) →
        List.Sublist ((xs.filterMap (outputCoin txid nHeight (isCoinBaseOrStake tx))).map
          ((fun o : COutPoint => o.n.toNat) ∘ Prod.fst)) (xs.map Prod.snd) := by
      intro xs
      induction xs with
      | nil => simp
      | cons x xs ih =>
        intro hx
        rw [forall_mem_cons] at hx
        obtain ⟨o, i⟩ := x
        cases o with
        | standard p =>
          have hi : i % 4294967296 = i := Nat.mod_eq_of_lt hx.1
          simpa [outputCoin, CTxOutBase.standard?, hi] using (ih hx.2)
        | ringCT p => exact List.Sublist.cons _ (ih hx.2)
        | data p => exact List.Sublist.cons _ (ih hx.2)
    refine hsub _ ?_
    rintro ⟨o, i⟩ hx
    have := snd_lt_of_mem_zipIdx hx
    dsimp only at this ⊢
    omega
  exact List.Nodup.sublist (List.Sublist.map _ filter_sublist) hall

lemma newCoins_outpoint (hv : tx.isBitcoinCVersion) (x : COutPoint × Coin)
    (hx : x ∈ newCoins txid tx nHeight) : ∃ i < tx.vpout.length, x.1 = ⟨txid, UInt32.ofNat i⟩ := by
  have hmem := (mem_filter.mp hx).1
  rw [txCoins, if_pos hv] at hmem
  obtain ⟨⟨o, i⟩, hoi, hcoin⟩ := mem_filterMap.mp hmem
  obtain ⟨p, -, rfl⟩ := Option.map_eq_some_iff.mp hcoin
  exact ⟨i, snd_lt_of_mem_zipIdx hoi, rfl⟩

def afterTx (txHash : CTransaction → Uint256) (nHeight : Nat) (coins : CoinMap)
    (tx : CTransaction) : CoinMap :=
  putAll (eraseAll coins (spentOutpoints tx)) (newCoins (txHash tx) tx nHeight)

end Coins
