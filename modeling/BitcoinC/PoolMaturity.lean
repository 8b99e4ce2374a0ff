import BitcoinC.PoolAcceptance
import BitcoinC.PoolLinks
import BitcoinC.ToyEnvironment

/-!
# Maturity in the mempool after a reorganisation

`removeForReorg` drops the transactions that are no longer final or whose coinbase
coins are no longer mature, with their descendants.
-/

namespace PoolMaturity

open Primitives Verdicts TxVerify Worklist TxMempool TxMempool.MemPool PoolLinks PoolAcceptance

variable {h : Uint256} {n : Nat} {r : TxInputs} {txin : CTxIn} {coin : Coin}

def spendsCoinbase (coins : CoinMap) (tx : CTransaction) : Bool :=
  tx.vin.any fun txin => !txin.isAnonInput && ((coins txin.prevout).map (·.fCoinBase)).getD false

/-- One call of `removeForReorg`; `fFinal` is the outcome of `CheckFinalTx` and
`CheckSequenceLocks`. -/
structure Reorg where
  coins : CoinMap
  nMemPoolHeight : Nat
  fFinal : CTransaction → Bool

def immature (R : Reorg) (o : COutPoint) : Bool :=
  match R.coins o with
  | none => true
  | some coin => coin.fCoinBase && (R.nMemPoolHeight : Int) - coin.nHeight < COINBASE_MATURITY

/-- The entries that `removeForReorg` starts from; `seen` are the coins that each transaction was
accepted with. -/
def mustGo (S : MemPool) (seen : CTransaction → CoinMap) (R : Reorg) (e : CTxMemPoolEntry) : Bool :=
  !R.fFinal e.tx || (spendsCoinbase (seen e.tx) e.tx && e.tx.vin.any fun txin =>
    !txin.isAnonInput && txin.prevout.hash ∉ S.ids && immature R txin.prevout)

def reorged (S : MemPool) (seen : CTransaction → CoinMap) (R : Reorg) : MemPool :=
  removeForReorg S (mustGo S seen R)

def MEMPOOL_HEIGHT : Nat := 0x7FFFFFFF

def poolCoin (tx : CTransaction) (n : UInt32) : Option Coin :=
  if tx.isBitcoinCVersion then
    match tx.vpout[n.toNat]? with
    | some (.standard p) => some ⟨⟨p.nValue, p.scriptPubKey⟩, false, MEMPOOL_HEIGHT, .standard⟩
    | _ => none
  else tx.vout[n.toNat]?.map fun out => ⟨out, false, MEMPOOL_HEIGHT, .standard⟩

def withPool (S : MemPool) (coins : CoinMap) : CoinMap := fun o =>
  if o.hash ∈ S.ids then poolCoin (S.entry o.hash).tx o.n else coins o

/-- A mempool whose entries were valid with the coins they were accepted with, and a new view. A
txid names one transaction: whether it is a coinbase or coinstake is the same wherever a coin of
it is seen, and a transaction in the pool is neither. -/
structure Setting (S : MemPool) (seen : CTransaction → CoinMap) (coins : CoinMap)
    (generated : Uint256 → Bool) : Prop where
  linked : Linked S
  accepted : ∀ h ∈ S.ids, ∃ n r, checkTxInputs (seen (S.entry h).tx) (S.entry h).tx n = .ok r
  before : ∀ h ∈ S.ids, ∀ o coin, seen (S.entry h).tx o = some coin → coin.fCoinBase =
    generated o.hash
  now : ∀ o coin, coins o = some coin → coin.fCoinBase = generated o.hash
  ordinary : ∀ h ∈ S.ids, generated h = false

/-- An entry stays unless a member of the pool that must go is the entry or one of its ancestors. -/
lemma mem_reorged {S : MemPool} (hS : Linked S) (seen : CTransaction → CoinMap) (R : Reorg)
    (h : Uint256) :
    h ∈ (reorged S seen R).ids ↔ h ∈ S.ids ∧ ∀ v ∈ S.ids, mustGo S seen R (S.entry v) →
      ¬ Relation.ReflTransGen (Next S.parents) h v := by
  have hids := (removed_removeStaged hS
    (S.allDescendants (S.ids.filter fun h => mustGo S seen R (S.entry h))) false).ids
  rw [reorged, removeForReorg, removeWhere, hids, List.mem_filter]
  simp only [decide_not, Bool.not_eq_eq_eq_not, Bool.not_true, decide_eq_false_iff_not,
    hS.mem_allDescendants _ fun v hv => (List.mem_filter.mp hv).1]
  simp

lemma checkTxInputs_coin {coins : CoinMap} {tx : CTransaction}
    (h : checkTxInputs coins tx n = .ok r) (hin : txin ∈ tx.vin) (hstd : ¬ txin.isAnonInput) :
    ∃ coin, coins txin.prevout = some coin ∧ ¬ premature n coin := by
  simp only [checkTxInputs, bind_ok_iff] at h
  obtain ⟨-, -, -, -, t, hloop, -⟩ := h
  obtain ⟨m, m', hstep⟩ := loop_ok_mem _ _ _ _ hloop txin hin
  obtain ⟨⟨coin, hcoin, hmature, -⟩, -⟩ :=
    (tallyInput_standard_ok_iff coins n m m' txin hstd).mp hstep
  exact ⟨coin, hcoin, hmature⟩

section Cleanup

variable {S : MemPool} {seen : CTransaction → CoinMap} {R : Reorg} {generated : Uint256 → Bool}

/-- An entry that spends a confirmed coinbase coin has been marked, and the coin is not one of the
pool's. -/
lemma Setting.marked (hS : Setting S seen R.coins generated) (hin : h ∈ S.ids)
    (htxin : txin ∈ (S.entry h).tx.vin) (hstd : ¬ txin.isAnonInput)
    (hcoin : R.coins txin.prevout = some coin) (hcb : coin.fCoinBase = true) :
    spendsCoinbase (seen (S.entry h).tx) (S.entry h).tx = true ∧ txin.prevout.hash ∉ S.ids := by
  have hgen : generated txin.prevout.hash = true := (hS.now _ _ hcoin).symm.trans hcb
  constructor
  · obtain ⟨n, r, haccepted⟩ := hS.accepted h hin
    obtain ⟨old, hold, -⟩ := checkTxInputs_coin haccepted htxin hstd
    have holdcb : old.fCoinBase = true := (hS.before h hin _ _ hold).trans hgen
    exact List.any_eq_true.mpr ⟨txin, htxin, by simp [hstd, hold, holdcb]⟩
  · intro hmem
    rw [hS.ordinary _ hmem] at hgen
    cases hgen

lemma Setting.mustGo_of_shallow (hS : Setting S seen R.coins generated) (hin : h ∈ S.ids)
    (htxin : txin ∈ (S.entry h).tx.vin) (hstd : ¬ txin.isAnonInput)
    (hcoin : R.coins txin.prevout = some coin) (hcb : coin.fCoinBase = true)
    (hdepth : (R.nMemPoolHeight : Int) - coin.nHeight < COINBASE_MATURITY) :
    mustGo S seen R (S.entry h) = true := by
  obtain ⟨hmarked, houtside⟩ := hS.marked hin htxin hstd hcoin hcb
  have himmature : immature R txin.prevout = true := by simp [immature, hcoin, hcb, hdepth]
  simp only [mustGo, hmarked, Bool.true_and, Bool.or_eq_true, List.any_eq_true]
  exact .inr ⟨txin, htxin, by simp [hstd, houtside, himmature]⟩

/-- A final entry that must go although `CheckTxInputs` accepts it spends a shallow coinbase
coin. -/
lemma shallow_of_mustGo (hfinal : R.fFinal (S.entry h).tx = true)
    (hgo : mustGo S seen R (S.entry h) = true)
    (hok : checkTxInputs (withPool S R.coins) (S.entry h).tx R.nMemPoolHeight = .ok r) :
    ∃ txin ∈ (S.entry h).tx.vin, ¬ txin.isAnonInput ∧ ∃ coin, R.coins txin.prevout = some coin ∧
      coin.fCoinBase = true ∧ (R.nMemPoolHeight : Int) - coin.nHeight < COINBASE_MATURITY := by
  simp only [mustGo, hfinal, Bool.not_true, Bool.false_or, Bool.and_eq_true, List.any_eq_true,
    Bool.not_eq_true', decide_eq_false_iff_not, decide_eq_true_eq] at hgo
  obtain ⟨-, txin, htxin, ⟨hstd, houtside⟩, himmature⟩ := hgo
  obtain ⟨coin, hcoin, -⟩ := checkTxInputs_coin hok htxin hstd
  rw [withPool, if_neg houtside] at hcoin
  simp only [immature, hcoin, Bool.and_eq_true, decide_eq_true_eq] at himmature
  exact ⟨txin, htxin, hstd, coin, hcoin, himmature⟩

variable (S seen R)

/-- No transaction that stays spends a confirmed coin that `CheckTxInputs` finds premature. -/
def NoPremature : Prop :=
  ∀ h ∈ (reorged S seen R).ids, ∀ txin ∈ (S.entry h).tx.vin, ¬ txin.isAnonInput →
    ∀ coin, R.coins txin.prevout = some coin → ¬ premature R.nMemPoolHeight coin

/-- A final transaction of the pool with all its ancestors kept whose inputs `CheckTxInputs`
accepts. -/
structure StillValid (h : Uint256) : Prop where
  member : h ∈ S.ids
  final : R.fFinal (S.entry h).tx = true
  ancestors : ∀ a, Relation.TransGen (Next S.parents) h a → a ∈ (reorged S seen R).ids
  inputs : ∃ r, checkTxInputs (withPool S R.coins) (S.entry h).tx R.nMemPoolHeight = .ok r

/-- The coinbase coins it spends have the full depth. -/
def FullDepth (h : Uint256) : Prop :=
  ∀ txin ∈ (S.entry h).tx.vin, ¬ txin.isAnonInput → ∀ coin, R.coins txin.prevout = some coin →
    coin.fCoinBase = true → COINBASE_MATURITY ≤ (R.nMemPoolHeight : Int) - coin.nHeight

variable {S seen R}

lemma Setting.noPremature (hS : Setting S seen R.coins generated) : NoPremature S seen R := by
  rintro h hin txin htxin hstd coin hcoin ⟨hcb, hdepth, -⟩
  obtain ⟨hmem, hstays⟩ := (mem_reorged hS.linked seen R h).mp hin
  exact hstays h hmem (hS.mustGo_of_shallow hmem htxin hstd hcoin hcb hdepth) .refl

lemma mustGo_of_removed (hS : Linked S) (hmem : h ∈ S.ids)
    (hancestors : ∀ a, Relation.TransGen (Next S.parents) h a → a ∈ (reorged S seen R).ids)
    (hgone : h ∉ (reorged S seen R).ids) : mustGo S seen R (S.entry h) = true := by
  rw [mem_reorged hS, not_and] at hgone
  push Not at hgone
  obtain ⟨v, hv, hgo, hreach⟩ := hgone hmem
  rcases Relation.reflTransGen_iff_eq_or_transGen.mp hreach with rfl | htrans
  · exact hgo
  · have hkept := (mem_reorged hS seen R v).mp (hancestors v htrans)
    exact absurd .refl (hkept.2 v hv hgo)

/-- A valid transaction stays exactly when its coins are deep enough. -/
lemma Setting.stays_iff (hS : Setting S seen R.coins generated) (hvalid : StillValid S seen R h) :
    h ∈ (reorged S seen R).ids ↔ FullDepth S R h := by
  constructor
  · intro hin txin htxin hstd coin hcoin hcb
    by_contra hdepth
    have hgo := hS.mustGo_of_shallow hvalid.member htxin hstd hcoin hcb (not_le.mp hdepth)
    exact ((mem_reorged hS.linked seen R h).mp hin).2 h hvalid.member hgo .refl
  · intro hdepth
    by_contra hgone
    have hgo := mustGo_of_removed hS.linked hvalid.member hvalid.ancestors hgone
    obtain ⟨r, hok⟩ := hvalid.inputs
    obtain ⟨txin, htxin, hstd, coin, hcoin, hcb, hlt⟩ := shallow_of_mustGo hvalid.final hgo hok
    have := hdepth txin htxin hstd coin hcoin hcb
    omega

lemma fullDepth_of_late (hlate : 2 * COINBASE_MATURITY ≤ coin.nHeight) (hcb : coin.fCoinBase = true)
    (hmature : ¬ premature n coin) : COINBASE_MATURITY ≤ (n : Int) - coin.nHeight := by
  unfold premature COINBASE_MATURITY at *
  by_contra hlt
  exact hmature ⟨hcb, by omega, by omega⟩

lemma Setting.fullDepth (hS : Setting S seen R.coins generated)
    (hlate : ∀ o coin, R.coins o = some coin → coin.fCoinBase = true → 2 * COINBASE_MATURITY ≤
      coin.nHeight)
    (hvalid : StillValid S seen R h) : FullDepth S R h := by
  intro txin htxin hstd coin hcoin hcb
  obtain ⟨r, hok⟩ := hvalid.inputs
  obtain ⟨seenCoin, hseen, hmature⟩ := checkTxInputs_coin hok htxin hstd
  rw [withPool, if_neg (hS.marked hvalid.member htxin hstd hcoin hcb).2] at hseen
  cases hcoin.symm.trans hseen
  exact fullDepth_of_late (hlate _ _ hcoin hcb) hcb hmature

end Cleanup

/-- After `removeForReorg` no transaction is left that spends a premature coin; and it keeps the
transactions that are still valid exactly when each of them spends only coinbase coins of the full
depth, as they all do when no coinbase coin is of the first `2 * COINBASE_MATURITY` heights. -/
theorem reorg_cleanup_exact_iff (S : MemPool) (seen : CTransaction → CoinMap) (R : Reorg)
    (generated : Uint256 → Bool) (hS : Setting S seen R.coins generated) : NoPremature S seen R ∧
      ((∀ h, StillValid S seen R h → h ∈ (reorged S seen R).ids) ↔
        ∀ h, StillValid S seen R h → FullDepth S R h) ∧
      ((∀ o coin, R.coins o = some coin → coin.fCoinBase = true → 2 * COINBASE_MATURITY ≤
        coin.nHeight) → ∀ h, StillValid S seen R h → FullDepth S R h) :=
  ⟨hS.noPremature, forall_congr' fun _ => imp_congr_right fun hvalid => hS.stays_iff hvalid,
    fun hlate _ => hS.fullDepth hlate⟩

section

open ToyEnvironment CTxMemPoolEntry

def earlySpend : CTransaction :=
  { nVersion := 0xA0, vin := [spend 5 0], vpout :=
    [.standard { nValue := 1000, scriptPubKey := [] }] }

def earlyCoins : CoinMap := fun o => if o = ⟨5, 0⟩ then some ⟨⟨5000, []⟩, true, 10, .standard⟩
    else none

def earlyPool : MemPool :=
  { MemPool.empty with
    ids := [7]
    entry := fun _ => make earlySpend 4000 100 0 0
    mapNextTx := [(⟨5, 0⟩, 7)] }

def earlyReorg (n : Nat) : Reorg := ⟨earlyCoins, n, fun _ => true⟩

lemma earlyPool_setting : Setting earlyPool (fun _ => earlyCoins) earlyCoins (fun h => h = 5) where
  linked := ⟨List.nodup_singleton _, linked_empty.parents_nodup, linked_empty.children_nodup,
    fun _ _ h => absurd h List.not_mem_nil, linked_empty.symm⟩
  accepted _ _ := by
    obtain ⟨r, hr, -⟩ := exists_ok_of_toOption (checkTxInputs earlyCoins earlySpend 16)
      (·.nTxFee) 4000 (by decide +kernel)
    exact ⟨16, r, hr⟩
  before _ _ o coin h := by
    obtain ⟨rfl, rfl⟩ : o = ⟨5, 0⟩ ∧ _ = coin := by simpa [earlyCoins] using h
    rfl
  now o coin h := by
    obtain ⟨rfl, rfl⟩ : o = ⟨5, 0⟩ ∧ _ = coin := by simpa [earlyCoins] using h
    rfl
  ordinary h hin := by
    obtain rfl : h = 7 := by simpa [earlyPool] using hin
    decide

/-- With the coin at its full depth the transaction stays. -/
theorem reorg_cleanup_exact_iff_deep :
    NoPremature earlyPool (fun _ => earlyCoins) (earlyReorg 110) ∧
      (reorged earlyPool (fun _ => earlyCoins) (earlyReorg 110)).ids = [7] ∧
      ∀ h, StillValid earlyPool (fun _ => earlyCoins) (earlyReorg 110) h →
        FullDepth earlyPool (earlyReorg 110) h := by
  have hids : (reorged earlyPool (fun _ => earlyCoins) (earlyReorg 110)).ids =
    [7] := by decide +kernel
  obtain ⟨hfirst, hsecond, -⟩ := reorg_cleanup_exact_iff earlyPool (fun _ => earlyCoins)
    (earlyReorg 110) _ earlyPool_setting
  refine ⟨hfirst, hids, hsecond.mp fun h hvalid => ?_⟩
  rw [hids]
  exact hvalid.member

/-- At depth 6 of the required 5 the transaction is valid and is dropped. -/
theorem early_spend_is_dropped :
    Setting earlyPool (fun _ => earlyCoins) (earlyReorg 16).coins (fun h => h = 5) ∧
      StillValid earlyPool (fun _ => earlyCoins) (earlyReorg 16) 7 ∧
      7 ∉ (reorged earlyPool (fun _ => earlyCoins) (earlyReorg 16)).ids := by
  refine ⟨earlyPool_setting, ⟨List.mem_singleton_self 7, rfl, fun a hancestor => ?_,
    ?_⟩, by decide +kernel⟩
  · obtain ⟨p, hp, -⟩ := Relation.TransGen.head'_iff.mp hancestor
    exact absurd hp List.not_mem_nil
  · obtain ⟨r, hr, -⟩ := exists_ok_of_toOption
      (checkTxInputs (withPool earlyPool earlyCoins) earlySpend 16) (·.nTxFee) 4000
        (by decide +kernel)
    exact ⟨r, hr⟩

end

end PoolMaturity
