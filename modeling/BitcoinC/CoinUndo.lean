import BitcoinC.DisconnectBlock

/-!
# Undoing on the coins alone

What `DisconnectBlock` does to the coins, without its bookkeeping: take the coins
a transaction created, put back the ones it spent, in reverse order.
-/

namespace CoinUndo

open Primitives Scripts Environment Verdicts TxVerify Coins DisconnectBlock KeyedStore List Option

variable (os : List COutPoint) (us : List Coin)

def core (coin : Coin) : CTxOut × Nat × Bool := (coin.out, coin.nHeight, coin.fCoinBase)

def cores (coins : CoinMap) (o : COutPoint) : Option (CTxOut × Nat × Bool) := (coins o).map core

lemma cores_eq_none_iff (coins : CoinMap) (o : COutPoint) : cores coins o = none ↔ coins o = none :=
  map_eq_none_iff

lemma cores_erase (coins : CoinMap) (o : COutPoint) :
    cores (erase coins o) = erase (cores coins) o := by
  funext a
  unfold cores erase
  split <;> rfl

lemma cores_eraseAll_apply (coins : CoinMap) (os : List COutPoint) (a : COutPoint) :
    cores (eraseAll coins os) a = if a ∈ os then none else cores coins a := by
  unfold cores
  rw [eraseAll_apply]
  split <;> rfl

lemma accessFrom_cores (m coins : CoinMap) (h : cores m = cores coins) (txid : Uint256)
    (count n : Nat) :
    (accessFrom m txid count n).map core = (accessFrom coins txid count n).map core := by
  induction count generalizing n with
  | zero => rfl
  | succ count ih =>
    have hn : (m ⟨txid, UInt32.ofNat n⟩).map core = (coins ⟨txid, UInt32.ofNat n⟩).map core :=
      congrFun h _
    unfold accessFrom
    cases hm : m ⟨txid, UInt32.ofNat n⟩ with
    | none =>
      rw [hm, map_none, eq_comm, map_eq_none_iff] at hn
      rw [hn]
      exact ih (n + 1)
    | some a =>
      rw [hm, map_some, eq_comm, map_eq_some_iff] at hn
      obtain ⟨b, hb, hcore⟩ := hn
      rw [hb]
      simp [hcore]

/-- A coin comes back as it was: `AddCoin` takes it, and if its height is 0 the first other unspent
output of its transaction has the same metadata. -/
def Recoverable (coins : CoinMap) (o : COutPoint) (coin : Coin) : Prop :=
  isUnspendable coin.out.scriptPubKey = false ∧
    (coin.nHeight = 0 → ∃ alternate ∈ accessByTxid coins o.hash,
      alternate.nHeight = 0 ∧ alternate.fCoinBase = coin.fCoinBase)

instance (coins : CoinMap) (o : COutPoint) (coin : Coin) : Decidable (Recoverable coins o coin) :=
  inferInstanceAs (Decidable (_ ∧ _))

def InputsRecoverable : CoinMap → List COutPoint → Prop
  | _, [] => True
  | coins, o :: os =>
    (∀ coin ∈ coins o, Recoverable (erase coins o) o coin) ∧ InputsRecoverable (erase coins o) os

instance decidableInputsRecoverable :
    (coins : CoinMap) → (os : List COutPoint) → Decidable (InputsRecoverable coins os)
  | _, [] => inferInstanceAs (Decidable True)
  | coins, o :: os =>
    have := decidableInputsRecoverable (erase coins o) os
    inferInstanceAs (Decidable (_ ∧ _))

def restoreCoin (m : CoinMap × Bool) (x : COutPoint × Coin) : Verdict (CoinMap × Bool) := do
  let r ← applyTxInUndo m.1 x.2 x.1
  pure (r.1, m.2 && r.2)

lemma undoMetadata_out (coins : CoinMap) (undo coin : Coin) (txid : Uint256)
    (h : undoMetadata coins undo txid = .ok coin) : coin.out = undo.out := by
  unfold undoMetadata at h
  split at h
  · simp only [bind_ok_iff, pure_ok_iff] at h
    obtain ⟨alternate, -, rfl⟩ := h
    rfl
  · rw [← Except.ok.inj h]

lemma undoMetadata_of_recoverable (coins : CoinMap) (o : COutPoint) (coin : Coin)
    (h : Recoverable coins o coin) : undoMetadata coins coin o.hash = .ok coin := by
  unfold undoMetadata
  split
  · rename_i hheight
    obtain ⟨alternate, haccess, halt, hcb⟩ := h.2 hheight
    rw [haccess]
    show Except.ok { coin with nHeight := alternate.nHeight, fCoinBase := alternate.fCoinBase } = _
    rw [halt, hcb, ← hheight]
  · rfl

lemma restoreCoin_erase (coins : CoinMap) (o : COutPoint) (coin : Coin) (fClean : Bool)
    (hcoin : coins o = some coin) (h : Recoverable (erase coins o) o coin) :
    restoreCoin (erase coins o, fClean) (o, coin) = .ok (coins, fClean) := by
  simp only [restoreCoin, applyTxInUndo, bind_ok_iff, pure_ok_iff,
    undoMetadata_of_recoverable _ _ _ h, Except.ok.injEq, exists_eq_left', erase_self]
  refine ⟨(coins, true), ⟨coins, ?_, rfl⟩, by simp⟩
  rw [addCoin_ok_iff _ _ _ _ (by simp [spendable, h.1])]
  exact ⟨Or.inr (erase_self coins o), (put_erase coins o coin hcoin).symm⟩

lemma restoreCoin_inv (m m' coins : CoinMap) (o : COutPoint) (coin : Coin) (fClean : Bool)
    (hcoin : coins o = some coin) (hcores : cores m' = cores coins)
    (h : restoreCoin (m, fClean) (o, coin) = .ok (m', true)) :
    fClean = true ∧ cores m = cores (erase coins o) ∧ Recoverable (erase coins o) o coin := by
  simp only [restoreCoin, applyTxInUndo, bind_ok_iff, pure_ok_iff, Prod.mk.injEq,
    Bool.and_eq_true] at h
  obtain ⟨r, ⟨restored, hmeta, added, hadd, rfl⟩, rfl, hclean, habsent⟩ := h
  have hnone : m o = none := by simpa using habsent
  have hat : cores added o = some (core coin) := by rw [hcores, cores, hcoin]; rfl
  have hout := undoMetadata_out _ _ _ _ hmeta
  by_cases hsp : isUnspendable restored.out.scriptPubKey
  · -- such a coin is not added at all
    rw [addCoin, if_pos hsp, Except.ok.injEq] at hadd
    rw [← hadd, cores, hnone] at hat
    cases hat
  · obtain ⟨-, rfl⟩ := (addCoin_ok_iff _ _ _ (o, restored) (by simp [spendable, hsp])).mp hadd
    have hcore : core restored = core coin := by
      rw [cores, put_self, map_some] at hat
      exact some.inj hat
    have hm : cores m = cores (erase coins o) := by
      rw [cores_erase, ← hcores]
      funext a
      unfold cores erase put
      by_cases ha : a = o
      · subst ha
        simp [hnone]
      · simp [ha]
    refine ⟨hclean, hm, by simpa [hout] using hsp, ?_⟩
    intro hheight
    rw [undoMetadata, if_pos hheight] at hmeta
    simp only [bind_ok_iff, orReject_ok_iff, pure_ok_iff] at hmeta
    obtain ⟨alternate, haccess, rfl⟩ := hmeta
    have hsame := accessFrom_cores m (erase coins o) hm o.hash MAX_OUTPUTS_PER_BLOCK 0
    rw [show accessFrom m o.hash _ 0 = some alternate from haccess, map_some, eq_comm,
      map_eq_some_iff] at hsame
    obtain ⟨b, hb, hcoreb⟩ := hsame
    simp only [core, Prod.mk.injEq] at hcore hcoreb
    exact ⟨b, hb, by rw [hcoreb.2.1, hcore.2.1, hheight], by rw [hcoreb.2.2, hcore.2.2]⟩

lemma map_erase_of_notMem (coins : CoinMap) (o : COutPoint) (os : List COutPoint) (h : o ∉ os) :
    os.map (erase coins o) = os.map coins := by
  refine map_congr_left fun a ha => erase_other coins o a ?_
  rintro rfl
  exact h ha

lemma restoreCoins_ok (coins : CoinMap) (fClean : Bool) (hnodup : os.Nodup)
    (hus : os.map coins = us.map some) (h : InputsRecoverable coins os) :
    loop restoreCoin (eraseAll coins os, fClean) (os.zip us).reverse = .ok (coins, fClean) := by
  induction os generalizing coins us with
  | nil => rfl
  | cons o os ih =>
    rw [nodup_cons] at hnodup
    cases us with
    | nil => cases hus
    | cons u us =>
      obtain ⟨hu, hus⟩ := cons.inj hus
      rw [← map_erase_of_notMem coins o os hnodup.1] at hus
      rw [zip_cons_cons, reverse_cons, loop_append_ok_iff]
      refine ⟨(erase coins o, fClean), ih us (erase coins o) hnodup.2 hus h.2, ?_⟩
      rw [loop_cons_ok_iff]
      exact ⟨_, restoreCoin_erase coins o u fClean hu (h.1 u hu), rfl⟩

/-- A clean run that ends in `coins` started without the spent ones, and they are recoverable. -/
lemma restoreCoins_inv (coins m m' : CoinMap) (fClean : Bool) (hnodup : os.Nodup)
    (hus : os.map coins = us.map some) (hcores : cores m' = cores coins)
    (h : loop restoreCoin (m, fClean) (os.zip us).reverse = .ok (m', true)) :
    fClean = true ∧ cores m = cores (eraseAll coins os) ∧ InputsRecoverable coins os := by
  induction os generalizing coins us m' with
  | nil =>
    obtain ⟨rfl, rfl⟩ := Prod.mk.inj (Except.ok.inj h)
    exact ⟨rfl, hcores, trivial⟩
  | cons o os ih =>
    rw [nodup_cons] at hnodup
    cases us with
    | nil => cases hus
    | cons u us =>
      obtain ⟨hu, hus⟩ := cons.inj hus
      rw [← map_erase_of_notMem coins o os hnodup.1] at hus
      rw [zip_cons_cons, reverse_cons, loop_append_ok_iff] at h
      obtain ⟨⟨n, g⟩, hfirst, hlast⟩ := h
      obtain ⟨r, hstep, hr⟩ := (loop_cons_ok_iff _ _ _ _ _).mp hlast
      obtain rfl : r = (m', true) := Except.ok.inj hr
      obtain ⟨rfl, hn, hrec⟩ := restoreCoin_inv n m' coins o u g hu hcores hstep
      obtain ⟨hclean, hm, hall⟩ := ih us (erase coins o) n hnodup.2 hus hn hfirst
      refine ⟨hclean, hm, ?_, hall⟩
      intro coin hcoin
      rw [hu, mem_some_iff] at hcoin
      exact hcoin ▸ hrec

def takeCoin (m : CoinMap × Bool) (x : COutPoint × Coin) : CoinMap × Bool :=
  (erase m.1 x.1, m.2 && (m.1 x.1).any fun coin => core coin = core x.2)

def takeCoins (m : CoinMap × Bool) (xs : List (COutPoint × Coin)) : CoinMap × Bool :=
  xs.foldl takeCoin m

lemma takeCoins_eq (xs : List (COutPoint × Coin)) (m : CoinMap) (fClean : Bool)
    (hnodup : (xs.map Prod.fst).Nodup) : takeCoins (m, fClean) xs =
      (eraseAll m (xs.map Prod.fst),
        fClean && xs.all fun x => (m x.1).any fun coin => core coin = core x.2) := by
  induction xs generalizing m fClean with
  | nil => simp [takeCoins, eraseAll]
  | cons x xs ih =>
    rw [map_cons, nodup_cons] at hnodup
    have hrest : (xs.all fun y => (erase m x.1 y.1).any fun coin => core coin = core y.2) =
        xs.all fun y => (m y.1).any fun coin => core coin = core y.2 := by
      rw [Bool.eq_iff_iff, List.all_eq_true, List.all_eq_true]
      refine forall₂_congr fun y hy => ?_
      rw [erase_other m x.1 y.1 fun heq => hnodup.1 (heq ▸ mem_map_of_mem hy)]
    show takeCoins (takeCoin (m, fClean) x) xs = _
    rw [takeCoin, ih _ _ hnodup.2, hrest, all_cons, Bool.and_assoc]
    rfl

section

variable (txHash : CTransaction → Uint256) (nHeight : Nat)

def undoCoins (m : CoinMap × Bool) (x : CTransaction × CTxUndo) : Verdict (CoinMap × Bool) :=
  loop restoreCoin (takeCoins m (newCoins (txHash x.1) x.1 nHeight).reverse)
    ((spentOutpoints x.1).zip x.2.vprevout).reverse

/-- The spent coins can be put back, and the new coins are not in the way. -/
def TxUndoable (coins : CoinMap) (tx : CTransaction) : Prop :=
  InputsRecoverable coins (spentOutpoints tx) ∧
    ∀ x ∈ newCoins (txHash tx) tx nHeight, eraseAll coins (spentOutpoints tx) x.1 = none

instance (coins : CoinMap) (tx : CTransaction) : Decidable (TxUndoable txHash nHeight coins tx) :=
  inferInstanceAs (Decidable (_ ∧ _))

lemma takeCoins_reverse (xs : List (COutPoint × Coin)) (m : CoinMap) (fClean : Bool)
    (hnodup : (xs.map Prod.fst).Nodup) : takeCoins (m, fClean) xs.reverse =
      (eraseAll m (xs.map Prod.fst),
        fClean && xs.all fun x => (m x.1).any fun coin => core coin = core x.2) := by
  have hsame : eraseAll m (xs.reverse.map Prod.fst) = eraseAll m (xs.map Prod.fst) := by
    funext a
    simp only [eraseAll_apply, map_reverse, mem_reverse]
  rw [takeCoins_eq, hsame, all_reverse]
  rw [map_reverse]
  exact nodup_reverse.mpr hnodup

section

variable {coins coins' : CoinMap} {x : CTransaction × CTxUndo}
  (hupdate : updateCoins (txHash x.1) coins x.1 nHeight = .ok (coins', x.2))
  (hnew : ((newCoins (txHash x.1) x.1 nHeight).map Prod.fst).Nodup)

include hupdate hnew

lemma undoCoins_ok (fClean : Bool) (h : TxUndoable txHash nHeight coins x.1) :
    undoCoins txHash nHeight (coins', fClean) x = .ok (coins, fClean) := by
  obtain ⟨hspent, hundo, -, rfl⟩ := (updateCoins_ok_iff _ _ _ _ _ _).mp hupdate
  have hall : ((newCoins (txHash x.1) x.1 nHeight).all fun y =>
      (putAll (eraseAll coins (spentOutpoints x.1)) (newCoins (txHash x.1) x.1 nHeight) y.1).any
        fun coin => core coin = core y.2) = true := by
    rw [List.all_eq_true]
    intro y hy
    rw [putAll_of_mem _ _ y.1 y.2 hnew hy]
    simp
  have herase : eraseAll (putAll (eraseAll coins (spentOutpoints x.1))
      (newCoins (txHash x.1) x.1 nHeight)) ((newCoins (txHash x.1) x.1 nHeight).map Prod.fst) =
      eraseAll coins (spentOutpoints x.1) := by
    funext a
    rw [eraseAll_apply]
    split
    · rename_i ha
      obtain ⟨y, hy, rfl⟩ := mem_map.mp ha
      exact (h.2 y hy).symm
    · rename_i ha
      exact putAll_of_notMem _ _ _ ha
  rw [undoCoins, takeCoins_reverse _ _ _ hnew, hall, herase, Bool.and_true]
  exact restoreCoins_ok _ _ coins fClean hspent hundo h.1

lemma undoCoins_inv (m m' : CoinMap) (fClean : Bool) (hcores : cores m' = cores coins)
    (h : undoCoins txHash nHeight (m, fClean) x = .ok (m', true)) :
    fClean = true ∧ cores m = cores coins' ∧ TxUndoable txHash nHeight coins x.1 := by
  obtain ⟨hspent, hundo, -, rfl⟩ := (updateCoins_ok_iff _ _ _ _ _ _).mp hupdate
  rw [undoCoins, takeCoins_reverse _ _ _ hnew] at h
  obtain ⟨hclean, hm, hrec⟩ := restoreCoins_inv _ _ coins _ m' _ hspent hundo hcores h
  rw [Bool.and_eq_true, List.all_eq_true] at hclean
  refine ⟨hclean.1, ?_, hrec, ?_⟩
  · funext a
    by_cases ha : a ∈ (newCoins (txHash x.1) x.1 nHeight).map Prod.fst
    · obtain ⟨y, hy, rfl⟩ := List.mem_map.mp ha
      have hany := hclean.2 y hy
      rw [Option.any_eq_true] at hany
      obtain ⟨coin, hcoin, hcore⟩ := hany
      rw [cores, cores, hcoin, putAll_of_mem _ _ y.1 y.2 hnew hy, Option.map_some, Option.map_some,
        of_decide_eq_true hcore]
    · have hat := congrFun hm a
      rw [cores_eraseAll_apply, if_neg ha] at hat
      rw [hat, cores, cores, putAll_of_notMem _ _ _ ha]
  · intro y hy
    have hat := congrFun hm y.1
    rw [cores_eraseAll_apply, if_pos (mem_map_of_mem hy), eq_comm, cores_eq_none_iff] at hat
    exact hat

end

def Connects : CoinMap → List (CTransaction × CTxUndo) → CoinMap → Prop
  | coins, [], coins' => coins' = coins
  | coins, x :: xs, coins' =>
    ∃ m, updateCoins (txHash x.1) coins x.1 nHeight = .ok (m, x.2) ∧ Connects m xs coins'

def BlockUndoable : CoinMap → List CTransaction → Prop
  | _, [] => True
  | coins, tx :: txs =>
    TxUndoable txHash nHeight coins tx ∧ BlockUndoable (afterTx txHash nHeight coins tx) txs

instance decidableBlockUndoable : (coins : CoinMap) → (txs : List CTransaction) →
    Decidable (BlockUndoable txHash nHeight coins txs)
  | _, [] => inferInstanceAs (Decidable True)
  | coins, tx :: txs =>
    have := decidableBlockUndoable (afterTx txHash nHeight coins tx) txs
    inferInstanceAs (Decidable (_ ∧ _))

lemma Connects.cons {coins coins' : CoinMap} {x : CTransaction × CTxUndo}
    {xs : List (CTransaction × CTxUndo)} (h : Connects txHash nHeight coins (x :: xs) coins') :
    updateCoins (txHash x.1) coins x.1 nHeight = .ok (afterTx txHash nHeight coins x.1, x.2) ∧
      Connects txHash nHeight (afterTx txHash nHeight coins x.1) xs coins' := by
  obtain ⟨m, hm, hrest⟩ := h
  obtain rfl : m = afterTx txHash nHeight coins x.1 :=
    ((updateCoins_ok_iff _ _ _ _ _ _).mp hm).2.2.2
  exact ⟨hm, hrest⟩

section

variable (xs : List (CTransaction × CTxUndo))
  (hnew : ∀ x ∈ xs, ((newCoins (txHash x.1) x.1 nHeight).map Prod.fst).Nodup)

include hnew

lemma undoBlock_ok (coins coins' : CoinMap) (fClean : Bool)
    (hconnects : Connects txHash nHeight coins xs coins')
    (h : BlockUndoable txHash nHeight coins (xs.map Prod.fst)) :
    loop (undoCoins txHash nHeight) (coins', fClean) xs.reverse = .ok (coins, fClean) := by
  induction xs generalizing coins with
  | nil =>
    rw [Connects] at hconnects
    subst hconnects
    rfl
  | cons x xs ih =>
    rw [forall_mem_cons] at hnew
    obtain ⟨hupdate, hrest⟩ := hconnects.cons
    rw [reverse_cons, loop_append_ok_iff]
    refine ⟨_, ih hnew.2 _ hrest h.2, ?_⟩
    rw [loop_cons_ok_iff]
    exact ⟨_, undoCoins_ok txHash nHeight hupdate hnew.1 fClean h.1, rfl⟩

lemma undoBlock_inv (coins coins' m m' : CoinMap) (fClean : Bool)
    (hconnects : Connects txHash nHeight coins xs coins') (hcores : cores m' = cores coins)
    (h : loop (undoCoins txHash nHeight) (m, fClean) xs.reverse = .ok (m', true)) :
    fClean = true ∧ BlockUndoable txHash nHeight coins (xs.map Prod.fst) := by
  induction xs generalizing coins m' with
  | nil => exact ⟨(Prod.mk.inj (Except.ok.inj h)).2, trivial⟩
  | cons x xs ih =>
    rw [forall_mem_cons] at hnew
    obtain ⟨hupdate, hrest⟩ := hconnects.cons
    rw [reverse_cons, loop_append_ok_iff] at h
    obtain ⟨⟨n, g⟩, hlater, hlast⟩ := h
    obtain ⟨r, hstep, hr⟩ := (loop_cons_ok_iff _ _ _ _ _).mp hlast
    obtain rfl : r = (m', true) := Except.ok.inj hr
    obtain ⟨rfl, hn, hundoable⟩ := undoCoins_inv txHash nHeight hupdate hnew.1 n m' g hcores hstep
    obtain ⟨hclean, hall⟩ := ih hnew.2 _ n hrest hn hlater
    exact ⟨hclean, hundoable, hall⟩

end

end

end CoinUndo
