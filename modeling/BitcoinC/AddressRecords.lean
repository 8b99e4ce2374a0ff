import BitcoinC.AddressIndex

/-!
# What a connected block writes into the indexes

The unspent index follows the coins step by step: an entry is erased where a coin
is, and written where one is, in the order of the pushes, so that outputs spent in
their own block need no care.
-/

namespace AddressRecords

open Primitives Scripts Environment Verdicts TxVerify Coins Kernel ConnectBlock DisconnectBlock
  KeyedStore RingRecords CoinUndo UndoBlock AddressIndex List Option
variable (P Q : Pending)

@[simp] lemma append_addressIndex :
    (P.append Q).addressIndex = P.addressIndex ++ Q.addressIndex := rfl

@[simp] lemma append_addressUnspentIndex :
    (P.append Q).addressUnspentIndex = P.addressUnspentIndex ++ Q.addressUnspentIndex := rfl

@[simp] lemma append_spentIndex : (P.append Q).spentIndex = P.spentIndex ++ Q.spentIndex := rfl

@[simp] lemma gather_nil : gather [] = {} := rfl

@[simp] lemma gather_cons (Ps : List Pending) : gather (P :: Ps) = P.append (gather Ps) := rfl

def coinValue (coin : Coin) : CAddressUnspentValue :=
  ⟨coin.out.nValue, coin.out.scriptPubKey, coin.nHeight⟩

def unspentEntries (coins : CoinMap) (k : CAddressUnspentKey) : Option CAddressUnspentValue :=
  (classifiedAt coins ⟨k.txhash, k.index⟩).bind fun x =>
    if x.2 = (k.type, k.hashBytes) then some (coinValue x.1) else none

lemma eq_unspentKey_iff (k : CAddressUnspentKey) (info : AddressIndexType × Uint256)
    (o : COutPoint) :
    k = unspentKey info o ↔ info = (k.type, k.hashBytes) ∧
      (⟨k.txhash, k.index⟩ : COutPoint) = o := by
  obtain ⟨t, h, txid, n⟩ := k
  obtain ⟨t', h'⟩ := info
  obtain ⟨txid', n'⟩ := o
  simp only [unspentKey, CAddressUnspentKey.mk.injEq, Prod.mk.injEq, COutPoint.mk.injEq]
  constructor
  · rintro ⟨rfl, rfl, rfl, rfl⟩
    exact ⟨⟨rfl, rfl⟩, rfl, rfl⟩
  · rintro ⟨⟨rfl, rfl⟩, rfl, rfl⟩
    exact ⟨rfl, rfl, rfl, rfl⟩

lemma classified_standard (p : CTxOutStandard) :
    classified (.standard p) = (extractIndexInfo p.scriptPubKey).map fun info => (p, info) := rfl

lemma classifiedAt_congr (m m' : CoinMap) (o : COutPoint) (h : m o = m' o) :
    classifiedAt m o = classifiedAt m' o := by
  rw [classifiedAt, classifiedAt, h]

lemma classifiedAt_some (coins : CoinMap) (o : COutPoint) (coin : Coin) (h : coins o = some coin) :
    classifiedAt coins o = (extractIndexInfo coin.out.scriptPubKey).map fun info =>
      (coin, info) := by
  rw [classifiedAt, h, bind_some]

lemma classifiedAt_none (coins : CoinMap) (o : COutPoint) (h : coins o = none) :
    classifiedAt coins o = none := by
  rw [classifiedAt, h, bind_none]

lemma unspentEntries_congr (m m' : CoinMap) (k : CAddressUnspentKey)
    (h : m ⟨k.txhash, k.index⟩ = m' ⟨k.txhash, k.index⟩) :
    unspentEntries m k = unspentEntries m' k := by
  rw [unspentEntries, unspentEntries, classifiedAt_congr m m' _ h]

def writeEntry (o : COutPoint) (coin : Coin) : List (CAddressUnspentKey × CAddressUnspentValue) :=
  ((extractIndexInfo coin.out.scriptPubKey).map fun info => (unspentKey info o,
    coinValue coin)).toList

def eraseEntry (o : COutPoint) (coin : Coin) : List (CAddressUnspentKey × CAddressUnspentValue) :=
  ((extractIndexInfo coin.out.scriptPubKey).map fun info => (unspentKey info o, .null)).toList

lemma unspentEntries_put (coins : CoinMap) (o : COutPoint) (coin : Coin) (hnone : coins o = none)
    (hvalue : coin.out.nValue ≠ -1) :
    updateAddressUnspentIndex (unspentEntries coins) (writeEntry o coin) =
      unspentEntries (put coins o coin) := by
  funext k
  by_cases ho : (⟨k.txhash, k.index⟩ : COutPoint) = o
  · have hold : unspentEntries coins k = none := by
      rw [unspentEntries, classifiedAt_none _ _ (ho ▸ hnone), bind_none]
    have hnew : classifiedAt (put coins o coin) ⟨k.txhash, k.index⟩ =
        (extractIndexInfo coin.out.scriptPubKey).map fun info => (coin, info) :=
      classifiedAt_some _ _ _ (by rw [ho, put_self])
    rw [unspentEntries, hnew, writeEntry]
    cases extractIndexInfo coin.out.scriptPubKey with
    | none => exact hold
    | some info =>
      have hlive : (coinValue coin).isNull = false := decide_eq_false hvalue
      rw [map_some, map_some, bind_some, toList_some,
        updateAddressUnspentIndex, updateAll_value _ _ _ _ hlive]
      by_cases hinfo : info = (k.type, k.hashBytes)
      · rw [if_pos hinfo, (eq_unspentKey_iff k info o).mpr ⟨hinfo, ho⟩, put_self]
      · rw [if_neg hinfo, put_other _ _ _ _ fun hk => hinfo ((eq_unspentKey_iff k info o).mp hk).1,
          hold]
  · rw [← unspentEntries_congr coins (put coins o coin) k (put_other _ _ _ _ ho).symm, writeEntry]
    cases extractIndexInfo coin.out.scriptPubKey with
    | none => rfl
    | some info =>
      have hlive : (coinValue coin).isNull = false := decide_eq_false hvalue
      rw [map_some, toList_some, updateAddressUnspentIndex, updateAll_value _ _ _ _ hlive,
        put_other _ _ _ _ fun hk => ho ((eq_unspentKey_iff k info o).mp hk).2]

lemma unspentEntries_erase (coins : CoinMap) (o : COutPoint) (coin : Coin)
    (hcoin : coins o = some coin) :
    updateAddressUnspentIndex (unspentEntries coins) (eraseEntry o coin) =
      unspentEntries (erase coins o) := by
  funext k
  by_cases ho : (⟨k.txhash, k.index⟩ : COutPoint) = o
  · have hnew : unspentEntries (erase coins o) k = none := by
      rw [unspentEntries, classifiedAt_none _ _ (by rw [ho, erase_self]), bind_none]
    have hold : unspentEntries coins k = ((extractIndexInfo coin.out.scriptPubKey).map
        fun info => (coin, info)).bind fun x =>
          if x.2 = (k.type, k.hashBytes) then some (coinValue x.1) else none := by
      rw [unspentEntries, classifiedAt_some _ _ _ (ho ▸ hcoin)]
    rw [hnew, eraseEntry]
    cases hinfo : extractIndexInfo coin.out.scriptPubKey with
    | none =>
      rw [hinfo] at hold
      exact hold
    | some info =>
      rw [hinfo, map_some, bind_some] at hold
      rw [map_some, toList_some, updateAddressUnspentIndex, updateAll_null _ _ _ _ rfl]
      by_cases hk : info = (k.type, k.hashBytes)
      · rw [(eq_unspentKey_iff k info o).mpr ⟨hk, ho⟩, erase_self]
      · rw [erase_other _ _ _ fun heq => hk ((eq_unspentKey_iff k info o).mp heq).1,
          hold, if_neg hk]
  · rw [← unspentEntries_congr coins (erase coins o) k (erase_other _ _ _ ho).symm, eraseEntry]
    cases extractIndexInfo coin.out.scriptPubKey with
    | none => rfl
    | some info =>
      rw [map_some, toList_some, updateAddressUnspentIndex, updateAll_null _ _ _ _ rfl,
        erase_other _ _ _ fun hk => ho ((eq_unspentKey_iff k info o).mp hk).2]

/-- A coin that `AddCoin` keeps and that does not look spent. -/
def Sound (coin : Coin) : Prop :=
  ¬ isUnspendable coin.out.scriptPubKey ∧ coin.out.nValue ≠ -1

def AllSound (coins : CoinMap) : Prop := ∀ o coin, coins o = some coin → Sound coin

def inputsOf (y : CTransaction × CTxUndo) : List ((CTxIn × Nat) × Coin) :=
  y.1.vin.zipIdx.zip y.2.vprevout

section

variable (nHeight : Nat) (txhash : Uint256) (i : Nat)

def spendRecord (z : (CTxIn × Nat) × Coin) : Option (CAddressIndexKey × Int) :=
  (extractIndexInfo z.2.out.scriptPubKey).map fun info =>
    (addressKey nHeight txhash i info z.1.2 true, -z.2.out.nValue)

def receiveRecord (x : CTxOutBase × Nat) : Option (CAddressIndexKey × Int) :=
  (classified x.1).map fun y => (addressKey nHeight txhash i y.2 x.2 false, y.1.nValue)

def spentRecord (z : (CTxIn × Nat) × Coin) : Option (COutPoint × CSpentIndexValue) :=
  (extractIndexInfo z.2.out.scriptPubKey).map fun info =>
    (z.1.1.prevout, ⟨txhash, z.1.2, nHeight, z.2.out.nValue, info.1, info.2⟩)

def receiveEntry (x : CTxOutBase × Nat) : List (CAddressUnspentKey × CAddressUnspentValue) :=
  (receiveNotes nHeight txhash i x).addressUnspentIndex

lemma spendNotes_eq (coins : CoinMap) (x : CTxIn × Nat) (coin : Coin) (hstd : ¬ x.1.isAnonInput)
    (hcoin : coins x.1.prevout = some coin) :
    spendNotes nHeight txhash i coins x = ⟨(spendRecord nHeight txhash i (x, coin)).toList,
      eraseEntry x.1.prevout coin, (spentRecord nHeight txhash (x, coin)).toList⟩ := by
  rw [spendNotes, if_neg hstd, classifiedAt_some _ _ _ hcoin, spendRecord, spentRecord, eraseEntry]
  cases extractIndexInfo coin.out.scriptPubKey <;> rfl

lemma receiveNotes_eq (x : CTxOutBase × Nat) : receiveNotes nHeight txhash i x =
      ⟨(receiveRecord nHeight txhash i x).toList, receiveEntry nHeight txhash i x, []⟩ := by
  rw [receiveEntry, receiveNotes, receiveRecord]
  cases classified x.1 <;> rfl

lemma unreceiveNotes_records (x : CTxOutBase × Nat) :
    (unreceiveNotes nHeight txhash i x).addressIndex = (receiveRecord nHeight txhash i x).toList ∧
      (unreceiveNotes nHeight txhash i x).spentIndex = [] := by
  rw [unreceiveNotes, receiveRecord]
  cases classified x.1 <;> exact ⟨rfl, rfl⟩

lemma unspendNotes_eq (coins : CoinMap) (x : CTxIn × Nat) (coin undo : Coin)
    (hstd : ¬ x.1.isAnonInput) (hcoin : coins x.1.prevout = some coin)
    (hout : coin.out = undo.out) :
    unspendNotes nHeight txhash i coins x = ⟨(spendRecord nHeight txhash i (x, undo)).toList,
      writeEntry x.1.prevout coin, [(x.1.prevout, .null)]⟩ := by
  rw [unspendNotes, if_neg hstd, classifiedAt_some _ _ _ hcoin, spendRecord, writeEntry, ← hout]
  cases extractIndexInfo coin.out.scriptPubKey <;> rfl

lemma gather_receiveNotes (xs : List (CTxOutBase × Nat)) :
    gather (xs.map (receiveNotes nHeight txhash i)) =
      ⟨xs.filterMap (receiveRecord nHeight txhash i), xs.flatMap (receiveEntry nHeight txhash i),
        []⟩ := by
  induction xs with
  | nil => rfl
  | cons x xs ih =>
    rw [map_cons, gather_cons, ih, receiveNotes_eq, filterMap_cons, flatMap_cons]
    cases receiveRecord nHeight txhash i x <;> rfl

def Spends (coins : CoinMap) (x : CTxIn × Nat) (coin : Coin) : Prop :=
  ¬ x.1.isAnonInput ∧ coins x.1.prevout = some coin

lemma gather_spendNotes (coins : CoinMap) (xs : List (CTxIn × Nat)) (us : List Coin)
    (h : List.Forall₂ (Spends coins) xs us) : gather (xs.map (spendNotes nHeight txhash i coins)) =
      ⟨(xs.zip us).filterMap (spendRecord nHeight txhash i),
        (xs.zip us).flatMap fun z => eraseEntry z.1.1.prevout z.2,
        (xs.zip us).filterMap (spentRecord nHeight txhash)⟩ := by
  induction h with
  | nil => rfl
  | @cons x u xs us hx _ ih =>
    rw [map_cons, gather_cons, ih, spendNotes_eq _ _ _ coins x u hx.1 hx.2, zip_cons_cons,
      filterMap_cons, flatMap_cons, filterMap_cons]
    unfold spendRecord spentRecord
    cases extractIndexInfo u.out.scriptPubKey <;> rfl

lemma gather_anon (coins : CoinMap) (xs : List (CTxIn × Nat)) (h : ∀ x ∈ xs, x.1.isAnonInput) :
    gather (xs.map (spendNotes nHeight txhash i coins)) = {} := by
  induction xs with
  | nil => rfl
  | cons x xs ih =>
    rw [forall_mem_cons] at h
    rw [map_cons, gather_cons, ih h.2, spendNotes, if_pos h.1]
    rfl

end

/-- The coins that a transaction spends are those of its undo record, one for each input, or it
spends none. -/
def Aligned (coins : CoinMap) (y : CTransaction × CTxUndo) : Prop :=
  (y.2.vprevout = [] ∧ spentOutpoints y.1 = [] ∧
      (y.1.isCoinBase ∨ ∀ txin ∈ y.1.vin, txin.isAnonInput)) ∨
    (¬ y.1.isCoinBase ∧ List.Forall₂ (Spends coins) y.1.vin.zipIdx y.2.vprevout ∧
      spentOutpoints y.1 = y.1.vin.zipIdx.map (·.1.prevout))

lemma aligned_of_recorded (coins : CoinMap) (y : CTransaction × CTxUndo) (hy : Recorded y)
    (hspent : (spentOutpoints y.1).map coins = y.2.vprevout.map some) : Aligned coins y := by
  rcases hy.spent_cases with hnone | ⟨hcb, hstd, hall, -⟩
  · exact Or.inl hnone
  have hfst : y.1.vin.zipIdx.map (·.1.prevout) = y.1.vin.map (·.prevout) := by
    rw [← List.zipIdx_map_fst 0 y.1.vin, List.map_map, List.zipIdx_map_fst]
    rfl
  refine Or.inr ⟨hcb, ?_, hall.trans hfst.symm⟩
  have hsome : List.Forall₂ (fun (x : CTxIn × Nat) (o : Option Coin) => coins x.1.prevout = o)
      y.1.vin.zipIdx (y.2.vprevout.map some) := by
    rw [← hspent, hall, ← hfst, List.map_map, List.forall₂_map_right_iff]
    exact forall₂_same.mpr fun _ _ => rfl
  rw [forall₂_map_right_iff] at hsome
  refine forall₂_iff_get.mpr ⟨hsome.length_eq, fun j h₁ h₂ => ⟨?_, hsome.get h₁ h₂⟩⟩
  exact hstd _ (fst_mem_of_mem_zipIdx (get_mem _ _))

lemma inputsOf_standard (y : CTransaction × CTxUndo) (hlen : y.2.vprevout.length = y.1.vin.length)
    (hstd : ∀ txin ∈ y.1.vin, ¬ txin.isAnonInput) : (inputsOf y).map Prod.fst = y.1.vin.zipIdx ∧
      ∀ z ∈ inputsOf y, ¬ z.1.1.isAnonInput ∧ y.2.vprevout[z.1.2]? = some z.2 ∧
        z.2 ∈ y.2.vprevout := by
  refine ⟨map_fst_zip (by rw [length_zipIdx, hlen]), fun z hz => ?_⟩
  obtain ⟨j, hj, rfl⟩ := mem_iff_getElem.mp hz
  have hj' : j < y.2.vprevout.length := by
    rw [inputsOf, length_zip] at hj
    omega
  have hvin : j < y.1.vin.length := hlen ▸ hj'
  have hat : (inputsOf y)[j] = ((y.1.vin[j], j), y.2.vprevout[j]) := by
    simp [inputsOf]
  rw [hat]
  exact ⟨hstd _ (getElem_mem hvin), getElem?_eq_getElem hj', getElem_mem hj'⟩

lemma inputsOf_prevouts (y : CTransaction × CTxUndo) (hy : Recorded y) :
    (inputsOf y).map (fun z => z.1.1.prevout) = spentOutpoints y.1 := by
  rcases hy.spent_cases with ⟨hnil, hnone, -⟩ | ⟨-, hstd, hall, hlen⟩
  · rw [inputsOf, hnil, zip_nil_right, hnone]
    rfl
  · rw [hall, ← List.zipIdx_map_fst 0 y.1.vin, ← (inputsOf_standard y hlen hstd).1, List.map_map,
      List.map_map]
    rfl

section

variable (nHeight : Nat) (txhash : Uint256) (i : Nat)
variable (fCoinBase : Bool) (x : CTxOutBase × Nat)

/-- The indexed script of the output is one that `AddCoin` keeps. -/
def Spendable (o : CTxOutBase) : Prop :=
  ∀ p info, classified o = some (p, info) → ¬ isUnspendable p.scriptPubKey

instance (o : CTxOutBase) : Decidable (Spendable o) :=
  decidable_of_iff (∀ y ∈ classified o, ¬ isUnspendable y.1.scriptPubKey)
    ⟨fun h p info hp => h (p, info) hp, fun h y hy => h y.1 y.2 hy⟩

def Valued (o : CTxOutBase) : Prop := ∀ p, o.standard? = some p → p.nValue ≠ -1

lemma spendEntries_follow (xs : List (CTxIn × Nat)) (us : List Coin) (m : CoinMap)
    (h : List.Forall₂ (fun x u => m x.1.prevout = some u) xs us)
    (hnodup : (xs.map (·.1.prevout)).Nodup) : updateAddressUnspentIndex (unspentEntries m)
        ((xs.zip us).flatMap fun z => eraseEntry z.1.1.prevout z.2) =
      unspentEntries (eraseAll m (xs.map (·.1.prevout))) := by
  induction xs generalizing us m with
  | nil => rfl
  | cons x xs ih =>
    obtain ⟨u, us, hx, hrest, rfl⟩ := forall₂_cons_left_iff.mp h
    rw [map_cons, nodup_cons] at hnodup
    have hagree : List.Forall₂ (fun y v => erase m x.1.prevout y.1.prevout = some v) xs us := by
      refine forall₂_iff_get.mpr ⟨hrest.length_eq, fun j h₁ h₂ => ?_⟩
      rw [erase_other]
      · exact hrest.get h₁ h₂
      · intro heq
        exact hnodup.1 (heq ▸ mem_map_of_mem (get_mem _ _))
    rw [zip_cons_cons, flatMap_cons, updateAddressUnspentIndex, updateAll_append]
    have hfirst := unspentEntries_erase m x.1.prevout u hx
    rw [updateAddressUnspentIndex] at hfirst
    rw [hfirst]
    exact ih us _ hagree hnodup.2

lemma newCoin_cases (hsp : Spendable x.1) :
    (newCoin txhash nHeight fCoinBase x = none ∧ classified x.1 = none) ∨
      ∃ p, x.1 = .standard p ∧ newCoin txhash nHeight fCoinBase x =
        some (⟨txhash, UInt32.ofNat x.2⟩,
          ⟨⟨p.nValue, p.scriptPubKey⟩, fCoinBase, nHeight, .standard⟩) := by
  obtain ⟨o, k⟩ := x
  cases o with
  | ringCT p => exact Or.inl ⟨rfl, rfl⟩
  | data p => exact Or.inl ⟨rfl, rfl⟩
  | standard p =>
    by_cases hun : isUnspendable p.scriptPubKey
    · refine Or.inl ⟨by simp [newCoin, outputCoin, CTxOutBase.standard?, spendable, hun], ?_⟩
      rw [eq_none_iff_forall_ne_some]
      rintro ⟨q, info⟩ hc
      obtain ⟨info', -, heq⟩ := map_eq_some_iff.mp (classified_standard p ▸ hc)
      obtain ⟨rfl, -⟩ := Prod.mk.inj heq
      exact hsp p info hc hun
    · exact Or.inr ⟨p, rfl, by simp [newCoin, outputCoin, CTxOutBase.standard?, spendable, hun]⟩

lemma receiveEntry_eq (hsp : Spendable x.1) : receiveEntry nHeight txhash i x =
      ((newCoin txhash nHeight fCoinBase x).map fun y => writeEntry y.1 y.2).getD [] := by
  rw [receiveEntry, receiveNotes]
  rcases newCoin_cases nHeight txhash fCoinBase x hsp with ⟨hcoin, hplain⟩ | ⟨p, hp, hcoin⟩
  · rw [hcoin, hplain]
    rfl
  · rw [hcoin, hp, classified_standard, map_some, getD_some, writeEntry]
    cases extractIndexInfo p.scriptPubKey <;> rfl

lemma unreceiveEntry_eq (hsp : Spendable x.1) :
    (unreceiveNotes nHeight txhash i x).addressUnspentIndex =
      ((newCoin txhash nHeight fCoinBase x).map fun y => eraseEntry y.1 y.2).getD [] := by
  rw [unreceiveNotes]
  rcases newCoin_cases nHeight txhash fCoinBase x hsp with ⟨hcoin, hplain⟩ | ⟨p, hp, hcoin⟩
  · rw [hcoin, hplain]
    rfl
  · rw [hcoin, hp, classified_standard, map_some, getD_some, eraseEntry]
    cases extractIndexInfo p.scriptPubKey <;> rfl

lemma newCoin_value (y : COutPoint × Coin) (hval : Valued x.1)
    (h : newCoin txhash nHeight fCoinBase x = some y) : y.2.out.nValue ≠ -1 := by
  obtain ⟨h, -⟩ := filter_eq_some_iff.mp h
  obtain ⟨p, hp, rfl⟩ := map_eq_some_iff.mp h
  exact hval p hp

lemma receiveEntries_follow (xs : List (CTxOutBase × Nat)) (m : CoinMap)
    (hsp : ∀ x ∈ xs, Spendable x.1) (hval : ∀ x ∈ xs, Valued x.1)
    (hnodup : ((xs.filterMap (newCoin txhash nHeight fCoinBase)).map Prod.fst).Nodup)
    (hnone : ∀ y ∈ xs.filterMap (newCoin txhash nHeight fCoinBase), m y.1 = none) :
    updateAddressUnspentIndex (unspentEntries m) (xs.flatMap (receiveEntry nHeight txhash i)) =
      unspentEntries (putAll m (xs.filterMap (newCoin txhash nHeight fCoinBase))) := by
  induction xs generalizing m with
  | nil => rfl
  | cons x xs ih =>
    rw [forall_mem_cons] at hsp hval
    rw [flatMap_cons, receiveEntry_eq nHeight txhash i fCoinBase x hsp.1]
    cases hx : newCoin txhash nHeight fCoinBase x with
    | none =>
      rw [filterMap_cons_none hx] at hnodup hnone ⊢
      exact ih m hsp.2 hval.2 hnodup hnone
    | some y =>
      rw [filterMap_cons_some hx] at hnodup hnone ⊢
      rw [map_cons, nodup_cons] at hnodup
      rw [forall_mem_cons] at hnone
      have hfirst := unspentEntries_put m y.1 y.2 hnone.1
        (newCoin_value nHeight txhash fCoinBase x y hval.1 hx)
      rw [updateAddressUnspentIndex] at hfirst ⊢
      rw [map_some, getD_some, updateAll_append, hfirst, putAll_cons]
      refine ih _ hsp.2 hval.2 hnodup.2 fun z hz => ?_
      rw [put_other _ _ _ _ ?_, hnone.2 z hz]
      intro heq
      exact hnodup.1 (heq ▸ mem_map_of_mem hz)

end

section

variable (txHash : CTransaction → Uint256) (nHeight : Nat)

/-- What a transaction at position `z.2` writes: its records, and the entries that go and come. -/
def txNotes (z : (CTransaction × CTxUndo) × Nat) : Pending where
  addressIndex := (inputsOf z.1).filterMap (spendRecord nHeight (txHash z.1.1) z.2) ++
    z.1.1.vpout.zipIdx.filterMap (receiveRecord nHeight (txHash z.1.1) z.2)
  addressUnspentIndex := ((inputsOf z.1).flatMap fun w => eraseEntry w.1.1.prevout w.2) ++
    z.1.1.vpout.zipIdx.flatMap (receiveEntry nHeight (txHash z.1.1) z.2)
  spentIndex := (inputsOf z.1).filterMap (spentRecord nHeight (txHash z.1.1))

lemma connectNotes_eq (coins : CoinMap) (z : (CTransaction × CTxUndo) × Nat)
    (hversion : z.1.1.isBitcoinCVersion) (h : Aligned coins z.1) :
    connectNotes nHeight (txHash z.1.1) z.2 coins z.1.1 = txNotes txHash nHeight z := by
  rw [connectNotes, gather_receiveNotes, txNotes]
  rcases h with ⟨hundo, -, hnone⟩ | ⟨hcb, hspends, -⟩
  · have hinputs : inputsOf z.1 = [] := by rw [inputsOf, hundo, zip_nil_right]
    rw [hinputs]
    by_cases hcb : z.1.1.isCoinBase
    · rw [if_pos (Or.inl hcb)]
      rfl
    · have hanon := hnone.resolve_left hcb
      rw [if_neg (by tauto), gather_anon]
      · rfl
      · intro x hx
        exact hanon _ (fst_mem_of_mem_zipIdx hx)
  · rw [if_neg (by tauto), gather_spendNotes _ _ _ _ _ _ hspends, Pending.append, append_nil]
    rfl

def NothingReplaced : CoinMap → List CTransaction → Prop
  | _, [] => True
  | coins, tx :: txs =>
    (∀ x ∈ newCoins (txHash tx) tx nHeight, eraseAll coins (spentOutpoints tx) x.1 = none) ∧
      NothingReplaced (afterTx txHash nHeight coins tx) txs

instance decidableNothingReplaced : (coins : CoinMap) → (txs : List CTransaction) →
    Decidable (NothingReplaced txHash nHeight coins txs)
  | _, [] => inferInstanceAs (Decidable True)
  | coins, tx :: txs =>
    have := decidableNothingReplaced (afterTx txHash nHeight coins tx) txs
    inferInstanceAs (Decidable (_ ∧ _))

/-- A recorded transaction whose new coins are distinct and do not look spent. -/
structure Accepted (y : CTransaction × CTxUndo) : Prop extends Recorded y where
  nodup : ((newCoins (txHash y.1) y.1 nHeight).map Prod.fst).Nodup
  valued : ∀ o ∈ y.1.vpout, Valued o

lemma txNotes_follow (coins : CoinMap) (z : (CTransaction × CTxUndo) × Nat)
    (hz : Accepted txHash nHeight z.1) (hsp : ∀ o ∈ z.1.1.vpout, Spendable o)
    (hupdate : updateCoins (txHash z.1.1) coins z.1.1 nHeight =
      .ok (afterTx txHash nHeight coins z.1.1, z.1.2))
    (hnew : ∀ x ∈ newCoins (txHash z.1.1) z.1.1 nHeight,
      eraseAll coins (spentOutpoints z.1.1) x.1 = none) :
    updateAddressUnspentIndex (unspentEntries coins)
        (txNotes txHash nHeight z).addressUnspentIndex =
      unspentEntries (afterTx txHash nHeight coins z.1.1) := by
  obtain ⟨hnodup, hspent, -, -⟩ := (updateCoins_ok_iff _ _ _ _ _ _).mp hupdate
  -- the inputs first
  have hinputs : updateAddressUnspentIndex (unspentEntries coins)
      ((inputsOf z.1).flatMap fun w => eraseEntry w.1.1.prevout w.2) =
      unspentEntries (eraseAll coins (spentOutpoints z.1.1)) := by
    rcases aligned_of_recorded coins z.1 hz.toRecorded hspent with
      ⟨hundo, hnone, -⟩ | ⟨-, hspends, hall⟩
    · rw [inputsOf, hundo, zip_nil_right, hnone]
      rfl
    · rw [hall] at hnodup ⊢
      exact spendEntries_follow _ _ coins (hspends.imp fun _ _ h => h.2) hnodup
  have hcoins := newCoins_eq (txHash z.1.1) z.1.1 nHeight hz.version
  have hoccurs : ∀ x ∈ z.1.1.vpout.zipIdx, x.1 ∈ z.1.1.vpout := fun x hx =>
    fst_mem_of_mem_zipIdx hx
  rw [updateAddressUnspentIndex] at hinputs
  rw [txNotes, updateAddressUnspentIndex, updateAll_append, hinputs, afterTx, hcoins]
  exact receiveEntries_follow nHeight (txHash z.1.1) z.2 (isCoinBaseOrStake z.1.1) _ _
    (fun x hx => hsp _ (hoccurs x hx)) (fun x hx => hz.valued _ (hoccurs x hx))
    (hcoins ▸ hz.nodup) (hcoins ▸ hnew)

lemma connects_follow (ys : List (CTransaction × CTxUndo)) (n : Nat) (coins coins' : CoinMap)
    (hys : ∀ y ∈ ys, Accepted txHash nHeight y) (hsp : ∀ y ∈ ys, ∀ o ∈ y.1.vpout, Spendable o)
    (hconnects : Connects txHash nHeight coins ys coins')
    (hnew : NothingReplaced txHash nHeight coins (ys.map Prod.fst)) :
    updateAddressUnspentIndex (unspentEntries coins)
        (gather ((ys.zipIdx n).map (txNotes txHash nHeight))).addressUnspentIndex =
      unspentEntries coins' := by
  induction ys generalizing n coins with
  | nil =>
    obtain rfl : coins' = coins := hconnects
    rfl
  | cons y ys ih =>
    rw [forall_mem_cons] at hys hsp
    obtain ⟨hupdate, hrest⟩ := hconnects.cons
    have hfirst := txNotes_follow txHash nHeight coins (y, n) hys.1 hsp.1 hupdate hnew.1
    have hlater := ih (n + 1) _ hys.2 hsp.2 hrest hnew.2
    rw [updateAddressUnspentIndex] at hfirst hlater ⊢
    rw [zipIdx_cons, map_cons, gather_cons, append_addressUnspentIndex, updateAll_append,
      hfirst, hlater]

end

section

variable (txHash : CTransaction → Uint256) (nHeight : Nat)
variable {coins : CoinMap} (ys : List (CTransaction × CTxUndo)) (m m' : CoinMap × Bool)

lemma newCoin_sound (txhash : Uint256) (fCoinBase : Bool) (x : CTxOutBase × Nat)
    (y : COutPoint × Coin) (hval : Valued x.1) (h : newCoin txhash nHeight fCoinBase x = some y) :
    Sound y.2 := by
  refine ⟨?_, newCoin_value nHeight txhash fCoinBase x y hval h⟩
  simpa [spendable] using (filter_eq_some_iff.mp h).2

lemma AllSound.eraseAll (h : AllSound coins) (os : List COutPoint) :
    AllSound (eraseAll coins os) := by
  intro o coin hcoin
  rw [eraseAll_apply] at hcoin
  split at hcoin
  · cases hcoin
  · exact h o coin hcoin

lemma AllSound.put (h : AllSound coins) (o : COutPoint) (coin : Coin) (hcoin : Sound coin) :
    AllSound (put coins o coin) := by
  intro a c hc
  by_cases ha : a = o
  · rw [ha, put_self] at hc
    exact some.inj hc ▸ hcoin
  · rw [put_other _ _ _ _ ha] at hc
    exact h a c hc

lemma connects_sound (coins coins' : CoinMap) (hys : ∀ y ∈ ys, Accepted txHash nHeight y)
    (hcoins : AllSound coins) (hconnects : Connects txHash nHeight coins ys coins') :
    AllSound coins' ∧ ∀ y ∈ ys, ∀ coin ∈ y.2.vprevout, Sound coin := by
  induction ys generalizing coins with
  | nil =>
    obtain rfl : coins' = coins := hconnects
    exact ⟨hcoins, by simp⟩
  | cons y ys ih =>
    rw [forall_mem_cons] at hys
    obtain ⟨hupdate, hrest⟩ := hconnects.cons
    obtain ⟨-, hspent, -, -⟩ := (updateCoins_ok_iff _ _ _ _ _ _).mp hupdate
    have hafter : AllSound (afterTx txHash nHeight coins y.1) := by
      intro o coin hcoin
      rcases mem_or_of_putAll _ _ _ _ hcoin with hnew | hold
      · rw [newCoins_eq _ _ _ hys.1.version] at hnew
        obtain ⟨x, hx, hcoin⟩ := mem_filterMap.mp hnew
        exact newCoin_sound nHeight _ _ x (o, coin)
          (hys.1.valued _ (fst_mem_of_mem_zipIdx hx)) hcoin
      · exact hcoins.eraseAll _ o coin hold
    obtain ⟨hlast, hundo⟩ := ih _ hys.2 hafter hrest
    refine ⟨hlast, ?_⟩
    rw [forall_mem_cons]
    refine ⟨fun coin hmem => ?_, hundo⟩
    have hsome := mem_map_of_mem (f := some) hmem
    rw [← hspent] at hsome
    obtain ⟨o, -, ho⟩ := mem_map.mp hsome
    exact hcoins o coin ho

lemma restoreCoin_sound (x : COutPoint × Coin) (hx : Sound x.2) (hm : AllSound m.1)
    (h : restoreCoin m x = .ok m') : AllSound m'.1 := by
  simp only [restoreCoin, applyTxInUndo, bind_ok_iff, pure_ok_iff] at h
  obtain ⟨r, ⟨coin, hmeta, coins', hadd, rfl⟩, rfl⟩ := h
  have hout : coin.out = x.2.out := undoMetadata_out _ _ _ _ hmeta
  obtain ⟨-, rfl⟩ := (addCoin_ok_iff _ _ _ (x.1, coin)
    (by simp [spendable, hout, hx.1])).mp hadd
  exact hm.put _ _ (by rw [Sound, hout]; exact hx)

lemma undoCoins_sound (hys : ∀ y ∈ ys, ((newCoins (txHash y.1) y.1 nHeight).map Prod.fst).Nodup ∧
      ∀ coin ∈ y.2.vprevout, Sound coin) (hm : AllSound m.1)
    (h : loop (undoCoins txHash nHeight) m ys = .ok m') : AllSound m'.1 := by
  refine loop_induction _ (fun m => AllSound m.1) ys (fun s t y hy hs hstep => ?_) m m' hm h
  obtain ⟨hnodup, hsound⟩ := hys y hy
  rw [undoCoins, show s = (s.1, s.2) from rfl, takeCoins_reverse _ _ _ hnodup] at hstep
  refine loop_induction _ (fun m => AllSound m.1) _ (fun a b x hx ha hab => ?_) _ t
    (hs.eraseAll _) hstep
  exact restoreCoin_sound a b x (hsound _ (of_mem_zip (mem_reverse.mp hx)).2) ha hab

end

lemma connectTxs_notes (E : Env) (G : NodeState) (C : BlockContext)
    (ys : List (CTransaction × CTxUndo)) (n : Nat) (hys : ∀ y ∈ ys, Recorded y)
    (s t : BlockState × Pending) (coins' : CoinMap)
    (hconnects : Connects E.txHash C.pindex.nHeight s.1.view.coins ys coins')
    (h : loop (connectTxIndexed E G C) s ((ys.map Prod.fst).zipIdx n) = .ok t) :
    t.2 = s.2.append (gather ((ys.zipIdx n).map (txNotes E.txHash C.pindex.nHeight))) := by
  induction ys generalizing n s with
  | nil =>
    obtain rfl := Except.ok.inj h
    simp [Pending.append]
  | cons y ys ih =>
    rw [forall_mem_cons] at hys
    rw [map_cons, zipIdx_cons] at h
    obtain ⟨m, hm, hrest⟩ := (loop_cons_ok_iff _ _ _ _ _).mp h
    obtain ⟨hstep, hnote⟩ := (carry_ok_iff _ _ _ _ _).mp hm
    obtain ⟨hupdate, hlater⟩ := hconnects.cons
    obtain ⟨undo, hcoins, -⟩ := connectTx_coins E G C s.1 m.1 (y.1, n) hstep
    rw [hupdate, Except.ok.injEq, Prod.mk.injEq] at hcoins
    obtain ⟨-, hspent, -, -⟩ := (updateCoins_ok_iff _ _ _ _ _ _).mp hupdate
    have hfirst := connectNotes_eq E.txHash C.pindex.nHeight s.1.view.coins (y, n) hys.1.version
      (aligned_of_recorded _ y hys.1 hspent)
    rw [hcoins.1] at hlater
    rw [ih (n + 1) hys.2 m hlater hrest, hnote, zipIdx_cons, map_cons, gather_cons, ← hfirst]
    simp [Pending.append]

end AddressRecords
