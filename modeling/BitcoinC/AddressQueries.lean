import BitcoinC.AddressIndex
import BitcoinC.KeyScans
import BitcoinC.WireFormat

/-!
# Queries of the address indexes

`ReadAddressIndex` and `ReadAddressUnspentIndex` of `txdb.cpp` over the block tree
database as LevelDB keeps it: records in the byte order of their serialized keys.
-/

namespace AddressQueries

open Primitives Encoding Codecs WireFormat KeyScans List

def DB_ADDRESSINDEX : UInt8 := 97
def DB_ADDRESSUNSPENTINDEX : UInt8 := 117

def beBytes (k x : Nat) : Bytes := (leBytes k x).reverse

@[simp] lemma beBytes_length (k x : Nat) : (beBytes k x).length = k := by
  rw [beBytes, length_reverse, leBytes_length]

def be (k : Nat) : Codec Nat :=
  map (fixed k) (fun bs => readLE bs.reverse) (beBytes k) fun bs h => by
    have hlength : bs.reverse.length = k := length_reverse.trans h
    rw [beBytes, ← hlength, leBytes_readLE, reverse_reverse]

lemma be_dom {k x : Nat} (h : x < 256 ^ k) : (be k).dom x := by
  refine ⟨beBytes_length k x, ?_⟩
  show readLE (beBytes k x).reverse = x
  rw [beBytes, reverse_reverse, readLE_leBytes k x h]

/-- A key of the address index as it is stored: the type has one byte, `index` has four. -/
structure CAddressIndexKey where
  type : UInt8
  hashBytes : Uint256
  blockHeight : BitVec 32
  txindex : UInt32
  txhash : Uint256
  index : UInt32
  spending : Bool
  deriving DecidableEq

structure CAddressUnspentKey where
  type : UInt8
  hashBytes : Uint256
  txhash : Uint256
  index : UInt32
  deriving DecidableEq

def iteratorKey (type : UInt8) (addressHash : Uint256) : Bytes := type :: hashBytes addressHash

def iteratorHeightKey (type : UInt8) (addressHash : Uint256) (height : Nat) : Bytes :=
  iteratorKey type addressHash ++ beBytes 4 height

def CAddressIndexKey.rest (k : CAddressIndexKey) : Bytes :=
  beBytes 4 k.txindex.toNat ++
    (Encoding.hashBytes k.txhash ++ (uint32Bytes k.index ++ [if k.spending then 1 else 0]))

def CAddressIndexKey.serialize (k : CAddressIndexKey) : Bytes :=
  k.type :: (Encoding.hashBytes k.hashBytes ++ (beBytes 4 k.blockHeight.toNat ++ k.rest))

def CAddressIndexKey.unserialize : Reader CAddressIndexKey := do
  let type ← readByte
  let hashBytes ← hash.dec
  let blockHeight ← (be 4).dec
  let txindex ← (be 4).dec
  let txhash ← hash.dec
  let index ← uint32.dec
  let f ← readByte
  pure ⟨type, hashBytes, BitVec.ofNat 32 blockHeight, UInt32.ofNat txindex, txhash, index, f ≠ 0⟩

def CAddressUnspentKey.serialize (k : CAddressUnspentKey) : Bytes :=
  k.type :: (Encoding.hashBytes k.hashBytes ++ (Encoding.hashBytes k.txhash ++ uint32Bytes k.index))

def CAddressUnspentKey.unserialize : Reader CAddressUnspentKey := do
  let type ← readByte
  let hashBytes ← hash.dec
  let txhash ← hash.dec
  let index ← uint32.dec
  pure ⟨type, hashBytes, txhash, index⟩

def unspentValue : Codec AddressIndex.CAddressUnspentValue :=
  map (seq amount fun _ => seq bytes fun _ => le 4) (fun x => ⟨x.1, x.2.1, x.2.2⟩)
    (fun v => (v.satoshis, v.script, v.blockHeight)) fun _ _ => rfl

section

variable {β : Type}

lemma bind_readByte (f : UInt8 → Reader β) (b : UInt8) (rest : Bytes) :
    (readByte >>= f) (b :: rest) = f b rest := rfl

lemma bind_readHash (f : Uint256 → Reader β) (h : Uint256) (rest : Bytes) :
    (hash.dec >>= f) (hashBytes h ++ rest) = f h rest :=
  hash.bind_dec f h rest (hash_dom h)

lemma bind_readBe (f : Nat → Reader β) {x : Nat} (rest : Bytes) (h : x < 256 ^ 4) :
    ((be 4).dec >>= f) (beBytes 4 x ++ rest) = f x rest :=
  (be 4).bind_dec f x rest (be_dom h)

lemma bind_readUint32 (f : UInt32 → Reader β) (x : UInt32) (rest : Bytes) :
    (uint32.dec >>= f) (uint32Bytes x ++ rest) = f x rest :=
  uint32.bind_dec f x rest (uint32_dom x)

end

variable (k : CAddressUnspentKey) {x m n : BitVec 32}

lemma CAddressIndexKey.unserialize_serialize (k : CAddressIndexKey) :
    CAddressIndexKey.unserialize k.serialize = some (k, []) := by
  have hspending : decide ((if k.spending then (1 : UInt8) else 0) ≠ 0) = k.spending := by
    cases k.spending with
    | true => rfl
    | false => rfl
  unfold unserialize serialize rest
  rw [bind_readByte, bind_readHash, bind_readBe _ _ k.blockHeight.isLt,
    bind_readBe _ _ k.txindex.toNat_lt, bind_readHash, bind_readUint32, bind_readByte, hspending,
    BitVec.ofNat_toNat, UInt32.ofNat_toNat]
  rfl

lemma CAddressUnspentKey.unserialize_serialize :
    CAddressUnspentKey.unserialize k.serialize = some (k, []) := by
  unfold unserialize serialize
  rw [bind_readByte, bind_readHash, bind_readHash, ← append_nil (uint32Bytes k.index),
    bind_readUint32]
  rfl

def addressKind : Kind CAddressIndexKey Int where
  tag := DB_ADDRESSINDEX
  writeKey := CAddressIndexKey.serialize
  readKey := CAddressIndexKey.unserialize
  writeValue := amount.enc
  readValue := amount.dec
  carried := amount.dom
  readKey_writeKey k := by rw [k.unserialize_serialize]; rfl
  readValue_writeValue v hv := by
    rw [← append_nil (amount.enc v), amount.dec_enc v [] hv]
    rfl

def unspentKind : Kind CAddressUnspentKey AddressIndex.CAddressUnspentValue where
  tag := DB_ADDRESSUNSPENTINDEX
  writeKey := CAddressUnspentKey.serialize
  readKey := CAddressUnspentKey.unserialize
  writeValue := unspentValue.enc
  readValue := unspentValue.dec
  carried := unspentValue.dom
  readKey_writeKey k := by rw [k.unserialize_serialize]; rfl
  readValue_writeValue v hv := by
    rw [← append_nil (unspentValue.enc v), unspentValue.dec_enc v [] hv]
    rfl

/-- The content of the database: records of any kind, those of the two indexes written as such. -/
structure Content extends Store where
  address : addressKind.Only records
  unspent : unspentKind.Only records

def addressTest (addressHash : Uint256) (stop : BitVec 32) (k : CAddressIndexKey) : Bool :=
  k.hashBytes = addressHash && !(0 < stop.toInt && stop.toInt < k.blockHeight.toInt)

def readAddressIndex (D : Store) (addressHash : Uint256) (type : UInt8) (start stop : BitVec 32) :
    List (CAddressIndexKey × Int) × Bool :=
  addressKind.scan (addressTest addressHash stop) <| D.seek <|
    if 0 < start.toInt ∧ 0 < stop.toInt then
      DB_ADDRESSINDEX :: iteratorHeightKey type addressHash start.toNat
    else DB_ADDRESSINDEX :: iteratorKey type addressHash

def readAddressUnspentIndex (D : Store) (addressHash : Uint256) (type : UInt8) :
    List (CAddressUnspentKey × AddressIndex.CAddressUnspentValue) × Bool :=
  unspentKind.scan (fun k => k.hashBytes = addressHash) <|
    D.seek (DB_ADDRESSUNSPENTINDEX :: iteratorKey type addressHash)

lemma beBytes_succ (k x : Nat) : beBytes (k + 1) x = beBytes k (x / 256) ++ [UInt8.ofNat x] := by
  rw [beBytes, leBytes, reverse_cons]
  rfl

lemma beBytes_lt_iff {k x y : Nat} (hx : x < 256 ^ k) (hy : y < 256 ^ k) :
    beBytes k x < beBytes k y ↔ x < y := by
  induction k generalizing x y with
  | zero =>
    have hzero : x = 0 ∧ y = 0 := by
      rw [Nat.pow_zero] at hx hy
      omega
    rw [hzero.1, hzero.2]
    exact iff_of_false (List.lt_irrefl _) (lt_irrefl _)
  | succ k ih =>
    have hx' : x / 256 < 256 ^ k := by
      rw [Nat.pow_succ] at hx
      omega
    have hy' : y / 256 < 256 ^ k := by
      rw [Nat.pow_succ] at hy
      omega
    have hsame : beBytes k (x / 256) = beBytes k (y / 256) ↔ x / 256 = y / 256 := by
      exact ⟨(be k).enc_inj (be_dom hx') (be_dom hy'), fun h => by rw [h]⟩
    have hlast : [UInt8.ofNat x] < [UInt8.ofNat y] ↔ x % 256 < y % 256 := by
      rw [cons_lt_cons_iff, UInt8.lt_iff_toNat_lt, UInt8.toNat_ofNat', UInt8.toNat_ofNat']
      simp
    rw [beBytes_succ, beBytes_succ, append_lt_append_iff (by simp), ih hx' hy', hsame, hlast]
    omega

lemma iteratorKey_length (type : UInt8) (addressHash : Uint256) :
    (iteratorKey type addressHash).length = 33 := by
  simp [iteratorKey, hashBytes]

lemma iteratorKey_isPrefix_iff {type t : UInt8} {addressHash h : Uint256} {tail : Bytes} :
    iteratorKey type addressHash <+: iteratorKey t h ++ tail ↔ t = type ∧ h = addressHash := by
  constructor
  · rintro ⟨more, hmore⟩
    have hlength : (iteratorKey type addressHash).length = (iteratorKey t h).length := by
      rw [iteratorKey_length, iteratorKey_length]
    obtain ⟨htype, hhash⟩ := cons.inj (append_inj hmore hlength).1
    exact ⟨htype.symm, (hash.enc_inj (hash_dom addressHash) (hash_dom h) hhash).symm⟩
  · rintro ⟨rfl, rfl⟩
    exact prefix_append _ _

lemma CAddressIndexKey.serialize_eq (k : CAddressIndexKey) :
    k.serialize = iteratorKey k.type k.hashBytes ++ (beBytes 4 k.blockHeight.toNat ++ k.rest) := rfl

lemma height_le_of_lt {type : UInt8} {addressHash : Uint256} {s t : Bytes}
    (h : iteratorKey type addressHash ++ (beBytes 4 m.toNat ++ s) <
      iteratorKey type addressHash ++ (beBytes 4 n.toNat ++ t)) : m.toNat ≤ n.toNat := by
  rw [append_lt_append_left_iff, append_lt_append_iff (by simp), beBytes_lt_iff m.isLt n.isLt] at h
  rcases h with hlt | ⟨heq, -⟩
  · exact hlt.le
  · exact ((be 4).enc_inj (be_dom m.isLt) (be_dom n.isLt) heq).le

lemma not_lt_iteratorHeightKey_iff {type : UInt8} {addressHash : Uint256} {t : Bytes} :
    ¬ iteratorKey type addressHash ++ (beBytes 4 m.toNat ++ t) <
      iteratorHeightKey type addressHash n.toNat ↔ n.toNat ≤ m.toNat := by
  rw [iteratorHeightKey, append_lt_append_left_iff, ← append_nil (beBytes 4 n.toNat),
    append_lt_append_iff (by simp), beBytes_lt_iff m.isLt n.isLt]
  simp

def addressWanted (type : UInt8) (addressHash : Uint256) (start stop : BitVec 32)
    (k : CAddressIndexKey) : Bool :=
  k.type = type ∧ k.hashBytes = addressHash ∧ start.toInt ≤ k.blockHeight.toInt ∧
    k.blockHeight.toInt ≤ stop.toInt

def unspentWanted (type : UInt8) (addressHash : Uint256) (k : CAddressUnspentKey) : Bool :=
  k.type = type ∧ k.hashBytes = addressHash

lemma toNat_of_nonneg (h : 0 ≤ x.toInt) : x.toInt = x.toNat ∧ x.toNat < 2 ^ 31 := by
  have hlt := x.isLt
  rw [BitVec.toInt_eq_toNat_cond] at h ⊢
  split_ifs at h ⊢ with hsmall
  · omega
  · omega

lemma toInt_of_small (h : x.toNat < 2 ^ 31) : x.toInt = x.toNat := by
  rw [BitVec.toInt_eq_toNat_cond, if_pos (by omega)]

lemma iteratorKey_isPrefix_of_between {tag type : UInt8} {addressHash : Uint256}
    {a seek tail more : Bytes}
    (hseek : seek = tag :: (iteratorKey type addressHash ++ more)) (hlow : ¬ a < seek)
    (hhigh : a < tag :: (iteratorKey type addressHash ++ tail)) :
    tag :: iteratorKey type addressHash <+: a := by
  refine isPrefix_of_between (fun hlt => hlow ?_) hhigh
  rw [hseek]
  exact lt_append_of_lt hlt more

lemma address_ranged (D : Content) (type : UInt8) (addressHash : Uint256) (start stop : BitVec 32)
    (hstart : 0 < start.toInt) :
    addressKind.Ranged D.toStore (DB_ADDRESSINDEX :: iteratorHeightKey type addressHash start.toNat)
      (addressTest addressHash stop) (addressWanted type addressHash start stop) where
  only := D.address
  passed k hk := by
    obtain ⟨-, hhash, -, hstop⟩ := of_decide_eq_true hk
    simp [addressTest, hhash, hstop]
  above r hr hpass := by
    obtain ⟨k, hk, hwanted⟩ := (Kind.passes_iff _ r).mp hpass
    obtain ⟨v, -, rfl⟩ := D.address.eq_record hr hk
    obtain ⟨rfl, rfl, hlow, -⟩ := of_decide_eq_true hwanted
    have hnat := toNat_of_nonneg hstart.le
    have hnat' := toNat_of_nonneg (hstart.le.trans hlow)
    exact fun hlt => not_lt_iteratorHeightKey_iff.mpr (by omega) (cons_lt_cons_left_iff.mp hlt)
  together a ha b hb hlow hlt hpass := by
    obtain ⟨k, hk, hwanted⟩ := (Kind.passes_iff _ b).mp hpass
    obtain ⟨v, -, rfl⟩ := D.address.eq_record hb hk
    obtain ⟨rfl, rfl, hfrom, hto⟩ := of_decide_eq_true hwanted
    have hfront := iteratorKey_isPrefix_of_between rfl hlow hlt
    obtain ⟨k', v', -, rfl⟩ := D.address a ha (head?_of_cons_isPrefix hfront)
    obtain ⟨htype, hhash⟩ := iteratorKey_isPrefix_iff.mp (cons_prefix_cons.mp hfront).2
    have hlow' : ¬ k'.serialize < iteratorHeightKey k.type k.hashBytes start.toNat :=
      fun h => hlow (cons_lt_cons_left_iff.mpr h)
    have hlt' : k'.serialize < k.serialize := cons_lt_cons_left_iff.mp hlt
    rw [k'.serialize_eq, htype, hhash] at hlow' hlt'
    have hge := not_lt_iteratorHeightKey_iff.mp hlow'
    have hle := height_le_of_lt hlt'
    have hnat := toNat_of_nonneg hstart.le
    have hnat' := toNat_of_nonneg (hstart.le.trans hfrom)
    have hnat'' := toInt_of_small (x := k'.blockHeight) (by omega)
    refine (Kind.passes_iff _ _).mpr ⟨k', Kind.key_record k' v',
      decide_eq_true ⟨htype, hhash, ?_, ?_⟩⟩
    · omega
    · omega

lemma unspent_ranged (D : Content) (type : UInt8) (addressHash : Uint256) :
    unspentKind.Ranged D.toStore (DB_ADDRESSUNSPENTINDEX :: iteratorKey type addressHash)
      (fun k => k.hashBytes = addressHash) (unspentWanted type addressHash) where
  only := D.unspent
  passed k hk := decide_eq_true (of_decide_eq_true hk).2
  above r hr hpass := by
    obtain ⟨k, hk, hwanted⟩ := (Kind.passes_iff _ r).mp hpass
    obtain ⟨v, -, rfl⟩ := D.unspent.eq_record hr hk
    obtain ⟨rfl, rfl⟩ := of_decide_eq_true hwanted
    have hle : DB_ADDRESSUNSPENTINDEX :: iteratorKey k.type k.hashBytes ≤
        (DB_ADDRESSUNSPENTINDEX :: iteratorKey k.type k.hashBytes) ++
          (hashBytes k.txhash ++ uint32Bytes k.index) := le_append_left
    exact List.not_lt.mpr hle
  together a ha b hb hlow hlt hpass := by
    obtain ⟨k, hk, hwanted⟩ := (Kind.passes_iff _ b).mp hpass
    obtain ⟨v, -, rfl⟩ := D.unspent.eq_record hb hk
    obtain ⟨rfl, rfl⟩ := of_decide_eq_true hwanted
    have hseek : DB_ADDRESSUNSPENTINDEX :: iteratorKey k.type k.hashBytes =
        DB_ADDRESSUNSPENTINDEX :: (iteratorKey k.type k.hashBytes ++ []) := by rw [append_nil]
    have hfront := iteratorKey_isPrefix_of_between hseek hlow hlt
    obtain ⟨k', v', -, rfl⟩ := D.unspent a ha (head?_of_cons_isPrefix hfront)
    obtain ⟨htype, hhash⟩ := iteratorKey_isPrefix_iff.mp (cons_prefix_cons.mp hfront).2
    exact (Kind.passes_iff _ _).mpr ⟨k', Kind.key_record k' v', decide_eq_true ⟨htype, hhash⟩⟩

def addressNext (D : Store) (addressHash : Uint256) (type : UInt8) (start stop : BitVec 32) :
    Option Record :=
  addressKind.firstOther D (DB_ADDRESSINDEX :: iteratorHeightKey type addressHash start.toNat)
    (addressWanted type addressHash start stop)

def unspentNext (D : Store) (addressHash : Uint256) (type : UInt8) : Option Record :=
  unspentKind.firstOther D (DB_ADDRESSUNSPENTINDEX :: iteratorKey type addressHash)
    (unspentWanted type addressHash)

/-- The address index has the entry, with a value that its format carries. -/
def HasAddress (D : Store) (k : CAddressIndexKey) (v : Int) : Prop :=
  addressKind.carried v ∧ addressKind.record k v ∈ D.records

def HasUnspent (D : Store) (k : CAddressUnspentKey)
    (v : AddressIndex.CAddressUnspentValue) : Prop :=
  unspentKind.carried v ∧ unspentKind.record k v ∈ D.records

/-- `ReadAddressIndex` succeeds with the entries of the address in the range, each one once and in
the order of heights. -/
def AddressExact (D : Store) (addressHash : Uint256) (type : UInt8)
    (start stop : BitVec 32) : Prop :=
  ∃ xs, readAddressIndex D addressHash type start stop = (xs, true) ∧
    (∀ k v, (k, v) ∈ xs ↔ HasAddress D k v ∧ k.type = type ∧ k.hashBytes = addressHash ∧
      start.toInt ≤ k.blockHeight.toInt ∧ k.blockHeight.toInt ≤ stop.toInt) ∧
    xs.Pairwise (fun x y => x.1.blockHeight.toInt ≤ y.1.blockHeight.toInt) ∧ xs.Nodup

/-- `ReadAddressUnspentIndex` succeeds with the entries of the address, each one once. -/
def UnspentExact (D : Store) (addressHash : Uint256) (type : UInt8) : Prop :=
  ∃ xs, readAddressUnspentIndex D addressHash type = (xs, true) ∧
    (∀ k v, (k, v) ∈ xs ↔ HasUnspent D k v ∧ k.type = type ∧ k.hashBytes = addressHash) ∧ xs.Nodup

section

variable (D : Content) (addressHash : Uint256) (type : UInt8)

lemma addressTest_record_iff {stop : BitVec 32} (hstop : 0 < stop.toInt) {r : Record}
    (hr : r ∈ D.records) : addressKind.passes (addressTest addressHash stop) r = false ↔
      ∀ k v, r = addressKind.record k v → k.hashBytes = addressHash → stop.toInt <
        k.blockHeight.toInt := by
  rw [← Bool.not_eq_true, Kind.passes_iff]
  constructor
  · rintro hnot k v rfl hhash
    by_contra hheight
    refine hnot ⟨k, Kind.key_record k v, ?_⟩
    simp [addressTest, hhash, not_lt.mp hheight]
  · rintro hlater ⟨k, hk, htest⟩
    obtain ⟨v, -, rfl⟩ := D.address.eq_record hr hk
    simp only [addressTest, Bool.and_eq_true, decide_eq_true_eq, Bool.not_eq_true',
      Bool.and_eq_false_iff, decide_eq_false_iff_not] at htest
    have hheight := hlater k v rfl htest.1
    rcases htest.2 with h | h
    · exact h hstop
    · exact h hheight

lemma addressExact_iff (start stop : BitVec 32) (hstart : 0 < start.toInt)
    (hrange : start.toInt ≤ stop.toInt) : AddressExact D.toStore addressHash type start stop ↔
      ∀ k v, addressNext D.toStore addressHash type start stop = some (addressKind.record k v) →
        k.hashBytes = addressHash → stop.toInt < k.blockHeight.toInt := by
  have hranged := address_ranged D type addressHash start stop hstart
  have hstop : 0 < stop.toInt := hstart.trans_le hrange
  have hread : readAddressIndex D.toStore addressHash type start stop =
      addressKind.scan (addressTest addressHash stop)
        (D.seek (DB_ADDRESSINDEX :: iteratorHeightKey type addressHash start.toNat)) := by
    rw [readAddressIndex, if_pos ⟨hstart, hstop⟩]
  have hmem : ∀ r, addressNext D.toStore addressHash type start stop = some r → r ∈ D.records :=
    fun r hr => ((D.mem_seek _ r).mp (mem_of_find?_eq_some hr)).1
  constructor
  · rintro ⟨xs, hxs, hexact, -⟩ k v hnext
    have hstops := hranged.stops_of_scan (fun k v hin => ?_) _ hnext
    · exact (addressTest_record_iff D addressHash hstop (hmem _ hnext)).mp hstops k v rfl
    · rw [← hread, hxs] at hin
      exact decide_eq_true ((hexact k v).mp hin).2
  · intro hnext
    have hscan := hranged.scan_of_stops fun r hr =>
      (addressTest_record_iff D addressHash hstop (hmem r hr)).mpr fun k v hrec =>
        hnext k v (hrec ▸ hr)
    refine ⟨_, hread.trans hscan, fun k v => ?_, ?_, D.address.nodup_entries D.sorted _⟩
    · rw [D.address.mem_filterMap]
      exact and_congr_right fun _ => decide_eq_true_iff
    · refine D.address.pairwise_entries D.sorted _ fun x y hx hy hlt => ?_
      obtain ⟨htype, hhash, hlow, -⟩ := of_decide_eq_true hx
      obtain ⟨htype', hhash', hlow', -⟩ := of_decide_eq_true hy
      have hlt' : x.1.serialize < y.1.serialize := cons_lt_cons_left_iff.mp hlt
      rw [x.1.serialize_eq, y.1.serialize_eq, htype, hhash, htype', hhash'] at hlt'
      have hle := height_le_of_lt hlt'
      have hnat := toNat_of_nonneg (hstart.le.trans hlow)
      have hnat' := toNat_of_nonneg (hstart.le.trans hlow')
      omega

lemma unspentExact_iff : UnspentExact D.toStore addressHash type ↔
      ∀ k v, unspentNext D.toStore addressHash type = some (unspentKind.record k v) →
        k.hashBytes ≠ addressHash := by
  have hranged := unspent_ranged D type addressHash
  constructor
  · rintro ⟨xs, hxs, hexact, -⟩ k v hnext hhash
    have hstops := hranged.stops_of_scan (fun k v hin => ?_) _ hnext
    · have hpass : unspentKind.passes (fun k => k.hashBytes = addressHash)
        (unspentKind.record k v) = true :=
        (Kind.passes_iff _ _).mpr ⟨k, Kind.key_record k v, decide_eq_true hhash⟩
      exact Bool.false_ne_true (hstops.symm.trans hpass)
    · have hin : (k, v) ∈ (readAddressUnspentIndex D.toStore addressHash type).1 := hin
      rw [hxs] at hin
      exact decide_eq_true ((hexact k v).mp hin).2
  · intro hnext
    have hscan := hranged.scan_of_stops fun r hr => by
      by_contra hpass
      obtain ⟨k, hk, hhash⟩ := (Kind.passes_iff _ r).mp (Bool.not_eq_false _ ▸ hpass)
      have hr' := ((D.mem_seek _ r).mp (mem_of_find?_eq_some hr)).1
      obtain ⟨v, -, rfl⟩ := D.unspent.eq_record hr' hk
      exact hnext k v hr (of_decide_eq_true hhash)
    refine ⟨_, hscan, fun k v => ?_, D.unspent.nodup_entries D.sorted _⟩
    rw [D.unspent.mem_filterMap]
    exact and_congr_right fun _ => decide_eq_true_iff

/-- An address whose hash is stored under its own type only, with heights that are not negative, is
answered exactly. -/
lemma addressExact_of_one_type {start stop : BitVec 32} (hstart : 0 < start.toInt)
    (hrange : start.toInt ≤ stop.toInt)
    (hone : ∀ k v, HasAddress D.toStore k v → k.hashBytes = addressHash →
      k.type = type ∧ 0 ≤ k.blockHeight.toInt) :
    AddressExact D.toStore addressHash type start stop := by
  refine (addressExact_iff D addressHash type start stop hstart hrange).mpr fun k v hnext hhash =>
    ?_
  obtain ⟨hin, hlow⟩ := (D.mem_seek _ _).mp (mem_of_find?_eq_some hnext)
  obtain ⟨v', hv', hrecord⟩ := D.address.eq_record hin (Kind.key_record k v)
  obtain ⟨htype, hheight⟩ := hone k v' ⟨hv', hrecord ▸ hin⟩ hhash
  -- it is at or above the seek key, so only the end of the range can leave it out
  have hlow' : ¬ k.serialize < iteratorHeightKey type addressHash start.toNat :=
    fun h => hlow (cons_lt_cons_left_iff.mpr h)
  rw [k.serialize_eq, htype, hhash] at hlow'
  have hge := not_lt_iteratorHeightKey_iff.mp hlow'
  have hnat := toNat_of_nonneg hstart.le
  have hnat' := toNat_of_nonneg hheight
  by_contra hstop
  have hwanted : addressKind.passes (addressWanted type addressHash start stop)
      (addressKind.record k v) = true :=
    (Kind.passes_iff _ _).mpr ⟨k, Kind.key_record k v,
      decide_eq_true ⟨htype, hhash, by omega, by omega⟩⟩
  have hnot := find?_some hnext
  simp [hwanted] at hnot

/-- A query is answered exactly if and only if the first record behind those asked for does not show
the hash of the address (for the address index: not with a height up to the end of the range). So it
is for an address whose hash is stored under its own type only. -/
theorem address_queries_exact_iff (start stop : BitVec 32) (hstart : 0 < start.toInt)
    (hrange : start.toInt ≤ stop.toInt) : (AddressExact D.toStore addressHash type start stop ↔
      ∀ k v, addressNext D.toStore addressHash type start stop = some (addressKind.record k v) →
        k.hashBytes = addressHash → stop.toInt < k.blockHeight.toInt) ∧
    (UnspentExact D.toStore addressHash type ↔
      ∀ k v, unspentNext D.toStore addressHash type = some (unspentKind.record k v) →
        k.hashBytes ≠ addressHash) ∧
    ((∀ k v, HasAddress D.toStore k v → k.hashBytes = addressHash →
        k.type = type ∧ 0 ≤ k.blockHeight.toInt) →
      AddressExact D.toStore addressHash type start stop) :=
  ⟨addressExact_iff D addressHash type start stop hstart hrange,
    unspentExact_iff D addressHash type, addressExact_of_one_type D addressHash type hstart hrange⟩

end

section Example

def oneEach (k : CAddressIndexKey) (u : CAddressUnspentKey) : Content where
  records := [addressKind.record k 1000, unspentKind.record u ⟨1000, [], 5⟩]
  sorted := by
    refine pairwise_pair.mpr (cons_lt_cons_iff.mpr (Or.inl ?_))
    decide
  address := by
    intro r hr hhead
    rcases mem_pair.mp hr with rfl | rfl
    · exact ⟨k, 1000, amount_dom _ (by decide) (by decide), rfl⟩
    · exact absurd (Option.some.inj hhead) (by decide)
  unspent := by
    intro r hr hhead
    rcases mem_pair.mp hr with rfl | rfl
    · exact absurd (Option.some.inj hhead) (by decide)
    · refine ⟨u, ⟨1000, [], 5⟩, ⟨⟨amount_dom _ (by decide) (by decide),
        (bytes_dom _).mpr (by decide), ?_⟩, rfl⟩, rfl⟩
      exact (le_dom _ _).mpr (by decide)

/-- The address that is stored is found. -/
theorem address_queries_exact_own_type :
    AddressExact (oneEach ⟨1, 7, 15, 0, 9, 0, false⟩ ⟨1, 7, 9, 0⟩).toStore 7 1 10 20 ∧
      UnspentExact (oneEach ⟨1, 7, 15, 0, 9, 0, false⟩ ⟨1, 7, 9, 0⟩).toStore 7 1 := by
  have hexact := address_queries_exact_iff (oneEach ⟨1, 7, 15, 0, 9, 0, false⟩ ⟨1, 7, 9, 0⟩)
    7 1 10 20 (by decide) (by decide)
  have hnext : addressNext (oneEach ⟨1, 7, 15, 0, 9, 0, false⟩ ⟨1, 7, 9, 0⟩).toStore 7 1 10 20 =
        some (unspentKind.record ⟨1, 7, 9, 0⟩ ⟨1000, [], 5⟩) ∧
      unspentNext (oneEach ⟨1, 7, 15, 0, 9, 0, false⟩ ⟨1, 7, 9, 0⟩).toStore 7 1 = none := by
    decide +kernel
  refine ⟨hexact.1.mpr fun k v h => ?_, hexact.2.1.mpr fun k v h => ?_⟩
  · -- the record behind the entry is one of the other index
    have hrecord := Option.some.inj (hnext.1.symm.trans h)
    have htag : some DB_ADDRESSUNSPENTINDEX = some DB_ADDRESSINDEX :=
      congrArg (fun r => r.1.head?) hrecord
    exact absurd htag (by decide)
  · exact absurd (hnext.2.symm.trans h) (Option.some_ne_none _).symm

/-- An entry of a script address answers for the public key address with the same hash, whatever its
height is. -/
theorem other_type_is_returned :
    readAddressIndex (oneEach ⟨2, 7, 5, 0, 9, 0, false⟩ ⟨2, 7, 9, 0⟩).toStore 7 1 10 20 =
        ([(⟨2, 7, 5, 0, 9, 0, false⟩, 1000)], true) ∧
      readAddressUnspentIndex (oneEach ⟨2, 7, 5, 0, 9, 0, false⟩ ⟨2, 7, 9, 0⟩).toStore 7 1 =
        ([(⟨2, 7, 9, 0⟩, ⟨1000, [], 5⟩)], true) := by
  decide +kernel

end Example

end AddressQueries
