import BitcoinC.WireFormat

/-!
# The format of a transaction

The bytes that `SerializeTransaction` writes with witnesses, as a codec. The first
byte selects the format. A BitcoinC transaction has two bytes of version, typed
outputs and a witness for every input.
-/

namespace TransactionFormat

open Primitives Encoding Codecs WireFormat List

variable (vin : List CTxIn) (tx : CTransaction)

variable (bv : UInt8) (vout : List CTxOut) (bs : Bytes)

def lowByte (tx : CTransaction) : UInt8 := UInt8.ofNat tx.nVersion.toNat

lemma lowByte_toNat : (lowByte tx).toNat = tx.nVersion.toNat % 256 :=
  UInt8.toNat_ofNat'

lemma and_255 (x : UInt32) : (x &&& 0xFF).toNat = x.toNat % 256 := by
  rw [UInt32.toNat_and]
  exact Nat.and_two_pow_sub_one_eq_mod x.toNat 8

lemma isBitcoinCVersion_iff : tx.isBitcoinCVersion ↔ 0xA0 ≤ lowByte tx := by
  show 0xA0 ≤ (tx.nVersion &&& 0xFF).toNat ↔ 0xA0 ≤ (lowByte tx).toNat
  rw [and_255, lowByte_toNat]

lemma version_byte : (tx.nVersion &&& 0xFF).toUInt8 = lowByte tx := by
  apply UInt8.toNat_inj.mp
  rw [UInt32.toNat_toUInt8, and_255, lowByte_toNat]
  omega

def typeByte (tx : CTransaction) : UInt8 := UInt8.ofNat (tx.nVersion.toNat / 256)

lemma type_byte : tx.getType.toUInt8 = typeByte tx := by
  apply UInt8.toNat_inj.mp
  have hshift : (tx.nVersion >>> 8).toNat = tx.nVersion.toNat / 256 := by
    rw [UInt32.toNat_shiftRight]
    exact Nat.shiftRight_eq_div_pow _ 8
  rw [UInt32.toNat_toUInt8, CTransaction.getType, and_255, hshift, typeByte, UInt8.toNat_ofNat']
  omega

def versionOf (bs : Bytes) : UInt32 := UInt32.ofNat (readLE bs)

lemma versionOf_toNat (h : bs.length ≤ 4) : (versionOf bs).toNat = readLE bs := by
  have hlt := readLE_lt bs
  have hpow : 256 ^ bs.length ≤ 256 ^ 4 := Nat.pow_le_pow_right (by decide) h
  have hsize : readLE bs < 2 ^ 32 := by omega
  exact UInt32.toNat_ofNat_of_lt' hsize

lemma typeByte_versionOf (bv' : UInt8) : UInt8.ofNat ((versionOf [bv, bv']).toNat / 256) = bv' := by
  have hbv : bv.toNat < 256 := bv.toNat_lt
  have hbv' : bv'.toNat < 256 := bv'.toNat_lt
  apply UInt8.toNat_inj.mp
  rw [versionOf_toNat _ (by simp), UInt8.toNat_ofNat']
  simp only [readLE]
  omega

def withoutWitness (txin : CTxIn) : CTxIn := { txin with scriptWitness := [] }

def withWitnesses (vin : List CTxIn) (witnesses : List (List Bytes)) : List CTxIn :=
  vin.zipWith (fun txin stack => { txin with scriptWitness := stack }) witnesses

lemma withWitnesses_map :
    withWitnesses (vin.map withoutWitness) (vin.map (·.scriptWitness)) = vin := by
  induction vin with
  | nil => rfl
  | cons txin vin ih =>
    rw [map_cons, map_cons, withWitnesses, zipWith_cons_cons]
    exact congrArg _ ih

lemma withWitnesses_split (witnesses : List (List Bytes))
    (hvin : ∀ txin ∈ vin, txin.scriptWitness = []) (hlength : witnesses.length = vin.length) :
    (withWitnesses vin witnesses).map withoutWitness = vin ∧
      (withWitnesses vin witnesses).map (·.scriptWitness) = witnesses := by
  induction vin generalizing witnesses with
  | nil =>
    have hnil : witnesses = [] := length_eq_zero_iff.mp hlength
    rw [hnil]
    exact ⟨rfl, rfl⟩
  | cons txin vin ih =>
    cases witnesses with
    | nil => simp at hlength
    | cons stack witnesses =>
      rw [forall_mem_cons] at hvin
      obtain ⟨h₁, h₂⟩ := ih witnesses hvin.2 (by simpa using hlength)
      have hhead : withoutWitness { txin with scriptWitness := stack } = txin := by
        rw [withoutWitness, ← hvin.1]
      exact ⟨congrArg₂ cons hhead h₁, congrArg (cons stack) h₂⟩

lemma txIn_dom (txin : CTxIn) : txIn.dom txin ↔ bytes.dom txin.scriptSig ∧
    (scriptData txin.prevout).dom txin.scriptData ∧ txin.scriptWitness = [] := by
  constructor
  · rintro ⟨⟨-, hsig, -, hdata⟩, hwitness⟩
    refine ⟨hsig, hdata, ?_⟩
    rw [← hwitness]
  · rintro ⟨hsig, hdata, hwitness⟩
    refine ⟨⟨outPoint_dom _, hsig, uint32_dom _, hdata⟩, ?_⟩
    rw [← hwitness]

def witnesses (n : Nat) : Codec (List (List Bytes)) := count (vector bytes) n

def outputs : Codec (List CTxOutBase) :=
  map (seq compactSize (count txOutBase)) (fun x => x.2) (fun vpout => (vpout.length, vpout))
    fun _ hx => Prod.ext hx.2.1 rfl

/-- After the version byte: the type, the lock time, the inputs, the outputs and the witnesses. -/
def bitcoinCBody (bv : UInt8) : Codec CTransaction :=
  map (seq byte fun _ => seq uint32 fun _ => seq (vector txIn) fun vin => seq outputs fun _ =>
      witnesses vin.length)
    (fun x => ⟨versionOf [bv, x.1], x.2.1, withWitnesses x.2.2.1 x.2.2.2.2, [], x.2.2.2.1⟩)
    (fun tx => (typeByte tx, tx.nLockTime, tx.vin.map withoutWitness, tx.vpout,
      tx.vin.map (·.scriptWitness)))
    fun x hx => by
      obtain ⟨-, -, hvin, -, hlength, -⟩ := hx
      obtain ⟨h₁, h₂⟩ := withWitnesses_split x.2.2.1 x.2.2.2.2
        (fun txin hmem => ((txIn_dom txin).mp (((vector_dom _ _).mp hvin).2 txin hmem)).2.2) hlength
      have htype : typeByte ⟨versionOf [bv, x.1], x.2.1, withWitnesses x.2.2.1 x.2.2.2.2, [],
          x.2.2.2.1⟩ = x.1 := typeByte_versionOf bv x.1
      simp only [h₁, h₂, htype]

def anyWitness (vin : List CTxIn) : Bool := vin.any fun txin => !txin.scriptWitness.isEmpty

def withWitnessBody : Codec (List CTxIn × List CTxOut) :=
  map (seq (vector txIn) fun vin => seq (vector txOut) fun _ => witnesses vin.length)
    (fun x => (withWitnesses x.1 x.2.2, x.2.1))
    (fun x => (x.1.map withoutWitness, x.2, x.1.map (·.scriptWitness)))
    fun x hx => by
      obtain ⟨hvin, -, hlength, -⟩ := hx
      obtain ⟨h₁, h₂⟩ := withWitnesses_split x.1 x.2.2
        (fun txin hmem => ((txIn_dom txin).mp (((vector_dom _ _).mp hvin).2 txin hmem)).2.2) hlength
      simp only [h₁, h₂]

/-- What follows an empty list of inputs: nothing more, or the flag and the witness format. -/
def flagBody (flags : UInt8) : Codec (List CTxIn × List CTxOut) :=
  if flags = 0 then const ([], [])
  else if flags = 1 then restrict withWitnessBody fun x => anyWitness x.1 = true
  else never

def flagOf (x : List CTxIn × List CTxOut) : UInt8 := if anyWitness x.1 then 1 else 0

lemma flagOf_eq (flags : UInt8) (x : List CTxIn × List CTxOut) (h : (flagBody flags).dom x) :
    flagOf x = flags := by
  unfold flagBody at h
  split_ifs at h with h₁ h₂
  · have hx : x = ([], []) := h
    rw [hx, h₁]
    rfl
  · rw [flagOf, if_pos h.2, h₂]
  · exact h.elim

def afterInputs (vin : List CTxIn) : Codec (List CTxIn × List CTxOut) :=
  if vin = [] then
    map (seq byte flagBody) (fun x => x.2) (fun x => (flagOf x, x)) fun x hx =>
      Prod.ext (flagOf_eq x.1 x.2 hx.2) rfl
  else map (vector txOut) (fun vout => (vin, vout)) (fun x => x.2) fun _ _ => rfl

def firstInputs (x : List CTxIn × List CTxOut) : List CTxIn := if anyWitness x.1 then [] else x.1

lemma anyWitness_of_none (h : ∀ txin ∈ vin, txin.scriptWitness = []) : anyWitness vin = false := by
  rw [anyWitness, any_eq_false]
  intro txin hmem
  simp [h txin hmem]

lemma firstInputs_eq (x : List CTxIn × List CTxOut) (hvin : (vector txIn).dom vin)
    (h : (afterInputs vin).dom x) : firstInputs x = vin := by
  unfold afterInputs at h
  split_ifs at h with hnil
  · obtain ⟨⟨-, hbody⟩, -⟩ := h
    rw [firstInputs, hnil]
    by_cases hany : anyWitness x.1 = true
    · rw [if_pos hany]
    · rw [if_neg hany]
      have hflag : flagOf x = 0 := if_neg hany
      have hbody' : (flagBody (flagOf x)).dom x := hbody
      rw [hflag] at hbody'
      have hx : x = ([], []) := hbody'
      rw [hx]
  · obtain ⟨-, hx⟩ := h
    have hx₁ : x.1 = vin := (congrArg Prod.fst hx).symm
    have hnone : anyWitness x.1 = false := by
      rw [hx₁]
      exact anyWitness_of_none vin fun txin hmem =>
        ((txIn_dom txin).mp (((vector_dom _ _).mp hvin).2 txin hmem)).2.2
    rw [firstInputs, hnone, ← hx₁]
    rfl

def legacyInOut : Codec (List CTxIn × List CTxOut) :=
  map (seq (vector txIn) afterInputs) (fun x => x.2) (fun x => (firstInputs x, x)) fun x hx =>
    Prod.ext (firstInputs_eq x.1 x.2 hx.1 hx.2) rfl

def legacyBody (bv : UInt8) : Codec CTransaction :=
  map (seq (fixed 3) fun _ => seq legacyInOut fun _ => uint32)
    (fun x => ⟨versionOf (bv :: x.1), x.2.2, x.2.1.1, x.2.1.2, []⟩)
    (fun tx => ((leBytes 4 tx.nVersion.toNat).drop 1, (tx.vin, tx.vout), tx.nLockTime))
    fun x hx => by
      have hlength : x.1.length = 3 := hx.1
      have hbytes : leBytes 4 (versionOf (bv :: x.1)).toNat = bv :: x.1 := by
        rw [versionOf_toNat _ (by simp [hlength])]
        have hread := leBytes_readLE (bv :: x.1)
        rwa [length_cons, hlength] at hread
      simp only [hbytes, drop_succ_cons, drop_zero]

def transactionBody (bv : UInt8) : Codec CTransaction :=
  if 0xA0 ≤ bv then bitcoinCBody bv else legacyBody bv

lemma lowByte_versionOf (h : bs.length ≤ 3) : UInt8.ofNat (versionOf (bv :: bs)).toNat = bv := by
  have hbv : bv.toNat < 256 := bv.toNat_lt
  apply UInt8.toNat_inj.mp
  rw [versionOf_toNat (bv :: bs) (Nat.succ_le_succ h), UInt8.toNat_ofNat', readLE]
  omega

lemma lowByte_of_dom (tx : CTransaction) (h : (transactionBody bv).dom tx) : lowByte tx = bv := by
  unfold transactionBody at h
  split_ifs at h
  · rw [← h.2]
    exact lowByte_versionOf bv _ (by simp)
  · have hlength : ((leBytes 4 tx.nVersion.toNat).drop 1).length = 3 := by simp
    rw [← h.2]
    exact lowByte_versionOf bv _ (by simp)

def transaction : Codec CTransaction :=
  map (seq byte transactionBody) (fun x => x.2) (fun tx => (lowByte tx, tx)) fun x hx =>
    Prod.ext (lowByte_of_dom x.1 x.2 hx.2) rfl

lemma vector_txIn_enc : (vector txIn).enc vin = writeVector writeTxIn vin := by
  rw [vector_enc, funext txIn_enc]

lemma vector_txIn_enc_map :
    (vector txIn).enc (vin.map withoutWitness) = writeVector writeTxIn vin := by
  rw [vector_txIn_enc, writeVector, writeVector, flatMap_map, length_map]
  rfl

lemma witnesses_enc (n : Nat) (vin : List CTxIn) :
    (witnesses n).enc (vin.map (·.scriptWitness)) = writeWitnesses vin := by
  show (vin.map (·.scriptWitness)).flatMap (vector bytes).enc = _
  rw [flatMap_map]
  rfl

lemma outputs_enc (vpout : List CTxOutBase) :
    outputs.enc vpout = writeVector (writeTxOutBase true) vpout := by
  show writeCompactSize vpout.length ++ vpout.flatMap txOutBase.enc = _
  rw [funext txOutBase_enc]
  rfl

lemma bitcoinC_enc (h : tx.isBitcoinCVersion) :
    transaction.enc tx = serializeTransaction true tx := by
  show lowByte tx :: (transactionBody (lowByte tx)).enc tx = _
  rw [transactionBody, if_pos ((isBitcoinCVersion_iff tx).mp h), serializeTransaction, if_pos h,
    version_byte, type_byte, ← vector_txIn_enc_map, ← outputs_enc, ← witnesses_enc tx.vin.length]
  show lowByte tx :: ([typeByte tx] ++ (uint32.enc tx.nLockTime ++ ((vector txIn).enc _ ++
    (outputs.enc tx.vpout ++ (witnesses _).enc _)))) = _
  simp only [length_map, append_assoc, cons_append, nil_append, if_true]
  rfl

lemma map_withoutWitness (h : anyWitness vin = false) : vin.map withoutWitness = vin := by
  induction vin with
  | nil => rfl
  | cons txin vin ih =>
    rw [anyWitness, any_cons, Bool.or_eq_false_iff] at h
    have hhead : txin.scriptWitness = [] := by simpa using h.1
    rw [map_cons, ih h.2, withoutWitness, ← hhead]

lemma legacyInOut_enc_flagged (h : anyWitness vin = true) :
    legacyInOut.enc (vin, vout) = [0, 1] ++ (writeVector writeTxIn vin ++
      (writeVector writeTxOut vout ++ writeWitnesses vin)) := by
  have hfirst : firstInputs (vin, vout) = [] := if_pos h
  have hflag : flagOf (vin, vout) = 1 := if_pos h
  show (vector txIn).enc (firstInputs (vin, vout)) ++
    (afterInputs (firstInputs (vin, vout))).enc (vin, vout) = _
  rw [hfirst, afterInputs, if_pos rfl]
  show _ ++ ([flagOf (vin, vout)] ++ (flagBody (flagOf (vin, vout))).enc _) = _
  rw [hflag, flagBody, if_neg (by decide), if_pos rfl]
  show _ ++ ([1] ++ ((vector txIn).enc (vin.map withoutWitness) ++ ((vector txOut).enc vout ++
    (witnesses _).enc (vin.map (·.scriptWitness))))) = _
  rw [vector_txIn_enc_map, witnesses_enc]
  rfl

lemma legacyInOut_enc_plain (h : anyWitness vin = false) (hvin : vin ≠ [] ∨ vout = []) :
    legacyInOut.enc (vin, vout) = writeVector writeTxIn vin ++ writeVector writeTxOut vout := by
  have hfirst : firstInputs (vin, vout) = vin := if_neg (by simp [h])
  have hflag : flagOf (vin, vout) = 0 := if_neg (by simp [h])
  show (vector txIn).enc (firstInputs (vin, vout)) ++
    (afterInputs (firstInputs (vin, vout))).enc (vin, vout) = _
  rw [hfirst, vector_txIn_enc]
  by_cases hnil : vin = []
  · have hvout : vout = [] := hvin.resolve_left fun hne => hne hnil
    rw [hnil, hvout] at hflag
    rw [hnil, hvout, afterInputs, if_pos rfl]
    show _ ++ ([flagOf ([], [])] ++ (flagBody (flagOf ([], []))).enc _) = _
    rw [hflag]
    rfl
  · rw [afterInputs, if_neg hnil]
    rfl

lemma legacyInOut_dom (hvin : (vector txIn).dom (vin.map withoutWitness))
    (hvout : (vector txOut).dom vout)
    (hwitness : ∀ txin ∈ vin, (vector bytes).dom txin.scriptWitness) (h : vin ≠ [] ∨ vout = []) :
    legacyInOut.dom (vin, vout) := by
  refine ⟨?_, rfl⟩
  cases hany : anyWitness vin with
  | true =>
    have hfirst : firstInputs (vin, vout) = [] := if_pos hany
    have hflag : flagOf (vin, vout) = 1 := if_pos hany
    have hbody : withWitnessBody.dom (vin, vout) := by
      refine ⟨⟨hvin, hvout, by simp, ?_⟩, congrArg (·, vout) (withWitnesses_map vin)⟩
      show ∀ stack ∈ vin.map (·.scriptWitness), (vector bytes).dom stack
      rw [forall_mem_map]
      exact hwitness
    have hflagBody : (flagBody (flagOf (vin, vout))).dom (vin, vout) := by
      rw [hflag, flagBody, if_neg (by decide), if_pos rfl]
      exact ⟨hbody, hany⟩
    show (vector txIn).dom (firstInputs _) ∧ (afterInputs (firstInputs _)).dom _
    rw [hfirst, afterInputs, if_pos rfl]
    exact ⟨(vector_dom _ _).mpr (by simp), ⟨trivial, hflagBody⟩, rfl⟩
  | false =>
    have hfirst : firstInputs (vin, vout) = vin := if_neg (by simp [hany])
    have hflag : flagOf (vin, vout) = 0 := if_neg (by simp [hany])
    rw [map_withoutWitness vin hany] at hvin
    show (vector txIn).dom (firstInputs _) ∧ (afterInputs (firstInputs _)).dom _
    rw [hfirst]
    refine ⟨hvin, ?_⟩
    by_cases hnil : vin = []
    · have hvout' : vout = [] := h.resolve_left fun hne => hne hnil
      rw [hnil, hvout'] at hflag
      rw [hnil, hvout', afterInputs, if_pos rfl]
      refine ⟨⟨trivial, ?_⟩, rfl⟩
      show (flagBody (flagOf ([], []))).dom _
      rw [hflag]
      rfl
    · rw [afterInputs, if_neg hnil]
      exact ⟨hvout, rfl⟩

lemma legacy_enc (hv : ¬tx.isBitcoinCVersion) (h : tx.vin ≠ [] ∨ tx.vout = []) :
    transaction.enc tx = serializeTransaction true tx := by
  have hlow : ¬0xA0 ≤ lowByte tx := fun hle => hv ((isBitcoinCVersion_iff tx).mpr hle)
  show lowByte tx :: (transactionBody (lowByte tx)).enc tx = _
  rw [transactionBody, if_neg hlow, serializeTransaction, if_neg hv, serializeLegacyTransaction]
  show lowByte tx :: ((leBytes 4 tx.nVersion.toNat).drop 1 ++
    (legacyInOut.enc (tx.vin, tx.vout) ++ uint32.enc tx.nLockTime)) = _
  have hversion : lowByte tx :: (leBytes 4 tx.nVersion.toNat).drop 1 = uint32Bytes tx.nVersion :=
    rfl
  have hbody : legacyInOut.enc (tx.vin, tx.vout) =
      (if hasWitness tx then writeCompactSize 0 ++ [1] else []) ++
        (writeVector writeTxIn tx.vin ++ (writeVector writeTxOut tx.vout ++
          if hasWitness tx then writeWitnesses tx.vin else [])) := by
    cases hany : hasWitness tx with
    | true => exact legacyInOut_enc_flagged tx.vin tx.vout hany
    | false => simpa using legacyInOut_enc_plain tx.vin tx.vout hany h
  rw [← cons_append, hversion, hbody]
  simp only [Bool.true_and, append_assoc]
  rfl

end TransactionFormat
