import BitcoinC.ReadTransaction

/-!
# Transactions on the wire

What is written is read back. What is read was written that way exactly when the
bytes are in the format, and the reader accepts bytes that are not.
-/

namespace RoundTrip

open Primitives Encoding Codecs WireFormat TransactionFormat ReadTransaction

variable (tx : CTransaction)

/-- The input fits the format; only anon inputs have script data. -/
structure WellFormedIn (txin : CTxIn) : Prop where
  scriptSig : txin.scriptSig.length < 2 ^ 32
  scriptData : txin.scriptData.length < 2 ^ 32 ∧ ∀ item ∈ txin.scriptData, item.length < 2 ^ 32
  anon : ¬txin.isAnonInput → txin.scriptData = []
  scriptWitness : txin.scriptWitness.length < 2 ^ 32 ∧
    ∀ item ∈ txin.scriptWitness, item.length < 2 ^ 32

def WellFormedOut : CTxOutBase → Prop
  | .standard p => (-2 ^ 63 ≤ p.nValue ∧ p.nValue < 2 ^ 63) ∧ p.scriptPubKey.length < 2 ^ 32 ∧
      p.vecSignature.length < 2 ^ 32
  | .ringCT p => p.vData.length < 2 ^ 32 ∧ p.vecSignature.length < 2 ^ 32 ∧
      p.vRangeproof.length < 2 ^ 32
  | .data p => p.vData.length < 2 ^ 32

/-- The values fit their machine types, and the transaction has only what its format writes. -/
structure WellFormed (tx : CTransaction) : Prop where
  vin : tx.vin.length < 2 ^ 32 ∧ ∀ txin ∈ tx.vin, WellFormedIn txin
  bitcoinC : tx.isBitcoinCVersion → tx.nVersion.toNat < 2 ^ 16 ∧ tx.vout = [] ∧
    tx.vpout.length < 2 ^ 64 ∧ ∀ out ∈ tx.vpout, WellFormedOut out
  legacy : ¬tx.isBitcoinCVersion → tx.vpout = [] ∧ (tx.vin ≠ [] ∨ tx.vout = []) ∧
    tx.vout.length < 2 ^ 32 ∧ ∀ out ∈ tx.vout, (-2 ^ 63 ≤ out.nValue ∧ out.nValue < 2 ^ 63) ∧
      out.scriptPubKey.length < 2 ^ 32

lemma items_dom (items : List Bytes)
    (h : items.length < 2 ^ 32 ∧ ∀ item ∈ items, item.length < 2 ^ 32) : (vector bytes).dom items :=
  (vector_dom _ _).mpr ⟨h.1, fun item hmem => (bytes_dom item).mpr (h.2 item hmem)⟩

lemma txIn_dom_of_wellFormed (txin : CTxIn) (h : WellFormedIn txin) :
    txIn.dom (withoutWitness txin) := by
  refine (txIn_dom _).mpr ⟨(bytes_dom _).mpr h.scriptSig, ?_, rfl⟩
  show (scriptData txin.prevout).dom txin.scriptData
  by_cases hanon : txin.prevout.isAnonInput
  · rw [scriptData, if_pos hanon]
    exact items_dom _ h.scriptData
  · rw [scriptData, if_neg hanon]
    exact h.anon hanon

lemma vin_dom_of_wellFormed (h : WellFormed tx) :
    (vector txIn).dom (tx.vin.map withoutWitness) := by
  refine (vector_dom _ _).mpr ⟨by rw [List.length_map]; exact h.vin.1, ?_⟩
  rw [List.forall_mem_map]
  exact fun txin hmem => txIn_dom_of_wellFormed txin (h.vin.2 txin hmem)

lemma txOutBase_dom_of_wellFormed (out : CTxOutBase) (h : WellFormedOut out) :
    txOutBase.dom out := by
  refine ⟨⟨trivial, ?_⟩, rfl⟩
  cases out with
  | standard p =>
    obtain ⟨hvalue, hscript, hsig⟩ := h
    exact ⟨p, rfl, ⟨amount_dom _ hvalue.1 hvalue.2, (bytes_dom _).mpr hscript,
      (bytes_dom _).mpr hsig⟩, rfl⟩
  | ringCT p =>
    obtain ⟨hdata, hsig, hproof⟩ := h
    exact ⟨p, rfl, ⟨key_dom _, key_dom _, (bytes_dom _).mpr hdata, (bytes_dom _).mpr hsig,
      (bytes_dom _).mpr hproof⟩, rfl⟩
  | data p => exact ⟨p, rfl, (bytes_dom _).mpr h, rfl⟩

lemma versionOf_bytes (h : tx.nVersion.toNat < 2 ^ 16) :
    versionOf [lowByte tx, typeByte tx] = tx.nVersion := by
  have hlow := lowByte_toNat tx
  have htype : (typeByte tx).toNat = tx.nVersion.toNat / 256 % 256 := UInt8.toNat_ofNat'
  apply UInt32.toNat_inj.mp
  rw [versionOf_toNat _ (by simp)]
  simp only [readLE]
  omega

lemma transaction_dom_of_wellFormed (h : WellFormed tx) : transaction.dom tx := by
  refine ⟨⟨trivial, ?_⟩, rfl⟩
  have hwitness : ∀ txin ∈ tx.vin, (vector bytes).dom txin.scriptWitness :=
    fun txin hmem => items_dom _ (h.vin.2 txin hmem).scriptWitness
  show (transactionBody (lowByte tx)).dom tx
  by_cases hv : tx.isBitcoinCVersion
  · obtain ⟨hversion, hvout, hlength, hvpout⟩ := h.bitcoinC hv
    rw [transactionBody, if_pos ((isBitcoinCVersion_iff tx).mp hv)]
    refine ⟨⟨trivial, uint32_dom _, vin_dom_of_wellFormed tx h, ⟨⟨hlength, rfl, fun out hmem =>
      txOutBase_dom_of_wellFormed out (hvpout out hmem)⟩, rfl⟩, by simp, ?_⟩, ?_⟩
    · rw [List.forall_mem_map]
      exact hwitness
    · show (⟨versionOf [lowByte tx, typeByte tx], tx.nLockTime,
        withWitnesses (tx.vin.map withoutWitness) (tx.vin.map (·.scriptWitness)), [], tx.vpout⟩ :
          CTransaction) = tx
      rw [versionOf_bytes tx hversion, withWitnesses_map, ← hvout]
  · obtain ⟨hvpout, hvin, hlength, hvout⟩ := h.legacy hv
    rw [transactionBody, if_neg (fun hle => hv ((isBitcoinCVersion_iff tx).mpr hle))]
    have hout : (vector txOut).dom tx.vout := (vector_dom _ _).mpr ⟨hlength, fun out hmem =>
      ⟨⟨amount_dom _ (hvout out hmem).1.1 (hvout out hmem).1.2,
        (bytes_dom _).mpr (hvout out hmem).2⟩, rfl⟩⟩
    refine ⟨⟨by simp [fixed], legacyInOut_dom _ _ (vin_dom_of_wellFormed tx h) hout hwitness hvin,
      uint32_dom _⟩, ?_⟩
    have hversion : versionOf (lowByte tx :: (leBytes 4 tx.nVersion.toNat).drop 1) =
        tx.nVersion := by
      apply UInt32.toNat_inj.mp
      rw [versionOf_toNat _ (by simp)]
      exact readLE_leBytes 4 _ tx.nVersion.toNat_lt
    show (⟨versionOf (lowByte tx :: (leBytes 4 tx.nVersion.toNat).drop 1), tx.nLockTime, tx.vin,
      tx.vout, []⟩ : CTransaction) = tx
    rw [hversion, ← hvpout]

lemma hasInput_of_wellFormed (h : WellFormed tx) : HasInput tx := by
  by_cases hv : tx.isBitcoinCVersion
  · exact .inl hv
  · exact .inr (h.legacy hv).2.1

def Canonical (bs : Bytes) : Prop := (transaction.dec bs).isSome = true

lemma unserialize_serialize (h : WellFormed tx) (rest : Bytes) :
    unserializeTransaction true (serializeTransaction true tx ++ rest) =
      some (mutable tx, rest) := by
  have hread := lenient_transaction.read_enc tx rest (transaction_dom_of_wellFormed tx h)
  rw [transaction_enc tx (hasInput_of_wellFormed tx h)] at hread
  exact ((knownTransaction_iff _ _ _).mp hread).1

lemma exact_iff_canonical (bs rest : Bytes) (tx : CMutableTransaction)
    (h : unserializeTransaction true bs = some (tx, rest)) :
    (∃ full, tx = mutable full ∧ bs = serializeTransaction true full ++ rest) ↔ Canonical bs := by
  constructor
  · rintro ⟨full, rfl, hbs⟩
    by_cases hinput : HasInput full
    · have hknown := (knownTransaction_iff _ _ _).mpr ⟨h, hinput⟩
      rw [← transaction_enc full hinput] at hbs
      rw [Canonical, (lenient_transaction.exact_iff hknown).mp hbs]
      rfl
    · have hlonger := longer_of_no_input h hinput
      have hlength := congrArg List.length hbs
      rw [List.length_append] at hlength
      omega
  · intro hcanonical
    obtain ⟨⟨full, rest'⟩, hdec⟩ := Option.isSome_iff_exists.mp hcanonical
    obtain ⟨hread, hinput⟩ := (knownTransaction_iff _ _ _).mp (lenient_transaction.accepts _ _ hdec)
    obtain ⟨rfl, rfl⟩ := Prod.mk.inj (Option.some.inj (h.symm.trans hread))
    exact ⟨full,
      rfl, by rw [← transaction_enc full hinput]; exact (transaction.enc_dec _ _ _ hdec).2⟩

/-- Every transaction that can be written is read back. A transaction that was read has all its
outputs and is written as the bytes it was read from exactly when those are canonical. -/
theorem wireFormat_roundTrip (tx : CTransaction) (bs rest : Bytes) (result : CMutableTransaction) :
    (WellFormed tx →
      unserializeTransaction true (serializeTransaction true tx ++ rest) =
        some (mutable tx, rest)) ∧
    (unserializeTransaction true bs = some (result, rest) →
      ((∃ full, result = mutable full ∧ bs = serializeTransaction true full ++ rest) ↔
        Canonical bs)) :=
  ⟨fun h => unserialize_serialize tx h rest, exact_iff_canonical bs rest result⟩

def sampleTx : CTransaction where
  nVersion := 0x2A0
  vin := [⟨⟨5, COutPoint.ANON_MARKER⟩, [], 7, [[1, 2]], [[3]]⟩]
  vpout := [.data ⟨[5]⟩, .standard ⟨-1, [118], [9]⟩, .ringCT ⟨6, [8], 7, [1], []⟩]

lemma sampleTx_wellFormed : WellFormed sampleTx where
  vin := by
    refine ⟨by decide, ?_⟩
    intro txin hmem
    rw [List.mem_singleton.mp hmem]
    exact ⟨by decide, by decide, fun hanon => absurd rfl hanon, by decide⟩
  bitcoinC := by
    intro _
    refine ⟨by decide, rfl, by decide, ?_⟩
    simp [sampleTx, WellFormedOut]
  legacy := fun hlegacy => absurd (by decide) hlegacy

theorem sampleTx_roundTrip : WellFormed sampleTx ∧
      unserializeTransaction true (serializeTransaction true sampleTx ++ [1, 2, 3]) =
        some (mutable sampleTx, [1, 2, 3]) ∧
      Canonical (serializeTransaction true sampleTx) := by
  have hread : ∀ rest, _ := fun rest =>
    (wireFormat_roundTrip sampleTx [] rest (mutable sampleTx)).1 sampleTx_wellFormed
  have hbare := hread []
  rw [List.append_nil] at hbare
  refine ⟨sampleTx_wellFormed, hread [1, 2, 3],
    ((wireFormat_roundTrip sampleTx _ _ _).2 hbare).mp ?_⟩
  exact ⟨sampleTx, rfl, (List.append_nil _).symm⟩

def unknownType : Bytes := [0xA0, 0, 0, 0, 0, 0, 0, 1, 9]

def superfluousFlag : Bytes := [2, 0, 0, 0, 0, 1, 0, 0, 0, 0, 0, 0]

def hugeSize : Bytes := [0xA0, 0, 0, 0, 0, 0, 255, 0, 0, 0, 0, 1, 0, 0, 0, 0]

/-- The reader returns with a null output, and with transactions that are written as other bytes. -/
theorem unserialize_not_exact :
    unserializeTransaction true unknownType = some (⟨0xA0, 0, [], [], [none]⟩, []) ∧
    (unserializeTransaction true superfluousFlag = some (mutable ⟨2, 0, [], [], []⟩, []) ∧
      serializeTransaction true ⟨2, 0, [], [], []⟩ ≠ superfluousFlag) ∧
    (unserializeTransaction true hugeSize = some (mutable ⟨0xA0, 0, [], [], []⟩, []) ∧
      serializeTransaction true ⟨0xA0, 0, [], [], []⟩ ≠ hugeSize) := by
  decide +kernel

end RoundTrip
