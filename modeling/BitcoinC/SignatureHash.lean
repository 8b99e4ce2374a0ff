import BitcoinC.WireFormat

/-!
# What a signature commits to

`SignatureHash` of `interpreter.cpp` for BitcoinC transactions and for witness
version 0: the strings that go into its hashes.
-/

namespace SignatureHash

open Primitives Encoding Codecs WireFormat List

def SIGHASH_ALL : UInt32 := 1
def SIGHASH_NONE : UInt32 := 2
def SIGHASH_SINGLE : UInt32 := 3
def SIGHASH_ANYONECANPAY : UInt32 := 0x80

def writeOutput : CTxOutBase → Bytes
  | .standard p => amountBytes p.nValue ++ writeBytes p.scriptPubKey ++ writeBytes p.vecSignature
  | .ringCT p => keyBytes p.pk ++ keyBytes p.commitment ++ writeBytes p.vData ++
      writeBytes p.vecSignature ++ writeBytes p.vRangeproof
  | .data p => writeBytes p.vData

def prevoutString (txTo : CTransaction) : Bytes := txTo.vin.flatMap fun txin =>
    writeOutPoint txin.prevout

def sequenceString (txTo : CTransaction) : Bytes := txTo.vin.flatMap fun txin =>
    uint32Bytes txin.nSequence

def outputsString (txTo : CTransaction) : Bytes :=
  if txTo.isBitcoinCVersion then txTo.vpout.flatMap writeOutput else txTo.vout.flatMap writeTxOut

def singleString (txTo : CTransaction) (nIn : Nat) : Option Bytes :=
  if txTo.isBitcoinCVersion then txTo.vpout[nIn]?.map writeOutput
    else txTo.vout[nIn]?.map writeTxOut

def anyoneCanPay (nHashType : UInt32) : Prop := nHashType &&& SIGHASH_ANYONECANPAY ≠ 0

instance (nHashType : UInt32) : Decidable (anyoneCanPay nHashType) :=
  inferInstanceAs (Decidable (_ ≠ _))

def signsOutputs (nHashType : UInt32) : Prop :=
  nHashType &&& 0x1f ≠ SIGHASH_SINGLE ∧ nHashType &&& 0x1f ≠ SIGHASH_NONE

instance (nHashType : UInt32) : Decidable (signsOutputs nHashType) :=
  inferInstanceAs (Decidable (_ ∧ _))

/-- The strings that go into the three inner hashes and into the outer one. A hash that is not
computed stays zero. -/
structure Hashed where
  prevouts : Option Bytes
  sequence : Option Bytes
  outputs : Option Bytes
  outer : Bytes
  deriving DecidableEq

section

variable (hash256 : Bytes → Uint256)

def hashOf (string : Option Bytes) : Uint256 := (string.map hash256).getD 0

def stringsOf (scriptCode : Bytes) (txTo : CTransaction) (txin : CTxIn) (nIn : Nat)
    (nHashType : UInt32) (amount : Bytes) : Hashed :=
  let prevouts := if anyoneCanPay nHashType then none else some (prevoutString txTo)
  let sequence := if ¬anyoneCanPay nHashType ∧ signsOutputs nHashType
    then some (sequenceString txTo)
    else none
  let outputs := if signsOutputs nHashType then some (outputsString txTo)
    else if nHashType &&& 0x1f = SIGHASH_SINGLE then singleString txTo nIn
    else none
  { prevouts, sequence, outputs,
    outer := uint32Bytes txTo.nVersion ++ hashBytes (hashOf hash256 prevouts) ++
      hashBytes (hashOf hash256 sequence) ++ writeOutPoint txin.prevout ++ writeBytes scriptCode ++
      amount ++ uint32Bytes txin.nSequence ++ hashBytes (hashOf hash256 outputs) ++
      uint32Bytes txTo.nLockTime ++ uint32Bytes nHashType }

def hashedStrings (scriptCode : Bytes) (txTo : CTransaction) (nIn : Nat) (nHashType : UInt32)
    (amount : Bytes) : Option Hashed :=
  txTo.vin[nIn]?.map fun txin => stringsOf hash256 scriptCode txTo txin nIn nHashType amount

def signatureHash (scriptCode : Bytes) (txTo : CTransaction) (nIn : Nat) (nHashType : UInt32)
    (amount : Bytes) : Option Uint256 :=
  (hashedStrings hash256 scriptCode txTo nIn nHashType amount).map fun strings =>
    hash256 strings.outer

end

def longBytes : Codec Bytes :=
  map (seq compactSize fixed) (fun x => x.2) (fun bs => (bs.length, bs)) fun _ hx =>
    Prod.ext hx.2 rfl

lemma longBytes_dom (bs : Bytes) (h : bs.length < 2 ^ 64) : longBytes.dom bs := ⟨⟨h, rfl⟩, rfl⟩

def MachineOutput : CTxOutBase → Prop
  | .standard p => (-2 ^ 63 ≤ p.nValue ∧ p.nValue < 2 ^ 63) ∧ p.scriptPubKey.length < 2 ^ 64 ∧
      p.vecSignature.length < 2 ^ 64
  | .ringCT p => p.vData.length < 2 ^ 64 ∧ p.vecSignature.length < 2 ^ 64 ∧
      p.vRangeproof.length < 2 ^ 64
  | .data p => p.vData.length < 2 ^ 64

lemma writeOutput_split {o₁ o₂ : CTxOutBase} {r s : Bytes} (h₁ : MachineOutput o₁)
    (h₂ : MachineOutput o₂) (htype : outputType o₁ = outputType o₂)
    (h : writeOutput o₁ ++ r = writeOutput o₂ ++ s) : o₁ = o₂ ∧ r = s := by
  have hbytes : ∀ {a b r s : Bytes}, a.length < 2 ^ 64 → b.length < 2 ^ 64 →
      writeBytes a ++ r = writeBytes b ++ s → a = b ∧ r = s :=
    fun ha hb heq => longBytes.split (longBytes_dom _ ha) (longBytes_dom _ hb) heq
  cases o₁ with
  | standard p =>
    cases o₂ with
    | standard q =>
      simp only [writeOutput, append_assoc] at h
      obtain ⟨hvalue, h⟩ := amount.split (amount_dom _ h₁.1.1 h₁.1.2) (amount_dom _ h₂.1.1 h₂.1.2) h
      obtain ⟨hscript, h⟩ := hbytes h₁.2.1 h₂.2.1 h
      obtain ⟨hsig, h⟩ := hbytes h₁.2.2 h₂.2.2 h
      cases p
      cases q
      simp_all
    | _ => cases htype
  | ringCT p =>
    cases o₂ with
    | ringCT q =>
      simp only [writeOutput, append_assoc] at h
      obtain ⟨hpk, h⟩ := key.split (key_dom _) (key_dom _) h
      obtain ⟨hcommitment, h⟩ := key.split (key_dom _) (key_dom _) h
      obtain ⟨hdata, h⟩ := hbytes h₁.1 h₂.1 h
      obtain ⟨hsig, h⟩ := hbytes h₁.2.1 h₂.2.1 h
      obtain ⟨hproof, h⟩ := hbytes h₁.2.2 h₂.2.2 h
      cases p
      cases q
      simp_all
    | _ => cases htype
  | data p =>
    cases o₂ with
    | data q =>
      obtain ⟨hdata, h⟩ := hbytes h₁ h₂ h
      cases p
      cases q
      simp_all
    | _ => cases htype

lemma outputs_eq_of_types {vpout₁ vpout₂ : List CTxOutBase} (h₁ : ∀ o ∈ vpout₁, MachineOutput o)
    (h₂ : ∀ o ∈ vpout₂, MachineOutput o) (htypes : vpout₁.map outputType = vpout₂.map outputType)
    (h : vpout₁.flatMap writeOutput = vpout₂.flatMap writeOutput) : vpout₁ = vpout₂ := by
  induction vpout₁ generalizing vpout₂ with
  | nil => exact (map_eq_nil_iff.mp htypes.symm).symm
  | cons o₁ vpout₁ ih =>
    cases vpout₂ with
    | nil => cases htypes
    | cons o₂ vpout₂ =>
      rw [forall_mem_cons] at h₁ h₂
      rw [map_cons, map_cons, cons.injEq] at htypes
      obtain ⟨rfl, hrest⟩ := writeOutput_split h₁.1 h₂.1 htypes.1 h
      rw [ih h₁.2 h₂.2 htypes.2 hrest]

lemma prevouts_eq {tx₁ tx₂ : CTransaction} (h : prevoutString tx₁ = prevoutString tx₂) :
    tx₁.vin.map (·.prevout) = tx₂.vin.map (·.prevout) := by
  have hpos : ∀ o : COutPoint, outPoint.enc o ≠ [] := fun o hnil => by cases hnil
  refine outPoint.flatMap_inj hpos (fun _ _ => outPoint_dom _) (fun _ _ => outPoint_dom _) ?_
  rw [flatMap_map, flatMap_map]
  exact h

lemma sequences_eq {tx₁ tx₂ : CTransaction} (h : sequenceString tx₁ = sequenceString tx₂) :
    tx₁.vin.map (·.nSequence) = tx₂.vin.map (·.nSequence) := by
  have hpos : ∀ x : UInt32, uint32.enc x ≠ [] := fun x hnil => by cases hnil
  refine uint32.flatMap_inj hpos (fun _ _ => uint32_dom _) (fun _ _ => uint32_dom _) ?_
  rw [flatMap_map, flatMap_map]
  exact h

lemma uint32Bytes_inj {x y : UInt32} (h : uint32Bytes x = uint32Bytes y) : x = y :=
  uint32.enc_inj (uint32_dom x) (uint32_dom y) h

/-- Equal strings under `SIGHASH_ALL` fix the version, the prevouts, the sequences and the lock
time. They fix the outputs exactly when the two transactions agree on the types of theirs. -/
theorem sighashAll_binds_iff (hash256 : Bytes → Uint256) (scriptCode amount : Bytes)
    (tx₁ tx₂ : CTransaction) (hv₁ : tx₁.isBitcoinCVersion) (hv₂ : tx₂.isBitcoinCVersion)
    (hout₁ : ∀ o ∈ tx₁.vpout, MachineOutput o) (hout₂ : ∀ o ∈ tx₂.vpout, MachineOutput o)
    (nIn : Nat) (nHashType : UInt32) (hall : nHashType &&& 0x1f = SIGHASH_ALL)
    (hany : ¬anyoneCanPay nHashType) (strings : Hashed)
    (h₁ : hashedStrings hash256 scriptCode tx₁ nIn nHashType amount = some strings)
    (h₂ : hashedStrings hash256 scriptCode tx₂ nIn nHashType amount = some strings) :
    tx₁.nVersion = tx₂.nVersion ∧ tx₁.vin.map (·.prevout) = tx₂.vin.map (·.prevout) ∧
      tx₁.vin.map (·.nSequence) = tx₂.vin.map (·.nSequence) ∧ tx₁.nLockTime = tx₂.nLockTime ∧
      (tx₁.vpout = tx₂.vpout ↔ tx₁.vpout.map outputType = tx₂.vpout.map outputType) := by
  obtain ⟨txin₁, -, h₁⟩ := Option.map_eq_some_iff.mp h₁
  obtain ⟨txin₂, -, h₂⟩ := Option.map_eq_some_iff.mp h₂
  have h := h₁.trans h₂.symm
  have hsigns : signsOutputs nHashType := by
    rw [signsOutputs, hall]
    decide
  have hwidth : ∀ x : UInt32, (uint32Bytes x).length = 4 := fun x => leBytes_length 4 _
  simp only [stringsOf, hany, hsigns, if_false, if_true, not_false_eq_true, and_self,
    Hashed.mk.injEq, Option.some.injEq] at h
  obtain ⟨hprevouts, hsequence, houtputs, houter⟩ := h
  rw [outputsString, outputsString, if_pos hv₁, if_pos hv₂] at houtputs
  -- the hash type and the lock time stand at the end of the outer string, the version in front
  obtain ⟨hfront, hlock⟩ := append_inj' (append_cancel_right houter)
    ((hwidth _).trans (hwidth _).symm)
  simp only [append_assoc] at hfront
  have hversion := append_inj_left hfront ((hwidth _).trans (hwidth _).symm)
  refine ⟨uint32Bytes_inj hversion, prevouts_eq hprevouts, sequences_eq hsequence,
    uint32Bytes_inj hlock, ?_, ?_⟩
  · intro heq
    rw [heq]
  · exact fun htypes => outputs_eq_of_types hout₁ hout₂ htypes houtputs

def oneOutput (out : CTxOutBase) : CTransaction where
  nVersion := 0xA0
  vin := [⟨⟨1, 0⟩, [], 0xffffffff, [], []⟩]
  vpout := [out]

def dataTx : CTransaction := oneOutput (.data ⟨[0, 0, 0, 0, 0, 0, 0, 1, 0x51, 0]⟩)

def paymentTx : CTransaction := oneOutput (.standard ⟨10, [0x51], []⟩)

/-- A signature on the data output is one on the payment too. -/
theorem sighashAll_not_binding :
    dataTx.isBitcoinCVersion ∧ paymentTx.isBitcoinCVersion ∧ dataTx.vpout ≠ paymentTx.vpout ∧
      ∀ (hash256 : Bytes → Uint256) (scriptCode amount : Bytes),
        hashedStrings hash256 scriptCode dataTx 0 SIGHASH_ALL amount ≠ none ∧
        hashedStrings hash256 scriptCode dataTx 0 SIGHASH_ALL amount =
          hashedStrings hash256 scriptCode paymentTx 0 SIGHASH_ALL amount := by
  refine ⟨by decide, by decide, by decide, fun hash256 scriptCode amount => ⟨?_, ?_⟩⟩
  · simp [hashedStrings, dataTx, oneOutput]
  · have houtputs : outputsString dataTx = outputsString paymentTx := by decide +kernel
    have hrest : prevoutString dataTx = prevoutString paymentTx ∧
        sequenceString dataTx = sequenceString paymentTx := by decide +kernel
    simp only [hashedStrings, stringsOf, houtputs, hrest]
    rfl

/-- The payment with a script and a witness in its input, which no signature covers. -/
def signedPayment : CTransaction := { paymentTx with vin := [⟨⟨1, 0⟩, [1], 0xffffffff, [], [[2]]⟩] }

theorem sighashAll_binds_payment :
    ∃ strings, hashedStrings (fun _ => 7) [0x51] paymentTx 0 SIGHASH_ALL [] = some strings ∧
      hashedStrings (fun _ => 7) [0x51] signedPayment 0 SIGHASH_ALL [] = some strings ∧
      (paymentTx.vpout = signedPayment.vpout ↔
        paymentTx.vpout.map outputType = signedPayment.vpout.map outputType) := by
  have hout : ∀ o ∈ paymentTx.vpout, MachineOutput o := by
    simp [paymentTx, oneOutput, MachineOutput]
  refine ⟨stringsOf (fun _ => 7) [0x51] paymentTx ⟨⟨1, 0⟩, [], 0xffffffff, [], []⟩ 0 SIGHASH_ALL [],
    rfl, rfl, ?_⟩
  exact (sighashAll_binds_iff (fun _ => 7) [0x51] [] paymentTx signedPayment (by decide) (by decide)
    hout hout 0 SIGHASH_ALL (by decide) (by decide) _ rfl rfl).2.2.2.2

end SignatureHash
