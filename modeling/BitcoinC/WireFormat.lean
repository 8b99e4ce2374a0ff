import BitcoinC.Encoding
import BitcoinC.Codecs

/-!
# The wire format of transactions

The readers of `serialize.h` and `primitives/transaction.h`, next to the format
they read: a codec for each part whose writer is the source's writer. The readers
are lenient.
-/

namespace WireFormat

open Primitives Encoding Codecs

variable (bs : Bytes) (k : Nat) (v : Int) {α : Type} (txin : CTxIn) (bv : UInt8) (o : CTxOutBase)
  (x nSize : Nat)

lemma readLE_lt : readLE bs < 256 ^ bs.length := by
  induction bs with
  | nil => simp [readLE]
  | cons b bs ih =>
    have hb := b.toNat_lt
    rw [readLE, List.length_cons, Nat.pow_succ]
    omega

lemma leBytes_readLE : leBytes bs.length (readLE bs) = bs := by
  induction bs with
  | nil => rfl
  | cons b bs ih =>
    have hb : b.toNat < 256 := b.toNat_lt
    have hdiv : (b.toNat + 256 * readLE bs) / 256 = readLE bs := by omega
    have hmod : UInt8.ofNat (b.toNat + 256 * readLE bs) = b := by
      apply UInt8.toNat_inj.mp
      rw [UInt8.toNat_ofNat']
      omega
    rw [readLE, List.length_cons, leBytes, hdiv, hmod, ih]

lemma readLE_leBytes (h : x < 256 ^ k) : readLE (leBytes k x) = x := by
  induction k generalizing x with
  | zero =>
    simp only [Nat.pow_zero, Nat.lt_one_iff] at h
    rw [h]
    rfl
  | succ k ih =>
    have hdiv : x / 256 < 256 ^ k := by
      rw [Nat.pow_succ] at h
      omega
    have hhead : (UInt8.ofNat x).toNat = x % 256 := UInt8.toNat_ofNat'
    rw [leBytes, readLE, ih _ hdiv, hhead]
    omega

def le (k : Nat) : Codec Nat :=
  map (fixed k) readLE (leBytes k) fun bs h => by
    have hlength : bs.length = k := h
    rw [← hlength]
    exact leBytes_readLE bs

lemma le_dom : (le k).dom x ↔ x < 256 ^ k := by
  constructor
  · rintro ⟨-, hx⟩
    have hlt := readLE_lt (leBytes k x)
    rwa [leBytes_length, hx] at hlt
  · exact fun hx => ⟨leBytes_length k x, readLE_leBytes k x hx⟩

lemma pow_bytes : 256 ^ k = 2 ^ (8 * k) := (Nat.pow_mul 2 8 k).symm

def hash : Codec Uint256 :=
  map (le 32) (BitVec.ofNat 256) BitVec.toNat fun x hx => by
    have hlt : x < 2 ^ 256 := lt_of_lt_of_eq ((le_dom 32 x).mp hx) (pow_bytes 32)
    rw [BitVec.toNat_ofNat, Nat.mod_eq_of_lt hlt]

def key : Codec CCmpPubKey :=
  map (le 33) (BitVec.ofNat 264) BitVec.toNat fun x hx => by
    have hlt : x < 2 ^ 264 := lt_of_lt_of_eq ((le_dom 33 x).mp hx) (pow_bytes 33)
    rw [BitVec.toNat_ofNat, Nat.mod_eq_of_lt hlt]

def uint32 : Codec UInt32 :=
  map (le 4) UInt32.ofNat UInt32.toNat fun x hx =>
    UInt32.toNat_ofNat_of_lt' ((le_dom 4 x).mp hx)

def toAmount (x : Nat) : Int := int64 x

def amountBits (v : Int) : Nat := (v % 2 ^ 64).toNat

lemma amountBits_toAmount (h : x < 2 ^ 64) : amountBits (toAmount x) = x := by
  have hbmod : int64 (x : Int) % 2 ^ 64 = (x : Int) % 2 ^ 64 := Int.bmod_emod
  rw [amountBits, toAmount, hbmod]
  omega

lemma toAmount_amountBits (hlo : -2 ^ 63 ≤ v) (hhi : v < 2 ^ 63) : toAmount (amountBits v) = v := by
  have hnonneg : 0 ≤ v % 2 ^ 64 := Int.emod_nonneg v (by decide)
  rw [toAmount, amountBits, Int.toNat_of_nonneg hnonneg, int64]
  rw [Int.bmod_def]
  norm_num
  omega

def amount : Codec Int :=
  map (le 8) toAmount amountBits fun x hx =>
    amountBits_toAmount x (lt_of_lt_of_eq ((le_dom 8 x).mp hx) (pow_bytes 8))

lemma hash_dom (h : Uint256) : hash.dom h :=
  ⟨(le_dom 32 _).mpr (lt_of_lt_of_eq h.isLt (pow_bytes 32).symm), by simp⟩

lemma key_dom (k : CCmpPubKey) : key.dom k :=
  ⟨(le_dom 33 _).mpr (lt_of_lt_of_eq k.isLt (pow_bytes 33).symm), by simp⟩

lemma uint32_dom (x : UInt32) : uint32.dom x :=
  ⟨(le_dom 4 _).mpr x.toNat_lt, UInt32.ofNat_toNat⟩

lemma amount_dom (hlo : -2 ^ 63 ≤ v) (hhi : v < 2 ^ 63) : amount.dom v := by
  have hbound : amountBits v < 2 ^ 64 := by
    unfold amountBits
    omega
  exact ⟨(le_dom 8 _).mpr (lt_of_lt_of_eq hbound (pow_bytes 8).symm), toAmount_amountBits v hlo hhi⟩

def readCompactSize : Reader Nat := do
  let chSize ← readByte
  if chSize < 253 then pure chSize.toNat
  else if chSize = 253 then readWhen (le 2).dec fun nSizeRet => 253 ≤ nSizeRet
  else if chSize = 254 then readWhen (le 4).dec fun nSizeRet => 0x10000 ≤ nSizeRet
  else readWhen (le 8).dec fun nSizeRet => 0x100000000 ≤ nSizeRet

def sizeTag (nSize : Nat) : UInt8 :=
  if nSize < 253 then UInt8.ofNat nSize
  else if nSize ≤ 0xffff then 253
  else if nSize ≤ 0xffffffff then 254
  else 255

def sizeBody (chSize : UInt8) : Codec Nat :=
  if chSize < 253 then const chSize.toNat
  else if chSize = 253 then restrict (le 2) fun nSizeRet => 253 ≤ nSizeRet
  else if chSize = 254 then restrict (le 4) fun nSizeRet => 0x10000 ≤ nSizeRet
  else restrict (le 8) fun nSizeRet => 0x100000000 ≤ nSizeRet

lemma sizeTag_eq (chSize : UInt8) (nSize : Nat) (h : (sizeBody chSize).dom nSize) :
    sizeTag nSize = chSize ∧ nSize < 2 ^ 64 := by
  unfold sizeBody at h
  split_ifs at h with h₁ h₂ h₃
  · have hn : nSize = chSize.toNat := h
    have hlt : chSize.toNat < 253 := h₁
    rw [sizeTag, hn, if_pos hlt]
    exact ⟨UInt8.ofNat_toNat, by omega⟩
  · have hlt := (le_dom 2 nSize).mp h.1
    have hge : 253 ≤ nSize := h.2
    rw [sizeTag, if_neg (by omega), if_pos (by omega), h₂]
    exact ⟨rfl, by omega⟩
  · have hlt := (le_dom 4 nSize).mp h.1
    have hge : 0x10000 ≤ nSize := h.2
    rw [sizeTag, if_neg (by omega), if_neg (by omega), if_pos (by omega), h₃]
    exact ⟨rfl, by omega⟩
  · have hlt := (le_dom 8 nSize).mp h.1
    have hge : 0x100000000 ≤ nSize := h.2
    have hch : chSize = 255 := by
      have hlt' := chSize.toNat_lt
      apply UInt8.toNat_inj.mp
      have h₁' : ¬chSize.toNat < 253 := h₁
      have h₂' : chSize.toNat ≠ 253 := fun heq => h₂ (UInt8.toNat_inj.mp heq)
      have h₃' : chSize.toNat ≠ 254 := fun heq => h₃ (UInt8.toNat_inj.mp heq)
      show chSize.toNat = 255
      omega
    rw [sizeTag, if_neg (by omega), if_neg (by omega), if_neg (by omega), hch]
    exact ⟨rfl, by omega⟩

lemma sizeBody_sizeTag (h : nSize < 2 ^ 64) : (sizeBody (sizeTag nSize)).dom nSize ∧
      writeCompactSize nSize = sizeTag nSize :: (sizeBody (sizeTag nSize)).enc nSize := by
  unfold sizeTag writeCompactSize
  split_ifs with h₁ h₂ h₃
  · have hch : UInt8.ofNat nSize < 253 := by
      show (UInt8.ofNat nSize).toNat < 253
      rw [UInt8.toNat_ofNat']
      omega
    have hn : (UInt8.ofNat nSize).toNat = nSize := by
      rw [UInt8.toNat_ofNat']
      omega
    rw [sizeBody, if_pos hch]
    exact ⟨hn.symm, rfl⟩
  · exact ⟨⟨(le_dom 2 nSize).mpr (by omega), by omega⟩, rfl⟩
  · exact ⟨⟨(le_dom 4 nSize).mpr (by omega), by omega⟩, rfl⟩
  · exact ⟨⟨(le_dom 8 nSize).mpr (by omega), by omega⟩, rfl⟩

lemma readCompactSize_eq_some_iff (rest : Bytes) (nSize : Nat) :
    readCompactSize bs = some (nSize, rest) ↔
      ∃ chSize mid, bs = chSize :: mid ∧ (sizeBody chSize).dec mid = some (nSize, rest) := by
  rw [readCompactSize, bind_eq_some_iff]
  have hbody : ∀ chSize : UInt8, (sizeBody chSize).dec =
      if chSize < 253 then pure chSize.toNat
      else if chSize = 253 then readWhen (le 2).dec fun nSizeRet => 253 ≤ nSizeRet
      else if chSize = 254 then readWhen (le 4).dec fun nSizeRet => 0x10000 ≤ nSizeRet
      else readWhen (le 8).dec fun nSizeRet => 0x100000000 ≤ nSizeRet := by
    intro chSize
    unfold sizeBody
    split_ifs <;> rfl
  constructor
  · rintro ⟨chSize, mid, hread, h⟩
    obtain ⟨-, rfl⟩ := byte.enc_dec bs chSize mid hread
    exact ⟨chSize, mid, rfl, by rw [hbody]; exact h⟩
  · rintro ⟨chSize, mid, rfl, h⟩
    exact ⟨chSize, mid, rfl, by rw [← hbody]; exact h⟩

def compactSize : Codec Nat where
  dom := fun nSize => nSize < 2 ^ 64
  enc := writeCompactSize
  dec := readCompactSize
  dec_enc := by
    intro nSize rest h
    obtain ⟨hdom, hwrite⟩ := sizeBody_sizeTag nSize h
    rw [hwrite]
    exact (readCompactSize_eq_some_iff _ _ _).mpr
      ⟨_, _, rfl, (sizeBody (sizeTag nSize)).dec_enc nSize rest hdom⟩
  enc_dec := by
    intro bs nSize rest h
    obtain ⟨chSize, mid, rfl, hbody⟩ := (readCompactSize_eq_some_iff _ _ _).mp h
    obtain ⟨hdom, rfl⟩ := (sizeBody chSize).enc_dec _ _ _ hbody
    obtain ⟨rfl, hlt⟩ := sizeTag_eq chSize nSize hdom
    exact ⟨hlt, by rw [(sizeBody_sizeTag nSize hlt).2]; rfl⟩

def size32 : Codec Nat := restrict compactSize fun nSize => nSize < 2 ^ 32

def readSize32 : Reader Nat := do
  let nSize ← readCompactSize
  pure (nSize % 2 ^ 32)

lemma writeCompactSize_length : (writeCompactSize nSize).length =
      if nSize < 253 then 1 else if nSize ≤ 0xffff then 3 else if nSize ≤ 0xffffffff
        then 5 else 9 := by
  unfold writeCompactSize
  split_ifs <;> simp

lemma lenient_size32 : Lenient readSize32 size32 where
  accepts := by
    rintro bs ⟨nSize, rest⟩ h
    obtain ⟨hread, hlt⟩ := (readWhen_eq_some_iff _ _ _ _ _).mp h
    exact (map_eq_some_iff _ _ _ _ _).mpr ⟨nSize, hread, Nat.mod_eq_of_lt hlt⟩
  longer := by
    intro bs nSize rest h
    obtain ⟨n, hread, rfl⟩ := (map_eq_some_iff _ _ _ _ _).mp h
    obtain ⟨hn, hlength⟩ := (lenient_dec compactSize).longer bs n rest hread
    have hmod : n % 2 ^ 32 ≤ n := Nat.mod_le n _
    have hshort : (writeCompactSize (n % 2 ^ 32)).length ≤ (writeCompactSize n).length := by
      rw [writeCompactSize_length, writeCompactSize_length]
      split_ifs <;> omega
    refine ⟨⟨?_, Nat.mod_lt n (by decide)⟩, le_trans (Nat.add_le_add_right hshort _) hlength⟩
    show n % 2 ^ 32 < 2 ^ 64
    omega

def readVector {α : Type} (p : Reader α) : Reader (List α) := do
  let nSize ← readSize32
  readCount p nSize

def readBytes : Reader Bytes := do
  let nSize ← readSize32
  readFixed nSize

def vector {α : Type} (c : Codec α) : Codec (List α) :=
  map (seq size32 (count c)) (fun x => x.2) (fun as => (as.length, as)) fun _ hx =>
    Prod.ext hx.2.1 rfl

def bytes : Codec Bytes :=
  map (seq size32 fixed) (fun x => x.2) (fun bs => (bs.length, bs)) fun _ hx => Prod.ext hx.2 rfl

lemma vector_dom (c : Codec α) (as : List α) :
    (vector c).dom as ↔ as.length < 2 ^ 32 ∧ ∀ a ∈ as, c.dom a := by
  constructor
  · rintro ⟨⟨hsize, hall⟩, -⟩
    exact ⟨hsize.2, hall.2⟩
  · rintro ⟨hsize, hall⟩
    exact ⟨⟨⟨lt_trans hsize (by decide), hsize⟩, rfl, hall⟩, rfl⟩

lemma bytes_dom : bytes.dom bs ↔ bs.length < 2 ^ 32 := by
  constructor
  · rintro ⟨⟨hsize, -⟩, -⟩
    exact hsize.2
  · exact fun hsize => ⟨⟨⟨lt_trans hsize (by decide), hsize⟩, rfl⟩, rfl⟩

lemma vector_enc (c : Codec α) (as : List α) : (vector c).enc as = writeVector c.enc as := rfl

lemma lenient_vector {p : Reader α} {c : Codec α} (h : Lenient p c) :
    Lenient (readVector p) (vector c) := by
  refine (Lenient.map (lenient_size32.seq fun n => h.count n) _ _ _).of_eq ?_
  simp only [readVector, readSeq, bind_assoc, pure_bind, bind_pure]

lemma lenient_bytes : Lenient readBytes bytes := by
  refine (Lenient.map (lenient_size32.seq fun n => lenient_dec (fixed n)) _ _ _).of_eq ?_
  simp only [readBytes, readSeq, bind_assoc, pure_bind, bind_pure]
  rfl

def readOutPoint : Reader COutPoint := do
  let hash ← hash.dec
  let n ← uint32.dec
  pure ⟨hash, n⟩

def outPoint : Codec COutPoint :=
  map (seq hash fun _ => uint32) (fun x => ⟨x.1, x.2⟩) (fun o => (o.hash, o.n)) fun _ _ => rfl

lemma outPoint_dom (o : COutPoint) : outPoint.dom o := ⟨⟨hash_dom o.hash, uint32_dom o.n⟩, rfl⟩

def readTxIn : Reader CTxIn := do
  let prevout ← readOutPoint
  let scriptSig ← readBytes
  let nSequence ← uint32.dec
  if prevout.isAnonInput then do
    let scriptData ← readVector readBytes
    pure ⟨prevout, scriptSig, nSequence, scriptData, []⟩
  else pure ⟨prevout, scriptSig, nSequence, [], []⟩

def scriptData (prevout : COutPoint) : Codec (List Bytes) :=
  if prevout.isAnonInput then vector bytes else const []

def txIn : Codec CTxIn :=
  map (seq outPoint fun prevout => seq bytes fun _ => seq uint32 fun _ => scriptData prevout)
    (fun x => ⟨x.1, x.2.1, x.2.2.1, x.2.2.2, []⟩)
    (fun txin => (txin.prevout, txin.scriptSig, txin.nSequence, txin.scriptData)) fun _ _ => rfl

lemma lenient_outPoint : Lenient readOutPoint outPoint := by
  refine (Lenient.map ((lenient_dec hash).seq fun _ => lenient_dec uint32) _ _ _).of_eq ?_
  simp only [readOutPoint, readSeq, bind_assoc, pure_bind]

lemma lenient_scriptData (prevout : COutPoint) :
    Lenient (if prevout.isAnonInput then readVector readBytes else pure [])
      (scriptData prevout) := by
  unfold scriptData
  split
  · exact lenient_vector lenient_bytes
  · exact lenient_dec (const [])

lemma lenient_txIn : Lenient readTxIn txIn := by
  refine (Lenient.map (lenient_outPoint.seq fun prevout => lenient_bytes.seq fun _ =>
    (lenient_dec uint32).seq fun _ => lenient_scriptData prevout) _ _ _).of_eq ?_
  simp only [readTxIn, readSeq, bind_assoc, pure_bind]
  congr; funext prevout; congr; funext scriptSig; congr; funext nSequence
  split <;> simp only [pure_bind]

lemma scriptData_enc : (scriptData txin.prevout).enc txin.scriptData =
      if txin.isAnonInput then writeVector writeBytes txin.scriptData else [] := by
  by_cases h : txin.prevout.isAnonInput
  · rw [scriptData, if_pos h, if_pos (show txin.isAnonInput from h)]
    rfl
  · rw [scriptData, if_neg h, if_neg (show ¬txin.isAnonInput from h)]
    rfl

lemma txIn_enc : txIn.enc txin = writeTxIn txin := by
  rw [writeTxIn, ← scriptData_enc, List.append_assoc, List.append_assoc]
  rfl

def OUTPUT_STANDARD : UInt8 := 1
def OUTPUT_RINGCT : UInt8 := 3
def OUTPUT_DATA : UInt8 := 4

def outputType : CTxOutBase → UInt8
  | .standard _ => OUTPUT_STANDARD
  | .ringCT _ => OUTPUT_RINGCT
  | .data _ => OUTPUT_DATA

def data? : CTxOutBase → Option CTxOutData
  | .data p => some p
  | _ => none

def readTxOut : Reader CTxOut := do
  let nValue ← amount.dec
  let scriptPubKey ← readBytes
  pure ⟨nValue, scriptPubKey⟩

def readTxOutStandard : Reader CTxOutStandard := do
  let nValue ← amount.dec
  let scriptPubKey ← readBytes
  let vecSignature ← readBytes
  pure ⟨nValue, scriptPubKey, vecSignature⟩

def readTxOutRingCT : Reader CTxOutRingCT := do
  let pk ← key.dec
  let commitment ← key.dec
  let vData ← readBytes
  let vecSignature ← readBytes
  let vRangeproof ← readBytes
  pure ⟨pk, vData, commitment, vRangeproof, vecSignature⟩

def readTxOutData : Reader CTxOutData := do
  let vData ← readBytes
  pure ⟨vData⟩

def txOut : Codec CTxOut :=
  map (seq amount fun _ => bytes) (fun x => ⟨x.1, x.2⟩) (fun o => (o.nValue, o.scriptPubKey))
    fun _ _ => rfl

def txOutStandard : Codec CTxOutStandard :=
  map (seq amount fun _ => seq bytes fun _ => bytes) (fun x => ⟨x.1, x.2.1, x.2.2⟩)
    (fun p => (p.nValue, p.scriptPubKey, p.vecSignature)) fun _ _ => rfl

def txOutRingCT : Codec CTxOutRingCT :=
  map (seq key fun _ => seq key fun _ => seq bytes fun _ => seq bytes fun _ => bytes)
    (fun x => ⟨x.1, x.2.2.1, x.2.1, x.2.2.2.2, x.2.2.2.1⟩)
    (fun p => (p.pk, p.commitment, p.vData, p.vecSignature, p.vRangeproof)) fun _ _ => rfl

def txOutData : Codec CTxOutData := map bytes (fun x => ⟨x⟩) (fun p => p.vData) fun _ _ => rfl

lemma lenient_txOut : Lenient readTxOut txOut := by
  refine (Lenient.map ((lenient_dec amount).seq fun _ => lenient_bytes) _ _ _).of_eq ?_
  simp only [readTxOut, readSeq, bind_assoc, pure_bind]

lemma lenient_txOutStandard : Lenient readTxOutStandard txOutStandard := by
  refine (Lenient.map ((lenient_dec amount).seq fun _ => lenient_bytes.seq fun _ => lenient_bytes)
    _ _ _).of_eq ?_
  simp only [readTxOutStandard, readSeq, bind_assoc, pure_bind]

lemma lenient_txOutRingCT : Lenient readTxOutRingCT txOutRingCT := by
  refine (Lenient.map ((lenient_dec key).seq fun _ => (lenient_dec key).seq fun _ =>
    lenient_bytes.seq fun _ => lenient_bytes.seq fun _ => lenient_bytes) _ _ _).of_eq ?_
  simp only [readTxOutRingCT, readSeq, bind_assoc, pure_bind]

lemma lenient_txOutData : Lenient readTxOutData txOutData :=
  Lenient.map lenient_bytes _ _ _

def readOutputBody (bv : UInt8) : Option (Reader CTxOutBase) :=
  if bv = OUTPUT_STANDARD then some (readTxOutStandard >>= fun p => pure (.standard p))
  else if bv = OUTPUT_RINGCT then some (readTxOutRingCT >>= fun p => pure (.ringCT p))
  else if bv = OUTPUT_DATA then some (readTxOutData >>= fun p => pure (.data p))
  else none

def standardBody : Codec CTxOutBase :=
  embed txOutStandard .standard CTxOutBase.standard? (fun _ => rfl) fun o p h => by
    cases o <;> cases h
    rfl

def ringCTBody : Codec CTxOutBase :=
  embed txOutRingCT .ringCT CTxOutBase.ringCT? (fun _ => rfl) fun o p h => by
    cases o <;> cases h
    rfl

def dataBody : Codec CTxOutBase :=
  embed txOutData .data data? (fun _ => rfl) fun o p h => by
    cases o <;> cases h
    rfl

def outputBody (bv : UInt8) : Codec CTxOutBase :=
  if bv = OUTPUT_STANDARD then standardBody
  else if bv = OUTPUT_RINGCT then ringCTBody
  else if bv = OUTPUT_DATA then dataBody
  else never

lemma outputType_of_dom (h : (outputBody bv).dom o) : outputType o = bv := by
  unfold outputBody at h
  split_ifs at h with h₁ h₂ h₃
  · obtain ⟨p, hp, -⟩ := h
    cases o <;> cases hp
    exact h₁.symm
  · obtain ⟨p, hp, -⟩ := h
    cases o <;> cases hp
    exact h₂.symm
  · obtain ⟨p, hp, -⟩ := h
    cases o <;> cases hp
    exact h₃.symm
  · exact h.elim

def txOutBase : Codec CTxOutBase :=
  map (seq byte outputBody) (fun x => x.2) (fun o => (outputType o, o)) fun x hx =>
    Prod.ext (outputType_of_dom x.1 x.2 hx.2) rfl

lemma txOutBase_enc : txOutBase.enc o = writeTxOutBase true o := by
  cases o with
  | standard p =>
    show OUTPUT_STANDARD :: txOutStandard.enc p = _
    rw [writeTxOutBase, List.append_assoc]
    rfl
  | ringCT p =>
    show OUTPUT_RINGCT :: txOutRingCT.enc p = _
    rw [writeTxOutBase, List.append_assoc, List.append_assoc, List.append_assoc]
    rfl
  | data p => rfl

def readTxOutBase : Reader CTxOutBase := do
  let bv ← readByte
  (readOutputBody bv).getD failure

lemma lenient_outputBody : Lenient ((readOutputBody bv).getD failure) (outputBody bv) := by
  unfold readOutputBody outputBody
  split_ifs
  · exact Lenient.embed lenient_txOutStandard _ _ _ _
  · exact Lenient.embed lenient_txOutRingCT _ _ _ _
  · exact Lenient.embed lenient_txOutData _ _ _ _
  · exact lenient_dec never

lemma lenient_txOutBase : Lenient readTxOutBase txOutBase := by
  refine (Lenient.map ((lenient_dec byte).seq lenient_outputBody) _ _ _).of_eq ?_
  simp only [readTxOutBase, readSeq, bind_assoc, pure_bind, bind_pure]
  rfl

end WireFormat
