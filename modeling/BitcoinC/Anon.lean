import BitcoinC.TxVerify
import BitcoinC.KeyedStore

/-!
# Ring signatures

`VerifyMLSAG` of `anon.cpp`, with the RingCT part of the block tree database and
the key images of the mempool, both of which it consults.
-/

namespace Anon

open Primitives Encoding Scripts Environment Verdicts TxVerify List

def MIN_RINGSIZE : Nat := 3
def MAX_RINGSIZE : Nat := 32
def MAX_ANON_INPUTS : Nat := 32

structure CBlockTreeDB where
  rctOutput : Int → Option CAnonOutput
  rctOutputLink : CCmpPubKey → Option Int
  rctKeyImage : CCmpPubKey → Option Uint256

def CBlockTreeDB.empty : CBlockTreeDB := ⟨fun _ => none, fun _ => none, fun _ => none⟩

structure CTxMemPool where
  mapTx : Uint256 → Option CTransaction
  mapKeyImages : CCmpPubKey → Option Uint256

def CTxMemPool.empty : CTxMemPool := ⟨fun _ => none, fun _ => none⟩

def keyImageSlots (v : Bytes) (n : Nat) : List CCmpPubKey :=
  (range n).map fun k => BitVec.ofNat 264 (readLE (slice v (33 * k) (33 * k + 33)))

/-- The key images of an anon input, as block connection and disconnection read them; the size is
compared in 32-bit arithmetic. -/
def anonKeyImages (txin : CTxIn) : Option (List CCmpPubKey) :=
  match txin.scriptData with
  | [v] =>
    if v.length = 33 * txin.getAnonInfo.1 % 2 ^ 32 then some (keyImageSlots v txin.getAnonInfo.1)
    else none
  | _ => none

def txKeyImages (tx : CTransaction) : List CCmpPubKey :=
  tx.anonInputs.flatMap fun txin => (anonKeyImages txin).getD []

def ringCommitments (tx : CTransaction) : List Commitment := tx.ringCTOutputs.map (·.commitment)

structure AnonShape where
  nInputs : Nat
  nRingSize : Nat
  vKeyImages : Bytes
  vMI : Bytes
  vDL : Bytes

def AnonShape.sigSize (a : AnonShape) : Nat := (1 + (a.nInputs + 1) * a.nRingSize) * 32

def AnonShape.keyImages (a : AnonShape) : List CCmpPubKey := keyImageSlots a.vKeyImages a.nInputs

def one? {α : Type} : List α → Option α
  | [a] => some a
  | _ => none

def two? {α : Type} : List α → Option (α × α)
  | [a, b] => some (a, b)
  | _ => none

def anonShape (fSplitCommitments : Bool) (txin : CTxIn) : Verdict AnonShape := do
  rejectIf (¬ txin.isAnonInput) (.dos 100 REJECT_MALFORMED "bad-anon-input")
  rejectIf (txin.getAnonInfo.1 < 1 ∨ MAX_ANON_INPUTS < txin.getAnonInfo.1)
    (.dos 100 REJECT_INVALID "bad-anon-num-inputs")
  rejectIf (txin.getAnonInfo.2 < MIN_RINGSIZE ∨ MAX_RINGSIZE < txin.getAnonInfo.2)
    (.dos 100 REJECT_INVALID "bad-anon-ringsize")
  let vKeyImages ← orReject (one? txin.scriptData)
    (.dos 100 REJECT_MALFORMED "bad-anonin-dstack-size")
  let witness ← orReject (two? txin.scriptWitness)
    (.dos 100 REJECT_MALFORMED "bad-anonin-wstack-size")
  let a : AnonShape := ⟨txin.getAnonInfo.1, txin.getAnonInfo.2, vKeyImages, witness.1, witness.2⟩
  rejectIf (vKeyImages.length ≠ a.nInputs * 33)
    (.dos 100 REJECT_MALFORMED "bad-anonin-keyimages-size")
  rejectIf (a.vDL.length ≠ a.sigSize + if fSplitCommitments then 33 else 0)
    (.dos 100 REJECT_MALFORMED "bad-anonin-sig-size")
  pure a

/-- The sets that live for the whole transaction and the split commitments collected so far. -/
structure AnonState where
  setHaveI : List Int
  setHaveKI : List CCmpPubKey
  splitCommits : List Commitment

structure RingScan where
  ofs : Nat
  nB : Nat
  setHaveI : List Int
  members : List CAnonOutput

section Verify

variable (E : Env) (db : CBlockTreeDB) (pool : CTxMemPool)
variable (tx : CTransaction) (txhash : Uint256) (fSplitCommitments : Bool) (r : Unit)
  (plainCommitment : Commitment) (vin : List CTxIn) (txin : CTxIn) (s t : AnonState)

/-- The index a read of `GetVarInt` leaves in an uninitialised variable, and the size it reports:
a read at the end of the vector or past it changes neither. -/
def indexRead (txhash : Uint256) (s : RingScan) : VarIntRead → Option (Int × Nat)
  | .failure => none
  | .value i nB => some (int64 i.toNat, nB)
  | _ => some (E.uninitIndex txhash s.setHaveI.length, s.nB)

def readMember (txhash : Uint256) (vMI : Bytes) (s : RingScan) (_ : Nat) : Verdict RingScan := do
  let i ← orReject (indexRead E txhash s (getVarInt vMI s.ofs))
    (.dos 100 REJECT_MALFORMED "bad-anonin-extract-i")
  rejectIf (i.1 ∈ s.setHaveI) (.dos 100 REJECT_MALFORMED "bad-anonin-dup-i")
  let ao ← orReject (db.rctOutput i.1) (.dos 100 REJECT_MALFORMED "bad-anonin-unknown-i")
  pure ⟨s.ofs + i.2, i.2, i.1 :: s.setHaveI, s.members ++ [ao]⟩

/-- The checks on one key image. A record under the transaction's own hash is no duplicate. -/
def checkKeyImage (txhash : Uint256) (setHaveKI : List CCmpPubKey) (ki : CCmpPubKey) :
    Verdict (List CCmpPubKey) := do
  rejectIf (ki ∈ setHaveKI) (.dos 100 REJECT_INVALID "bad-anonin-dup-ki")
  rejectIf ((pool.mapKeyImages ki).any (· ≠ txhash))
    (.dos 100 REJECT_INVALID "bad-anonin-dup-ki")
  rejectIf ((db.rctKeyImage ki).any (· ≠ txhash))
    (.dos 100 REJECT_INVALID "bad-anonin-dup-ki")
  pure (ki :: setHaveKI)

def ringStatement (txhash : Uint256) (a : AnonShape) (members : List CAnonOutput)
    (outCommits : List Commitment) : RingStatement where
  txhash := txhash
  nCols := a.nRingSize
  nRows := a.nInputs + 1
  vM := members.map (·.pubkey)
  inCommits := members.map (·.commitment)
  outCommits := outCommits
  keyImages := a.keyImages
  pc := slice a.vDL 0 32
  ps := slice a.vDL 32 a.sigSize

def verifyRing (r : RingStatement) : Verdict Unit :=
  match E.prepareMLSAG r.nCols r.nRows r.inCommits r.outCommits with
  | .error _ => .error (.dos 100 REJECT_INVALID "prepare-mlsag-failed")
  | .ok lastRow =>
    rejectIf (E.verifyMLSAG r.txhash r.nCols r.nRows (r.vM ++ lastRow) r.keyImages r.pc r.ps ≠ 0)
      (.dos 100 REJECT_INVALID "verify-mlsag-failed")

def splitCommit (a : AnonShape) : Commitment :=
  BitVec.ofNat 264 (readLE (slice a.vDL a.sigSize (a.sigSize + 33)))

def inputOutCommits (fSplitCommitments : Bool) (plainCommitment : Commitment)
    (tx : CTransaction) (a : AnonShape) : List Commitment :=
  if fSplitCommitments then [splitCommit a] else plainCommitment :: ringCommitments tx

def verifyAnonInput (tx : CTransaction) (fSplitCommitments : Bool) (plainCommitment : Commitment)
    (s : AnonState) (txin : CTxIn) : Verdict AnonState := do
  let a ← anonShape fSplitCommitments txin
  let scan ← loop (readMember E db (E.txHash tx) a.vMI) ⟨0, 0, s.setHaveI, []⟩
    (range (a.nInputs * a.nRingSize))
  let setHaveKI ← loop (checkKeyImage db pool (E.txHash tx)) s.setHaveKI a.keyImages
  verifyRing E (ringStatement (E.txHash tx) a scan.members
    (inputOutCommits fSplitCommitments plainCommitment tx a))
  pure ⟨scan.setHaveI, setHaveKI,
    if fSplitCommitments then s.splitCommits ++ [splitCommit a] else s.splitCommits⟩

/-- The commitment to the plain outputs and the fee; it stays uninitialised when they are not
positive. -/
def plainCommitmentOf (tx : CTransaction) (nPlainValueOut : Int) : Verdict Commitment :=
  if 0 < nPlainValueOut then
    orReject (E.pedersenCommit nPlainValueOut.toNat)
      (.dos 100 REJECT_INVALID "bad-plain-commitment")
  else .ok (E.uninitCommitment (E.txHash tx))

def verifyMLSAG (tx : CTransaction) : Verdict Unit := do
  let nPlainValueOut ← getPlainValueOut tx
  let nTxFee ← orReject (getCTFee tx) (.dos 100 REJECT_INVALID "bad-fee-output")
  let plainCommitment ← plainCommitmentOf E tx (int64 (nPlainValueOut + nTxFee))
  let fSplitCommitments := decide (1 < tx.vin.length)
  let s ← loop (verifyAnonInput E db pool tx fSplitCommitments plainCommitment) ⟨[], [], []⟩ tx.vin
  rejectIf (fSplitCommitments ∧
      E.pedersenVerifyTally s.splitCommits (plainCommitment :: ringCommitments tx) = false)
    (.dos 100 REJECT_INVALID "verify-commit-tally-failed")

lemma one?_eq_some_iff {α : Type} (l : List α) (a : α) : one? l = some a ↔ l = [a] := by
  unfold one?
  split <;> simp_all

lemma anonShape_ok (a : AnonShape) (h : anonShape fSplitCommitments txin = .ok a) :
    txin.isAnonInput ∧ a.nInputs = txin.getAnonInfo.1 ∧ 1 ≤ a.nInputs ∧
      a.nInputs ≤ MAX_ANON_INPUTS ∧ MIN_RINGSIZE ≤ a.nRingSize ∧ a.nRingSize ≤ MAX_RINGSIZE ∧
      txin.scriptData = [a.vKeyImages] ∧ a.vKeyImages.length = a.nInputs * 33 := by
  simp only [anonShape, bind_ok_iff, rejectIf_ok_iff, orReject_ok_iff, pure_ok_iff,
    one?_eq_some_iff] at h
  obtain ⟨-, hanon, -, hn, -, hring, v, hv, w, -, -, hlen, -, -, rfl⟩ := h
  refine ⟨not_not.mp hanon, rfl, ?_, ?_, ?_, ?_, hv, not_not.mp hlen⟩ <;> dsimp only <;> omega

lemma anonKeyImages_of_anonShape (a : AnonShape) (h : anonShape fSplitCommitments txin = .ok a) :
    anonKeyImages txin = some a.keyImages := by
  obtain ⟨-, hn, -, hmax, -, -, hdata, hlen⟩ := anonShape_ok _ _ _ h
  have hsize : a.vKeyImages.length = 33 * txin.getAnonInfo.1 % 2 ^ 32 := by
    unfold MAX_ANON_INPUTS at hmax
    omega
  rw [anonKeyImages, hdata]
  dsimp only
  rw [if_pos hsize, AnonShape.keyImages, hn]

/-- The key image is recorded for no other transaction. -/
def OwnRecord (m : CCmpPubKey → Option Uint256) (txhash : Uint256) (ki : CCmpPubKey) : Prop :=
  ∀ h, m ki = some h → h = txhash

lemma ownRecord_empty (ki : CCmpPubKey) : OwnRecord CTxMemPool.empty.mapKeyImages txhash ki := by
  intro h hh
  cases hh

lemma not_any_ne_iff (o : Option Uint256) (txhash : Uint256) :
    ¬ o.any (· ≠ txhash) = true ↔ ∀ h, o = some h → h = txhash := by
  cases o <;> simp

lemma checkKeyImage_ok_iff (have_ have' : List CCmpPubKey) (ki : CCmpPubKey) :
    checkKeyImage db pool txhash have_ ki = .ok have' ↔
      ki ∉ have_ ∧ OwnRecord pool.mapKeyImages txhash ki ∧ OwnRecord db.rctKeyImage txhash ki ∧
        have' = ki :: have_ := by
  simp only [checkKeyImage, bind_ok_iff, rejectIf_ok_iff, pure_ok_iff, not_any_ne_iff, OwnRecord]
  constructor
  · rintro ⟨-, hnew, -, hpool, -, hdb, rfl⟩
    exact ⟨hnew, hpool, hdb, rfl⟩
  · rintro ⟨hnew, hpool, hdb, rfl⟩
    exact ⟨⟨⟩, hnew, ⟨⟩, hpool, ⟨⟩, hdb, rfl⟩

lemma checkKeyImages_ok_iff (kis have_ have' : List CCmpPubKey) (hnodup : have_.Nodup) :
    loop (checkKeyImage db pool txhash) have_ kis = .ok have' ↔
      (kis.reverse ++ have_).Nodup ∧
        (∀ ki ∈ kis, OwnRecord pool.mapKeyImages txhash ki) ∧
        (∀ ki ∈ kis, OwnRecord db.rctKeyImage txhash ki) ∧ have' = kis.reverse ++ have_ := by
  induction kis generalizing have_ with
  | nil => simp [hnodup, eq_comm]
  | cons ki kis ih =>
    rw [loop_cons_ok_iff, forall_mem_cons, forall_mem_cons, reverse_cons,
      append_assoc, singleton_append]
    constructor
    · rintro ⟨m, hstep, hrest⟩
      obtain ⟨hnew, hpool, hdb, rfl⟩ := (checkKeyImage_ok_iff db pool txhash have_ m ki).mp hstep
      obtain ⟨hn, hp, hd, rfl⟩ := (ih _ (nodup_cons.mpr ⟨hnew, hnodup⟩)).mp hrest
      exact ⟨hn, ⟨hpool, hp⟩, ⟨hdb, hd⟩, rfl⟩
    · rintro ⟨hn, ⟨hpool, hp⟩, ⟨hdb, hd⟩, rfl⟩
      have hcons : (ki :: have_).Nodup := hn.of_append_right
      refine ⟨ki :: have_, (checkKeyImage_ok_iff db pool txhash have_ _ ki).mpr
        ⟨(nodup_cons.mp hcons).1, hpool, hdb, rfl⟩, (ih _ hcons).mpr ⟨hn, hp, hd, rfl⟩⟩

lemma verifyAnonInput_ok_iff (txin : CTxIn) (hs : s.setHaveKI.Nodup) :
    verifyAnonInput E db pool tx fSplitCommitments plainCommitment s txin = .ok t ↔
      ∃ a scan, anonShape fSplitCommitments txin = .ok a ∧
        loop (readMember E db (E.txHash tx) a.vMI) ⟨0, 0, s.setHaveI, []⟩
          (range (a.nInputs * a.nRingSize)) = .ok scan ∧
        (a.keyImages.reverse ++ s.setHaveKI).Nodup ∧
        (∀ ki ∈ a.keyImages, OwnRecord pool.mapKeyImages (E.txHash tx) ki) ∧
        (∀ ki ∈ a.keyImages, OwnRecord db.rctKeyImage (E.txHash tx) ki) ∧
        verifyRing E (ringStatement (E.txHash tx) a scan.members
          (inputOutCommits fSplitCommitments plainCommitment tx a)) = .ok () ∧
        t = ⟨scan.setHaveI, a.keyImages.reverse ++ s.setHaveKI,
          if fSplitCommitments then s.splitCommits ++ [splitCommit a] else s.splitCommits⟩ := by
  simp only [verifyAnonInput, bind_ok_iff, pure_ok_iff,
    checkKeyImages_ok_iff db pool (E.txHash tx) _ s.setHaveKI _ hs]
  constructor
  · rintro ⟨a, ha, scan, hscan, kis, ⟨hn, hp, hd, rfl⟩, u, hring, rfl⟩
    exact ⟨a, scan, ha, hscan, hn, hp, hd, hring, rfl⟩
  · rintro ⟨a, scan, ha, hscan, hn, hp, hd, hring, rfl⟩
    exact ⟨a, ha, scan, hscan, _, ⟨hn, hp, hd, rfl⟩, ⟨⟩, hring, rfl⟩

lemma verifyAnonInput_nodup (txin : CTxIn) (hs : s.setHaveKI.Nodup)
    (h : verifyAnonInput E db pool tx fSplitCommitments plainCommitment s txin = .ok t) :
    t.setHaveKI = ((anonKeyImages txin).getD []).reverse ++ s.setHaveKI ∧ t.setHaveKI.Nodup := by
  obtain ⟨a, scan, ha, -, hn, -, -, -, rfl⟩ :=
    (verifyAnonInput_ok_iff E db pool tx fSplitCommitments plainCommitment s t txin hs).mp h
  rw [anonKeyImages_of_anonShape _ _ _ ha]
  exact ⟨rfl, hn⟩

lemma verifyAnonInput_ok_iff_pool (txin : CTxIn) (hs : s.setHaveKI.Nodup) :
    verifyAnonInput E db pool tx fSplitCommitments plainCommitment s txin = .ok t ↔
      verifyAnonInput E db .empty tx fSplitCommitments plainCommitment s txin = .ok t ∧
        ∀ ki ∈ (anonKeyImages txin).getD [], OwnRecord pool.mapKeyImages (E.txHash tx) ki := by
  rw [verifyAnonInput_ok_iff E db pool _ _ _ _ _ _ hs,
    verifyAnonInput_ok_iff E db .empty _ _ _ _ _ _ hs]
  constructor
  · rintro ⟨a, scan, ha, hscan, hn, hp, hd, hring, rfl⟩
    rw [anonKeyImages_of_anonShape _ _ _ ha]
    exact ⟨⟨a, scan, ha, hscan, hn, fun ki _ => ownRecord_empty _ ki, hd, hring, rfl⟩, hp⟩
  · rintro ⟨⟨a, scan, ha, hscan, hn, -, hd, hring, rfl⟩, hp⟩
    rw [anonKeyImages_of_anonShape _ _ _ ha] at hp
    exact ⟨a, scan, ha, hscan, hn, hp, hd, hring, rfl⟩

lemma verifyInputs_ok_iff_pool (hs : s.setHaveKI.Nodup) :
    loop (verifyAnonInput E db pool tx fSplitCommitments plainCommitment) s vin = .ok t ↔
      loop (verifyAnonInput E db .empty tx fSplitCommitments plainCommitment) s vin = .ok t ∧
        ∀ txin ∈ vin, ∀ ki ∈ (anonKeyImages txin).getD [],
          OwnRecord pool.mapKeyImages (E.txHash tx) ki := by
  induction vin generalizing s with
  | nil => simp
  | cons txin vin ih =>
    rw [loop_cons_ok_iff, loop_cons_ok_iff, forall_mem_cons]
    constructor
    · rintro ⟨m, hm, hrest⟩
      have hmn := (verifyAnonInput_nodup E db pool _ _ _ _ _ _ hs hm).2
      obtain ⟨hm', hown⟩ := (verifyAnonInput_ok_iff_pool E db pool _ _ _ _ _ _ hs).mp hm
      obtain ⟨hrest', hall⟩ := (ih m hmn).mp hrest
      exact ⟨⟨m, hm', hrest'⟩, hown, hall⟩
    · rintro ⟨⟨m, hm, hrest⟩, hown, hall⟩
      have hmn := (verifyAnonInput_nodup E db .empty _ _ _ _ _ _ hs hm).2
      exact ⟨m, (verifyAnonInput_ok_iff_pool E db pool _ _ _ _ _ _ hs).mpr ⟨hm, hown⟩,
        (ih m hmn).mpr ⟨hrest, hall⟩⟩

/-- An accepted run over the inputs shows distinct key images, none recorded for another one. -/
lemma verifyInputs_keyImages (hs : s.setHaveKI.Nodup)
    (h : loop (verifyAnonInput E db pool tx fSplitCommitments plainCommitment) s vin = .ok t) :
    ((vin.flatMap fun txin => (anonKeyImages txin).getD []).reverse ++ s.setHaveKI).Nodup ∧
      ∀ txin ∈ vin, txin.isAnonInput ∧ (anonKeyImages txin).isSome ∧
        ∀ ki ∈ (anonKeyImages txin).getD [], OwnRecord db.rctKeyImage (E.txHash tx) ki := by
  induction vin generalizing s with
  | nil => simpa using hs
  | cons txin vin ih =>
    obtain ⟨m, hm, hrest⟩ := (loop_cons_ok_iff _ _ _ _ _).mp h
    obtain ⟨hset, hmn⟩ := verifyAnonInput_nodup E db pool _ _ _ _ _ _ hs hm
    obtain ⟨hnodup, hall⟩ := ih m hmn hrest
    obtain ⟨a, scan, ha, -, -, -, hdb, -, -⟩ :=
      (verifyAnonInput_ok_iff E db pool _ _ _ _ _ _ hs).mp hm
    rw [forall_mem_cons]
    refine ⟨?_, ⟨(anonShape_ok _ _ _ ha).1, ?_, ?_⟩, hall⟩
    · rw [hset] at hnodup
      simpa [append_assoc] using hnodup
    · rw [anonKeyImages_of_anonShape _ _ _ ha]
      rfl
    · rw [anonKeyImages_of_anonShape _ _ _ ha]
      exact hdb

lemma txKeyImages_of_all_anon (h : ∀ txin ∈ tx.vin, txin.isAnonInput) :
    txKeyImages tx = tx.vin.flatMap fun txin => (anonKeyImages txin).getD [] := by
  rw [txKeyImages, CTransaction.anonInputs, filter_eq_self.mpr]
  simpa using h

lemma verifyMLSAG_ok_iff : verifyMLSAG E db pool tx = .ok r ↔
      ∃ fee plain s, getPlainValueOut tx = .ok tx.standardValues.sum ∧ getCTFee tx = some fee ∧
        plainCommitmentOf E tx (int64 (tx.standardValues.sum + fee)) = .ok plain ∧
        loop (verifyAnonInput E db pool tx (decide (1 < tx.vin.length)) plain) ⟨[], [], []⟩ tx.vin
          = .ok s ∧
        (1 < tx.vin.length →
          E.pedersenVerifyTally s.splitCommits (plain :: ringCommitments tx) = true) := by
  simp only [verifyMLSAG, bind_ok_iff, orReject_ok_iff, rejectIf_ok_iff, not_and,
    Bool.not_eq_false, decide_eq_true_eq]
  constructor
  · rintro ⟨v, hv, fee, hfee, plain, hplain, s, hloop, htally⟩
    obtain ⟨-, -, rfl⟩ := (getPlainValueOut_ok_iff tx v).mp hv
    exact ⟨fee, plain, s, hv, hfee, hplain, hloop, htally⟩
  · rintro ⟨fee, plain, s, hv, hfee, hplain, hloop, htally⟩
    exact ⟨_, hv, fee, hfee, plain, hplain, s, hloop, htally⟩

lemma verifyMLSAG_ok_iff_pool : verifyMLSAG E db pool tx = .ok r ↔
      verifyMLSAG E db .empty tx = .ok r ∧
        ∀ ki ∈ txKeyImages tx, OwnRecord pool.mapKeyImages (E.txHash tx) ki := by
  rw [verifyMLSAG_ok_iff, verifyMLSAG_ok_iff]
  constructor
  · rintro ⟨fee, plain, s, hv, hfee, hplain, hloop, htally⟩
    have hanon := (verifyInputs_keyImages E db pool _ _ _ _ _ _ nodup_nil hloop).2
    obtain ⟨hloop', hown⟩ := (verifyInputs_ok_iff_pool E db pool _ _ _ _ _ _ nodup_nil).mp hloop
    refine ⟨⟨fee, plain, s, hv, hfee, hplain, hloop', htally⟩, ?_⟩
    rw [txKeyImages_of_all_anon tx fun txin hmem => (hanon txin hmem).1]
    intro ki hki
    obtain ⟨txin, hmem, hki⟩ := mem_flatMap.mp hki
    exact hown txin hmem ki hki
  · rintro ⟨⟨fee, plain, s, hv, hfee, hplain, hloop, htally⟩, hown⟩
    have hanon := (verifyInputs_keyImages E db .empty _ _ _ _ _ _ nodup_nil hloop).2
    rw [txKeyImages_of_all_anon tx fun txin hmem => (hanon txin hmem).1] at hown
    refine ⟨fee, plain, s, hv, hfee, hplain, ?_, htally⟩
    refine (verifyInputs_ok_iff_pool E db pool _ _ _ _ _ _ nodup_nil).mpr ⟨hloop, ?_⟩
    intro txin hmem ki hki
    exact hown ki (mem_flatMap.mpr ⟨txin, hmem, hki⟩)

/-- An accepted transaction shows distinct key images, none recorded under another transaction. -/
lemma verifyMLSAG_keyImages (h : verifyMLSAG E db pool tx = .ok r) :
    (txKeyImages tx).Nodup ∧ ∀ ki ∈ txKeyImages tx, OwnRecord db.rctKeyImage (E.txHash tx) ki := by
  obtain ⟨fee, plain, s, -, -, -, hloop, -⟩ := (verifyMLSAG_ok_iff E db pool tx r).mp h
  obtain ⟨hnodup, hall⟩ := verifyInputs_keyImages E db pool _ _ _ _ _ _ nodup_nil hloop
  rw [txKeyImages_of_all_anon tx fun txin hmem => (hall txin hmem).1]
  refine ⟨by simpa using hnodup, ?_⟩
  intro ki hki
  obtain ⟨txin, hmem, hki⟩ := mem_flatMap.mp hki
  exact (hall txin hmem).2.2 ki hki

end Verify

end Anon
