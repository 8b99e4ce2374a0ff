import BitcoinC.Anon
import BitcoinC.RowMajor

/-!
# The rings of an anon transaction

`VerifyMLSAG` checks one ring signature for each input.
-/

namespace RingSpends

open Primitives Environment Verdicts TxVerify Anon RowMajor List

/-- The statement of one input and the indices of its ring members, in the same order. -/
structure Ring where
  statement : RingStatement
  indices : List Int

def ringOf (txhash : Uint256) (a : AnonShape) (outCommits : List Commitment) (scan : RingScan) :
    Ring :=
  ⟨ringStatement txhash a scan.members outCommits,
    (scan.setHaveI.take (a.nInputs * a.nRingSize)).reverse⟩

section

variable (E : Env) (db : CBlockTreeDB)
variable (txhash : Uint256) (vMI : Bytes)

/-- The rings of the inputs `vin`, read as the verifier reads them, up to the first input that it
cannot read. -/
def ringsFrom (tx : CTransaction) (fSplitCommitments : Bool) (plainCommitment : Commitment) :
    List Int → List CTxIn → List Ring
  | _, [] => []
  | setHaveI, txin :: vin =>
    match anonShape fSplitCommitments txin with
    | .error _ => []
    | .ok a =>
      match loop (readMember E db (E.txHash tx) a.vMI) ⟨0, 0, setHaveI, []⟩
          (range (a.nInputs * a.nRingSize)) with
      | .error _ => []
      | .ok scan =>
        ringOf (E.txHash tx) a (inputOutCommits fSplitCommitments plainCommitment tx a) scan ::
          ringsFrom tx fSplitCommitments plainCommitment scan.setHaveI vin

def txRings (tx : CTransaction) : List Ring :=
  match getCTFee tx with
  | none => []
  | some nTxFee =>
    match plainCommitmentOf E tx (int64 (tx.standardValues.sum + nTxFee)) with
    | .error _ => []
    | .ok plainCommitment =>
      ringsFrom E db tx (decide (1 < tx.vin.length)) plainCommitment [] tx.vin

lemma readMember_ok (s t : RingScan) (k : Nat) (h : readMember E db txhash vMI s k = .ok t) :
    ∃ i ao, i ∉ s.setHaveI ∧ db.rctOutput i = some ao ∧ t.setHaveI = i :: s.setHaveI ∧
      t.members = s.members ++ [ao] := by
  simp only [readMember, bind_ok_iff, orReject_ok_iff, rejectIf_ok_iff, pure_ok_iff] at h
  obtain ⟨i, -, -, hnew, ao, hao, rfl⟩ := h
  exact ⟨i.1, ao, hnew, hao, rfl, rfl⟩

lemma readMembers_ok (ks : List Nat) (s t : RingScan) (hs : s.setHaveI.Nodup)
    (h : loop (readMember E db txhash vMI) s ks = .ok t) :
    ∃ (is : List Int) (ms : List CAnonOutput), is.length = ks.length ∧
      is.map db.rctOutput = ms.map some ∧ t.setHaveI = is.reverse ++ s.setHaveI ∧ t.setHaveI.Nodup ∧
      t.members = s.members ++ ms := by
  induction ks generalizing s with
  | nil =>
    rw [loop_nil, Except.ok.injEq] at h
    subst h
    exact ⟨[], [], rfl, rfl, rfl, hs, (append_nil _).symm⟩
  | cons k ks ih =>
    obtain ⟨m, hm, hrest⟩ := (loop_cons_ok_iff _ _ _ _ _).mp h
    obtain ⟨i, ao, hnew, hao, hset, hmem⟩ := readMember_ok E db txhash vMI s m k hm
    have hnodup : m.setHaveI.Nodup := hset ▸ nodup_cons.mpr ⟨hnew, hs⟩
    obtain ⟨is, ms, hlen, hstored, hset', hnodup', hmem'⟩ := ih m hnodup hrest
    refine ⟨i :: is, ao :: ms, congrArg (· + 1) hlen, ?_, ?_, hnodup', ?_⟩
    · rw [map_cons, map_cons, hao, hstored]
    · rw [hset', hset, reverse_cons, append_assoc, singleton_append]
    · rw [hmem', hmem, append_assoc, singleton_append]

/-- A ring of stored members with a valid signature. -/
structure Verified (r : Ring) : Prop where
  cols : 0 < r.statement.nCols
  rows : r.statement.nRows - 1 ≤ MAX_ANON_INPUTS
  keys : r.statement.vM.length = r.statement.nCols * (r.statement.nRows - 1)
  commits : r.statement.inCommits.length = r.statement.nCols * (r.statement.nRows - 1)
  stored : r.indices.map (fun i => (db.rctOutput i).map (·.commitment)) =
    r.statement.inCommits.map some
  signed : verifyRing E r.statement = .ok ()

lemma ringOf_verified (a : AnonShape) (outCommits : List Commitment) (setHaveI : List Int)
    (scan : RingScan) (hnodup : setHaveI.Nodup) (hcols : 0 < a.nRingSize)
    (hrows : a.nInputs ≤ MAX_ANON_INPUTS)
    (hscan : loop (readMember E db txhash a.vMI) ⟨0, 0, setHaveI, []⟩
      (range (a.nInputs * a.nRingSize)) = .ok scan)
    (hsigned : verifyRing E (ringStatement txhash a scan.members outCommits) = .ok ()) :
    Verified E db (ringOf txhash a outCommits scan) ∧
      scan.setHaveI = (ringOf txhash a outCommits scan).indices.reverse ++ setHaveI ∧
      scan.setHaveI.Nodup := by
  obtain ⟨is, ms, hlen, hstored, hset, hscanned, hmembers⟩ :=
    readMembers_ok E db txhash a.vMI _ _ scan hnodup hscan
  rw [length_range] at hlen
  have hmembers' : scan.members = ms := hmembers
  have hsize : ms.length = a.nRingSize * a.nInputs := by
    have := congrArg length hstored
    rw [length_map, length_map, hlen] at this
    rw [← this, Nat.mul_comm]
  have hindices : (ringOf txhash a outCommits scan).indices = is := by
    show (scan.setHaveI.take (a.nInputs * a.nRingSize)).reverse = is
    rw [hset, take_left' (by rw [length_reverse, hlen]), reverse_reverse]
  refine ⟨⟨hcols, hrows, ?_, ?_, ?_, hsigned⟩, hindices ▸ hset, hscanned⟩
  · show (scan.members.map (·.pubkey)).length = _
    rw [length_map, hmembers', hsize]
    rfl
  · show (scan.members.map (·.commitment)).length = _
    rw [length_map, hmembers', hsize]
    rfl
  · rw [hindices]
    show _ = (scan.members.map (·.commitment)).map some
    have hcommits := congrArg (map (Option.map (·.commitment))) hstored
    rw [map_map, map_map] at hcommits
    rw [hmembers', map_map]
    exact hcommits

variable (pool : CTxMemPool)

/-- An accepted run has a verified ring for each input, with distinct ring members. -/
lemma verifyInputs_rings (tx : CTransaction) (fSplitCommitments : Bool)
    (plainCommitment : Commitment) (vin : List CTxIn) (s t : AnonState)
    (hI : s.setHaveI.Nodup) (hKI : s.setHaveKI.Nodup)
    (h : loop (verifyAnonInput E db pool tx fSplitCommitments plainCommitment) s vin = .ok t)
    (rings : List Ring)
    (hrings : rings = ringsFrom E db tx fSplitCommitments plainCommitment s.setHaveI vin) :
    rings.length = vin.length ∧ (∀ r ∈ rings, Verified E db r) ∧
      ((rings.flatMap (·.indices)).reverse ++ s.setHaveI).Nodup ∧
      (fSplitCommitments = true →
        t.splitCommits = s.splitCommits ++ rings.flatMap (·.statement.outCommits)) ∧
      (fSplitCommitments = false →
        ∀ r ∈ rings, r.statement.outCommits = plainCommitment :: ringCommitments tx) := by
  induction vin generalizing s rings with
  | nil =>
    rw [loop_nil, Except.ok.injEq] at h
    subst h hrings
    simp [ringsFrom, hI]
  | cons txin vin ih =>
    obtain ⟨m, hm, hrest⟩ := (loop_cons_ok_iff _ _ _ _ _).mp h
    have hmKI := (verifyAnonInput_nodup E db pool _ _ _ _ _ _ hKI hm).2
    obtain ⟨a, scan, ha, hscan, -, -, -, hsigned, rfl⟩ :=
      (verifyAnonInput_ok_iff E db pool _ _ _ _ _ _ hKI).mp hm
    obtain ⟨-, -, -, hrows, hcols, -, -, -⟩ := anonShape_ok _ _ _ ha
    obtain ⟨hfirst, hset, hnodup⟩ := ringOf_verified E db _ a _ _ scan hI
      (Nat.lt_of_lt_of_le (by decide) hcols) hrows hscan hsigned
    obtain ⟨hlen, hall, hdistinct, hsplit, hsingle⟩ := ih _ hnodup hmKI hrest _ rfl
    rw [ringsFrom, ha] at hrings
    dsimp only at hrings
    rw [hscan] at hrings
    subst hrings
    refine ⟨congrArg (· + 1) hlen, forall_mem_cons.mpr ⟨hfirst, hall⟩, ?_, ?_, ?_⟩
    · rw [flatMap_cons, reverse_append, append_assoc, ← hset]
      exact hdistinct
    · intro hs
      rw [hsplit hs]
      simp [hs, ringOf, ringStatement, inputOutCommits]
    · intro hs
      refine forall_mem_cons.mpr ⟨?_, hsingle hs⟩
      simp [hs, ringOf, ringStatement, inputOutCommits]

/-- An accepted transaction has verified rings over stored outputs. -/
lemma verifyMLSAG_rings (tx : CTransaction) (r : Unit) (hne : tx.vin ≠ [])
    (h : verifyMLSAG E db pool tx = .ok r) : ∃ nTxFee plainCommitment, getCTFee tx = some nTxFee ∧
      plainCommitmentOf E tx (int64 (tx.standardValues.sum + nTxFee)) = .ok plainCommitment ∧
      (txRings E db tx).length = tx.vin.length ∧ (∀ ring ∈ txRings E db tx, Verified E db ring) ∧
      ((txRings E db tx).flatMap (·.indices)).Nodup ∧
      ((txRings E db tx).flatMap (·.statement.outCommits) = plainCommitment :: ringCommitments tx ∨
        E.pedersenVerifyTally ((txRings E db tx).flatMap (·.statement.outCommits))
          (plainCommitment :: ringCommitments tx) = true) := by
  obtain ⟨fee, plain, s, -, hfee, hplain, hloop, htally⟩ := (verifyMLSAG_ok_iff E db pool tx r).mp h
  have hrings : txRings E db tx =
      ringsFrom E db tx (decide (1 < tx.vin.length)) plain [] tx.vin := by
    rw [txRings, hfee]
    dsimp only
    rw [hplain]
  obtain ⟨hlen, hall, hdistinct, hsplit, hsingle⟩ :=
    verifyInputs_rings E db pool tx _ plain tx.vin _ s nodup_nil nodup_nil hloop _ hrings
  rw [append_nil, nodup_reverse] at hdistinct
  refine ⟨fee, plain, hfee, hplain, hlen, hall, hdistinct, ?_⟩
  by_cases hmany : 1 < tx.vin.length
  · rw [hsplit (decide_eq_true hmany)] at htally
    exact Or.inr (htally hmany)
  · have hone : tx.vin.length = 1 := by
      have := length_pos_of_ne_nil hne
      omega
    obtain ⟨ring, hring⟩ := length_eq_one_iff.mp (hlen.trans hone)
    have hout := hsingle (decide_eq_false hmany)
    rw [hring] at hout ⊢
    left
    rw [flatMap_singleton]
    exact hout ring mem_cons_self

end

section

variable (real : RingStatement → Nat)

def spentIndices (rings : List Ring) : List Int :=
  rings.flatMap fun r =>
    column r.statement.nCols (r.statement.nRows - 1) (real r.statement) r.indices

def spentCommits (rings : List Ring) : List Commitment :=
  rings.flatMap fun r =>
    column r.statement.nCols (r.statement.nRows - 1) (real r.statement) r.statement.inCommits

variable (E : Env) (db : CBlockTreeDB) (rings : List Ring)

lemma spentIndices_nodup (hcols : ∀ r ∈ rings, Verified E db r)
    (h : (rings.flatMap (·.indices)).Nodup) : (spentIndices real rings).Nodup := by
  rw [nodup_flatMap] at h
  rw [spentIndices, nodup_flatMap]
  refine ⟨fun r hr => column_nodup (hcols r hr).cols (h.1 r hr), h.2.imp ?_⟩
  intro r r' hdisj i hi hi'
  exact hdisj (mem_of_mem_column hi) (mem_of_mem_column hi')

lemma spentIndices_stored (h : ∀ r ∈ rings, Verified E db r) :
    (spentIndices real rings).map (fun i => (db.rctOutput i).map (·.commitment)) =
      (spentCommits real rings).map some := by
  rw [spentIndices, spentCommits, map_flatMap, map_flatMap]
  refine flatMap_congr fun r hr => ?_
  rw [← map_column, ← map_column, (h r hr).stored]

lemma length_spentCommits_le (h : ∀ r ∈ rings, Verified E db r) :
    (spentCommits real rings).length ≤ rings.length * MAX_ANON_INPUTS := by
  rw [spentCommits, length_flatMap]
  have hsum := sum_le_card_nsmul
    (rings.map fun r => (column r.statement.nCols (r.statement.nRows - 1) (real r.statement)
      r.statement.inCommits).length) MAX_ANON_INPUTS fun n hn => by
    obtain ⟨r, hr, rfl⟩ := mem_map.mp hn
    exact (length_column_le _ _ _ _).trans (h r hr).rows
  rw [length_map] at hsum
  exact hsum

end

end RingSpends
