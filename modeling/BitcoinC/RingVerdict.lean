import BitcoinC.KeyImages
import BitcoinC.VarInt

/-!
# What the verdict on a ring signature depends on

`VerifyMLSAG` has two locals that are not assigned on every path: the commitment
to the plain value, when that value is not positive, and a ring index, when
`GetVarInt` is called at the end of the index vector or past it and reports
success.
-/

namespace RingVerdict

open Primitives Encoding Environment Verdicts TxVerify Anon

/-- An index vector that holds `n` varints from `ofs` on, or ends within one of them. -/
def holdsIndices (vMI : Bytes) : Nat → Nat → Bool
  | _, 0 => true
  | ofs, n + 1 => decide (ofs < vMI.length) &&
    match getVarInt vMI ofs with
    | .value _ nB => holdsIndices vMI (ofs + nB) n
    | _ => true

/-- The plain value is positive, so that its commitment is computed, and every index vector holds an
index for every ring member. -/
structure Assigned (tx : CTransaction) : Prop where
  commitment : ∀ v fee, getPlainValueOut tx = .ok v → getCTFee tx = some fee → 0 < int64 (v + fee)
  indices : ∀ txin ∈ tx.vin, ∀ a, anonShape (decide (1 < tx.vin.length)) txin = .ok a →
    holdsIndices a.vMI 0 (List.range (a.nInputs * a.nRingSize)).length = true

/-- Curve operations that accept everything whose first output commitment is not `bad`. -/
def curve (E : Env) (tx : CTransaction) (bad : Option Commitment) (index : Uint256 → Nat → Int)
    (plain : Commitment) : Env :=
  { E with
    pedersenCommit := fun _ => some 0
    prepareMLSAG := fun _ _ _ outCommits =>
      if ¬ 1 < tx.vin.length ∧ bad ≠ none ∧ outCommits.head? = bad then .error 1 else .ok []
    verifyMLSAG := fun _ _ _ _ _ _ _ => 0
    pedersenVerifyTally := fun _ outCommits => decide (bad = none ∨ outCommits.head? ≠ bad)
    uninitIndex := index
    uninitCommitment := fun _ => plain }

/-- The checks on one input that do not ask the curve operations: its shape, its ring indices,
which have to be new and known, where a missing one has the value of `index`, and its key images.
The state holds the indices and key images that were seen before. -/
def checkShown (E : Env) (index : Uint256 → Nat → Int) (db : CBlockTreeDB) (pool : CTxMemPool)
    (tx : CTransaction) (s : List Int × List CCmpPubKey) (txin : CTxIn) :
    Verdict (List Int × List CCmpPubKey) := do
  let a ← anonShape (decide (1 < tx.vin.length)) txin
  let scan ← loop (readMember { E with uninitIndex := index } db (E.txHash tx) a.vMI)
    ⟨0, 0, s.1, []⟩ (List.range (a.nInputs * a.nRingSize))
  let setHaveKI ← loop (checkKeyImage db pool (E.txHash tx)) s.2 a.keyImages
  pure (scan.setHaveI, setHaveKI)

/-- The transaction passes every check that does not ask the curve operations, if its unassigned
ring indices have the values of `index`. -/
structure PassesChecks (E : Env) (index : Uint256 → Nat → Int) (db : CBlockTreeDB)
    (pool : CTxMemPool) (tx : CTransaction) : Prop where
  value : ∃ v, getPlainValueOut tx = .ok v
  fee : ∃ fee, getCTFee tx = some fee
  inputs : ∃ s, loop (checkShown E index db pool tx) ([], []) tx.vin = .ok s

section

variable {E E' : Env} {db : CBlockTreeDB} {pool pool' : CTxMemPool} {tx : CTransaction}

lemma getVarInt_assigns (v : Bytes) (ofs : Nat) (h : ofs < v.length) :
    getVarInt v ofs = .failure ∨ ∃ i nB, getVarInt v ofs = .value i nB := by
  rcases VarInt.terminated_or_unterminated (v.drop ofs) with ⟨bs, rest, hdrop, hterm⟩ | hall
  · exact Or.inr ⟨_, _, VarInt.getVarInt_terminated v ofs bs rest hdrop hterm⟩
  · exact Or.inl (VarInt.getVarInt_unterminated v ofs h hall)

lemma getVarInt_ne_value {v : Bytes} {ofs nB : Nat} {i : UInt64} (hend : ¬ ofs < v.length) :
    getVarInt v ofs ≠ .value i nB := by
  unfold getVarInt
  split
  · rintro ⟨⟩
  · rw [List.drop_eq_nil_of_le (not_lt.mp hend)]
    rintro ⟨⟩

lemma not_lt_of_getVarInt {v : Bytes} {ofs : Nat} (hfailure : getVarInt v ofs ≠ .failure)
    (hvalue : ∀ i nB, getVarInt v ofs ≠ .value i nB) : ¬ ofs < v.length := by
  intro hlt
  rcases getVarInt_assigns v ofs hlt with h | ⟨i, nB, h⟩
  · exact hfailure h
  · exact hvalue i nB h

lemma readMember_congr (txhash : Uint256) (vMI : Bytes) (scan : RingScan) (k : Nat)
    (h : scan.ofs < vMI.length) :
    readMember E db txhash vMI scan k = readMember E' db txhash vMI scan k := by
  unfold readMember
  rcases getVarInt_assigns vMI scan.ofs h with hread | ⟨i, nB, hread⟩
  · rw [hread]
    rfl
  · rw [hread]
    rfl

lemma checkKeyImage_congr (hki : pool'.mapKeyImages = pool.mapKeyImages) (txhash : Uint256) :
    checkKeyImage db pool' txhash = checkKeyImage db pool txhash := by
  funext kis ki
  rw [checkKeyImage, checkKeyImage, hki]

lemma verifyMLSAG_congr_pool (E : Env) (hki : pool'.mapKeyImages = pool.mapKeyImages)
    (tx : CTransaction) : verifyMLSAG E db pool' tx = verifyMLSAG E db pool tx := by
  unfold verifyMLSAG verifyAnonInput
  simp only [checkKeyImage_congr hki]

lemma verifyRing_congr (hcrypto : E'.toCrypto = E.toCrypto) (r : RingStatement) :
    verifyRing E' r = verifyRing E r := by
  rw [verifyRing, verifyRing, hcrypto]

lemma txHash_congr (hcrypto : E'.toCrypto = E.toCrypto) (tx : CTransaction) :
    E'.txHash tx = E.txHash tx := by
  rw [Env.txHash, Env.txHash, hcrypto]

lemma everyStep_of_holdsIndices (E : Env) (db : CBlockTreeDB) (txhash : Uint256) (vMI : Bytes)
    (ks : List Nat) (scan : RingScan) (h : holdsIndices vMI scan.ofs ks.length = true) :
    everyStep (fun scan _ => scan.ofs < vMI.length) (readMember E db txhash vMI) scan ks := by
  induction ks generalizing scan with
  | nil => trivial
  | cons k ks ih =>
    rw [List.length_cons, holdsIndices, Bool.and_eq_true, decide_eq_true_eq] at h
    refine ⟨h.1, fun t ht => ih t ?_⟩
    obtain ⟨i, hi, hrest⟩ := (bind_ok_iff _ _ _).mp ht
    rw [orReject_ok_iff] at hi
    rcases getVarInt_assigns vMI scan.ofs h.1 with hread | ⟨j, nB, hread⟩
    · rw [hread] at hi
      cases hi
    · rw [hread] at hi h
      obtain rfl := Option.some.inj hi
      simp only [bind_ok_iff, pure_ok_iff] at hrest
      obtain ⟨-, -, -, -, rfl⟩ := hrest
      exact h.2

lemma verifyAnonInput_congr (hcrypto : E'.toCrypto = E.toCrypto)
    (hki : pool'.mapKeyImages = pool.mapKeyImages) (h : Assigned tx) (plain : Commitment)
    (txin : CTxIn) (hmem : txin ∈ tx.vin) (s : AnonState) :
    verifyAnonInput E db pool tx (decide (1 < tx.vin.length)) plain s txin =
      verifyAnonInput E' db pool' tx (decide (1 < tx.vin.length)) plain s txin := by
  unfold verifyAnonInput
  cases hshape : anonShape (decide (1 < tx.vin.length)) txin with
  | error e => rfl
  | ok a =>
    rw [ok_bind, ok_bind, txHash_congr hcrypto, checkKeyImage_congr hki]
    rw [loop_congr_along _ (readMember E' db (E.txHash tx) a.vMI) _
      (fun scan k hin => readMember_congr _ _ scan k hin) _ _
      (everyStep_of_holdsIndices _ _ _ _ _ _ (h.indices txin hmem a hshape))]
    simp only [verifyRing_congr hcrypto]

/-- Where everything is assigned, the verdict depends on the hashes and curve operations, the
transaction, the database and the key images of the mempool only. -/
lemma verdict_congr (hcrypto : E'.toCrypto = E.toCrypto)
    (hki : pool'.mapKeyImages = pool.mapKeyImages) (h : Assigned tx) :
    verifyMLSAG E' db pool' tx = verifyMLSAG E db pool tx := by
  unfold verifyMLSAG
  cases hv : getPlainValueOut tx with
  | error e => rfl
  | ok v =>
    cases hfee : getCTFee tx with
    | none => rfl
    | some fee =>
      have hplain : plainCommitmentOf E' tx (int64 (v + fee)) =
          plainCommitmentOf E tx (int64 (v + fee)) := by
        have hpos := h.commitment v fee hv hfee
        rw [plainCommitmentOf, plainCommitmentOf, if_pos hpos, if_pos hpos, hcrypto]
      simp only [ok_bind, orReject, hplain]
      refine congrArg _ (funext fun plain => ?_)
      rw [loop_congr _ _ _ (verifyAnonInput_congr hcrypto hki h plain), hcrypto]

/-- An accepted transaction is accepted on a larger set of ring outputs too, if its key images are
fresh there. -/
lemma verifyMLSAG_mono {db' : CBlockTreeDB}
    (hmembers : ∀ i ao, db.rctOutput i = some ao → db'.rctOutput i = some ao)
    (hfresh : ∀ ki ∈ txKeyImages tx, OwnRecord pool'.mapKeyImages (E.txHash tx) ki ∧
      OwnRecord db'.rctKeyImage (E.txHash tx) ki) (h : verifyMLSAG E db pool tx = .ok ()) :
    verifyMLSAG E db' pool' tx = .ok () := by
  obtain ⟨fee, plain, s, hv, hfee, hplain, hloop, htally⟩ := (verifyMLSAG_ok_iff ..).mp h
  refine (verifyMLSAG_ok_iff ..).mpr
    ⟨fee, plain, s, hv, hfee, hplain, loop_ok_mono _ (fun txin hmem s t hstep => ?_) _ _ hloop,
      htally⟩
  simp only [verifyAnonInput, bind_ok_iff] at hstep ⊢
  obtain ⟨a, ha, scan, hscan, kis, hkis, u, hring, ht⟩ := hstep
  refine ⟨a, ha, scan, loop_ok_mono _ (fun k _ s t hread => ?_) _ _ hscan, kis,
    loop_ok_mono _ (fun ki hki s t hcheck => ?_) _ _ hkis, u, hring, ht⟩
  · simp only [readMember, bind_ok_iff, orReject_ok_iff] at hread ⊢
    obtain ⟨i, hi, v, hnew, ao, hao, ht⟩ := hread
    exact ⟨i, hi, v, hnew, ao, hmembers _ _ hao, ht⟩
  · rw [checkKeyImage_ok_iff] at hcheck ⊢
    obtain ⟨hnew, -, -, ht⟩ := hcheck
    have hshown : ki ∈ txKeyImages tx :=
      List.mem_flatMap.mpr ⟨txin, List.mem_filter.mpr
        ⟨hmem, by simpa using (anonShape_ok _ _ a ha).1⟩,
        by rwa [anonKeyImages_of_anonShape _ _ a ha]⟩
    exact ⟨hnew, (hfresh ki hshown).1, (hfresh ki hshown).2, ht⟩

/-- A transaction without inputs has nothing to read. -/
lemma accepted_of_no_inputs (hcrypto : E'.toCrypto = E.toCrypto) (hnil : tx.vin = [])
    (h : verifyMLSAG E db pool tx = .ok ()) : verifyMLSAG E' db pool' tx = .ok () := by
  rw [verifyMLSAG_ok_iff, hnil] at h ⊢
  obtain ⟨fee, plain, s, hv, hfee, hplain, hloop, -⟩ := h
  unfold plainCommitmentOf at hplain ⊢
  rw [hcrypto]
  split_ifs at hplain ⊢ with hpos
  · exact ⟨fee, plain, s, hv, hfee, if_pos hpos ▸ hplain, hloop, fun hlt => absurd hlt (by simp)⟩
  · exact ⟨fee, _, s, hv, hfee, if_neg hpos, hloop, fun hlt => absurd hlt (by simp)⟩

lemma passesChecks_of_accepted {E' : Env} (hhash : E'.txHash tx = E.txHash tx)
    (h : verifyMLSAG E' db pool tx = .ok ()) : PassesChecks E E'.uninitIndex db pool tx := by
  obtain ⟨fee, plain, s, hv, hfee, -, hloop, -⟩ := (verifyMLSAG_ok_iff ..).mp h
  have hshown : ∃ t, loop (checkShown E E'.uninitIndex db pool tx) ([], []) tx.vin = .ok t ∧
      t = (s.setHaveI, s.setHaveKI) := by
    refine loop_simulates (fun s t => t = (s.setHaveI, s.setHaveKI))
      (fun txin s s' t hs hstep => ?_) _ _ _ _ rfl hloop
    subst hs
    simp only [verifyAnonInput, bind_ok_iff] at hstep
    obtain ⟨a, ha, scan, hscan, kis, hkis, u, -, ht⟩ := hstep
    cases ht
    rw [hhash] at hscan hkis
    simp only [checkShown, bind_ok_iff]
    exact ⟨_, ⟨a, ha, scan, hscan, kis, hkis, rfl⟩, rfl⟩
  obtain ⟨t, ht, -⟩ := hshown
  exact ⟨⟨_, hv⟩, ⟨_, hfee⟩, t, ht⟩

/-- What passes the other checks is accepted by curve operations that refuse only a commitment other
than the plain one. -/
lemma curve_accepts {index : Uint256 → Nat → Int} (h : PassesChecks E index db pool tx)
    (bad : Option Commitment) (hbad : bad = none ∨ bad = some 1) :
    verifyMLSAG (curve E tx bad index 0) db pool tx = .ok () := by
  obtain ⟨⟨v, hv⟩, ⟨fee, hfee⟩, s, hloop⟩ := h
  obtain ⟨-, -, rfl⟩ := (getPlainValueOut_ok_iff tx v).mp hv
  have hplain : plainCommitmentOf (curve E tx bad index 0) tx
      (int64 (tx.standardValues.sum + fee)) = .ok 0 := by
    unfold plainCommitmentOf
    split_ifs <;> rfl
  have hverified : ∃ t, loop (verifyAnonInput (curve E tx bad index 0) db pool tx
      (decide (1 < tx.vin.length)) 0) ⟨[], [], []⟩ tx.vin = .ok t ∧
        s = (t.setHaveI, t.setHaveKI) := by
    refine loop_simulates (fun s (t : AnonState) => s = (t.setHaveI, t.setHaveKI))
      (fun txin s s' t hs hstep => ?_)
      _ _ _ _ rfl hloop
    subst hs
    simp only [checkShown, bind_ok_iff] at hstep
    obtain ⟨a, ha, scan, hscan, kis, hkis, ht⟩ := hstep
    cases ht
    simp only [verifyAnonInput, bind_ok_iff]
    refine ⟨_, ⟨a, ha, scan, hscan, kis, hkis, (), ?_, rfl⟩, rfl⟩
    rcases hbad with rfl | rfl
    · simp [verifyRing, curve, ringStatement]
    · by_cases hsplit : 1 < tx.vin.length <;>
        simp [verifyRing, curve, ringStatement, inputOutCommits, hsplit]
  obtain ⟨t, ht, -⟩ := hverified
  refine (verifyMLSAG_ok_iff ..).mpr ⟨fee, 0, t, hv, hfee, hplain, ht, fun _ => ?_⟩
  rcases hbad with rfl | rfl <;> simp [curve]

/-- A commitment that was never computed and is refused: the transaction is rejected, for a single
input by its ring signature, otherwise by the tally. -/
lemma curve_refuses (index : Uint256 → Nat → Int) (hne : tx.vin ≠ []) (v : Int) (fee : Int)
    (hv : getPlainValueOut tx = .ok v) (hfee : getCTFee tx = some fee)
    (hpos : ¬ 0 < int64 (v + fee)) :
    verifyMLSAG (curve E tx (some 1) index 1) db pool tx ≠ .ok () := by
  intro h
  obtain ⟨fee', plain, s, hv', hfee', hplain, hloop, htally⟩ := (verifyMLSAG_ok_iff ..).mp h
  obtain rfl := Except.ok.inj (hv.symm.trans hv')
  obtain rfl := Option.some.inj (hfee.symm.trans hfee')
  rw [plainCommitmentOf, if_neg hpos] at hplain
  obtain rfl : (1 : Commitment) = plain := Except.ok.inj hplain
  by_cases hsplit : 1 < tx.vin.length
  · exact absurd (htally hsplit) (by simp [curve])
  · obtain ⟨txin, hmem⟩ := List.exists_mem_of_ne_nil _ hne
    obtain ⟨m, m', hstep⟩ := loop_ok_mem _ _ _ _ hloop txin hmem
    simp only [verifyAnonInput, bind_ok_iff] at hstep
    obtain ⟨a, -, scan, -, kis, -, u, hring, -⟩ := hstep
    simp [verifyRing, curve, ringStatement, inputOutCommits, hsplit] at hring

/-- Once an index is taken, a scan whose missing indices all have that value ends at the first of
them. -/
lemma scan_repeats (index : Int) (txhash : Uint256) (vMI : Bytes) (ks : List Nat)
    (scan t : RingScan) (hE : E.uninitIndex = fun _ _ => index) (hin : index ∈ scan.setHaveI)
    (hmissing : holdsIndices vMI scan.ofs ks.length = false) :
    loop (readMember E db txhash vMI) scan ks ≠ .ok t := by
  induction ks generalizing scan with
  | nil => cases hmissing
  | cons k ks ih =>
    intro h
    obtain ⟨m, hm, hrest⟩ := (loop_cons_ok_iff ..).mp h
    simp only [readMember, bind_ok_iff, orReject_ok_iff, rejectIf_ok_iff, pure_ok_iff] at hm
    obtain ⟨i, hi, -, hnew, ao, -, rfl⟩ := hm
    rw [List.length_cons, holdsIndices, Bool.and_eq_false_iff, decide_eq_false_iff_not] at hmissing
    cases hread : getVarInt vMI scan.ofs with
    | failure =>
      rw [hread] at hi
      cases hi
    | value j nB =>
      rw [hread] at hi hmissing
      obtain rfl := Option.some.inj hi
      exact ih _ (List.mem_cons_of_mem _ hin)
        (hmissing.resolve_left fun hend => getVarInt_ne_value hend hread) hrest
    | _ =>
      simp only [hread, indexRead, hE] at hi
      obtain rfl := Option.some.inj hi
      exact hnew hin

/-- The first index of a vector, or 0. -/
def firstIndex (vMI : Bytes) : Int :=
  match getVarInt vMI 0 with
  | .value i _ => int64 i.toNat
  | _ => 0

/-- A vector with too few indices is refused if the missing ones repeat its first one. -/
lemma scan_refuses (txhash : Uint256) (vMI : Bytes) (setHaveI : List Int) (n : Nat) (t : RingScan)
    (hn : 2 ≤ n) (hE : E.uninitIndex = fun _ _ => firstIndex vMI)
    (hmissing : holdsIndices vMI 0 n = false) :
    loop (readMember E db txhash vMI) ⟨0, 0, setHaveI, []⟩ (List.range n) ≠ .ok t := by
  intro h
  obtain ⟨n, rfl⟩ : ∃ m, n = m + 2 := ⟨n - 2, by omega⟩
  rw [List.range_succ_eq_map, loop_cons_ok_iff] at h
  obtain ⟨m, hm, hrest⟩ := h
  simp only [readMember, bind_ok_iff, orReject_ok_iff, rejectIf_ok_iff, pure_ok_iff] at hm
  obtain ⟨i, hi, -, -, ao, -, rfl⟩ := hm
  have hfirst : i.1 = firstIndex vMI ∧ holdsIndices vMI (0 + i.2) (n + 1) = false := by
    rw [holdsIndices, Bool.and_eq_false_iff, decide_eq_false_iff_not] at hmissing
    unfold firstIndex at hE ⊢
    cases hread : getVarInt vMI 0 with
    | failure =>
      rw [hread] at hi
      cases hi
    | value j nB =>
      rw [hread] at hi hmissing
      obtain rfl := Option.some.inj hi
      exact ⟨by dsimp only, hmissing.resolve_left fun hend => getVarInt_ne_value hend hread⟩
    | _ =>
      have hend := not_lt_of_getVarInt (by rw [hread]; rintro ⟨⟩) (by rw [hread]; rintro _ _ ⟨⟩)
      simp only [hread, indexRead, hE] at hi
      obtain rfl := Option.some.inj hi
      refine ⟨rfl, ?_⟩
      rw [holdsIndices, Bool.and_eq_false_iff]
      exact .inl (decide_eq_false hend)
  refine scan_repeats _ _ _ _ _ t hE (hfirst.1 ▸ List.mem_cons_self) ?_ hrest
  rw [List.length_map, List.length_range]
  exact hfirst.2

/-- An accepted transaction is accepted wherever the primitives are the same. -/
lemma accepted_congr (hall : (∃ index, PassesChecks E index db pool tx) → tx.vin = [] ∨ Assigned tx)
    {E₁ E₂ : Env} {pool₁ pool₂ : CTxMemPool} (hhash : E₁.txHash tx = E.txHash tx)
    (hcrypto : E₂.toCrypto = E₁.toCrypto) (h₁ : pool₁.mapKeyImages = pool.mapKeyImages)
    (h₂ : pool₂.mapKeyImages = pool₁.mapKeyImages) (h : verifyMLSAG E₁ db pool₁ tx = .ok ()) :
    verifyMLSAG E₂ db pool₂ tx = .ok () := by
  have hsame : verifyMLSAG E₁ db pool₁ tx = _ := verifyMLSAG_congr_pool E₁ h₁ tx
  rcases hall ⟨_, passesChecks_of_accepted hhash (hsame ▸ h)⟩ with hnil | hassigned
  · exact accepted_of_no_inputs hcrypto hnil h
  · rwa [verdict_congr hcrypto h₂ hassigned]

end

/-- Acceptance depends on the transaction, the database and the key images only, whatever the curve
operations, exactly when a transaction that passes all other checks leaves nothing unassigned. If
nothing is unassigned, neither does the reject reason depend on anything else. -/
theorem verdict_determined (E : Env) (db : CBlockTreeDB) (pool : CTxMemPool) (tx : CTransaction) :
    ((∀ E₁ E₂ pool₁ pool₂, E₁.txHash tx = E.txHash tx → E₂.toCrypto = E₁.toCrypto →
        pool₁.mapKeyImages = pool.mapKeyImages → pool₂.mapKeyImages = pool.mapKeyImages →
        (verifyMLSAG E₁ db pool₁ tx = .ok () ↔ verifyMLSAG E₂ db pool₂ tx = .ok ())) ↔
      ((∃ index, PassesChecks E index db pool tx) → tx.vin = [] ∨ Assigned tx)) ∧
    (Assigned tx → ∀ E₁ E₂ pool₁ pool₂, E₂.toCrypto = E₁.toCrypto →
      pool₂.mapKeyImages = pool₁.mapKeyImages →
      verifyMLSAG E₂ db pool₂ tx = verifyMLSAG E₁ db pool₁ tx) := by
  refine ⟨⟨fun hsame ⟨index, hpass⟩ => ?_, fun hall E₁ E₂ pool₁ pool₂ hhash hcrypto h₁ h₂ => ?_⟩,
    fun h _ _ _ _ hcrypto hki => verdict_congr hcrypto hki h⟩
  · refine or_iff_not_imp_left.mpr fun hne => ⟨fun v fee hv hfee => ?_, fun txin hmem a ha => ?_⟩
    · by_contra hpos
      exact curve_refuses index hne v fee hv hfee hpos ((hsame (curve E tx (some 1) index 0)
        (curve E tx (some 1) index 1) pool pool rfl rfl rfl rfl).mp
          (curve_accepts hpass (some 1) (.inr rfl)))
    · by_contra hmissing
      have haccepted := (hsame (curve E tx none index 0)
        (curve E tx none (fun _ _ => firstIndex a.vMI) 0) pool pool rfl rfl rfl rfl).mp
          (curve_accepts hpass none (.inl rfl))
      obtain ⟨fee, plain, s, -, -, -, hloop, -⟩ := (verifyMLSAG_ok_iff ..).mp haccepted
      obtain ⟨m, m', hstep⟩ := loop_ok_mem _ _ _ _ hloop txin hmem
      simp only [verifyAnonInput, bind_ok_iff] at hstep
      obtain ⟨a', ha', scan, hscan, -⟩ := hstep
      obtain rfl := Except.ok.inj (ha.symm.trans ha')
      obtain ⟨-, -, hinputs, -, hring, -⟩ := anonShape_ok _ _ a ha
      rw [List.length_range, Bool.not_eq_true] at hmissing
      refine scan_refuses _ _ _ _ scan ?_ rfl hmissing hscan
      exact le_trans (by decide) (le_trans hring (Nat.le_mul_of_pos_left _ hinputs))
  · exact ⟨accepted_congr hall hhash hcrypto h₁ (h₂.trans h₁.symm),
      accepted_congr hall (txHash_congr hcrypto tx ▸ hhash) hcrypto.symm h₂ (h₁.trans h₂.symm)⟩

open ToyEnvironment

def ringDb : CBlockTreeDB :=
  { CBlockTreeDB.empty with
    rctOutput := fun i => if 1 ≤ i ∧ i ≤ 3 then some
      { pubkey := BitVec.ofInt 264 i, commitment := 100, outpoint := ⟨0, 0⟩, nBlockHeight := 1 }
      else none }

lemma assigned_ringTx : Assigned (ringTx 21) where
  commitment v fee hv hfee := by
    have hplain : getPlainValueOut (ringTx 21) = .ok 0 := by decide +kernel
    have hdeclared : getCTFee (ringTx 21) = some 5 := by decide +kernel
    obtain rfl := Except.ok.inj (hplain.symm.trans hv)
    obtain rfl := Option.some.inj (hdeclared.symm.trans hfee)
    decide
  indices := by
    intro txin hmem a ha
    rw [List.mem_singleton.mp hmem] at ha
    have hholds : ((anonShape (decide (1 < (ringTx 21).vin.length)) (ringSpend 77)).toOption.map
        fun a => holdsIndices a.vMI 0 (List.range (a.nInputs * a.nRingSize)).length) =
          some true := by
      decide +kernel
    rw [ha] at hholds
    exact Option.some.inj hholds

def freeTx : CTransaction :=
  { ringTx 21 with vpout := [feeOutput 0, ringOutput (ringKey 21) 100 false] }

def shortTx : CTransaction :=
  { ringTx 21 with vin := [{ ringSpend 77 with scriptWitness := [[1, 2], List.replicate 224 0] }] }

/-- Without a fee and plain outputs the verdict is that of whatever commitment the stack holds;
with an index missing it is that of whatever index the stack holds. -/
theorem verdict_undetermined :
    verifyMLSAG { env with uninitCommitment := fun _ => 0 } ringDb .empty freeTx = .ok () ∧
    verifyMLSAG { env with uninitCommitment := fun _ => 8 } ringDb .empty freeTx =
      .error (.dos 100 REJECT_INVALID "verify-mlsag-failed") ∧
    verifyMLSAG { env with uninitIndex := fun _ _ => 3 } ringDb .empty shortTx = .ok () ∧
    verifyMLSAG { env with uninitIndex := fun _ _ => 9 } ringDb .empty shortTx =
      .error (.dos 100 REJECT_MALFORMED "bad-anonin-unknown-i") := by
  refine ⟨?_, ?_, ?_, ?_⟩
  · decide +kernel
  · decide +kernel
  · decide +kernel
  · decide +kernel

end RingVerdict
