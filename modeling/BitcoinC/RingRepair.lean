import BitcoinC.Anon

/-!
# Repair of the RingCT index

`RollBackRCTIndex` of `anon.cpp` is called when a block meets a key that is
already linked above the last RingCT output of the chain.
-/

namespace RingRepair

open Primitives Anon KeyedStore

/-- A database with an index above which it has no RingCT record. -/
structure StoredDB extends CBlockTreeDB where
  top : Int
  bounded : ∀ i, top < i → rctOutput i = none

variable (S : StoredDB) (last expect : Int) {ao : CAnonOutput} (setKi : List CCmpPubKey)

/-- The key that a read leaves in the one `ao` of both scans: a record without a key keeps the key
that was read before. -/
def readKey (pubkey : CCmpPubKey) (ao : CAnonOutput) : CCmpPubKey :=
  if keySize ao.pubkey = 33 then ao.pubkey else pubkey

def eraseRecord (db : CBlockTreeDB) (i : Int) (pubkey : CCmpPubKey) : CBlockTreeDB :=
  { db with
    rctOutput := erase db.rctOutput i
    rctOutputLink := erase db.rctOutputLink (storedKey pubkey) }

/-- The upward scan from above `n`: the database it leaves, the key last read and the index at which
it stops. -/
def removeUp : Nat → CBlockTreeDB → CCmpPubKey → Int → CBlockTreeDB × CCmpPubKey × Int
  | 0, db, pubkey, n => (db, pubkey, n)
  | fuel + 1, db, pubkey, n =>
    match db.rctOutput (n + 1) with
    | none => (db, pubkey, n + 1)
    | some ao =>
      removeUp fuel (eraseRecord db (n + 1) (readKey pubkey ao)) (readKey pubkey ao) (n + 1)

def removeDown (nLastValidRCTOutput : Int) : Nat → CBlockTreeDB → CCmpPubKey → Int → CBlockTreeDB
  | 0, db, _, _ => db
  | fuel + 1, db, pubkey, n =>
    if nLastValidRCTOutput < n then
      match db.rctOutput n with
      | none => db
      | some ao => removeDown nLastValidRCTOutput fuel (eraseRecord db n (readKey pubkey ao))
          (readKey pubkey ao) (n - 1)
    else db

def rollBackRCTIndex (S : StoredDB) (nLastValidRCTOutput nExpectErase : Int)
    (setKi : List CCmpPubKey) : CBlockTreeDB :=
  let up := removeUp ((S.top - nLastValidRCTOutput).toNat + 1) S.toCBlockTreeDB 0xFF
    nLastValidRCTOutput
  let db :=
    if up.2.2 < nExpectErase then
      removeDown nLastValidRCTOutput (nExpectErase - nLastValidRCTOutput).toNat up.1 up.2.1
        nExpectErase
    else up.1
  { db with rctKeyImage := eraseAll db.rctKeyImage setKi }

/-- Every record has a key that is written whole. -/
def Whole (db : CBlockTreeDB) : Prop := ∀ i ao, db.rctOutput i = some ao → keySize ao.pubkey = 33

/-- `db'` has lost the records at the indices in `R`, with the links of their keys. -/
structure Removes (db : CBlockTreeDB) (R : Int → Prop) (db' : CBlockTreeDB) : Prop where
  gone : ∀ i, R i → db'.rctOutput i = none
  kept : ∀ i, ¬ R i → db'.rctOutput i = db.rctOutput i
  unlinked : ∀ i ao, R i → db.rctOutput i = some ao → db'.rctOutputLink ao.pubkey = none
  linked : ∀ pk, (∀ i ao, R i → db.rctOutput i = some ao → ao.pubkey ≠ pk) →
    db'.rctOutputLink pk = db.rctOutputLink pk

section Removal

variable {db db' db'' : CBlockTreeDB} {R R' : Int → Prop}

lemma Removes.none (db : CBlockTreeDB) (h : ∀ i, ¬ R i) : Removes db R db where
  gone i hi := absurd hi (h i)
  kept _ _ := rfl
  unlinked i _ hi := absurd hi (h i)
  linked _ _ := rfl

lemma Whole.eraseRecord (h : Whole db) (i : Int) (pubkey : CCmpPubKey) :
    Whole (eraseRecord db i pubkey) := by
  intro j ao hao
  by_cases hj : j = i
  · subst hj
    simp [RingRepair.eraseRecord] at hao
  · exact h j ao ((erase_other _ _ _ hj).symm.trans hao)

lemma Whole.readKey (hdb : Whole db) {i : Int} (h : db.rctOutput i = some ao)
    (pubkey : CCmpPubKey) : readKey pubkey ao = ao.pubkey ∧ storedKey ao.pubkey = ao.pubkey :=
  ⟨if_pos (hdb i ao h), storedKey_of_size (hdb i ao h)⟩

lemma removes_record {i : Int} (h : db.rctOutput i = some ao)
    (hkey : storedKey ao.pubkey = ao.pubkey) : Removes db (· = i) (eraseRecord db i ao.pubkey) where
  gone j hj := by simp [eraseRecord, hj]
  kept j hj := erase_other _ _ _ hj
  unlinked j ao' hj hao := by
    subst hj
    obtain rfl := Option.some.inj (h.symm.trans hao)
    simp [eraseRecord, hkey]
  linked pk hpk := by
    rw [eraseRecord, hkey]
    exact erase_other _ _ _ (hpk i ao rfl h).symm

lemma Removes.link_cases (h : Removes db R db') (pk : CCmpPubKey) :
    ((∃ i ao, R i ∧ db.rctOutput i = some ao ∧ ao.pubkey = pk) ∧ db'.rctOutputLink pk = .none) ∨
      db'.rctOutputLink pk = db.rctOutputLink pk := by
  by_cases hex : ∃ i ao, R i ∧ db.rctOutput i = some ao ∧ ao.pubkey = pk
  · obtain ⟨i, ao, hi, hao, rfl⟩ := hex
    exact .inl ⟨⟨i, ao, hi, hao, rfl⟩, h.unlinked i ao hi hao⟩
  · push Not at hex
    exact .inr (h.linked pk hex)

lemma Removes.trans (h : Removes db R db') (h' : Removes db' R' db'') :
    Removes db (fun i => R i ∨ R' i) db'' where
  gone i hi := by
    by_cases hR' : R' i
    · exact h'.gone i hR'
    · rw [h'.kept i hR']
      exact h.gone i (hi.resolve_right hR')
  kept i hi := by
    rw [not_or] at hi
    rw [h'.kept i hi.2, h.kept i hi.1]
  unlinked i ao hi hao := by
    by_cases hR : R i
    · rcases h'.link_cases ao.pubkey with ⟨-, hnone⟩ | hsame
      · exact hnone
      · rw [hsame, h.unlinked i ao hR hao]
    · exact h'.unlinked i ao (hi.resolve_left hR) ((h.kept i hR).trans hao)
  linked pk hpk := by
    rw [h'.linked pk, h.linked pk fun i ao hi hao => hpk i ao (.inl hi) hao]
    intro i ao hi hao
    have hR : ¬ R i := by
      intro hR
      cases (h.gone i hR).symm.trans hao
    exact hpk i ao (.inr hi) ((h.kept i hR).symm.trans hao)

lemma Removes.congr (h : Removes db R db') (hR : ∀ i, R i ↔ R' i) : Removes db R' db' := by
  rwa [show R' = R from funext fun i => propext (hR i).symm]

end Removal

@[simp] lemma eraseRecord_other (db : CBlockTreeDB) (pubkey : CCmpPubKey) {i j : Int} (h : j ≠ i) :
    (eraseRecord db i pubkey).rctOutput j = db.rctOutput j := erase_other _ _ _ h

/-- All indices above `a` up to `b` have records. -/
def Filled (db : CBlockTreeDB) (a b : Int) : Prop := ∀ j, a < j → j ≤ b → db.rctOutput j ≠ none

lemma filled_above {db : CBlockTreeDB} {pubkey : CCmpPubKey} {n b : Int}
    (h : db.rctOutput (n + 1) = some ao) :
    Filled (eraseRecord db (n + 1) pubkey) (n + 1) b ↔ Filled db n b := by
  constructor
  · intro hrest j hj hj'
    rcases eq_or_ne j (n + 1) with rfl | hne
    · simp [h]
    · rw [← eraseRecord_other db pubkey hne]
      exact hrest j (by omega) hj'
  · intro hall j hj hj'
    rw [eraseRecord_other _ _ (by omega)]
    exact hall j (by omega) hj'

lemma filled_below {db : CBlockTreeDB} {pubkey : CCmpPubKey} {a n : Int}
    (h : db.rctOutput n = some ao) : Filled (eraseRecord db n pubkey) a (n - 1) ↔
      Filled db a n := by
  constructor
  · intro hrest j hj hj'
    rcases eq_or_ne j n with rfl | hne
    · simp [h]
    · rw [← eraseRecord_other db pubkey hne]
      exact hrest j hj (by omega)
  · intro hall j hj hj'
    rw [eraseRecord_other _ _ (by omega)]
    exact hall j hj (by omega)

/-- With fuel for every record that may follow, the upward scan stops at the first missing one. -/
lemma removeUp_spec (fuel : Nat) (db : CBlockTreeDB) (hdb : Whole db) (pubkey : CCmpPubKey)
    (n top : Int) (hbound : ∀ i, top < i → db.rctOutput i = none) (hpos : 0 < fuel)
    (hfuel : top - n < fuel) (up : CBlockTreeDB × CCmpPubKey × Int)
    (hup : removeUp fuel db pubkey n = up) : Whole up.1 ∧
      Removes db (fun i => n < i ∧ Filled db n i) up.1 ∧ n < up.2.2 ∧ db.rctOutput up.2.2 = none ∧
      ∀ j, n < j → j < up.2.2 → db.rctOutput j ≠ none := by
  induction fuel generalizing db pubkey n with
  | zero => omega
  | succ fuel ih =>
    cases hread : db.rctOutput (n + 1) with
    | none =>
      simp only [removeUp, hread] at hup
      subst hup
      refine ⟨hdb, .none db ?_, Int.lt_succ n, hread, fun j hj hj' => absurd hj (Int.not_lt.mpr ?_)⟩
      · rintro i ⟨hi, hfilled⟩
        exact hfilled (n + 1) (by omega) (by omega) hread
      · exact Int.le_of_lt_add_one hj'
    | some ao =>
      obtain ⟨hkey, hsame⟩ := hdb.readKey hread pubkey
      simp only [removeUp, hread, hkey] at hup
      have hle : n + 1 ≤ top := by
        by_contra hlt
        cases (hbound (n + 1) (by omega)).symm.trans hread
      obtain ⟨hwhole, hremoves, hstop, hmissing, hfilled⟩ :=
        ih _ (hdb.eraseRecord (n + 1) ao.pubkey) _
        (n + 1) (fun i hi => by rw [eraseRecord_other _ _ (by omega), hbound i hi]) (by omega)
        (by omega) hup
      rw [eraseRecord_other _ _ (by omega)] at hmissing
      refine ⟨hwhole, ((removes_record hread hsame).trans hremoves).congr fun i =>
        ?_, by omega, hmissing, ?_⟩
      · constructor
        · rintro (rfl | ⟨hi, h⟩)
          · refine ⟨by omega, fun j hj hj' => ?_⟩
            obtain rfl : j = n + 1 := by omega
            simp [hread]
          · exact ⟨by omega, (filled_above hread).mp h⟩
        · rintro ⟨hi, h⟩
          rcases eq_or_ne i (n + 1) with rfl | hne
          · exact .inl rfl
          · exact .inr ⟨by omega, (filled_above hread).mpr h⟩
      · intro j hj hj'
        rcases eq_or_ne j (n + 1) with rfl | hne
        · simp [hread]
        · have := hfilled j (by omega) hj'
          rwa [eraseRecord_other _ _ hne] at this

lemma removeDown_spec (fuel : Nat) (db : CBlockTreeDB) (hdb : Whole db) (pubkey : CCmpPubKey)
    (n : Int) (hfuel : n - last ≤ fuel) :
    Removes db (fun i => last < i ∧ i ≤ n ∧ Filled db (i - 1) n)
      (removeDown last fuel db pubkey n) := by
  induction fuel generalizing db pubkey n with
  | zero => exact .none db fun i ⟨hi, hi', _⟩ => by omega
  | succ fuel ih =>
    unfold removeDown
    split_ifs with hlast
    · cases hread : db.rctOutput n with
      | none => exact .none db fun i ⟨_, hi, h⟩ => h n (by omega) le_rfl hread
      | some ao =>
        obtain ⟨hkey, hsame⟩ := hdb.readKey hread pubkey
        dsimp only
        rw [hkey]
        refine ((removes_record hread hsame).trans
          (ih _ (hdb.eraseRecord n ao.pubkey) _ (n - 1) (by omega))).congr ?_
        intro i
        constructor
        · rintro (rfl | ⟨hi, hi', h⟩)
          · refine ⟨hlast, le_rfl, fun j hj hj' => ?_⟩
            obtain rfl : j = i := by omega
            simp [hread]
          · exact ⟨hi, by omega, (filled_below hread).mp h⟩
        · rintro ⟨hi, hi', h⟩
          rcases eq_or_ne i n with rfl | hne
          · exact .inl rfl
          · exact .inr ⟨hi, by omega, (filled_below hread).mpr h⟩
    · exact .none db fun i ⟨hi, hi', _⟩ => by omega

/-- One of the two scans reaches the index. -/
def Scanned (db : CBlockTreeDB) (last expect i : Int) : Prop :=
  last < i ∧ (Filled db last i ∨ i ≤ expect ∧ Filled db (i - 1) expect)

lemma rollBack_removes (hdb : Whole S.toCBlockTreeDB) :
    Removes S.toCBlockTreeDB (Scanned S.toCBlockTreeDB last expect)
      (rollBackRCTIndex S last expect setKi) := by
  set up := removeUp ((S.top - last).toNat + 1) S.toCBlockTreeDB 0xFF last with hupdef
  obtain ⟨hwhole, hup, hstop, hmissing, hfilled⟩ := removeUp_spec ((S.top - last).toNat + 1)
    S.toCBlockTreeDB hdb 0xFF last S.top S.bounded (by omega) (by omega) up hupdef.symm
  obtain ⟨db, pubkey, stop⟩ := up
  dsimp only at hwhole hup hstop hmissing hfilled
  suffices h : Removes S.toCBlockTreeDB (Scanned S.toCBlockTreeDB last expect)
      (if stop < expect then removeDown last (expect - last).toNat db pubkey expect else db) by
    rw [rollBackRCTIndex, ← hupdef]
    exact ⟨h.gone, h.kept, h.unlinked, h.linked⟩
  split_ifs with hmore
  · -- above the first missing record the upward scan has changed nothing
    have hsame : ∀ j, stop < j → db.rctOutput j = S.rctOutput j := by
      intro j hj
      refine hup.kept j fun ⟨_, h⟩ => h stop hstop (by omega) hmissing
    have hstill : db.rctOutput stop = none := by
      rw [hup.kept stop fun ⟨_, h⟩ => h stop hstop le_rfl hmissing, hmissing]
    refine (hup.trans (removeDown_spec last _ db hwhole pubkey expect (by omega))).congr fun i => ?_
    constructor
    · rintro (⟨hi, h⟩ | ⟨hi, hi', h⟩)
      · exact ⟨hi, .inl h⟩
      · have habove : stop < i := by
          by_contra hle
          exact h stop (by omega) (by omega) hstill
        refine ⟨hi, .inr ⟨hi', fun j hj hj' => ?_⟩⟩
        rw [← hsame j (by omega)]
        exact h j hj hj'
    · rintro ⟨hi, h | ⟨hi', h⟩⟩
      · exact .inl ⟨hi, h⟩
      · have habove : stop < i := by
          by_contra hle
          exact h stop (by omega) (by omega) hmissing
        refine .inr ⟨hi, hi', fun j hj hj' => ?_⟩
        rw [hsame j (by omega)]
        exact h j hj hj'
  · refine hup.congr fun i => ⟨fun ⟨hi, h⟩ => ⟨hi, .inl h⟩, ?_⟩
    rintro ⟨hi, h | ⟨hi', h⟩⟩
    · exact ⟨hi, h⟩
    · -- the index lies below the first missing record already
      have hbelow : i ≠ stop := by
        intro heq
        exact h stop (by omega) (by omega) hmissing
      exact ⟨hi, fun j hj hj' => hfilled j hj (by omega)⟩

lemma rollBack_keyImages :
    ∀ ki ∈ setKi, (rollBackRCTIndex S last expect setKi).rctKeyImage ki = none := by
  intro ki hki
  simp [rollBackRCTIndex, eraseAll_apply, hki]

/-- What is above `last` is gone, what is below is kept. -/
structure Repaired (old new : CBlockTreeDB) (last expect : Int) (setKi : List CCmpPubKey) :
    Prop where
  records : ∀ i, last < i → i ≤ expect → new.rctOutput i = none
  links : ∀ pk i, last < i → i ≤ expect → new.rctOutputLink pk ≠ some i
  keptRecords : ∀ i, i ≤ last → new.rctOutput i = old.rctOutput i
  keptLinks : ∀ pk i, i ≤ last → (new.rctOutputLink pk = some i ↔ old.rctOutputLink pk = some i)
  keyImages : ∀ ki ∈ setKi, new.rctKeyImage ki = none

/-- The scans come to every record of the range, every link into it has the key of a record they
come to, and no such record has the key of a link below. -/
structure Repairable (db : CBlockTreeDB) (last expect : Int) : Prop where
  reached : ∀ i, last < i → i ≤ expect → db.rctOutput i ≠ none → Scanned db last expect i
  named : ∀ pk n, db.rctOutputLink pk = some n → last < n → n ≤ expect →
    ∃ i ao, Scanned db last expect i ∧ db.rctOutput i = some ao ∧ ao.pubkey = pk
  above : ∀ i ao n, Scanned db last expect i → db.rctOutput i = some ao →
    db.rctOutputLink ao.pubkey = some n → last < n

/-- Records and links name each other. -/
def Matched (db : CBlockTreeDB) : Prop :=
  ∀ pk n, db.rctOutputLink pk = some n ↔ ∃ ao, db.rctOutput n = some ao ∧ ao.pubkey = pk

/-- Where records and links name each other, only a record between two missing ones is in the
way. -/
lemma repairable_iff_of_matched {db : CBlockTreeDB} {last expect : Int} (hmatched : Matched db) :
    Repairable db last expect ↔
      ∀ i, last < i → i ≤ expect → db.rctOutput i ≠ none → Scanned db last expect i := by
  refine ⟨Repairable.reached, fun hreached => ⟨hreached, fun pk n hlink hlast hexpect => ?_,
    fun i ao n hscan hao hlink => ?_⟩⟩
  · obtain ⟨ao, hao, hpk⟩ := (hmatched pk n).mp hlink
    exact ⟨n, ao, hreached n hlast hexpect (by simp [hao]), hao, hpk⟩
  · have hi := (hmatched ao.pubkey i).mpr ⟨ao, hao, rfl⟩
    obtain rfl := Option.some.inj (hi.symm.trans hlink)
    exact hscan.1

lemma repaired_iff_repairable (hdb : Whole S.toCBlockTreeDB) :
    Repaired S.toCBlockTreeDB (rollBackRCTIndex S last expect setKi) last expect setKi ↔
      Repairable S.toCBlockTreeDB last expect := by
  have hrm := rollBack_removes S last expect setKi hdb
  constructor
  · intro h
    refine ⟨fun i hi hi' hsome => ?_, fun pk n hlink hlast hexpect => ?_,
      fun i ao n hscan hao hlink => ?_⟩
    · by_contra hnot
      exact hsome ((hrm.kept i hnot).symm.trans (h.records i hi hi'))
    · by_contra hnone
      push Not at hnone
      exact h.links pk n hlast hexpect ((hrm.linked pk hnone).trans hlink)
    · by_contra hle
      have hkept := (h.keptLinks ao.pubkey n (by omega)).mpr hlink
      cases (hrm.unlinked i ao hscan hao).symm.trans hkept
  · intro h
    refine ⟨fun i hi hi' => ?_, fun pk i hi hi' hlink => ?_, fun i hi => ?_, fun pk i hi => ?_,
      rollBack_keyImages S last expect setKi⟩
    · by_cases hscan : Scanned S.toCBlockTreeDB last expect i
      · exact hrm.gone i hscan
      · rw [hrm.kept i hscan]
        by_contra hsome
        exact hscan (h.reached i hi hi' hsome)
    · rcases hrm.link_cases pk with ⟨-, hnone⟩ | hsame
      · cases hnone.symm.trans hlink
      · obtain ⟨j, ao, hscan, hao, rfl⟩ := h.named pk i (hsame.symm.trans hlink) hi hi'
        cases (hrm.unlinked j ao hscan hao).symm.trans hlink
    · exact hrm.kept i fun hscan => by
        have := hscan.1
        omega
    · rcases hrm.link_cases pk with ⟨⟨j, ao, hscan, hao, rfl⟩, hnone⟩ | hsame
      · have hold : S.rctOutputLink ao.pubkey ≠ some i := by
          intro hlink
          have := h.above j ao i hscan hao hlink
          omega
        simp [hnone, hold]
      · rw [hsame]

/-- On records whose keys are written whole, the repair is complete exactly on a repairable range,
and where records and links name each other, exactly when no record of it lies between two missing
ones. -/
theorem repaired_iff (S : StoredDB) (hdb : Whole S.toCBlockTreeDB) (last expect : Int)
    (setKi : List CCmpPubKey) :
    (Repaired S.toCBlockTreeDB (rollBackRCTIndex S last expect setKi) last expect setKi ↔
        Repairable S.toCBlockTreeDB last expect) ∧
      (Matched S.toCBlockTreeDB →
        (Repaired S.toCBlockTreeDB (rollBackRCTIndex S last expect setKi) last expect setKi ↔
          ∀ i, last < i → i ≤ expect → S.rctOutput i ≠ none →
            Scanned S.toCBlockTreeDB last expect i)) := by
  have hiff := repaired_iff_repairable S last expect setKi hdb
  exact ⟨hiff, fun hmatched => hiff.trans (repairable_iff_of_matched hmatched)⟩

section

def recordOf (pk : CCmpPubKey) : CAnonOutput := ⟨pk, 0, ⟨0, 0⟩, 0, 0⟩

def isolated : StoredDB where
  rctOutput i := if i = 2 then some (recordOf 2) else none
  rctOutputLink pk := if pk = 2 then some 2 else none
  rctKeyImage _ := none
  top := 2
  bounded i hi := if_neg (by omega)

def doubled : StoredDB where
  rctOutput i := if i = 1 ∨ i = 2 then some (recordOf 2) else none
  rctOutputLink pk := if pk = 2 then some 1 else none
  rctKeyImage _ := none
  top := 2
  bounded i hi := if_neg (by omega)

/-- The second record has no key. -/
def keyless : StoredDB where
  rctOutput i := if i = 1 then some (recordOf 2) else if i = 2 then some (recordOf 0xFF) else none
  rctOutputLink pk := if pk = 2 then some 1 else if pk = 0xFF then some 2 else none
  rctKeyImage _ := none
  top := 2
  bounded i hi := by rw [if_neg (by omega), if_neg (by omega)]

lemma isolated_whole : Whole isolated.toCBlockTreeDB := by
  intro i ao hao
  unfold isolated at hao
  dsimp only at hao
  split at hao
  · rw [← Option.some.inj hao]
    rfl
  · cases hao

/-- From 1 on, the one record is reached and the repair is complete. -/
theorem repaired_iff_isolated :
    Repaired isolated.toCBlockTreeDB (rollBackRCTIndex isolated 1 3 [5]) 1 3 [5] := by
  have hmatched : Matched isolated.toCBlockTreeDB := by
    intro pk n
    by_cases hpk : pk = 2 <;> by_cases hn : n = 2 <;>
      simp [isolated, recordOf, hpk, hn, eq_comm]
  refine ((repaired_iff isolated isolated_whole 1 3 [5]).2 hmatched).mpr fun i hi hi' hsome => ?_
  have htwo : i = 2 := by
    by_contra hne
    exact hsome (if_neg hne)
  subst htwo
  refine ⟨hi, .inl fun j hj hj' => ?_⟩
  obtain rfl : j = 2 := by omega
  exact hsome

/-- The isolated record stays with its link, the link of a valid record goes with its double, and
the link of a record without a key stays although the record goes. -/
theorem rollBack_leaves_and_breaks :
    (rollBackRCTIndex isolated 0 3 []).rctOutput 2 = some (recordOf 2) ∧
      (rollBackRCTIndex isolated 0 3 []).rctOutputLink 2 = some 2 ∧
      ¬ Repaired isolated.toCBlockTreeDB (rollBackRCTIndex isolated 0 3 []) 0 3 [] ∧
      doubled.rctOutputLink 2 = some 1 ∧ (rollBackRCTIndex doubled 1 2 []).rctOutputLink 2 = none ∧
      ¬ Repaired doubled.toCBlockTreeDB (rollBackRCTIndex doubled 1 2 []) 1 2 [] ∧
      (rollBackRCTIndex keyless 0 2 []).rctOutputLink 0xFF = some 2 ∧
      ¬ Repaired keyless.toCBlockTreeDB (rollBackRCTIndex keyless 0 2 []) 0 2 [] := by
  have hstays : (rollBackRCTIndex isolated 0 3 []).rctOutput 2 = some (recordOf 2) := by decide
  have hgoes : (rollBackRCTIndex doubled 1 2 []).rctOutputLink 2 = none := by decide
  have hlink : (rollBackRCTIndex keyless 0 2 []).rctOutputLink 0xFF = some 2 := by decide
  refine ⟨hstays, by decide, fun h => ?_, by decide, hgoes, fun h => ?_, hlink, fun h => ?_⟩
  · cases (h.records 2 (by decide) (by decide)).symm.trans hstays
  · have hkept := (h.keptLinks 2 1 le_rfl).mpr (by decide)
    cases hgoes.symm.trans hkept
  · exact h.links 0xFF 2 (by decide) le_rfl hlink

end

end RingRepair
