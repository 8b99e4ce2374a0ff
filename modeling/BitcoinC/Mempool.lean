import BitcoinC.ToyEnvironment

/-!
# What block connection reads from the mempool

`ConnectBlock` reaches the mempool twice: `VerifyMLSAG` rejects a key image that
the mempool holds for another transaction, and `CheckProofOfStake` may find a
further coinstake input there.
-/

namespace Mempool

open Primitives Environment Verdicts TxVerify Anon Coins CheckInputs Kernel Blocks ConnectBlock
  RingRecords

/-- The mempool holds the key image for another transaction. -/
def clash (pool : CTxMemPool) (txhash : Uint256) (ki : CCmpPubKey) : Bool :=
  (pool.mapKeyImages ki).any (· ≠ txhash)

lemma clash_eq_false_iff (pool : CTxMemPool) (txhash : Uint256) (ki : CCmpPubKey) :
    clash pool txhash ki = false ↔ OwnRecord pool.mapKeyImages txhash ki := by
  rw [← Bool.not_eq_true, clash, not_any_ne_iff]
  rfl

section

variable (E : Env) (G : NodeState) (C : BlockContext)

/-- The key images of a transaction are looked up, since scripts are checked and the cache does not
answer, and one of them is held for another transaction. -/
def clashes (pool : CTxMemPool) (y : BlockState × CTransaction) : Bool :=
  C.fScriptChecks && !cacheWith G y.1.inserted (cacheEntry E y.2 (checkMode E C).flags) &&
    (txKeyImages y.2).any (clash pool (E.txHash y.2))

/-- The transactions that a connection with an empty mempool gets through `CheckInputs` for, with
the state in which it meets them. -/
def reached : BlockState → List (CTransaction × Nat) → List (BlockState × CTransaction)
  | _, [] => []
  | s, x :: xs =>
    match applyTx E { G with mempool := .empty } C s x with
    | .error _ => []
    | .ok m =>
      (s, x.1) :: match indexRingCT E G C m x.1 with
        | .error _ => []
        | .ok t => reached t xs

/-- The place of the first transaction whose key images clash with the mempool, among those that are
reached at all. -/
def firstClash (view : CCoinsViewCache) (b : CBlock) (pool : CTxMemPool) : Option Nat :=
  match checkBefore E { G with mempool := .empty } C view b with
  | .error _ => none
  | .ok _ => (reached E G C { view } b.vtx.zipIdx).findIdx? (clashes E G C pool)

variable (pool M M' : CTxMemPool)

lemma txKeyImages_eq_nil (tx : CTransaction) (h : tx.anonInputs = []) : txKeyImages tx = [] := by
  rw [txKeyImages, h]
  rfl

lemma checkInputs_ok_iff_pool (db : CBlockTreeDB) (coins : CoinMap) (cache : ScriptCache)
    (tx : CTransaction) (m : CheckMode) (q : InputsResult) (hanon : m.fAnonChecks = true) :
    checkInputs E db pool coins cache tx m = .ok q ↔
      checkInputs E db .empty coins cache tx m = .ok q ∧
        (m.fScriptChecks = true → cache (cacheEntry E tx m.flags) = false →
          ∀ ki ∈ txKeyImages tx, clash pool (E.txHash tx) ki = false) := by
  unfold checkInputs
  split
  · rename_i hskip
    refine (and_iff_left fun hon _ ki hki => ?_).symm
    rcases hskip with hcb | hoff
    · rw [txKeyImages_eq_nil tx (tx.anonInputs_of_isCoinBase hcb)] at hki
      cases hki
    · cases hon.symm.trans hoff
  · rename_i hskip
    have hon : m.fScriptChecks = true := by simpa using (not_or.mp hskip).2
    split
    · rename_i hhit
      exact (and_iff_left fun _ hmiss => by cases hmiss.symm.trans hhit).symm
    · rename_i hmiss
      rw [checkInputsMiss_ok_iff, checkInputsMiss_ok_iff, verifyMLSAG_ok_iff_pool E db pool]
      simp only [hon, hanon, Bool.eq_false_iff.mpr hmiss, forall_const, clash_eq_false_iff]
      constructor
      · rintro ⟨hchecks, hverify, hins⟩
        refine ⟨⟨hchecks, fun hne => (hverify hne).1, hins⟩, fun ki hki => ?_⟩
        exact (hverify fun hnil => by rw [txKeyImages_eq_nil tx hnil] at hki; cases hki).2 ki hki
      · rintro ⟨⟨hchecks, hverify, hins⟩, hown⟩
        exact ⟨hchecks, fun hne => ⟨hverify hne, hown⟩, hins⟩

lemma clashes_eq_false_iff (s : BlockState) (tx : CTransaction) :
    clashes E G C pool (s, tx) = false ↔ (C.fScriptChecks = true →
      cacheWith G s.inserted (cacheEntry E tx (checkMode E C).flags) = false →
        ∀ ki ∈ txKeyImages tx, clash pool (E.txHash tx) ki = false) := by
  rw [← Bool.not_eq_true, clashes]
  simp only [Bool.and_eq_true, Bool.not_eq_true', List.any_eq_true, not_and, not_exists,
    Bool.not_eq_true, and_imp]

lemma tallyTx_inserted (s t : BlockState) (tx : CTransaction) (h : tallyTx C s tx = .ok t) :
    t.inserted = s.inserted := by
  unfold tallyTx at h
  split at h
  · rw [← Except.ok.inj h]
  · simp only [bind_ok_iff, pure_ok_iff] at h
    obtain ⟨r, -, -, -, -, -, -, -, rfl⟩ := h
    unfold addFee
    split <;> rfl

lemma spendTx_ok_iff_pool (s t : BlockState) (tx : CTransaction) :
    spendTx E { G with mempool := pool } C s tx = .ok t ↔
      spendTx E { G with mempool := .empty } C s tx = .ok t ∧
        clashes E G C pool (s, tx) = false := by
  rw [clashes_eq_false_iff]
  unfold spendTx
  split
  · rename_i hcb
    refine (and_iff_left fun _ _ ki hki => ?_).symm
    rw [txKeyImages_eq_nil tx (tx.anonInputs_of_isCoinBase hcb)] at hki
    cases hki
  · have hinputs := checkInputs_ok_iff_pool E pool G.db s.view.coins (cacheWith G s.inserted) tx
      (checkMode E C)
    simp only [bind_ok_iff]
    constructor
    · rintro ⟨q, hq, hrest⟩
      obtain ⟨hq', hown⟩ := (hinputs q rfl).mp hq
      exact ⟨⟨q, hq', hrest⟩, hown⟩
    · rintro ⟨⟨q, hq, hrest⟩, hown⟩
      exact ⟨q, (hinputs q rfl).mpr ⟨hq, hown⟩, hrest⟩

/-- A mempool stands in the way of a transaction exactly when it clashes with its key images. -/
lemma applyTx_ok_iff_pool (s t : BlockState) (x : CTransaction × Nat) :
    applyTx E { G with mempool := pool } C s x = .ok t ↔
      applyTx E { G with mempool := .empty } C s x = .ok t ∧
        clashes E G C pool (s, x.1) = false := by
  have hsame : ∀ m c, tallyTx C s x.1 = .ok m → countSigOps E C m x = .ok c →
      clashes E G C pool (c, x.1) = clashes E G C pool (s, x.1) := by
    intro m c hm hc
    obtain ⟨n, rfl⟩ := countSigOps_ok E C m _ x hc
    simp only [clashes, tallyTx_inserted C s m x.1 hm]
  simp only [applyTx, bind_ok_iff]
  constructor
  · rintro ⟨m, hm, c, hc, hspend⟩
    obtain ⟨hspend', hclear⟩ := (spendTx_ok_iff_pool E G C pool c t x.1).mp hspend
    exact ⟨⟨m, hm, c, hc, hspend'⟩, (hsame m c hm hc).symm.trans hclear⟩
  · rintro ⟨⟨m, hm, c, hc, hspend⟩, hclear⟩
    exact ⟨m, hm, c, hc, (spendTx_ok_iff_pool E G C pool c t x.1).mpr
      ⟨hspend, (hsame m c hm hc).trans hclear⟩⟩

lemma connectTx_of_error (s : BlockState) (x : CTransaction × Nat) (h : ∀ m,
      applyTx E { G with mempool := pool } C s x ≠ .ok m) :
    ∃ f, connectTx E { G with mempool := pool } C s x = .error f ∧ f.view = s.view := by
  rw [connectTx]
  cases happly : applyTx E { G with mempool := pool } C s x with
  | error e => exact ⟨_, rfl, rfl⟩
  | ok m => exact absurd happly (h m)

lemma connectTx_of_ok (s m : BlockState) (x : CTransaction × Nat)
    (h : applyTx E { G with mempool := pool } C s x = .ok m) :
    connectTx E { G with mempool := pool } C s x = indexRingCT E G C m x.1 := by
  rw [connectTx, h]
  rfl

lemma pushKeyImages_error (txhash : Uint256) (view : CCoinsViewCache) (vin : List CTxIn)
    (f : Failure) (h : loop (pushKeyImages txhash) view vin = .error f) :
    view.keyImages.length ≤ f.view.keyImages.length := by
  obtain ⟨before, txin, after, m, rfl, hbefore, hstep⟩ := (loop_error_iff _ _ _ _).mp h
  have hm : view.keyImages.length ≤ m.keyImages.length := by
    obtain ⟨-, rfl⟩ := (pushKeyImages_loop_ok_iff _ _ _ _).mp hbefore
    simp
  unfold pushKeyImages at hstep
  split at hstep
  · split at hstep
    · rw [← Except.error.inj hstep]
      exact hm
    · cases hstep
  · cases hstep

lemma pushOutputs_error (txhash : Uint256) (view : CCoinsViewCache) (xs : List (CTxOutBase × Nat))
    (f : Failure) (h : loop (pushOutput E G C txhash) view xs = .error f) :
    f.view.keyImages = view.keyImages := by
  obtain ⟨before, x, after, m, -, hbefore, hstep⟩ := (loop_error_iff _ _ _ _).mp h
  have hm : m.keyImages = view.keyImages := by rw [pushOutputs_ok E G C _ _ _ _ hbefore]
  have hview : f.view = m := by
    simp only [pushOutput] at hstep
    split at hstep
    · cases hstep
    · split at hstep
      · cases hstep
      · split at hstep
        · rw [← Except.error.inj hstep, duplicateOutput]
          split
          · rfl
          · split <;> rfl
        · split at hstep
          · rw [← Except.error.inj hstep]
            rfl
          · cases hstep
  rw [hview, hm]

/-- A failure leaves no fewer key images than there were, and those of the transaction as well once
they are well formed. -/
lemma indexRingCT_error (m : BlockState) (tx : CTransaction) (f : Failure)
    (h : indexRingCT E G C m tx = .error f) :
    m.view.keyImages.length ≤ f.view.keyImages.length ∧
      ((∀ txin ∈ tx.anonInputs, (anonKeyImages txin).isSome) →
        f.view.keyImages = m.view.keyImages ++ keyImageRecords E tx) := by
  have hstart : (startIndex C m.view).keyImages = m.view.keyImages := by rw [startIndex_frame]
  unfold indexRingCT at h
  split at h
  · rcases (bind_error_iff _ _ _).mp h with hkis | ⟨view, hview, hrest⟩
    · have hle := pushKeyImages_error _ _ _ _ hkis
      rw [hstart] at hle
      refine ⟨hle, fun hsome => ?_⟩
      have hok := (pushKeyImages_loop_ok_iff (E.txHash tx) tx.vin (startIndex C m.view) _).mpr
        ⟨fun txin hmem hanon => hsome txin (List.mem_filter.mpr ⟨hmem, decide_eq_true hanon⟩), rfl⟩
      cases hkis.symm.trans hok
    · rcases (bind_error_iff _ _ _).mp hrest with houts | ⟨_, _, hpure⟩
      · obtain ⟨-, rfl⟩ := (pushKeyImages_loop_ok_iff _ _ _ _).mp hview
        have hkis : f.view.keyImages = m.view.keyImages ++ keyImageRecords E tx := by
          rw [pushOutputs_error E G C _ _ _ f houts, ← hstart]
          rfl
        exact ⟨by rw [hkis, List.length_append]; omega, fun _ => hkis⟩
      · exact absurd hpure (pure_ne_error _ _)
  · cases h

lemma connectTxs_error (xs : List (CTransaction × Nat)) (s : BlockState) (f : Failure)
    (h : loop (connectTx E G C) s xs = .error f) :
    s.view.keyImages.length ≤ f.view.keyImages.length := by
  obtain ⟨before, x, after, m, -, hbefore, hstep⟩ := (loop_error_iff _ _ _ _).mp h
  have hm : s.view.keyImages.length ≤ m.view.keyImages.length := by
    rw [(connectTxs_keyImages E G C before s m hbefore).1, List.length_append]
    omega
  rcases (bind_error_iff _ _ _).mp hstep with happly | ⟨n, hn, hindex⟩
  · cases hrun : applyTx E G C m x with
    | error e =>
      rw [hrun] at happly
      rw [← Except.error.inj happly]
      exact hm
    | ok n =>
      rw [hrun] at happly
      cases happly
  · rw [relabel_ok_iff] at hn
    obtain ⟨-, -, hview, -⟩ := applyTx_coins E G C m n x hn
    have hle := (indexRingCT_error E G C n x.1 f hindex).1
    rw [hview] at hle
    exact hm.trans hle

/-- A transaction that is asked about and passes shows well-formed key images. -/
lemma keyImages_of_clash {G : NodeState} {C : BlockContext} {s m : BlockState}
    {x : CTransaction × Nat} {pool : CTxMemPool}
    (hm : applyTx E { G with mempool := .empty } C s x = .ok m)
    (h : clashes E G C pool (s, x.1) = true) :
    txKeyImages x.1 ≠ [] ∧ ∀ txin ∈ x.1.anonInputs, (anonKeyImages txin).isSome := by
  simp only [clashes, Bool.and_eq_true, Bool.not_eq_true', List.any_eq_true] at h
  obtain ⟨⟨hscripts, hmiss⟩, ki, hki, -⟩ := h
  have hne : x.1.anonInputs ≠ [] := by
    intro hnil
    rw [txKeyImages_eq_nil x.1 hnil] at hki
    cases hki
  refine ⟨List.ne_nil_of_mem hki, fun txin htxin => ?_⟩
  have hcb : ¬ x.1.isCoinBase := fun hcb => hne (x.1.anonInputs_of_isCoinBase hcb)
  obtain ⟨n, r, q, u, -, -, hq, -, -⟩ := applyTx_ok E _ C s m x hcb hm
  have hverify := checkInputs_verified E G.db .empty _ _ x.1 (checkMode E C) q hscripts
    rfl hmiss hne hq
  obtain ⟨fee, plain, t, -, -, -, hloop, -⟩ := (verifyMLSAG_ok_iff E G.db .empty x.1 ()).mp hverify
  exact ((verifyInputs_keyImages E G.db .empty _ _ _ _ _ _ List.nodup_nil hloop).2 txin
    (List.mem_of_mem_filter htxin)).2.1

section

variable {G C}
variable {s m : BlockState} {x : CTransaction × Nat} (xs : List (CTransaction × Nat))
  (g : BlockState → Except Failure Connected) (hg : ∀ t f, g t = .error f → f.view = t.view)

include hg

/-- Once a transaction with key images is connected, no failure leaves the view from before it. -/
lemma outcome_ne_of_passed (hm : applyTx E { G with mempool := pool } C s x = .ok m)
    (hkis : txKeyImages x.1 ≠ []) (hsome : ∀ txin ∈ x.1.anonInputs, (anonKeyImages txin).isSome) :
    relabel Failure.view (loop (connectTx E { G with mempool := pool } C) s (x :: xs) >>= g) ≠
      .error s.view := by
  obtain ⟨-, -, hview, -⟩ := applyTx_coins E _ C s m x hm
  have hkeep : m.view.keyImages = s.view.keyImages := by rw [hview]
  have hrecords : 0 < (keyImageRecords E x.1).length := by
    rw [keyImageRecords, List.length_map]
    exact List.length_pos_of_ne_nil hkis
  have hlater : ∀ f, loop (connectTx E { G with mempool := pool } C) s (x :: xs) >>= g = .error f →
      s.view.keyImages.length < f.view.keyImages.length := by
    intro f hf
    rw [loop, connectTx_of_ok E G C pool s m x hm] at hf
    rcases (bind_error_iff _ _ _).mp hf with hloop | ⟨t, ht, hgt⟩
    · rcases (bind_error_iff _ _ _).mp hloop with hindex | ⟨t, ht, hrest⟩
      · rw [(indexRingCT_error E G C m x.1 f hindex).2 hsome, hkeep, List.length_append]
        omega
      · have hfirst := (connectTx_keyImages E { G with mempool := pool } C s t x
          ((connectTx_of_ok E G C pool s m x hm).trans ht)).1
        have hle := connectTxs_error E _ C xs t f hrest
        rw [hfirst, List.length_append] at hle
        omega
    · have hall := (connectTxs_keyImages E { G with mempool := pool } C (x :: xs) s t (by
        rw [loop, connectTx_of_ok E G C pool s m x hm]
        exact ht)).1
      rw [hg t f hgt, hall, List.map_cons, List.flatMap_cons, List.length_append,
        List.length_append]
      omega
  intro h
  cases hrun : loop (connectTx E { G with mempool := pool } C) s (x :: xs) >>= g with
  | ok c =>
    rw [hrun] at h
    cases h
  | error f =>
    rw [hrun] at h
    have hlt := hlater f hrun
    rw [show f.view = s.view from Except.error.inj h] at hlt
    exact absurd hlt (lt_irrefl _)

omit hg in
lemma map_succ_ne_zero (o : Option Nat) : o.map (· + 1) ≠ some 0 := by
  cases o <;> simp

omit hg in
/-- A transaction that is not applied ends the block with the view from before it. -/
lemma outcome_of_stopped (hfails : ∀ m, applyTx E { G with mempool := pool } C s x ≠ .ok m) :
    relabel Failure.view (loop (connectTx E { G with mempool := pool } C) s (x :: xs) >>= g) =
      .error s.view := by
  obtain ⟨f, hf, hview⟩ := connectTx_of_error E G C pool s x hfails
  rw [loop, hf, ← hview]
  rfl

omit hg in
lemma outcome_of_clash (h : clashes E G C pool (s, x.1) = true) :
    relabel Failure.view (loop (connectTx E { G with mempool := pool } C) s (x :: xs) >>= g) =
      .error s.view := by
  refine outcome_of_stopped E pool xs g fun m hm => ?_
  cases h.symm.trans ((applyTx_ok_iff_pool E G C pool s m x).mp hm).2

/-- If one mempool clashes and the other does not, the block does not end the same way. -/
lemma outcome_ne_of_clash (hm : applyTx E { G with mempool := .empty } C s x = .ok m)
    (h : clashes E G C M (s, x.1) = true) (h' : clashes E G C M' (s, x.1) = false) :
    relabel Failure.view (loop (connectTx E { G with mempool := M } C) s (x :: xs) >>= g) ≠
      relabel Failure.view (loop (connectTx E { G with mempool := M' } C) s (x :: xs) >>= g) := by
  obtain ⟨hkis, hsome⟩ := keyImages_of_clash E hm h
  rw [outcome_of_clash E M xs g h]
  exact (outcome_ne_of_passed E M' xs g hg
    ((applyTx_ok_iff_pool E G C M' s m x).mpr ⟨hm, h'⟩) hkis hsome).symm

/-- From one state on, two mempools give the same outcome exactly when they clash first at the same
place. -/
lemma outcome_eq_iff (s : BlockState) :
    relabel Failure.view (loop (connectTx E { G with mempool := M } C) s xs >>= g) =
        relabel Failure.view (loop (connectTx E { G with mempool := M' } C) s xs >>= g) ↔
      (reached E G C s xs).findIdx? (clashes E G C M) =
        (reached E G C s xs).findIdx? (clashes E G C M') := by
  induction xs generalizing s with
  | nil =>
    rw [loop_nil, loop_nil]
    exact iff_of_true rfl rfl
  | cons x xs ih =>
    have hpool := fun pool t => applyTx_ok_iff_pool E G C pool s t x
    cases happly : applyTx E { G with mempool := .empty } C s x with
    | error e =>
      have hfails : ∀ pool m, applyTx E { G with mempool := pool } C s x ≠ .ok m := by
        intro pool m hm
        cases happly.symm.trans ((hpool pool m).mp hm).1
      rw [outcome_of_stopped E M xs g (hfails M), outcome_of_stopped E M' xs g (hfails M'), reached,
        happly]
      exact iff_of_true rfl rfl
    | ok m =>
      have hreached : reached E G C s (x :: xs) = (s, x.1) :: match indexRingCT E G C m x.1 with
          | .error _ => []
          | .ok t => reached E G C t xs := by rw [reached, happly]
      rw [hreached, List.findIdx?_cons, List.findIdx?_cons]
      cases hM : clashes E G C M (s, x.1) <;> cases hM' : clashes E G C M' (s, x.1)
      · -- neither clashes: both go on alike
        rw [loop, loop, connectTx_of_ok E G C M s m x ((hpool M m).mpr ⟨happly, hM⟩),
          connectTx_of_ok E G C M' s m x ((hpool M' m).mpr ⟨happly, hM'⟩)]
        cases indexRingCT E G C m x.1 with
        | error f =>
          rw [error_bind, error_bind]
          exact iff_of_true rfl rfl
        | ok t =>
          rw [ok_bind, ok_bind]
          refine (ih t).trans ⟨fun h => congrArg (Option.map (· + 1)) h, fun h => ?_⟩
          exact Option.map_injective (fun _ _ => Nat.succ.inj) h
      · exact iff_of_false (outcome_ne_of_clash E M' M xs g hg happly hM' hM).symm
          (map_succ_ne_zero _)
      · exact iff_of_false (outcome_ne_of_clash E M M' xs g hg happly hM hM')
          (map_succ_ne_zero _).symm
      · rw [outcome_of_clash E M xs g hM, outcome_of_clash E M' xs g hM']
        exact iff_of_true rfl rfl

end

/-- The proof of stake does not depend on the mempool when the further inputs are unspent at the
tip. -/
lemma checkProofOfStake_congr (branch : List CBlockIndex) (tx : CTransaction)
    (nTime nBits : UInt32) (h : ∀ txin ∈ tx.vin.tail, G.coinsTip txin.prevout ≠ none) :
    checkProofOfStake E { G with mempool := M } branch tx nTime nBits =
      checkProofOfStake E { G with mempool := M' } branch tx nTime nBits := by
  have hextra : ∀ (pk : Bytes), ∀ txin ∈ tx.vin.tail, ∀ amount,
      addExtraInput { G with mempool := M } pk amount txin =
        addExtraInput { G with mempool := M' } pk amount txin := by
    intro pk txin hmem amount
    obtain ⟨coin, hcoin⟩ := Option.ne_none_iff_exists'.mp (h txin hmem)
    simp only [addExtraInput, extraInput, hcoin]
  have hcold : ∀ k, checkColdStake { G with mempool := M } tx k =
      checkColdStake { G with mempool := M' } tx k := by
    intro k
    simp only [checkColdStake, loop_congr _ _ tx.vin.tail (hextra k.scriptPubKey)]
  simp only [checkProofOfStake, hcold]
  rfl

/-- A coinstake with an input missing from the view does not pass `CheckTxInputs`. -/
lemma applyTx_of_missing (s : BlockState) (tx : CTransaction) (n : Nat) (hcs : tx.isCoinStake)
    (hcb : ¬ tx.isCoinBase) (txin : CTxIn) (hmem : txin ∈ tx.vin)
    (hmissing : s.view.coins txin.prevout = none) (m : BlockState) :
    applyTx E G C s (tx, n) ≠ .ok m := by
  intro happly
  obtain ⟨n, r, q, u, hr, -⟩ := applyTx_ok E G C s m (tx, n) hcb happly
  obtain ⟨coin, hcoin, -⟩ := ((checkTxInputs_coinStake _ tx _ r hcs hr).1 txin hmem).2
  exact absurd (hcoin.symm.trans hmissing) (by simp)

/-- A coinstake with an input missing from the view is rejected and leaves the view as it was. -/
lemma connectBlock_of_missing (view : CCoinsViewCache) (b : CBlock) (tx : CTransaction)
    (txs : List CTransaction) (hvtx : b.vtx = tx :: txs) (hcs : tx.isCoinStake) (txin : CTxIn)
    (hmem : txin ∈ tx.vin) (hmissing : view.coins txin.prevout = none) :
    relabel Failure.view (connectBlock E { G with mempool := M } C view b) = .error view ∧
      firstClash E G C view b M = none := by
  have hstop : ∀ pool u, checkBefore E { G with mempool := pool } C view b = .ok u →
      ∀ m, applyTx E { G with mempool := pool } C { view } (tx, 0) ≠ .ok m := by
    intro pool u hbefore
    obtain ⟨-, hblock, -⟩ := checkBefore_ok E _ C view b u hbefore
    have hversion : tx.isBitcoinCVersion :=
      (checkTransaction_ok E _ _ _ _ ((checkBlock_ok E _ b () hblock).2 tx (by simp [hvtx]))).2.2.1
    exact applyTx_of_missing E _ C _ tx 0 hcs (tx.not_isCoinBase_of_isCoinStake hversion hcs)
      txin hmem hmissing
  have hlist : b.vtx.zipIdx = (tx, 0) :: txs.zipIdx 1 := by rw [hvtx, List.zipIdx_cons]
  constructor
  · unfold connectBlock
    cases hbefore : checkBefore E { G with mempool := M } C view b with
    | error e => rfl
    | ok u =>
      obtain ⟨f, hf, hview⟩ := connectTx_of_error E G C M _ _ (hstop M u hbefore)
      rw [hlist]
      show relabel Failure.view (loop _ _ _ >>= _) = _
      rw [loop, hf, ← show f.view = view from hview]
      rfl
  · unfold firstClash
    cases hbefore : checkBefore E { G with mempool := .empty } C view b with
    | error e => rfl
    | ok u =>
      dsimp only
      rw [hlist, reached]
      cases happly : applyTx E { G with mempool := .empty } C { view } (tx, 0) with
      | error e => rfl
      | ok m => exact absurd happly (hstop .empty u hbefore m)

/-- With the view of the tip, two mempools give the same outcome, that is acceptance with the same
result or rejection with the same view, exactly when the first transaction that they clash with,
among those a connection gets to without them, is the same. -/
theorem mempool_outcome (view : CCoinsViewCache) (b : CBlock) (htip : G.coinsTip = view.coins) :
    relabel Failure.view (connectBlock E { G with mempool := M } C view b) =
        relabel Failure.view (connectBlock E { G with mempool := M' } C view b) ↔
      firstClash E G C view b M = firstClash E G C view b M' := by
  by_cases hmissing : ∃ tx txs, b.vtx = tx :: txs ∧ tx.isCoinStake ∧ ∃ txin ∈ tx.vin.tail,
      view.coins txin.prevout = none
  · obtain ⟨tx, txs, hvtx, hcs, txin, hmem, hnone⟩ := hmissing
    have hboth := fun pool => connectBlock_of_missing E G C pool view b tx txs hvtx hcs txin
      (List.mem_of_mem_tail hmem) hnone
    rw [(hboth M).1, (hboth M').1, (hboth M).2, (hboth M').2]
    exact iff_of_true rfl rfl
  · push Not at hmissing
    have hbefore : ∀ pool, checkBefore E { G with mempool := pool } C view b =
        checkBefore E { G with mempool := .empty } C view b := by
      intro pool
      have hstake : checkStake E { G with mempool := pool } C b =
          checkStake E { G with mempool := .empty } C b := by
        unfold checkStake
        cases hvtx : b.vtx with
        | nil => rfl
        | cons tx txs =>
          dsimp only [List.head?_cons]
          split
          · rename_i hcs
            refine checkProofOfStake_congr E G pool .empty C.branch tx _ _ fun txin hmem => ?_
            rw [htip]
            exact hmissing tx txs hvtx hcs txin hmem
          · rfl
      simp only [checkBefore, hstake]
    rw [connectBlock, connectBlock, hbefore M, hbefore M', firstClash, firstClash]
    cases checkBefore E { G with mempool := .empty } C view b with
    | error e =>
      simp only [relabel, error_bind]
    | ok u =>
      simp only [relabel, ok_bind]
      refine outcome_eq_iff E M M' b.vtx.zipIdx _ (fun t f hf => ?_) { view }
      rcases (bind_error_iff _ _ _).mp hf with hafter | ⟨_, _, hpure⟩
      · cases hrun : checkAfter E G C b t with
        | error e =>
          change relabel _ (checkAfter E G C b t) = _ at hafter
          rw [hrun] at hafter
          rw [← Except.error.inj hafter]
          rfl
        | ok r =>
          change relabel _ (checkAfter E G C b t) = _ at hafter
          rw [hrun] at hafter
          cases hafter
      · exact absurd hpure (pure_ne_error _ _)

end

open ToyEnvironment ChainRun

def holding (ki : CCmpPubKey) : CTxMemPool :=
  ⟨fun _ => none, fun k => if k = ki then some 123 else none⟩

/-- The block at height 2 with the anon transaction of key image 77, on a node with that mempool. -/
def ringStep (pool : CTxMemPool) : ConnectStep :=
  { stepOn convertStep.pindex [stake genesisHash 2 2 [keyOutput 3 1005], ringTx 21] with
    around := { quiet with mempool := pool } }

lemma connectStep_ringStep (S : ChainState) (pool : CTxMemPool) :
    connectStep chainEnv S (ringStep pool) =
      connectBlock (withProcess chainEnv process) { S.node quiet with mempool := pool }
        (S.context (ringStep .empty)) S.view (ringStep .empty).block := rfl

theorem mempool_outcome_other_key_image :
    ∃ S, loop (connectTip chainEnv) .empty [genesisStep, convertStep] = .ok S ∧
      (connectStep chainEnv S (ringStep .empty)).toOption.isSome = true ∧
      relabel Failure.view (connectStep chainEnv S (ringStep .empty)) =
        relabel Failure.view (connectStep chainEnv S (ringStep (holding 78))) := by
  obtain ⟨S, hS, hfacts⟩ := exists_ok_of_toOption
    (loop (connectTip chainEnv) .empty [genesisStep, convertStep])
    (fun S => ((connectStep chainEnv S (ringStep .empty)).toOption.isSome,
      [.empty, holding 78].map (firstClash (withProcess chainEnv process) (S.node quiet)
        (S.context (ringStep .empty)) S.view (ringStep .empty).block)))
    (true, [none, none]) (by decide +kernel)
  simp only [Prod.mk.injEq, List.map_cons, List.map_nil, List.cons.injEq, and_true] at hfacts
  obtain ⟨hok, hfirst, hfirst'⟩ := hfacts
  refine ⟨S, hS, hok, ?_⟩
  rw [connectStep_ringStep, connectStep_ringStep]
  exact (mempool_outcome (withProcess chainEnv process) (S.node quiet)
    (S.context (ringStep .empty)) .empty
    (holding 78) S.view (ringStep .empty).block rfl).mpr (hfirst.trans hfirst'.symm)

/-- The same block on the same chain is accepted with an empty mempool and rejected with a mempool
that holds its key image for another transaction. -/
theorem mempool_decides :
    ∃ S, loop (connectTip chainEnv) .empty [genesisStep, convertStep] = .ok S ∧
      (connectStep chainEnv S (ringStep .empty)).toOption.isSome = true ∧
      (connectStep chainEnv S (ringStep (holding 77))).toOption.isSome = false := by
  obtain ⟨S, hS, hdiffer⟩ := exists_ok_of_toOption
    (loop (connectTip chainEnv) .empty [genesisStep, convertStep])
    (fun S => ((connectStep chainEnv S (ringStep .empty)).toOption.isSome,
      (connectStep chainEnv S (ringStep (holding 77))).toOption.isSome)) (true, false)
    (by decide +kernel)
  exact ⟨S, hS, Prod.mk.inj hdiffer⟩

end Mempool
