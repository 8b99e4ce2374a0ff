import BitcoinC.KeyImages
import BitcoinC.PoolRemovals

/-!
# The mempool's key images

`mapKeyImages` is filled at the end of an acceptance, after the new entry is in
the pool, and emptied entry by entry in `removeUnchecked`.
-/

namespace PoolKeyImages

open Primitives Encoding Environment Verdicts TxVerify Anon CheckInputs ConnectBlock ChainRun
  TxMempool TxMempool.MemPool PoolLinks PoolAcceptance PoolRemovals List Option

lemma stackKeyImages_eq (txin : CTxIn) (h : (anonKeyImages txin).isSome) :
    stackKeyImages txin = anonKeyImages txin := by
  unfold anonKeyImages at h ⊢
  split at h
  · rename_i v hdata
    unfold stackKeyImages
    rw [hdata]
    rfl
  · cases h

/-- Without anon inputs, or once the ring signatures passed, mempool and block connection read the
same key images. -/
lemma stackTxKeyImages_eq (tx : CTransaction)
    (h : ∀ txin ∈ tx.anonInputs, (anonKeyImages txin).isSome) :
    stackTxKeyImages tx = txKeyImages tx := by
  unfold stackTxKeyImages txKeyImages
  rw [flatMap_congr fun txin hmem => by rw [stackKeyImages_eq txin (h txin hmem)]]

section

variable (E : Env)
variable (db : CBlockTreeDB) (pool : CTxMemPool)

lemma verifyMLSAG_shaped (tx : CTransaction) (r : Unit) (h : verifyMLSAG E db pool tx = .ok r) :
    ∀ txin ∈ tx.anonInputs, (anonKeyImages txin).isSome := by
  obtain ⟨fee, plain, s, -, -, -, hloop, -⟩ := (verifyMLSAG_ok_iff E db pool tx r).mp h
  intro txin hmem
  exact ((verifyInputs_keyImages E db pool _ _ _ _ _ _ nodup_nil hloop).2 txin
    (mem_filter.mp hmem).1).2.1

lemma checkInputs_inserted_eq (coins : CoinMap) (cache : ScriptCache) (tx : CTransaction)
    (m : CheckMode) (q : InputsResult) (k : Uint256)
    (h : checkInputs E db pool coins cache tx m = .ok q) (hk : q.inserted = some k) :
    k = cacheEntry E tx m.flags := by
  unfold checkInputs at h
  split at h
  · rw [← Except.ok.inj h] at hk
    cases hk
  · split at h
    · rw [← Except.ok.inj h] at hk
      cases hk
    · rw [((checkInputsMiss_ok_iff E db pool coins tx m q).mp h).2.2] at hk
      split at hk
      · exact (some.inj hk).symm
      · cases hk

/-- The map sends the key images of the entries with the property to their txids, and the other
entries show key images that are not in the map. -/
structure KeyImagesOf (S : MemPool) (counted : Uint256 → Prop) : Prop where
  linked : Linked S
  ids : ∀ h ∈ S.ids, E.txHash (S.entry h).tx = h
  shaped : ∀ h ∈ S.ids, stackTxKeyImages (S.entry h).tx = txKeyImages (S.entry h).tx
  recorded : ∀ ki h, S.mapKeyImages ki = some h ↔
    h ∈ S.ids ∧ counted h ∧ ki ∈ txKeyImages (S.entry h).tx
  unrecorded : ∀ h ∈ S.ids, ¬ counted h → ∀ ki ∈ txKeyImages (S.entry h).tx,
    S.mapKeyImages ki = none

lemma keyImagesOf_empty : KeyImagesOf E .empty fun _ => True where
  linked := linked_empty
  ids _ h := absurd h not_mem_nil
  shaped _ h := absurd h not_mem_nil
  recorded _ _ := ⟨fun h => absurd h (some_ne_none _).symm, fun h => absurd h.1 not_mem_nil⟩
  unrecorded _ h := absurd h not_mem_nil

variable {E} {S : MemPool} {counted : Uint256 → Prop}
variable {S' : MemPool} (m : CCmpPubKey → Option Uint256) (cache : ScriptCache) (a : Acceptance)
  (txhash : Uint256) (r : Option Uint256)

lemma KeyImagesOf.congr (h : KeyImagesOf E S counted) (hlinked : Linked S') (hids : S'.ids = S.ids)
    (htx : ∀ v, (S'.entry v).tx = (S.entry v).tx) (hmap : S'.mapKeyImages = S.mapKeyImages) :
    KeyImagesOf E S' counted := by
  refine ⟨hlinked, ?_, ?_, ?_, ?_⟩
  · simpa only [hids, htx] using h.ids
  · simpa only [hids, htx] using h.shaped
  · simpa only [hids, htx, hmap] using h.recorded
  · simpa only [hids, htx, hmap] using h.unrecorded

lemma KeyImagesOf.removeStaged (h : KeyImagesOf E S counted) (stage : List Uint256)
    (updateDescendants : Bool) (hstage : ∀ r ∈ stage, r ∈ S.ids) :
    KeyImagesOf E (S.removeStaged stage updateDescendants) counted := by
  have hr := removed_removeStaged h.linked stage updateDescendants
  have htx : ∀ v, ((S.removeStaged stage updateDescendants).entry v).tx = (S.entry v).tx :=
    fun v => (hr.entry v).body.tx
  have hmem : ∀ v, v ∈ (S.removeStaged stage updateDescendants).ids ↔ v ∈ S.ids ∧ v ∉ stage := by
    intro v
    rw [hr.ids, mem_filter, decide_eq_true_eq]
  -- no entry that stays loses a key image: another entry with it would be in the map as well
  have hkeep : ∀ v, v ∈ S.ids → v ∉ stage → counted v → ∀ ki ∈ txKeyImages (S.entry v).tx,
      ki ∉ stage.flatMap fun r => stackTxKeyImages (S.entry r).tx := by
    intro v hv hvs hcv ki hki hin
    obtain ⟨r, hrs, hkr⟩ := mem_flatMap.mp hin
    have hrin := hstage r hrs
    rw [h.shaped r hrin] at hkr
    have hv' := (h.recorded ki v).mpr ⟨hv, hcv, hki⟩
    by_cases hcr : counted r
    · have hr' := (h.recorded ki r).mpr ⟨hrin, hcr, hkr⟩
      exact hvs (some.inj (hv'.symm.trans hr') ▸ hrs)
    · rw [h.unrecorded r hrin hcr ki hkr] at hv'
      cases hv'
  refine ⟨hr.linked h.linked, fun v hv => ?_, fun v hv => ?_, fun ki v => ?_,
    fun v hv hcv ki hki => ?_⟩
  · rw [htx]
    exact h.ids v ((hmem v).mp hv).1
  · rw [htx]
    exact h.shaped v ((hmem v).mp hv).1
  · rw [hr.mapKeyImages, hmem, htx]
    unfold eraseKeyImages
    split
    · rename_i hin
      constructor
      · exact fun hnone => absurd hnone (some_ne_none _).symm
      · rintro ⟨⟨hv, hvs⟩, hcv, hki⟩
        exact absurd hin (hkeep v hv hvs hcv ki hki)
    · rename_i hnot
      rw [h.recorded]
      constructor
      · rintro ⟨hv, hcv, hki⟩
        refine ⟨⟨hv, fun hvs => hnot (mem_flatMap.mpr ⟨v, hvs, ?_⟩)⟩, hcv, hki⟩
        rw [h.shaped v hv]
        exact hki
      · rintro ⟨⟨hv, -⟩, hcv, hki⟩
        exact ⟨hv, hcv, hki⟩
  · rw [htx] at hki
    rw [hr.mapKeyImages]
    unfold eraseKeyImages
    split
    · rfl
    · exact h.unrecorded v ((hmem v).mp hv).1 hcv ki hki

lemma KeyImagesOf.shrinks (h : KeyImagesOf E S counted) (hs : Shrinks S S') :
    KeyImagesOf E S' counted := by
  refine hs.keeps (P := fun T => KeyImagesOf E T counted) h ?_ ?_
  · exact fun T stage updateDescendants hT hmem => hT.removeStaged stage updateDescendants hmem
  · exact fun T hash hT => hT.congr (hT.linked.congr rfl rfl rfl) rfl (fun _ => rfl) rfl

lemma KeyImagesOf.rearranged (h : KeyImagesOf E S counted) (hr : Rearranged S S') :
    KeyImagesOf E S' counted :=
  h.congr (hr.linked h.linked) hr.ids hr.tx hr.mapKeyImages

/-- What acceptance has checked, as far as the key images need it. -/
structure Checked (E : Env) (S : MemPool) (a : Acceptance) (c : Accepted) : Prop where
  fresh : E.txHash a.tx ∉ S.ids
  tx : c.entry.tx = a.tx
  nodup : c.setAncestors.Nodup
  conflicting : ∀ v ∈ c.allConflicting, v ∈ S.ids
  shaped : stackTxKeyImages a.tx = txKeyImages a.tx
  anon : ∀ txin ∈ a.tx.anonInputs, (anonKeyImages txin).isSome
  unknown : ∀ ki ∈ txKeyImages a.tx, OwnRecord S.mapKeyImages (E.txHash a.tx) ki

lemma replaced_mem (hS : Linked S) (a : Acceptance) (setConflicts vs : List Uint256)
    (h : replaced S a setConflicts = .ok vs) : ∀ v ∈ vs, v ∈ S.ids := by
  unfold replaced at h
  split at h
  · rw [← Except.ok.inj h]
    exact fun v hv => absurd hv not_mem_nil
  · simp only [bind_ok_iff, pure_ok_iff] at h
    obtain ⟨-, -, -, -, -, -, rfl⟩ := h
    exact allDescendants_mem hS _ fun v hv => of_decide_eq_true (mem_filter.mp hv).2

/-- The first call of `CheckInputs` verifies the ring signatures: nothing is cached for its
flags. -/
lemma checkScripts_verified (hmiss : cache (cacheEntry E a.tx STANDARD_SCRIPT_VERIFY_FLAGS) = false)
    (hne : a.tx.anonInputs ≠ []) (h : checkScripts E S cache a = .ok r) :
    verifyMLSAG (callEnv E a) a.db (view S) a.tx = .ok () := by
  unfold checkScripts at h
  obtain ⟨q, hq, -⟩ := (bind_ok_iff _ _ _).mp h
  exact checkInputs_verified _ _ _ _ cache a.tx standardMode q rfl rfl hmiss hne hq

lemma checkScripts_inserted (k : Uint256) (hk : r = some k) (h : checkScripts E S cache a = .ok r) :
    k = cacheEntry E a.tx (getBlockScriptFlags E a.nTipHeight) := by
  unfold checkScripts at h
  simp only [bind_ok_iff, pure_ok_iff] at h
  obtain ⟨-, -, -, -, q, hq, hr⟩ := h
  exact checkInputs_inserted_eq (callEnv E a) _ _ _ _ _ _ q k hq (hr.trans hk)

lemma checkAcceptance_checked (hS : Linked S) (cache : ScriptCache) (a : Acceptance) (c : Accepted)
    (hmiss : cache (cacheEntry E a.tx STANDARD_SCRIPT_VERIFY_FLAGS) = false)
    (h : checkAcceptance E S cache a = .ok c) : Checked E S a c ∧ ∀ k, c.inserted = some k →
      k = cacheEntry E a.tx (getBlockScriptFlags E a.nTipHeight) := by
  unfold checkAcceptance at h
  simp only [bind_ok_iff, pure_ok_iff, rejectIf_ok_iff] at h
  obtain ⟨-, -, -, -, -, -, -, -, -, hfresh, conflicts, -, -, -, r, -, -, -, -, -, -, -, -, -, -, -,
    vs, hvs, inserted, hins, rfl⟩ := h
  have hanon : ∀ txin ∈ a.tx.anonInputs, (anonKeyImages txin).isSome := by
    by_cases hne : a.tx.anonInputs = []
    · rw [hne]
      exact fun txin hmem => absurd hmem not_mem_nil
    · exact verifyMLSAG_shaped _ _ _ _ _ (checkScripts_verified cache a inserted hmiss hne hins)
  refine ⟨⟨hfresh, rfl, nodup_ancestors S _, replaced_mem hS a _ _ hvs,
    stackTxKeyImages_eq a.tx hanon,
    hanon, ?_⟩, fun k hk => checkScripts_inserted cache a inserted k hk hins⟩
  by_cases hne : a.tx.anonInputs = []
  · rw [txKeyImages, hne]
    exact fun ki hki => absurd hki not_mem_nil
  · exact ((verifyMLSAG_ok_iff_pool _ _ _ _ _).mp
      (checkScripts_verified cache a inserted hmiss hne hins)).2

lemma setKeyImages_nil : setKeyImages m [] txhash = m := by
  funext ki
  exact if_neg not_mem_nil

lemma setKeyImages_append (xs ys : List CCmpPubKey) (txhash : Uint256) :
    setKeyImages (setKeyImages m xs txhash) ys txhash = setKeyImages m (xs ++ ys) txhash := by
  funext ki
  simp only [setKeyImages, mem_append]
  split
  · rename_i h
    rw [if_pos (Or.inr h)]
  · rename_i h
    simp only [h, or_false]

lemma addKeyImages_eq (vin : List CTxIn) (S : MemPool)
    (h : ∀ txin ∈ vin.filter fun txin => txin.isAnonInput, (anonKeyImages txin).isSome) :
    addKeyImages txhash vin S = ({ S with
      mapKeyImages := setKeyImages S.mapKeyImages
        ((vin.filter fun txin => txin.isAnonInput).flatMap fun txin => (anonKeyImages txin).getD [])
        txhash }, true) := by
  induction vin generalizing S with
  | nil => simp [addKeyImages, setKeyImages_nil]
  | cons txin vin ih =>
    by_cases hanon : txin.isAnonInput
    · have hfilter : (txin :: vin).filter (fun txin => txin.isAnonInput) =
          txin :: vin.filter fun txin => txin.isAnonInput :=
        filter_cons_of_pos (by simpa using hanon)
      rw [hfilter] at h ⊢
      obtain ⟨hsome, hrest⟩ := forall_mem_cons.mp h
      obtain ⟨kis, hkis⟩ := isSome_iff_exists.mp hsome
      rw [addKeyImages, if_pos hanon, stackKeyImages_eq txin hsome, hkis]
      dsimp only
      rw [ih _ hrest]
      simp only [setKeyImages_append, flatMap_cons, hkis, getD_some]
    · have hfilter : (txin :: vin).filter (fun txin => txin.isAnonInput) =
          vin.filter fun txin => txin.isAnonInput :=
        filter_cons_of_neg (by simpa using hanon)
      rw [hfilter] at h ⊢
      rw [addKeyImages, if_neg hanon, ih S h]

lemma KeyImagesOf.addUnchecked (h : KeyImagesOf E S fun _ => True) (e : CTxMemPoolEntry)
    (setAncestors : List Uint256) (hnodup : setAncestors.Nodup) (hfresh : E.txHash e.tx ∉ S.ids)
    (hshaped : stackTxKeyImages e.tx = txKeyImages e.tx)
    (hnone : ∀ ki ∈ txKeyImages e.tx, S.mapKeyImages ki = none) :
    KeyImagesOf E (S.addUnchecked (E.txHash e.tx) e setAncestors) (· ≠ E.txHash e.tx) := by
  have hadd := added_addUnchecked S (E.txHash e.tx) e setAncestors hfresh hnodup
  have htx : ∀ v ∈ S.ids,
      ((S.addUnchecked (E.txHash e.tx) e setAncestors).entry v).tx = (S.entry v).tx := fun v hv =>
    (hadd.old v fun heq => hfresh (heq ▸ hv)).body.tx
  have hne : ∀ v ∈ S.ids, v ≠ E.txHash e.tx := fun v hv heq => hfresh (heq ▸ hv)
  refine ⟨hadd.linked h.linked hfresh, fun v hv => ?_, fun v hv => ?_, fun ki v => ?_,
    fun v hv hnot ki hki => ?_⟩
  · rw [hadd.ids] at hv
    rcases mem_cons.mp hv with rfl | hv
    · rw [hadd.new_tx]
    · rw [htx v hv]
      exact h.ids v hv
  · rw [hadd.ids] at hv
    rcases mem_cons.mp hv with rfl | hv
    · rw [hadd.new_tx]
      exact hshaped
    · rw [htx v hv]
      exact h.shaped v hv
  · rw [hadd.mapKeyImages, h.recorded, hadd.ids]
    constructor
    · rintro ⟨hv, -, hki⟩
      rw [htx v hv]
      exact ⟨mem_cons_of_mem _ hv, hne v hv, hki⟩
    · rintro ⟨hv, hvne, hki⟩
      have hv := (mem_cons.mp hv).resolve_left hvne
      rw [htx v hv] at hki
      exact ⟨hv, trivial, hki⟩
  · obtain rfl := not_not.mp hnot
    rw [hadd.new_tx] at hki
    rw [hadd.mapKeyImages]
    exact hnone ki hki

lemma KeyImagesOf.record {txhash : Uint256} (h : KeyImagesOf E S (· ≠ txhash)) (tx : CTransaction)
    (hin : txhash ∈ S.ids) (htx : (S.entry txhash).tx = tx) :
    KeyImagesOf E { S with mapKeyImages := setKeyImages S.mapKeyImages (txKeyImages tx) txhash }
      fun _ => True := by
  refine ⟨h.linked.congr rfl rfl rfl, h.ids, h.shaped, fun ki v => ?_, fun v _ hnot =>
    absurd trivial hnot⟩
  dsimp only [setKeyImages]
  split
  · rename_i hki
    rw [some.injEq]
    constructor
    · rintro rfl
      exact ⟨hin, trivial, htx ▸ hki⟩
    · rintro ⟨hv, -, hkv⟩
      -- another entry with this key image would be in the map
      by_contra hne
      have hv' := (h.recorded ki v).mpr ⟨hv, fun heq => hne heq.symm, hkv⟩
      rw [h.unrecorded txhash hin (not_not.mpr rfl) ki (htx ▸ hki)] at hv'
      cases hv'
  · rename_i hki
    rw [h.recorded]
    constructor
    · exact fun ⟨hv, _, hkv⟩ => ⟨hv, trivial, hkv⟩
    · rintro ⟨hv, -, hkv⟩
      refine ⟨hv, ?_, hkv⟩
      rintro rfl
      exact hki (htx ▸ hkv)

lemma KeyImagesOf.dropped {txhash : Uint256} (h : KeyImagesOf E S (· ≠ txhash))
    (hgone : txhash ∉ S.ids) : KeyImagesOf E S fun _ => True := by
  refine ⟨h.linked, h.ids, h.shaped, fun ki v => ?_, fun v _ hnot => absurd trivial hnot⟩
  rw [h.recorded]
  constructor
  · exact fun ⟨hv, _, hki⟩ => ⟨hv, trivial, hki⟩
  · exact fun ⟨hv, _, hki⟩ => ⟨hv, fun heq => hgone (heq ▸ hv), hki⟩

lemma KeyImagesOf.storeAccepted (h : KeyImagesOf E S fun _ => True) (a : Acceptance) (c : Accepted)
    (hc : Checked E S a c) : KeyImagesOf E (storeAccepted E S a c).1 fun _ => True := by
  have hr := removed_removeStaged h.linked c.allConflicting false
  have h₁ := h.removeStaged c.allConflicting false hc.conflicting
  have hfresh : E.txHash c.entry.tx ∉ (S.removeStaged c.allConflicting false).ids := by
    rw [hr.ids, hc.tx]
    exact fun hin => hc.fresh (mem_filter.mp hin).1
  have hnone : ∀ ki ∈ txKeyImages c.entry.tx,
      (S.removeStaged c.allConflicting false).mapKeyImages ki = none := by
    intro ki hki
    rw [hc.tx] at hki
    by_contra hsome
    obtain ⟨v, hv⟩ := ne_none_iff_exists'.mp hsome
    obtain ⟨hvin, -, hkv⟩ := (h₁.recorded ki v).mp hv
    rw [hr.ids] at hvin
    rw [(hr.entry v).body.tx] at hkv
    have hold := (h.recorded ki v).mpr ⟨(mem_filter.mp hvin).1, trivial, hkv⟩
    exact hc.fresh (hc.unknown ki hki v hold ▸ (mem_filter.mp hvin).1)
  have h₂ := h₁.addUnchecked c.entry c.setAncestors hc.nodup hfresh (hc.tx ▸ hc.shaped) hnone
  have hadd := added_addUnchecked _ _ c.entry c.setAncestors hfresh hc.nodup
  rw [hc.tx] at h₂ hadd
  -- the pool once the size limit has been applied, with the new entry or without it
  obtain ⟨S₃, hS₃, h₃, hin₃, htx₃⟩ : ∃ S₃,
      (if a.bypass_limits then (S.removeStaged c.allConflicting false).addUnchecked (E.txHash a.tx)
          c.entry c.setAncestors
        else PoolAcceptance.limitMempoolSize ((S.removeStaged c.allConflicting false).addUnchecked
          (E.txHash a.tx) c.entry c.setAncestors) a.limits) = S₃ ∧
      KeyImagesOf E S₃ (· ≠ E.txHash a.tx) ∧ (a.bypass_limits = true → E.txHash a.tx ∈ S₃.ids) ∧
      (S₃.entry (E.txHash a.tx)).tx = a.tx := by
    cases a.bypass_limits with
    | true =>
      refine ⟨_, rfl, h₂, fun _ => ?_, hadd.new_tx.trans hc.tx⟩
      rw [if_pos rfl, hadd.ids]
      exact mem_cons_self
    | false =>
      have hlimit := shrinks_limitMempoolSize h₂.linked a.limits
      refine ⟨_, rfl, h₂.shrinks hlimit, fun h => absurd h Bool.false_ne_true, ?_⟩
      exact ((hlimit.fewer h₂.linked).body _).tx.trans (hadd.new_tx.trans hc.tx)
  unfold PoolAcceptance.storeAccepted
  dsimp only
  rw [hS₃]
  split
  · rename_i hfull
    exact h₃.dropped hfull.2
  · rename_i hfull
    have hmem : E.txHash a.tx ∈ S₃.ids := by
      by_contra hgone
      cases hbypass : a.bypass_limits with
      | true => exact hgone (hin₃ hbypass)
      | false => exact hfull ⟨hbypass, hgone⟩
    rw [addKeyImages_eq _ _ _ hc.anon]
    exact h₃.record a.tx hmem htx₃

lemma linked_clear (S : MemPool) : Linked (clear S) :=
  ⟨nodup_nil, fun _ => nodup_nil, fun _ => nodup_nil,
    fun _ _ hp => absurd hp not_mem_nil, fun _ _ => by simp [clear]⟩

lemma keyImagesOf_clear_iff (h : KeyImagesOf E S fun _ => True) :
    KeyImagesOf E (clear S) (fun _ => True) ↔ ∀ v ∈ S.ids, txKeyImages (S.entry v).tx = [] := by
  constructor
  · intro hclear v hv
    refine eq_nil_iff_forall_not_mem.mpr fun ki hki => ?_
    have hmap := (h.recorded ki v).mpr ⟨hv, trivial, hki⟩
    exact absurd ((hclear.recorded ki v).mp hmap).1 not_mem_nil
  · intro hnone
    refine ⟨linked_clear S, fun v hv => absurd hv not_mem_nil, fun v hv => absurd hv not_mem_nil,
      fun ki v => ⟨fun hmap => ?_, fun hv => absurd hv.1 not_mem_nil⟩,
      fun v hv => absurd hv not_mem_nil⟩
    obtain ⟨hv, -, hki⟩ := (h.recorded ki v).mp hmap
    rw [hnone v hv] at hki
    exact absurd hki not_mem_nil

/-- A call that concerns the pool or the script execution cache. -/
inductive PoolCall
  | accept (a : Acceptance)
  | removeForBlock (vtx : List CTransaction)
  | removeRecursive (tx : CTransaction)
  | removeConflicts (tx : CTransaction)
  | removeForReorg (bad : CTxMemPoolEntry → Bool)
  | expire (time : Int)
  | trim (L : Limits)
  | updateTransactionsFromBlock (vHashesToUpdate : List Uint256)
  | prioritiseTransaction (hash : Uint256) (nFeeDelta : Word)
  | clear
  /-- `ConnectBlock` caches the scripts of a transaction under the flags of a height. -/
  | cacheScripts (tx : CTransaction) (nHeight : Nat)
  | evict (keep : Uint256 → Bool)

end

section

variable (E : Env)

def poolStep (s : Node) : PoolCall → Node
  | .accept a => (acceptToMemoryPool E s a).1
  | .removeForBlock vtx => { s with pool := removeForBlock E s.pool vtx }
  | .removeRecursive tx => { s with pool := removeRecursive E s.pool tx }
  | .removeConflicts tx => { s with pool := removeConflicts E s.pool tx }
  | .removeForReorg bad => { s with pool := removeForReorg s.pool bad }
  | .expire time => { s with pool := expire s.pool time }
  | .trim L => { s with pool := trim s.pool L }
  | .updateTransactionsFromBlock vs => { s with pool := s.pool.updateTransactionsFromBlock vs }
  | .prioritiseTransaction hash nFeeDelta =>
    { s with pool := s.pool.prioritiseTransaction hash nFeeDelta }
  | .clear => { s with pool := clear s.pool }
  | .cacheScripts tx nHeight =>
    { s with cache := fun k => s.cache k || k = cacheEntry E tx (getBlockScriptFlags E nHeight) }
  | .evict keep => { s with cache := fun k => s.cache k && keep k }

def poolRun (calls : List PoolCall) : Node := calls.foldl (poolStep E) .start

/-- The transaction whose scripts a call may enter into the cache. -/
def PoolCall.caches : PoolCall → Option CTransaction
  | .accept a => some a.tx
  | .cacheScripts tx _ => some tx
  | _ => none

/-- A key of the run under the flags of a block is not the key under the standard flags of a
transaction that is offered to the pool. -/
def KeysApart (calls : List PoolCall) : Prop :=
  ∀ a, .accept a ∈ calls → ∀ call ∈ calls, ∀ tx ∈ call.caches, ∀ nHeight,
    cacheEntry E tx (getBlockScriptFlags E nHeight) ≠ cacheEntry E a.tx STANDARD_SCRIPT_VERIFY_FLAGS

def ClearsQuiet (s : Node) : PoolCall → Prop
  | .clear => ∀ v ∈ s.pool.ids, txKeyImages (s.pool.entry v).tx = []
  | _ => True

/-- The key images are those of the pool, and the cache holds keys of calls of the run under the
flags of a block. -/
structure Good (calls : List PoolCall) (s : Node) : Prop where
  keyImages : KeyImagesOf E s.pool fun _ => True
  cached : ∀ k, s.cache k = true → ∃ call ∈ calls, ∃ tx ∈ call.caches, ∃ nHeight,
    k = cacheEntry E tx (getBlockScriptFlags E nHeight)

variable {E} {calls : List PoolCall}

lemma Good.accept (hapart : KeysApart E calls) {s : Node} (h : Good E calls s) (a : Acceptance)
    (ha : .accept a ∈ calls) : Good E calls (acceptToMemoryPool E s a).1 := by
  unfold acceptToMemoryPool
  split
  · exact h
  · rename_i c hc
    have hmiss : s.cache (cacheEntry E a.tx STANDARD_SCRIPT_VERIFY_FLAGS) = false := by
      by_contra hhit
      obtain ⟨call, hcall, tx, htx, nHeight, hk⟩ := h.cached _ (Bool.not_eq_false _ ▸ hhit)
      exact hapart a ha call hcall tx htx nHeight hk.symm
    obtain ⟨hchecked, hins⟩ := checkAcceptance_checked h.keyImages.linked s.cache a c hmiss hc
    have hcached : ∀ k, (s.cache k || decide (c.inserted = some k)) = true → ∃ call ∈ calls,
        ∃ tx ∈ call.caches, ∃ nHeight, k = cacheEntry E tx (getBlockScriptFlags E nHeight) := by
      intro k hk
      rcases Bool.or_eq_true_iff.mp hk with hk | hk
      · exact h.cached k hk
      · exact ⟨_, ha, a.tx, rfl, a.nTipHeight, hins k (of_decide_eq_true hk)⟩
    dsimp only
    split
    · exact ⟨h.keyImages, hcached⟩
    · exact ⟨h.keyImages.storeAccepted a c hchecked, hcached⟩

lemma poolStep_frame {s : Node} (hS : Linked s.pool) (call : PoolCall)
    (haccept : ∀ a, call ≠ .accept a) (hclear : call ≠ .clear) :
    Shrinks s.pool (poolStep E s call).pool ∨ Rearranged s.pool (poolStep E s call).pool := by
  cases call with
  | accept a => exact absurd rfl (haccept a)
  | removeForBlock vtx => exact .inl (shrinks_removeForBlock E hS vtx)
  | removeRecursive tx => exact .inl (shrinks_removeRecursive E hS tx)
  | removeConflicts tx => exact .inl (shrinks_removeConflicts E hS tx)
  | removeForReorg bad => exact .inl (shrinks_removeWhere hS bad)
  | expire time => exact .inl (shrinks_removeWhere hS fun e => e.nTime < time)
  | trim L => exact .inl (shrinks_trimToSize hS _ _ _)
  | updateTransactionsFromBlock vs => exact .inr (rearranged_updateTransactionsFromBlock _ vs)
  | prioritiseTransaction hash nFeeDelta =>
      exact .inr (rearranged_prioritiseTransaction _ hash nFeeDelta)
  | clear => exact absurd rfl hclear
  | cacheScripts tx nHeight => exact .inl (.refl _)
  | evict keep => exact .inl (.refl _)

lemma Good.step (hapart : KeysApart E calls) {s : Node} (h : Good E calls s) (call : PoolCall)
    (hcall : call ∈ calls) (hquiet : ClearsQuiet s call) : Good E calls (poolStep E s call) := by
  have hframe : (∀ a, call ≠ .accept a) → call ≠ .clear →
      KeyImagesOf E (poolStep E s call).pool fun _ => True := by
    intro haccept hclear
    rcases poolStep_frame h.keyImages.linked call haccept hclear with hs | hr
    · exact h.keyImages.shrinks hs
    · exact h.keyImages.rearranged hr
  cases call with
  | accept a => exact h.accept hapart a hcall
  | clear => exact ⟨(keyImagesOf_clear_iff h.keyImages).mpr hquiet, h.cached⟩
  | cacheScripts tx nHeight =>
    refine ⟨h.keyImages, fun k hk => ?_⟩
    rcases Bool.or_eq_true_iff.mp hk with hk | hk
    · exact h.cached k hk
    · exact ⟨_, hcall, tx, rfl, nHeight, of_decide_eq_true hk⟩
  | evict keep => exact ⟨h.keyImages, fun k hk => h.cached k (Bool.and_eq_true_iff.mp hk).1⟩
  | _ => exact ⟨hframe (fun _ => nofun) nofun, h.cached⟩

variable (E) in
def QuietRun : Node → List PoolCall → Prop
  | _, [] => True
  | s, call :: calls => ClearsQuiet s call ∧ QuietRun (poolStep E s call) calls

/-- A run keeps the key images in step with the pool. -/
lemma Good.run (hapart : KeysApart E calls) (made : List PoolCall) (hmade : ∀ c ∈ made, c ∈ calls)
    (s : Node) (h : Good E calls s) (hquiet : QuietRun E s made) :
    Good E calls (made.foldl (poolStep E) s) := by
  induction made generalizing s with
  | nil => exact h
  | cons call made ih =>
    rw [forall_mem_cons] at hmade
    exact ih hmade.2 _ (h.step hapart call hmade.1 hquiet.1) hquiet.2

variable (E)

lemma good_start (calls : List PoolCall) : Good E calls .start :=
  ⟨keyImagesOf_empty E, fun _ hk => absurd hk Bool.false_ne_true⟩

/-- Over any calls that clear the pool only while it shows no key image, `mapKeyImages` is the map
from the key images in the pool to the transactions that show them, and no two transactions share
one. Clearing the pool would keep that exactly when the pool shows no key image. -/
theorem keyImages_follow_pool (calls : List PoolCall) (hapart : KeysApart E calls)
    (hquiet : QuietRun E .start calls) : let S := (poolRun E calls).pool
    (∀ ki h, S.mapKeyImages ki = some h ↔ h ∈ S.ids ∧ ki ∈ txKeyImages (S.entry h).tx) ∧
      (∀ h ∈ S.ids, E.txHash (S.entry h).tx = h) ∧
      (∀ h ∈ S.ids, ∀ h' ∈ S.ids, ∀ ki ∈ txKeyImages (S.entry h).tx,
        ki ∈ txKeyImages (S.entry h').tx → h = h') ∧
      ((∀ ki h, (clear S).mapKeyImages ki = some h ↔
          h ∈ (clear S).ids ∧ ki ∈ txKeyImages ((clear S).entry h).tx) ↔
        ∀ h ∈ S.ids, txKeyImages (S.entry h).tx = []) := by
  intro S
  have hgood : KeyImagesOf E S fun _ => True :=
    (Good.run hapart calls (fun _ h => h) _ (good_start E calls) hquiet).keyImages
  have hrecorded : ∀ ki h, S.mapKeyImages ki = some h ↔
      h ∈ S.ids ∧ ki ∈ txKeyImages (S.entry h).tx := by
    intro ki h
    rw [hgood.recorded ki h]
    simp only [true_and]
  refine ⟨hrecorded, hgood.ids, ?_, ?_⟩
  · intro h hh h' hh' ki hki hki'
    have hmap := (hrecorded ki h).mpr ⟨hh, hki⟩
    rw [(hrecorded ki h').mpr ⟨hh', hki'⟩] at hmap
    exact (some.inj hmap).symm
  · constructor
    · intro hclear h hh
      refine eq_nil_iff_forall_not_mem.mpr fun ki hki => ?_
      have hmap := (hrecorded ki h).mpr ⟨hh, hki⟩
      exact absurd ((hclear ki h).mp hmap).1 not_mem_nil
    · intro hnone ki h
      have hclear := ((keyImagesOf_clear_iff hgood).mpr hnone).recorded ki h
      simpa only [true_and] using hclear

end

section Example

open ToyEnvironment

def poolEnv : Env :=
  { chainEnv with sha256 := fun bs => BitVec.ofNat 256 (readLE (bs.drop (bs.length - 4))) }

lemma keysApart_poolEnv (calls : List PoolCall) : KeysApart poolEnv calls := by
  have hentry : ∀ tx flags, cacheEntry poolEnv tx flags =
      BitVec.ofNat 256 (readLE (uint32Bytes flags)) := by
    intro tx flags
    have hlen : (uint32Bytes flags).length = 4 := by simp [uint32Bytes, leBytes]
    unfold cacheEntry
    show BitVec.ofNat 256 (readLE (drop _ _)) = _
    rw [drop_left']
    simp only [length_append, hlen]
    omega
  intro a _ call _ tx _ nHeight
  rw [hentry, hentry]
  unfold getBlockScriptFlags
  split
  · decide
  · decide

def ringChain : ChainState :=
  ((loop (connectTip chainEnv) .empty [genesisStep, convertStep]).toOption).getD .empty

def ringAcceptance : Acceptance where
  tx := ringTx 21
  process := process
  db := ringChain.db
  coins := ringChain.coins
  nSpendHeight := 2
  nTipHeight := 1
  fBulletproofsActive := true
  bypass_limits := false
  test_accept := false
  fEnableReplacement := true
  nAcceptTime := 1000
  nTxSize := 300
  limits := ⟨0, fun _ => false, fun _ _ => false⟩
  standard := .ok ()
  available := .ok ()
  inputsStandard := .ok ()
  fees := .ok ()
  packages := .ok ()
  feeRates := .ok ()
  replacement := .ok ()

/-- The key image of the accepted transaction is recorded under its txid. -/
theorem keyImages_follow_ring_transaction :
    let S := (poolRun poolEnv [.clear, .accept ringAcceptance]).pool
    S.mapKeyImages 77 = some (poolEnv.txHash ringAcceptance.tx) ∧
      (∀ ki h, S.mapKeyImages ki = some h ↔ h ∈ S.ids ∧ ki ∈ txKeyImages (S.entry h).tx) := by
  refine ⟨by decide +kernel, (keyImages_follow_pool poolEnv _ (keysApart_poolEnv _) ?_).1⟩
  exact ⟨fun v hv => absurd hv not_mem_nil, trivial, trivial⟩

/-- Clearing the pool keeps the key image, and the map then names a transaction that is not
there. -/
theorem clear_keeps_keyImages : let S := (poolRun poolEnv [.accept ringAcceptance, .clear]).pool
    S.ids = [] ∧ S.mapKeyImages 77 = some (poolEnv.txHash ringAcceptance.tx) := by
  decide +kernel

end Example

end PoolKeyImages
