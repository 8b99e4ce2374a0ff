import BitcoinC.ToyEnvironment

/-!
# Key images along a chain

Uniqueness of key images is checked within a transaction and against the flushed
database, where a record under the transaction's own hash counts as no conflict.
-/

namespace KeyImages

open Primitives Environment Verdicts Anon Coins CheckInputs Kernel ConnectBlock KeyedStore
  RingRecords ChainRun List

section

variable (E : Env)
variable (G : NodeState) (S : ChainState) (C : BlockContext) (T : ChainState) (a : ConnectStep)

/-- A connection with script checks caches nothing; without hits the ring signatures are
verified. -/
lemma connectTx_verified (hjust : C.fJustCheck = false) (hscripts : C.fScriptChecks = true)
    (hcache : ∀ k, G.scriptCache k = false) (s t : BlockState) (x : CTransaction × Nat)
    (hs : s.inserted = []) (h : connectTx E G C s x = .ok t) :
    t.inserted = [] ∧ (x.1.anonInputs ≠ [] → verifyMLSAG E G.db G.mempool x.1 = .ok ()) := by
  refine ⟨(connectTx_inserted E G C hjust s t x h).trans hs, fun hne => ?_⟩
  obtain ⟨m, hm, -⟩ := (connectTx_ok_iff E G C s t x).mp h
  have hcb : ¬ x.1.isCoinBase := fun hcb => hne (x.1.anonInputs_of_isCoinBase hcb)
  obtain ⟨n, r, q, u, -, -, hq, -, -⟩ := applyTx_ok E G C s m x hcb hm
  have hmiss : cacheWith G s.inserted (cacheEntry E x.1 (checkMode E C).flags) = false := by
    simp [cacheWith, hcache, hs]
  exact checkInputs_verified E _ _ _ _ _ (checkMode E C) q hscripts rfl hmiss hne hq

lemma connectBlock_verified (hjust : C.fJustCheck = false) (hscripts : C.fScriptChecks = true)
    (hcache : ∀ k, G.scriptCache k = false) (view : CCoinsViewCache) (b : CBlock) (c : Connected)
    (h : connectBlock E G C view b = .ok c) :
    ∀ tx ∈ b.vtx, tx.anonInputs ≠ [] → verifyMLSAG E G.db G.mempool tx = .ok () := by
  obtain ⟨-, s, hloop, -, -⟩ := (connectBlock_ok_iff E G C view b c).mp h
  have hrun : ∀ (xs : List (CTransaction × Nat)) (s t : BlockState), s.inserted = [] →
      loop (connectTx E G C) s xs = .ok t →
      ∀ x ∈ xs, x.1.anonInputs ≠ [] → verifyMLSAG E G.db G.mempool x.1 = .ok () := by
    intro xs
    induction xs with
    | nil => simp
    | cons x xs ih =>
      intro s t hs hrun
      obtain ⟨m, hm, hrest⟩ := (loop_cons_ok_iff _ _ _ _ _).mp hrun
      obtain ⟨hins, hverified⟩ := connectTx_verified E G C hjust hscripts hcache s m x hs hm
      exact forall_mem_cons.mpr ⟨hverified, ih m t hins hrest⟩
  intro tx htx
  obtain ⟨i, hi, rfl⟩ := getElem_of_mem htx
  exact hrun _ _ s rfl hloop (b.vtx[i], i)
    (mk_mem_zipIdx_iff_getElem?.mpr (getElem?_eq_getElem hi))

/-- The database has a record for exactly the key images of the chain; when one occurs twice, it
names one of its transactions. -/
structure Recorded (S : ChainState) : Prop where
  sound : ∀ ki txid, S.db.rctKeyImage ki = some txid → (ki, txid) ∈ chainKeyImages E S.chain
  complete : ∀ x ∈ chainKeyImages E S.chain, S.db.rctKeyImage x.1 ≠ none

lemma recorded_empty : Recorded E .empty where
  sound _ _ h := by cases h
  complete _ h := by cases h

lemma connectTip_recorded (hS : Recorded E S) (h : connectTip E S a = .ok T) : Recorded E T := by
  obtain ⟨hdb, hchain⟩ := connectTip_keyImages E S T a h
  refine ⟨?_, ?_⟩
  · intro ki txid hsome
    rw [hdb] at hsome
    rw [hchain, mem_append]
    exact (mem_or_of_putAll _ _ _ _ hsome).elim Or.inr fun hold => Or.inl (hS.sound ki txid hold)
  · intro x hx
    rw [hchain, mem_append] at hx
    rw [hdb]
    exact putAll_ne_none _ _ _ (hx.elim (fun hold => Or.inr (hS.complete x hold))
      fun hnew => Or.inl (mem_map_of_mem hnew))

/-- The block is connected with script checks and without cache hits. -/
def Checked (a : ConnectStep) : Prop :=
  a.around.fScriptChecks = true ∧ ∀ k, a.around.scriptCache k = false

/-- No two transactions of the block share a key image, and the database has no key image of the
block under the very transaction that shows it. -/
def Unshared (S : ChainState) (a : ConnectStep) : Prop :=
  a.block.vtx.Pairwise (fun t u => List.Disjoint (txKeyImages t) (txKeyImages u)) ∧
    ∀ tx ∈ a.block.vtx, ∀ ki ∈ txKeyImages tx, S.db.rctKeyImage ki ≠ some (E.txHash tx)

lemma map_fst_blockKeyImages (b : CBlock) :
    (blockKeyImages E b).map Prod.fst = b.vtx.flatMap txKeyImages := by
  rw [blockKeyImages, map_flatMap]
  refine congrArg (fun f => b.vtx.flatMap f) (funext fun tx => ?_)
  rw [keyImageRecords, map_map]
  exact map_id _

lemma connectTip_distinct_iff (hS : Recorded E S) (ha : Checked a) (h : connectTip E S a = .ok T) :
    ((chainKeyImages E T.chain).map Prod.fst).Nodup ↔
      ((chainKeyImages E S.chain).map Prod.fst).Nodup ∧ Unshared E S a := by
  obtain ⟨-, hchain⟩ := connectTip_keyImages E S T a h
  obtain ⟨c, hc, -⟩ := (connectTip_ok_iff E S T a).mp h
  have hverified : ∀ tx ∈ a.block.vtx, (txKeyImages tx).Nodup ∧
      ∀ ki ∈ txKeyImages tx, OwnRecord S.db.rctKeyImage (E.txHash tx) ki := by
    intro tx htx
    by_cases hne : tx.anonInputs = []
    · simp [txKeyImages, hne]
    · have hring := connectBlock_verified _ _ _ rfl ha.1 ha.2 _ _ c hc tx htx hne
      exact verifyMLSAG_keyImages (withProcess E a.around.process) _ _ tx () hring
  rw [hchain, map_append, map_fst_blockKeyImages, nodup_append', nodup_flatMap]
  constructor
  · rintro ⟨hold, ⟨-, hpair⟩, hdisj⟩
    refine ⟨hold, hpair, ?_⟩
    intro tx htx ki hki hsome
    exact hdisj (mem_map_of_mem (hS.sound ki _ hsome)) (mem_flatMap.mpr ⟨tx, htx, hki⟩)
  · rintro ⟨hold, hpair, hown⟩
    refine ⟨hold, ⟨fun tx htx => (hverified tx htx).1, hpair⟩, ?_⟩
    intro ki hmem hnew
    obtain ⟨x, hx, rfl⟩ := mem_map.mp hmem
    obtain ⟨tx, htx, hki⟩ := mem_flatMap.mp hnew
    obtain ⟨txid, hsome⟩ := Option.ne_none_iff_exists'.mp (hS.complete x hx)
    have hsame := (hverified tx htx).2 x.1 hki txid hsome
    exact hown tx htx x.1 hki (hsame ▸ hsome)

/-- Key images stay distinct along a run exactly when no block shares one. -/
lemma run_distinct_iff (steps : List ConnectStep) (S T : ChainState) (hS : Recorded E S)
    (hchecked : ∀ a ∈ steps, Checked a) (hrun : loop (connectTip E) S steps = .ok T) :
    ((chainKeyImages E T.chain).map Prod.fst).Nodup ↔
      ((chainKeyImages E S.chain).map Prod.fst).Nodup ∧
        everyStep (Unshared E) (connectTip E) S steps := by
  induction steps generalizing S with
  | nil =>
    rw [loop_nil, Except.ok.injEq] at hrun
    subst hrun
    simp [everyStep]
  | cons a steps ih =>
    rw [forall_mem_cons] at hchecked
    obtain ⟨M, hM, hrest⟩ := (loop_cons_ok_iff _ _ _ _ _).mp hrun
    rw [ih M (connectTip_recorded E S M a hS hM) hchecked.2 hrest,
      connectTip_distinct_iff E S M a hS hchecked.1 hM, and_assoc]
    refine and_congr_right fun _ => and_congr_right fun _ => ?_
    constructor
    · intro hall T' hT'
      rw [hM] at hT'
      exact Except.ok.inj hT' ▸ hall
    · intro hall
      exact hall M hM

/-- Along a chain of connected blocks with script checks, the key images are pairwise distinct if
and only if every block was unshared when it was connected. -/
theorem keyImages_distinct_iff_unshared (steps : List ConnectStep) (T : ChainState)
    (hchecked : ∀ a ∈ steps, Checked a) (hrun : loop (connectTip E) .empty steps = .ok T) :
    ((chainKeyImages E T.chain).map Prod.fst).Nodup ↔
      everyStep (Unshared E) (connectTip E) .empty steps := by
  rw [run_distinct_iff E steps _ T (recorded_empty E) hchecked hrun]
  exact and_iff_right nodup_nil

end

open ToyEnvironment

def ringSteps (fees : Int) (txs : List CTransaction) : List ConnectStep :=
  [genesisStep, convertStep,
    stepOn convertStep.pindex (stake genesisHash 2 2 [keyOutput 3 (1000 + fees)] :: txs)]

lemma ringSteps_checked (fees : Int) (txs : List CTransaction) :
    ∀ a ∈ ringSteps fees txs, Checked a := by
  simp [ringSteps, Checked, genesisStep, convertStep, stepOn, quiet]

theorem keyImages_distinct_iff_unshared_single :
    everyStep (Unshared chainEnv) (connectTip chainEnv) .empty (ringSteps 5 [ringTx 21]) := by
  obtain ⟨T, hT, hnodup⟩ := exists_ok_of_toOption
    (loop (connectTip chainEnv) .empty (ringSteps 5 [ringTx 21]))
    (fun T => decide ((chainKeyImages chainEnv T.chain).map Prod.fst).Nodup) true
      (by decide +kernel)
  exact (keyImages_distinct_iff_unshared chainEnv _ T (ringSteps_checked 5 _) hT).mp
    (of_decide_eq_true hnodup)

/-- A block with two different transactions that show the same key image is connected. -/
theorem keyImages_not_distinct :
    ∃ T, loop (connectTip chainEnv) .empty (ringSteps 10 [ringTx 21, ringTx 22]) = .ok T ∧
      (∀ a ∈ ringSteps 10 [ringTx 21, ringTx 22], Checked a) ∧
      ¬ ((chainKeyImages chainEnv T.chain).map Prod.fst).Nodup := by
  obtain ⟨T, hT, hnodup⟩ := exists_ok_of_toOption
    (loop (connectTip chainEnv) .empty (ringSteps 10 [ringTx 21, ringTx 22]))
    (fun T => decide ((chainKeyImages chainEnv T.chain).map Prod.fst).Nodup) false
      (by decide +kernel)
  exact ⟨T, hT, ringSteps_checked 10 _, of_decide_eq_false hnodup⟩

end KeyImages
