import BitcoinC.RingIndex
import BitcoinC.RingVerdict

/-!
# The script execution cache over a run

Calls of `CheckInputs` and connected blocks in any order, with a cache that may
forget entries at any time and never reports one that was not inserted.
-/

namespace CacheRun

open Primitives Environment Verdicts TxVerify Anon Coins CheckInputs Kernel Blocks ConnectBlock
  KeyedStore LogIndex RingRecords RingIndex RingVerdict ChainRun

structure Call where
  process : Process
  mempool : CTxMemPool
  coins : CoinMap
  tx : CTransaction
  mode : CheckMode

structure CacheState where
  chain : ChainState
  cache : ScriptCache

def CacheState.start : CacheState := ⟨.empty, fun _ => false⟩

inductive CacheStep
  | check (c : Call)
  | connect (a : ConnectStep)
  | evict (keep : Uint256 → Bool)

def insertAll (cache : ScriptCache) (ks : List Uint256) : ScriptCache := fun k => cache k || k ∈ ks

section

variable (E : Env)

def runCall (S : CacheState) (c : Call) (cache : ScriptCache) : Verdict InputsResult :=
  checkInputs (withProcess E c.process) S.chain.db c.mempool c.coins cache c.tx c.mode

def ConnectStep.withCache (a : ConnectStep) (cache : ScriptCache) : ConnectStep :=
  { a with around := { a.around with scriptCache := cache } }

def connectWith (S : CacheState) (a : ConnectStep) : Verdict CacheState := do
  let c ← relabel Failure.reject (connectStep E S.chain (ConnectStep.withCache a S.cache))
  pure ⟨⟨⟨a.block, c.pindex, c.undo⟩ :: S.chain.chain, c.view.coins,
    flushConnected S.chain.db c.view⟩, insertAll S.cache c.inserted⟩

def cacheStep (S : CacheState) : CacheStep → Verdict CacheState
  | .check c =>
    match runCall E S c S.cache with
    | .ok r => .ok { S with cache := insertAll S.cache r.inserted.toList }
    | .error _ => .ok S
  | .connect a => connectWith E S a
  | .evict keep => .ok { S with cache := fun k => S.cache k && keep k }

def accepts : Verdict InputsResult → Bool
  | .ok r => queueSucceeds E r.vChecks
  | .error _ => false

variable (outputsOf : Uint256 → List CTxOutBase)
variable (G : NodeState) (db : CBlockTreeDB) (C : BlockContext) (coins : CoinMap)
  (pool : CTxMemPool) (tx : CTransaction) (m : CheckMode)

/-- The coins of a txid are among the outputs of that txid. -/
def Genuine (coins : CoinMap) : Prop :=
  ∀ o coin, coins o = some coin → ∃ p, (outputsOf o.hash)[o.n.toNat]? = some (.standard p) ∧
    coin.out = ⟨p.nValue, p.scriptPubKey⟩ ∧ coin.nType = .standard

/-- The nonce of the cache key is that of the run, anon inputs are checked, views are genuine, the
txids of connected transactions stand for their outputs, and no coinbase has a RingCT output. -/
def Permitted : CacheStep → Prop
  | .check c => c.process.scriptExecutionCacheNonce = E.scriptExecutionCacheNonce ∧
      Genuine outputsOf c.coins ∧ c.mode.fAnonChecks = true
  | .connect a => ∀ tx ∈ a.block.vtx, outputsOf (E.txHash tx) = tx.vpout ∧ PlainCoinBase tx
  | .evict _ => True

lemma cacheEntry_withProcess (P : Process)
    (hnonce : P.scriptExecutionCacheNonce = E.scriptExecutionCacheNonce) (tx : CTransaction)
    (flags : UInt32) : cacheEntry (withProcess E P) tx flags = cacheEntry E tx flags := by
  unfold cacheEntry
  rw [show (withProcess E P).scriptExecutionCacheNonce = _ from hnonce]
  rfl

lemma genuine_empty : Genuine outputsOf ChainState.empty.coins := by
  intro o coin h
  cases h

lemma scriptCheck_of_genuine {coins coins' : CoinMap} (h : Genuine outputsOf coins)
    (h' : Genuine outputsOf coins') {o : COutPoint} {coin coin' : Coin}
    (hcoin : coins o = some coin)
    (hcoin' : coins' o = some coin') (tx : CTransaction) (flags : UInt32) (nIn : Nat) :
    scriptCheck tx flags nIn coin = scriptCheck tx flags nIn coin' := by
  obtain ⟨p, hp, hout, htype⟩ := h o coin hcoin
  obtain ⟨p', hp', hout', htype'⟩ := h' o coin' hcoin'
  obtain rfl : p = p' := by
    rw [hp, Option.some.injEq] at hp'
    exact CTxOutBase.standard.inj hp'
  simp only [scriptCheck, hout, hout', htype, htype']

lemma newCoins_genuine (nHeight : Nat) (hv : tx.isBitcoinCVersion) (hlen : tx.vpout.length ≤ 2 ^ 32)
    (hids : outputsOf (E.txHash tx) = tx.vpout) (x : COutPoint × Coin)
    (hx : x ∈ newCoins (E.txHash tx) tx nHeight) :
    ∃ p, (outputsOf x.1.hash)[x.1.n.toNat]? = some (.standard p) ∧
      x.2.out = ⟨p.nValue, p.scriptPubKey⟩ ∧ x.2.nType = .standard := by
  have hmem := (List.mem_filter.mp hx).1
  rw [txCoins, if_pos hv] at hmem
  obtain ⟨⟨o, i⟩, hoi, hcoin⟩ := List.mem_filterMap.mp hmem
  obtain ⟨p, hp, rfl⟩ := Option.map_eq_some_iff.mp hcoin
  obtain rfl : o = .standard p := by
    cases o <;> simp_all [CTxOutBase.standard?]
  refine ⟨p, ?_, rfl, rfl⟩
  have hi : i % 2 ^ 32 = i := by
    have := List.snd_lt_of_mem_zipIdx hoi
    dsimp only at this
    omega
  show (outputsOf (E.txHash tx))[(UInt32.ofNat i).toNat]? = _
  rw [UInt32.toNat_ofNat', hi, hids]
  exact List.mk_mem_zipIdx_iff_getElem?.mp hoi

lemma connectTx_genuine (s t : BlockState) (x : CTransaction × Nat) (fBulletproofs : Bool)
    (hcheck : checkTransaction E fBulletproofs x.1 true = .ok ())
    (hids : outputsOf (E.txHash x.1) = x.1.vpout) (hs : Genuine outputsOf s.view.coins)
    (h : connectTx E G C s x = .ok t) : Genuine outputsOf t.view.coins := by
  obtain ⟨undo, hupdate, -⟩ := connectTx_coins E G C s t x h
  obtain ⟨-, -, -, hcoins⟩ := (updateCoins_ok_iff _ _ _ _ _ _).mp hupdate
  have hlen := checkTransaction_length E _ _ _ _ hcheck
  intro o coin hcoin
  rw [hcoins] at hcoin
  rcases mem_or_of_putAll _ _ _ _ hcoin with hnew | hold
  · exact newCoins_genuine E outputsOf x.1 _ (checkTransaction_ok E _ _ _ _ hcheck).2.2.1
      (by omega) hids _ hnew
  · rw [eraseAll_apply] at hold
    split at hold
    · cases hold
    · exact hs o coin hold

lemma connectBlock_genuine (view : CCoinsViewCache) (b : CBlock) (c : Connected)
    (hids : ∀ tx ∈ b.vtx, outputsOf (E.txHash tx) = tx.vpout) (hview : Genuine outputsOf view.coins)
    (h : connectBlock E G C view b = .ok c) : Genuine outputsOf c.view.coins := by
  obtain ⟨hbefore, t, hloop, -, rfl⟩ := (connectBlock_ok_iff E G C view b c).mp h
  obtain ⟨-, hblock, -⟩ := checkBefore_ok E G C view b () hbefore
  obtain ⟨-, hcheck⟩ := checkBlock_ok E _ b () hblock
  have hcoins : (finish E C b t).view.coins = t.view.coins := by
    unfold finish
    split <;> rfl
  rw [hcoins]
  refine loop_induction (connectTx E G C) (fun s => Genuine outputsOf s.view.coins) _ ?_
    _ t hview hloop
  intro s t x hx hs hstep
  have hmem := List.fst_mem_of_mem_zipIdx hx
  exact connectTx_genuine E outputsOf G C s t x _ (hcheck _ hmem) (hids _ hmem) hs hstep

/-- The scripts of the standard inputs pass on every genuine view. -/
def ScriptsPass (tx : CTransaction) (flags : UInt32) : Prop :=
  ∀ coins, Genuine outputsOf coins → ∀ x ∈ tx.vin.zipIdx, ¬ x.1.isAnonInput →
    ∀ coin ∈ coins x.1.prevout, E.verifyScript (scriptCheck tx flags x.2 coin) = none

lemma checkInput_passes (hnow : m.pvChecks = false) (v v' : List CScriptCheck) (x : CTxIn × Nat)
    (hstd : ¬ x.1.isAnonInput) (h : checkInput E coins tx m v x = .ok v') :
    ∃ coin, coins x.1.prevout = some coin ∧ E.verifyScript (scriptCheck tx m.flags x.2 coin) =
      none := by
  simp only [checkInput, if_neg hstd, hnow, Bool.false_eq_true, if_false, bind_ok_iff,
    orReject_ok_iff] at h
  obtain ⟨coin, hcoin, u, hrun, -⟩ := h
  refine ⟨coin, hcoin, ?_⟩
  cases hverify : E.verifyScript (scriptCheck tx m.flags x.2 coin) with
  | none => rfl
  | some err =>
    simp only [runCheck, hverify] at hrun
    split at hrun
    · cases hrun
    · cases hrun

lemma inserted_scriptsPass (coins : CoinMap) (cache : ScriptCache) (tx : CTransaction)
    (m : CheckMode) (r : InputsResult) (k : Uint256) (hcoins : Genuine outputsOf coins)
    (hanon : m.fAnonChecks = true) (h : checkInputs E db pool coins cache tx m = .ok r)
    (hk : r.inserted = some k) : k = cacheEntry E tx m.flags ∧ ScriptsPass E outputsOf tx m.flags ∧
      (tx.anonInputs ≠ [] → verifyMLSAG E db pool tx = .ok ()) := by
  unfold checkInputs at h
  split at h
  · rw [← Except.ok.inj h] at hk
    cases hk
  · split at h
    · rw [← Except.ok.inj h] at hk
      cases hk
    · obtain ⟨hloop, hring, hins⟩ := (checkInputsMiss_ok_iff E db pool coins tx m r).mp h
      rw [hk] at hins
      split at hins
      · rename_i hstore
        have hnow : m.pvChecks = false := by simpa using (Bool.and_eq_true_iff.mp hstore).2
        refine ⟨Option.some.inj hins, ?_, fun hne => hring hne hanon⟩
        intro coins' hcoins' x hx hstd coin hcoin
        obtain ⟨v, v', hstep⟩ := loop_ok_mem _ _ _ _ hloop x hx
        obtain ⟨coin', hcoin', hpass⟩ := checkInput_passes E coins tx m hnow v v' x hstd hstep
        rw [scriptCheck_of_genuine outputsOf hcoins' hcoins hcoin hcoin', hpass]
      · cases hins

/-- The ring signatures were accepted once, on ring outputs that are still there. -/
def Verified (db : CBlockTreeDB) (tx : CTransaction) : Prop :=
  ∃ P db' pool, verifyMLSAG (withProcess E P) db' pool tx = .ok () ∧
    ∀ i ao, db'.rctOutput i = some ao → db.rctOutput i = some ao

/-- The tip's coins are genuine, its ring outputs are numbered, and every entry comes from a call
whose scripts pass and whose ring signatures were verified. -/
structure Traced (calls : Call → Prop) (S : CacheState) : Prop where
  genuine : Genuine outputsOf S.chain.coins
  indexed : OutputsIndexed E S.chain
  cached : ∀ k, S.cache k = true → ∃ c, calls c ∧ cacheEntry E c.tx c.mode.flags = k ∧
    ScriptsPass E outputsOf c.tx c.mode.flags ∧ (c.tx.anonInputs ≠ [] → Verified E S.chain.db c.tx)

/-- A connected block adds ring outputs and changes none. -/
lemma connectTip_rctOutput (S T : ChainState) (a : ConnectStep) (hS : OutputsIndexed E S)
    (ha : ∀ tx ∈ a.block.vtx, PlainCoinBase tx) (h : connectTip E S a = .ok T) (i : Int)
    (ao : CAnonOutput) (hao : S.db.rctOutput i = some ao) : T.db.rctOutput i = some ao := by
  have hT := connectTip_outputs E S T a hS ha h
  obtain ⟨c, hc, rfl⟩ := (connectTip_ok_iff E S T a).mp h
  have hrecords : chainRecords E (⟨a.block, c.pindex, c.undo⟩ :: S.chain) = _ :=
    chainRecords_connect E S a c hc
  refine (hT.outputs i ao).mpr ?_
  show _ ∈ numbered 0 ((chainRecords E (_ :: S.chain)).map stored)
  rw [hrecords, List.map_append, numbered_append]
  exact List.mem_append_left _ ((hS.outputs i ao).mp hao)

lemma cacheStep_traced (calls : Call → Prop) (S T : CacheState) (a : CacheStep)
    (ha : Permitted E outputsOf a) (hcall : ∀ c, a = .check c → calls c)
    (hS : Traced E outputsOf calls S) (h : cacheStep E S a = .ok T) :
    Traced E outputsOf calls T := by
  cases a with
  | check c =>
    simp only [cacheStep] at h
    split at h
    · rename_i r hr
      rw [← Except.ok.inj h]
      refine ⟨hS.genuine, hS.indexed, ?_⟩
      intro k hk
      rcases Bool.or_eq_true_iff.mp hk with hold | hnew
      · exact hS.cached k hold
      · have hins : r.inserted = some k := by simpa using hnew
        obtain ⟨rfl, hpass, hring⟩ := inserted_scriptsPass (withProcess E c.process)
          outputsOf _ _ _ _ _ _ r k ha.2.1 ha.2.2 hr hins
        exact ⟨c, hcall c rfl, (cacheEntry_withProcess E c.process ha.1 _ _).symm, hpass,
          fun hne => ⟨_, _, _, hring hne, fun _ _ h => h⟩⟩
    · rw [← Except.ok.inj h]
      exact hS
  | connect a =>
    simp only [cacheStep, connectWith, bind_ok_iff, relabel_ok_iff, pure_ok_iff] at h
    obtain ⟨c, hc, rfl⟩ := h
    have htip := (connectTip_ok_iff E S.chain _ _).mpr ⟨c, hc, rfl⟩
    have hplain : ∀ tx ∈ (ConnectStep.withCache a S.cache).block.vtx, PlainCoinBase tx :=
      fun tx htx => (ha tx htx).2
    refine ⟨connectBlock_genuine (withProcess E a.around.process) outputsOf _ _ _ _ c
      (fun tx htx => (ha tx htx).1) hS.genuine hc,
      connectTip_outputs E S.chain _ (ConnectStep.withCache a S.cache) hS.indexed hplain htip, ?_⟩
    rw [connectBlock_inserted _ _ _ rfl _ _ c hc]
    intro k hk
    obtain ⟨c', hcall', hkey, hpass, hring⟩ := hS.cached k (by simpa [insertAll] using hk)
    refine ⟨c', hcall', hkey, hpass, fun hne => ?_⟩
    obtain ⟨P, db', pool, hverified, hmembers⟩ := hring hne
    exact ⟨P, db', pool, hverified, fun i ao h =>
      connectTip_rctOutput E S.chain _ (ConnectStep.withCache a S.cache) hS.indexed hplain htip i ao
        (hmembers i ao h)⟩
  | evict keep =>
    rw [← Except.ok.inj h]
    exact ⟨hS.genuine, hS.indexed, fun k hk => hS.cached k (Bool.and_eq_true_iff.mp hk).1⟩

/-- Along a run every entry of the cache is traced to a call. -/
lemma run_traced (steps : List CacheStep) (hallowed : ∀ a ∈ steps, Permitted E outputsOf a)
    (T : CacheState) (hrun : loop (cacheStep E) .start steps = .ok T) :
    Traced E outputsOf (fun c => .check c ∈ steps) T := by
  refine loop_induction (cacheStep E) _ steps ?_ _ T
    ⟨genuine_empty outputsOf, (indexed_empty E).toOutputsIndexed, fun k hk => ?_⟩ hrun
  · intro S T a hmem hS h
    exact cacheStep_traced E outputsOf _ S T a (hallowed a hmem) (fun c hc => hc ▸ hmem) hS h
  · cases hk

lemma checkInput_loop_accepts (xs : List (CTxIn × Nat)) (v : List CScriptCheck)
    (hv : queueSucceeds E v = true)
    (hpass : ∀ x ∈ xs, ¬ x.1.isAnonInput → ∃ coin, coins x.1.prevout = some coin ∧
      E.verifyScript (scriptCheck tx m.flags x.2 coin) = none) :
    ∃ v', loop (checkInput E coins tx m) v xs = .ok v' ∧ queueSucceeds E v' = true := by
  induction xs generalizing v with
  | nil => exact ⟨v, rfl, hv⟩
  | cons x xs ih =>
    rw [List.forall_mem_cons] at hpass
    have hstep : ∃ w, checkInput E coins tx m v x = .ok w ∧ queueSucceeds E w = true := by
      by_cases hanon : x.1.isAnonInput
      · exact ⟨v, by rw [checkInput, if_pos hanon], hv⟩
      · obtain ⟨coin, hcoin, hverify⟩ := hpass.1 hanon
        rw [checkInput, if_neg hanon, hcoin]
        cases hq : m.pvChecks with
        | true =>
          refine ⟨v ++ [scriptCheck tx m.flags x.2 coin], rfl, ?_⟩
          rw [queueSucceeds, List.all_append, ← queueSucceeds, hv]
          simp [hverify]
        | false =>
          refine ⟨v, ?_, hv⟩
          show (runCheck E (scriptCheck tx m.flags x.2 coin) >>= fun _ => pure v) = _
          simp only [runCheck, hverify]
          rfl
    obtain ⟨w, hw, hqueue⟩ := hstep
    obtain ⟨v', hrest, hlast⟩ := ih w hqueue hpass.2
    exact ⟨v', (loop_cons_ok_iff _ _ _ _ _).mpr ⟨w, hw, hrest⟩, hlast⟩

/-- Where the scripts pass, only the ring signatures decide. -/
lemma accepts_miss_iff (coins : CoinMap) (tx : CTransaction) (m : CheckMode) (hcb : ¬ tx.isCoinBase)
    (hcoins : Genuine outputsOf coins) (havail : haveInputs coins tx)
    (hpass : ScriptsPass E outputsOf tx m.flags) :
    accepts E (checkInputsMiss E db pool coins tx m) = true ↔
      (tx.anonInputs ≠ [] → m.fAnonChecks = true → verifyMLSAG E db pool tx = .ok ()) := by
  have hscripts : ∀ x ∈ tx.vin.zipIdx, ¬ x.1.isAnonInput → ∃ coin, coins x.1.prevout = some coin ∧
      E.verifyScript (scriptCheck tx m.flags x.2 coin) = none := by
    intro x hx hstd
    have hsome := havail.resolve_left hcb x.1 (List.fst_mem_of_mem_zipIdx hx) hstd
    obtain ⟨coin, hcoin⟩ := Option.isSome_iff_exists.mp hsome
    exact ⟨coin, hcoin, hpass coins hcoins x hx hstd coin hcoin⟩
  constructor
  · intro haccepts
    cases hr : checkInputsMiss E db pool coins tx m with
    | error e =>
      rw [hr] at haccepts
      cases haccepts
    | ok r => exact ((checkInputsMiss_ok_iff E db pool coins tx m r).mp hr).2.1
  · intro hring
    obtain ⟨v, hloop, hqueue⟩ := checkInput_loop_accepts E coins tx m _ [] rfl hscripts
    rw [(checkInputsMiss_ok_iff E db pool coins tx m ⟨v, _⟩).mpr ⟨hloop, hring, rfl⟩]
    exact hqueue

/-- The cache spares the call its script and ring checks. -/
def Hit (S : CacheState) (c : Call) : Prop :=
  c.mode.fScriptChecks = true ∧ S.cache (cacheEntry E c.tx c.mode.flags) = true

/-- No key image of the transaction is recorded in the database or pending in the mempool for
another transaction. -/
def Fresh (db : CBlockTreeDB) (pool : CTxMemPool) (tx : CTransaction) : Prop :=
  ∀ ki ∈ txKeyImages tx, OwnRecord pool.mapKeyImages (E.txHash tx) ki ∧
    OwnRecord db.rctKeyImage (E.txHash tx) ki

lemma fresh_of_no_anon (h : tx.anonInputs = []) : Fresh E db pool tx := by
  intro ki hki
  rw [txKeyImages, h] at hki
  cases hki

/-- What was verified before is accepted now exactly when its key images are fresh. -/
lemma verifyMLSAG_iff_fresh (P : Process) (hassigned : Assigned tx) (h : Verified E db tx) :
    verifyMLSAG (withProcess E P) db pool tx = .ok () ↔ Fresh E db pool tx := by
  constructor
  · intro hnow ki hki
    exact ⟨((verifyMLSAG_ok_iff_pool ..).mp hnow).2 ki hki,
      (verifyMLSAG_keyImages _ _ _ _ _ hnow).2 ki hki⟩
  · intro hfresh
    obtain ⟨P', db', pool', hverified, hmembers⟩ := h
    have hsame : verifyMLSAG (withProcess E P) db' pool' tx =
        verifyMLSAG (withProcess E P') db' pool' tx := verdict_congr rfl rfl hassigned
    exact verifyMLSAG_mono hmembers hfresh (hsame.trans hverified)

/-- After any run from the empty chain and cache the tip's coins are a genuine view, and a call on a
genuine view that has its coins gets the verdict of an empty cache if and only if, on a hit, the key
images of the transaction are fresh. -/
theorem cache_transparent_iff (steps : List CacheStep)
    (hallowed : ∀ a ∈ steps, Permitted E outputsOf a) (T : CacheState)
    (hrun : loop (cacheStep E) .start steps = .ok T) (c : Call)
    (hc : Permitted E outputsOf (.check c)) (havail : haveInputs c.coins c.tx)
    (hassigned : c.tx.anonInputs ≠ [] → Assigned c.tx)
    (hfree : ∀ c', .check c' ∈ steps →
      cacheEntry E c'.tx c'.mode.flags = cacheEntry E c.tx c.mode.flags →
      c'.tx = c.tx ∧ c'.mode.flags = c.mode.flags) : Genuine outputsOf T.chain.coins ∧
      (accepts E (runCall E T c T.cache) = accepts E (runCall E T c fun _ => false) ↔
        (Hit E T c → Fresh E T.chain.db c.mempool c.tx)) := by
  have htraced := run_traced E outputsOf steps hallowed T hrun
  refine ⟨htraced.genuine, ?_⟩
  have hentry := cacheEntry_withProcess E c.process hc.1 c.tx c.mode.flags
  simp only [runCall, checkInputs, hentry, Bool.false_eq_true, if_false]
  by_cases hskip : c.tx.isCoinBase ∨ c.mode.fScriptChecks = false
  · rw [if_pos hskip, if_pos hskip]
    refine ⟨fun _ hhit => ?_, fun _ => rfl⟩
    rcases hskip with hcb | hoff
    · exact fresh_of_no_anon E _ _ _ (c.tx.anonInputs_of_isCoinBase hcb)
    · exact absurd hhit.1 (by simp [hoff])
  · rw [if_neg hskip, if_neg hskip]
    rw [not_or, Bool.not_eq_false] at hskip
    by_cases hcached : T.cache (cacheEntry E c.tx c.mode.flags) = true
    · obtain ⟨c', hmem, hkey, hpass, hring⟩ := htraced.cached _ hcached
      obtain ⟨htx, hflags⟩ := hfree c' hmem hkey
      rw [htx] at hring
      rw [htx, hflags] at hpass
      have hmiss := accepts_miss_iff (withProcess E c.process) outputsOf T.chain.db
        c.mempool c.coins c.tx c.mode hskip.1 hc.2.1 havail hpass
      have hfresh : (c.tx.anonInputs ≠ [] → c.mode.fAnonChecks = true →
          verifyMLSAG (withProcess E c.process) T.chain.db c.mempool c.tx = .ok ()) ↔
          Fresh E T.chain.db c.mempool c.tx := by
        by_cases hne : c.tx.anonInputs = []
        · exact iff_of_true (fun h => absurd hne h) (fresh_of_no_anon E _ _ _ hne)
        · rw [← verifyMLSAG_iff_fresh E _ _ _ c.process (hassigned hne) (hring hne)]
          exact ⟨fun h => h hne hc.2.2, fun h _ _ => h⟩
      rw [hfresh] at hmiss
      rw [if_pos hcached]
      constructor
      · intro hsame _
        exact hmiss.mp hsame.symm
      · intro hring
        exact (hmiss.mpr (hring ⟨hskip.2, hcached⟩)).symm
    · rw [if_neg hcached]
      exact ⟨fun _ hhit => absurd hhit.2 hcached, fun _ => rfl⟩

end

open ToyEnvironment KeyImages

def ringCall : Call where
  process := process
  mempool := .empty
  coins _ := none
  tx := ringTx 21
  mode :=
    { fScriptChecks := true
      flags := STANDARD_SCRIPT_VERIFY_FLAGS
      cacheFullScriptStore := true
      pvChecks := false }

/-- The transaction is checked on the chain with the ring outputs, and then `later` happens. -/
def callSteps (later : List CacheStep) : List CacheStep :=
  [.connect genesisStep, .connect convertStep, .check ringCall] ++ later

def conflictStep : ConnectStep :=
  stepOn convertStep.pindex [stake genesisHash 2 2 [keyOutput 3 1005], ringTx 22]

def toyOutputs (txid : Uint256) : List CTxOutBase :=
  (((genesisBlock.vtx ++ convertStep.block.vtx ++ conflictStep.block.vtx).find?
    fun tx => chainEnv.txHash tx = txid).map (·.vpout)).getD []

lemma callSteps_allowed (later : List CacheStep)
    (h : ∀ a ∈ later, Permitted chainEnv toyOutputs a) :
    ∀ a ∈ callSteps later, Permitted chainEnv toyOutputs a := by
  have hgenesis : Permitted chainEnv toyOutputs (.connect genesisStep) :=
    show ∀ tx ∈ genesisBlock.vtx, _ by decide +kernel
  have hconvert : Permitted chainEnv toyOutputs (.connect convertStep) :=
    show ∀ tx ∈ convertStep.block.vtx, _ by decide +kernel
  have hcall : Permitted chainEnv toyOutputs (.check ringCall) :=
    ⟨rfl, fun o coin hcoin => (by cases hcoin), rfl⟩
  rw [callSteps, List.forall_mem_append]
  refine ⟨?_, h⟩
  simp only [List.forall_mem_cons]
  exact ⟨hgenesis, hconvert, hcall, by simp⟩

lemma ringCall_available : haveInputs ringCall.coins ringCall.tx := by decide +kernel

theorem cache_transparent_iff_unspent :
    ∃ T, loop (cacheStep chainEnv) .start (callSteps []) = .ok T ∧ Hit chainEnv T ringCall ∧
      accepts chainEnv (runCall chainEnv T ringCall T.cache) =
        accepts chainEnv (runCall chainEnv T ringCall fun _ => false) := by
  obtain ⟨T, hT, hview⟩ := exists_ok_of_toOption (loop (cacheStep chainEnv) .start (callSteps []))
    (fun T => (T.cache (cacheEntry chainEnv ringCall.tx ringCall.mode.flags),
      T.chain.db.rctKeyImage 77))
    (true, none) (by decide +kernel)
  obtain ⟨hhit, hnone⟩ := Prod.mk.inj hview
  have hshown : txKeyImages ringCall.tx = [77] := by decide +kernel
  refine ⟨T, hT, ⟨rfl, hhit⟩, ?_⟩
  refine (cache_transparent_iff chainEnv toyOutputs (callSteps [])
    (callSteps_allowed [] (by simp)) T hT
    ringCall (callSteps_allowed [] (by simp) (.check ringCall) (by simp [callSteps]))
      ringCall_available
    (fun _ => assigned_ringTx) ?_).2.mpr fun _ ki hki => ?_
  · simp [callSteps]
  · rw [hshown, List.mem_singleton] at hki
    subst hki
    exact ⟨ownRecord_empty _ _, fun h hh => nomatch hnone.symm.trans hh⟩

/-- Once a block has spent the ring output, the cache still accepts the transaction and
`VerifyMLSAG` does not. -/
theorem cache_hides_spent_key_image :
    (∀ a ∈ callSteps [.connect conflictStep], Permitted chainEnv toyOutputs a) ∧
      (∀ c, .check c ∈ callSteps [.connect conflictStep] → c = ringCall) ∧
      ∃ T, loop (cacheStep chainEnv) .start (callSteps [.connect conflictStep]) = .ok T ∧
        haveInputs ringCall.coins ringCall.tx ∧
        accepts chainEnv (runCall chainEnv T ringCall T.cache) = true ∧
        accepts chainEnv (runCall chainEnv T ringCall fun _ => false) = false := by
  refine ⟨callSteps_allowed _ ?_, by simp [callSteps], ?_⟩
  · have hconflict : Permitted chainEnv toyOutputs (.connect conflictStep) :=
      show ∀ tx ∈ conflictStep.block.vtx, _ by decide +kernel
    simpa using hconflict
  · obtain ⟨T, hT, hdiffer⟩ := exists_ok_of_toOption
      (loop (cacheStep chainEnv) .start (callSteps [.connect conflictStep]))
      (fun T => (accepts chainEnv (runCall chainEnv T ringCall T.cache),
        accepts chainEnv (runCall chainEnv T ringCall fun _ => false))) (true, false)
      (by decide +kernel)
    exact ⟨T, hT, ringCall_available, Prod.mk.inj hdiffer⟩

end CacheRun
