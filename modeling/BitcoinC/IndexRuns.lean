import BitcoinC.NewBlocks

/-!
# Runs of the block index

Every change of the block index happens under `cs_main`, in one of the events
below.
-/

namespace IndexRuns

open Primitives Environment Verdicts HeaderChecks Calls BlockIndex NewBlocks ChainRun

structure EntryCore where
  header : CBlockIndex
  pprev : Option Nat
  pskip : Option Nat
  nTimeMax : UInt32
  nChainWork : BitVec 256

def core (e : IndexEntry) : EntryCore := ⟨e.header, e.pprev, e.pskip, e.nTimeMax, e.nChainWork⟩

/-- What `ActivateBestChain` leaves alone: it adds and removes no entry, and it changes status bits
and the data of connected blocks only. The new tip has its block on disk. -/
structure SameIndex (s t : IndexState) : Prop where
  map : t.mapBlockIndex = s.mapBlockIndex
  best : t.pindexBestHeader = s.pindexBestHeader
  delayed : t.delayedBlocks = s.delayedBlocks
  cores : t.blocks.map core = s.blocks.map core
  flags : t.blocks.map (fun e => (e.haveData, e.accepted)) =
    s.blocks.map fun e => (e.haveData, e.accepted)
  tip : t.tip = s.tip ∨ ∃ p e, t.tip = some p ∧ s.blocks[p]? = some e ∧ e.haveData = true

structure Activation where
  run : CBlock → IndexState → IndexState × Bool
  same : ∀ b s, SameIndex s (run b s).1

def activateBestChain (A : Activation) (b : CBlock) : IndexCall Bool := do
  let s ← read
  write fun _ => (A.run b s).1
  pure (A.run b s).2

section

variable (E : Env) (H : HeaderParams) (A : Activation)

def ignoreRejection {α : Type} (x : IndexCall α) : IndexCall Unit := do
  let r ← attempt x
  match r with
  | .error (.throws what) => fail (.throws what)
  | _ => pure ()

def nextDelayed (xs : List DelayedBlock) (id : Nat) : Option Nat :=
  ((xs.dropWhile fun x => x.id ≠ id).tail.head?).map (·.id)

mutual

def processNewBlock (n : Nat) (d : Delivery) (b : CBlock) : IndexCall Unit :=
  match n with
  | 0 => fail (.throws "stack overflow")
  | n + 1 => do
    let r ← receiveBlock E H d b
    match r with
    | none => pure ()
    | some p => do
      let ok ← activateBestChain A b
      rejectWhen (ok = false) (.error "ActivateBestChain failed")
      let e ← entryAt p
      let s ← read
      checkDelayedBlocks n d e.hashBlock (s.delayedBlocks.head?.map (·.id))

def checkDelayedBlocks (n : Nat) (d : Delivery) (hash : Uint256) (cur : Option Nat) :
    IndexCall Unit :=
  match n, cur with
  | 0, _ => fail (.throws "stack overflow")
  | _ + 1, none => pure ()
  | n + 1, some id => do
    let s ← read
    let x ← lift (orReject (s.delayedBlocks.find? fun x => x.id = id)
      (.throws "CheckDelayedBlocks: p"))
    if x.block.header.hashPrevBlock = hash then do
      ignoreRejection (processNewBlock n { d with fRequested := false, fChecked := true } x.block)
      let t ← read
      rejectWhen (t.delayedBlocks.all (fun x => x.id ≠ id) = true) (.throws "CheckDelayedBlocks: p")
      write (dropDelayed id)
      checkDelayedBlocks n d hash (nextDelayed t.delayedBlocks id)
    else if x.time + MAX_DELAY_BLOCK_SECONDS < d.time then do
      eraseDelayedBlock E id
      checkDelayedBlocks n d hash (nextDelayed s.delayedBlocks id)
    else checkDelayedBlocks n d hash (nextDelayed s.delayedBlocks id)

end

inductive Event
  /-- `AcceptBlockHeader`. -/
  | header (process : Process) (peer : Peer) (block : CBlockHeader)
  /-- `AcceptBlock`. -/
  | accept (d : Delivery) (b : CBlock)
  /-- `ProcessNewBlock` up to `ActivateBestChain`. -/
  | receive (d : Delivery) (b : CBlock)
  | activate (b : CBlock)
  /-- `DelayBlock`. -/
  | delay (time nodeId : Int) (b : CBlock)
  /-- A delayed block leaves the list after it was processed. -/
  | drop (id : Nat)
  /-- `EraseDelayedBlock`. -/
  | erase (id : Nat)
  /-- `RemoveUnreceivedHeader`. -/
  | remove (hash : Uint256)
  /-- `ProcessDuplicateStakeHeader`. -/
  | duplicateStake (p : Nat) (nodeId : Int) (peerCount nPeers : Nat)

def Event.process : Event → Option Process
  | .header process _ _ => some process
  | .accept d _ => some d.process
  | .receive d _ => some d.process
  | _ => none

def eventCall : Event → IndexCall Unit
  | .header process peer block => do
    let _ ← acceptBlockHeader (withProcess E process) H peer block
    pure ()
  | .accept d b => do
    let _ ← acceptBlock E H d b
    pure ()
  | .receive d b => do
    let _ ← receiveBlock E H d b
    pure ()
  | .activate b => do
    let _ ← activateBestChain A b
    pure ()
  | .delay time nodeId b => delayBlock E time nodeId b
  | .drop id => write (dropDelayed id)
  | .erase id => eraseDelayedBlock E id
  | .remove hash => do
    let _ ← removeUnreceivedHeader hash
    pure ()
  | .duplicateStake p nodeId peerCount nPeers => do
    let _ ← processDuplicateStakeHeader p nodeId peerCount nPeers
    pure ()

def step (s : IndexState) (event : Event) : Verdict IndexState :=
  match eventCall E H A event s with
  | (.error (.throws what), _) => .error (.throws what)
  | (_, t) => .ok t

/-- There is a run of events from `s` to `t`. -/
def Reaches (s t : IndexState) : Prop := ∃ events, loop (step E H A) s events = .ok t

/-- The object of the genesis block, after `LoadGenesisBlock` and once the block is connected. -/
def genesisEntry (genesis : CBlock) : IndexEntry :=
  { hashBlock := E.hashGenesisBlock
    nHeight := 0
    nTime := genesis.header.nTime
    nBits := genesis.header.nBits
    nTimeMax := genesis.header.nTime
    nChainWork := getBlockProof genesis.header.nBits
    nTx := genesis.vtx.length
    nValid := BLOCK_VALID_SCRIPTS
    haveData := true
    accepted := true }

def started (genesis : CBlock) : IndexState where
  blocks := [genesisEntry E genesis]
  mapBlockIndex := Function.update (fun _ => none) E.hashGenesisBlock (some 0)
  pindexBestHeader := some 0
  tip := some 0
  failedBlocks := []
  delayedBlocks := []
  nDelayed := 0

lemma started_entry {genesis : CBlock} {p : Nat} {e : IndexEntry}
    (h : (started E genesis).blocks[p]? = some e) : p = 0 ∧ e = genesisEntry E genesis := by
  cases p with
  | zero =>
    cases h
    exact ⟨rfl, rfl⟩
  | succ p => cases h

lemma started_hash {genesis : CBlock} {hash : Uint256} {p : Nat}
    (h : (started E genesis).mapBlockIndex hash = some p) :
    hash = E.hashGenesisBlock ∧ p = 0 := by
  change Function.update (fun _ => none) E.hashGenesisBlock (some 0) hash = some p at h
  by_cases hself : hash = E.hashGenesisBlock
  · rw [hself, Function.update_self] at h
    exact ⟨hself, (Option.some.inj h).symm⟩
  · rw [Function.update_of_ne hself] at h
    cases h

def StopsOr (s : IndexState) (reject : Reject) (t : IndexState) : Prop :=
  (∃ what, reject = .throws what) ∨ Reaches E H A s t

variable {E H A}

lemma Reaches.refl (s : IndexState) : Reaches E H A s s := ⟨[], rfl⟩

lemma Reaches.trans {s t u : IndexState} (hst : Reaches E H A s t) (htu : Reaches E H A t u) :
    Reaches E H A s u := by
  obtain ⟨first, hfirst⟩ := hst
  obtain ⟨second, hsecond⟩ := htu
  exact ⟨first ++ second, (loop_append_ok_iff _ s u first second).mpr ⟨t, hfirst, hsecond⟩⟩

lemma StopsOr.after {s t u : IndexState} {reject : Reject} (hst : Reaches E H A s t)
    (h : StopsOr E H A t reject u) : StopsOr E H A s reject u := h.imp_right hst.trans

variable (E H A)

lemma eventCall_reaches (event : Event) (s : IndexState) :
    Wp (eventCall E H A event) (fun _ t => Reaches E H A s t) (StopsOr E H A s) s := by
  have hone : ∀ t, step E H A s event = .ok t → Reaches E H A s t := fun t ht =>
    ⟨[event], (loop_cons_ok_iff _ s t event []).mpr ⟨t, ht, rfl⟩⟩
  unfold step at hone
  refine wp_mono (wp_self (eventCall E H A event) s) ?_ ?_
  · intro _ t h
    exact hone t (by rw [h])
  · intro reject t h
    cases reject with
    | throws what => exact .inl ⟨what, rfl⟩
    | dos n code reason corruption => exact .inr (hone t (by rw [h]))
    | error what => exact .inr (hone t (by rw [h]))

lemma receiveBlock_reaches (d : Delivery) (b : CBlock) (s : IndexState) :
    Wp (receiveBlock E H d b) (fun _ t => Reaches E H A s t) (StopsOr E H A s) s := by
  have h := eventCall_reaches E H A (.receive d b) s
  simp only [eventCall, wp_bind, wp_pure] at h
  exact h

/-- `ProcessNewBlockHeaders` is a run of header events, up to the first header that is rejected. -/
lemma processNewBlockHeaders_reaches (process : Process) (peer : Peer) (headers : List CBlockHeader)
    (s : IndexState) : Wp (processNewBlockHeaders (withProcess E process) H peer headers)
      (fun _ t => Reaches E H A s t) (StopsOr E H A s) s := by
  induction headers generalizing s with
  | nil => exact Reaches.refl s
  | cons block rest ih =>
    have h := eventCall_reaches E H A (.header process peer block) s
    simp only [eventCall, processNewBlockHeaders, wp_bind, wp_pure] at h ⊢
    refine wp_mono h ?_ fun _ _ h => h
    intro _ t hst
    exact wp_mono (ih t) (fun _ _ h => hst.trans h) fun _ _ h => h.after hst

lemma activateBestChain_reaches (b : CBlock) (s : IndexState) :
    Wp (activateBestChain A b) (fun _ t => Reaches E H A s t) (StopsOr E H A s) s := by
  have h := eventCall_reaches E H A (.activate b) s
  simp only [eventCall, wp_bind, wp_pure] at h
  exact h

lemma ignoreRejection_reaches {α : Type} (x : IndexCall α) (s : IndexState)
    (h : Wp x (fun _ t => Reaches E H A s t) (StopsOr E H A s) s) :
    Wp (ignoreRejection x) (fun _ t => Reaches E H A s t) (StopsOr E H A s) s := by
  simp only [ignoreRejection, wp_bind, wp_attempt]
  refine wp_mono h (fun _ _ h => h) ?_
  intro reject t hstop
  cases reject with
  | throws what => exact .inl ⟨what, rfl⟩
  | dos n code reason corruption =>
    rcases hstop with ⟨_, hthrow⟩ | hreach
    · cases hthrow
    · exact hreach
  | error what =>
    rcases hstop with ⟨_, hthrow⟩ | hreach
    · cases hthrow
    · exact hreach

/-- `ProcessNewBlock`, with the delayed blocks it processes in turn, is a run of the events above,
and so is what it has done when it fails. -/
theorem processNewBlock_reaches (n : Nat) :
    (∀ d b s, Wp (processNewBlock E H A n d b) (fun _ t => Reaches E H A s t) (StopsOr E H A s) s) ∧
    ∀ d hash cur s, Wp (checkDelayedBlocks E H A n d hash cur) (fun _ t => Reaches E H A s t)
      (StopsOr E H A s) s := by
  induction n with
  | zero =>
    constructor
    · intro d b s
      exact .inl ⟨_, rfl⟩
    · intro d hash cur s
      exact .inl ⟨_, rfl⟩
  | succ n ih =>
    obtain ⟨ihprocess, ihdelayed⟩ := ih
    constructor
    · intro d b s
      simp only [processNewBlock, wp_bind]
      refine wp_mono (receiveBlock_reaches E H A d b s) ?_ fun _ _ h => h
      intro r t hst
      cases r with
      | none => exact hst
      | some p =>
        simp only [wp_bind]
        refine wp_mono (activateBestChain_reaches E H A b t) ?_ fun _ _ h => h.after hst
        intro ok u htu
        have hsu := hst.trans htu
        simp only [rejectWhen, entryAt, wp_bind, wp_lift, wp_read]
        refine ⟨fun _ _ => ⟨fun e _ => ?_, fun _ _ => .inr hsu⟩, fun _ _ => .inr hsu⟩
        exact wp_mono (ihdelayed _ _ _ u) (fun _ _ h => hsu.trans h) fun _ _ h => h.after hsu
    · intro d hash cur s
      cases cur with
      | none => exact Reaches.refl s
      | some id =>
        simp only [checkDelayedBlocks, wp_bind, wp_read, wp_lift]
        refine ⟨fun x _ => ?_, fun _ _ => .inr (Reaches.refl s)⟩
        split
        · -- the block waited for this one
          simp only [wp_bind]
          refine wp_mono (ignoreRejection_reaches E H A _ s (ihprocess _ x.block s)) ?_ fun _ _ h =>
            h
          intro _ t hst
          simp only [rejectWhen, wp_read, wp_lift, wp_write]
          refine ⟨fun _ _ => ?_, fun _ _ => .inr hst⟩
          have hsu := hst.trans (eventCall_reaches E H A (.drop id) t)
          exact wp_mono (ihdelayed _ _ _ _) (fun _ _ h => hsu.trans h) fun _ _ h => h.after hsu
        · split
          · -- the block has waited for too long
            simp only [wp_bind]
            refine wp_mono (eventCall_reaches E H A (.erase id) s) ?_ fun _ _ h => h
            intro _ t hst
            exact wp_mono (ihdelayed _ _ _ t) (fun _ _ h => hst.trans h) fun _ _ h => h.after hst
          · exact ihdelayed _ _ _ s

end

end IndexRuns
