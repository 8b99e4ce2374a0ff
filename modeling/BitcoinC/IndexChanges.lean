import BitcoinC.IndexRuns

/-!
# What the calls do to the block index

Each call is a sequence of small changes: a status mark, the data of a block, a
new entry, an erased entry, the queues, or `ActivateBestChain`.
-/

namespace IndexChanges

open Primitives Environment Verdicts HeaderChecks Calls BlockIndex NewBlocks ChainRun IndexRuns
  Relation

/-- The entry keeps its header fields and data and stays accepted. -/
structure SameEntry (e e' : IndexEntry) : Prop where
  core : core e' = core e
  data : e'.haveData = e.haveData
  accepted : e.accepted = true → e'.accepted = true

section

variable {s t : IndexState}

lemma exists_core (hcores : t.blocks.map core = s.blocks.map core) (p : Nat) (e : IndexEntry)
    (he : t.blocks[p]? = some e) : ∃ old, s.blocks[p]? = some old ∧ core e = core old := by
  have h := congrArg (fun cores => cores[p]?) hcores
  simp only [List.getElem?_map, he, Option.map_some] at h
  obtain ⟨old, hold, hcore⟩ := Option.map_eq_some_iff.mp h.symm
  exact ⟨old, hold, hcore.symm⟩

lemma core_hashBlock {e e' : IndexEntry} (h : core e = core e') : e.hashBlock = e'.hashBlock :=
  congrArg (fun c => c.header.hashBlock) h

lemma core_nHeight {e e' : IndexEntry} (h : core e = core e') : e.nHeight = e'.nHeight :=
  congrArg (fun c => c.header.nHeight) h

lemma core_nChainWork {e e' : IndexEntry} (h : core e = core e') :
    e.nChainWork = e'.nChainWork := congrArg EntryCore.nChainWork h

lemma core_nBits {e e' : IndexEntry} (h : core e = core e') : e.nBits = e'.nBits :=
  congrArg (fun c => c.header.nBits) h

lemma core_nTime {e e' : IndexEntry} (h : core e = core e') : e.nTime = e'.nTime :=
  congrArg (fun c => c.header.nTime) h

lemma core_pprev {e e' : IndexEntry} (h : core e = core e') : e.pprev = e'.pprev :=
  congrArg EntryCore.pprev h

lemma core_pskip {e e' : IndexEntry} (h : core e = core e') : e.pskip = e'.pskip :=
  congrArg EntryCore.pskip h

lemma update_get (s : IndexState) (p : Nat) (f : IndexEntry → IndexEntry) (i : Nat)
    (e : IndexEntry) (he : (s.update p f).blocks[i]? = some e) :
    ∃ old, s.blocks[i]? = some old ∧ ((i = p ∧ e = f old) ∨ (i ≠ p ∧ e = old)) := by
  unfold IndexState.update at he
  dsimp only at he
  rw [List.getElem?_modify, Option.map_eq_map, Option.map_eq_some_iff] at he
  obtain ⟨old, hold, rfl⟩ := he
  refine ⟨old, hold, ?_⟩
  by_cases hi : p = i
  · exact .inl ⟨hi.symm, by simp [hi]⟩
  · exact .inr ⟨Ne.symm hi, by simp [hi]⟩

lemma update_cores (s : IndexState) (p : Nat) (f : IndexEntry → IndexEntry)
    (h : ∀ e, s.blocks[p]? = some e → core (f e) = core e) :
    (s.update p f).blocks.map core = s.blocks.map core := by
  refine List.ext_getElem? fun i => ?_
  rw [List.getElem?_map, List.getElem?_map]
  unfold IndexState.update
  dsimp only
  rw [List.getElem?_modify]
  cases he : s.blocks[i]? with
  | none => rfl
  | some e =>
    by_cases hi : p = i
    · subst hi
      simpa using h e he
    · simp [hi]

end

inductive Change (E : Env) (Ins : IndexState → CBlockHeader → Prop)
    (Del : IndexState → Uint256 → Prop) : IndexState → IndexState → Prop
  | mark (s : IndexState) (p : Nat) (f : IndexEntry → IndexEntry) (h : ∀ e, SameEntry e (f e)) :
      Change E Ins Del s (s.update p f)
  | store (s : IndexState) (p : Nat) (f : IndexEntry → IndexEntry) (hash : Uint256)
      (hp : s.mapBlockIndex hash = some p)
      (h : ∀ e, s.blocks[p]? = some e →
        core (f e) = core e ∧ (f e).accepted = true ∧ (f e).haveData = true) :
      Change E Ins Del s (s.update p f)
  | insert (s : IndexState) (block : CBlockHeader) (e : IndexEntry)
      (hnew : s.mapBlockIndex (headerHash E block) = none) (he : newEntry E s block = .ok e)
      (hins : headerHash E block = E.hashGenesisBlock ∨ Ins s block) :
      Change E Ins Del s (s.insert e)
  | erase (s : IndexState) (hash : Uint256) (hdel : Del s hash) :
      Change E Ins Del s { s with mapBlockIndex := Function.update s.mapBlockIndex hash none }
  | requeue (s : IndexState) (failed : List Nat) (delayed : List DelayedBlock) (n : Nat) :
      Change E Ins Del s { s with failedBlocks := failed, delayedBlocks := delayed, nDelayed := n }
  | activate (s t : IndexState) (h : SameIndex s t) : Change E Ins Del s t

/-- Some changes one after the other. -/
abbrev Changes (E : Env) (Ins : IndexState → CBlockHeader → Prop)
    (Del : IndexState → Uint256 → Prop) : IndexState → IndexState → Prop :=
  ReflTransGen (Change E Ins Del)

section

variable {E : Env} {H : HeaderParams} {Ins : IndexState → CBlockHeader → Prop}
  {Del : IndexState → Uint256 → Prop}

lemma entryAt_moves (p : Nat) : Moves (Change E Ins Del) (entryAt p) :=
  moves_bind moves_read fun _ => moves_lift _

lemma rejectWhen_moves (p : Prop) [Decidable p] (e : Reject) :
    Moves (Change E Ins Del) (rejectWhen p e) := moves_lift _

lemma updateEntry_moves (p : Nat) {f : IndexEntry → IndexEntry} (h : ∀ e, SameEntry e (f e)) :
    Moves (Change E Ins Del) (updateEntry p f) := moves_write fun s => .mark s p f h

lemma markFailedChildren_moves (failedit n p : Nat) :
    Moves (Change E Ins Del) (markFailedChildren failedit n p) := by
  induction n generalizing p with
  | zero => exact rejectWhen_moves _ _
  | succ n ih =>
    refine moves_ite (moves_pure _) ?_
    refine moves_bind (updateEntry_moves p fun e => ⟨rfl, rfl, id⟩) fun _ => ?_
    refine moves_bind (entryAt_moves p) fun e => ?_
    exact moves_bind (moves_lift _) fun q => ih q

lemma checkFailedBlocks_spec (pindexPrev : Nat) (failed : List Nat) (s : IndexState) :
    Wp (checkFailedBlocks pindexPrev failed) (fun _ t => t = s)
      (fun _ t => Changes E Ins Del s t) s := by
  induction failed with
  | nil => rfl
  | cons failedit rest ih =>
    simp only [checkFailedBlocks, entryAt, wp_bind, wp_read, wp_lift]
    refine ⟨fun f _ => ⟨fun ancestor _ => ?_, fun _ _ => .refl⟩, fun _ _ => .refl⟩
    by_cases hbelow : ancestor = some failedit
    · rw [if_pos hbelow]
      -- whatever is marked here, the header is rejected
      simp only [rejectWhen, wp_bind, wp_lift]
      refine ⟨fun _ _ => ?_, fun _ _ => .refl⟩
      refine wp_mono (markFailedChildren_moves failedit _ pindexPrev s) ?_ fun _ _ h => h
      intro _ t h
      exact h
    · rw [if_neg hbelow]
      exact ih

/-- The header has passed the checks against its predecessors, and its parent has an entry. -/
def Passed (E : Env) (H : HeaderParams) (s : IndexState) (block : CBlockHeader) : Prop :=
  ∃ q, s.mapBlockIndex block.hashPrevBlock = some q ∧ q < s.blocks.length ∧
    ∃ nCheckpoint,
      contextualCheckBlockHeader E H (headerBranch s.blocks q) nCheckpoint block = .ok ()

lemma checkNewHeader_spec (block : CBlockHeader) (s : IndexState) :
    Wp (checkNewHeader E H block) (fun _ t => t = s ∧ Passed E H s block)
      (fun _ t => Changes E Ins Del s t) s := by
  simp only [checkNewHeader, entryAt, rejectWhen, wp_bind, wp_read, wp_lift]
  refine ⟨fun _ _ => ⟨fun q hq => ⟨fun prev hprev => ⟨fun _ _ => ⟨fun _ hcontext => ?_,
    fun _ _ => .refl⟩, fun _ _ => .refl⟩, fun _ _ => .refl⟩, fun _ _ => .refl⟩, fun _ _ => .refl⟩
  rw [orReject_ok_iff] at hq hprev
  have hpassed : Passed E H s block :=
    ⟨q, hq, (List.getElem?_eq_some_iff.mp hprev).1, _, hcontext⟩
  by_cases hvalid : prev.isValid BLOCK_VALID_SCRIPTS = true
  · rw [if_pos hvalid]
    exact ⟨rfl, hpassed⟩
  · rw [if_neg hvalid]
    exact wp_mono (checkFailedBlocks_spec q _ s) (fun _ _ h => ⟨h, hpassed⟩) fun _ _ h => h

lemma newEntry_fields (s : IndexState) (block : CBlockHeader) (e : IndexEntry)
    (h : newEntry E s block = .ok e) :
    e.hashBlock = headerHash E block ∧ e.nTime = block.nTime ∧ e.nBits = block.nBits ∧
      e.haveData = false := by
  unfold newEntry at h
  dsimp only at h
  split at h
  · cases h
    exact ⟨rfl, rfl, rfl, rfl⟩
  · simp only [bind_ok_iff, pure_ok_iff] at h
    obtain ⟨_, -, _, -, rfl⟩ := h
    exact ⟨rfl, rfl, rfl, rfl⟩

lemma newEntry_parent (s : IndexState) (block : CBlockHeader) (e prev : IndexEntry) (q : Nat)
    (hne : block.hashPrevBlock ≠ headerHash E block)
    (hq : s.mapBlockIndex block.hashPrevBlock = some q) (hprev : s.blocks[q]? = some prev)
    (h : newEntry E s block = .ok e) : e.pprev = some q ∧ e.nHeight = prev.nHeight + 1 ∧
      e.nChainWork = prev.nChainWork + getBlockProof block.nBits ∧
      ∃ linked, getAncestor (s.blocks ++ [linked]) q (getSkipHeight (prev.nHeight + 1)) =
        .ok e.pskip := by
  unfold newEntry at h
  dsimp only at h
  rw [Function.update_of_ne hne, hq] at h
  simp only [bind_ok_iff, pure_ok_iff, orReject_ok_iff] at h
  obtain ⟨pprev, hpprev, pskip, hpskip, rfl⟩ := h
  rw [List.getElem?_append_left (List.getElem?_eq_some_iff.mp hprev).1, hprev] at hpprev
  cases hpprev
  exact ⟨rfl, rfl, rfl, _, hpskip⟩

variable (Ins Del)
variable (peer : Peer) (n : Nat) (d : Delivery) (e : IndexEntry) (A : Activation)
  (block : CBlockHeader) (b : CBlock) (p : Nat) (hash : Uint256)

lemma addToBlockIndex_spec (s : IndexState) (hins : headerHash E block = E.hashGenesisBlock ∨
      (s.mapBlockIndex (headerHash E block) = none → Ins s block)) : Wp (addToBlockIndex E block)
      (fun p t => Changes E Ins Del s t ∧ t.delayedBlocks = s.delayedBlocks ∧
        t.mapBlockIndex (headerHash E block) = some p)
      (fun _ t => t = s) s := by
  simp only [addToBlockIndex, wp_bind, wp_read]
  cases hmap : s.mapBlockIndex (headerHash E block) with
  | some p => exact ⟨.refl, rfl, hmap⟩
  | none =>
    simp only [wp_bind, wp_lift, wp_write, wp_pure]
    refine ⟨fun e he => ⟨?_, rfl, ?_⟩, fun _ _ => trivial⟩
    · exact .single (.insert s block e hmap he (hins.imp_right fun h => h hmap))
    · rw [← (newEntry_fields s block e he).1]
      exact Function.update_self _ _ _

lemma addHeader_spec (s : IndexState) (hins : headerHash E block = E.hashGenesisBlock ∨
      (s.mapBlockIndex (headerHash E block) = none → Ins s block)) : Wp (addHeader E peer block)
      (fun p t => Changes E Ins Del s t ∧ t.delayedBlocks = s.delayedBlocks ∧
        t.mapBlockIndex (headerHash E block) = some p)
      (fun _ t => t = s) s := by
  simp only [addHeader, rejectWhen, wp_bind, wp_lift]
  refine ⟨fun _ _ => ?_, fun _ _ => trivial⟩
  refine wp_mono (addToBlockIndex_spec Ins Del block s hins) ?_ fun _ _ h => h
  rintro p t ⟨hst, hdelayed, hp⟩
  split
  · exact ⟨hst, hdelayed, hp⟩
  · simp only [updateEntry, wp_bind, wp_write, wp_pure]
    exact ⟨hst.tail (.mark t p _ fun e => ⟨rfl, rfl, fun _ => rfl⟩), hdelayed, hp⟩

lemma acceptBlockHeader_spec (s : IndexState) (hins : ∀ t, Passed E H t block → Ins t block) :
    Wp (acceptBlockHeader E H peer block)
      (fun p t => Changes E Ins Del s t ∧ t.delayedBlocks = s.delayedBlocks ∧
        t.mapBlockIndex (headerHash E block) = some p)
      (fun _ t => Changes E Ins Del s t) s := by
  simp only [acceptBlockHeader, wp_bind, wp_read]
  by_cases hgenesis : headerHash E block = E.hashGenesisBlock
  · rw [if_pos hgenesis]
    exact wp_mono (addHeader_spec Ins Del peer block s (.inl hgenesis)) (fun _ _ h => h)
      fun _ _ h => h ▸ .refl
  · rw [if_neg hgenesis]
    cases hmap : s.mapBlockIndex (headerHash E block) with
    | some p =>
      simp only [knownHeader, entryAt, rejectWhen, wp_bind, wp_read, wp_lift, wp_pure]
      exact ⟨fun _ _ => ⟨fun _ _ => ⟨fun _ _ => ⟨.refl, trivial, hmap⟩, fun _ _ => .refl⟩,
        fun _ _ => .refl⟩, fun _ _ => .refl⟩
    | none =>
      simp only [wp_bind]
      refine wp_mono (checkNewHeader_spec block s) ?_ fun _ _ h => h
      rintro _ t ⟨rfl, hpassed⟩
      exact wp_mono (addHeader_spec Ins Del peer block t (.inr fun _ => hins t hpassed))
        (fun _ _ h => h) fun _ _ h => h ▸ .refl

lemma changes_withProcess {P : Process} {s t : IndexState}
    (h : Changes (withProcess E P) Ins Del s t) : Changes E Ins Del s t := by
  refine ReflTransGen.mono (fun a b hab => ?_) s t h
  cases hab with
  | mark p f h => exact .mark a p f h
  | store p f hash hp h => exact .store a p f hash hp h
  | insert block e hnew he hins => exact .insert a block e hnew he hins
  | erase hash hdel => exact .erase a hash hdel
  | requeue failed delayed n => exact .requeue a failed delayed n
  | activate _ hsame => exact .activate a b hsame

def Room (s : IndexState) : Prop := s.delayedBlocks.length < MAX_DELAYED_BLOCKS

lemma trimDelayed_room (s : IndexState) (hroom : Room s) : trimDelayed E n s = (.ok (), s) := by
  cases n with
  | zero => rfl
  | succ n =>
    simp only [trimDelayed, bind_apply, Calls.read]
    cases s.delayedBlocks.getLast? with
    | none => rfl
    | some x =>
      dsimp only
      rw [if_neg (Nat.not_le.mpr hroom)]
      rfl

lemma delayBlock_spec (time nodeId : Int) (b : CBlock) (s : IndexState) (hroom : Room s) :
    Wp (delayBlock E time nodeId b) (fun _ t => Changes E Ins Del s t)
      (fun _ t => Changes E Ins Del s t) s := by
  have htrim : Wp (trimDelayed E s.delayedBlocks.length) (fun _ t => t = s)
      (fun _ _ => False) s := by
    unfold Wp
    rw [trimDelayed_room _ s hroom]
  simp only [delayBlock, wp_bind, wp_read]
  refine wp_mono htrim ?_ fun _ _ h => h.elim
  rintro _ t rfl
  simp only [wp_write]
  exact .single (.requeue t t.failedBlocks _ _)

lemma placeStake_spec (s : IndexState) (hroom : Room s) : Wp (placeStake E d b p)
      (fun wait t => Changes E Ins Del s t ∧ (wait = false → t.mapBlockIndex = s.mapBlockIndex))
      (fun _ t => Changes E Ins Del s t) s := by
  simp only [placeStake, entryAt, updateEntry, wp_bind, wp_lift, wp_write, wp_read]
  refine ⟨fun kernel _ => ?_, fun _ _ => .refl⟩
  set u := s.update p fun e => { e with proofOfStake := true, prevoutStake := kernel.prevout }
  have hu : Changes E Ins Del s u := .single (.mark s p _ fun e => ⟨rfl, rfl, id⟩)
  refine ⟨fun e _ => ?_, fun _ _ => hu⟩
  split
  · split
    · simp only [wp_bind, wp_write, wp_pure]
      exact ⟨hu.tail (.mark u p _ fun e => ⟨rfl, rfl, id⟩), fun _ => rfl⟩
    · split
      · exact ⟨hu, fun h => absurd h Bool.true_eq_false.mp⟩
      · simp only [wp_bind, wp_write]
        have hmark := hu.tail (.mark u p (fun e => { e with delayed := true }) fun e =>
          ⟨rfl, rfl, id⟩)
        refine wp_mono (delayBlock_spec Ins Del d.time (-1) b _ hroom) ?_ fun _ _ h => hmark.trans h
        intro _ t h
        exact ⟨hmark.trans h, fun h => absurd h Bool.true_eq_false.mp⟩
  · simp only [wp_bind, wp_write, wp_pure]
    exact ⟨hu.tail (.mark u p _ fun e => ⟨rfl, rfl, id⟩), fun _ => rfl⟩

lemma checkInContext_spec (s : IndexState) :
    Wp (checkInContext E d b p) (fun _ t => t = s) (fun _ t => Changes E Ins Del s t) s := by
  simp only [checkInContext, entryAt, wp_bind, wp_read, wp_lift]
  refine ⟨fun e _ => ?_, fun _ _ => .refl⟩
  split
  · rfl
  · split
    · simp only [updateEntry, wp_bind, wp_write, wp_fail]
      exact .single (.mark s p _ fun e => ⟨rfl, rfl, id⟩)
    · exact .refl

lemma raiseValidity_core (nUpTo : Nat) :
    core (e.raiseValidity nUpTo) = core e ∧ (e.raiseValidity nUpTo).accepted = e.accepted ∧
      (e.raiseValidity nUpTo).haveData = e.haveData := by
  unfold IndexEntry.raiseValidity
  split <;> exact ⟨rfl, rfl, rfl⟩

lemma storeBlock_spec (s : IndexState) (hp : s.mapBlockIndex hash = some p) :
    Wp (storeBlock d b p) (fun _ t => Changes E Ins Del s t) (fun _ t =>
      Changes E Ins Del s t) s := by
  simp only [storeBlock, updateEntry, rejectWhen, wp_bind, wp_write, wp_lift]
  set u := s.update p fun e => { e with accepted := true }
  have hu : Changes E Ins Del s u := .single (.mark s p _ fun e => ⟨rfl, rfl, fun _ => rfl⟩)
  refine ⟨fun _ _ => hu.tail (.store u p _ hash hp ?_), fun _ _ => hu⟩
  intro e he
  -- the object was marked as accepted just before
  have haccepted : e.accepted = true := by
    rw [show u.blocks[p]? = (s.blocks[p]?).map _ from List.getElem?_modify_eq _ _ _,
      Option.map_eq_some_iff] at he
    obtain ⟨_, -, rfl⟩ := he
    rfl
  obtain ⟨hcore, hflag, hdata⟩ := raiseValidity_core
    { e with nTx := b.vtx.length, haveData := true } BLOCK_VALID_TRANSACTIONS
  exact ⟨hcore, hflag.trans haccepted, hdata⟩

lemma checkAndStore_spec (s : IndexState) (hp : s.mapBlockIndex hash = some p) :
    Wp (do checkInContext E d b p; storeBlock d b p; pure false) (fun _ t => Changes E Ins Del s t)
      (fun _ t => Changes E Ins Del s t) s := by
  simp only [wp_bind, wp_pure]
  refine wp_mono (checkInContext_spec Ins Del d b p s) ?_ fun _ _ h => h
  rintro _ t rfl
  exact storeBlock_spec Ins Del d b p hash t hp

lemma acceptBlockData_spec (s : IndexState) (hroom : Room s) (hp : s.mapBlockIndex hash = some p) :
    Wp (acceptBlockData E H d b p) (fun _ t => Changes E Ins Del s t)
      (fun _ t => Changes E Ins Del s t) s := by
  simp only [acceptBlockData, entryAt, wp_bind, wp_read, wp_lift]
  refine ⟨fun e _ => ?_, fun _ _ => .refl⟩
  split
  · exact .refl
  · simp only [wp_bind, wp_lift]
    refine ⟨fun _ _ => ?_, fun _ _ => .refl⟩
    split
    · simp only [wp_bind]
      refine wp_mono (placeStake_spec Ins Del d b p s hroom) ?_ fun _ _ h => h
      rintro wait t ⟨hst, hmap⟩
      cases wait with
      | true => exact hst
      | false =>
        have hpt : t.mapBlockIndex hash = some p := (congrFun (hmap rfl) hash).trans hp
        exact wp_mono (checkAndStore_spec Ins Del d b p hash t hpt) (fun _ _ h => hst.trans h)
          fun _ _ h => hst.trans h
    · exact checkAndStore_spec Ins Del d b p hash s hp

lemma acceptBlock_spec (s : IndexState) (hroom : Room s)
    (hins : ∀ t, Passed (withProcess E d.process) H t b.header → Ins t b.header) :
    Wp (acceptBlock E H d b) (fun _ t => Changes E Ins Del s t)
      (fun _ t => Changes E Ins Del s t) s := by
  simp only [acceptBlock, wp_bind]
  refine wp_mono (acceptBlockHeader_spec Ins Del _ b.header s hins) ?_
    fun _ _ h => changes_withProcess Ins Del h
  rintro p t ⟨hst, hdelayed, hp⟩
  have hst := changes_withProcess Ins Del hst
  have hroom : Room t := by
    unfold Room
    rw [hdelayed]
    exact hroom
  exact wp_mono (acceptBlockData_spec Ins Del d b p _ t hroom hp) (fun _ _ h => hst.trans h)
    fun _ _ h => hst.trans h

lemma checkAndAccept_spec (s : IndexState) (hroom : Room s)
    (hins : ∀ t, Passed (withProcess E d.process) H t b.header → Ins t b.header) :
    Wp (checkAndAccept E H d b) (fun _ t => Changes E Ins Del s t)
      (fun _ t => Changes E Ins Del s t) s := by
  simp only [checkAndAccept, wp_bind, wp_lift]
  exact ⟨fun _ _ => acceptBlock_spec Ins Del d b s hroom hins, fun _ _ => .refl⟩

lemma invalidBlockFound_moves (reject : Reject) :
    Moves (Change E Ins Del) (invalidBlockFound p reject) := by
  refine moves_ite (moves_pure _) ?_
  refine moves_bind (updateEntry_moves p fun e => ⟨rfl, rfl, id⟩) fun _ => ?_
  refine moves_bind (moves_write fun s => .requeue s _ s.delayedBlocks s.nDelayed) fun _ => ?_
  exact moves_bind moves_read fun s => rejectWhen_moves _ _

lemma rejectBlock_spec (reject : Reject) (s : IndexState)
    (hins : s.mapBlockIndex (headerHash E b.header) = none → Ins s b.header) :
    Wp (rejectBlock E b reject) (fun _ t => Changes E Ins Del s t)
      (fun _ t => Changes E Ins Del s t) s := by
  simp only [rejectBlock, wp_bind, wp_fail]
  refine wp_mono (addToBlockIndex_spec Ins Del b.header s (.inr hins)) ?_ fun _ _ h => h ▸ .refl
  rintro p t ⟨hst, -, -⟩
  exact wp_mono (invalidBlockFound_moves Ins Del p reject t) (fun _ _ h => hst.trans h)
    fun _ _ h => hst.trans h

lemma changes_of_no_erase {s t : IndexState} (h : Changes E Ins (fun _ _ => False) s t) :
    Changes E Ins Del s t := by
  refine ReflTransGen.mono (fun a b hab => ?_) s t h
  cases hab with
  | mark p f h => exact .mark a p f h
  | store p f hash hp h => exact .store a p f hash hp h
  | insert block e hnew he hins => exact .insert a block e hnew he hins
  | erase hash hdel => exact hdel.elim
  | requeue failed delayed n => exact .requeue a failed delayed n
  | activate _ hsame => exact .activate a b hsame

lemma receiveBlock_spec (s : IndexState) (hroom : Room s)
    (hins : ∀ t, Passed (withProcess E d.process) H t b.header → Ins t b.header)
    (hreject : ∀ reject t, checkAndAccept E H d b s = (.error reject, t) →
      Changes E Ins (fun _ _ => False) s t →
      t.mapBlockIndex (headerHash E b.header) = none → Ins t b.header) :
    Wp (receiveBlock E H d b) (fun _ t => Changes E Ins Del s t)
      (fun _ t => Changes E Ins Del s t) s := by
  have hspec := wp_and (wp_self (checkAndAccept E H d b) s)
    (checkAndAccept_spec Ins (fun _ _ => False) d b s hroom hins)
  simp only [receiveBlock, wp_bind, wp_attempt]
  refine wp_mono hspec ?_ ?_
  · rintro ⟨p, wait⟩ t ⟨-, hst⟩
    have hst := changes_of_no_erase Ins Del hst
    cases wait with
    | true => exact hst
    | false => exact hst.tail (.mark t p _ fun e => ⟨rfl, rfl, id⟩)
  · rintro reject t ⟨heq, hst⟩
    have hrejected := rejectBlock_spec Ins Del b reject t (hreject reject t heq hst)
    have hst := changes_of_no_erase Ins Del hst
    cases reject with
    | throws what => exact hst
    | dos n code reason corruption =>
      exact wp_mono hrejected (fun _ _ h => hst.trans h) fun _ _ h => hst.trans h
    | error what => exact wp_mono hrejected (fun _ _ h => hst.trans h) fun _ _ h => hst.trans h

lemma eraseDelayedBlock_spec (id : Nat) (s : IndexState)
    (hdel : ∀ x, (s.delayedBlocks.find? fun x => x.id = id) = some x →
      Del s (headerHash E x.block.header)) :
    Wp (eraseDelayedBlock E id) (fun _ t => Changes E Ins Del s t)
      (fun _ t => Changes E Ins Del s t) s := by
  simp only [eraseDelayedBlock, wp_bind, wp_read, wp_lift, wp_write]
  refine ⟨fun x hx => ?_, fun _ _ => .refl⟩
  rw [orReject_ok_iff] at hx
  exact (ReflTransGen.single (.erase s _ (hdel x hx))).tail (.requeue _ s.failedBlocks _ s.nDelayed)

lemma removeUnreceivedHeader_spec (s : IndexState)
    (hdel : ∀ p e, s.mapBlockIndex hash = some p → s.blocks[p]? = some e → e.accepted = false →
      Del s hash) : Wp (removeUnreceivedHeader hash) (fun _ t => Changes E Ins Del s t)
      (fun _ t => Changes E Ins Del s t) s := by
  simp only [removeUnreceivedHeader, entryAt, wp_bind, wp_read]
  cases hmap : s.mapBlockIndex hash with
  | none => exact .refl
  | some p =>
    simp only [wp_bind, wp_read, wp_lift]
    refine ⟨fun e he => ?_, fun _ _ => .refl⟩
    rw [orReject_ok_iff] at he
    cases haccepted : e.accepted with
    | true => exact .refl
    | false => exact .single (.erase s hash (hdel p e hmap he haccepted))

lemma unmark_same : SameEntry e (unmark e) := ⟨rfl, rfl, id⟩

lemma unmarkAncestors_moves (p : Option Nat) : Moves (Change E Ins Del) (unmarkAncestors n p) := by
  induction n generalizing p with
  | zero => exact moves_pure _
  | succ n ih =>
    cases p with
    | none => exact moves_pure _
    | some q =>
      refine moves_bind (entryAt_moves q) fun e => moves_ite (moves_pure _) ?_
      refine moves_ite (moves_bind (updateEntry_moves q unmark_same) fun _ => ih _) ?_
      exact moves_bind (moves_pure _) fun _ => ih _

lemma processDuplicateStakeHeader_moves (nodeId : Int) (peerCount nPeers : Nat) :
    Moves (Change E Ins Del) (processDuplicateStakeHeader p nodeId peerCount nPeers) := by
  refine moves_ite ?_ (moves_pure _)
  refine moves_bind (updateEntry_moves p unmark_same) fun _ => ?_
  refine moves_bind (entryAt_moves p) fun e => ?_
  exact moves_bind (unmarkAncestors_moves Ins Del _ _) fun _ => moves_pure _

lemma activateBestChain_moves : Moves (Change E Ins Del) (activateBestChain A b) := by
  intro s
  simp only [activateBestChain, wp_bind, wp_read, wp_write, wp_pure]
  exact .single (.activate s _ (A.same b s))

def Allowed (E : Env) (H : HeaderParams) (s : IndexState) : Event → Prop
  | .accept _ _ => Room s
  | .receive d b => Room s ∧ ∀ reject t, checkAndAccept E H d b s = (.error reject, t) →
      Changes E Ins (fun _ _ => False) s t →
      t.mapBlockIndex (headerHash E b.header) = none → Ins t b.header
  | .delay _ _ _ => Room s
  | .erase id => ∀ x, (s.delayedBlocks.find? fun x => x.id = id) = some x →
      Del s (headerHash E x.block.header)
  | .remove hash => ∀ p e, s.mapBlockIndex hash = some p → s.blocks[p]? = some e →
      e.accepted = false → Del s hash
  | _ => True

lemma eventCall_spec (s : IndexState) (event : Event)
    (hins : ∀ P, event.process = some P → ∀ t block, Passed (withProcess E P) H t block →
      Ins t block)
    (hallowed : Allowed Ins Del E H s event) :
    Wp (eventCall E H A event) (fun _ t => Changes E Ins Del s t)
      (fun _ t => Changes E Ins Del s t) s := by
  cases event with
  | header process peer block =>
    simp only [eventCall, wp_bind, wp_pure]
    refine wp_mono (acceptBlockHeader_spec Ins Del peer block s fun t => hins process rfl t block)
      (fun _ _ h => changes_withProcess Ins Del h.1) fun _ _ h => changes_withProcess Ins Del h
  | accept d b =>
    simp only [eventCall, wp_bind, wp_pure]
    exact acceptBlock_spec Ins Del d b s hallowed fun t => hins d.process rfl t b.header
  | receive d b =>
    simp only [eventCall, wp_bind, wp_pure]
    exact receiveBlock_spec Ins Del d b s hallowed.1 (fun t => hins d.process rfl t b.header)
      hallowed.2
  | activate b => exact moves_bind (activateBestChain_moves Ins Del A b) (fun _ => moves_pure _) s
  | delay time nodeId b => exact delayBlock_spec Ins Del time nodeId b s hallowed
  | drop id => exact .single (.requeue s s.failedBlocks _ s.nDelayed)
  | erase id => exact eraseDelayedBlock_spec Ins Del id s hallowed
  | remove hash =>
    simp only [eventCall, wp_bind, wp_pure]
    exact removeUnreceivedHeader_spec Ins Del hash s hallowed
  | duplicateStake p nodeId peerCount nPeers =>
    exact moves_bind (processDuplicateStakeHeader_moves Ins Del p nodeId peerCount nPeers)
      (fun _ => moves_pure _) s

lemma step_changes (s t : IndexState) (event : Event)
    (hins : ∀ P, event.process = some P → ∀ t block, Passed (withProcess E P) H t block →
      Ins t block)
    (hallowed : Allowed Ins Del E H s event) (h : step E H A s event = .ok t) :
    Changes E Ins Del s t := by
  have hspec := eventCall_spec Ins Del A s event hins hallowed
  unfold step at h
  unfold Wp at hspec
  cases hcall : eventCall E H A event s with
  | mk r u =>
    rw [hcall] at h hspec
    cases r with
    | ok _ =>
      cases h
      exact hspec
    | error reject =>
      cases reject with
      | throws what => cases h
      | dos n code reason corruption =>
        cases h
        exact hspec
      | error what =>
        cases h
        exact hspec

end

end IndexChanges
