import BitcoinC.Redelivery
import BitcoinC.BestHeader

/-!
# Blocks that come too early

`ProcessNewBlock` rejects a block whose parent it does not know, or whose time is
too far ahead of the clock.
-/

namespace EarlyDelivery

open Primitives Environment Verdicts Blocks HeaderChecks Calls BlockIndex NewBlocks ChainRun
  LinkedBlocks Redelivery List Function

variable (E : Env) (H : HeaderParams)

/-- The block is delivered before its parent, or its time is too far ahead of the clock. -/
def Early (d : Delivery) (b : CBlock) (s : IndexState) : Prop :=
  (checkBlockOnce E d b = .ok () ∧ s.mapBlockIndex b.header.hashPrevBlock = none ∧
      s.mapBlockIndex (headerHash E b.header) = none) ∨
    (d.fChecked = false ∧ b.header.hashPrevBlock ≠ 0 ∧
      d.process.nAdjustedTime + FUTURE_DRIFT < b.header.nTime.toNat)

/-- A rejection that marks the block for good. -/
def Final (reject : Reject) : Prop := ∃ n code reason, reject = .dos n code reason

variable {E H} {s t : IndexState} {d : Delivery} {b : CBlock}
variable (header : CBlockHeader) {α : Type}

lemma checkBlockHeader_final (reject : Reject) (h : checkBlockHeader E header = .error reject) :
    Final reject := by
  unfold checkBlockHeader rejectIf at h
  split at h
  · cases h
    exact ⟨_, _, _, rfl⟩
  · rw [ok_bind] at h
    split at h
    · cases h
      exact ⟨_, _, _, rfl⟩
    · cases h

lemma checkBlockHeader_early (hprev : header.hashPrevBlock ≠ 0)
    (hearly : E.nAdjustedTime + FUTURE_DRIFT < header.nTime.toNat) :
    ∃ reject, checkBlockHeader E header = .error reject ∧ Final reject := by
  cases h : checkBlockHeader E header with
  | error reject => exact ⟨reject, rfl, checkBlockHeader_final header reject h⟩
  | ok r =>
    simp only [checkBlockHeader, bind_ok_iff, rejectIf_ok_iff] at h
    obtain ⟨-, -, htime⟩ := h
    exact absurd ⟨hprev, hearly⟩ htime

lemma acceptBlockHeader_orphan {P : Process} (hgenesis : headerHash E b.header ≠ E.hashGenesisBlock)
    (hprev : s.mapBlockIndex b.header.hashPrevBlock = none)
    (hnone : s.mapBlockIndex (headerHash E b.header) = none) :
    ∃ reject, acceptBlockHeader (withProcess E P) H ⟨false, true, true⟩ b.header s =
      (.error reject, s) ∧ Final reject := by
  rw [acceptBlockHeader_unknown hgenesis hnone, bind_apply, checkNewHeader, bind_apply]
  cases hheader : checkBlockHeader (withProcess E P) b.header with
  | error reject => exact ⟨reject, rfl, checkBlockHeader_final _ reject hheader⟩
  | ok r =>
    refine ⟨.dos 10 0 "prev-blk-not-found", ?_, _, _, _, rfl⟩
    simp only [bind_apply, lift, Calls.read, hprev, orReject]

lemma checkAndAccept_early (hgenesis : headerHash E b.header ≠ E.hashGenesisBlock)
    (hearly : Early E d b s) :
    ∃ reject, checkAndAccept E H d b s = (.error reject, s) ∧ Final reject := by
  rcases hearly with ⟨hcheck, hprev, hnone⟩ | ⟨hfirst, hprev, htime⟩
  · obtain ⟨reject, hheader, hfinal⟩ := acceptBlockHeader_orphan (H := H) (P := d.process) hgenesis
      hprev hnone
    refine ⟨reject, ?_, hfinal⟩
    rw [checkAndAccept, bind_apply, hcheck]
    show acceptBlock E H d b s = _
    rw [acceptBlock, bind_apply, hheader]
  · obtain ⟨reject, hheader, hfinal⟩ :=
      checkBlockHeader_early (E := withProcess E d.process) b.header hprev htime
    have hcheck : checkBlockOnce E d b = .error reject := by
      rw [checkBlockOnce, hfirst, if_neg Bool.false_ne_true, checkBlock, hheader, error_bind]
    refine ⟨reject, ?_, hfinal⟩
    rw [checkAndAccept, bind_apply, hcheck]
    rfl

def OnlyThrows {α : Type} (x : Verdict α) : Prop := ∀ reject, x = .error reject → ∃ what,
    reject = .throws what

lemma onlyThrows_orReject (x : Option α) (what : String) :
    OnlyThrows (orReject x (.throws what)) := by
  intro reject h
  cases x with
  | some a => cases h
  | none =>
    cases h
    exact ⟨what, rfl⟩

lemma rejectIf_throws (q : Prop) [Decidable q] (what : String) :
    OnlyThrows (rejectIf q (.throws what) : Verdict Unit) := by
  intro reject h
  unfold rejectIf at h
  split at h
  · cases h
    exact ⟨what, rfl⟩
  · cases h

lemma OnlyThrows.bind {β : Type} {x : Verdict α} {f : α → Verdict β} (hx : OnlyThrows x)
    (hf : ∀ a, OnlyThrows (f a)) : OnlyThrows (x >>= f) := by
  intro reject h
  cases hcase : x with
  | error e =>
    rw [hcase] at h
    cases h
    exact hx reject hcase
  | ok a =>
    rw [hcase] at h
    exact hf a reject h

lemma onlyThrows_ok (a : α) : OnlyThrows (.ok a) := by
  intro _ h
  cases h

lemma ancestorFrom_throws (blocks : List IndexEntry) (height n walk p : Nat) :
    OnlyThrows (ancestorFrom blocks height n walk p) := by
  induction n generalizing walk p with
  | zero =>
    unfold ancestorFrom
    split
    · exact onlyThrows_ok p
    · rintro _ ⟨⟩
      exact ⟨_, rfl⟩
  | succ n ih =>
    unfold ancestorFrom
    split
    · exact onlyThrows_ok p
    · apply (onlyThrows_orReject _ _).bind
      intro e
      dsimp only
      split
      · exact (onlyThrows_orReject _ _).bind fun r => ih _ r
      · exact (onlyThrows_orReject _ _).bind fun q => ih _ q

lemma newEntry_throws : OnlyThrows (newEntry E s header) := by
  unfold newEntry
  dsimp only
  split
  · exact onlyThrows_ok _
  · apply (onlyThrows_orReject _ _).bind
    intro prev
    refine OnlyThrows.bind ?_ fun pskip => onlyThrows_ok _
    apply (onlyThrows_orReject _ _).bind
    intro e
    split
    · exact onlyThrows_ok _
    · exact (ancestorFrom_throws _ _ _ _ _).bind fun r => onlyThrows_ok _

lemma addToBlockIndex_listed (hs : Indexed s) : Wp (addToBlockIndex E b.header)
      (fun p t => t.mapBlockIndex (headerHash E b.header) = some p ∧ p < t.blocks.length)
      (fun reject _ => ∃ what, reject = .throws what) s := by
  simp only [addToBlockIndex, wp_bind, wp_read]
  cases hmap : s.mapBlockIndex (headerHash E b.header) with
  | some p => exact ⟨hmap, hs.keyed _ p hmap⟩
  | none =>
    simp only [wp_bind, wp_lift, wp_write, wp_pure]
    refine ⟨fun e he => ⟨?_, ?_⟩, fun reject hreject => newEntry_throws b.header reject hreject⟩
    · rw [← (IndexChanges.newEntry_fields s b.header e he).1]
      exact update_self _ _ _
    · simp [IndexState.insert]

lemma rejectBlock_marks (hs : Indexed s) (reject : Reject) (hfinal : Final reject) :
    Wp (rejectBlock E b reject) (fun _ _ => False)
      (fun r t => (∃ what, r = .throws what) ∨ (r = reject ∧ Marked E b t)) s := by
  obtain ⟨n, code, reason, rfl⟩ := hfinal
  simp only [rejectBlock, wp_bind]
  refine wp_mono (addToBlockIndex_listed hs) ?_ fun _ _ h => .inl h
  rintro p t ⟨hmap, hp⟩
  simp only [invalidBlockFound, corruptionPossible, Bool.false_eq_true, if_false, updateEntry,
    rejectWhen, wp_bind, wp_write, wp_read, wp_lift, wp_fail]
  refine ⟨fun _ _ => .inr ⟨trivial, p, _, hmap, update_entry _ (getElem?_eq_getElem hp), rfl⟩, ?_⟩
  exact fun r hr => .inl (rejectIf_throws _ _ r hr)

/-- An early delivery is rejected, and leaves a mark unless it throws. -/
lemma receiveBlock_early (hs : Indexed s) (hgenesis : headerHash E b.header ≠ E.hashGenesisBlock)
    (hearly : Early E d b s) : ∃ reject s', receiveBlock E H d b s = (.error reject, s') ∧
      ((∃ what, reject = .throws what) ∨ Marked E b s') := by
  obtain ⟨reject, hrun, hfinal⟩ := checkAndAccept_early (H := H) hgenesis hearly
  have hreceive : receiveBlock E H d b s = rejectBlock E b reject s := by
    obtain ⟨n, code, reason, rfl⟩ := hfinal
    rw [receiveBlock, bind_apply, attempt, hrun]
  have hmarks := rejectBlock_marks (E := E) (b := b) hs reject hfinal
  rw [hreceive]
  unfold Wp at hmarks
  cases hcase : rejectBlock E b reject s with
  | mk r s' =>
    rw [hcase] at hmarks
    cases r with
    | ok a => exact hmarks.elim
    | error r => exact ⟨r, s', rfl, hmarks.imp_right And.right⟩

variable (E)

def forget (b : CBlock) (s : IndexState) : IndexState :=
  { s with mapBlockIndex := update s.mapBlockIndex (headerHash E b.header) none }

/-- The entry of the block, if there is one, lies on its parent. -/
def OnParent (b : CBlock) (s : IndexState) : Prop :=
  ∀ p e, s.mapBlockIndex (headerHash E b.header) = some p → s.blocks[p]? = some e →
    ∃ q prev, s.mapBlockIndex b.header.hashPrevBlock = some q ∧ s.blocks[q]? = some prev ∧
      e.pprev = some q ∧ e.nHeight = prev.nHeight + 1 ∧
      e.nChainWork = prev.nChainWork + getBlockProof b.header.nBits

/-- An index between two calls: no object is its own parent, and the blocks of the active chain have
their data. -/
structure Settled (s : IndexState) : Prop extends Sound s where
  strict : ∀ (p : Nat) (e : IndexEntry) q, s.blocks[p]? = some e → e.pprev = some q → q ≠ p
  active : ∀ x e, x ∈ branchPointers s.blocks s.tip → s.blocks[x]? = some e → e.haveData = true

variable {E} {p q : Nat} {e prev : IndexEntry}

lemma Settled.aside (hs : Settled s) (he : s.blocks[p]? = some e) : Aside s p e := by
  intro hdata
  constructor
  · intro hmem
    rw [hs.active p e hmem he] at hdata
    exact Bool.false_ne_true hdata.symm
  · intro hmem
    cases hpprev : e.pprev with
    | none =>
      rw [hpprev] at hmem
      exact absurd hmem not_mem_nil
    | some q =>
      rw [hpprev] at hmem
      have hle := lineage_le hs.index _ q p hmem
      have hge := hs.index.older p e q he hpprev
      have hne := hs.strict p e q he hpprev
      omega

lemma newEntry_onParent (hne : b.header.hashPrevBlock ≠ headerHash E b.header)
    (hq : s.mapBlockIndex b.header.hashPrevBlock = some q) (hprev : s.blocks[q]? = some prev)
    (h : newEntry E s b.header = .ok e) : e.pprev = some q ∧ e.nHeight = prev.nHeight + 1 ∧
      e.nChainWork = prev.nChainWork + getBlockProof b.header.nBits ∧ e.haveData = false ∧
        e.nTx = 0 := by
  obtain ⟨hpprev, hheight, hwork, -⟩ :=
    IndexChanges.newEntry_parent s b.header e prev q hne hq hprev h
  refine ⟨hpprev, hheight, hwork, (IndexChanges.newEntry_fields s b.header e h).2.2.2, ?_⟩
  unfold newEntry at h
  dsimp only at h
  split at h
  · cases h
    rfl
  · simp only [bind_ok_iff, pure_ok_iff] at h
    obtain ⟨_, -, _, -, rfl⟩ := h
    rfl

lemma branchPointers_lt (hs : Indexed s) (q : Option Nat) (n : Nat) (hq : ∀ x, q = some x → x < n)
    (x : Nat) (hx : x ∈ branchPointers s.blocks q) : x < n := by
  cases q with
  | none => exact absurd hx not_mem_nil
  | some q => exact (lineage_le hs _ q x hx).trans_lt (hq q rfl)

lemma insert_old (f : IndexEntry → IndexEntry) (x : Nat) (hx : x < s.blocks.length) :
    ((s.insert e).update s.blocks.length f).blocks[x]? = s.blocks[x]? := by
  rw [update_other f x hx.ne]
  exact getElem?_append_left hx

lemma sound_insert (hs : Sound s) (h : newEntry E s b.header = .ok e) :
    Sound ((s.insert e).update s.blocks.length fun e => { e with accepted := true }) where
  index := ((Grown.insert h).indexed hs.index).update _ _ fun _ => ⟨rfl, le_rfl⟩
  tip x hx := by
    have := hs.tip x hx
    simp only [IndexState.update, IndexState.insert, length_modify, length_append]
    omega

/-- Seen for the first time, the block would pass at the place of a new object on the parent. -/
lemma accepted_new (hs : Sound s) (hgenesis : headerHash E b.header ≠ E.hashGenesisBlock)
    (hnone : s.mapBlockIndex (headerHash E b.header) = none) (h : Accepted E H d b s) :
    checkBlockOnce E d b = .ok () ∧ checkNewHeader (withProcess E d.process) H b.header s =
      (.ok (), s) ∧
    ∃ e v, newEntry E s b.header = .ok e ∧
      v = (s.insert e).update s.blocks.length (fun e => { e with accepted := true }) ∧ Sound v ∧
      v.blocks[s.blocks.length]? = some { e with accepted := true } ∧
      Aside v s.blocks.length { e with accepted := true } ∧
      Passes E d b (notWanted H v d.fRequested { e with accepted := true })
        (outOfOrder E v.blocks { e with accepted := true }) (indexBranch v.blocks v.tip)
        (indexBranch v.blocks e.pprev) := by
  obtain ⟨p, t, hrun⟩ := accepted_iff.mp h
  obtain ⟨hcheck, v, hheader, hdata⟩ := (checkAndAccept_returns_iff _).mp hrun
  obtain ⟨e, hnew, rfl, rfl, hpassed, q, hq, hlt⟩ := acceptBlockHeader_new hgenesis hnone hheader
  have hv := sound_insert hs hnew
  have hentry : ((s.insert e).update s.blocks.length fun e => { e with accepted := true }).blocks[
      s.blocks.length]? = some { e with accepted := true } :=
    update_entry _ getElem?_concat_length
  have hne : b.header.hashPrevBlock ≠ headerHash E b.header := by
    intro heq
    rw [heq, hnone] at hq
    cases hq
  have hpprev := (newEntry_onParent hne hq (getElem?_eq_getElem hlt) hnew).1
  have haside : Aside ((s.insert e).update s.blocks.length fun e => { e with accepted := true })
      s.blocks.length { e with accepted := true } := by
    intro _
    constructor
    · intro hmem
      exact lt_irrefl _ (branchPointers_lt hv.index s.tip _ hs.tip _ hmem)
    · intro hmem
      refine lt_irrefl _ (branchPointers_lt hv.index e.pprev _ ?_ _ hmem)
      rw [hpprev]
      rintro _ ⟨⟩
      exact hlt
  exact ⟨hcheck, hpassed, e, _, hnew, rfl, hv, hentry, haside,
    (acceptBlockData_returns_iff hv hentry haside).mp ⟨t, hdata⟩⟩

lemma samePlace_of_onParent (hs : Sound s) (hblocks : t.blocks = s.blocks) (htip : t.tip = s.tip)
    {e' : IndexEntry} {v : IndexState} (hnew : newEntry E s b.header = .ok e)
    (hv : v = (s.insert e).update s.blocks.length fun e => { e with accepted := true })
    (hv' : Sound v) (hne : b.header.hashPrevBlock ≠ headerHash E b.header)
    (hq : s.mapBlockIndex b.header.hashPrevBlock = some q) (hprev : s.blocks[q]? = some prev)
    (hpprev : e'.pprev = some q) (hheight : e'.nHeight = prev.nHeight + 1)
    (hwork : e'.nChainWork = prev.nChainWork + getBlockProof b.header.nBits) :
    SamePlace v t { e with accepted := true } e' := by
  obtain ⟨hpprev', hheight', hwork', hdata, hnTx⟩ := newEntry_onParent hne hq hprev hnew
  have hlt := (List.getElem?_eq_some_iff.mp hprev).1
  have hold : ∀ x < s.blocks.length, t.blocks[x]? = v.blocks[x]? := by
    intro x hx
    rw [hv, insert_old _ x hx, hblocks]
  constructor
  · rw [htip, hv]
    rfl
  · rintro - x (hx | hx)
    · refine hold x (branchPointers_lt hv'.index v.tip _ ?_ x hx)
      rw [hv]
      exact hs.tip
    · refine hold x (branchPointers_lt hv'.index e.pprev _ ?_ x hx)
      rw [hpprev']
      rintro _ ⟨⟩
      exact hlt
  · exact hpprev.trans hpprev'.symm
  · exact hheight.trans hheight'.symm
  · exact hwork.trans hwork'.symm
  · intro hhave
    exact absurd hhave (by rw [hdata]; exact Bool.false_ne_true)
  · intro hhave
    exact absurd hnTx hhave

lemma accepted_of_forgotten (ht : Settled t) (hgenesis : headerHash E b.header ≠ E.hashGenesisBlock)
    (hplace : OnParent E b t) (hmark : ¬ Marked E b t) (h : Accepted E H d b (forget E b t)) :
    Accepted E H d b t := by
  cases hp : t.mapBlockIndex (headerHash E b.header) with
  | none =>
    have hsame : forget E b t = t := by
      unfold forget
      rw [← hp, update_eq_self]
    rwa [hsame] at h
  | some p =>
    obtain ⟨e', he'⟩ : ∃ e', t.blocks[p]? = some e' :=
      ⟨_, getElem?_eq_getElem (ht.index.keyed _ p hp)⟩
    obtain ⟨q, prev, hq, hprev, hpprev, hheight, hwork⟩ := hplace p e' hp he'
    have hqp := ht.strict p e' q he' hpprev
    have hsound : Sound (forget E b t) := by
      refine ⟨⟨ht.index.older, ht.index.tree, ?_⟩, ht.tip⟩
      intro hash x hx
      by_cases hself : hash = headerHash E b.header
      · rw [hself] at hx
        simp only [forget, update_self, reduceCtorEq] at hx
      · simp only [forget, update_of_ne hself] at hx
        exact ht.index.keyed hash x hx
    have hne : b.header.hashPrevBlock ≠ headerHash E b.header := by
      intro heq
      rw [heq, hp] at hq
      exact hqp (Option.some.inj hq).symm
    have hnone : (forget E b t).mapBlockIndex (headerHash E b.header) = none := update_self _ _ _
    have hq' : (forget E b t).mapBlockIndex b.header.hashPrevBlock = some q := by
      rw [← hq]
      exact update_of_ne hne _ _
    obtain ⟨hcheck, -, e, v, hnew, hv, hv', hentry, -, hpass⟩ :=
      accepted_new hsound hgenesis hnone h
    have hplace := samePlace_of_onParent hsound (t := t) rfl rfl hnew hv hv' hne hq' hprev
      hpprev hheight hwork
    refine (accepted_known_iff ht.toSound hgenesis hp he' ?_).mpr
      ⟨?_, hcheck, hplace.passes hv' hentry hpass⟩
    · exact ht.aside he'
    · by_contra hfailed
      exact hmark ⟨p, e', hp, he', by simpa using hfailed⟩

/-- A block that came too early is marked, unless the node stopped. From then on it is accepted
exactly when its entry has lost the mark. -/
theorem early_block_accepted_iff_unmarked (E : Env) (H : HeaderParams) (d : Delivery) (b : CBlock)
    (s : IndexState) (hs : Indexed s) (hgenesis : headerHash E b.header ≠ E.hashGenesisBlock)
    (hearly : Early E d b s) : (∃ reject s', receiveBlock E H d b s = (.error reject, s') ∧
      ((∃ what, reject = .throws what) ∨ Marked E b s')) ∧
    ∀ d' t, Settled t → (¬ Marked E b t → OnParent E b t) → Accepted E H d' b (forget E b t) →
      (Accepted E H d' b t ↔ ¬ Marked E b t) := by
  refine ⟨receiveBlock_early hs hgenesis hearly, ?_⟩
  intro d' t ht hplace hforgotten
  constructor
  · intro haccepted hmark
    exact not_accepted_of_marked hgenesis hmark haccepted
  · intro hmark
    exact accepted_of_forgotten ht hgenesis (hplace hmark) hmark hforgotten

section

open ToyEnvironment IndexClosure BestHeader

def firstBlock : CBlock := convertStep.block

def secondBlock : CBlock := (stepOn convertStep.pindex
    [stake genesisHash 2 2 [keyOutput 3 1000]]).block

def hasty : Delivery := { toyDelivery with process := { process with nAdjustedTime := 100 } }

lemma earlyRun_outcomes : let s := IndexRuns.started toyEnv genesisBlock
    let accepts := fun b s => (receiveBlock toyEnv toyParams toyDelivery b s).1.toOption.join.isSome
    accepts firstBlock s = true ∧
    (firstBlock.header.hashPrevBlock ≠ 0 ∧
      hasty.process.nAdjustedTime + FUTURE_DRIFT < firstBlock.header.nTime.toNat) ∧
    ¬ accepts firstBlock (deliver toyEnv toyParams s [(hasty, firstBlock)]) = true ∧
    accepts secondBlock (deliver toyEnv toyParams s [(toyDelivery, firstBlock)]) = true ∧
    (checkBlockOnce toyEnv toyDelivery secondBlock).toOption.map id = some () ∧
    s.mapBlockIndex secondBlock.header.hashPrevBlock = none ∧
    s.mapBlockIndex (headerHash toyEnv secondBlock.header) = none ∧
    ¬ accepts secondBlock
      (deliver toyEnv toyParams s [(toyDelivery, secondBlock), (toyDelivery, firstBlock)]) =
        true := by
  decide +kernel

/-- Two valid blocks that are rejected for good: the first because the clock was late once, the
second because it once came before the first. -/
theorem early_block_stays_rejected : let s := IndexRuns.started toyEnv genesisBlock
    (Accepted toyEnv toyParams toyDelivery firstBlock s ∧ Early toyEnv hasty firstBlock s ∧
      ¬ Accepted toyEnv toyParams toyDelivery firstBlock
        (deliver toyEnv toyParams s [(hasty, firstBlock)])) ∧
    Accepted toyEnv toyParams toyDelivery secondBlock
      (deliver toyEnv toyParams s [(toyDelivery, firstBlock)]) ∧
    Early toyEnv toyDelivery secondBlock s ∧
    ¬ Accepted toyEnv toyParams toyDelivery secondBlock
      (deliver toyEnv toyParams s [(toyDelivery, secondBlock), (toyDelivery, firstBlock)]) := by
  obtain ⟨hfirst, htime, hrejected, hsecond, hcheck, hprev, hnone, hrejected'⟩ := earlyRun_outcomes
  obtain ⟨_, hcheck, -⟩ := exists_ok_of_toOption _ id () hcheck
  simp only [accepted_iff_isSome]
  exact ⟨⟨hfirst, .inr ⟨rfl, htime⟩, hrejected⟩, hsecond, .inl ⟨hcheck, hprev, hnone⟩, hrejected'⟩

def announcedIndex : IndexState :=
  (acceptBlockHeader (withProcess toyEnv process) toyParams ⟨false, true, true⟩ firstBlock.header
    (IndexRuns.started toyEnv genesisBlock)).2

lemma announcedIndex_eq :
    ∃ e, newEntry toyEnv (IndexRuns.started toyEnv genesisBlock) firstBlock.header = .ok e ∧
      announcedIndex = ((IndexRuns.started toyEnv genesisBlock).insert e).update 1
        fun e => { e with accepted := true } := by
  have hrun : acceptBlockHeader (withProcess toyEnv process) toyParams ⟨false, true, true⟩
      firstBlock.header (IndexRuns.started toyEnv genesisBlock) = (.ok 1, announcedIndex) := by
    obtain ⟨p, hp, rfl⟩ := exists_ok_of_toOption
      (acceptBlockHeader (withProcess toyEnv process) toyParams
      ⟨false, true, true⟩ firstBlock.header (IndexRuns.started toyEnv genesisBlock)).1 id 1
      (by decide +kernel)
    rw [announcedIndex, ← hp]
  obtain ⟨e, hnew, -, heq, -⟩ :=
    acceptBlockHeader_new (E := toyEnv) (H := toyParams) (b := firstBlock) (by decide +kernel)
      (by decide +kernel) hrun
  exact ⟨e, hnew, heq⟩

lemma announcedIndex_facts : (branchPointers announcedIndex.blocks announcedIndex.tip = [0] ∧
      announcedIndex.blocks.map (·.pprev) = [none, some 0] ∧
      (announcedIndex.blocks[0]?).map (·.haveData) = some true) ∧
    announcedIndex.mapBlockIndex (headerHash toyEnv firstBlock.header) = some 1 ∧
    announcedIndex.mapBlockIndex firstBlock.header.hashPrevBlock = some 0 ∧
    (announcedIndex.blocks[1]?).map (fun e => (e.pprev, e.nHeight, e.nChainWork, e.failed)) =
      (announcedIndex.blocks[0]?).map (fun prev => (some 0, prev.nHeight + 1,
        prev.nChainWork + getBlockProof firstBlock.header.nBits, false)) ∧
    (receiveBlock toyEnv toyParams toyDelivery firstBlock
      (forget toyEnv firstBlock announcedIndex)).1.toOption.join.isSome = true := by
  decide +kernel

lemma announcedIndex_settled : Settled announcedIndex := by
  obtain ⟨e, hnew, heq⟩ := announcedIndex_eq
  obtain ⟨⟨hactive, hlinks, hdata⟩, -⟩ := announcedIndex_facts
  refine ⟨heq ▸ sound_insert (started_sound genesisBlock) hnew, ?_, ?_⟩
  · intro p e' q he' hq
    have hlink : (announcedIndex.blocks.map (·.pprev))[p]? = some (some q) := by
      rw [getElem?_map, he', Option.map_some, hq]
    rw [hlinks] at hlink
    rcases p with _ | _ | p
    · cases hlink
    · cases hlink
      exact Nat.zero_ne_one
    · cases hlink
  · intro x e' hx he'
    rw [hactive, mem_singleton] at hx
    rw [hx] at he'
    rw [he'] at hdata
    exact Option.some.inj hdata

/-- A block that came too early and is announced by its header on another node. -/
theorem early_block_accepted_iff_unmarked_first :
    (∃ reject s', receiveBlock toyEnv toyParams hasty firstBlock
      (IndexRuns.started toyEnv genesisBlock) =
        (.error reject, s') ∧
      ((∃ what, reject = .throws what) ∨ Marked toyEnv firstBlock s')) ∧
    Accepted toyEnv toyParams toyDelivery firstBlock announcedIndex := by
  have h := early_block_accepted_iff_unmarked toyEnv toyParams hasty firstBlock
    (IndexRuns.started toyEnv genesisBlock) (started_sound genesisBlock).index (by decide +kernel)
    (.inr ⟨rfl, by decide +kernel, by decide +kernel⟩)
  obtain ⟨⟨-, -, hdata⟩, hmap, hmapPrev, hview, haccepts⟩ := announcedIndex_facts
  obtain ⟨prev, hprev, -⟩ := Option.map_eq_some_iff.mp hdata
  rw [hprev] at hview
  obtain ⟨e, he, hfields⟩ := Option.map_eq_some_iff.mp hview
  simp only [Prod.mk.injEq] at hfields
  obtain ⟨hpprev, hheight, hwork, hfailed⟩ := hfields
  have hplace : OnParent toyEnv firstBlock announcedIndex := by
    intro p e' hp he'
    cases hmap.symm.trans hp
    cases he.symm.trans he'
    exact ⟨0, prev, hmapPrev, hprev, hpprev, hheight, hwork⟩
  have hmark : ¬ Marked toyEnv firstBlock announcedIndex := by
    rintro ⟨p, e', hp, he', hfailed'⟩
    cases hmap.symm.trans hp
    cases he.symm.trans he'
    rw [hfailed] at hfailed'
    cases hfailed'
  have hforgotten := accepted_iff_isSome.mpr haccepts
  exact ⟨h.1, (h.2 toyDelivery announcedIndex announcedIndex_settled (fun _ => hplace)
    hforgotten).mpr hmark⟩

end

end EarlyDelivery
