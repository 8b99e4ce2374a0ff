import BitcoinC.IndexClosure

/-!
# The best header

`pindexBestHeader` moves to a new entry with more work. Most entries are made
after `ContextualCheckBlockHeader` has accepted the header.
-/

namespace BestHeader

open Primitives Environment Verdicts TxVerify Blocks HeaderChecks BlockIndex NewBlocks ChainRun
  IndexRuns IndexChanges IndexClosure Relation List Function

variable {blocks : List IndexEntry} {q : Nat}

/-- A parent is created before its children. -/
def Older (blocks : List IndexEntry) : Prop :=
  ∀ (p : Nat) e q, blocks[p]? = some e → e.pprev = some q → q < p

lemma walkBack_some (blocks : List IndexEntry) (n p : Nat) (e : IndexEntry)
    (he : blocks[p]? = some e) : walkBack blocks (n + 1)
    (some p) = e :: walkBack blocks n e.pprev := by
  simp only [walkBack, he]

lemma walkBack_enough (h : Older blocks) (n m p : Nat) (hn : p < n) (hm : p < m) :
    walkBack blocks n (some p) = walkBack blocks m (some p) := by
  induction p using Nat.strong_induction_on generalizing n m with
  | _ p ih =>
    obtain ⟨n, rfl⟩ := Nat.exists_eq_succ_of_ne_zero (Nat.ne_of_gt (Nat.zero_lt_of_lt hn))
    obtain ⟨m, rfl⟩ := Nat.exists_eq_succ_of_ne_zero (Nat.ne_of_gt (Nat.zero_lt_of_lt hm))
    cases he : blocks[p]? with
    | none => simp only [walkBack, he]
    | some e =>
      rw [walkBack_some blocks n p e he, walkBack_some blocks m p e he]
      cases hq : e.pprev with
      | none => cases n <;> cases m <;> rfl
      | some q =>
        have hlt := h p e q he hq
        rw [ih q hlt n m (by omega) (by omega)]

lemma branchAt_cons (h : Older blocks) (p q : Nat) (e : IndexEntry) (he : blocks[p]? = some e)
    (hq : e.pprev = some q) : branchAt blocks p = e :: branchAt blocks q := by
  have hlt := h p e q he hq
  unfold branchAt
  rw [walkBack_some blocks p p e he, hq, walkBack_enough h p (q + 1) q hlt (by omega)]

lemma walkBack_append (h : Older blocks) (e : IndexEntry) (n p : Nat) (hp : p < blocks.length) :
    walkBack (blocks ++ [e]) n (some p) = walkBack blocks n (some p) := by
  induction n generalizing p with
  | zero => rfl
  | succ n ih =>
    have hx := getElem?_eq_getElem hp
    have hx' : (blocks ++ [e])[p]? = some blocks[p] := (getElem?_append_left hp).trans hx
    rw [walkBack_some _ n p _ hx, walkBack_some _ n p _ hx']
    cases hq : blocks[p].pprev with
    | none => cases n <;> rfl
    | some q =>
      have hlt := h p _ q hx hq
      rw [ih q (by omega)]

lemma headerBranch_append (h : Older blocks) (e : IndexEntry) (p : Nat) (hp : p < blocks.length) :
    headerBranch (blocks ++ [e]) p = headerBranch blocks p := by
  unfold headerBranch branchAt
  rw [walkBack_append h e _ p hp]

lemma walkBack_cores {s t : IndexState} (hcores : t.blocks.map core = s.blocks.map core)
    (n : Nat) (p : Option Nat) :
    (walkBack t.blocks n p).map core = (walkBack s.blocks n p).map core := by
  induction n generalizing p with
  | zero => rfl
  | succ n ih =>
    cases p with
    | none => rfl
    | some p =>
      cases he : t.blocks[p]? with
      | none =>
        have hs : s.blocks[p]? = none := by
          have hlen := congrArg length hcores
          rw [length_map, length_map] at hlen
          rw [getElem?_eq_none_iff] at he ⊢
          omega
        simp only [walkBack, he, hs]
      | some e =>
        obtain ⟨old, hold, hcore⟩ := exists_core hcores p e he
        rw [walkBack_some _ n p e he, walkBack_some _ n p old hold, map_cons, map_cons, hcore,
          core_pprev hcore, ih]

lemma headerBranch_cores {s t : IndexState} (hcores : t.blocks.map core = s.blocks.map core)
    (p : Nat) : headerBranch t.blocks p = headerBranch s.blocks p := by
  have h := congrArg (map EntryCore.header) (walkBack_cores hcores (p + 1) (some p))
  rw [List.map_map, List.map_map] at h
  exact h

variable {E : Env} {H : HeaderParams} {clock : Process → Prop} {s t : IndexState}

/-- The header of an object has the target that is required on top of `q`, and its time lies after
the median of the times before it and not too far ahead of one of the clocks. -/
structure Meets (E : Env) (H : HeaderParams) (clock : Process → Prop) (blocks : List IndexEntry)
    (e : IndexEntry) (q : Nat) : Prop where
  target : e.nBits = getNextTargetRequired E H (headerBranch blocks q)
  late : getMedianTimePast (headerBranch blocks q) < e.nTime.toNat
  early : ∃ P, clock P ∧ (e.nTime.toNat : Int) ≤ P.nAdjustedTime + MAX_FUTURE_BLOCK_TIME

/-- The best header and its branch meet the header rules, and its work is their sum. -/
structure BestChecked (E : Env) (H : HeaderParams) (clock : Process → Prop) (s : IndexState) :
    Prop where
  header : ∃ p e, s.pindexBestHeader = some p ∧ s.blocks[p]? = some e ∧
    (e.hashBlock = E.hashGenesisBlock ∨
      ∃ q, e.pprev = some q ∧ Listed s q ∧ Meets E H clock s.blocks e q) ∧
    (∀ x ∈ branchAt s.blocks p, x.hashBlock = E.hashGenesisBlock ∨
      ∃ q, x.pprev = some q ∧ Meets E H clock s.blocks x q) ∧
    e.nChainWork = ((branchAt s.blocks p).map fun x => getBlockProof x.nBits).sum

/-- The invariant: every object but the genesis block meets the header rules on its parent. -/
structure Checked (E : Env) (H : HeaderParams) (clock : Process → Prop) (s : IndexState) :
    Prop where
  keyed : ∀ hash p, s.mapBlockIndex hash = some p → ∃ e, s.blocks[p]? = some e ∧ e.hashBlock = hash
  genesis : ∃ e, s.blocks[0]? = some e ∧ s.mapBlockIndex E.hashGenesisBlock = some 0 ∧
    e.hashBlock = E.hashGenesisBlock ∧ e.pprev = none ∧ e.nChainWork = getBlockProof e.nBits ∧
    e.accepted = true
  meets : ∀ (p : Nat) e, s.blocks[p]? = some e → p ≠ 0 → ∃ q prev, e.pprev = some q ∧ q < p ∧
    s.blocks[q]? = some prev ∧ e.nChainWork = prev.nChainWork + getBlockProof e.nBits ∧
    Meets E H clock s.blocks e q
  best : ∃ p e, s.pindexBestHeader = some p ∧ s.blocks[p]? = some e ∧
    (p = 0 ∨ ∃ q, e.pprev = some q ∧ Listed s q)

lemma Checked.older (h : Checked E H clock s) : Older s.blocks := by
  intro p e q he hq
  by_cases hp : p = 0
  · subst hp
    obtain ⟨g, hg, -, -, hnone, -⟩ := h.genesis
    cases he.symm.trans hg
    rw [hnone] at hq
    cases hq
  · obtain ⟨q', prev, hq', hlt, -⟩ := h.meets p e he hp
    cases hq.symm.trans hq'
    exact hlt

lemma Checked.branch (h : Checked E H clock s) (p : Nat) (e : IndexEntry)
    (he : s.blocks[p]? = some e) : (∀ x ∈ branchAt s.blocks p, x.hashBlock = E.hashGenesisBlock ∨
      ∃ q, x.pprev = some q ∧ Meets E H clock s.blocks x q) ∧
    e.nChainWork = ((branchAt s.blocks p).map fun x => getBlockProof x.nBits).sum := by
  induction p using Nat.strong_induction_on generalizing e with
  | _ p ih =>
    by_cases hp : p = 0
    · subst hp
      obtain ⟨g, hg, -, hash, hnone, hwork, -⟩ := h.genesis
      cases he.symm.trans hg
      have hbranch : branchAt s.blocks 0 = [e] := by
        unfold branchAt
        rw [walkBack_some _ 0 0 e he, hnone]
        rfl
      rw [hbranch]
      refine ⟨fun x hx => ?_, by simpa using hwork⟩
      rw [mem_singleton.mp hx]
      exact .inl hash
    · obtain ⟨q, prev, hq, hlt, hprev, hwork, hmeets⟩ := h.meets p e he hp
      obtain ⟨hchecked, hsum⟩ := ih q hlt prev hprev
      rw [branchAt_cons h.older p q e he hq]
      constructor
      · intro x hx
        rcases mem_cons.mp hx with rfl | hx
        · exact .inr ⟨q, hq, hmeets⟩
        · exact hchecked x hx
      · rw [map_cons, sum_cons, ← hsum, hwork, BitVec.add_comm]

lemma Checked.bestChecked (h : Checked E H clock s) : BestChecked E H clock s := by
  obtain ⟨p, e, hbest, he, hparent⟩ := h.best
  obtain ⟨hchecked, hsum⟩ := h.branch p e he
  refine ⟨p, e, hbest, he, ?_, hchecked, hsum⟩
  by_cases hp : p = 0
  · subst hp
    obtain ⟨g, hg, -, hash, -⟩ := h.genesis
    cases he.symm.trans hg
    exact .inl hash
  · obtain ⟨q, hq, hlisted⟩ := hparent.resolve_left hp
    obtain ⟨q', prev, hq', -, -, -, hmeets⟩ := h.meets p e he hp
    cases hq.symm.trans hq'
    exact .inr ⟨q, hq, hlisted, hmeets⟩

lemma Meets.of_cores (hcores : t.blocks.map core = s.blocks.map core) {e old : IndexEntry}
    (hcore : core e = core old) (h : Meets E H clock s.blocks old q) :
    Meets E H clock t.blocks e q := by
  have hbits := core_nBits hcore
  have htime := core_nTime hcore
  constructor
  · rw [hbits, headerBranch_cores hcores]
    exact h.target
  · rw [htime, headerBranch_cores hcores]
    exact h.late
  · rw [htime]
    exact h.early

lemma Checked.of_cores (h : Checked E H clock s) (hcores : t.blocks.map core = s.blocks.map core)
    (hmap : t.mapBlockIndex = s.mapBlockIndex) (hbest : t.pindexBestHeader = s.pindexBestHeader)
    (haccepted : ∀ e old, t.blocks[0]? = some e → s.blocks[0]? = some old → old.accepted = true →
      e.accepted = true) : Checked E H clock t where
  keyed := Keyed.of_cores h.keyed hcores hmap
  genesis := by
    obtain ⟨old, hold, hgenesis, hash, hnone, hwork, hflag⟩ := h.genesis
    obtain ⟨e, he, hcore⟩ := exists_core hcores.symm 0 old hold
    have hcore := hcore.symm
    refine ⟨e, he, by rw [hmap, hgenesis], (core_hashBlock hcore).trans hash,
      (core_pprev hcore).trans hnone, ?_, haccepted e old he hold hflag⟩
    rw [core_nChainWork hcore, core_nBits hcore, hwork]
  meets := by
    intro p e he hp
    obtain ⟨old, hold, hcore⟩ := exists_core hcores p e he
    obtain ⟨q, prev, hq, hlt, hprev, hwork, hmeets⟩ := h.meets p old hold hp
    obtain ⟨prev', hprev', hcore'⟩ := exists_core hcores.symm q prev hprev
    refine ⟨q, prev', (core_pprev hcore).trans hq, hlt, hprev', ?_, hmeets.of_cores hcores hcore⟩
    rw [core_nChainWork hcore, core_nBits hcore, ← core_nChainWork hcore', hwork]
  best := by
    obtain ⟨p, old, hp, hold, hparent⟩ := h.best
    obtain ⟨e, he, hcore⟩ := exists_core hcores.symm p old hold
    refine ⟨p, e, hbest.trans hp, he, hparent.imp_right ?_⟩
    rintro ⟨q, hq, prev, hprev⟩
    obtain ⟨prev', hprev', -⟩ := hprev.of_cores hcores.symm hmap.symm
    exact ⟨q, (core_pprev hcore).symm.trans hq, prev', hprev'⟩

lemma update_accepted (p : Nat) (f : IndexEntry → IndexEntry)
    (hf : ∀ e, s.blocks[p]? = some e → e.accepted = true → (f e).accepted = true)
    (e old : IndexEntry) (he : (s.update p f).blocks[0]? = some e) (hold : s.blocks[0]? = some old)
    (haccepted : old.accepted = true) : e.accepted = true := by
  obtain ⟨old', hold', hcase⟩ := update_get s p f 0 e he
  cases hold.symm.trans hold'
  rcases hcase with ⟨rfl, rfl⟩ | ⟨-, rfl⟩
  · exact hf old hold haccepted
  · exact haccepted

def PassedUnder (E : Env) (H : HeaderParams) (clock : Process → Prop) (s : IndexState)
    (block : CBlockHeader) : Prop :=
  ∃ P, clock P ∧ Passed (withProcess E P) H s block

/-- The hash is not that of the parent of the best header. -/
def SparesParent (s : IndexState) (hash : Uint256) : Prop :=
  ∀ p e q prev, s.pindexBestHeader = some p → s.blocks[p]? = some e → e.pprev = some q →
    Has s q prev → prev.hashBlock ≠ hash

def Spares (E : Env) (s : IndexState) (hash : Uint256) : Prop :=
  hash ≠ E.hashGenesisBlock ∧ SparesParent s hash

lemma newEntry_meets (h : Checked E H clock s) (block : CBlockHeader) (e : IndexEntry)
    (hnew : s.mapBlockIndex (headerHash E block) = none) (he : newEntry E s block = .ok e)
    (hpassed : PassedUnder E H clock s block) :
    ∃ q prev, e.pprev = some q ∧ q < s.blocks.length ∧ Has s q prev ∧
      e.nChainWork = prev.nChainWork + getBlockProof e.nBits ∧ Meets E H clock s.blocks e q := by
  obtain ⟨P, hP, q, hq, hlt, nCheckpoint, hcontext⟩ := hpassed
  obtain ⟨prev, hprev, hash⟩ := h.keyed _ q hq
  obtain ⟨hpprev, -, hwork, -⟩ :=
    newEntry_parent s block e prev q (parent_ne_self hnew hq) hq hprev he
  obtain ⟨-, htime, hbits, -⟩ := newEntry_fields s block e he
  obtain ⟨htarget, hlate, hearly⟩ := contextualCheckBlockHeader_ok _ H _ nCheckpoint block
    () hcontext
  have hheight : 0 < nextHeight (headerBranch s.blocks q) := by
    unfold headerBranch branchAt
    rw [walkBack_some _ q q prev hprev]
    exact Nat.succ_pos _
  refine ⟨q, prev, hpprev, hlt, ⟨hprev, by rw [hash, hq]⟩, by rw [hwork, hbits], ?_⟩
  exact ⟨hbits.trans htarget, by rw [htime]; exact hlate, P,
    hP, by rw [htime]; exact hearly hheight⟩

lemma Meets.append (hold : Older s.blocks) {e x : IndexEntry} (hq : q < s.blocks.length)
    (h : Meets E H clock s.blocks x q) : Meets E H clock (s.blocks ++ [e]) x q := by
  obtain ⟨htarget, hlate, hearly⟩ := h
  constructor
  · rw [headerBranch_append hold e q hq]
    exact htarget
  · rw [headerBranch_append hold e q hq]
    exact hlate
  · exact hearly

lemma Checked.insert (h : Checked E H clock s) (block : CBlockHeader) (e : IndexEntry)
    (hnew : s.mapBlockIndex (headerHash E block) = none) (he : newEntry E s block = .ok e)
    (hins : headerHash E block = E.hashGenesisBlock ∨ PassedUnder E H clock s block) :
    Checked E H clock (s.insert e) := by
  have hash := (newEntry_fields s block e he).1
  have hnew' : s.mapBlockIndex e.hashBlock = none := by rw [hash, hnew]
  obtain ⟨g, hg, hgmap, hgenesis⟩ := h.genesis
  have hpassed : PassedUnder E H clock s block := by
    rcases hins with hsame | hpassed
    · rw [hsame, hgmap] at hnew
      cases hnew
    · exact hpassed
  obtain ⟨q, prev, hq, hlt, hprev, hwork, hmeets⟩ := newEntry_meets h block e hnew he hpassed
  constructor
  · exact Keyed.insert e h.keyed
  · refine ⟨g, insert_old e 0 g hg, ?_, hgenesis⟩
    have hne : E.hashGenesisBlock ≠ e.hashBlock := by
      intro heq
      rw [heq, hnew'] at hgmap
      cases hgmap
    exact (update_of_ne hne _ _).trans hgmap
  · intro p x hx hp
    rcases insert_get e p x hx with hold | ⟨rfl, rfl⟩
    · obtain ⟨q', prev', hq', hlt', hprev', hwork', hmeets'⟩ := h.meets p x hold hp
      have hlen := (List.getElem?_eq_some_iff.mp hprev').1
      exact ⟨q', prev', hq', hlt', insert_old e q' prev' hprev', hwork',
        hmeets'.append h.older hlen⟩
    · exact ⟨q, prev, hq, hlt, insert_old x q prev hprev.1, hwork, hmeets.append h.older hlt⟩
  · obtain ⟨p, x, hp, hx, hparent⟩ := h.best
    by_cases hbetter : s.betterHeader e = true
    · exact ⟨s.blocks.length, e, if_pos hbetter, (insert_new e).1,
        .inr ⟨q, hq, prev, hprev.insert hnew'⟩⟩
    · refine ⟨p, x, (if_neg hbetter).trans hp, insert_old e p x hx, hparent.imp_right ?_⟩
      rintro ⟨q', hq', prev', hprev'⟩
      exact ⟨q', hq', prev', hprev'.insert hnew'⟩

lemma Checked.erase (h : Checked E H clock s) (hash : Uint256) (hdel : Spares E s hash) :
    Checked E H clock { s with mapBlockIndex := update s.mapBlockIndex hash none } := by
  obtain ⟨hgenesis, hparent⟩ := hdel
  constructor
  · exact Keyed.erase h.keyed hash
  · obtain ⟨g, hg, hgmap, hrest⟩ := h.genesis
    exact ⟨g, hg, (update_of_ne hgenesis.symm _ _).trans hgmap, hrest⟩
  · exact h.meets
  · obtain ⟨p, x, hp, hx, hlisted⟩ := h.best
    refine ⟨p, x, hp, hx, hlisted.imp_right ?_⟩
    rintro ⟨q, hq, prev, hprev⟩
    have hne := hparent p x q prev hp hx hq hprev
    exact ⟨q, hq, prev, hprev.1, (update_of_ne hne _ _).trans hprev.2⟩

lemma Checked.change (h : Checked E H clock s)
    (hst : Change E (PassedUnder E H clock) (Spares E) s t) : Checked E H clock t := by
  cases hst with
  | mark p f hf =>
    exact h.of_cores (update_cores s p f fun e _ => (hf e).core) rfl rfl
      (update_accepted p f fun e _ => (hf e).accepted)
  | store p f hash hp hf =>
    exact h.of_cores (update_cores s p f fun e he => (hf e he).1) rfl rfl
      (update_accepted p f fun e he _ => (hf e he).2.1)
  | insert block e hnew he hins => exact h.insert block e hnew he hins
  | erase hash hdel => exact h.erase hash hdel
  | requeue failed delayed n => exact ⟨h.keyed, h.genesis, h.meets, h.best⟩
  | activate _ hsame =>
    refine h.of_cores hsame.cores hsame.map hsame.best fun e old he hold haccepted => ?_
    have hflag := congrArg (fun flags => flags[0]?) hsame.flags
    simp only [getElem?_map, he, hold, Option.map_some, Option.some.injEq, Prod.mk.injEq] at hflag
    exact hflag.2.trans haccepted

lemma Checked.changes (h : Checked E H clock s)
    (hst : Changes E (PassedUnder E H clock) (Spares E) s t) : Checked E H clock t := by
  induction hst with
  | refl => exact h
  | tail _ hlast ih => exact ih.change hlast

lemma passed_of_cores (hcores : t.blocks.map core = s.blocks.map core)
    (hmap : t.mapBlockIndex = s.mapBlockIndex) {block : CBlockHeader} (h : Passed E H s block) :
    Passed E H t block := by
  obtain ⟨q, hq, hlt, nCheckpoint, hcontext⟩ := h
  have hlen := congrArg length hcores
  rw [length_map, length_map] at hlen
  refine ⟨q, hmap ▸ hq, hlen ▸ hlt, nCheckpoint, ?_⟩
  rwa [headerBranch_cores hcores]

/-- A header that passes its checks still does after changes that erase nothing. -/
lemma Checked.passed_changes {P : Process} (h : Checked E H clock s) {block : CBlockHeader}
    (hpassed : Passed (withProcess E P) H s block)
    (hst : Changes E (PassedUnder E H clock) (fun _ _ => False) s t) :
    Passed (withProcess E P) H t block := by
  induction hst with
  | refl => exact hpassed
  | @tail u t hsu hlast ih =>
    have hu := h.changes (changes_of_no_erase _ (Spares E) hsu)
    cases hlast with
    | mark p f hf => exact passed_of_cores (update_cores u p f fun e _ => (hf e).core) rfl ih
    | store p f hash hp hf =>
      exact passed_of_cores (update_cores u p f fun e he => (hf e he).1) rfl ih
    | insert new e hnew he hins =>
      obtain ⟨q, hq, hlt, nCheckpoint, hcontext⟩ := ih
      have hne : block.hashPrevBlock ≠ e.hashBlock := by
        intro heq
        rw [heq, (newEntry_fields u new e he).1, hnew] at hq
        cases hq
      refine ⟨q, (update_of_ne hne _ _).trans hq, ?_, nCheckpoint, ?_⟩
      · exact hlt.trans_le (length_append ▸ Nat.le_add_right _ _)
      · exact (headerBranch_append hu.older e q hlt).symm ▸ hcontext
    | erase hash hdel => exact hdel.elim
    | requeue failed delayed n => exact ih
    | activate _ hsame => exact passed_of_cores hsame.cores hsame.map ih

/-- An event after which the best header is still a checked one. A call that may delay a block finds
room in the list, the header of a received block is in the index or passes its checks on top of its
parent there, and the parent of the best header is not erased. -/
def Guarded (E : Env) (H : HeaderParams) (s : IndexState) : Event → Prop
  | .accept _ _ => Room s
  | .receive d b => Room s ∧ ((s.mapBlockIndex (headerHash E b.header)).isSome ∨
      Passed (withProcess E d.process) H s b.header)
  | .delay _ _ _ => Room s
  | .erase id => ∀ x, (s.delayedBlocks.find? fun x => x.id = id) = some x →
      Spares E s (headerHash E x.block.header)
  | .remove hash => ∀ p e, s.mapBlockIndex hash = some p → s.blocks[p]? = some e →
      e.accepted = false → SparesParent s hash
  | _ => True

lemma Guarded.allowed (hchecked : Checked E H clock s) (event : Event) (h : Guarded E H s event)
    (hclock : ∀ P, event.process = some P → clock P) :
    Allowed (PassedUnder E H clock) (Spares E) E H s event := by
  cases event with
  | header process peer block => trivial
  | accept d b => exact h
  | receive d b =>
    refine ⟨h.1, fun reject t _ hst hnone => ?_⟩
    rcases h.2 with hknown | hpassed
    · have := isSome_of_changes hst _ hknown
      rw [hnone] at this
      cases this
    · exact ⟨d.process, hclock _ rfl, hchecked.passed_changes hpassed hst⟩
  | activate b => trivial
  | delay time nodeId b => exact h
  | drop id => trivial
  | erase id => exact h
  | remove hash =>
    intro p e hp he haccepted
    refine ⟨?_, h p e hp he haccepted⟩
    -- the genesis block was accepted
    rintro rfl
    obtain ⟨g, hg, hgmap, -, -, -, hflag⟩ := hchecked.genesis
    cases hp.symm.trans hgmap
    cases he.symm.trans hg
    rw [haccepted] at hflag
    cases hflag
  | duplicateStake p nodeId peerCount nPeers => trivial

/-- An event that meets its condition keeps the headers checked. -/
lemma Checked.step {A : Activation} (event : Event) (h : Checked E H clock s)
    (hguarded : Guarded E H s event) (hclock : ∀ P, event.process = some P → clock P)
    (hstep : step E H A s event = .ok t) : Checked E H clock t := by
  refine h.changes (step_changes _ _ A s t event ?_ (hguarded.allowed h event hclock) hstep)
  intro P hP u block hpassed
  exact ⟨P, hclock P hP, hpassed⟩

lemma started_checked (genesis : CBlock) : Checked E H clock (started E genesis) := by
  have hlinked := started_linked (E := E) genesis
  constructor
  · exact hlinked.keyed
  · exact ⟨_, rfl, by simp [started], rfl, rfl, rfl, rfl⟩
  · intro p e he hp
    exact absurd (started_entry E he).1 hp
  · exact ⟨0, _, rfl, rfl, .inl rfl⟩

/-- The best header is a checked header, as long as received blocks do not bring in headers that
fail their checks and the parent of the best header is not erased. -/
theorem bestHeader_checked (E : Env) (H : HeaderParams) (A : Activation) (genesis : CBlock)
    (events : List Event) (t : IndexState)
    (hguarded : everyStep (Guarded E H) (step E H A) (started E genesis) events)
    (h : loop (step E H A) (started E genesis) events = .ok t) :
    BestChecked E H (fun P => ∃ event ∈ events, event.process = some P) t := by
  set clock : Process → Prop := fun P => ∃ event ∈ events, event.process = some P
  have hguarded := everyStep_and _ _ (fun event => ∀ P, event.process = some P → clock P) events
    (started E genesis) (fun event hevent P hP => ⟨event, hevent, hP⟩) hguarded
  refine (everyStep_induction _ _ (Checked E H clock) ?_ events _ t
    (started_checked genesis) hguarded h).bestChecked
  intro s t event hs hevent hstep
  exact hs.step event hevent.1 hevent.2 hstep

section

open ToyEnvironment

def emptied (header : CBlockHeader) : CBlock := { header := header, vtx := [] }

def toyDelivery : Delivery where
  process := process
  node := node [] (fun _ => none) .empty
  time := 1000

/-- A header comes in first, then its block without the transactions, which is rejected. -/
def announced : List Event :=
  [fromPeer firstHeader, .receive toyDelivery (emptied firstHeader)]

lemma announced_guarded :
    everyStep (Guarded toyEnv toyParams) (step toyEnv toyParams idle) (started toyEnv genesisBlock)
      announced := by
  refine ⟨trivial, fun t ht => ⟨?_, fun _ _ => trivial⟩⟩
  have hcheck : (step toyEnv toyParams idle (started toyEnv genesisBlock) (fromPeer firstHeader)
      ).toOption.map (fun t => (t.delayedBlocks.length,
        (t.mapBlockIndex (headerHash toyEnv firstHeader)).isSome)) = some (0, true) := by
    decide +kernel
  rw [ht] at hcheck
  obtain ⟨hlength, hknown⟩ := Prod.mk.inj (Option.some.inj hcheck)
  refine ⟨?_, .inl hknown⟩
  unfold Room
  rw [hlength]
  decide

/-- A rejected block whose header is known does no harm. -/
theorem bestHeader_checked_announced :
    ∃ t, loop (step toyEnv toyParams idle) (started toyEnv genesisBlock) announced = .ok t ∧
      BestChecked toyEnv toyParams (fun P => ∃ event ∈ announced, event.process = some P) t := by
  obtain ⟨t, ht, -⟩ := exists_ok_of_toOption
    (loop (step toyEnv toyParams idle) (started toyEnv genesisBlock) announced)
    (fun t => t.blocks.length) 2 (by decide +kernel)
  exact ⟨t, ht, bestHeader_checked toyEnv toyParams idle genesisBlock announced t
    announced_guarded ht⟩

def heavyHeader : CBlockHeader := { firstHeader with nBits := 0x03000001 }

/-- A block that fails `CheckBlock` brings in its header, which nobody has checked, as the best
one. -/
theorem rejected_block_is_best :
    ∃ t, loop (step toyEnv toyParams idle) (started toyEnv genesisBlock)
        [.receive toyDelivery (emptied heavyHeader)] = .ok t ∧
      ∀ clock, ¬ BestChecked toyEnv toyParams clock t := by
  obtain ⟨t, ht, hview⟩ := exists_ok_of_toOption
    (loop (step toyEnv toyParams idle) (started toyEnv genesisBlock)
      [.receive toyDelivery (emptied heavyHeader)])
    (fun t : IndexState => decide (t.pindexBestHeader = some 1 ∧
      (t.blocks[1]?).map (fun e : IndexEntry => (e.hashBlock, e.nBits, e.pprev)) =
        some (headerHash toyEnv heavyHeader, 0x03000001, some 0) ∧
      getNextTargetRequired toyEnv toyParams (headerBranch t.blocks 0) = 0x1f00ffff))
    true (by decide +kernel)
  simp only [decide_eq_true_eq, Option.map_eq_some_iff, Prod.mk.injEq] at hview
  obtain ⟨hbest, ⟨e, he, hash, hbits, hparent⟩, hrequired⟩ := hview
  refine ⟨t, ht, fun clock hchecked => ?_⟩
  obtain ⟨p, x, hp, hx, hcases, -⟩ := hchecked.header
  cases hbest.symm.trans hp
  cases he.symm.trans hx
  rcases hcases with hgenesis | ⟨q, hq, -, hmeets⟩
  · rw [hash] at hgenesis
    exact absurd hgenesis (by decide +kernel)
  · cases hparent.symm.trans hq
    have htarget := hmeets.target
    rw [hbits, hrequired] at htarget
    exact absurd htarget (by decide)

end

end BestHeader
