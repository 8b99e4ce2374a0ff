import BitcoinC.LinkedBlocks

/-!
# A block that is delivered again

`ProcessNewBlock` keeps an entry for a block that it rejects, and a block with an
entry that is marked as failed is a duplicate.
-/

namespace Redelivery

open Primitives Environment Verdicts Blocks HeaderChecks Calls BlockIndex NewBlocks ChainRun
  Candidates LinkedBlocks List

variable {x : IndexEntry} {P : Process} (f : IndexEntry → IndexEntry)

section

variable {i j : IndexState}

lemma walkBack_agree (hi : Indexed i) (n : Nat) (p : Option Nat)
    (hp : ∀ x, p = some x → x < i.blocks.length)
    (h : ∀ x ∈ lineage i.blocks n p, j.blocks[x]? = i.blocks[x]?) :
    walkBack j.blocks n p = walkBack i.blocks n p := by
  induction n generalizing p with
  | zero => cases p <;> rfl
  | succ n ih =>
    cases p with
    | none => rfl
    | some p =>
      obtain ⟨e, he⟩ : ∃ e, i.blocks[p]? = some e := ⟨_, getElem?_eq_getElem (hp p rfl)⟩
      have hlin : lineage i.blocks (n + 1) (some p) = p :: lineage i.blocks n e.pprev := by
        simp only [lineage, he]
      have hp' : j.blocks[p]? = some e := (h p (hlin ▸ mem_cons_self)).trans he
      simp only [walkBack, he, hp']
      rw [ih e.pprev ?_ fun x hx => h x (hlin ▸ mem_cons_of_mem p hx)]
      intro x hx
      exact (hi.older p e x he hx).trans_lt (hp p rfl)

def branchPointers (blocks : List IndexEntry) : Option Nat → List Nat
  | none => []
  | some p => lineage blocks (p + 1) (some p)

lemma indexBranch_agree (hi : Indexed i) (p : Option Nat)
    (hp : ∀ x, p = some x → x < i.blocks.length)
    (h : ∀ x ∈ branchPointers i.blocks p, j.blocks[x]? = i.blocks[x]?) :
    indexBranch j.blocks p = indexBranch i.blocks p := by
  cases p with
  | none => rfl
  | some p =>
    simp only [indexBranch, branchAt]
    rw [walkBack_agree hi (p + 1) (some p) hp h]

lemma lineage_le (hi : Indexed i) (n p x : Nat) (hx : x ∈ lineage i.blocks n (some p)) : x ≤ p := by
  induction n generalizing p with
  | zero => exact absurd hx not_mem_nil
  | succ n ih =>
    cases he : i.blocks[p]? with
    | none =>
      simp only [lineage, he] at hx
      exact absurd hx not_mem_nil
    | some e =>
      simp only [lineage, he, mem_cons] at hx
      rcases hx with rfl | hrest
      · exact le_rfl
      · cases hprev : e.pprev with
        | none =>
          rw [hprev] at hrest
          cases n <;> exact absurd hrest not_mem_nil
        | some q =>
          rw [hprev] at hrest
          exact (ih q hrest).trans (hi.older p e q he hprev)

end

section

variable (E : Env) (H : HeaderParams)

/-- The outcome of `AcceptBlock` after the header: the block is not wanted, or it has not to wait
and passes its checks. -/
def Passes (d : Delivery) (b : CBlock) (unwanted late : Bool)
    (chainActive branch : List CBlockIndex) : Prop :=
  unwanted = true ∨ (checkBlockOnce E d b = .ok () ∧
    (isProofOfStake b = true → (b.vtx.head?.bind (·.vin.head?)).isSome = true ∧
      (late = true → d.process.isInitialBlockDownload = true)) ∧
    contextualCheckBlock (withProcess E d.process) { d.node with chainActive :=
      chainActive } branch b true = .ok () ∧
    d.saved = true)

variable {E H} {s t : IndexState} {p : Nat} {e : IndexEntry} {d : Delivery} {b : CBlock}

lemma update_entry (he : s.blocks[p]? = some e) : (s.update p f).blocks[p]? = some (f e) := by
  show (s.blocks.modify p f)[p]? = some (f e)
  rw [getElem?_modify_eq, he]
  rfl

lemma update_other (x : Nat) (hx : x ≠ p) : (s.update p f).blocks[x]? = s.blocks[x]? := by
  show (s.blocks.modify p f)[x]? = s.blocks[x]?
  rw [getElem?_modify]
  cases s.blocks[x]? with
  | none => rfl
  | some e => simp [hx.symm]

lemma update_update (g : IndexEntry → IndexEntry) :
    (s.update p f).update p g = s.update p (g ∘ f) := by
  simp only [IndexState.update, modify_modify_eq]

lemma entryAt_returns_iff : entryAt p s = (.ok x, t) ↔ s.blocks[p]? = some x ∧ s = t := by
  simp only [entryAt, bind_returns_iff, read_returns_iff, lift_returns_iff, orReject_ok_iff]
  constructor
  · rintro ⟨_, _, ⟨rfl, rfl⟩, hx, rfl⟩
    exact ⟨hx, rfl⟩
  · rintro ⟨hx, rfl⟩
    exact ⟨s, s, ⟨rfl, rfl⟩, hx, rfl⟩

lemma updateEntry_returns_iff (u : Unit) :
    updateEntry p f s = (.ok u, t) ↔ s.update p f = t := write_returns_iff _ _

lemma rejectWhen_returns_iff (q : Prop) [Decidable q] (reject : Reject) (u : Unit) :
    rejectWhen q reject s = (.ok u, t) ↔ ¬ q ∧ s = t := by
  rw [rejectWhen, lift_returns_iff, rejectIf_ok_iff]

lemma outOfOrder_update (prevout : COutPoint) (he : s.blocks[p]? = some e) :
    outOfOrder E
        (s.update p fun e => { e with proofOfStake := true, prevoutStake := prevout }).blocks
      { e with proofOfStake := true, prevoutStake := prevout } = outOfOrder E s.blocks e := by
  cases hprev : e.pprev with
  | none => simp only [outOfOrder, hprev, Option.bind_none]
  | some q =>
    by_cases hq : q = p
    · subst hq
      simp only [outOfOrder, hprev, Option.bind_some, update_entry _ he, he]
    · simp only [outOfOrder, hprev, Option.bind_some, update_other _ q hq]

def KeepsCore (f : IndexEntry → IndexEntry) : Prop := ∀ e, IndexRuns.core (f e) = IndexRuns.core e

lemma placeStake_returns (he : s.blocks[p]? = some e) (h : placeStake E d b p s = (.ok false, t)) :
    (b.vtx.head?.bind (·.vin.head?)).isSome = true ∧
    (outOfOrder E s.blocks e = true → d.process.isInitialBlockDownload = true) ∧
    ∃ f, KeepsCore f ∧ t = (s.update p f) := by
  simp only [placeStake, bind_returns_iff, lift_returns_iff, orReject_ok_iff,
    updateEntry_returns_iff, read_returns_iff, entryAt_returns_iff] at h
  obtain ⟨kernel, _, ⟨hkernel, rfl⟩, _, _, rfl, _, _, ⟨rfl, rfl⟩, x, _, ⟨hx, rfl⟩, h⟩ := h
  cases (update_entry _ he).symm.trans hx
  rw [outOfOrder_update kernel.prevout he] at h
  refine ⟨by rw [hkernel]; rfl, ?_⟩
  cases hlate : outOfOrder E s.blocks e with
  | true =>
    rw [hlate] at h
    simp only [if_true] at h
    cases hibd : d.process.isInitialBlockDownload with
    | true =>
      rw [hibd] at h
      simp only [if_true, bind_returns_iff, updateEntry_returns_iff, pure_returns_iff] at h
      obtain ⟨_, _, rfl, -, rfl⟩ := h
      refine ⟨fun _ => rfl, _, ?_, update_update _ _⟩
      exact fun _ => rfl
    | false =>
      rw [hibd] at h
      simp only [Bool.false_eq_true, if_false] at h
      split at h
      · simp only [pure_returns_iff, Bool.true_eq_false, false_and] at h
      · simp only [bind_returns_iff, pure_returns_iff, Bool.true_eq_false, false_and, and_false,
          exists_false] at h
  | false =>
    rw [hlate] at h
    simp only [Bool.false_eq_true, if_false, bind_returns_iff, updateEntry_returns_iff,
      pure_returns_iff] at h
    obtain ⟨_, _, rfl, -, rfl⟩ := h
    refine ⟨fun h => absurd h Bool.false_ne_true, _, ?_, update_update _ _⟩
    exact fun _ => rfl

lemma exists_placeStake_returns (he : s.blocks[p]? = some e)
    (hkernel : (b.vtx.head?.bind (·.vin.head?)).isSome = true)
    (hlate : outOfOrder E s.blocks e = true → d.process.isInitialBlockDownload = true) :
    ∃ t, placeStake E d b p s = (.ok false, t) := by
  obtain ⟨kernel, hkernel⟩ := Option.isSome_iff_exists.mp hkernel
  simp only [placeStake, bind_returns_iff, lift_returns_iff, orReject_ok_iff,
    updateEntry_returns_iff, read_returns_iff, entryAt_returns_iff]
  by_cases hcase : outOfOrder E s.blocks e = true
  · apply Exists.intro
    refine ⟨kernel, s, ⟨hkernel, rfl⟩, (), _, rfl, _, _, ⟨rfl, rfl⟩, _, _,
      ⟨update_entry _ he, rfl⟩, ?_⟩
    rw [outOfOrder_update kernel.prevout he, if_pos hcase, if_pos (hlate hcase)]
    rfl
  · apply Exists.intro
    refine ⟨kernel, s, ⟨hkernel, rfl⟩, (), _, rfl, _, _, ⟨rfl, rfl⟩, _, _,
      ⟨update_entry _ he, rfl⟩, ?_⟩
    rw [outOfOrder_update kernel.prevout he, if_neg hcase]
    rfl

/-- The object `p` is in no branch that is read while its block comes in, unless the block is not
wanted anyway. -/
def Aside (s : IndexState) (p : Nat) (e : IndexEntry) : Prop :=
  e.haveData = false → p ∉ branchPointers s.blocks s.tip ∧ p ∉ branchPointers s.blocks e.pprev

structure Sound (s : IndexState) : Prop where
  index : Indexed s
  tip : ∀ x, s.tip = some x → x < s.blocks.length

lemma Sound.pprev_lt (h : Sound s) (he : s.blocks[p]? = some e) (x : Nat) (hx : e.pprev = some x) :
    x < s.blocks.length :=
  (h.index.older p e x he hx).trans_lt (List.getElem?_eq_some_iff.mp he).1

lemma indexBranch_update (h : Sound s) (f : IndexEntry → IndexEntry) (q : Option Nat)
    (hq : ∀ x, q = some x → x < s.blocks.length) (hp : p ∉ branchPointers s.blocks q) :
    indexBranch (s.update p f).blocks q = indexBranch s.blocks q :=
  indexBranch_agree h.index q hq fun x hx => update_other f x fun heq => hp (heq ▸ hx)

lemma checkInContext_returns_iff (hx : s.blocks[p]? = some x) (u : Unit) :
    checkInContext E d b p s = (.ok u, t) ↔
      contextualCheckBlock (withProcess E d.process)
        { d.node with chainActive := indexBranch s.blocks s.tip } (indexBranch s.blocks x.pprev)
          b true = .ok () ∧ s = t := by
  simp only [checkInContext, bind_returns_iff, read_returns_iff, entryAt_returns_iff]
  constructor
  · rintro ⟨_, _, ⟨rfl, rfl⟩, y, _, ⟨hy, rfl⟩, h⟩
    cases hx.symm.trans hy
    cases hok : contextualCheckBlock (withProcess E d.process)
        { d.node with chainActive := indexBranch s.blocks s.tip } (indexBranch s.blocks x.pprev)
          b true with
    | ok _ =>
      rw [hok] at h
      exact ⟨rfl, ((pure_returns_iff _).mp h).2⟩
    | error reject =>
      rw [hok] at h
      dsimp only at h
      split at h
      · simp only [bind_returns_iff, fail_returns_iff, and_false, exists_false] at h
      · rw [fail_returns_iff] at h
        exact h.elim
  · rintro ⟨hok, rfl⟩
    refine ⟨s, s, ⟨rfl, rfl⟩, x, s, ⟨hx, rfl⟩, ?_⟩
    rw [hok]
    rfl

lemma storeBlock_returns_iff : (∃ t, storeBlock d b p s = (.ok (), t)) ↔ d.saved = true := by
  simp only [storeBlock, bind_returns_iff, updateEntry_returns_iff, rejectWhen_returns_iff]
  constructor
  · rintro ⟨_, _, _, _, _, _, ⟨hsaved, -⟩, -⟩
    simpa using hsaved
  · intro hsaved
    exact ⟨_, (), _, rfl, (), _, ⟨by simp [hsaved], rfl⟩, rfl⟩

def checkAndStore (E : Env) (d : Delivery) (b : CBlock) (p : Nat) : IndexCall Bool := do
  checkInContext E d b p
  storeBlock d b p
  pure false

lemma checkAndStore_returns_iff (hx : s.blocks[p]? = some x) :
    (∃ t, checkAndStore E d b p s = (.ok false, t)) ↔
      contextualCheckBlock (withProcess E d.process)
        { d.node with chainActive := indexBranch s.blocks s.tip } (indexBranch s.blocks x.pprev)
          b true = .ok () ∧ d.saved = true := by
  simp only [checkAndStore, bind_returns_iff, checkInContext_returns_iff hx, pure_returns_iff]
  constructor
  · rintro ⟨t, _, _, ⟨hok, rfl⟩, _, u, hstore, -⟩
    exact ⟨hok, storeBlock_returns_iff.mp ⟨u, hstore⟩⟩
  · rintro ⟨hok, hsaved⟩
    obtain ⟨u, hstore⟩ := storeBlock_returns_iff.mpr hsaved
    exact ⟨u, (), s, ⟨hok, rfl⟩, (), u, hstore, trivial, rfl⟩

lemma checkAndStore_update_iff (h : Sound s) (he : s.blocks[p]? = some e)
    (hactive : p ∉ branchPointers s.blocks s.tip) (hparent : p ∉ branchPointers s.blocks e.pprev)
    (f : IndexEntry → IndexEntry) (hf : KeepsCore f) :
    (∃ t, checkAndStore E d b p (s.update p f) = (.ok false, t)) ↔
      contextualCheckBlock (withProcess E d.process)
        { d.node with chainActive := indexBranch s.blocks s.tip } (indexBranch s.blocks e.pprev)
          b true = .ok () ∧ d.saved = true := by
  rw [checkAndStore_returns_iff (update_entry f he), IndexChanges.core_pprev (hf e),
    indexBranch_update h f e.pprev (h.pprev_lt he) hparent]
  show contextualCheckBlock _ { d.node with chainActive := indexBranch (s.update p f).blocks s.tip }
    _ _ _ = _ ∧ _ ↔ _
  rw [indexBranch_update h f s.tip h.tip hactive]

lemma acceptBlockData_returns_iff (h : Sound s) (he : s.blocks[p]? = some e)
    (haside : Aside s p e) : (∃ t, acceptBlockData E H d b p s = (.ok false, t)) ↔
      Passes E d b (notWanted H s d.fRequested e) (outOfOrder E s.blocks e)
        (indexBranch s.blocks s.tip) (indexBranch s.blocks e.pprev) := by
  have hunfold : ∀ t, acceptBlockData E H d b p s = (.ok false, t) ↔
      (if notWanted H s d.fRequested e then (pure false : IndexCall Bool)
      else lift (checkBlockOnce E d b) >>= fun _ =>
        (if isProofOfStake b then placeStake E d b p else pure false) >>= fun wait =>
          if wait then pure true else checkAndStore E d b p) s = (.ok false, t) := by
    intro t
    rw [acceptBlockData, bind_apply]
    show (entryAt p >>= _) s = _ ↔ _
    rw [bind_apply, (entryAt_returns_iff (s := s) (t := s)).mpr ⟨he, rfl⟩]
    cases isProofOfStake b <;> rfl
  simp only [hunfold]
  cases hunwanted : notWanted H s d.fRequested e with
  | true =>
    refine ⟨fun _ => .inl rfl, fun _ => ⟨s, ?_⟩⟩
    rw [if_pos rfl]
    rfl
  | false =>
    have hdata : e.haveData = false := by
      unfold notWanted at hunwanted
      exact (Bool.or_eq_false_iff.mp hunwanted).1
    obtain ⟨hactive, hparent⟩ := haside hdata
    have hchecks := checkAndStore_update_iff (E := E) (d := d) (b := b) h he hactive hparent
    simp only [Bool.false_eq_true, if_false, bind_returns_iff, lift_returns_iff, Passes, false_or]
    constructor
    · rintro ⟨t, _, _, ⟨hcheck, rfl⟩, wait, u, hwait, hrest⟩
      cases wait with
      | true =>
        rw [if_pos rfl, pure_returns_iff] at hrest
        exact absurd hrest.1 Bool.true_eq_false.mp
      | false =>
        rw [if_neg Bool.false_ne_true] at hrest
        cases hstake : isProofOfStake b with
        | true =>
          rw [hstake, if_pos rfl] at hwait
          obtain ⟨hkernel, hlate, f, hf, rfl⟩ := placeStake_returns he hwait
          exact ⟨hcheck, fun _ => ⟨hkernel, hlate⟩, (hchecks f hf).mp ⟨t, hrest⟩⟩
        | false =>
          rw [hstake, if_neg Bool.false_ne_true, pure_returns_iff] at hwait
          obtain ⟨-, rfl⟩ := hwait
          exact ⟨hcheck, fun h => absurd h Bool.false_ne_true,
            (checkAndStore_returns_iff he).mp ⟨t, hrest⟩⟩
    · rintro ⟨hcheck, hstake, hrest⟩
      cases hcase : isProofOfStake b with
      | true =>
        obtain ⟨hkernel, hlate⟩ := hstake hcase
        obtain ⟨u, hu⟩ := exists_placeStake_returns he hkernel hlate
        obtain ⟨-, -, f, hf, rfl⟩ := placeStake_returns he hu
        obtain ⟨t, ht⟩ := (hchecks f hf).mpr hrest
        refine ⟨t, (), s, ⟨hcheck, rfl⟩, false, s.update p f, ?_, ?_⟩
        · rw [if_pos rfl]
          exact hu
        · rw [if_neg Bool.false_ne_true]
          exact ht
      | false =>
        obtain ⟨t, ht⟩ := (checkAndStore_returns_iff he).mpr hrest
        refine ⟨t, (), s, ⟨hcheck, rfl⟩, false, s, ?_, ?_⟩
        · rw [if_neg Bool.false_ne_true]
          rfl
        · rw [if_neg Bool.false_ne_true]
          exact ht

/-- The object `e'` in `t` stands where `e` does in `s`, and at least as much is known about it. -/
structure SamePlace (s t : IndexState) (e e' : IndexEntry) : Prop where
  tip : t.tip = s.tip
  agree : e.haveData = false → ∀ x, x ∈ branchPointers s.blocks s.tip ∨
    x ∈ branchPointers s.blocks e.pprev → t.blocks[x]? = s.blocks[x]?
  pprev : e'.pprev = e.pprev
  height : e'.nHeight = e.nHeight
  work : e'.nChainWork = e.nChainWork
  data : e.haveData = true → e'.haveData = true
  known : e.nTx ≠ 0 → e'.haveData = true ∨ e'.nTx ≠ 0

lemma mem_branchPointers (x : Nat) (hx : x < s.blocks.length) :
    x ∈ branchPointers s.blocks (some x) := by
  simp only [branchPointers, lineage, getElem?_eq_getElem hx, mem_cons_self]

variable {e' : IndexEntry}

lemma SamePlace.notWanted (h : SamePlace s t e e') (hs : Sound s) (fRequested : Bool)
    (hunwanted : NewBlocks.notWanted H s fRequested e = true) :
    NewBlocks.notWanted H t fRequested e' = true := by
  cases hdata : e.haveData with
  | true => simp only [NewBlocks.notWanted, h.data hdata, Bool.true_or]
  | false =>
    have htip : t.tip.bind (t.blocks[·]?) = s.tip.bind (s.blocks[·]?) := by
      rw [h.tip]
      cases hx : s.tip with
      | none => rfl
      | some x =>
        have hmem := mem_branchPointers x (hs.tip x hx)
        exact h.agree hdata x (.inl (by rw [hx]; exact hmem))
    cases hdata' : e'.haveData with
    | true => simp only [NewBlocks.notWanted, hdata', Bool.true_or]
    | false =>
      simp only [NewBlocks.notWanted, hdata, hdata', htip, h.height, h.work, Bool.false_or,
        Bool.and_eq_true, Bool.or_eq_true, decide_eq_true_eq] at hunwanted ⊢
      obtain ⟨hreq, hcase⟩ := hunwanted
      refine ⟨hreq, ?_⟩
      rcases hcase with ((hnTx | hwork) | hheight) | hmin
      · exact .inl
          (.inl (.inl ((h.known hnTx).resolve_left (by rw [hdata']; exact Bool.false_ne_true))))
      · exact .inl (.inl (.inr hwork))
      · exact .inl (.inr hheight)
      · exact .inr hmin

lemma SamePlace.passes (h : SamePlace s t e e') (hs : Sound s) (he : s.blocks[p]? = some e)
    (hpass : Passes E d b (NewBlocks.notWanted H s d.fRequested e) (outOfOrder E s.blocks e)
      (indexBranch s.blocks s.tip) (indexBranch s.blocks e.pprev)) :
    Passes E d b (NewBlocks.notWanted H t d.fRequested e') (outOfOrder E t.blocks e')
      (indexBranch t.blocks t.tip) (indexBranch t.blocks e'.pprev) := by
  rcases hpass with hunwanted | hpass
  · exact .inl (h.notWanted hs d.fRequested hunwanted)
  · cases hdata : e.haveData with
    | true =>
      left
      simp only [NewBlocks.notWanted, h.data hdata, Bool.true_or]
    | false =>
      right
      have hagree := h.agree hdata
      have hactive : indexBranch t.blocks t.tip = indexBranch s.blocks s.tip := by
        rw [h.tip]
        exact indexBranch_agree hs.index s.tip hs.tip fun x hx => hagree x (.inl hx)
      have hbranch : indexBranch t.blocks e'.pprev = indexBranch s.blocks e.pprev := by
        rw [h.pprev]
        exact indexBranch_agree hs.index e.pprev (hs.pprev_lt he) fun x hx => hagree x (.inr hx)
      have hlate : outOfOrder E t.blocks e' = outOfOrder E s.blocks e := by
        unfold outOfOrder
        rw [h.pprev]
        cases hx : e.pprev with
        | none => rfl
        | some x =>
          have hmem := mem_branchPointers x (hs.pprev_lt he x hx)
          rw [Option.bind_some, Option.bind_some, hagree x (.inr (by rw [hx]; exact hmem))]
      rw [hactive, hbranch, hlate]
      exact hpass

variable (E H)

def Accepted (d : Delivery) (b : CBlock) (s : IndexState) : Prop :=
  ∃ p t, receiveBlock E H d b s = (.ok (some p), t)

/-- The entry of the block is marked as failed. -/
def Marked (b : CBlock) (s : IndexState) : Prop :=
  ∃ p e, s.mapBlockIndex (headerHash E b.header) = some p ∧ s.blocks[p]? = some e ∧ e.failed = true

variable {E H}

lemma checkAndAccept_returns_iff (r : Nat × Bool) :
    checkAndAccept E H d b s = (.ok r, t) ↔ checkBlockOnce E d b = .ok () ∧
      ∃ u, acceptBlockHeader (withProcess E d.process) H ⟨false, true, true⟩ b.header s =
        (.ok r.1, u) ∧ acceptBlockData E H d b r.1 u = (.ok r.2, t) := by
  simp only [checkAndAccept, NewBlocks.acceptBlock, bind_returns_iff, lift_returns_iff,
    pure_returns_iff]
  constructor
  · rintro ⟨_, _, ⟨hcheck, rfl⟩, p, u, hheader, wait, _, hdata, rfl, rfl⟩
    exact ⟨hcheck, u, hheader, hdata⟩
  · rintro ⟨hcheck, u, hheader, hdata⟩
    exact ⟨(), s, ⟨hcheck, rfl⟩, r.1, u, hheader, r.2, t, hdata, rfl, rfl⟩

lemma accepted_iff : Accepted E H d b s ↔ ∃ p t, checkAndAccept E H d b s =
    (.ok (p, false), t) := by
  unfold Accepted
  rw [receiveBlock, bind_apply, attempt]
  cases hrun : checkAndAccept E H d b s with
  | mk r u =>
    cases r with
    | ok r =>
      obtain ⟨p, wait⟩ := r
      cases wait with
      | true =>
        constructor
        · rintro ⟨_, _, h⟩
          cases h
        · rintro ⟨_, _, h⟩
          cases h
      | false => exact ⟨fun _ => ⟨p, u, rfl⟩, fun _ => ⟨p, _, rfl⟩⟩
    | error reject =>
      constructor
      · rintro ⟨q, t, h⟩
        cases reject with
        | throws what => cases h
        | dos n code reason corruption =>
          simp only [rejectBlock, bind_returns_iff, fail_returns_iff, and_false, exists_false] at h
        | error what =>
          simp only [rejectBlock, bind_returns_iff, fail_returns_iff, and_false, exists_false] at h
      · rintro ⟨_, _, h⟩
        cases h

lemma acceptBlockHeader_known (hgenesis : headerHash E b.header ≠ E.hashGenesisBlock)
    (hp : s.mapBlockIndex (headerHash E b.header) = some p) (he : s.blocks[p]? = some e) :
    acceptBlockHeader (withProcess E P) H ⟨false, true, true⟩ b.header s =
      if e.failed then (.error (.dos 0 0 "duplicate"), s) else (.ok p, s) := by
  have hknown : acceptBlockHeader (withProcess E P) H ⟨false, true, true⟩ b.header s =
      knownHeader (withProcess E P) ⟨false, true, true⟩ p s := by
    have hgenesis' : ¬ headerHash (withProcess E P) b.header = (withProcess E P).hashGenesisBlock :=
      hgenesis
    have hp' : s.mapBlockIndex (headerHash (withProcess E P) b.header) = some p := hp
    simp only [acceptBlockHeader, bind_apply, Calls.read, hgenesis', if_false, hp']
  rw [hknown, knownHeader, bind_apply]
  have hlimit : rejectWhen ((withProcess E P).isInitialBlockDownload = false ∧
      (⟨false, true, true⟩ : Peer).known = true ∧ (⟨false, true, true⟩ : Peer).incDuplicateHeaders =
        false)
      (.dos 5 REJECT_INVALID "dos-limits") s = (.ok (), s) := by
    rw [rejectWhen_returns_iff]
    simp
  rw [hlimit]
  show (entryAt p >>= _) s = _
  rw [bind_apply, (entryAt_returns_iff (s := s) (t := s)).mpr ⟨he, rfl⟩]
  cases hfailed : e.failed with
  | true => simp [rejectWhen, rejectIf, lift, bind_apply, hfailed]
  | false =>
    simp only [rejectWhen, rejectIf, lift, bind_apply, hfailed]
    rfl

lemma acceptBlockHeader_unknown (hgenesis : headerHash E b.header ≠ E.hashGenesisBlock)
    (hnone : s.mapBlockIndex (headerHash E b.header) = none) :
    acceptBlockHeader (withProcess E P) H ⟨false, true, true⟩ b.header s =
      (checkNewHeader (withProcess E P) H b.header >>= fun _ =>
        addHeader (withProcess E P) ⟨false, true, true⟩ b.header) s := by
  have hgenesis' : ¬ headerHash (withProcess E P) b.header = (withProcess E P).hashGenesisBlock :=
    hgenesis
  have hnone' : s.mapBlockIndex (headerHash (withProcess E P) b.header) = none := hnone
  simp only [acceptBlockHeader, bind_apply, Calls.read, hgenesis', if_false, hnone']

lemma acceptBlockHeader_new (hgenesis : headerHash E b.header ≠ E.hashGenesisBlock)
    (hnone : s.mapBlockIndex (headerHash E b.header) = none)
    (h : acceptBlockHeader (withProcess E P) H ⟨false, true, true⟩ b.header s = (.ok p, t)) :
    ∃ e, newEntry E s b.header = .ok e ∧ p = s.blocks.length ∧
      t = (s.insert e).update p (fun e => { e with accepted := true }) ∧
      checkNewHeader (withProcess E P) H b.header s = (.ok (), s) ∧
      ∃ q, s.mapBlockIndex b.header.hashPrevBlock = some q ∧ q < s.blocks.length := by
  rw [acceptBlockHeader_unknown hgenesis hnone, bind_returns_iff] at h
  obtain ⟨_, u, hcheck, hadd⟩ := h
  have hspec := @IndexChanges.checkNewHeader_spec (withProcess E P) H (fun _ _ => True)
    (fun _ _ => True) b.header s
  unfold Wp at hspec
  rw [hcheck] at hspec
  obtain ⟨rfl, q, hq, hlt, -⟩ := hspec
  simp only [addHeader, addToBlockIndex, bind_returns_iff, rejectWhen_returns_iff, read_returns_iff]
    at hadd
  obtain ⟨_, _, ⟨-, rfl⟩, p', v, ⟨_, _, ⟨rfl, rfl⟩, hinsert⟩, hrest⟩ := hadd
  have hnone' : u.mapBlockIndex (headerHash (withProcess E P) b.header) = none := hnone
  rw [hnone'] at hinsert
  simp only [bind_returns_iff, lift_returns_iff, write_returns_iff, pure_returns_iff] at hinsert
  obtain ⟨e, _, ⟨he, rfl⟩, _, _, rfl, rfl, rfl⟩ := hinsert
  simp only [Bool.false_eq_true, and_false, if_false, bind_returns_iff, updateEntry_returns_iff,
    pure_returns_iff] at hrest
  obtain ⟨_, _, rfl, rfl, rfl⟩ := hrest
  exact ⟨e, he, rfl, rfl, hcheck, q, hq, hlt⟩

lemma accepted_known_iff (hs : Sound s) (hgenesis : headerHash E b.header ≠ E.hashGenesisBlock)
    (hp : s.mapBlockIndex (headerHash E b.header) = some p) (he : s.blocks[p]? = some e)
    (haside : Aside s p e) : Accepted E H d b s ↔ e.failed = false ∧ checkBlockOnce E d b = .ok () ∧
      Passes E d b (NewBlocks.notWanted H s d.fRequested e) (outOfOrder E s.blocks e)
        (indexBranch s.blocks s.tip) (indexBranch s.blocks e.pprev) := by
  simp only [accepted_iff, checkAndAccept_returns_iff, acceptBlockHeader_known hgenesis hp he,
    ← acceptBlockData_returns_iff hs he haside]
  cases e.failed with
  | true => simp
  | false =>
    simp only [Bool.false_eq_true, if_false, true_and]
    constructor
    · rintro ⟨q, t, hcheck, u, hheader, hdata⟩
      cases hheader
      exact ⟨hcheck, t, hdata⟩
    · rintro ⟨hcheck, t, hdata⟩
      exact ⟨p, t, hcheck, s, rfl, hdata⟩

lemma not_accepted_of_marked (hgenesis : headerHash E b.header ≠ E.hashGenesisBlock)
    (h : Marked E b s) : ¬ Accepted E H d b s := by
  obtain ⟨p, e, hp, he, hfailed⟩ := h
  rw [accepted_iff]
  rintro ⟨q, t, hrun⟩
  obtain ⟨-, u, hheader, -⟩ := (checkAndAccept_returns_iff _).mp hrun
  rw [acceptBlockHeader_known hgenesis hp he, hfailed, if_pos rfl] at hheader
  cases hheader

lemma accepted_iff_isSome :
    Accepted E H d b s ↔ ((receiveBlock E H d b s).1.toOption.join).isSome = true := by
  unfold Accepted
  cases h : receiveBlock E H d b s with
  | mk r t =>
    rcases r with reject | (_ | p)
    · simp [Except.toOption]
    · simp [Except.toOption]
    · simp [Except.toOption]

lemma started_sound (genesis : CBlock) : Sound (IndexRuns.started E genesis) where
  index := indexed_started E genesis
  tip := by
    rintro x ⟨⟩
    exact Nat.zero_lt_one

variable (E H)

def deliver (s : IndexState) (calls : List (Delivery × CBlock)) : IndexState :=
  calls.foldl (fun s x => (receiveBlock E H x.1 x.2 s).2) s

end

end Redelivery
