import BitcoinC.Candidates
import BitcoinC.IndexChanges

/-!
# Linked blocks

A block is linked once its transactions and those of its ancestors are there.
-/

namespace LinkedBlocks

open Primitives Environment Verdicts HeaderChecks Calls BlockIndex Candidates Relation
  List Function Option Candidates

structure LinkView where
  pprev : Option Nat
  haveData : Bool
  nTx : Nat
deriving DecidableEq

variable {i j : IndexState} {block : CBlockHeader} {k : IndexState} {v : LinkView}

def linkView (e : IndexEntry) : LinkView := ⟨e.pprev, e.haveData, e.nTx⟩

def views (i : IndexState) (p : Nat) : Option LinkView := i.blocks[p]?.map linkView

/-- A block and its ancestors have received their transactions, `n` of them. -/
inductive Received (view : Nat → Option LinkView) : Nat → Nat → Prop
  | first {p : Nat} {v : LinkView} (hv : view p = some v) (hdata : v.haveData = true)
      (hfirst : v.pprev = none) : Received view p v.nTx
  | next {p q n : Nat} {v : LinkView} (hv : view p = some v) (hdata : v.haveData = true)
      (hprev : v.pprev = some q) (hq : Received view q n) : Received view p (n + v.nTx)

def Parent (view : Nat → Option LinkView) (p q : Nat) : Prop :=
  ∃ v, view p = some v ∧ v.pprev = some q

/-- `q` is `p` or one of its ancestors. -/
abbrev Descends (view : Nat → Option LinkView) : Nat → Nat → Prop := ReflTransGen (Parent view)

/-- No count of received transactions wraps to 0. -/
def NoWrap (view : Nat → Option LinkView) : Prop :=
  ∀ p n, Received view p n → n % 2 ^ 32 ≠ 0

section

variable {view view' : Nat → Option LinkView}

lemma Parent.unique {p q r : Nat} (hq : Parent view p q) (hr : Parent view p r) : q = r := by
  obtain ⟨v, hv, hprev⟩ := hq
  obtain ⟨v', hv', hprev'⟩ := hr
  cases hv.symm.trans hv'
  exact some.inj (hprev.symm.trans hprev')

lemma Received.data {p n : Nat} (h : Received view p n) :
    ∃ v, view p = some v ∧ v.haveData = true := by
  cases h with
  | first hv hdata _ => exact ⟨_, hv, hdata⟩
  | next hv hdata _ _ => exact ⟨_, hv, hdata⟩

lemma Received.parent_ne {p n q : Nat} (h : Received view p n) (hq : Parent view p q) : q ≠ p := by
  induction h generalizing q with
  | first hv _ hfirst =>
    obtain ⟨v, hv', hprev⟩ := hq
    cases hv.symm.trans hv'
    cases hfirst.symm.trans hprev
  | next hv _ hprev _ ih =>
    rintro rfl
    have hself := Parent.unique hq ⟨_, hv, hprev⟩
    subst hself
    exact ih hq rfl

/-- Entries with data stay as they are. -/
def Persists (view view' : Nat → Option LinkView) : Prop :=
  ∀ p v, view p = some v → v.haveData = true → view' p = some v

lemma Received.persists {p n : Nat} (h : Received view p n) (hsame : Persists view view') :
    Received view' p n := by
  induction h with
  | first hv hdata hfirst => exact .first (hsame _ _ hv hdata) hdata hfirst
  | next hv hdata hprev _ ih => exact .next (hsame _ _ hv hdata) hdata hprev ih

lemma Persists.trans {view'' : Nat → Option LinkView} (h : Persists view view')
    (h' : Persists view' view'') : Persists view view'' :=
  fun p v hv hdata => h' p v (h p v hv hdata) hdata

lemma NoWrap.of_persists (h : NoWrap view') (hsame : Persists view view') : NoWrap view :=
  fun p n hr => h p n (hr.persists hsame)

end

/-- Parents come before children, headers are checked and hashes lead to objects. -/
structure Indexed (i : IndexState) : Prop where
  older : ∀ (p : Nat) (e : IndexEntry) q, i.blocks[p]? = some e → e.pprev = some q → q ≤ p
  tree : ∀ (p : Nat) (e : IndexEntry), i.blocks[p]? = some e → BLOCK_VALID_TREE ≤ e.nValid
  keyed : ∀ hash p, i.mapBlockIndex hash = some p → p < i.blocks.length

lemma indexed_started (E : Env) (genesis : CBlock) : Indexed (IndexRuns.started E genesis) where
  older p e q he hq := by
    obtain ⟨-, rfl⟩ := IndexRuns.started_entry E he
    cases hq
  tree p e he := by
    obtain ⟨-, rfl⟩ := IndexRuns.started_entry E he
    show BLOCK_VALID_TREE ≤ BLOCK_VALID_SCRIPTS
    decide
  keyed hash p hp := by
    obtain ⟨-, rfl⟩ := IndexRuns.started_hash E hp
    exact Nat.zero_lt_one

/-- Only a block that has its transactions and those of its ancestors is linked, with their
number. -/
structure Counted (view : Nat → Option LinkView) (nChainTx : Nat → BitVec 32)
    (candidates : List Nat) : Prop where
  linked : ∀ p, nChainTx p ≠ 0 → ∃ n, Received view p n ∧ nChainTx p = BitVec.ofNat 32 n
  parent : ∀ p q, nChainTx p ≠ 0 → Parent view p q → nChainTx q ≠ 0
  candidate : ∀ c ∈ candidates, nChainTx c ≠ 0

/-- The blocks with data that are not linked stand in the queue or wait for their parents, except
for those that are lost. -/
structure Waiting (lost : Nat → Prop) (queue : List Nat) (view : Nat → Option LinkView)
    (nChainTx : Nat → BitVec 32) (unlinked : List (Nat × Nat)) : Prop where
  waiting : ∀ q p, (q, p) ∈ unlinked → Parent view p q ∧ nChainTx q = 0 ∧ nChainTx p = 0
  queued : ∀ p ∈ queue, nChainTx p = 0 ∧ ¬ lost p ∧ (∃ v, view p = some v ∧ v.haveData = true) ∧
    ∀ q, Parent view p q → nChainTx q ≠ 0
  nodup : (queue ++ unlinked.map (·.2)).Nodup
  left : ∀ p v, view p = some v → v.haveData = true → ¬ lost p → nChainTx p = 0 →
    p ∈ queue ∨ ∃ q, (q, p) ∈ unlinked
  lost : ∀ p, lost p → nChainTx p = 0 ∧ (∃ v, view p = some v ∧ v.haveData = true) ∧
    ∀ q, (q, p) ∉ unlinked
  waitingData : ∀ q p, (q, p) ∈ unlinked → ∃ v, view p = some v ∧ v.haveData = true

/-- Linked blocks are numbered in the order in which they were linked. -/
structure Sequenced (nChainTx : Nat → BitVec 32) (nSequenceId : Nat → Int)
    (nBlockSequenceId : Int) : Prop where
  sequence : ∀ p, nChainTx p ≠ 0 → nSequenceId p < nBlockSequenceId
  distinct : ∀ p q, nChainTx p ≠ 0 → nChainTx q ≠ 0 → nSequenceId p = nSequenceId q → p = q

/-- The links, while the blocks of a queue are still to be linked. `lost` holds of the blocks that
will never be. -/
structure Linking (lost : Nat → Prop) (queue : List Nat) (s : CChainState) : Prop extends
  Counted (views s.index) s.nChainTx s.setBlockIndexCandidates,
  Waiting lost queue (views s.index) s.nChainTx s.mapBlocksUnlinked,
  Sequenced s.nChainTx s.nSequenceId s.nBlockSequenceId

section

variable {lost : Nat → Prop} {queue : List Nat} {s t : CChainState}

lemma Linking.ancestor (h : Linking lost queue s) {p q : Nat} (hp : s.nChainTx p ≠ 0)
    (hq : Descends (views s.index) p q) : s.nChainTx q ≠ 0 := by
  induction hq with
  | refl => exact hp
  | tail _ hstep ih => exact h.parent _ _ ih hstep

/-- With nothing queued, a block is linked exactly when its transactions and its ancestors' are
there and none of these blocks is lost. -/
lemma Linking.linked_iff (h : Linking lost [] s) (p : Nat) :
    s.nChainTx p ≠ 0 ↔ (∃ n, Received (views s.index) p n) ∧
      ∀ q, Descends (views s.index) p q → ¬ lost q := by
  constructor
  · intro hp
    obtain ⟨n, hn, -⟩ := h.linked p hp
    refine ⟨⟨n, hn⟩, fun q hq hlost => ?_⟩
    exact h.ancestor hp hq (h.lost q hlost).1
  · rintro ⟨⟨n, hn⟩, hkept⟩
    -- from the first block up
    induction hn with
    | first hv hdata hfirst =>
      intro hzero
      rcases h.left _ _ hv hdata (hkept _ .refl) hzero with hqueue | ⟨q, hq⟩
      · exact absurd hqueue not_mem_nil
      · obtain ⟨⟨v, hv', hprev⟩, -⟩ := h.waiting _ _ hq
        cases hv.symm.trans hv'
        cases hfirst.symm.trans hprev
    | next hv hdata hprev _ ih =>
      have hstep : Parent (views s.index) _ _ := ⟨_, hv, hprev⟩
      have hparent := ih fun r hr => hkept r (.head hstep hr)
      intro hzero
      rcases h.left _ _ hv hdata (hkept _ .refl) hzero with hqueue | ⟨q, hq⟩
      · exact absurd hqueue not_mem_nil
      · obtain ⟨hstep', hq', -⟩ := h.waiting _ _ hq
        cases Parent.unique hstep hstep'
        exact hparent hq'

/-- The index grows by entries without data. -/
structure Extends (i j : IndexState) : Prop where
  old : ∀ p v, views i p = some v → views j p = some v
  new : ∀ p v, views j p = some v → views i p = some v ∨ v.haveData = false

lemma Extends.refl (i : IndexState) : Extends i i := ⟨fun _ _ h => h, fun _ _ h => .inl h⟩

lemma Extends.trans (h : Extends i j) (h' : Extends j k) : Extends i k where
  old p v hv := h'.old p v (h.old p v hv)
  new p v hv := by
    rcases h'.new p v hv with hj | hdata
    · exact h.new p v hj
    · exact .inr hdata

lemma Extends.persists (h : Extends i j) : Persists (views i) (views j) :=
  fun p v hv _ => h.old p v hv

lemma Extends.of_data (h : Extends i j) {p : Nat} (hv : views j p = some v)
    (hdata : v.haveData = true) : views i p = some v := by
  rcases h.new p v hv with hi | hnone
  · exact hi
  · rw [hdata] at hnone
    cases hnone

lemma Extends.parent (h : Extends i j) {p q : Nat} (hv : views i p = some v)
    (hq : Parent (views j) p q) : Parent (views i) p q := by
  obtain ⟨v', hv', hprev⟩ := hq
  cases (h.old p v hv).symm.trans hv'
  exact ⟨v, hv, hprev⟩

lemma Extends.of_views (h : views j = views i) : Extends i j where
  old p v hv := by rwa [h]
  new p v hv := .inl (by rwa [h] at hv)

section

variable {nChainTx : Nat → BitVec 32} {candidates candidates' : List Nat}
  {unlinked : List (Nat × Nat)}

lemma Counted.extend (h : Counted (views i) nChainTx candidates) (hindex : Extends i j)
    (hcand : ∀ c ∈ candidates', nChainTx c ≠ 0) : Counted (views j) nChainTx candidates' where
  linked p hp := by
    obtain ⟨n, hn, heq⟩ := h.linked p hp
    exact ⟨n, hn.persists hindex.persists, heq⟩
  parent p q hp hq := by
    obtain ⟨n, hn, -⟩ := h.linked p hp
    obtain ⟨v, hv, -⟩ := hn.data
    exact h.parent p q hp (hindex.parent hv hq)
  candidate := hcand

lemma Waiting.extend (h : Waiting lost queue (views i) nChainTx unlinked) (hindex : Extends i j) :
    Waiting lost queue (views j) nChainTx unlinked where
  waiting q p hqp := by
    obtain ⟨⟨v, hv, hprev⟩, hzero⟩ := h.waiting q p hqp
    exact ⟨⟨v, hindex.old p v hv, hprev⟩, hzero⟩
  queued p hp := by
    obtain ⟨hzero, hkept, ⟨v, hv, hdata⟩, hparent⟩ := h.queued p hp
    exact ⟨hzero, hkept, ⟨v, hindex.old p v hv, hdata⟩, fun q hq => hparent q (hindex.parent hv hq)⟩
  nodup := h.nodup
  left p v hv hdata := h.left p v (hindex.of_data hv hdata) hdata
  lost p hp := by
    obtain ⟨hzero, ⟨v, hv, hdata⟩, hnot⟩ := h.lost p hp
    exact ⟨hzero, ⟨v, hindex.old p v hv, hdata⟩, hnot⟩
  waitingData q p hqp := by
    obtain ⟨v, hv, hdata⟩ := h.waitingData q p hqp
    exact ⟨v, hindex.old p v hv, hdata⟩

end

lemma Linking.extend (h : Linking lost queue s) (hindex : Extends s.index t.index)
    (hchain : t.nChainTx = s.nChainTx) (hseq : t.nSequenceId = s.nSequenceId)
    (hnext : t.nBlockSequenceId = s.nBlockSequenceId)
    (hwait : t.mapBlocksUnlinked = s.mapBlocksUnlinked)
    (hcand : ∀ c ∈ t.setBlockIndexCandidates, s.nChainTx c ≠ 0) : Linking lost queue t := by
  refine ⟨?_, ?_, ?_⟩
  · rw [hchain]
    exact h.toCounted.extend hindex hcand
  · rw [hchain, hwait]
    exact h.toWaiting.extend hindex
  · rw [hchain, hseq, hnext]
    exact h.toSequenced

variable (addr : Nat → Nat)

lemma link_frame (p : Nat) (e : IndexEntry) (s : CChainState) :
    (link addr p e s).index = s.index ∧ (link addr p e s).mapBlocksUnlinked = s.mapBlocksUnlinked ∧
    (link addr p e s).nBlockSequenceId = s.nBlockSequenceId + 1 ∧
    (link addr p e s).nSequenceId = update s.nSequenceId p s.nBlockSequenceId ∧
    (link addr p e s).nChainTx = update s.nChainTx p
      ((e.pprev.map s.nChainTx).getD 0 + BitVec.ofNat 32 e.nTx) ∧
    ∀ c ∈ (link addr p e s).setBlockIndexCandidates, c ∈ s.setBlockIndexCandidates ∨ c = p := by
  unfold link
  dsimp only
  split
  · refine ⟨rfl, rfl, rfl, rfl, rfl, fun c hc => ?_⟩
    rcases mem_insert_iff.mp hc with rfl | hold
    · exact .inr rfl
    · exact .inl hold
  · exact ⟨rfl, rfl, rfl, rfl, rfl, fun c hc => .inl hc⟩

lemma Linking.received (h : Linking lost queue s) {p : Nat} {e : IndexEntry}
    (he : s.index.blocks[p]? = some e) (hdata : e.haveData = true)
    (hparent : ∀ q, Parent (views s.index) p q → s.nChainTx q ≠ 0) :
    ∃ n, Received (views s.index) p n ∧
      (e.pprev.map s.nChainTx).getD 0 + BitVec.ofNat 32 e.nTx = BitVec.ofNat 32 n := by
  have hv : views s.index p = some (linkView e) := by rw [views, he, map_some]
  cases hprev : e.pprev with
  | none =>
    refine ⟨e.nTx, .first hv hdata hprev, ?_⟩
    rw [map_none, getD_none]
    exact BitVec.zero_add _
  | some q =>
    obtain ⟨n, hn, heq⟩ := h.linked q (hparent q ⟨_, hv, hprev⟩)
    refine ⟨n + e.nTx, .next hv hdata hprev hn, ?_⟩
    rw [map_some, getD_some, heq, BitVec.ofNat_add]

lemma ofNat_ne_zero_of_noWrap {view : Nat → Option LinkView} (h : NoWrap view) {p n : Nat}
    (hn : Received view p n) : BitVec.ofNat 32 n ≠ 0 := by
  intro hzero
  apply h p n hn
  have := congrArg BitVec.toNat hzero
  rwa [BitVec.toNat_ofNat] at this

lemma mem_waitingFor (s : CChainState) (p x : Nat) :
    x ∈ waitingFor s p ↔ (p, x) ∈ s.mapBlocksUnlinked := by
  simp only [waitingFor, List.mem_map, List.mem_filter, decide_eq_true_eq]
  constructor
  · rintro ⟨⟨q, y⟩, ⟨hmem, rfl⟩, rfl⟩
    exact hmem
  · intro hmem
    exact ⟨(p, x), ⟨hmem, rfl⟩, rfl⟩

lemma waitingFor_perm (s : CChainState) (p : Nat) :
    (waitingFor s p ++ (s.mapBlocksUnlinked.filter fun x => x.1 ≠ p).map (·.2)).Perm
      (s.mapBlocksUnlinked.map (·.2)) := by
  have hsplit := (filter_append_perm (fun x : Nat × Nat => decide (x.1 = p))
    s.mapBlocksUnlinked).map (·.2)
  rw [map_append] at hsplit
  simpa [waitingFor] using hsplit

section

variable {view : Nat → Option LinkView} {nChainTx : Nat → BitVec 32} {p : Nat}

/-- `p` gets its number. What was linked stays so, and the rest but for `p` stays unlinked. -/
lemma Counted.link {candidates candidates' : List Nat} (h : Counted view nChainTx candidates)
    (hzero : nChainTx p = 0) {n : Nat} (hn : Received view p n) (hnew : BitVec.ofNat 32 n ≠ 0)
    (hparent : ∀ q, Parent view p q → nChainTx q ≠ 0)
    (hcand : ∀ c ∈ candidates', c ∈ candidates ∨ c = p) :
    Counted view (update nChainTx p (BitVec.ofNat 32 n)) candidates' := by
  have hstays : ∀ q, nChainTx q ≠ 0 → update nChainTx p (BitVec.ofNat 32 n) q ≠ 0 := by
    intro q hq
    have hne : q ≠ p := by
      rintro rfl
      exact hq hzero
    rwa [update_of_ne hne]
  refine ⟨fun q hq => ?_, fun q r hq hr => hstays r ?_, fun c hc => ?_⟩
  · by_cases hqp : q = p
    · subst hqp
      exact ⟨n, hn, update_self _ _ _⟩
    · rw [update_of_ne hqp] at hq ⊢
      exact h.linked q hq
  · by_cases hqp : q = p
    · subst hqp
      exact hparent r hr
    · rw [update_of_ne hqp] at hq
      exact h.parent q r hq hr
  · rcases hcand c hc with hmem | rfl
    · exact hstays c (h.candidate c hmem)
    · rwa [update_self]

lemma Sequenced.link {seq : Nat → Int} {next : Int} (h : Sequenced nChainTx seq next)
    (n : BitVec 32) : Sequenced (update nChainTx p n) (update seq p next) (next + 1) := by
  have hbefore : ∀ q, q ≠ p → update nChainTx p n q ≠ 0 → update seq p next q < next := by
    intro q hqp hq
    rw [update_of_ne hqp] at hq ⊢
    exact h.sequence q hq
  constructor
  · intro q hq
    by_cases hqp : q = p
    · rw [hqp, update_self]
      omega
    · have := hbefore q hqp hq
      omega
  · intro q r hq hr heq
    by_cases hqp : q = p
    · by_contra hne
      have := hbefore r (fun hrp => hne (hqp.trans hrp.symm)) hr
      rw [hqp, update_self] at heq
      omega
    · by_cases hrp : r = p
      · have := hbefore q hqp hq
        rw [hrp, update_self] at heq
        omega
      · rw [update_of_ne hqp] at hq heq
        rw [update_of_ne hrp] at hr heq
        exact h.distinct q r hq hr heq

end

section

variable {view : Nat → Option LinkView} {p : Nat} {n : BitVec 32}

/-- The head of the queue is nowhere else. -/
lemma Waiting.head_fresh {nChainTx : Nat → BitVec 32} {unlinked : List (Nat × Nat)}
    (h : Waiting lost (p :: queue) view nChainTx unlinked) :
    (∀ x ∈ queue, x ≠ p) ∧ ∀ q x, (q, x) ∈ unlinked → x ≠ p := by
  have hnodup := h.nodup
  rw [cons_append, nodup_cons, mem_append, not_or] at hnodup
  constructor
  · rintro x hx rfl
    exact hnodup.1.1 hx
  · rintro q x hx rfl
    exact hnodup.1.2 (mem_map.mpr ⟨(q, x), hx, rfl⟩)

/-- Those that waited for `p` are queued behind the others. -/
lemma Waiting.queued_link (h : Waiting lost (p :: queue) view s.nChainTx s.mapBlocksUnlinked)
    (hnew : n ≠ 0) (x : Nat) (hx : x ∈ queue ++ waitingFor s p) :
    update s.nChainTx p n x = 0 ∧ ¬ lost x ∧ (∃ v, view x = some v ∧ v.haveData = true) ∧
      ∀ q, Parent view x q → update s.nChainTx p n q ≠ 0 := by
  have hzero := (h.queued p mem_cons_self).1
  rcases mem_append.mp hx with hmem | hmem
  · obtain ⟨hx0, hkept, hdata, hparent⟩ := h.queued x (mem_cons_of_mem p hmem)
    rw [update_of_ne (h.head_fresh.1 x hmem)]
    refine ⟨hx0, hkept, hdata, fun q hq => ?_⟩
    have hne : q ≠ p := by
      rintro rfl
      exact hparent q hq hzero
    rw [update_of_ne hne]
    exact hparent q hq
  · have hwait := (mem_waitingFor s p x).mp hmem
    obtain ⟨hstep, -, hx0⟩ := h.waiting p x hwait
    rw [update_of_ne (h.head_fresh.2 p x hwait)]
    refine ⟨hx0, fun hlost => (h.lost x hlost).2.2 p hwait, h.waitingData p x hwait, fun q hq => ?_⟩
    cases Parent.unique hstep hq
    rwa [update_self]

lemma Waiting.link (h : Waiting lost (p :: queue) view s.nChainTx s.mapBlocksUnlinked)
    (hnew : n ≠ 0) : Waiting lost (queue ++ waitingFor s p) view (update s.nChainTx p n)
      (s.mapBlocksUnlinked.filter fun x => x.1 ≠ p) where
  waiting q x hx := by
    obtain ⟨hx, hqp⟩ := mem_filter.mp hx
    rw [update_of_ne (of_decide_eq_true hqp), update_of_ne (h.head_fresh.2 q x hx)]
    exact h.waiting q x hx
  queued := h.queued_link hnew
  nodup := by
    have hnodup := h.nodup
    rw [cons_append, nodup_cons] at hnodup
    refine (List.Perm.nodup_iff ?_).mpr hnodup.2
    rw [append_assoc]
    exact (waitingFor_perm s p).append_left queue
  left x w hw hdata hkept hx0 := by
    have hne : x ≠ p := by
      rintro rfl
      exact hnew ((update_self x n s.nChainTx).symm.trans hx0)
    rw [update_of_ne hne] at hx0
    rcases h.left x w hw hdata hkept hx0 with hmem | ⟨q, hq⟩
    · exact .inl (mem_append_left _ ((mem_cons.mp hmem).resolve_left hne))
    · by_cases hqp : q = p
      · subst hqp
        exact .inl (mem_append_right _ ((mem_waitingFor s q x).mpr hq))
      · exact .inr ⟨q, mem_filter.mpr ⟨hq, decide_eq_true hqp⟩⟩
  lost x hx := by
    obtain ⟨hx0, hdata, hnot⟩ := h.lost x hx
    have hne : x ≠ p := by
      rintro rfl
      exact (h.queued x mem_cons_self).2.1 hx
    rw [update_of_ne hne]
    exact ⟨hx0, hdata, fun q hq => hnot q (mem_filter.mp hq).1⟩
  waitingData q x hx := h.waitingData q x (mem_filter.mp hx).1

end

lemma Linking.link {p : Nat} {e : IndexEntry} (h : Linking lost (p :: queue) s)
    (hwrap : NoWrap (views s.index)) (he : s.index.blocks[p]? = some e) :
    Linking lost (queue ++ waitingFor s p) { link addr p e s with
        mapBlocksUnlinked := s.mapBlocksUnlinked.filter fun x => x.1 ≠ p } := by
  obtain ⟨hindex, -, hnext, hseq, hchain, hcand⟩ := link_frame addr p e s
  obtain ⟨hzero, -, ⟨v, hv, hdata⟩, hparent⟩ := h.queued p mem_cons_self
  have hview : v = linkView e := by
    rw [views, he, map_some] at hv
    exact (some.inj hv).symm
  subst hview
  obtain ⟨n, hn, hsum⟩ := h.received he hdata hparent
  rw [hsum] at hchain
  have hnew : BitVec.ofNat 32 n ≠ 0 := ofNat_ne_zero_of_noWrap hwrap hn
  refine ⟨?_, ?_, ?_⟩
  · dsimp only
    rw [hindex, hchain]
    exact h.toCounted.link hzero hn hnew hparent hcand
  · dsimp only
    rw [hindex, hchain]
    exact h.toWaiting.link hnew
  · dsimp only
    rw [hchain, hseq, hnext]
    exact h.toSequenced.link _

/-- The loop of `ReceivedBlockTransactions` links all it can. A block linked before, as every
candidate was, keeps its place in the order. -/
lemma Linking.linkQueue (n : Nat) (h : Linking lost queue s) (hwrap : NoWrap (views s.index))
    (hn : queue.length + s.mapBlocksUnlinked.length ≤ n) :
    ∃ t, linkQueue addr n queue s = .ok t ∧ Linking lost [] t ∧ t.index = s.index ∧
      ∀ q, s.nChainTx q ≠ 0 → t.nChainTx q ≠ 0 ∧ t.nSequenceId q = s.nSequenceId q := by
  induction n generalizing queue s with
  | zero =>
    cases queue with
    | nil => exact ⟨s, rfl, h, rfl, fun _ hq => ⟨hq, rfl⟩⟩
    | cons p queue =>
      simp only [length_cons] at hn
      omega
  | succ n ih =>
    cases queue with
    | nil => exact ⟨s, rfl, h, rfl, fun _ hq => ⟨hq, rfl⟩⟩
    | cons p queue =>
      obtain ⟨hzero, -, ⟨v, hv, -⟩, -⟩ := h.queued p mem_cons_self
      obtain ⟨e, he, -⟩ := map_eq_some_iff.mp hv
      obtain ⟨hindex, hwait, -, hseq, -, -⟩ := link_frame addr p e s
      have hlink := h.link addr hwrap he
      have hwaiting : waitingFor (Candidates.link addr p e s) p = waitingFor s p := by
        rw [waitingFor, waitingFor, hwait]
      have hlen : (queue ++ waitingFor s p).length +
          (s.mapBlocksUnlinked.filter fun x => x.1 ≠ p).length ≤ n := by
        have hperm := (waitingFor_perm s p).length_eq
        simp only [length_append, length_map, length_cons] at hperm hn ⊢
        omega
      obtain ⟨t, hrun, hdone, hsame, hplace⟩ := ih hlink (by rwa [hindex]) hlen
      have hentry : s.entry p = .ok e := by rw [CChainState.entry, he, orReject]
      refine ⟨t, ?_, hdone, hsame.trans hindex, fun q hq => ?_⟩
      · rw [linkQueue, hentry]
        show Candidates.linkQueue addr n (queue ++ waitingFor (Candidates.link addr p e s) p)
          { Candidates.link addr p e s with
            mapBlocksUnlinked := (Candidates.link addr p e s).mapBlocksUnlinked.filter fun x =>
              x.1 ≠ p } = .ok t
        rw [hwaiting, hwait]
        exact hrun
      · have hne : q ≠ p := by
          rintro rfl
          exact hq hzero
        have hq' : (Candidates.link addr p e s).nChainTx q ≠ 0 := by
          rw [(link_frame addr p e s).2.2.2.2.1, update_of_ne hne]
          exact hq
        obtain ⟨hlinked, hsame⟩ := hplace q hq'
        refine ⟨hlinked, hsame.trans ?_⟩
        show (Candidates.link addr p e s).nSequenceId q = s.nSequenceId q
        rw [hseq, update_of_ne hne]

def HasData (i : IndexState) (p : Nat) : Prop := ∃ v, views i p = some v ∧ v.haveData = true

/-- The data of `p` have come in, and nothing else has changed. -/
structure Stores (view view' : Nat → Option LinkView) (p : Nat) : Prop where
  before : ∀ v, view p = some v → v.haveData = false
  after : ∃ v, view' p = some v ∧ v.haveData = true
  other : ∀ x, x ≠ p → view' x = view x
  parent : ∀ q, Parent view' p q ↔ Parent view p q

section

variable {view view' : Nat → Option LinkView} {p x : Nat} {w : LinkView}
  {nChainTx : Nat → BitVec 32}

lemma Stores.ne (h : Stores view view' p) (hw : view x = some w)
    (hdata : w.haveData = true) : x ≠ p := by
  rintro rfl
  exact absurd ((h.before w hw).symm.trans hdata) Bool.false_ne_true

lemma Stores.persists (h : Stores view view' p) : Persists view view' := fun x _ hw hdata =>
  (h.other x (h.ne hw hdata)).trans hw

lemma Stores.parent_iff (h : Stores view view' p) (x q : Nat) : Parent view' x q ↔
    Parent view x q := by
  by_cases hx : x = p
  · subst hx
    exact h.parent q
  · rw [Parent, Parent, h.other x hx]

lemma Counted.store {candidates : List Nat} (h : Counted view nChainTx candidates)
    (hs : Stores view view' p) : Counted view' nChainTx candidates where
  linked x hx := by
    obtain ⟨n, hn, heq⟩ := h.linked x hx
    exact ⟨n, hn.persists hs.persists, heq⟩
  parent x q hx hq := h.parent x q hx ((hs.parent_iff x q).mp hq)
  candidate := h.candidate

/-- The block that came in counts as lost until it is queued or waits. -/
lemma Waiting.store {unlinked : List (Nat × Nat)} (h : Waiting lost [] view nChainTx unlinked)
    (hs : Stores view view' p) (hzero : nChainTx p = 0) :
    Waiting (fun x => lost x ∨ x = p) [] view' nChainTx unlinked where
  waiting q x hx := by
    rw [hs.parent_iff]
    exact h.waiting q x hx
  queued x hx := absurd hx not_mem_nil
  nodup := h.nodup
  left x _ hw hdata hkept := by
    rw [not_or] at hkept
    rw [hs.other x hkept.2] at hw
    exact h.left x _ hw hdata hkept.1
  lost x hx := by
    by_cases hxp : x = p
    · subst hxp
      refine ⟨hzero, hs.after, fun q hq => ?_⟩
      obtain ⟨w, hw, hdata⟩ := h.waitingData q x hq
      exact hs.ne hw hdata rfl
    · obtain ⟨hx0, ⟨w, hw, hdata⟩, hnot⟩ := h.lost x (hx.resolve_right hxp)
      exact ⟨hx0, ⟨w, hs.persists x w hw hdata, hdata⟩, hnot⟩
  waitingData q x hx := by
    obtain ⟨w, hw, hdata⟩ := h.waitingData q x hx
    exact ⟨w, hs.persists x w hw hdata, hdata⟩

end

lemma Linking.enqueue {p : Nat} (h : Linking (fun x => lost x ∨ x = p) [] s) (hkept : ¬ lost p)
    (hparent : ∀ q, Parent (views s.index) p q → s.nChainTx q ≠ 0) : Linking lost [p] s where
  toCounted := h.toCounted
  toSequenced := h.toSequenced
  waiting := h.waiting
  queued x hx := by
    cases mem_singleton.mp hx
    obtain ⟨hzero, hdata, -⟩ := h.lost p (.inr rfl)
    exact ⟨hzero, hkept, hdata, hparent⟩
  nodup := by
    refine nodup_cons.mpr ⟨fun hmem => ?_, h.nodup⟩
    obtain ⟨⟨q, x⟩, hx, rfl⟩ := mem_map.mp hmem
    exact (h.lost x (.inr rfl)).2.2 q hx
  left x w hw hwdata hxkept hx0 := by
    by_cases hxp : x = p
    · exact .inl (mem_singleton.mpr hxp)
    · exact .inr ((h.left x w hw hwdata (not_or.mpr ⟨hxkept, hxp⟩) hx0).resolve_left not_mem_nil)
  lost x hx := h.lost x (.inl hx)
  waitingData := h.waitingData

lemma Linking.wait {p q : Nat} (h : Linking (fun x => lost x ∨ x = p) [] s) (hkept : ¬ lost p)
    (hparent : Parent (views s.index) p q) (hq : s.nChainTx q = 0) :
    Linking lost [] { s with mapBlocksUnlinked := s.mapBlocksUnlinked ++ [(q, p)] } := by
  obtain ⟨hzero, hdata, hnot⟩ := h.lost p (.inr rfl)
  have hmem : ∀ r x, (r, x) ∈ s.mapBlocksUnlinked ++ [(q, p)] →
      (r, x) ∈ s.mapBlocksUnlinked ∨ (r = q ∧ x = p) := by
    intro r x hx
    rcases mem_append.mp hx with hold | hnew
    · exact .inl hold
    · exact .inr (Prod.mk.inj (mem_singleton.mp hnew))
  refine ⟨h.toCounted, ?_, h.toSequenced⟩
  constructor
  case waiting =>
    intro r x hx
    rcases hmem r x hx with hold | ⟨rfl, rfl⟩
    · exact h.waiting r x hold
    · exact ⟨hparent, hq, hzero⟩
  case queued => exact fun x hx => absurd hx not_mem_nil
  case nodup =>
    dsimp only
    rw [nil_append, map_append, map_singleton]
    refine nodup_append.mpr ⟨h.nodup, nodup_singleton p, ?_⟩
    intro x hx y hy heq
    obtain ⟨⟨r, x'⟩, hx', rfl⟩ := mem_map.mp hx
    cases mem_singleton.mp hy
    cases (show x' = p from heq)
    exact hnot r hx'
  case left =>
    intro x w hw hwdata hxkept hx0
    by_cases hxp : x = p
    · subst hxp
      exact .inr ⟨q, mem_append_right _ (mem_singleton_self _)⟩
    · rcases h.left x w hw hwdata (not_or.mpr ⟨hxkept, hxp⟩) hx0 with hqueue | ⟨r, hr⟩
      · exact .inl hqueue
      · exact .inr ⟨r, mem_append_left _ hr⟩
  case lost =>
    intro x hx
    obtain ⟨hx0, hxdata, hxnot⟩ := h.lost x (.inl hx)
    refine ⟨hx0, hxdata, fun r hr => ?_⟩
    rcases hmem r x hr with hold | ⟨-, rfl⟩
    · exact hxnot r hold
    · exact hkept hx
  case waitingData =>
    intro r x hx
    rcases hmem r x hx with hold | ⟨-, rfl⟩
    · exact h.waitingData r x hold
    · exact hdata

/-- The transactions of `p` have come in, on a parent that has failed and is not linked. -/
def OnFailed (s t : CChainState) (p : Nat) : Prop :=
  ¬ HasData s.index p ∧ HasData t.index p ∧
    ∃ q prev, Parent (views t.index) p q ∧ t.index.blocks[q]? = some prev ∧ prev.failed = true ∧
      t.nChainTx q = 0

lemma Extends.not_onFailed (h : Extends s.index t.index) (p : Nat) : ¬ OnFailed s t p := by
  rintro ⟨hnone, ⟨v, hv, hdata⟩, -⟩
  exact hnone ⟨v, h.of_data hv hdata, hdata⟩

lemma Linking.onFailed (h : Linking lost queue t) (hnone : ∀ p, ¬ OnFailed s t p) :
    Linking (fun x => lost x ∨ OnFailed s t x) queue t := by
  have heq : lost = fun x => lost x ∨ OnFailed s t x := by
    funext x
    exact propext ⟨.inl, fun hx => hx.resolve_right (hnone x)⟩
  rwa [← heq]

lemma raiseValidity_linkView (e : IndexEntry) (n : Nat) :
    linkView (e.raiseValidity n) = linkView e ∧ e.nValid ≤ (e.raiseValidity n).nValid ∧
      (e.raiseValidity n).failed = e.failed := by
  unfold IndexEntry.raiseValidity
  split
  · rename_i h
    simp only [Bool.and_eq_true, decide_eq_true_eq] at h
    exact ⟨rfl, h.2.le, rfl⟩
  · exact ⟨rfl, le_rfl, rfl⟩

lemma views_update (i : IndexState) (p : Nat) (f : IndexEntry → IndexEntry) (x : Nat) :
    views (i.update p f) x =
      if x = p then (i.blocks[p]?).map (fun e => linkView (f e)) else views i x := by
  unfold views IndexState.update
  dsimp only
  rw [getElem?_modify]
  by_cases hx : p = x
  · subst hx
    rw [if_pos rfl]
    cases i.blocks[p]? <;> simp
  · rw [if_neg (Ne.symm hx)]
    cases i.blocks[x]? <;> simp [hx]

lemma views_update_same (i : IndexState) (p : Nat) (f : IndexEntry → IndexEntry)
    (h : ∀ e, linkView (f e) = linkView e) : views (i.update p f) = views i := by
  funext x
  rw [views_update]
  split
  · rename_i hx
    subst hx
    simp only [h, views]
  · rfl

lemma Indexed.update (h : Indexed i) (p : Nat) (f : IndexEntry → IndexEntry)
    (hf : ∀ e, (f e).pprev = e.pprev ∧ e.nValid ≤ (f e).nValid) : Indexed (i.update p f) where
  older x e q he hq := by
    obtain ⟨old, hold, hcase⟩ := IndexChanges.update_get i p f x e he
    rcases hcase with ⟨-, rfl⟩ | ⟨-, rfl⟩
    · exact h.older x old q hold ((hf old).1 ▸ hq)
    · exact h.older x e q hold hq
  tree x e he := by
    obtain ⟨old, hold, hcase⟩ := IndexChanges.update_get i p f x e he
    rcases hcase with ⟨-, rfl⟩ | ⟨-, rfl⟩
    · exact (h.tree x old hold).trans (hf old).2
    · exact h.tree x e hold
  keyed hash x hx := by
    have := h.keyed hash x hx
    simpa [IndexState.update] using this

section

variable {nTx p : Nat} {e : IndexEntry}

def stored (nTx : Nat) (e : IndexEntry) : IndexEntry :=
  { e with nTx := nTx, haveData := true }.raiseValidity BLOCK_VALID_TRANSACTIONS

lemma stored_fields (nTx : Nat) (e : IndexEntry) :
    linkView (stored nTx e) = ⟨e.pprev, true, nTx⟩ ∧ e.nValid ≤ (stored nTx e).nValid ∧
      (stored nTx e).failed = e.failed :=
  raiseValidity_linkView { e with nTx := nTx, haveData := true } BLOCK_VALID_TRANSACTIONS

lemma views_storeData (he : s.index.blocks[p]? = some e) : views (storeData nTx p s).index =
      update (views s.index) p (some ⟨e.pprev, true, nTx⟩) := by
  funext x
  show views (s.index.update p (stored nTx)) x = _
  rw [views_update, he, map_some, (stored_fields nTx e).1]
  by_cases hx : x = p
  · subst hx
    rw [if_pos rfl, update_self]
  · rw [if_neg hx, update_of_ne hx]

lemma Indexed.storeData (h : Indexed s.index) : Indexed (storeData nTx p s).index := by
  refine h.update p (stored nTx) fun e => ⟨?_, (stored_fields nTx e).2.1⟩
  exact congrArg LinkView.pprev (stored_fields nTx e).1

lemma parent_iff (he : s.index.blocks[p]? = some e) (q : Nat) :
    Parent (views s.index) p q ↔ e.pprev = some q := by
  rw [Parent, views, he, map_some]
  constructor
  · rintro ⟨v, hv, hq⟩
    cases hv
    exact hq
  · exact fun hq => ⟨_, rfl, hq⟩

lemma stores_storeData (nTx : Nat) (he : s.index.blocks[p]? = some e) (hnone : e.haveData = false) :
    Stores (views s.index) (views (storeData nTx p s).index) p := by
  have hself : views (storeData nTx p s).index p = some ⟨e.pprev, true, nTx⟩ := by
    rw [views_storeData he, update_self]
  refine ⟨fun v hv => ?_, ⟨_, hself, rfl⟩, fun x hx => ?_, fun q => ?_⟩
  · rw [views, he, map_some] at hv
    cases hv
    exact hnone
  · rw [views_storeData he, update_of_ne hx]
  · rw [parent_iff he, Parent, hself]
    constructor
    · rintro ⟨v, hv, hq⟩
      cases hv
      exact hq
    · exact fun hq => ⟨_, rfl, hq⟩

lemma linkQueue_index (n : Nat) (queue : List Nat) (h : linkQueue addr n queue s = .ok t) :
    t.index = s.index := by
  induction n generalizing queue s with
  | zero =>
    cases queue with
    | nil =>
      cases h
      rfl
    | cons p queue => cases h
  | succ n ih =>
    cases queue with
    | nil =>
      cases h
      rfl
    | cons p queue =>
      simp only [linkQueue, bind_ok_iff] at h
      obtain ⟨e, -, hrest⟩ := h
      exact (ih _ hrest).trans (link_frame addr p e s).1

lemma receivedBlockTransactions_index (h : receivedBlockTransactions addr nTx p s = .ok t) :
    t.index = (storeData nTx p s).index := by
  simp only [receivedBlockTransactions, bind_ok_iff] at h
  obtain ⟨e, -, h⟩ := h
  split at h
  · exact linkQueue_index addr _ _ h
  · split at h
    · exact linkQueue_index addr _ _ h
    · simp only [bind_ok_iff] at h
      obtain ⟨prev, -, h⟩ := h
      split at h
      · cases h
        rfl
      · cases h
        rfl

lemma entry_storeData (he : s.index.blocks[p]? = some e) :
    (storeData nTx p s).index.blocks[p]? = some (stored nTx e) := by
  show (s.index.blocks.modify p (stored nTx))[p]? = _
  rw [getElem?_modify_eq, he]
  rfl

/-- What is known once the data are stored: no number has changed, and `p` is the one block that is
not yet in its place. -/
lemma Linking.afterStore (nTx : Nat) (h : Linking lost [] s) (he : s.index.blocks[p]? = some e)
    (hnone : e.haveData = false) : (storeData nTx p s).nChainTx = s.nChainTx ∧ ¬ lost p ∧
      Linking (fun x => lost x ∨ x = p) [] (storeData nTx p s) := by
  have hs := stores_storeData nTx he hnone
  have hnoData : ¬ HasData s.index p := fun ⟨_, hv, hdata⟩ => hs.ne hv hdata rfl
  have hzero : s.nChainTx p = 0 := by
    by_contra hlinked
    obtain ⟨n, hn, -⟩ := h.linked p hlinked
    exact hnoData hn.data
  have hchain : (storeData nTx p s).nChainTx = s.nChainTx :=
    (congrArg (update s.nChainTx p) hzero.symm).trans (update_eq_self p s.nChainTx)
  refine ⟨hchain, fun hlost => hnoData (h.lost p hlost).2.1, ?_, ?_, ?_⟩
  · rw [hchain]
    exact h.toCounted.store hs
  · rw [hchain]
    exact h.toWaiting.store hs hzero
  · rw [hchain]
    exact h.toSequenced

lemma OnFailed.eq {x : Nat} (h : OnFailed s t x) (hs : Stores (views s.index) (views t.index) p) :
    x = p := by
  obtain ⟨hnone, ⟨v, hv, hdata⟩, -⟩ := h
  by_contra hx
  rw [hs.other x hx] at hv
  exact hnone ⟨v, hv, hdata⟩

/-- On a linked parent, or without one, the block is linked, with all that waited for it. -/
lemma Linking.linkStored (h : Linking lost [] s) (he : s.index.blocks[p]? = some e)
    (hnone : e.haveData = false) (hwrap : NoWrap (views (storeData nTx p s).index))
    (hparent : ∀ q, e.pprev = some q → s.nChainTx q ≠ 0) :
    ∃ t, Candidates.linkQueue addr ((storeData nTx p s).mapBlocksUnlinked.length + 1) [p]
        (storeData nTx p s) = .ok t ∧ t.index = (storeData nTx p s).index ∧
      Linking (fun x => lost x ∨ OnFailed s t x) [] t := by
  obtain ⟨hchain, hkept, hbase⟩ := h.afterStore nTx he hnone
  have hs := stores_storeData nTx he hnone
  have hlinked : ∀ q, Parent (views (storeData nTx p s).index) p q →
      (storeData nTx p s).nChainTx q ≠ 0 := by
    intro q hq
    rw [hchain]
    exact hparent q ((parent_iff he q).mp ((hs.parent q).mp hq))
  obtain ⟨t, hrun, hdone, hindex, hkeeps⟩ := (hbase.enqueue hkept hlinked).linkQueue addr
    ((storeData nTx p s).mapBlocksUnlinked.length + 1) hwrap (Nat.add_comm _ _).le
  refine ⟨t, hrun, hindex, hdone.onFailed fun x hx => ?_⟩
  cases hx.eq (hindex ▸ hs)
  obtain ⟨-, -, q, prev, hq, -, -, hq0⟩ := hx
  rw [hindex] at hq
  exact (hkeeps q (hlinked q hq)).1 hq0

/-- On a parent that has failed and is not linked, the block is not kept for later. -/
lemma Linking.loseStored {q : Nat} {prev : IndexEntry} (h : Linking lost [] s)
    (he : s.index.blocks[p]? = some e) (hnone : e.haveData = false)
    (hparent : Parent (views (storeData nTx p s).index) p q)
    (hprev : (storeData nTx p s).index.blocks[q]? = some prev) (hfailed : prev.failed = true)
    (hq : (storeData nTx p s).nChainTx q = 0) :
    Linking (fun x => lost x ∨ OnFailed s (storeData nTx p s) x) [] (storeData nTx p s) := by
  have hs := stores_storeData nTx he hnone
  have honFailed : OnFailed s (storeData nTx p s) p :=
    ⟨fun ⟨_, hv, hdata⟩ => hs.ne hv hdata rfl, hs.after, q, prev, hparent, hprev, hfailed, hq⟩
  have heq : (fun x => lost x ∨ OnFailed s (storeData nTx p s) x) = fun x => lost x ∨ x = p := by
    funext x
    refine propext (or_congr_right ⟨fun hx => hx.eq hs, ?_⟩)
    rintro rfl
    exact honFailed
  rw [heq]
  exact (h.afterStore nTx he hnone).2.2

/-- A block that comes in is linked, waits, or is lost because its parent has failed and is not
linked. -/
lemma Linking.receive (hi : Indexed s.index) (h : Linking lost [] s)
    (he : s.index.blocks[p]? = some e) (hnone : e.haveData = false)
    (hwrap : NoWrap (views (storeData nTx p s).index)) :
    ∃ t, receivedBlockTransactions addr nTx p s = .ok t ∧ t.index = (storeData nTx p s).index ∧
      Linking (fun x => lost x ∨ OnFailed s t x) [] t := by
  obtain ⟨hchain, hkept, hbase⟩ := h.afterStore nTx he hnone
  have hs := stores_storeData nTx he hnone
  have hentry : (storeData nTx p s).index.blocks[p]? = some (stored nTx e) := entry_storeData he
  have hprev : (stored nTx e).pprev = e.pprev := congrArg LinkView.pprev (stored_fields nTx e).1
  simp only [receivedBlockTransactions, CChainState.entry, hentry, orReject, ok_bind, hprev]
  cases hcase : e.pprev with
  | none =>
    exact h.linkStored addr he hnone hwrap fun q hq => absurd (hcase.symm.trans hq)
      (some_ne_none q).symm
  | some q =>
    dsimp only
    by_cases hq0 : (storeData nTx p s).nChainTx q ≠ 0
    · rw [if_pos hq0]
      refine h.linkStored addr he hnone hwrap fun r hr => ?_
      cases hcase.symm.trans hr
      rwa [hchain] at hq0
    · rw [if_neg hq0]
      rw [not_not] at hq0
      have hparent : Parent (views (storeData nTx p s).index) p q :=
        (hs.parent q).mpr ((parent_iff he q).mpr hcase)
      have hlt : q < (storeData nTx p s).index.blocks.length :=
        (hi.storeData.older p _ q hentry (hprev.trans hcase)).trans_lt
          (List.getElem?_eq_some_iff.mp hentry).1
      obtain ⟨prev, hat⟩ : ∃ prev, (storeData nTx p s).index.blocks[q]? = some prev :=
        ⟨_, getElem?_eq_getElem hlt⟩
      have hvalid : prev.isValid BLOCK_VALID_TREE = !prev.failed := by
        have htree := hi.storeData.tree q prev hat
        simp [IndexEntry.isValid, htree]
      simp only [hat, ok_bind, hvalid]
      cases hfailed : prev.failed with
      | true => exact ⟨storeData nTx p s, rfl, rfl, h.loseStored he hnone hparent hat hfailed hq0⟩
      | false =>
        refine ⟨_, rfl, rfl, (hbase.wait hkept hparent hq0).onFailed fun x hx => ?_⟩
        cases hx.eq hs
        obtain ⟨-, -, r, prev', hr, hat', hfailed', -⟩ := hx
        cases Parent.unique hparent hr
        cases hat.symm.trans hat'
        exact absurd (hfailed.symm.trans hfailed') Bool.false_ne_true

end

end

structure Grown (i j : IndexState) : Prop where
  grows : Extends i j
  indexed : Indexed i → Indexed j

lemma Grown.refl (i : IndexState) : Grown i i := ⟨.refl i, id⟩

lemma Grown.trans (h : Grown i j) (h' : Grown j k) : Grown i k :=
  ⟨h.grows.trans h'.grows, fun hi => h'.indexed (h.indexed hi)⟩

lemma Grown.of_steps (h : ReflTransGen Grown i j) : Grown i j := by
  induction h with
  | refl => exact .refl i
  | tail _ hstep ih => exact ih.trans hstep

lemma Grown.mark (i : IndexState) (p : Nat) (f : IndexEntry → IndexEntry)
    (hf : ∀ e, linkView (f e) = linkView e ∧ e.nValid ≤ (f e).nValid) : Grown i (i.update p f) where
  grows := .of_views (views_update_same i p f fun e => (hf e).1)
  indexed h := h.update p f fun e => ⟨congrArg LinkView.pprev (hf e).1, (hf e).2⟩

section

variable {E : Env}

lemma newEntry_links {e : IndexEntry} (h : newEntry E i block = .ok e) :
    e.haveData = false ∧ e.nValid = BLOCK_VALID_TREE ∧
      e.pprev = update i.mapBlockIndex (headerHash E block) (some i.blocks.length)
        block.hashPrevBlock := by
  unfold newEntry at h
  dsimp only at h
  split at h
  · rename_i hnone
    cases h
    exact ⟨rfl, rfl, hnone.symm⟩
  · rename_i q hq
    simp only [bind_ok_iff, pure_ok_iff] at h
    obtain ⟨_, -, _, -, rfl⟩ := h
    exact ⟨rfl, rfl, hq.symm⟩

lemma insert_views (i : IndexState) (e : IndexEntry) (p : Nat) (e' : IndexEntry)
    (h : (i.insert e).blocks[p]? = some e') :
    i.blocks[p]? = some e' ∨ (p = i.blocks.length ∧ e' = e) := by
  have h : (i.blocks ++ [e])[p]? = some e' := h
  rcases Nat.lt_or_ge p i.blocks.length with hlt | hge
  · rw [getElem?_append_left hlt] at h
    exact .inl h
  · rw [getElem?_append_right hge] at h
    obtain ⟨hlt, heq⟩ := List.getElem?_eq_some_iff.mp h
    simp only [length_singleton] at hlt
    refine .inr ⟨by omega, ?_⟩
    simpa using heq.symm

lemma Grown.insert {e : IndexEntry} (h : newEntry E i block = .ok e) : Grown i (i.insert e) := by
  obtain ⟨hdata, hvalid, hprev⟩ := newEntry_links h
  refine ⟨⟨fun p v hv => ?_, fun p v hv => ?_⟩, fun hi => ⟨?_, ?_, ?_⟩⟩
  · obtain ⟨old, hold, rfl⟩ := map_eq_some_iff.mp hv
    have hlt := (List.getElem?_eq_some_iff.mp hold).1
    have hat : (i.blocks ++ [e])[p]? = some old := (getElem?_append_left hlt).trans hold
    exact map_eq_some_iff.mpr ⟨old, hat, rfl⟩
  · obtain ⟨e', he', rfl⟩ := map_eq_some_iff.mp hv
    rcases insert_views i e p e' he' with hold | ⟨-, rfl⟩
    · exact .inl (map_eq_some_iff.mpr ⟨e', hold, rfl⟩)
    · exact .inr hdata
  · intro p e' q he' hq
    rcases insert_views i e p e' he' with hold | ⟨rfl, rfl⟩
    · exact hi.older p e' q hold hq
    · rw [hprev] at hq
      by_cases hself : block.hashPrevBlock = headerHash E block
      · rw [hself, update_self] at hq
        exact (some.inj hq).ge
      · rw [update_of_ne hself] at hq
        exact (hi.keyed _ q hq).le
  · intro p e' he'
    rcases insert_views i e p e' he' with hold | ⟨rfl, rfl⟩
    · exact hi.tree p e' hold
    · exact hvalid.ge
  · intro hash p hp
    have hp : update i.mapBlockIndex e.hashBlock (some i.blocks.length) hash = some p := hp
    have hlen : (i.insert e).blocks.length = i.blocks.length + 1 := by
      rw [IndexState.insert, length_append, length_singleton]
    rw [hlen]
    by_cases hself : hash = e.hashBlock
    · rw [hself, update_self] at hp
      have := some.inj hp
      omega
    · rw [update_of_ne hself] at hp
      have := hi.keyed hash p hp
      omega

lemma updateEntry_grows (p : Nat) {f : IndexEntry → IndexEntry}
    (hf : ∀ e, linkView (f e) = linkView e ∧ e.nValid ≤ (f e).nValid) :
    Moves Grown (updateEntry p f) := moves_write fun i => .mark i p f hf

lemma entryAt_grows (p : Nat) : Moves Grown (entryAt p) := moves_bind moves_read fun _ =>
    moves_lift _

lemma markFailedChildren_grows (failedit n p : Nat) :
    Moves Grown (markFailedChildren failedit n p) := by
  induction n generalizing p with
  | zero => exact moves_lift _
  | succ n ih =>
    refine moves_ite (moves_pure _) ?_
    refine moves_bind (updateEntry_grows p fun e => ⟨rfl, le_rfl⟩) fun _ => ?_
    refine moves_bind (entryAt_grows p) fun e => ?_
    exact moves_bind (moves_lift _) fun q => ih q

lemma checkFailedBlocks_grows (p : Nat) (failed : List Nat) :
    Moves Grown (checkFailedBlocks p failed) := by
  induction failed with
  | nil => exact moves_pure _
  | cons failedit rest ih =>
    refine moves_bind moves_read fun s => moves_bind (entryAt_grows failedit) fun f => ?_
    refine moves_bind (moves_lift _) fun ancestor => moves_ite ?_ ih
    refine moves_bind (moves_lift _) fun _ => ?_
    exact moves_bind (markFailedChildren_grows failedit _ p) fun _ => moves_fail _

lemma addToBlockIndex_grows (block : CBlockHeader) : Moves Grown (addToBlockIndex E block) := by
  intro i
  simp only [addToBlockIndex, wp_bind, wp_read]
  cases i.mapBlockIndex (headerHash E block) with
  | some p => exact .refl
  | none =>
    simp only [wp_bind, wp_lift, wp_write, wp_pure]
    exact ⟨fun e he => .single (.insert he), fun _ _ => .refl⟩

lemma acceptBlockHeader_grows (H : HeaderParams) (peer : Peer) (block : CBlockHeader) :
    Moves Grown (acceptBlockHeader E H peer block) := by
  have hadd : Moves Grown (addHeader E peer block) := by
    refine moves_bind (moves_lift _) fun _ => moves_bind (addToBlockIndex_grows block) fun p => ?_
    refine moves_ite (moves_pure p) ?_
    exact moves_bind (updateEntry_grows p fun e => ⟨rfl, le_rfl⟩) fun _ => moves_pure p
  have hcheck : Moves Grown (checkNewHeader E H block) := by
    refine moves_bind (moves_lift _) fun _ => moves_bind moves_read fun s => ?_
    refine moves_bind (moves_lift _) fun q => moves_bind (entryAt_grows q) fun prev => ?_
    refine moves_bind (moves_lift _) fun _ => moves_bind (moves_lift _) fun _ => ?_
    exact moves_ite (moves_pure _) (checkFailedBlocks_grows q s.failedBlocks)
  refine moves_bind moves_read fun s => moves_ite hadd ?_
  cases s.mapBlockIndex (headerHash E block) with
  | some p =>
    refine moves_bind (moves_lift _) fun _ => moves_bind (entryAt_grows p) fun e => ?_
    exact moves_bind (moves_lift _) fun _ => moves_pure p
  | none => exact moves_bind hcheck fun _ => hadd

lemma invalidBlockFound_grows (p : Nat) (reject : Reject) :
    Moves Grown (NewBlocks.invalidBlockFound p reject) := by
  refine moves_ite (moves_pure _) ?_
  refine moves_bind (updateEntry_grows p fun e => ⟨rfl, le_rfl⟩) fun _ => ?_
  refine moves_bind (moves_write fun i => ⟨.of_views rfl, fun h => ⟨h.older, h.tree, h.keyed⟩⟩)
    fun _ => ?_
  exact moves_bind moves_read fun s => moves_lift _

end

end LinkedBlocks
