import BitcoinC.IndexChanges
import BitcoinC.ToyEnvironment

/-!
# The parents of the block index

An entry of `mapBlockIndex` should lead to other entries: its parent, the block it
skips to, and the best header and the tip themselves.
-/

namespace IndexClosure

open Primitives Encoding Environment Verdicts HeaderChecks BlockIndex IndexRuns IndexChanges
  Relation List Function Option

variable {H : HeaderParams} (n : Nat) (e : IndexEntry)

/-- The object `p` is the entry of its own hash. -/
def Has (s : IndexState) (p : Nat) (e : IndexEntry) : Prop :=
  s.blocks[p]? = some e ∧ s.mapBlockIndex e.hashBlock = some p

def Listed (s : IndexState) (p : Nat) : Prop := ∃ e, Has s p e

/-- Parents and skip targets of entries are entries, and so are the best header and the tip. -/
structure ParentClosed (E : Env) (s : IndexState) : Prop where
  keyed : ∀ hash p, s.mapBlockIndex hash = some p → ∃ e, s.blocks[p]? = some e ∧ e.hashBlock = hash
  linked : ∀ p e, Has s p e → e.hashBlock ≠ E.hashGenesisBlock →
    (∃ q, e.pprev = some q ∧ Listed s q) ∧ ∃ r, e.pskip = some r ∧ Listed s r
  best : ∃ p, s.pindexBestHeader = some p ∧ Listed s p
  tip : ∃ p, s.tip = some p ∧ Listed s p

/-- The invariant behind it: heights go with the pointers, so that `GetAncestor` works, and an
object with the data of its block was accepted and keeps its entry. -/
structure Linked (E : Env) (s : IndexState) : Prop where
  keyed : ∀ hash p, s.mapBlockIndex hash = some p → ∃ e, s.blocks[p]? = some e ∧ e.hashBlock = hash
  parent : ∀ p e, Has s p e → e.hashBlock ≠ E.hashGenesisBlock →
    ∃ q prev, e.pprev = some q ∧ Has s q prev ∧ e.nHeight = prev.nHeight + 1
  skip : ∀ p e, Has s p e → e.hashBlock ≠ E.hashGenesisBlock →
    ∃ r far, e.pskip = some r ∧ Has s r far ∧ far.nHeight = getSkipHeight e.nHeight
  genesis : ∃ p e, Has s p e ∧ e.hashBlock = E.hashGenesisBlock ∧ e.nHeight = 0 ∧ e.haveData = true
  data : ∀ p e, s.blocks[p]? = some e → e.haveData = true → e.accepted = true ∧ Has s p e
  best : ∃ p, s.pindexBestHeader = some p ∧ Listed s p
  tip : ∃ p e, s.tip = some p ∧ s.blocks[p]? = some e ∧ e.haveData = true

section

variable {E : Env} {s t : IndexState}

lemma Linked.closed (h : Linked E s) : ParentClosed E s where
  keyed := h.keyed
  linked := by
    intro p e hp hne
    obtain ⟨q, prev, hq, hprev, -⟩ := h.parent p e hp hne
    obtain ⟨r, far, hr, hfar, -⟩ := h.skip p e hp hne
    exact ⟨⟨q, hq, prev, hprev⟩, r, hr, far, hfar⟩
  best := h.best
  tip := by
    obtain ⟨p, e, htip, he, hdata⟩ := h.tip
    exact ⟨p, htip, e, (h.data p e he hdata).2⟩

lemma Has.unique {p p' : Nat} {e e' : IndexEntry} (h : Has s p e) (h' : Has s p' e')
    (hash : e.hashBlock = e'.hashBlock) : p = p' ∧ e = e' := by
  have hp : p = p' := some.inj (h.2.symm.trans ((congrArg _ hash).trans h'.2))
  subst hp
  exact ⟨rfl, some.inj (h.1.symm.trans h'.1)⟩

lemma invertLowestOne_lt (hn : n ≠ 0) : invertLowestOne n < n := by
  have h : invertLowestOne n ≤ n - 1 := Nat.and_le_right
  omega

lemma getSkipHeight_lt (hn : n ≠ 0) : getSkipHeight n < n := by
  unfold getSkipHeight
  split
  · omega
  · split
    · have hfirst := invertLowestOne_lt (n - 1) (by omega)
      by_cases hzero : invertLowestOne (n - 1) = 0
      · rw [hzero]
        show invertLowestOne 0 + 1 < n
        have : invertLowestOne 0 = 0 := rfl
        omega
      · have hsecond := invertLowestOne_lt _ hzero
        omega
    · exact invertLowestOne_lt n hn

lemma ancestorFrom_listed (h : Linked E s) (blocks : List IndexEntry)
    (hblocks : ∀ (p : Nat) e, s.blocks[p]? = some e → blocks[p]? = some e) (height n p : Nat)
    (e : IndexEntry) (hp : Has s p e) (hle : height ≤ e.nHeight) (hn : e.nHeight ≤ n) :
    ∃ r far, ancestorFrom blocks height n e.nHeight p = .ok r ∧ Has s r far ∧
      far.nHeight = height := by
  induction n generalizing p e with
  | zero =>
    have hzero : e.nHeight ≤ height := by omega
    refine ⟨p, e, ?_, hp, by omega⟩
    simp only [ancestorFrom, hzero, if_true]
  | succ n ih =>
    by_cases hend : e.nHeight ≤ height
    · refine ⟨p, e, ?_, hp, by omega⟩
      simp only [ancestorFrom, hend, if_true]
    · -- above the height we look for, so this is not the genesis block
      have hne : e.hashBlock ≠ E.hashGenesisBlock := by
        intro hgenesis
        obtain ⟨p', e', hp', hash', hheight, -⟩ := h.genesis
        have := (hp.unique hp' (hgenesis.trans hash'.symm)).2
        subst this
        omega
      obtain ⟨q, prev, hq, hprev, hprevHeight⟩ := h.parent p e hp hne
      obtain ⟨r, far, hr, hfar, hfarHeight⟩ := h.skip p e hp hne
      have hskip := getSkipHeight_lt e.nHeight (by omega)
      simp only [ancestorFrom, hend, if_false, hblocks p e hp.1, orReject, ok_bind, hr, hq]
      split
      · rename_i hcond
        rw [← hfarHeight]
        refine ih r far hfar ?_ (by omega)
        rcases hcond.2 with hskipHeight | hskipHeight <;> omega
      · rw [show e.nHeight - 1 = prev.nHeight by omega]
        exact ih q prev hprev (by omega) (by omega)

lemma getAncestor_listed (h : Linked E s) (blocks : List IndexEntry)
    (hblocks : ∀ (p : Nat) e, s.blocks[p]? = some e → blocks[p]? = some e) (height p : Nat)
    (e : IndexEntry) (hp : Has s p e) (hle : height ≤ e.nHeight) :
    ∃ r far, getAncestor blocks p height = .ok (some r) ∧ Has s r far ∧ far.nHeight = height := by
  obtain ⟨r, far, hr, hfar, hheight⟩ :=
    ancestorFrom_listed h blocks hblocks height e.nHeight p e hp hle le_rfl
  refine ⟨r, far, ?_, hfar, hheight⟩
  simp only [getAncestor, hblocks p e hp.1, orReject, ok_bind, hr]
  rw [if_neg (by omega)]
  rfl

lemma Has.of_cores (hcores : t.blocks.map core = s.blocks.map core)
    (hmap : t.mapBlockIndex = s.mapBlockIndex) {p : Nat} {e : IndexEntry} (hp : Has t p e) :
    ∃ old, Has s p old ∧ core e = core old := by
  obtain ⟨old, hold, hcore⟩ := exists_core hcores p e hp.1
  refine ⟨old, ⟨hold, ?_⟩, hcore⟩
  rw [← core_hashBlock hcore, ← hmap]
  exact hp.2

/-- Hashes lead to objects with that hash. -/
def Keyed (s : IndexState) : Prop :=
  ∀ hash p, s.mapBlockIndex hash = some p → ∃ e, s.blocks[p]? = some e ∧ e.hashBlock = hash

lemma Keyed.of_cores (h : Keyed s) (hcores : t.blocks.map core = s.blocks.map core)
    (hmap : t.mapBlockIndex = s.mapBlockIndex) : Keyed t := by
  intro hash p hp
  rw [hmap] at hp
  obtain ⟨old, hold, hash'⟩ := h hash p hp
  obtain ⟨e, he, hcore⟩ := exists_core hcores.symm p old hold
  exact ⟨e, he, (core_hashBlock hcore).symm.trans hash'⟩

lemma Linked.of_cores (h : Linked E s) (hcores : t.blocks.map core = s.blocks.map core)
    (hmap : t.mapBlockIndex = s.mapBlockIndex) (hbest : t.pindexBestHeader = s.pindexBestHeader)
    (hkept : ∀ (p : Nat) (e old : IndexEntry), t.blocks[p]? = some e → s.blocks[p]? = some old →
      old.haveData = true → e.haveData = true)
    (hdata : ∀ (p : Nat) (e old : IndexEntry), t.blocks[p]? = some e → s.blocks[p]? = some old →
      e.haveData = true → (old.haveData = true ∧ (old.accepted = true → e.accepted = true)) ∨
        (e.accepted = true ∧ ∃ hash, s.mapBlockIndex hash = some p))
    (htip : t.tip = s.tip ∨ ∃ p e, t.tip = some p ∧ s.blocks[p]? = some e ∧ e.haveData = true) :
    Linked E t where
  keyed := Keyed.of_cores h.keyed hcores hmap
  parent := by
    intro p e hp hne
    obtain ⟨old, hold, hcore⟩ := hp.of_cores hcores hmap
    obtain ⟨q, prev, hq, hprev, hheight⟩ := h.parent p old hold (core_hashBlock hcore ▸ hne)
    obtain ⟨prev', hprev', hcore'⟩ := hprev.of_cores hcores.symm hmap.symm
    refine ⟨q, prev', (core_pprev hcore).trans hq, hprev', ?_⟩
    rw [core_nHeight hcore, ← core_nHeight hcore', hheight]
  skip := by
    intro p e hp hne
    obtain ⟨old, hold, hcore⟩ := hp.of_cores hcores hmap
    obtain ⟨r, far, hr, hfar, hheight⟩ := h.skip p old hold (core_hashBlock hcore ▸ hne)
    obtain ⟨far', hfar', hcore'⟩ := hfar.of_cores hcores.symm hmap.symm
    refine ⟨r, far', (core_pskip hcore).trans hr, hfar', ?_⟩
    rw [core_nHeight hcore, ← core_nHeight hcore', hheight]
  genesis := by
    obtain ⟨p, old, hold, hash, hheight, holdData⟩ := h.genesis
    obtain ⟨e, he, hcore⟩ := hold.of_cores hcores.symm hmap.symm
    exact ⟨p, e, he, (core_hashBlock hcore).symm.trans hash,
      (core_nHeight hcore).symm.trans hheight, hkept p e old he.1 hold.1 holdData⟩
  data := by
    intro p e he hhave
    obtain ⟨old, hold, hcore⟩ := exists_core hcores p e he
    have hash := core_hashBlock hcore
    rcases hdata p e old he hold hhave with ⟨hhad, haccepted⟩ | ⟨haccepted, hash', hp⟩
    · obtain ⟨hold', -, hmapped⟩ := h.data p old hold hhad
      exact ⟨haccepted hold', he, by rw [hmap, hash, hmapped]⟩
    · obtain ⟨old', hold', rfl⟩ := h.keyed hash' p hp
      cases hold.symm.trans hold'
      exact ⟨haccepted, he, by rw [hmap, hash, hp]⟩
  best := by
    obtain ⟨p, hp, old, hold⟩ := h.best
    obtain ⟨e, he, -⟩ := hold.of_cores hcores.symm hmap.symm
    exact ⟨p, hbest.trans hp, e, he⟩
  tip := by
    have hfound : ∃ p old, t.tip = some p ∧ s.blocks[p]? = some old ∧ old.haveData = true := by
      rcases htip with hsame | hnew
      · rw [hsame]
        exact h.tip
      · exact hnew
    obtain ⟨p, old, htip, hold, hhave⟩ := hfound
    obtain ⟨e, he, -⟩ := exists_core hcores.symm p old hold
    exact ⟨p, e, htip, he, hkept p e old he hold hhave⟩

lemma Linked.mark (h : Linked E s) (p : Nat) (f : IndexEntry → IndexEntry)
    (hf : ∀ e, SameEntry e (f e)) : Linked E (s.update p f) := by
  have hentry : ∀ (i : Nat) (e old : IndexEntry), (s.update p f).blocks[i]? = some e →
      s.blocks[i]? = some old → SameEntry old e := by
    intro i e old he hold
    obtain ⟨old', hold', hcase⟩ := update_get s p f i e he
    cases hold.symm.trans hold'
    rcases hcase with ⟨-, rfl⟩ | ⟨-, rfl⟩
    · exact hf old
    · exact ⟨rfl, rfl, id⟩
  refine h.of_cores (update_cores s p f fun e _ => (hf e).core) rfl rfl ?_ ?_ (.inl rfl)
  · intro i e old he hold hhave
    exact (hentry i e old he hold).data.trans hhave
  · intro i e old he hold hhave
    have hsame := hentry i e old he hold
    exact .inl ⟨hsame.data.symm.trans hhave, hsame.accepted⟩

lemma Linked.store (h : Linked E s) (p : Nat) (f : IndexEntry → IndexEntry) (hash : Uint256)
    (hp : s.mapBlockIndex hash = some p) (hf : ∀ e, s.blocks[p]? = some e →
      core (f e) = core e ∧ (f e).accepted = true ∧ (f e).haveData = true) :
    Linked E (s.update p f) := by
  refine h.of_cores (update_cores s p f fun e he => (hf e he).1) rfl rfl ?_ ?_ (.inl rfl)
  · intro i e old he hold hhave
    obtain ⟨old', hold', hcase⟩ := update_get s p f i e he
    cases hold.symm.trans hold'
    rcases hcase with ⟨rfl, rfl⟩ | ⟨-, rfl⟩
    · exact (hf old hold).2.2
    · exact hhave
  · intro i e old he hold hhave
    obtain ⟨old', hold', hcase⟩ := update_get s p f i e he
    cases hold.symm.trans hold'
    rcases hcase with ⟨rfl, rfl⟩ | ⟨-, rfl⟩
    · exact .inr ⟨(hf old hold).2.1, hash, hp⟩
    · exact .inl ⟨hhave, id⟩

lemma Linked.activate (h : Linked E s) (hsame : SameIndex s t) : Linked E t := by
  have hflags : ∀ (p : Nat) (e old : IndexEntry), t.blocks[p]? = some e → s.blocks[p]? = some old →
      e.haveData = old.haveData ∧ e.accepted = old.accepted := by
    intro p e old he hold
    have hflag := congrArg (fun flags => flags[p]?) hsame.flags
    simp only [getElem?_map, he, hold, map_some, some.injEq, Prod.mk.injEq] at hflag
    exact hflag
  refine h.of_cores hsame.cores hsame.map hsame.best ?_ ?_ hsame.tip
  · intro p e old he hold hhave
    exact (hflags p e old he hold).1.trans hhave
  · intro p e old he hold hhave
    obtain ⟨hdata, haccepted⟩ := hflags p e old he hold
    exact .inl ⟨hdata.symm.trans hhave, fun h => haccepted.trans h⟩

lemma insert_old (p : Nat) (x : IndexEntry) (hx : s.blocks[p]? = some x) :
    (s.insert e).blocks[p]? = some x := by
  show (s.blocks ++ [e])[p]? = some x
  rw [List.getElem?_append_left (List.getElem?_eq_some_iff.mp hx).1, hx]

lemma insert_new : Has (s.insert e) s.blocks.length e := by
  refine ⟨?_, update_self _ _ _⟩
  show (s.blocks ++ [e])[s.blocks.length]? = some e
  rw [getElem?_append_right le_rfl, Nat.sub_self]
  rfl

lemma insert_get (p : Nat) (x : IndexEntry) (hx : (s.insert e).blocks[p]? = some x) :
    s.blocks[p]? = some x ∨ (p = s.blocks.length ∧ x = e) := by
  change (s.blocks ++ [e])[p]? = some x at hx
  rw [getElem?_append] at hx
  split at hx
  · exact .inl hx
  · rename_i hge
    obtain ⟨hzero, rfl⟩ : p - s.blocks.length = 0 ∧ e = x := by
      rw [getElem?_singleton] at hx
      split at hx
      · exact ⟨by assumption, some.inj hx⟩
      · cases hx
    exact .inr ⟨by omega, rfl⟩

lemma Has.insert {e : IndexEntry} (hnew : s.mapBlockIndex e.hashBlock = none) {p : Nat}
    {x : IndexEntry} (hx : Has s p x) : Has (s.insert e) p x := by
  refine ⟨insert_old e p x hx.1, ?_⟩
  have hne : x.hashBlock ≠ e.hashBlock := by
    intro heq
    have := hx.2
    rw [heq, hnew] at this
    cases this
  exact (update_of_ne hne _ _).trans hx.2

lemma Has.of_insert {e : IndexEntry} {p : Nat} {x : IndexEntry} (hx : Has (s.insert e) p x) :
    Has s p x ∨ (p = s.blocks.length ∧ x = e) := by
  rcases insert_get e p x hx.1 with hold | hnew
  · refine .inl ⟨hold, ?_⟩
    have hmap := hx.2
    change update s.mapBlockIndex e.hashBlock (some s.blocks.length) x.hashBlock = some p
      at hmap
    by_cases heq : x.hashBlock = e.hashBlock
    · -- the position of an old object is not that of the new one
      rw [heq, update_self] at hmap
      have := (List.getElem?_eq_some_iff.mp hold).1
      have := some.inj hmap
      omega
    · rwa [update_of_ne heq] at hmap
  · exact .inr hnew

lemma Keyed.insert (h : Keyed s) : Keyed (s.insert e) := by
  intro hash p hp
  change update s.mapBlockIndex e.hashBlock (some s.blocks.length) hash = some p at hp
  by_cases heq : hash = e.hashBlock
  · rw [heq, update_self] at hp
    cases hp
    exact ⟨e, (insert_new e).1, heq.symm⟩
  · rw [update_of_ne heq] at hp
    obtain ⟨x, hx, hxHash⟩ := h hash p hp
    exact ⟨x, insert_old e p x hx, hxHash⟩

lemma Keyed.erase (h : Keyed s) (hash : Uint256) :
    Keyed { s with mapBlockIndex := update s.mapBlockIndex hash none } := by
  intro hash' p hp
  change update s.mapBlockIndex hash none hash' = some p at hp
  by_cases heq : hash' = hash
  · rw [heq, update_self] at hp
    cases hp
  · rw [update_of_ne heq] at hp
    exact h hash' p hp

/-- A block with a known parent and an unknown hash is not its own parent. -/
lemma parent_ne_self {block : CBlockHeader} {q : Nat}
    (hnew : s.mapBlockIndex (headerHash E block) = none)
    (hq : s.mapBlockIndex block.hashPrevBlock = some q) :
    block.hashPrevBlock ≠ headerHash E block := by
  intro heq
  rw [heq, hnew] at hq
  cases hq

def HasParent (s : IndexState) (block : CBlockHeader) : Prop :=
  (s.mapBlockIndex block.hashPrevBlock).isSome

lemma newEntry_linked (h : Linked E s) (block : CBlockHeader) (e : IndexEntry)
    (hnew : s.mapBlockIndex (headerHash E block) = none) (he : newEntry E s block = .ok e)
    (hparent : HasParent s block) :
    (∃ q prev, e.pprev = some q ∧ Has s q prev ∧ e.nHeight = prev.nHeight + 1) ∧
      ∃ r far, e.pskip = some r ∧ Has s r far ∧ far.nHeight = getSkipHeight e.nHeight := by
  obtain ⟨q, hq⟩ := isSome_iff_exists.mp hparent
  obtain ⟨prev, hprev, hash⟩ := h.keyed _ q hq
  obtain ⟨hpprev, hheight, -, linked, hskip⟩ :=
    newEntry_parent s block e prev q (parent_ne_self hnew hq) hq hprev he
  have hlisted : Has s q prev := ⟨hprev, by rw [hash, hq]⟩
  refine ⟨⟨q, prev, hpprev, hlisted, hheight⟩, ?_⟩
  have hblocks : ∀ (p : Nat) x, s.blocks[p]? = some x → (s.blocks ++ [linked])[p]? = some x :=
    fun p x hx => insert_old linked p x hx
  have hlt := getSkipHeight_lt (prev.nHeight + 1) (by omega)
  obtain ⟨r, far, hr, hfar, hfarHeight⟩ := getAncestor_listed h (s.blocks ++ [linked]) hblocks
    (getSkipHeight (prev.nHeight + 1)) q prev hlisted (by omega)
  exact ⟨r, far, Except.ok.inj (hskip.symm.trans hr), hfar, by rw [hfarHeight, hheight]⟩

lemma Linked.insert (h : Linked E s) (block : CBlockHeader) (e : IndexEntry)
    (hnew : s.mapBlockIndex (headerHash E block) = none) (he : newEntry E s block = .ok e)
    (hins : headerHash E block = E.hashGenesisBlock ∨ HasParent s block) :
    Linked E (s.insert e) := by
  obtain ⟨hash, -, -, hnoData⟩ := newEntry_fields s block e he
  have hnew' : s.mapBlockIndex e.hashBlock = none := by rw [hash, hnew]
  obtain ⟨g, ge, hg, hgHash, hgHeight, hgData⟩ := h.genesis
  have hparent : HasParent s block := by
    rcases hins with hgenesis | hparent
    · -- the genesis block has an entry already
      have := hg.2
      rw [hgHash, ← hgenesis, hnew] at this
      cases this
    · exact hparent
  obtain ⟨⟨q, prev, hq, hprev, hheight⟩, r, far, hr, hfar, hfarHeight⟩ :=
    newEntry_linked h block e hnew he hparent
  constructor
  · exact Keyed.insert e h.keyed
  · intro p x hx hne
    rcases hx.of_insert with hold | ⟨-, rfl⟩
    · obtain ⟨q', prev', hq', hprev', hheight'⟩ := h.parent p x hold hne
      exact ⟨q', prev', hq', hprev'.insert hnew', hheight'⟩
    · exact ⟨q, prev, hq, hprev.insert hnew', hheight⟩
  · intro p x hx hne
    rcases hx.of_insert with hold | ⟨-, rfl⟩
    · obtain ⟨r', far', hr', hfar', hheight'⟩ := h.skip p x hold hne
      exact ⟨r', far', hr', hfar'.insert hnew', hheight'⟩
    · exact ⟨r, far, hr, hfar.insert hnew', hfarHeight⟩
  · exact ⟨g, ge, hg.insert hnew', hgHash, hgHeight, hgData⟩
  · intro p x hx hdata
    rcases insert_get e p x hx with hold | ⟨-, rfl⟩
    · obtain ⟨haccepted, hlisted⟩ := h.data p x hold hdata
      exact ⟨haccepted, hlisted.insert hnew'⟩
    · rw [hnoData] at hdata
      cases hdata
  · obtain ⟨p, hp, x, hx⟩ := h.best
    by_cases hbetter : s.betterHeader e = true
    · exact ⟨s.blocks.length, if_pos hbetter, e, insert_new e⟩
    · exact ⟨p, (if_neg hbetter).trans hp, x, hx.insert hnew'⟩
  · obtain ⟨p, x, hp, hx, hdata⟩ := h.tip
    exact ⟨p, x, hp, insert_old e p x hx, hdata⟩

/-- Nothing needs the entry of a hash: it has no data, it is not the best header, and no entry
points to its object. -/
def Removable (s : IndexState) (hash : Uint256) : Prop :=
  ∀ p e, Has s p e → e.hashBlock = hash → e.haveData = false ∧ s.pindexBestHeader ≠ some p ∧
    ∀ q x, Has s q x → x.pprev ≠ some p ∧ x.pskip ≠ some p

lemma Linked.erase (h : Linked E s) (hash : Uint256) (hdel : Removable s hash) :
    Linked E { s with mapBlockIndex := update s.mapBlockIndex hash none } := by
  set t : IndexState := { s with mapBlockIndex := update s.mapBlockIndex hash none }
  have hold : ∀ p x, Has t p x → Has s p x := by
    rintro p x ⟨hx, hmap⟩
    refine ⟨hx, ?_⟩
    change update s.mapBlockIndex hash none x.hashBlock = some p at hmap
    by_cases heq : x.hashBlock = hash
    · rw [heq, update_self] at hmap
      cases hmap
    · rwa [update_of_ne heq] at hmap
  have hkeep : ∀ p x, Has s p x → x.hashBlock ≠ hash → Has t p x := fun p x hx hne =>
    ⟨hx.1, (update_of_ne hne _ _).trans hx.2⟩
  constructor
  · exact Keyed.erase h.keyed hash
  · intro p x hx hne
    obtain ⟨q, prev, hq, hprev, hheight⟩ := h.parent p x (hold p x hx) hne
    refine ⟨q, prev, hq, hkeep q prev hprev fun heq => ?_, hheight⟩
    exact ((hdel q prev hprev heq).2.2 p x (hold p x hx)).1 hq
  · intro p x hx hne
    obtain ⟨r, far, hr, hfar, hheight⟩ := h.skip p x (hold p x hx) hne
    refine ⟨r, far, hr, hkeep r far hfar fun heq => ?_, hheight⟩
    exact ((hdel r far hfar heq).2.2 p x (hold p x hx)).2 hr
  · obtain ⟨p, e, hp, hgenesis, hheight, hdata⟩ := h.genesis
    refine ⟨p, e, hkeep p e hp fun heq => ?_, hgenesis, hheight, hdata⟩
    have := (hdel p e hp heq).1
    rw [hdata] at this
    cases this
  · intro p x hx hdata
    obtain ⟨haccepted, hlisted⟩ := h.data p x hx hdata
    refine ⟨haccepted, hkeep p x hlisted fun heq => ?_⟩
    have := (hdel p x hlisted heq).1
    rw [hdata] at this
    cases this
  · obtain ⟨p, hp, x, hx⟩ := h.best
    exact ⟨p, hp, x, hkeep p x hx fun heq => (hdel p x hx heq).2.1 hp⟩
  · exact h.tip

/-- Every change keeps the links when headers come with a parent and erased entries are not
needed. -/
lemma Linked.change (h : Linked E s) (hst : Change E HasParent Removable s t) : Linked E t := by
  cases hst with
  | mark p f hf => exact h.mark p f hf
  | store p f hash hp hf => exact h.store p f hash hp hf
  | insert block e hnew he hins => exact h.insert block e hnew he hins
  | erase hash hdel => exact h.erase hash hdel
  | requeue failed delayed n => exact ⟨h.keyed, h.parent, h.skip, h.genesis, h.data, h.best, h.tip⟩
  | activate _ hsame => exact h.activate hsame

lemma Linked.changes (h : Linked E s) (hst : Changes E HasParent Removable s t) : Linked E t := by
  induction hst with
  | refl => exact h
  | tail _ hlast ih => exact ih.change hlast

lemma isSome_of_changes {Ins : IndexState → CBlockHeader → Prop}
    (hst : Changes E Ins (fun _ _ => False) s t) (hash : Uint256)
    (h : (s.mapBlockIndex hash).isSome) : (t.mapBlockIndex hash).isSome := by
  induction hst with
  | refl => exact h
  | @tail u v _ hlast ih =>
    cases hlast with
    | mark p f hf => exact ih
    | store p f hash hp hf => exact ih
    | insert block e hnew he hins =>
      show (update u.mapBlockIndex e.hashBlock (some u.blocks.length) hash).isSome
      by_cases heq : hash = e.hashBlock
      · rw [heq, update_self]
        rfl
      · rw [update_of_ne heq]
        exact ih
    | erase _ hdel => exact hdel.elim
    | requeue failed delayed n => exact ih
    | activate _ hsame =>
      rw [hsame.map]
      exact ih

/-- Neither the best header nor an entry points to the object. -/
def Unreferenced (s : IndexState) (p : Nat) : Prop :=
  s.pindexBestHeader ≠ some p ∧ ∀ q x, Has s q x → x.pprev ≠ some p ∧ x.pskip ≠ some p

/-- An event that leaves the links alone. A call that may delay a block finds room in the list, a
block that is received has its parent or itself in the index, and an entry that is erased is not
needed. -/
def Harmless (E : Env) (s : IndexState) : Event → Prop
  | .accept _ _ => Room s
  | .receive _ b => Room s ∧ ((s.mapBlockIndex (headerHash E b.header)).isSome ∨
      HasParent s b.header)
  | .delay _ _ _ => Room s
  | .erase id => ∀ x, (s.delayedBlocks.find? fun x => x.id = id) = some x →
      Removable s (headerHash E x.block.header)
  | .remove hash => ∀ p e, Has s p e → e.hashBlock = hash → e.accepted = false → Unreferenced s p
  | _ => True

lemma hasParent_of_passed {block : CBlockHeader} (h : Passed E H s block) : HasParent s block := by
  obtain ⟨q, hq, -⟩ := h
  exact isSome_iff_exists.mpr ⟨q, hq⟩

lemma Harmless.allowed (hlinked : Linked E s) (event : Event) (h : Harmless E s event) :
    Allowed HasParent Removable E H s event := by
  cases event with
  | header process peer block => trivial
  | accept d b => exact h
  | receive d b =>
    refine ⟨h.1, fun reject t _ hst hnone => ?_⟩
    -- no entry is erased before the block is rejected
    rcases h.2 with hknown | hparent
    · have := isSome_of_changes hst _ hknown
      rw [hnone] at this
      cases this
    · exact isSome_of_changes hst _ hparent
  | activate b => trivial
  | delay time nodeId b => exact h
  | drop id => trivial
  | erase id => exact h
  | remove hash =>
    intro p e hp he haccepted p' e' hp' hash'
    obtain ⟨x, hx, hash⟩ := hlinked.keyed hash p hp
    cases he.symm.trans hx
    have hlisted : Has s p e := ⟨he, by rw [hash, hp]⟩
    obtain ⟨rfl, rfl⟩ := hp'.unique hlisted (hash'.trans hash.symm)
    refine ⟨?_, h p' e' hp' hash' haccepted⟩
    -- an object with data is marked as accepted
    by_contra hdata
    have := (hlinked.data p' e' he (by simpa using hdata)).1
    rw [haccepted] at this
    cases this
  | duplicateStake p nodeId peerCount nPeers => trivial

lemma Linked.step {A : Activation} (event : Event) (h : Linked E s) (hharmless : Harmless E s event)
    (hstep : step E H A s event = .ok t) : Linked E t := by
  refine h.changes (step_changes HasParent Removable A s t event ?_
    (hharmless.allowed h event) hstep)
  intro P _ u block hpassed
  exact hasParent_of_passed hpassed

lemma started_linked (genesis : CBlock) : Linked E (started E genesis) := by
  have hself : (started E genesis).mapBlockIndex E.hashGenesisBlock = some 0 := by simp [started]
  have hgenesis : Has (started E genesis) 0 (genesisEntry E genesis) := ⟨rfl, hself⟩
  constructor
  · intro hash p hp
    obtain ⟨rfl, rfl⟩ := started_hash E hp
    exact ⟨_, hgenesis.1, rfl⟩
  · intro p e hp hne
    exact absurd (started_hash E hp.2).1 hne
  · intro p e hp hne
    exact absurd (started_hash E hp.2).1 hne
  · exact ⟨0, _, hgenesis, rfl, rfl, rfl⟩
  · intro p e he _
    obtain ⟨rfl, rfl⟩ := started_entry E he
    exact ⟨rfl, hgenesis⟩
  · exact ⟨0, rfl, _, hgenesis⟩
  · exact ⟨0, _, rfl, rfl, rfl⟩

/-- The block index is closed under parents as long as nothing is erased that is still needed and no
rejected block comes in without its parent. -/
theorem blockIndex_parentClosed (E : Env) (H : HeaderParams) (A : Activation) (genesis : CBlock)
    (events : List Event) (t : IndexState)
    (hharmless : everyStep (Harmless E) (step E H A) (started E genesis) events)
    (h : loop (step E H A) (started E genesis) events = .ok t) : ParentClosed E t :=
  (everyStep_induction (step E H A) (Harmless E) (Linked E)
    (fun _ _ event hs hP hstep => hs.step event hP hstep) events (started E genesis) t
    (started_linked genesis) hharmless h).closed

end

section

open ToyEnvironment

def toyEnv : Env := { chainEnv with powLimit := 0xffff <<< 224 }

def toyParams : HeaderParams where
  nTargetTimespan := 1200
  fCheckpointsEnabled := false
  checkpoints := []
  BIP34Height := 0
  BIP65Height := 0
  BIP66Height := 0
  nMinimumChainWork := 0

def idle : Activation where
  run _ s := (s, true)
  same _ _ := ⟨rfl, rfl, rfl, rfl, rfl, .inl rfl⟩

def toyHeader (hashPrevBlock : Uint256) (nTime : UInt32) : CBlockHeader :=
  { nVersion := BITCOINC_BLOCK_VERSION
    hashPrevBlock := hashPrevBlock
    hashMerkleRoot := 0
    hashWitnessMerkleRoot := 0
    nTime := nTime
    nBits := 0x1f00ffff
    nNonce := 0 }

def fromPeer (block : CBlockHeader) : Event := .header process ⟨true, true, true⟩ block

def firstHeader : CBlockHeader := toyHeader toyEnv.hashGenesisBlock 200
def otherHeader : CBlockHeader := toyHeader toyEnv.hashGenesisBlock 300
def childHeader : CBlockHeader := toyHeader (headerHash toyEnv firstHeader) 300

def siblings : List Event :=
  [fromPeer firstHeader, fromPeer otherHeader, .remove (headerHash toyEnv otherHeader)]

def orphaning : List Event :=
  [fromPeer firstHeader, fromPeer childHeader, .remove (headerHash toyEnv firstHeader)]

def unreferencedCheck (s : IndexState) (hash : Uint256) : Bool :=
  match s.mapBlockIndex hash with
  | none => true
  | some p => s.pindexBestHeader ≠ some p &&
      s.blocks.all fun x => x.pprev ≠ some p && x.pskip ≠ some p

lemma unreferenced_of_check (s : IndexState) (hash : Uint256)
    (h : unreferencedCheck s hash = true) (p : Nat) (e : IndexEntry) (hp : Has s p e)
    (hash' : e.hashBlock = hash) : Unreferenced s p := by
  have hmap := hp.2
  rw [hash'] at hmap
  simp only [unreferencedCheck, hmap, Bool.and_eq_true, decide_eq_true_eq, List.all_eq_true] at h
  exact ⟨h.1, fun q x hx => h.2 x (List.mem_of_getElem? hx.1)⟩

lemma siblings_harmless :
    everyStep (Harmless toyEnv) (step toyEnv toyParams idle) (started toyEnv genesisBlock)
      siblings := by
  refine ⟨trivial, fun t ht => ⟨trivial, fun u hu => ⟨?_, fun _ _ => trivial⟩⟩⟩
  have hrun : loop (step toyEnv toyParams idle) (started toyEnv genesisBlock)
      [fromPeer firstHeader, fromPeer otherHeader] = .ok u :=
    (loop_cons_ok_iff _ _ _ _ _).mpr ⟨t, ht, (loop_cons_ok_iff _ _ _ _ _).mpr ⟨u, hu, rfl⟩⟩
  have hcheck : (loop (step toyEnv toyParams idle) (started toyEnv genesisBlock)
      [fromPeer firstHeader, fromPeer otherHeader]).toOption.map
        (unreferencedCheck · (headerHash toyEnv otherHeader)) = some true := by decide +kernel
  rw [hrun] at hcheck
  intro p e hp hash _
  exact unreferenced_of_check u _ (some.inj hcheck) p e hp hash

/-- A header that nothing was built on can be removed. -/
theorem blockIndex_parentClosed_siblings :
    ∃ t, loop (step toyEnv toyParams idle) (started toyEnv genesisBlock) siblings = .ok t ∧
      ParentClosed toyEnv t := by
  obtain ⟨t, ht, -⟩ := exists_ok_of_toOption
    (loop (step toyEnv toyParams idle) (started toyEnv genesisBlock) siblings)
    (fun t => t.blocks.length) 3 (by decide +kernel)
  exact ⟨t, ht, blockIndex_parentClosed toyEnv toyParams idle genesisBlock siblings t
    siblings_harmless ht⟩

/-- The header of a parent is removed while the one of its child stays, so that an entry has a
parent without one. -/
theorem removed_parent_stays_linked :
    ∃ t, loop (step toyEnv toyParams idle) (started toyEnv genesisBlock) orphaning = .ok t ∧
      ¬ ParentClosed toyEnv t := by
  obtain ⟨t, ht, hview⟩ := exists_ok_of_toOption
    (loop (step toyEnv toyParams idle) (started toyEnv genesisBlock) orphaning)
    (fun t => (t.blocks.map fun e => (e.hashBlock, e.pprev),
      t.mapBlockIndex (headerHash toyEnv firstHeader),
      t.mapBlockIndex (headerHash toyEnv childHeader)))
    ([(toyEnv.hashGenesisBlock, none), (headerHash toyEnv firstHeader, some 0),
      (headerHash toyEnv childHeader, some 1)], none, some 2) (by decide +kernel)
  simp only [Prod.mk.injEq] at hview
  obtain ⟨hblocks, hfirst, hchild⟩ := hview
  have hget : ∀ (p : Nat) x, (t.blocks.map fun e => (e.hashBlock, e.pprev))[p]? = some x →
      ∃ e, t.blocks[p]? = some e ∧ (e.hashBlock, e.pprev) = x := by
    intro p x hx
    rwa [getElem?_map, map_eq_some_iff] at hx
  refine ⟨t, ht, fun hclosed => ?_⟩
  obtain ⟨child, hat, hcore⟩ := hget 2 (headerHash toyEnv childHeader, some 1)
    (by rw [hblocks]; rfl)
  obtain ⟨hash, hparent⟩ := Prod.mk.inj hcore
  have hne : child.hashBlock ≠ toyEnv.hashGenesisBlock := by
    rw [hash]
    decide +kernel
  obtain ⟨⟨q, hq, parent, hat', hlisted⟩, -⟩ :=
    hclosed.linked 2 child ⟨hat, by rw [hash, hchild]⟩ hne
  cases hparent.symm.trans hq
  obtain ⟨parent', hat'', hcore'⟩ := hget 1 (headerHash toyEnv firstHeader, some 0)
    (by rw [hblocks]; rfl)
  cases hat'.symm.trans hat''
  rw [(Prod.mk.inj hcore').1, hfirst] at hlisted
  cases hlisted

end

end IndexClosure
