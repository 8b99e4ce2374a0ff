import BitcoinC.LinkedBlocks
import BitcoinC.IndexClosure

/-!
# The chain that is chosen

`FindMostWorkChain` drops a candidate only when it stands on a failed block
outside the active chain, so what it returns is the best of the others.
-/

namespace BestChain

open Primitives Environment Verdicts HeaderChecks Calls BlockIndex ChainRun Candidates LinkedBlocks
  Relation

/-- A step that keeps counts, sequence ids and waiting blocks. -/
structure Quiet (s t : CChainState) : Prop where
  index : Grown s.index t.index
  chainTx : t.nChainTx = s.nChainTx
  sequence : t.nSequenceId = s.nSequenceId
  next : t.nBlockSequenceId = s.nBlockSequenceId
  unlinked : t.mapBlocksUnlinked = s.mapBlocksUnlinked
  candidate : ∀ c ∈ t.setBlockIndexCandidates, c ∈ s.setBlockIndexCandidates ∨ s.nChainTx c ≠ 0

/-- The invariant: the objects of the index, and the links on top of them. -/
structure Good (lost : Nat → Prop) (s : CChainState) : Prop where
  index : Indexed s.index
  links : Linking lost [] s

section

variable {s t u : CChainState} {lost : Nat → Prop}
variable {blocks : List IndexEntry} {i : IndexState} {e : IndexEntry}

lemma Quiet.refl (s : CChainState) : Quiet s s := ⟨.refl _, rfl, rfl, rfl, rfl, fun _ h => .inl h⟩

lemma Quiet.trans (h : Quiet s t) (h' : Quiet t u) : Quiet s u where
  index := h.index.trans h'.index
  chainTx := h'.chainTx.trans h.chainTx
  sequence := h'.sequence.trans h.sequence
  next := h'.next.trans h.next
  unlinked := h'.unlinked.trans h.unlinked
  candidate c hc := by
    rcases h'.candidate c hc with hmem | hlinked
    · exact h.candidate c hmem
    · rw [h.chainTx] at hlinked
      exact .inr hlinked

lemma Quiet.of_steps (h : ReflTransGen Quiet s t) : Quiet s t := by
  induction h with
  | refl => exact .refl s
  | tail _ hstep ih => exact ih.trans hstep

lemma Good.quiet (h : Good lost s) (hst : Quiet s t) : Good lost t where
  index := hst.index.indexed h.index
  links := by
    refine h.links.extend hst.index.grows hst.chainTx hst.sequence hst.next hst.unlinked fun c hc =>
      ?_
    rcases hst.candidate c hc with hmem | hlinked
    · exact h.links.candidate c hmem
    · exact hlinked

lemma Quiet.hasData (h : Quiet s t) (p : Nat) : HasData t.index p ↔ HasData s.index p := by
  constructor
  · rintro ⟨v, hv, hdata⟩
    exact ⟨v, h.index.grows.of_data hv hdata, hdata⟩
  · rintro ⟨v, hv, hdata⟩
    exact ⟨v, h.index.grows.old p v hv, hdata⟩

lemma Quiet.update (s : CChainState) (p : Nat) (f : IndexEntry → IndexEntry)
    (hf : ∀ e, linkView (f e) = linkView e ∧ e.nValid ≤ (f e).nValid) : Quiet s (s.update p f) :=
  ⟨.mark s.index p f hf, rfl, rfl, rfl, rfl, fun _ h => .inl h⟩

lemma Quiet.setTip (s : CChainState) (p : Option Nat) : Quiet s (s.setTip p) :=
  ⟨⟨.of_views rfl, fun h => ⟨h.older, h.tree, h.keyed⟩⟩, rfl, rfl, rfl, rfl, fun _ h => .inl h⟩

lemma Quiet.erase (s : CChainState) (p : Nat) : Quiet s (s.eraseCandidate p) :=
  ⟨.refl _, rfl, rfl, rfl, rfl, fun _ h => .inl (List.mem_filter.mp h).1⟩

lemma Quiet.insert (s : CChainState) (p : Nat) (hp : s.nChainTx p ≠ 0) :
    Quiet s (s.insertCandidate p) := by
  refine ⟨.refl _, rfl, rfl, rfl, rfl, fun c hc => ?_⟩
  rcases List.mem_insert_iff.mp hc with rfl | hmem
  · exact .inr hp
  · exact .inl hmem

lemma lineage_congr {blocks' : List IndexEntry}
    (h : ∀ p : Nat, (blocks'[p]?).map IndexEntry.pprev = (blocks[p]?).map IndexEntry.pprev)
    (n : Nat) (p : Option Nat) : lineage blocks' n p = lineage blocks n p := by
  induction n generalizing p with
  | zero => rfl
  | succ n ih =>
    cases p with
    | none => rfl
    | some p =>
      have hp := h p
      cases he : blocks[p]? with
      | none =>
        rw [he, Option.map_none, Option.map_eq_none_iff] at hp
        simp only [lineage, he, hp]
      | some e =>
        rw [he, Option.map_some, Option.map_eq_some_iff] at hp
        obtain ⟨e', he', hprev⟩ := hp
        simp only [lineage, he, he', hprev, ih]

lemma lineage_self {p : Nat} (he : blocks[p]? = some e) (hself : e.pprev = some p) (n x : Nat)
    (hx : x ∈ lineage blocks n (some p)) : x = p := by
  induction n with
  | zero => exact absurd hx List.not_mem_nil
  | succ n ih =>
    simp only [lineage, he, hself, List.mem_cons] at hx
    rcases hx with rfl | hrest
    · rfl
    · exact ih hrest

lemma lineage_closed (hi : Indexed i) (n p x q : Nat) (hn : p < n)
    (hx : x ∈ lineage i.blocks n (some p)) (hq : Parent (views i) x q) :
    q ∈ lineage i.blocks n (some p) := by
  obtain ⟨v, hv, hprev⟩ := hq
  obtain ⟨e, he, rfl⟩ := Option.map_eq_some_iff.mp hv
  have hhead : ∀ (r m : Nat), r ≤ x → r < m → r ∈ lineage i.blocks m (some r) := by
    intro r m hr hm
    obtain ⟨m, rfl⟩ : ∃ k, m = k + 1 := ⟨m - 1, by omega⟩
    have hlt : r < i.blocks.length := hr.trans_lt (List.getElem?_eq_some_iff.mp he).1
    simp only [lineage, List.getElem?_eq_getElem hlt, List.mem_cons_self]
  induction n generalizing p with
  | zero => omega
  | succ n ih =>
    cases hp : i.blocks[p]? with
    | none =>
      simp only [lineage, hp] at hx
      exact absurd hx List.not_mem_nil
    | some f =>
      simp only [lineage, hp, List.mem_cons] at hx ⊢
      rcases hx with rfl | hrest
      · cases hp.symm.trans he
        have hle := hi.older x e q he hprev
        rcases Nat.lt_or_ge q x with hlt | hge
        · right
          rw [show e.pprev = some q from hprev]
          exact hhead q n hle (by omega)
        · exact .inl (by omega)
      · cases hf : f.pprev with
        | none =>
          rw [hf] at hrest
          cases n <;> exact absurd hrest List.not_mem_nil
        | some r =>
          rw [hf] at hrest
          have hle := hi.older p f r hp hf
          rcases Nat.lt_or_ge r p with hlt | hge
          · exact .inr (ih r (by omega) hrest)
          · -- a block that is its own parent
            have hrp : r = p := by omega
            subst hrp
            have hxr := lineage_self hp hf n x hrest
            subst hxr
            cases hp.symm.trans he
            left
            exact Option.some.inj (hprev.symm.trans hf)

lemma activeChain_closed (hi : Indexed s.index) {x q : Nat} (hx : x ∈ activeChain s)
    (hq : Descends (views s.index) x q) : q ∈ activeChain s := by
  induction hq with
  | refl => exact hx
  | tail _ hstep ih =>
    unfold activeChain at ih ⊢
    split at ih
    · exact absurd ih List.not_mem_nil
    · exact lineage_closed hi _ _ _ _ (Nat.lt_succ_self _) ih hstep

/-- Every block from `p` on that is not in the active chain has its data and has not failed. -/
def Usable (s : CChainState) (p : Nat) : Prop :=
  ∀ q, Descends (views s.index) p q → q ∉ activeChain s →
    ∃ e, s.index.blocks[q]? = some e ∧ e.haveData = true ∧ e.failed = false

lemma entry_of_view {p : Nat} {v : LinkView} (hv : views i p = some v) :
    ∃ e, i.blocks[p]? = some e ∧ linkView e = v := Option.map_eq_some_iff.mp hv

lemma testChain_step {p n : Nat} (he : s.index.blocks[p]? = some e) (hdata : e.haveData = true)
    (hp : s.nChainTx p ≠ 0) (hactive : p ∉ activeChain s) :
    testChain s (n + 1) (some p) = if e.failed then .ok (some p) else testChain s n e.pprev := by
  simp only [testChain, hactive, if_false, CChainState.entry, he, orReject, ok_bind, rejectIf, hp,
    false_and, hdata, Bool.not_true, Bool.or_false]
  rfl

lemma usable_of_active (h : Good lost s) {p : Nat} (hactive : p ∈ activeChain s) : Usable s p :=
  fun _ hq hnot => absurd (activeChain_closed h.index hactive hq) hnot

lemma testChain_spec (h : Good lost s) {p m : Nat} (hr : Received (views s.index) p m) (n : Nat)
    (hp : s.nChainTx p ≠ 0) (hn : p < n) : (testChain s n (some p) = .ok none ∧ Usable s p) ∨
    ∃ q e, testChain s n (some p) = .ok (some q) ∧ Descends (views s.index) p q ∧
      q ∉ activeChain s ∧ s.index.blocks[q]? = some e ∧ e.failed = true := by
  induction hr generalizing n with
  | @first p v hv hdata hfirst =>
    obtain ⟨n, rfl⟩ : ∃ k, n = k + 1 := ⟨n - 1, by omega⟩
    by_cases hactive : p ∈ activeChain s
    · exact .inl ⟨by simp only [testChain, hactive, if_true], usable_of_active h hactive⟩
    obtain ⟨e, he, rfl⟩ := entry_of_view hv
    have hfirst : e.pprev = none := hfirst
    rw [testChain_step he hdata hp hactive, hfirst]
    cases hfailed : e.failed with
    | true => exact .inr ⟨p, e, rfl, .refl, hactive, he, hfailed⟩
    | false =>
      refine .inl ⟨by cases n <;> rfl, fun q hq _ => ?_⟩
      rcases ReflTransGen.cases_head hq with rfl | ⟨r, ⟨w, hw, hprev⟩, -⟩
      · exact ⟨e, he, hdata, hfailed⟩
      · cases hv.symm.trans hw
        cases hfirst.symm.trans hprev
  | @next p q m v hv hdata hprev hq ih =>
    obtain ⟨n, rfl⟩ : ∃ k, n = k + 1 := ⟨n - 1, by omega⟩
    by_cases hactive : p ∈ activeChain s
    · exact .inl ⟨by simp only [testChain, hactive, if_true], usable_of_active h hactive⟩
    have hstep : Parent (views s.index) p q := ⟨v, hv, hprev⟩
    have hne : q ≠ p := (Received.next hv hdata hprev hq).parent_ne hstep
    obtain ⟨e, he, rfl⟩ := entry_of_view hv
    have hprev : e.pprev = some q := hprev
    have hle := h.index.older p e q he hprev
    rw [testChain_step he hdata hp hactive, hprev]
    cases hfailed : e.failed with
    | true => exact .inr ⟨p, e, rfl, .refl, hactive, he, hfailed⟩
    | false =>
      rcases ih n (h.links.parent p q hp hstep) (by omega) with ⟨hrun, huse⟩ | ⟨r, f,
        hrun, hr, hrest⟩
      · refine .inl ⟨hrun, fun r hr hnot => ?_⟩
        rcases ReflTransGen.cases_head hr with rfl | ⟨r', hstep', hr'⟩
        · exact ⟨e, he, hdata, hfailed⟩
        · cases Parent.unique hstep hstep'
          exact huse r hr' hnot
      · exact .inr ⟨r, f, hrun, .head hstep hr, hrest⟩

/-- What `FindMostWorkChain` does on a failed branch: the descendants of `q` are marked and
dropped. -/
structure Dropped (s t : CChainState) (p q : Nat) : Prop where
  quiet : Quiet s t
  tip : t.index.tip = s.index.tip
  views : views t.index = views s.index
  sublist : t.setBlockIndexCandidates.Sublist s.setBlockIndexCandidates
  gone : p ∉ t.setBlockIndexCandidates
  only : ∀ c ∈ s.setBlockIndexCandidates, c ∉ t.setBlockIndexCandidates →
    Descends (LinkedBlocks.views s.index) c q
  entry : ∀ (x : Nat) e', t.index.blocks[x]? = some e' → ∃ e, s.index.blocks[x]? = some e ∧
    e'.haveData = e.haveData ∧ e'.nChainWork = e.nChainWork ∧
    (e'.failed = e.failed ∨ (e'.failed = true ∧ Descends (LinkedBlocks.views s.index) x q))

lemma Dropped.here (s : CChainState) (p : Nat) : Dropped s (s.eraseCandidate p) p p where
  quiet := .erase s p
  tip := rfl
  views := rfl
  sublist := List.filter_sublist
  gone h := of_decide_eq_true (List.mem_filter.mp h).2 rfl
  only c hc hnot := by
    by_cases hcp : c = p
    · exact hcp ▸ .refl
    · exact absurd (List.mem_filter.mpr ⟨hc, decide_eq_true hcp⟩) hnot
  entry x e he := ⟨e, he, rfl, rfl, .inl rfl⟩

def markChild (duplicateStake : Bool) (e : IndexEntry) : IndexEntry :=
  { e with failedChild := true, duplicateStake := e.duplicateStake || duplicateStake }

lemma Dropped.mark (s : CChainState) (duplicateStake : Bool) {p q : Nat}
    (hq : Descends (LinkedBlocks.views s.index) p q) :
    Dropped s ((s.update p (markChild duplicateStake)).eraseCandidate p) p q := by
  have hmark : ∀ e, linkView (markChild duplicateStake e) = linkView e ∧
      e.nValid ≤ (markChild duplicateStake e).nValid := fun _ => ⟨rfl, le_rfl⟩
  refine ⟨(Quiet.update s p _ hmark).trans (.erase _ p), rfl,
    views_update_same s.index p _ fun e => (hmark e).1, List.filter_sublist,
    fun h => of_decide_eq_true (List.mem_filter.mp h).2 rfl, fun c hc hnot => ?_,
    fun x e' he' => ?_⟩
  · by_cases hcp : c = p
    · exact hcp ▸ hq
    · exact absurd (List.mem_filter.mpr ⟨hc, decide_eq_true hcp⟩) hnot
  · obtain ⟨e, he, hcase⟩ := IndexChanges.update_get s.index p _ x e' he'
    refine ⟨e, he, ?_⟩
    rcases hcase with ⟨rfl, rfl⟩ | ⟨-, rfl⟩
    · exact ⟨rfl, rfl, .inr ⟨Bool.or_true _, hq⟩⟩
    · exact ⟨rfl, rfl, .inl rfl⟩

lemma Dropped.then {p q r : Nat} (h : Dropped s t p q) (h' : Dropped t u r q) :
    Dropped s u p q where
  quiet := h.quiet.trans h'.quiet
  tip := h'.tip.trans h.tip
  views := h'.views.trans h.views
  sublist := h'.sublist.trans h.sublist
  gone hmem := h.gone (h'.sublist.subset hmem)
  only c hc hnot := by
    by_cases hmem : c ∈ t.setBlockIndexCandidates
    · rw [← h.views]
      exact h'.only c hmem hnot
    · exact h.only c hc hmem
  entry x e' he' := by
    obtain ⟨f, hf, hdata', hwork', hfailed'⟩ := h'.entry x e' he'
    obtain ⟨e, he, hdata, hwork, hfailed⟩ := h.entry x f hf
    refine ⟨e, he, hdata'.trans hdata, hwork'.trans hwork, ?_⟩
    rw [h.views] at hfailed'
    rcases hfailed' with hsame | hnew
    · rw [hsame]
      exact hfailed
    · exact .inr hnew

lemma dropBranch_spec (duplicateStake : Bool) {view : Nat → Option LinkView} {p m q : Nat}
    (hr : Received view p m) (hview : views s.index = view) (hi : Indexed s.index)
    (hq : Descends view p q) (n : Nat) (hn : p < n) :
    ∃ t, dropBranch true duplicateStake q n p s = .ok t ∧ Dropped s t p q := by
  induction hr generalizing n s with
  | @first p v hv hdata hfirst =>
    obtain ⟨n, rfl⟩ : ∃ k, n = k + 1 := ⟨n - 1, by omega⟩
    rcases ReflTransGen.cases_head hq with rfl | ⟨r, ⟨w, hw, hprev⟩, -⟩
    · exact ⟨_, by simp only [dropBranch, if_true], .here s p⟩
    · cases hv.symm.trans hw
      cases hfirst.symm.trans hprev
  | @next p r m v hv hdata hprev hrec ih =>
    obtain ⟨n, rfl⟩ : ∃ k, n = k + 1 := ⟨n - 1, by omega⟩
    by_cases hpq : p = q
    · subst hpq
      exact ⟨_, by simp only [dropBranch, if_true], .here s p⟩
    have hstep : Parent view p r := ⟨v, hv, hprev⟩
    have hne : r ≠ p := (Received.next hv hdata hprev hrec).parent_ne hstep
    have hrest : Descends view r q := by
      rcases ReflTransGen.cases_head hq with rfl | ⟨r', hstep', hr'⟩
      · exact absurd rfl hpq
      · cases Parent.unique hstep hstep'
        exact hr'
    rw [← hview] at hv
    obtain ⟨e, he, rfl⟩ := entry_of_view hv
    have hprev : e.pprev = some r := hprev
    have hle := hi.older p e r he hprev
    have hmark := Dropped.mark s duplicateStake (by rwa [hview] : Descends (views s.index) p q)
    obtain ⟨t, hrun, hdrop⟩ := ih (hmark.views.trans hview) (hmark.quiet.index.indexed hi) hrest n
      (by omega)
    refine ⟨t, ?_, hmark.then hdrop⟩
    simp only [dropBranch, hpq, if_false, CChainState.entry, he, orReject, ok_bind, hprev, if_true]
    exact hrun

lemma Dropped.usable_iff {p q : Nat} {f : IndexEntry} (h : Dropped s t p q) (hq : q ∉ activeChain s)
    (hf : s.index.blocks[q]? = some f) (hfailed : f.failed = true) (c : Nat) :
    Usable t c ↔ Usable s c := by
  have hactive : activeChain t = activeChain s := by
    unfold activeChain
    rw [h.tip]
    split
    · rfl
    · refine lineage_congr (fun x => ?_) _ _
      have hsame := congrArg (Option.map LinkView.pprev) (congrFun h.views x)
      simp only [LinkedBlocks.views, Option.map_map] at hsame
      exact hsame
  have hbad : ∀ x, Descends (LinkedBlocks.views s.index) x q → ¬ Usable s x := by
    intro x hx huse
    obtain ⟨e, he, -, hok⟩ := huse q hx hq
    cases hf.symm.trans he
    exact absurd (hfailed.symm.trans hok) Bool.true_eq_false.mp
  constructor
  · intro huse x hx hnot
    rw [← h.views] at hx
    obtain ⟨e', he', hdata', hok'⟩ := huse x hx (by rwa [hactive])
    obtain ⟨e, he, hdata, -, hcase⟩ := h.entry x e' he'
    refine ⟨e, he, hdata ▸ hdata', ?_⟩
    rcases hcase with hsame | ⟨hnew, -⟩
    · exact hsame ▸ hok'
    · exact absurd (hnew.symm.trans hok') Bool.true_eq_false.mp
  · intro huse x hx hnot
    rw [h.views] at hx
    rw [hactive] at hnot
    obtain ⟨e, he, hdata, hok⟩ := huse x hx hnot
    obtain ⟨w, hw⟩ : ∃ w, LinkedBlocks.views t.index x = some w := by
      rw [h.views, LinkedBlocks.views, he]
      exact ⟨_, rfl⟩
    obtain ⟨e', he', -⟩ := entry_of_view hw
    obtain ⟨e'', he'', hdata', -, hcase⟩ := h.entry x e' he'
    cases he.symm.trans he''
    refine ⟨e', he', hdata'.trans hdata, ?_⟩
    rcases hcase with hsame | ⟨-, hdesc⟩
    · exact hsame.trans hok
    · exact absurd huse (hbad c (hx.trans hdesc))

variable (addr : Nat → Nat)
variable (p n : Nat) {r : Option Nat}

lemma comesBefore_iff (s : CChainState) (a b : Nat) :
    comesBefore addr s a b = true ↔ s.nChainWork a < s.nChainWork b ∨
      (s.nChainWork a = s.nChainWork b ∧ (s.nSequenceId b < s.nSequenceId a ∨
        (s.nSequenceId a = s.nSequenceId b ∧ addr b < addr a))) := by
  unfold comesBefore
  split
  · rename_i h
    simp only [Bool.false_eq_true, false_iff]
    bv_omega
  · split
    · rename_i h
      simp only [true_iff]
      exact .inl h
    · have hwork : s.nChainWork a = s.nChainWork b := by bv_omega
      simp only [hwork, BitVec.lt_irrefl, false_or, true_and]
      split
      · simp only [Bool.false_eq_true, false_iff]
        omega
      · split
        · simp only [true_iff]
          omega
        · rw [decide_eq_true_eq]
          omega

lemma comesBefore_trans {s : CChainState} {a b c : Nat} (hab : comesBefore addr s a b = true)
    (hbc : comesBefore addr s b c = true) : comesBefore addr s a c = true := by
  rw [comesBefore_iff] at hab hbc ⊢
  bv_omega

lemma comesBefore_or {s : CChainState} {a c : Nat} (hac : comesBefore addr s a c = true) (b : Nat) :
    comesBefore addr s a b = true ∨ comesBefore addr s b c = true := by
  rw [comesBefore_iff] at hac ⊢
  rw [comesBefore_iff]
  bv_omega

lemma comesBefore_self (s : CChainState) (a : Nat) : comesBefore addr s a a = false := by
  rw [Bool.eq_false_iff, ne_eq, comesBefore_iff]
  simp

def better (s : CChainState) (best : Option Nat) (c : Nat) : Option Nat :=
  match best with
  | none => some c
  | some b => if comesBefore addr s b c then some c else some b

lemma foldl_better (s : CChainState) (cs : List Nat) (b : Nat) :
    ∃ p, cs.foldl (better addr s) (some b) = some p ∧ p ∈ b :: cs ∧
      ∀ c ∈ b :: cs, comesBefore addr s p c = false := by
  induction cs generalizing b with
  | nil =>
    refine ⟨b, rfl, List.mem_cons_self, fun c hc => ?_⟩
    cases List.mem_singleton.mp hc
    exact comesBefore_self addr s b
  | cons c cs ih =>
    have hstep : better addr s (some b) c = some (if comesBefore addr s b c then c else b) := by
      unfold better
      dsimp only
      split <;> rfl
    obtain ⟨p, hp, hmem, hbest⟩ := ih (if comesBefore addr s b c then c else b)
    refine ⟨p, by rw [List.foldl_cons, hstep, hp], ?_, ?_⟩
    · rcases List.mem_cons.mp hmem with rfl | hrest
      · split
        · exact List.mem_cons_of_mem b List.mem_cons_self
        · exact List.mem_cons_self
      · exact List.mem_cons_of_mem b (List.mem_cons_of_mem c hrest)
    · -- the one that was passed over is worse than the one that was kept
      have hkept := hbest _ List.mem_cons_self
      have hpair : comesBefore addr s p b = false ∧ comesBefore addr s p c = false := by
        by_cases hbc : comesBefore addr s b c = true
        · rw [if_pos hbc] at hkept
          refine ⟨Bool.eq_false_iff.mpr fun hpb => ?_, hkept⟩
          exact absurd (comesBefore_trans addr hpb hbc) (Bool.eq_false_iff.mp hkept)
        · rw [if_neg hbc] at hkept
          refine ⟨hkept, Bool.eq_false_iff.mpr fun hpc => ?_⟩
          rcases comesBefore_or addr hpc b with hpb | hbc'
          · exact absurd hpb (Bool.eq_false_iff.mp hkept)
          · exact hbc hbc'
      intro x hx
      rcases List.mem_cons.mp hx with rfl | hx
      · exact hpair.1
      · rcases List.mem_cons.mp hx with rfl | hx
        · exact hpair.2
        · exact hbest x (List.mem_cons_of_mem _ hx)

lemma lastCandidate_spec (s : CChainState) :
    (lastCandidate addr s = none ∧ s.setBlockIndexCandidates = []) ∨
    ∃ p, lastCandidate addr s = some p ∧ p ∈ s.setBlockIndexCandidates ∧
      ∀ c ∈ s.setBlockIndexCandidates, comesBefore addr s p c = false := by
  have hfold : lastCandidate addr s = s.setBlockIndexCandidates.foldl (better addr s) none := rfl
  rw [hfold]
  cases s.setBlockIndexCandidates with
  | nil => exact .inl ⟨rfl, rfl⟩
  | cons b cs => exact .inr (foldl_better addr s cs b)

/-- `r` is the usable candidate with the most work, and of those the one that was linked first; it
is nothing when no candidate is usable. -/
def MostWork (s : CChainState) : Option Nat → Prop
  | none => ∀ c ∈ s.setBlockIndexCandidates, ¬ Usable s c
  | some p => p ∈ s.setBlockIndexCandidates ∧ Usable s p ∧
      ∀ c ∈ s.setBlockIndexCandidates, Usable s c → c ≠ p → s.nChainWork c < s.nChainWork p ∨
        (s.nChainWork c = s.nChainWork p ∧ s.nSequenceId p < s.nSequenceId c)

lemma Good.beats (h : Good lost s) {p c : Nat} (hp : p ∈ s.setBlockIndexCandidates)
    (hc : c ∈ s.setBlockIndexCandidates) (hne : c ≠ p) (hnot : comesBefore addr s p c = false) :
    s.nChainWork c < s.nChainWork p ∨
      (s.nChainWork c = s.nChainWork p ∧ s.nSequenceId p < s.nSequenceId c) := by
  have hids : s.nSequenceId c ≠ s.nSequenceId p := fun heq =>
    hne (h.links.distinct c p (h.links.candidate c hc) (h.links.candidate p hp) heq)
  rw [Bool.eq_false_iff, ne_eq, comesBefore_iff] at hnot
  bv_omega

lemma Dropped.nChainWork {p q : Nat} (h : Dropped s t p q) (c : Nat) :
    t.nChainWork c = s.nChainWork c := by
  unfold CChainState.nChainWork
  cases he' : t.index.blocks[c]? with
  | none =>
    have hviews := congrFun h.views c
    rw [LinkedBlocks.views, he', Option.map_none, eq_comm, LinkedBlocks.views,
      Option.map_eq_none_iff] at hviews
    rw [hviews]
  | some e' =>
    obtain ⟨e, he, -, hwork, -⟩ := h.entry c e' he'
    rw [he, Option.map_some, Option.map_some, hwork]

lemma Dropped.mostWork {p q : Nat} {f : IndexEntry} (h : Dropped s t p q) (hq : q ∉ activeChain s)
    (hf : s.index.blocks[q]? = some f) (hfailed : f.failed = true) (hr : MostWork t r) :
    MostWork s r := by
  have huse := h.usable_iff hq hf hfailed
  have hkeep : ∀ c ∈ s.setBlockIndexCandidates, Usable s c → c ∈ t.setBlockIndexCandidates := by
    intro c hc hcuse
    by_contra hnot
    obtain ⟨e, he, -, hok⟩ := hcuse q (h.only c hc hnot) hq
    cases hf.symm.trans he
    exact absurd (hfailed.symm.trans hok) Bool.true_eq_false.mp
  cases r with
  | none =>
    intro c hc hcuse
    exact hr c (hkeep c hc hcuse) ((huse c).mpr hcuse)
  | some b =>
    obtain ⟨hb, hbuse, hbest⟩ := hr
    refine ⟨h.sublist.subset hb, (huse b).mp hbuse, fun c hc hcuse hne => ?_⟩
    have := hbest c (hkeep c hc hcuse) ((huse c).mpr hcuse) hne
    rwa [h.nChainWork, h.nChainWork, h.quiet.sequence] at this

/-- `FindMostWorkChain` ends, with the most work it may return. -/
lemma findMostWork_spec (h : Good lost s) (hn : s.setBlockIndexCandidates.length < n) :
    ∃ r t, findMostWork addr n s = .ok (r, t) ∧ Quiet s t ∧ MostWork s r := by
  induction n generalizing s with
  | zero => omega
  | succ n ih =>
    rcases lastCandidate_spec addr s with ⟨hnone, hempty⟩ | ⟨p, hlast, hmem, hbest⟩
    · refine ⟨none, s, by simp only [findMostWork, hnone], .refl s, fun c hc => ?_⟩
      rw [hempty] at hc
      exact absurd hc List.not_mem_nil
    · have hp := h.links.candidate p hmem
      obtain ⟨m, hr, -⟩ := h.links.linked p hp
      rcases testChain_spec h hr (p + 1) hp (Nat.lt_succ_self p) with
        ⟨htest, huse⟩ | ⟨q, f, htest, hq, hnot, hf, hfailed⟩
      · refine ⟨some p, s, ?_, .refl s, hmem, huse, fun c hc _ hne => ?_⟩
        · simp only [findMostWork, hlast, htest, ok_bind]
          rfl
        · exact h.beats addr hmem hc hne (hbest c hc)
      · obtain ⟨t, hdrop, hdropped⟩ := dropBranch_spec f.duplicateStake hr rfl h.index hq (p + 1)
          (Nat.lt_succ_self p)
        have hlen : t.setBlockIndexCandidates.length < n := by
          have hlt : t.setBlockIndexCandidates.length < s.setBlockIndexCandidates.length := by
            refine lt_of_le_of_ne hdropped.sublist.length_le fun heq => hdropped.gone ?_
            rwa [hdropped.sublist.eq_of_length heq]
          omega
        obtain ⟨r, u, hrun, hquiet, hmost⟩ := ih (h.quiet hdropped.quiet) hlen
        refine ⟨r, u, ?_, hdropped.quiet.trans hquiet, hdropped.mostWork hnot hf hfailed hmost⟩
        simp only [findMostWork, hlast, htest, ok_bind, CChainState.entry, hf, orReject,
          hfailed, hdrop]
        exact hrun

lemma dropBranch_views (failed duplicateStake : Bool) (q n p : Nat)
    (h : dropBranch failed duplicateStake q n p s = .ok t) : views t.index = views s.index := by
  induction n generalizing p s with
  | zero =>
    unfold dropBranch at h
    split at h
    · cases h
      rfl
    · cases h
  | succ n ih =>
    unfold dropBranch at h
    split at h
    · cases h
      rfl
    · simp only [bind_ok_iff] at h
      obtain ⟨e, -, r, -, hrest⟩ := h
      refine (ih r hrest).trans ?_
      split
      · exact views_update_same s.index p _ fun _ => rfl
      · rfl

lemma findMostWork_views (h : findMostWork addr n s = .ok (r, t)) :
    views t.index = views s.index := by
  induction n generalizing s with
  | zero => cases h
  | succ n ih =>
    unfold findMostWork at h
    split at h
    · cases h
      rfl
    · simp only [bind_ok_iff] at h
      obtain ⟨bad, -, hrest⟩ := h
      cases bad with
      | none =>
        cases hrest
        rfl
      | some q =>
        simp only [bind_ok_iff] at hrest
        obtain ⟨e, -, u, hdrop, hloop⟩ := hrest
        exact (ih hloop).trans (dropBranch_views _ _ _ _ _ hdrop)

lemma dropBranch_quiet (duplicateStake : Bool) (q n p : Nat)
    (h : dropBranch true duplicateStake q n p s = .ok t) : Quiet s t := by
  induction n generalizing p s with
  | zero =>
    unfold dropBranch at h
    split at h
    · cases h
      exact .erase s p
    · cases h
  | succ n ih =>
    unfold dropBranch at h
    split at h
    · cases h
      exact .erase s p
    · simp only [bind_ok_iff] at h
      obtain ⟨e, -, r, -, hrest⟩ := h
      refine (Quiet.trans ?_ (.erase _ p)).trans (ih r hrest)
      exact .update s p _ fun _ => ⟨rfl, le_rfl⟩

lemma foldl_insertCandidate_quiet (ps : List Nat) (h : ∀ p ∈ ps, s.nChainTx p ≠ 0) :
    Quiet s (ps.foldl CChainState.insertCandidate s) := by
  induction ps generalizing s with
  | nil => exact .refl s
  | cons p ps ih =>
    refine (Quiet.insert s p (h p List.mem_cons_self)).trans ?_
    exact ih fun q hq => h q (List.mem_cons_of_mem p hq)

lemma leaveChain_quiet (h : leaveChain p s = .ok t) : Quiet s t := by
  simp only [leaveChain, bind_ok_iff] at h
  obtain ⟨e, -, h⟩ := h
  split at h
  · simp only [bind_ok_iff] at h
    obtain ⟨tip, -, hdrop⟩ := h
    exact (Quiet.setTip s _).trans (dropBranch_quiet false p _ _ hdrop)
  · cases h
    exact .erase s p

lemma Quiet.markInvalid (s : CChainState) (p : Nat) : Quiet s (markInvalid p s) := by
  have hmark := Grown.mark s.index p (fun e => { e with failedValid := true }) fun _ =>
    ⟨rfl, le_rfl⟩
  refine ⟨hmark.trans ?_, rfl, rfl, rfl, rfl, fun _ h => .inl h⟩
  exact ⟨.of_views rfl, fun h => ⟨h.older, h.tree, h.keyed⟩⟩

lemma invalidateBlock_quiet (h : invalidateBlock addr p s = .ok t) : Quiet s t := by
  simp only [invalidateBlock, bind_ok_iff, pure_ok_iff] at h
  obtain ⟨u, hu, -, -, rfl⟩ := h
  refine ((leaveChain_quiet p hu).trans (.markInvalid u p)).trans
    (foldl_insertCandidate_quiet _ fun q hq => ?_)
  have heligible := (List.mem_filter.mp hq).2
  unfold eligible at heligible
  split at heligible
  · cases heligible
  · simp only [Bool.and_eq_true, decide_eq_true_eq] at heligible
    exact heligible.1.2

lemma prune_quiet (h : pruneBlockIndexCandidates addr s = .ok t) : Quiet s t := by
  simp only [pruneBlockIndexCandidates, bind_ok_iff, pure_ok_iff] at h
  obtain ⟨tip, -, -, -, rfl⟩ := h
  exact ⟨.refl _, rfl, rfl, rfl, rfl, fun c hc => .inl (List.mem_filter.mp hc).1⟩

lemma onIndex_quiet {α : Type} {x : IndexCall α} (h : Moves Grown x) : Moves Quiet (onIndex x) := by
  intro s
  have hs := h s.index
  unfold Wp at hs ⊢
  unfold onIndex
  cases hx : x s.index with
  | mk r i =>
    rw [hx] at hs
    cases r with
    | ok a => exact .single ⟨.of_steps hs, rfl, rfl, rfl, rfl, fun _ h => .inl h⟩
    | error e => exact .single ⟨.of_steps hs, rfl, rfl, rfl, rfl, fun _ h => .inl h⟩

lemma change_quiet {f : CChainState → Verdict CChainState} (h : ∀ s t, f s = .ok t → Quiet s t) :
    Moves Quiet (change f) := by
  intro s
  rw [wp_change]
  exact ⟨fun t ht => .single (h s t ht), fun _ _ => .refl⟩

lemma invalidBlockFound_quiet (reject : Reject) :
    Moves Quiet (Candidates.invalidBlockFound p reject) := by
  refine moves_bind (onIndex_quiet (invalidBlockFound_grows p reject)) fun _ => ?_
  exact moves_ite (moves_pure _) (moves_write fun s => .erase s p)

lemma connectTip_quiet (result : Verdict Unit) : Moves Quiet (connectTip addr p result) := by
  refine moves_bind moves_read fun s => moves_bind (moves_lift _) fun e => ?_
  refine moves_bind (moves_lift _) fun _ => moves_bind (moves_lift _) fun _ => ?_
  cases result with
  | ok _ =>
    refine moves_bind (moves_write fun s => ?_) fun _ => change_quiet fun s t => prune_quiet addr
    refine (Quiet.update s p _ fun e => ?_).trans (.setTip _ _)
    obtain ⟨hview, hvalid, -⟩ := raiseValidity_linkView e BLOCK_VALID_SCRIPTS
    exact ⟨hview, hvalid⟩
  | error reject =>
    refine moves_ite ?_ (moves_fail reject)
    exact moves_bind (invalidBlockFound_quiet p reject) fun _ => moves_fail reject

lemma disconnectTip_quiet (s t : CChainState) (h : Candidates.disconnectTip s = .ok t) :
    Quiet s t := by
  simp only [Candidates.disconnectTip, bind_ok_iff, pure_ok_iff] at h
  obtain ⟨p, -, e, -, rfl⟩ := h
  exact .setTip s _

/-- A quiet step, and then the data of a block that had none. -/
def Arrives (s t : CChainState) : Prop :=
  ∃ u nTx p e, Quiet s u ∧ u.index.blocks[p]? = some e ∧ e.haveData = false ∧
    receivedBlockTransactions addr nTx p u = .ok t

variable {addr} {E : Env} {H : HeaderParams}
variable (a : Arrival) {event : Event}

lemma acceptBlock_spec (s : CChainState) :
    Wp (Candidates.acceptBlock addr E H a) (fun _ t => Quiet s t ∨ Arrives addr s t)
      (fun _ t => Quiet s t) s := by
  simp only [Candidates.acceptBlock, wp_bind]
  refine wp_mono (onIndex_quiet (acceptBlockHeader_grows (E := withProcess E a.process) H
    ⟨false, true, true⟩ a.header) s) ?_ fun _ _ h => .of_steps h
  intro p u hu
  have hsu := Quiet.of_steps hu
  simp only [wp_read, wp_lift]
  refine ⟨fun e he => ?_, fun _ _ => hsu⟩
  rw [CChainState.entry, orReject_ok_iff] at he
  by_cases hskip : (e.haveData || !a.wanted) = true
  · rw [if_pos hskip]
    exact .inl hsu
  · rw [if_neg hskip]
    have hnone : e.haveData = false := by
      rw [Bool.or_eq_true, not_or, Bool.not_eq_true] at hskip
      exact hskip.1
    cases a.checkContext with
    | error reject =>
      dsimp only
      split
      · simp only [wp_bind, wp_write, wp_fail]
        exact hsu.trans (.update u p _ fun e => ⟨rfl, le_rfl⟩)
      · exact hsu
    | ok _ =>
      rw [wp_change]
      exact ⟨fun t ht => .inr ⟨u, a.nTx, p, e, hsu, he, hnone, ht⟩, fun _ _ => hsu⟩

lemma processNewBlock_spec (s : CChainState) :
    Wp (Candidates.processNewBlock addr E H a) (fun _ t => Quiet s t ∨ Arrives addr s t)
      (fun _ t => Quiet s t) s := by
  simp only [Candidates.processNewBlock, wp_bind, wp_attempt, wp_lift]
  have hreject : ∀ reject t, Quiet s t → Wp (do
      let p ← onIndex (addToBlockIndex E a.header)
      Candidates.invalidBlockFound p reject
      fail reject : ChainCall Unit) (fun _ t => Quiet s t ∨ Arrives addr s t)
        (fun _ t => Quiet s t) t := by
    intro reject t hst
    have hmoves : Moves Quiet (do
        let p ← onIndex (addToBlockIndex E a.header)
        Candidates.invalidBlockFound p reject
        fail reject : ChainCall Unit) :=
      moves_bind (onIndex_quiet (addToBlockIndex_grows a.header)) fun p =>
        moves_bind (invalidBlockFound_quiet p reject) fun _ => moves_fail reject
    exact wp_mono (hmoves t) (fun _ _ h => .inl (hst.trans (.of_steps h)))
      fun _ _ h => hst.trans (.of_steps h)
  refine ⟨fun _ _ => wp_mono (acceptBlock_spec a s) (fun _ _ h => h) ?_, ?_⟩
  · intro reject t hst
    cases reject with
    | throws what => exact hst
    | dos n code reason corruption => exact hreject _ t hst
    | error what => exact hreject _ t hst
  · intro reject _
    cases reject with
    | throws what => exact .refl s
    | dos n code reason corruption => exact hreject _ s (.refl s)
    | error what => exact hreject _ s (.refl s)

/-- An event leaves the links alone, brings the transactions of one block, or looks for the best
chain. -/
lemma step_cases (h : step addr E H s event = .ok t) :
    Quiet s t ∨ Arrives addr s t ∨ ∃ r, findMostWorkChain addr s = .ok (r, t) := by
  -- every outcome of the call that does not end the run
  have hout : ∀ Q : CChainState → Prop,
      Wp (eventCall addr E H event) (fun _ t => Q t) (fun _ t => Q t) s → Q t := by
    intro Q hQ
    unfold Wp at hQ
    unfold step at h
    split at h
    · cases h
    · rename_i r u _ heq
      cases h
      rw [heq] at hQ
      cases r with
      | ok _ => exact hQ
      | error _ => exact hQ
  have hquiet : Moves Quiet (eventCall addr E H event) → Quiet s t := fun hmoves =>
    .of_steps (hout (ReflTransGen Quiet s) (hmoves s))
  cases event with
  | header process peer block =>
    left
    apply hquiet
    exact moves_bind (onIndex_quiet (acceptBlockHeader_grows H peer block)) fun _ => moves_pure _
  | block a =>
    apply hout fun t => Quiet s t ∨ Arrives addr s t ∨ ∃ r, findMostWorkChain addr s = .ok (r, t)
    refine wp_mono (processNewBlock_spec a s) (fun _ t ht => ?_) fun _ _ ht => .inl ht
    rcases ht with hst | harrives
    · exact .inl hst
    · exact .inr (.inl harrives)
  | invalidate p => exact .inl (hquiet (change_quiet fun s t => invalidateBlock_quiet addr p))
  | connect p result => exact .inl (hquiet (connectTip_quiet addr p result))
  | disconnect => exact .inl (hquiet (change_quiet disconnectTip_quiet))
  | find =>
    apply hout fun t => Quiet s t ∨ Arrives addr s t ∨ ∃ r, findMostWorkChain addr s = .ok (r, t)
    show Wp (change _) _ _ s
    rw [wp_change]
    refine ⟨fun t ht => ?_, fun _ _ => .inl (.refl s)⟩
    cases hfind : findMostWorkChain addr s with
    | error reject =>
      rw [hfind] at ht
      cases ht
    | ok r =>
      rw [hfind] at ht
      cases ht
      exact .inr (.inr ⟨r.1, rfl⟩)

lemma step_persists (h : step addr E H s event = .ok t) :
    Persists (views s.index) (views t.index) := by
  rcases step_cases h with hquiet | ⟨u, nTx, p, e, hsu, he, hnone, hrun⟩ | ⟨r, hfind⟩
  · exact hquiet.index.grows.persists
  · rw [receivedBlockTransactions_index addr hrun]
    exact hsu.index.grows.persists.trans (stores_storeData _ he hnone).persists
  · rw [findMostWork_views addr _ hfind]
    exact fun _ _ hv _ => hv

lemma run_persists {events : List Event} (h : loop (step addr E H) s events = .ok t) :
    Persists (views s.index) (views t.index) :=
  loop_induction (step addr E H) (fun u => Persists (views s.index) (views u.index)) events
    (fun _ _ _ _ hu hstep => hu.trans (step_persists hstep)) s t (fun _ _ hv _ => hv) h

lemma Good.afterStep (h : Good lost s) (hstep : step addr E H s event = .ok t)
    (hwrap : NoWrap (views t.index)) : Good (fun x => lost x ∨ OnFailed s t x) t := by
  have hsame : Quiet s t → Good (fun x => lost x ∨ OnFailed s t x) t := fun hquiet =>
    have hgood := h.quiet hquiet
    ⟨hgood.index, hgood.links.onFailed hquiet.index.grows.not_onFailed⟩
  rcases step_cases hstep with hquiet | ⟨u, nTx, p, e, hsu, he, hnone, hrun⟩ | ⟨r, hfind⟩
  · exact hsame hquiet
  · have hindex := receivedBlockTransactions_index addr hrun
    have hu := h.quiet hsu
    rw [hindex] at hwrap
    obtain ⟨t', hrun', -, hlinks⟩ := hu.links.receive addr hu.index he hnone hwrap
    cases hrun.symm.trans hrun'
    refine ⟨hindex ▸ hu.index.storeData, ?_⟩
    have heq : (fun x => lost x ∨ OnFailed s t x) = fun x => lost x ∨ OnFailed u t x := by
      funext x
      rw [OnFailed, OnFailed, hsu.hasData]
    rw [heq]
    exact hlinks
  · obtain ⟨r', t', hfind', hquiet, -⟩ := findMostWork_spec addr _ h (Nat.lt_succ_self _)
    cases hfind.symm.trans hfind'
    exact hsame hquiet

variable (addr E H)

/-- Somewhere in a run the transactions of `p` come in on a parent that has failed and is not
linked. -/
def CameOnFailed : CChainState → List Event → Nat → Prop
  | _, [], _ => False
  | s, event :: rest, p =>
    ∃ t, step addr E H s event = .ok t ∧ (OnFailed s t p ∨ CameOnFailed t rest p)

variable {addr E H}

/-- A run keeps the invariant. -/
lemma Good.afterRun {events : List Event} (h : Good lost s)
    (hrun : loop (step addr E H) s events = .ok t) (hwrap : NoWrap (views t.index)) :
    Good (fun x => lost x ∨ CameOnFailed addr E H s events x) t := by
  induction events generalizing s lost with
  | nil =>
    cases hrun
    simpa only [CameOnFailed, or_false] using h
  | cons event rest ih =>
    obtain ⟨u, hstep, hrest⟩ := (loop_cons_ok_iff _ _ _ _ _).mp hrun
    have hgood := ih (h.afterStep hstep (hwrap.of_persists (run_persists hrest))) hrest
    have heq : (fun x => lost x ∨ CameOnFailed addr E H s (event :: rest) x) =
        fun x => (lost x ∨ OnFailed s u x) ∨ CameOnFailed addr E H u rest x := by
      funext x
      rw [or_assoc, CameOnFailed]
      refine propext (or_congr_right ⟨?_, fun hx => ⟨u, hstep, hx⟩⟩)
      rintro ⟨u', hstep', hx⟩
      cases hstep.symm.trans hstep'
      exact hx
    rw [heq]
    exact hgood

def started (E : Env) (genesis : CBlock) : CChainState where
  index := IndexRuns.started E genesis
  nChainTx := Function.update (fun _ => 0) 0 (BitVec.ofNat 32 genesis.vtx.length)
  nSequenceId := Function.update (fun _ => 0) 0 1
  setBlockIndexCandidates := [0]
  mapBlocksUnlinked := []
  nBlockSequenceId := 2

lemma started_nChainTx (genesis : CBlock) (p : Nat) :
    (started E genesis).nChainTx p = if p = 0 then BitVec.ofNat 32 genesis.vtx.length else 0 := by
  simp [started, Function.update_apply]

lemma started_good (genesis : CBlock) (hwrap : NoWrap (views (started E genesis).index)) :
    Good (fun _ => False) (started E genesis) := by
  have hlast : ∀ p v, views (started E genesis).index p = some v →
      p = 0 ∧ v = ⟨none, true, genesis.vtx.length⟩ := by
    intro p v hv
    obtain ⟨e, he, rfl⟩ := entry_of_view hv
    obtain ⟨rfl, rfl⟩ := IndexRuns.started_entry E he
    exact ⟨rfl, rfl⟩
  have hroot : Received (views (started E genesis).index) 0 genesis.vtx.length :=
    .first (v := ⟨none, true, genesis.vtx.length⟩) rfl rfl rfl
  have hparent : ∀ p q, ¬ Parent (views (started E genesis).index) p q := by
    rintro p q ⟨v, hv, hprev⟩
    obtain ⟨-, rfl⟩ := hlast p v hv
    cases hprev
  have hzero : ∀ p, (started E genesis).nChainTx p ≠ 0 → p = 0 := by
    intro p hp
    by_contra hne
    rw [started_nChainTx, if_neg hne] at hp
    exact hp rfl
  have hself : (started E genesis).nChainTx 0 = BitVec.ofNat 32 genesis.vtx.length := by
    rw [started_nChainTx, if_pos rfl]
  have hlinked : (started E genesis).nChainTx 0 ≠ 0 := by
    rw [hself]
    exact ofNat_ne_zero_of_noWrap hwrap hroot
  refine ⟨indexed_started E genesis,
    ⟨⟨fun p hp => ?_, fun p q _ hq => absurd hq (hparent p q), fun c hc => ?_⟩, ?_, ?_⟩⟩
  · cases hzero p hp
    exact ⟨_, hroot, hself⟩
  · cases List.mem_singleton.mp hc
    exact hlinked
  · refine ⟨fun _ _ hmem => absurd hmem List.not_mem_nil,
      fun _ hmem => absurd hmem List.not_mem_nil, List.nodup_nil, fun p v hv _ _ hp => ?_,
      fun _ hlost => hlost.elim, fun _ _ hmem => absurd hmem List.not_mem_nil⟩
    cases (hlast p v hv).1
    exact absurd hp hlinked
  · refine ⟨fun p hp => ?_, fun p q hp hq _ => (hzero p hp).trans (hzero q hq).symm⟩
    cases hzero p hp
    show (1 : Int) < 2
    omega

/-- Whatever comes in, a block is linked exactly when its transactions and those of its ancestors
are there and none of these came in on a failed parent that was not linked; and
`FindMostWorkChain` returns the best usable candidate. -/
theorem bestChain_selected (addr : Nat → Nat) (E : Env) (H : HeaderParams) (genesis : CBlock)
    (events : List Event) (t : CChainState)
    (h : loop (step addr E H) (started E genesis) events = .ok t) (hwrap : NoWrap (views t.index)) :
    (∀ p, t.nChainTx p ≠ 0 ↔ (∃ n, Received (views t.index) p n) ∧
      ∀ q, Descends (views t.index) p q → ¬ CameOnFailed addr E H (started E genesis) events q) ∧
    ∃ r u, findMostWorkChain addr t = .ok (r, u) ∧ MostWork t r := by
  have hgood := (started_good genesis (hwrap.of_persists (run_persists h))).afterRun h hwrap
  constructor
  · intro p
    simpa only [false_or] using hgood.links.linked_iff p
  · obtain ⟨r, u, hfind, -, hmost⟩ := findMostWork_spec addr _ hgood (Nat.lt_succ_self _)
    exact ⟨r, u, hfind, hmost⟩

end

section

open ToyEnvironment IndexClosure

def grandchildHeader : CBlockHeader :=
  { toyHeader (headerHash toyEnv childHeader) 400 with nBits := 0x1f00f83d }

def announce (block : CBlockHeader) : Event := .header process ⟨true, true, true⟩ block

/-- During the initial download a block that comes before its parent is not delayed. -/
def downloading : Process := { process with isInitialBlockDownload := true }

def arrival (block : CBlockHeader) : Event :=
  .block ⟨downloading, block, 1, .ok (), true, .ok ()⟩

def badCopy (block : CBlockHeader) : Event :=
  .block ⟨downloading, block, 1, .error (.dos 100 REJECT_INVALID "bad-block-signature"),
    true, .ok ()⟩

def lateParentRun : List Event :=
  [announce firstHeader, announce childHeader, arrival childHeader, arrival firstHeader, .find]

lemma noWrap_of_chain (i : IndexState) (k : Nat) (hk : k < 2 ^ 32) (hviews : i.blocks.map linkView =
      (List.range k).map fun p => ⟨if p = 0 then none else some (p - 1), true, 1⟩) :
    NoWrap (views i) := by
  have hat : ∀ p v, views i p = some v →
      p < k ∧ v = ⟨if p = 0 then none else some (p - 1), true, 1⟩ := by
    intro p v hv
    rw [views, ← List.getElem?_map, hviews, List.getElem?_map, Option.map_eq_some_iff] at hv
    obtain ⟨x, hx, rfl⟩ := hv
    obtain ⟨hlt, rfl⟩ := List.getElem?_eq_some_iff.mp hx
    rw [List.length_range] at hlt
    rw [List.getElem_range]
    exact ⟨hlt, rfl⟩
  have hcount : ∀ p n, Received (views i) p n → n = p + 1 := by
    intro p n hr
    induction hr with
    | @first p v hv hdata hfirst =>
      obtain ⟨-, rfl⟩ := hat p v hv
      by_cases hp : p = 0
      · rw [hp]
      · simp [hp] at hfirst
    | @next p q m v hv hdata hprev hq ih =>
      obtain ⟨-, rfl⟩ := hat p v hv
      by_cases hp : p = 0
      · simp [hp] at hprev
      · simp only [hp, if_false, Option.some.injEq] at hprev
        simp only
        omega
  intro p n hr
  obtain ⟨v, hv, -⟩ := hr.data
  have hlt := (hat p v hv).1
  rw [hcount p n hr]
  omega

/-- The child was waiting when its parent came, and the best chain ends in it. -/
theorem bestChain_selected_lateParent :
    ∃ t, loop (step id toyEnv toyParams) (started toyEnv genesisBlock) lateParentRun = .ok t ∧
      NoWrap (views t.index) ∧
      (∀ p, t.nChainTx p ≠ 0 ↔ (∃ n, Received (views t.index) p n) ∧
        ∀ q, Descends (views t.index) p q →
          ¬ CameOnFailed id toyEnv toyParams (started toyEnv genesisBlock) lateParentRun q) ∧
      ∃ r u, findMostWorkChain id t = .ok (r, u) ∧ MostWork t r := by
  obtain ⟨t, ht, hviews⟩ := exists_ok_of_toOption
    (loop (step id toyEnv toyParams) (started toyEnv genesisBlock) lateParentRun)
    (fun t => t.index.blocks.map linkView)
    ((List.range 3).map fun p => ⟨if p = 0 then none else some (p - 1), true, 1⟩)
      (by decide +kernel)
  have hwrap := noWrap_of_chain t.index 3 (by omega) hviews
  exact ⟨t, ht, hwrap, bestChain_selected id toyEnv toyParams genesisBlock lateParentRun t ht hwrap⟩

/-- Three headers, whose blocks come in out of order. Before the last one comes, a bad copy of the
second one does. -/
def outOfOrderRun : List Event :=
  [announce firstHeader, announce childHeader, announce grandchildHeader, arrival childHeader,
    badCopy childHeader, arrival grandchildHeader, arrival firstHeader]

/-- The last block and its ancestors have all their transactions, but it is not linked. -/
theorem received_and_not_linked :
    ∃ t, loop (step id toyEnv toyParams) (started toyEnv genesisBlock) outOfOrderRun = .ok t ∧
      (∃ n, Received (views t.index) 3 n) ∧ t.nChainTx 3 = 0 := by
  obtain ⟨t, ht, hview⟩ := exists_ok_of_toOption
    (loop (step id toyEnv toyParams) (started toyEnv genesisBlock) outOfOrderRun)
    (fun t => (t.index.blocks.map linkView, t.nChainTx 3))
    ([⟨none, true, 1⟩, ⟨some 0, true, 1⟩, ⟨some 1, true, 1⟩, ⟨some 2, true, 1⟩], 0)
      (by decide +kernel)
  obtain ⟨hblocks, hzero⟩ := Prod.mk.inj hview
  have hat : ∀ p, views t.index p = (t.index.blocks.map linkView)[p]? := fun p =>
    (List.getElem?_map).symm
  rw [hblocks] at hat
  refine ⟨t, ht, ⟨4, ?_⟩, hzero⟩
  have h0 : Received (views t.index) 0 1 := .first (hat 0) rfl rfl
  have h1 : Received (views t.index) 1 2 := .next (hat 1) rfl rfl h0
  have h2 : Received (views t.index) 2 3 := .next (hat 2) rfl rfl h1
  exact .next (hat 3) rfl rfl h2

end

end BestChain
