import BitcoinC.PoolAggregates

/-!
# After a disconnected block

`UpdateTransactionsFromBlock` goes through the transactions of disconnected blocks
from the last to the first, links each one to the children that were in the pool
before, and adds it to the sums of what now descends from it.
-/

namespace PoolReorg

open Primitives TxVerify Worklist DagSums TxMempool TxMempool.MemPool
open TxMempool.CTxMemPoolEntry PoolLinks PoolAcceptance PoolAggregates Relation

/-- The contract of `UpdateTransactionsFromBlock`: the pending transactions in order; other hashes
are not in the pool. -/
structure Updatable (S : MemPool) (pending hashes : List Uint256) : Prop where
  nodup : hashes.Nodup
  pending : hashes.filter (· ∈ S.ids) = pending

lemma Updatable.mem_iff {S : MemPool} {pending hashes : List Uint256}
    (h : Updatable S pending hashes) (v : Uint256) : v ∈ pending ↔ v ∈ hashes ∧ v ∈ S.ids := by
  rw [← h.pending, List.mem_filter, decide_eq_true_eq]

lemma within_spends (S : MemPool) : Within S.ids.toFinset (spends S) := by
  intro c p h
  rw [List.mem_toFinset, List.mem_toFinset]
  exact ⟨h.1, h.2.1⟩

noncomputable def outsideBelow (S : MemPool) (pending : List Uint256) (p : Uint256) :
    Finset Uint256 :=
  (reach S.ids.toFinset (Function.swap (spends S)) p).filter (· ∉ pending)

lemma mem_outsideBelow (S : MemPool) (pending : List Uint256) (p c : Uint256) :
    c ∈ outsideBelow S pending p ↔ c ∉ pending ∧ TransGen (spends S) c p := by
  have hswap : TransGen (Function.swap (spends S)) p c ↔ TransGen (spends S) c p := transGen_swap
  rw [outsideBelow, Finset.mem_filter, mem_reach, hswap]
  constructor
  · exact fun h => ⟨h.2, h.1.2⟩
  · exact fun h => ⟨⟨((within_spends S).transGen h.2).1, h.2⟩, h.1⟩

/-- What the loop has done once the hashes `done` are processed. -/
structure Progress (S : MemPool) (pending done : List Uint256) (x : MemPool × CacheMap) : Prop where
  ids : x.1.ids = S.ids
  mapNextTx : x.1.mapNextTx = S.mapNextTx
  mapDeltas : x.1.mapDeltas = S.mapDeltas
  linked : Linked x.1
  links : ∀ c p, p ∈ x.1.parents c ↔ spends S c p ∧ (c ∈ pending ∨ p ∉ pending ∨ p ∈ done)
  entry : ∀ v, Shift (S.entry v) (x.1.entry v)
    (((done.filter (· ∈ pending)).map fun p =>
      if v ∈ outsideBelow S pending p then ancestorWeight (S.entry p) else 0).sum)
    (if v ∈ done ∧ v ∈ pending then ∑ c ∈ outsideBelow S pending v,
      descendantWeight (S.entry c) else 0)
  cache : ∀ q cs, x.2 q = some cs → q ∈ done ∧ q ∈ pending ∧
    ∀ d, d ∈ cs ↔ d ∉ pending ∧ TransGen (spends S) d q

section

variable {S : MemPool} {pending hashes done : List Uint256} {x : MemPool × CacheMap} {h₀ : Uint256}

lemma progress_start (h : Consistent S pending) : Progress S pending [] (S, fun _ => none) where
  ids := rfl
  mapNextTx := rfl
  mapDeltas := rfl
  linked := h.linked
  links c p := by
    rw [h.links]
    simp
  entry v := by simpa using Shift.refl (S.entry v)
  cache _ _ hq := absurd hq (Option.some_ne_none _).symm

lemma child_in_suffix (h : Consistent S pending) (hup : Updatable S pending hashes)
    (hsuf : done <:+ hashes) {c p : Uint256} (hp : p ∈ done) (hc : c ∈ pending)
    (hcp : spends S c p) : c ∈ done := by
  obtain ⟨pre, hpre⟩ := hsuf
  have hin := ((hup.mem_iff c).mp hc).1
  rw [← hpre] at hin
  rcases List.mem_append.mp hin with hin | hin
  · have hordered := h.ordered
    rw [← hup.pending, ← hpre, List.filter_append] at hordered
    have hnot := (List.pairwise_append.mp hordered).2.2 c
      (List.mem_filter.mpr ⟨hin, decide_eq_true hcp.1⟩) p
      (List.mem_filter.mpr ⟨hp, decide_eq_true hcp.2.1⟩)
    exact absurd hcp hnot
  · exact hin

lemma transGen_linked_iff (h : Consistent S pending) (hup : Updatable S pending hashes)
    (hsuf : done <:+ hashes) {R : Uint256 → Uint256 → Prop}
    (hR : ∀ c p, R c p ↔ spends S c p ∧ (c ∈ pending ∨ p ∉ pending ∨ p ∈ done)) {q : Uint256}
    (hq : q ∈ done) (d : Uint256) : TransGen R d q ↔ TransGen (spends S) d q := by
  refine ⟨TransGen.mono (fun c p hcp => ((hR c p).mp hcp).1) d q, fun hpath => ?_⟩
  have hdown : ∀ c p, (p ∉ pending ∨ p ∈ done) → spends S c p → c ∉ pending ∨ c ∈ done := by
    intro c p hp hcp
    by_cases hc : c ∈ pending
    · have hpp := h.closed c p hcp hc
      exact Or.inr (child_in_suffix h hup hsuf (hp.resolve_left (not_not.mpr hpp)) hc hcp)
    · exact Or.inl hc
  have hboth : TransGen R d q ∧ (d ∉ pending ∨ d ∈ done) := by
    induction hpath using TransGen.head_induction_on with
    | single hdq =>
      exact ⟨.single ((hR _ _).mpr ⟨hdq, Or.inr (Or.inr hq)⟩), hdown _ _ (Or.inr hq) hdq⟩
    | head hdb _ ih =>
      exact ⟨.head ((hR _ _).mpr ⟨hdb, Or.inr ih.2⟩) ih.1, hdown _ _ ih.2 hdb⟩
  exact hboth.1

lemma Progress.linkChildren (h : Consistent S pending) (hup : Updatable S pending hashes)
    (hx : Progress S pending done x) (hin : h₀ ∈ S.ids) (c p : Uint256) :
    p ∈ (linkChildren hashes x.1 h₀).parents c ↔
      spends S c p ∧ (c ∈ pending ∨ p ∉ pending ∨ p ∈ h₀ :: done) := by
  obtain ⟨parents, children, heq, hparents, -⟩ :=
    foldl_linkChild hashes h₀ x.1 (namedChildren x.1 h₀)
  have hnamed : ∀ c, c ∈ namedChildren x.1 h₀ ↔ spends S c h₀ := by
    intro c
    unfold namedChildren
    rw [List.mem_map, hx.mapNextTx]
    constructor
    · rintro ⟨⟨o, c'⟩, hmem, rfl⟩
      obtain ⟨hmem, hkey⟩ := List.mem_filter.mp hmem
      obtain ⟨hc, ho⟩ := (h.next o c').mp hmem
      exact ⟨hc, hin, o, ho, of_decide_eq_true hkey⟩
    · rintro ⟨hc, -, o, ho, hhash⟩
      exact ⟨(o, c), List.mem_filter.mpr ⟨(h.next o c).mpr ⟨hc, ho⟩, decide_eq_true hhash⟩, rfl⟩
  rw [show MemPool.linkChildren hashes x.1 h₀ = _ from heq]
  refine (hparents c p).trans ?_
  rw [hx.links, hx.ids, hnamed, List.mem_cons]
  constructor
  · rintro (⟨hcp, hor⟩ | ⟨rfl, hcp, hc, hnot⟩)
    · exact ⟨hcp, hor.imp_right (Or.imp_right Or.inr)⟩
    · exact ⟨hcp, Or.inr (Or.inr (Or.inl rfl))⟩
  · rintro ⟨hcp, hor⟩
    rcases hor with hc | hp | rfl | hp
    · exact Or.inl ⟨hcp, Or.inl hc⟩
    · exact Or.inl ⟨hcp, Or.inr (Or.inl hp)⟩
    · by_cases hc : c ∈ pending
      · exact Or.inl ⟨hcp, Or.inl hc⟩
      · exact Or.inr ⟨rfl, hcp, hcp.1, fun hch => hc ((hup.mem_iff c).mpr ⟨hch, hcp.1⟩)⟩
    · exact Or.inl ⟨hcp, Or.inr (Or.inr hp)⟩

lemma linkChildren_same (hashes : List Uint256) (S : MemPool) (h₀ : Uint256) :
    ∃ parents children, MemPool.linkChildren hashes S h₀ =
      { S with parents := parents, children := children } := by
  obtain ⟨parents, children, heq, -⟩ := foldl_linkChild hashes h₀ S (namedChildren S h₀)
  exact ⟨parents, children, heq⟩

lemma Progress.mem_counted (h : Consistent S pending) (hup : Updatable S pending hashes)
    (hsuf : h₀ :: done <:+ hashes) (hx : Progress S pending done x) (hin : h₀ ∈ S.ids)
    (c : Uint256) :
    c ∈ countedDescendants hashes (MemPool.linkChildren hashes x.1 h₀, x.2) h₀ ↔
      c ∈ outsideBelow S pending h₀ := by
  have hlinked := linkChildren_linked hx.linked hashes h₀ (by rw [hx.ids]; exact hin)
  have hparents := hx.linkChildren h hup hin
  obtain ⟨parents, children, heq⟩ := linkChildren_same hashes x.1 h₀
  have hids : (MemPool.linkChildren hashes x.1 h₀).ids = S.ids := by rw [heq, ← hx.ids]
  have hpath : ∀ q ∈ h₀ :: done, ∀ d,
      TransGen (Next (MemPool.linkChildren hashes x.1 h₀).children) q d ↔
        TransGen (spends S) d q := by
    intro q hq d
    rw [hlinked.next_children, ← transGen_linked_iff h hup hsuf hparents hq d]
    exact transGen_swap
  have hright : Right (MemPool.linkChildren hashes x.1 h₀).children x.2 (· ∉ pending) := by
    refine ⟨fun d hd c hc hcp => hd ?_, fun q cs hq hnot => hnot (hx.cache q cs hq).2.1,
      fun q cs hq d => ?_⟩
    · exact h.closed c d ((hparents c d).mp ((hlinked.symm c d).mpr hc)).1 hcp
    · obtain ⟨hqd, -, hmem⟩ := hx.cache q cs hq
      rw [hmem, hpath q (List.mem_cons_of_mem h₀ hqd)]
  have hnext : ∀ v ∈ S.ids.toFinset, ∀ c ∈ (MemPool.linkChildren hashes x.1 h₀).children v,
      c ∈ S.ids.toFinset := by
    intro v _ c hc
    rw [List.mem_toFinset, ← hids]
    exact (hlinked.within c v ((hlinked.symm c v).mpr hc)).1
  have hstart : ∀ s ∈ (MemPool.linkChildren hashes x.1 h₀).children h₀, s ∈ S.ids.toFinset :=
    hnext h₀ (by simpa using hin)
  have hwalk : Walking (MemPool.linkChildren hashes x.1 h₀).children x.2 S.ids.toFinset
      ((MemPool.linkChildren hashes x.1 h₀).children h₀) ∅
      ((MemPool.linkChildren hashes x.1 h₀).children h₀) [] [] :=
    ⟨hstart, hlinked.children_nodup h₀, by simp, by simp,
      fun v hv => ⟨v, hv.elim id fun hv => absurd hv (by simp), .refl⟩,
      fun s hs => Or.inr hs, by simp⟩
  have hfuel : (S.ids.toFinset \ ∅).card ≤ S.ids.length := by
    rw [Finset.sdiff_empty]
    exact List.toFinset_card_le S.ids
  have hmem : ∀ d, d ∉ pending →
      (d ∈ walkCached (MemPool.linkChildren hashes x.1 h₀).children x.2
        (MemPool.linkChildren hashes x.1 h₀).ids.length
        ((MemPool.linkChildren hashes x.1 h₀).children h₀) [] ↔ TransGen (spends S) d h₀) := by
    intro d hd
    rw [hids, hwalk.mem_iff hright hnext hstart _ hfuel d hd, ← hpath h₀ List.mem_cons_self,
      TransGen.head'_iff]
    rfl
  unfold countedDescendants
  rw [List.mem_filter, decide_eq_true_eq, mem_outsideBelow]
  dsimp only
  constructor
  · rintro ⟨hd, hnot⟩
    have hcp : c ∉ pending := fun hc => hnot ((hup.mem_iff c).mp hc).1
    exact ⟨hcp, (hmem c hcp).mp hd⟩
  · rintro ⟨hcp, hd⟩
    have hcin : c ∈ S.ids := by simpa using ((within_spends S).transGen hd).1
    exact ⟨(hmem c hcp).mpr hd, fun hch => hcp ((hup.mem_iff c).mpr ⟨hch, hcin⟩)⟩

lemma Progress.step_absent (h : Consistent S pending) (hx : Progress S pending done x)
    (hin : h₀ ∉ S.ids) : Progress S pending (h₀ :: done) x := by
  have hnot : h₀ ∉ pending := fun hp => hin (h.pending_mem h₀ hp)
  refine ⟨hx.ids, hx.mapNextTx, hx.mapDeltas, hx.linked, fun c p => ?_, fun v => ?_,
    fun q cs hq => ?_⟩
  · rw [hx.links, List.mem_cons]
    constructor
    · exact fun ⟨hcp, hor⟩ => ⟨hcp, hor.imp_right (Or.imp_right Or.inr)⟩
    · rintro ⟨hcp, hc | hp | rfl | hp⟩
      · exact ⟨hcp, Or.inl hc⟩
      · exact ⟨hcp, Or.inr (Or.inl hp)⟩
      · exact absurd hcp.2.1 hin
      · exact ⟨hcp, Or.inr (Or.inr hp)⟩
  · have hsame : (v ∈ h₀ :: done ∧ v ∈ pending) ↔ (v ∈ done ∧ v ∈ pending) := by
      rw [List.mem_cons]
      constructor
      · rintro ⟨rfl | hv, hp⟩
        · exact absurd hp hnot
        · exact ⟨hv, hp⟩
      · exact fun ⟨hv, hp⟩ => ⟨Or.inr hv, hp⟩
    rw [List.filter_cons_of_neg (by simpa using hnot), if_congr hsame rfl rfl]
    exact hx.entry v
  · obtain ⟨hq, hrest⟩ := hx.cache q cs hq
    exact ⟨List.mem_cons_of_mem h₀ hq, hrest⟩

lemma counted_toFinset (h : Consistent S pending) (hup : Updatable S pending hashes)
    (hsuf : h₀ :: done <:+ hashes) (hx : Progress S pending done x) (hin : h₀ ∈ S.ids) :
    (countedDescendants hashes (MemPool.linkChildren hashes x.1 h₀, x.2) h₀).toFinset =
      outsideBelow S pending h₀ := by
  ext c
  rw [List.mem_toFinset]
  exact hx.mem_counted h hup hsuf hin c

lemma Progress.step_entry (h : Consistent S pending) (hup : Updatable S pending hashes)
    (hsuf : h₀ :: done <:+ hashes) (hx : Progress S pending done x) (hin : h₀ ∈ S.ids)
    {entry : Uint256 → CTxMemPoolEntry} (hshift : ∀ v, Shift (x.1.entry v) (entry v)
      (if v ∈ countedDescendants hashes (MemPool.linkChildren hashes x.1 h₀, x.2) h₀ then
        ancestorWeight (x.1.entry h₀) else 0)
      (if v = h₀ then ((countedDescendants hashes (MemPool.linkChildren hashes x.1 h₀, x.2) h₀).map
        fun c => descendantWeight (x.1.entry c)).sum else 0)) (v : Uint256) :
    Shift (S.entry v) (entry v) ((((h₀ :: done).filter (· ∈ pending)).map fun p =>
        if v ∈ outsideBelow S pending p then ancestorWeight (S.entry p) else 0).sum)
      (if v ∈ h₀ :: done ∧ v ∈ pending then
        ∑ c ∈ outsideBelow S pending v, descendantWeight (S.entry c) else 0) := by
  have hpend : h₀ ∈ pending := (hup.mem_iff h₀).mpr ⟨hsuf.subset List.mem_cons_self, hin⟩
  have hnew : h₀ ∉ done := (List.nodup_cons.mp (hup.nodup.sublist hsuf.sublist)).1
  have hnodup := nodup_countedDescendants hashes (MemPool.linkChildren hashes x.1 h₀, x.2) h₀
  have hboth := (hx.entry v).trans (hshift v)
  have hanc : (if v ∈ countedDescendants hashes (MemPool.linkChildren hashes x.1 h₀, x.2) h₀ then
      ancestorWeight (x.1.entry h₀) else 0) =
      if v ∈ outsideBelow S pending h₀ then ancestorWeight (S.entry h₀) else 0 := by
    rw [if_congr (hx.mem_counted h hup hsuf hin v) rfl rfl, (hx.entry h₀).body.ancestorWeight]
  have hdesc : ((countedDescendants hashes (MemPool.linkChildren hashes x.1 h₀, x.2) h₀).map
      fun c => descendantWeight (x.1.entry c)).sum =
      ∑ c ∈ outsideBelow S pending h₀, descendantWeight (S.entry c) := by
    rw [← List.sum_toFinset _ hnodup, counted_toFinset h hup hsuf hx hin]
    exact Finset.sum_congr rfl fun c _ => (hx.entry c).body.descendantWeight
  rw [hanc] at hboth
  rw [List.filter_cons_of_pos (by simpa using hpend), List.map_cons, List.sum_cons, add_comm]
  by_cases hv : v = h₀
  · subst hv
    have hbefore : ¬ (v ∈ done ∧ v ∈ pending) := fun hd => hnew hd.1
    rw [if_neg hbefore, if_pos rfl, zero_add, hdesc] at hboth
    have hafter : v ∈ v :: done ∧ v ∈ pending := ⟨List.mem_cons_self, hpend⟩
    rw [if_pos hafter]
    exact hboth
  · rw [if_neg hv, add_zero] at hboth
    have hsame : (v ∈ h₀ :: done ∧ v ∈ pending) ↔ (v ∈ done ∧ v ∈ pending) := by
      rw [List.mem_cons, or_iff_right hv]
    rw [if_congr hsame rfl rfl]
    exact hboth

lemma Progress.step_cache (h : Consistent S pending) (hup : Updatable S pending hashes)
    (hsuf : h₀ :: done <:+ hashes) (hx : Progress S pending done x) (hin : h₀ ∈ S.ids)
    {q : Uint256} {cs : List Uint256}
    (hq : (updateForDescendants hashes (MemPool.linkChildren hashes x.1 h₀, x.2) h₀).2 q =
      some cs) :
    q ∈ h₀ :: done ∧ q ∈ pending ∧ ∀ d, d ∈ cs ↔ d ∉ pending ∧ TransGen (spends S) d q := by
  have hpend : h₀ ∈ pending := (hup.mem_iff h₀).mpr ⟨hsuf.subset List.mem_cons_self, hin⟩
  have hnew : h₀ ∉ done := (List.nodup_cons.mp (hup.nodup.sublist hsuf.sublist)).1
  have hold : x.2 q = some cs → q ∈ h₀ :: done ∧ q ∈ pending ∧
      ∀ d, d ∈ cs ↔ d ∉ pending ∧ TransGen (spends S) d q := by
    intro hq
    obtain ⟨hqd, hrest⟩ := hx.cache q cs hq
    exact ⟨List.mem_cons_of_mem h₀ hqd, hrest⟩
  have hfresh : x.2 h₀ = none := by
    cases hc : x.2 h₀ with
    | none => rfl
    | some cs => exact absurd (hx.cache h₀ cs hc).1 hnew
  change (if countedDescendants hashes (MemPool.linkChildren hashes x.1 h₀, x.2) h₀ = [] then x.2
    else Function.update x.2 h₀
      (some (countedDescendants hashes (MemPool.linkChildren hashes x.1 h₀, x.2) h₀ ∪
        (x.2 h₀).getD []))) q = some cs at hq
  split at hq
  · exact hold hq
  · by_cases hqh : q = h₀
    · subst hqh
      rw [Function.update_self, hfresh] at hq
      obtain rfl := Option.some.inj hq
      refine ⟨List.mem_cons_self, hpend, fun d => ?_⟩
      rw [← mem_outsideBelow, ← hx.mem_counted h hup hsuf hin d]
      simp
    · rw [Function.update_of_ne hqh] at hq
      exact hold hq

/-- A hash in the pool: its links, its own sum over descendants and the sums over ancestors below
it. -/
lemma Progress.step_mem (h : Consistent S pending) (hup : Updatable S pending hashes)
    (hsuf : h₀ :: done <:+ hashes) (hx : Progress S pending done x) (hin : h₀ ∈ S.ids) :
    Progress S pending (h₀ :: done)
      (updateForDescendants hashes (MemPool.linkChildren hashes x.1 h₀, x.2) h₀) := by
  have hlinked := linkChildren_linked hx.linked hashes h₀ (by rw [hx.ids]; exact hin)
  obtain ⟨parents, children, heq⟩ := linkChildren_same hashes x.1 h₀
  obtain ⟨entry, hpool, hshift⟩ :=
    updateForDescendants_shift hashes (MemPool.linkChildren hashes x.1 h₀, x.2) h₀
  have hentry : (MemPool.linkChildren hashes x.1 h₀).entry = x.1.entry := by rw [heq]
  dsimp only at hshift
  rw [hentry] at hshift
  refine ⟨?_, ?_, ?_, ?_, fun c p => ?_, fun v => ?_,
    fun q cs hq => hx.step_cache h hup hsuf hin hq⟩ <;> rw [hpool]
  · exact (congrArg MemPool.ids heq).trans hx.ids
  · exact (congrArg MemPool.mapNextTx heq).trans hx.mapNextTx
  · exact (congrArg MemPool.mapDeltas heq).trans hx.mapDeltas
  · exact hlinked.congr rfl rfl rfl
  · exact hx.linkChildren h hup hin c p
  · exact hx.step_entry h hup hsuf hin hshift v

lemma Progress.step (h : Consistent S pending) (hup : Updatable S pending hashes)
    (hsuf : h₀ :: done <:+ hashes) (hx : Progress S pending done x) :
    Progress S pending (h₀ :: done) (updateFromBlock hashes x h₀) := by
  unfold updateFromBlock
  rw [hx.ids]
  split
  · exact hx.step_mem h hup hsuf ‹_›
  · exact hx.step_absent h ‹_›

lemma progress_loop (h : Consistent S pending) (hup : Updatable S pending hashes) :
    ∀ done, done <:+ hashes →
      Progress S pending done (done.reverse.foldl (updateFromBlock hashes) (S, fun _ => none))
  | [], _ => progress_start h
  | h₀ :: done, hsuf => by
    rw [List.reverse_cons, List.foldl_append]
    exact (progress_loop h hup done ((List.suffix_cons h₀ done).trans hsuf)).step h hup hsuf

lemma Progress.spends_eq (hx : Progress S pending done x) : spends x.1 = spends S := by
  funext c p
  simp only [spends, hx.ids, (hx.entry c).body.tx]

lemma Progress.next_parents (hup : Updatable S pending hashes) (hx : Progress S pending hashes x) :
    Next x.1.parents = spends S := by
  funext c p
  apply propext
  refine (hx.links c p).trans ⟨fun hcp => hcp.1, fun hcp => ⟨hcp, ?_⟩⟩
  by_cases hp : p ∈ pending
  · exact Or.inr (Or.inr ((hup.mem_iff p).mp hp).1)
  · exact Or.inr (Or.inl hp)

lemma Updatable.filter_pending (hup : Updatable S pending hashes) :
    hashes.filter (· ∈ pending) = pending := by
  refine Eq.trans (List.filter_congr fun v hv => ?_) hup.pending
  rw [decide_eq_decide, hup.mem_iff]
  exact and_iff_right hv

lemma Progress.anc (h : Consistent S pending) (hup : Updatable S pending hashes)
    (hx : Progress S pending hashes x) :
    Exact S.ids.toFinset (spends S) (fun v => ancestorWeight (x.1.entry v))
      fun v => ancestorState (x.1.entry v) := by
  have hjoin : Exact S.ids.toFinset (spends S) (fun v => ancestorWeight (S.entry v))
      fun v => ancestorState (x.1.entry v) := by
    refine h.anc.join (L := (· ∈ pending)) h.closed h.links
      (fun v => pending.toFinset.filter fun p => v ∈ outsideBelow S pending p) (fun v _ a => ?_)
      fun v _ => ?_
    · rw [Finset.mem_filter, List.mem_toFinset, List.mem_toFinset, mem_outsideBelow]
      constructor
      · exact fun ⟨ha, hv, hpath⟩ => ⟨h.pending_mem a ha, ha, hv, hpath⟩
      · exact fun ⟨_, ha, hv, hpath⟩ => ⟨ha, hv, hpath⟩
    · rw [(hx.entry v).anc, hup.filter_pending, sum_map_ite pending h.pending_nodup]
  exact hjoin.congr (fun v _ => (hx.entry v).body.ancestorWeight) fun v _ => rfl

lemma Progress.desc (h : Consistent S pending) (hup : Updatable S pending hashes)
    (hx : Progress S pending hashes x) :
    Exact S.ids.toFinset (Function.swap (spends S)) (fun v => descendantWeight (x.1.entry v))
      fun v => descendantState (x.1.entry v) := by
  have hjoin : Exact S.ids.toFinset (Function.swap (spends S))
      (fun v => descendantWeight (S.entry v)) fun v => descendantState (x.1.entry v) := by
    refine h.desc.join_swap (L := (· ∈ pending)) h.closed h.links
      (fun v => if v ∈ pending then outsideBelow S pending v else ∅) (fun v _ a => ?_) fun v _ => ?_
    · by_cases hv : v ∈ pending
      · rw [if_pos hv, mem_outsideBelow]
        constructor
        · exact fun ⟨ha, hpath⟩ => ⟨((within_spends S).transGen hpath).1, hv, ha, hpath⟩
        · exact fun ⟨_, _, ha, hpath⟩ => ⟨ha, hpath⟩
      · rw [if_neg hv]
        constructor
        · exact fun ha => absurd ha (Finset.notMem_empty a)
        · exact fun ha => absurd ha.2.1 hv
    · have hin : (v ∈ hashes ∧ v ∈ pending) ↔ v ∈ pending :=
        and_iff_right_of_imp fun hv => ((hup.mem_iff v).mp hv).1
      rw [(hx.entry v).desc, if_congr hin rfl rfl]
      by_cases hv : v ∈ pending
      · rw [if_pos hv, if_pos hv]
      · rw [if_neg hv, if_neg hv, Finset.sum_empty]
  exact hjoin.congr (fun v _ => (hx.entry v).body.descendantWeight) fun v _ => rfl

lemma Progress.consistent (h : Consistent S pending) (hup : Updatable S pending hashes)
    (hx : Progress S pending hashes x) : Consistent x.1 [] where
  linked := hx.linked
  next o c := by rw [hx.mapNextTx, hx.ids, (hx.entry c).body.tx, h.next]
  unique := by
    rw [hx.mapNextTx]
    exact h.unique
  pending_mem _ hv := absurd hv List.not_mem_nil
  pending_nodup := List.nodup_nil
  ordered := .nil
  closed _ _ _ hc := absurd hc List.not_mem_nil
  links c p := by
    have hnext : p ∈ x.1.parents c ↔ spends S c p := by rw [← hx.next_parents hup]; rfl
    rw [hnext, hx.spends_eq]
    simp
  acyclic := by
    rw [hx.next_parents hup]
    exact acyclic_of_part h.closed h.links h.acyclic
  sigOps v hv := by
    rw [(hx.entry v).body.sigOpCost]
    exact h.sigOps v (hx.ids ▸ hv)
  deltas v hv := by
    rw [(hx.entry v).body.feeDelta, hx.mapDeltas]
    exact h.deltas v (hx.ids ▸ hv)
  anc := by
    rw [hx.next_parents hup, hx.ids]
    exact hx.anc h hup
  desc := by
    rw [hx.next_parents hup, hx.ids]
    exact hx.desc h hup

lemma consistent_updateTransactionsFromBlock (h : Consistent S pending)
    (hup : Updatable S pending hashes) : Consistent (S.updateTransactionsFromBlock hashes) [] :=
  (progress_loop h hup hashes List.suffix_rfl).consistent h hup

end

/-- The calls that change entries or links. `fromBlock` marks a transaction of a disconnected
block; it is no argument of the code, which leaves it to the caller to call
`UpdateTransactionsFromBlock`. -/
inductive AggregateCall
  | addUnchecked (hash : Uint256) (tx : CTransaction) (nFee nTxSize : Word) (nTime : Int)
      (sigOpCost : Word) (setAncestors : List Uint256) (fromBlock : Bool)
  | removeStaged (stage : List Uint256) (updateDescendants : Bool)
  | prioritiseTransaction (hash : Uint256) (nFeeDelta : Word)
  | updateTransactionsFromBlock (vHashesToUpdate : List Uint256)

def aggregateStep (x : MemPool × List Uint256) : AggregateCall → MemPool × List Uint256
  | .addUnchecked hash tx nFee nTxSize nTime sigOpCost setAncestors fromBlock =>
    (x.1.addUnchecked hash (make tx nFee nTxSize nTime sigOpCost) setAncestors,
      pendingAfter x.2 hash fromBlock)
  | .removeStaged stage updateDescendants =>
    (x.1.removeStaged stage updateDescendants, x.2.filter (· ∉ stage))
  | .prioritiseTransaction hash nFeeDelta => (x.1.prioritiseTransaction hash nFeeDelta, x.2)
  | .updateTransactionsFromBlock vHashesToUpdate =>
    (x.1.updateTransactionsFromBlock vHashesToUpdate, [])

def Allowed (x : MemPool × List Uint256) : AggregateCall → Prop
  | .addUnchecked hash tx _ _ _ sigOpCost setAncestors fromBlock =>
    Addable x.1 x.2 hash tx sigOpCost setAncestors fromBlock
  | .removeStaged stage updateDescendants => Removable x.1 stage updateDescendants
  | .prioritiseTransaction _ _ => True
  | .updateTransactionsFromBlock vHashesToUpdate => Updatable x.1 x.2 vHashesToUpdate

def AllowedRun (x : MemPool × List Uint256) : List AggregateCall → Prop
  | [] => True
  | c :: cs => Allowed x c ∧ AllowedRun (aggregateStep x c) cs

def aggregateRun (x : MemPool × List Uint256) (calls : List AggregateCall) :
    MemPool × List Uint256 :=
  calls.foldl aggregateStep x

lemma consistent_aggregateStep {x : MemPool × List Uint256} (h : Consistent x.1 x.2)
    (c : AggregateCall) (hc : Allowed x c) :
    Consistent (aggregateStep x c).1 (aggregateStep x c).2 := by
  cases c with
  | addUnchecked hash tx nFee nTxSize nTime sigOpCost setAncestors fromBlock =>
    exact h.addUnchecked hc
  | removeStaged stage updateDescendants => exact h.removeStaged hc
  | prioritiseTransaction hash nFeeDelta => exact h.prioritiseTransaction hash nFeeDelta
  | updateTransactionsFromBlock vHashesToUpdate =>
    exact consistent_updateTransactionsFromBlock h hc

lemma consistent_aggregateRun (calls : List AggregateCall) :
    ∀ {x : MemPool × List Uint256}, Consistent x.1 x.2 → AllowedRun x calls →
      Consistent (aggregateRun x calls).1 (aggregateRun x calls).2 := by
  induction calls with
  | nil => exact fun h _ => h
  | cons c cs ih => exact fun h hrun => ih (consistent_aggregateStep h c hrun.1) hrun.2

noncomputable def ancestors (S : MemPool) (v : Uint256) : Finset Uint256 :=
  open Classical in S.ids.toFinset.filter fun a => ReflTransGen (spends S) v a

noncomputable def descendants (S : MemPool) (v : Uint256) : Finset Uint256 :=
  open Classical in S.ids.toFinset.filter fun d => ReflTransGen (spends S) d v

/-- Every stored aggregate is the sum it stands for. -/
structure AggregatesExact (S : MemPool) : Prop where
  countWithAncestors : ∀ v ∈ S.ids,
    (S.entry v).nCountWithAncestors = BitVec.ofNat 64 (ancestors S v).card
  sizeWithAncestors : ∀ v ∈ S.ids,
    (S.entry v).nSizeWithAncestors = ∑ a ∈ ancestors S v, (S.entry a).nTxSize
  modFeesWithAncestors : ∀ v ∈ S.ids,
    (S.entry v).nModFeesWithAncestors = ∑ a ∈ ancestors S v, (S.entry a).getModifiedFee
  sigOpCostWithAncestors : ∀ v ∈ S.ids,
    (S.entry v).nSigOpCostWithAncestors = ∑ a ∈ ancestors S v, (S.entry a).sigOpCost
  countWithDescendants : ∀ v ∈ S.ids,
    (S.entry v).nCountWithDescendants = BitVec.ofNat 64 (descendants S v).card
  sizeWithDescendants : ∀ v ∈ S.ids,
    (S.entry v).nSizeWithDescendants = ∑ d ∈ descendants S v, (S.entry d).nTxSize
  modFeesWithDescendants : ∀ v ∈ S.ids,
    (S.entry v).nModFeesWithDescendants = ∑ d ∈ descendants S v, (S.entry d).getModifiedFee
  parents : ∀ c ∈ S.ids, ∀ p, p ∈ S.parents c ↔ spends S c p
  children : ∀ p ∈ S.ids, ∀ c, c ∈ S.children p ↔ spends S c p

section

variable {S : MemPool} {v : Uint256}

lemma next_parents_of_consistent (h : Consistent S []) : Next S.parents = spends S := by
  funext c p
  apply propext
  exact (h.links c p).trans ⟨fun hcp => hcp.1, fun hcp => ⟨hcp, Or.inr List.not_mem_nil⟩⟩

lemma mem_ancestors (a : Uint256) :
    a ∈ ancestors S v ↔ a ∈ S.ids.toFinset ∧ ReflTransGen (spends S) v a := by
  simp [ancestors]

lemma mem_descendants (d : Uint256) :
    d ∈ descendants S v ↔ d ∈ S.ids.toFinset ∧ ReflTransGen (spends S) d v := by
  simp [descendants]

lemma ancestorState_eq_sum (h : Consistent S []) (hv : v ∈ S.ids) :
    ancestorState (S.entry v) = ∑ a ∈ ancestors S v, ancestorWeight (S.entry a) := by
  have hnext := next_parents_of_consistent h
  refine h.anc.eq_sum (List.mem_toFinset.mpr hv) (h.acyclic v) (ancestors S v) fun a => ?_
  rw [mem_ancestors, hnext]

lemma descendantState_eq_sum (h : Consistent S []) (hv : v ∈ S.ids) :
    descendantState (S.entry v) = ∑ d ∈ descendants S v, descendantWeight (S.entry d) := by
  have hnext := next_parents_of_consistent h
  have hacyclic : ¬ TransGen (Function.swap (Next S.parents)) v v :=
    fun hv => h.acyclic v (transGen_swap.mp hv)
  refine h.desc.eq_sum (List.mem_toFinset.mpr hv) hacyclic (descendants S v) fun d => ?_
  have hswap : ReflTransGen (Function.swap (spends S)) v d ↔ ReflTransGen (spends S) d v :=
    reflTransGen_swap
  rw [mem_descendants, hnext, hswap]

/-- Consistent links and sums make every aggregate exact. -/
lemma aggregatesExact_of_consistent (h : Consistent S []) : AggregatesExact S where
  countWithAncestors v hv := by
    have hsum := congrArg (fun w => w.2.2.1) (ancestorState_eq_sum h hv)
    simpa [ancestorState, ancestorWeight, Prod.snd_sum, Prod.fst_sum] using hsum
  sizeWithAncestors v hv := by
    have hsum := congrArg (fun w => w.1) (ancestorState_eq_sum h hv)
    simpa [ancestorState, ancestorWeight, Prod.fst_sum] using hsum
  modFeesWithAncestors v hv := by
    have hsum := congrArg (fun w => w.2.1) (ancestorState_eq_sum h hv)
    simpa [ancestorState, ancestorWeight, Prod.snd_sum, Prod.fst_sum] using hsum
  sigOpCostWithAncestors v hv := by
    have hsum := congrArg (fun w => w.2.2.2) (ancestorState_eq_sum h hv)
    simpa [ancestorState, ancestorWeight, Prod.snd_sum] using hsum
  countWithDescendants v hv := by
    have hsum := congrArg (fun w => w.2.2) (descendantState_eq_sum h hv)
    simpa [descendantState, descendantWeight, Prod.snd_sum] using hsum
  sizeWithDescendants v hv := by
    have hsum := congrArg (fun w => w.1) (descendantState_eq_sum h hv)
    simpa [descendantState, descendantWeight, Prod.fst_sum] using hsum
  modFeesWithDescendants v hv := by
    have hsum := congrArg (fun w => w.2.1) (descendantState_eq_sum h hv)
    simpa [descendantState, descendantWeight, Prod.snd_sum, Prod.fst_sum] using hsum
  parents c _ p := by
    rw [← next_parents_of_consistent h]
    rfl
  children p _ c := by
    rw [← h.linked.symm, ← next_parents_of_consistent h]
    rfl

end

/-- After every run of calls within their contracts that leaves no transaction of a disconnected
block without its `UpdateTransactionsFromBlock`, the cached sums and the links are exact. -/
theorem aggregates_exact (calls : List AggregateCall) (hrun : AllowedRun (MemPool.empty, []) calls)
    (hdone : (aggregateRun (MemPool.empty, []) calls).2 = []) :
    AggregatesExact (aggregateRun (MemPool.empty, []) calls).1 := by
  have hconsistent := consistent_aggregateRun calls consistent_empty hrun
  rw [hdone] at hconsistent
  exact aggregatesExact_of_consistent hconsistent

lemma addable_of_checked {S : MemPool} {pending : List Uint256} {hash : Uint256} {tx : CTransaction}
    {sigOpCost : Word} {setAncestors : List Uint256} {fromBlock : Bool}
    (hfresh : hash ∉ S.ids ∧ hash ∉ (standardPrevouts tx.vin).map (·.hash))
    (hnext : S.mapNextTx.all (·.1 ∉ standardPrevouts tx.vin))
    (hsig : sigOpCost.toNat ≤ MAX_STANDARD_TX_SIGOPS_COST)
    (hset : S.calculateMemPoolAncestors (S.searchParents tx) = setAncestors ∧ setAncestors.Nodup)
    (hparents : (S.searchParents tx).all fun p => p ∈ pending ↔ fromBlock = true)
    (hchildren : S.ids.all fun c => hash ∈ (standardPrevouts (S.entry c).tx.vin).map (·.hash) →
      fromBlock = true ∧ c ∉ pending) :
    Addable S pending hash tx sigOpCost setAncestors fromBlock where
  fresh := hfresh.1
  noSelf h := hfresh.2 (List.mem_map.mpr h)
  noConflict o ho c hc := of_decide_eq_true (List.all_eq_true.mp hnext (o, c) hc) ho
  sigOps := hsig
  nodup := hset.2
  ancestors a := by rw [hset.1]
  parents p hp := of_decide_eq_true (List.all_eq_true.mp hparents p hp)
  children c hc h := of_decide_eq_true (List.all_eq_true.mp hchildren c hc) (List.mem_map.mpr h)

def spending (hashes : List Uint256) : CTransaction where
  nVersion := 0xA0
  vin := hashes.map fun h => { prevout := ⟨h, 0⟩ }
  vpout := []

/-- A parent and its child; the fee of the parent is raised; a block is disconnected whose
transaction 3 the parent spends; 3 is mined again, and the child is evicted. -/
def reorgCalls : List AggregateCall :=
  [.addUnchecked 1 (spending [3]) 10 100 0 4 [] false,
    .addUnchecked 2 (spending [1]) 20 200 0 8 [1] false,
    .prioritiseTransaction 1 5,
    .addUnchecked 3 (spending [9]) 30 300 0 12 [] true,
    .updateTransactionsFromBlock [3],
    .removeStaged [3] true,
    .removeStaged [2] false]

theorem aggregates_exact_reorg : AllowedRun (MemPool.empty, []) reorgCalls ∧
    ((aggregateRun (MemPool.empty, []) (reorgCalls.take 5)).1.entry 2).nCountWithAncestors = 3 ∧
    (aggregateRun (MemPool.empty, []) reorgCalls).1.ids = [1] ∧
    AggregatesExact (aggregateRun (MemPool.empty, []) reorgCalls).1 := by
  have hrun : AllowedRun (MemPool.empty, []) reorgCalls := by
    refine ⟨?_, ?_, trivial, ?_, ⟨?_, ?_⟩, ⟨?_, fun r hr => ?_, Or.inr ⟨rfl, fun r hr p hp => ?_⟩⟩,
      ⟨?_, fun r hr => ?_, Or.inl fun r hr c hc => ?_⟩, trivial⟩
    · apply addable_of_checked <;> decide +kernel
    · apply addable_of_checked <;> decide +kernel
    · apply addable_of_checked <;> decide +kernel
    · decide +kernel
    · decide +kernel
    · decide +kernel
    · obtain rfl := List.mem_singleton.mp hr
      decide +kernel
    · obtain rfl := List.mem_singleton.mp hr
      exact absurd hp (List.eq_nil_iff_forall_not_mem.mp (by decide +kernel) p)
    · decide +kernel
    · obtain rfl := List.mem_singleton.mp hr
      decide +kernel
    · obtain rfl := List.mem_singleton.mp hr
      exact absurd hc (List.eq_nil_iff_forall_not_mem.mp (by decide +kernel) c)
  exact ⟨hrun, by decide +kernel, by decide +kernel,
    aggregates_exact reorgCalls hrun (by decide +kernel)⟩

end PoolReorg
