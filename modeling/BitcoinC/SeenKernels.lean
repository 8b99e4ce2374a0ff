import BitcoinC.StakeSeen

/-!
# The memory of kernels

`mapStakeSeen` says which block a kernel stands for, and `listStakeSeen` keeps the
kernels in the order in which they were recorded.
-/

namespace SeenKernels

open Primitives StakeSeen List Function

inductive Call
  /-- `AddToMapStakeSeen`. -/
  | add (kernel : COutPoint) (blockHash : Uint256)
  /-- `CheckStakeUnique` on a block with this hash and kernel. -/
  | check (blockHash : Uint256) (kernel : COutPoint) (fUpdate : Bool)

def Call.run (s : Seen) : Call → Seen
  | .add kernel blockHash => addToMapStakeSeen kernel blockHash s
  | .check blockHash kernel fUpdate => (checkStakeUnique blockHash kernel fUpdate s).2

structure Ledger where
  recordings : List COutPoint
  lastHash : COutPoint → Option Uint256

def Ledger.record (s : Seen) (kernel : COutPoint) (blockHash : Uint256) (l : Ledger) : Ledger where
  recordings := if (s.mapStakeSeen kernel).isSome then l.recordings else l.recordings ++ [kernel]
  lastHash := update l.lastHash kernel (some blockHash)

/-- What a call adds to the ledger. `CheckStakeUnique` writes nothing about a kernel that is
there. -/
def Ledger.note (s : Seen) (l : Ledger) : Call → Ledger
  | .add kernel blockHash => l.record s kernel blockHash
  | .check blockHash kernel fUpdate =>
    if fUpdate ∧ s.mapStakeSeen kernel = none then l.record s kernel blockHash else l

def history (calls : List Call) : Seen × Ledger :=
  calls.foldl (fun x c => (c.run x.1, x.2.note x.1 c)) (.empty, ⟨[], fun _ => none⟩)

section

variable (seen : COutPoint → Option Uint256)

lemma forgetOldest_list (list : List COutPoint) :
    (forgetOldest seen list).listStakeSeen = list.drop (list.length - MAX_STAKE_SEEN_SIZE) := by
  induction list generalizing seen with
  | nil => rfl
  | cons oldest rest ih =>
    by_cases hlong : MAX_STAKE_SEEN_SIZE < (oldest :: rest).length
    · rw [forgetOldest, if_pos hlong, ih]
      rw [length_cons] at hlong ⊢
      rw [show rest.length + 1 - MAX_STAKE_SEEN_SIZE = (rest.length - MAX_STAKE_SEEN_SIZE) +
        1 by omega, drop_succ_cons]
    · rw [forgetOldest, if_neg hlong, Nat.sub_eq_zero_of_le (Nat.le_of_not_lt hlong)]
      rfl

lemma forgetOldest_map (list : List COutPoint) (hnodup : list.Nodup) (kernel : COutPoint)
    (hmem : kernel ∈ list) : (forgetOldest seen list).mapStakeSeen kernel =
      if kernel ∈ (forgetOldest seen list).listStakeSeen then seen kernel else none := by
  induction list generalizing seen with
  | nil => exact absurd hmem not_mem_nil
  | cons oldest rest ih =>
    obtain ⟨hfresh, hrest⟩ := nodup_cons.mp hnodup
    unfold forgetOldest
    split
    · have hlist := forgetOldest_list (update seen oldest none) rest
      by_cases heq : kernel = oldest
      · subst heq
        have hout : kernel ∉ (forgetOldest (update seen kernel none) rest).listStakeSeen := by
          rw [hlist]
          exact fun h => hfresh (mem_of_mem_drop h)
        rw [if_neg hout]
        cases hsome : (forgetOldest (update seen kernel none) rest).mapStakeSeen kernel with
        | none => rfl
        | some hash =>
          have := forgetOldest_some rest _ kernel hash hsome
          rw [update_self] at this
          cases this
      · rw [ih _ hrest ((mem_cons.mp hmem).resolve_left heq), update_of_ne heq]
    · rfl

end

/-- What the calls keep: the map and the list have the same kernels, and the list is the last part
of the ledger, with as many kernels as it has to have. -/
structure Remembers (s : Seen) (l : Ledger) : Prop where
  same : ∀ kernel, (s.mapStakeSeen kernel).isSome = true ↔ kernel ∈ s.listStakeSeen
  nodup : s.listStakeSeen.Nodup
  last : s.listStakeSeen <:+ l.recordings
  enough : min MAX_STAKE_SEEN_SIZE l.recordings.length ≤ s.listStakeSeen.length
  hash : ∀ kernel blockHash, s.mapStakeSeen kernel = some blockHash → l.lastHash kernel =
    some blockHash

variable {s : Seen} {l : Ledger}

lemma Remembers.none_iff (h : Remembers s l) (kernel : COutPoint) :
    s.mapStakeSeen kernel = none ↔ kernel ∉ s.listStakeSeen := by
  rw [← h.same, Option.not_isSome_iff_eq_none]

lemma Remembers.record {t : Seen} (ht : Remembers t l) (s : Seen) (kernel : COutPoint)
    (blockHash : Uint256) (hfresh : t.mapStakeSeen kernel = s.mapStakeSeen kernel) :
    Remembers (addToMapStakeSeen kernel blockHash t) (l.record s kernel blockHash) := by
  have hhash : ∀ k first, (addToMapStakeSeen kernel blockHash t).mapStakeSeen k = some first →
      (l.record s kernel blockHash).lastHash k = some first := by
    intro k first hk
    by_cases heq : k = kernel
    · subst heq
      have hk : update t.mapStakeSeen k (some blockHash) k = some first := hk
      rw [update_self] at hk
      exact (update_self ..).trans hk
    · have hk : update t.mapStakeSeen kernel (some blockHash) k = some first := hk
      rw [update_of_ne heq] at hk
      exact (update_of_ne heq _ _).trans (ht.hash k first hk)
  have hmem : ∀ k, ((addToMapStakeSeen kernel blockHash t).mapStakeSeen k).isSome = true ↔
      k = kernel ∨ k ∈ t.listStakeSeen := by
    intro k
    by_cases heq : k = kernel
    · subst heq
      simp [addToMapStakeSeen]
    · simp [addToMapStakeSeen, heq, ht.same]
  cases hknown : (s.mapStakeSeen kernel).isSome with
  | true =>
    have hin : kernel ∈ t.listStakeSeen := (ht.same kernel).mp (by rw [hfresh, hknown])
    have hlist : (addToMapStakeSeen kernel blockHash t).listStakeSeen = t.listStakeSeen := by
      simp [addToMapStakeSeen, hfresh, hknown]
    have hledger : (l.record s kernel blockHash).recordings = l.recordings := by
      simp [Ledger.record, hknown]
    refine ⟨fun k => ?_, hlist ▸ ht.nodup, ?_, ?_, hhash⟩
    · rw [hmem, hlist]
      exact or_iff_right_of_imp fun heq => heq ▸ hin
    · rw [hlist, hledger]
      exact ht.last
    · rw [hlist, hledger]
      exact ht.enough
  | false =>
    have hnone : t.mapStakeSeen kernel = none := by
      rw [hfresh]
      simpa using hknown
    have hlist : (addToMapStakeSeen kernel blockHash t).listStakeSeen =
        t.listStakeSeen ++ [kernel] := by
      simp [addToMapStakeSeen, hnone]
    have hledger : (l.record s kernel blockHash).recordings = l.recordings ++ [kernel] := by
      simp [Ledger.record, hknown]
    refine ⟨fun k => ?_, ?_, ?_, ?_, hhash⟩
    · rw [hmem, hlist, mem_append, mem_singleton, or_comm]
    · rw [hlist]
      rw [← concat_eq_append]
      exact ht.nodup.concat ((ht.none_iff kernel).mp hnone)
    · rw [hlist, hledger]
      obtain ⟨older, holder⟩ := ht.last
      exact ⟨older, by rw [← holder, append_assoc]⟩
    · have := ht.enough
      rw [hlist, hledger, length_append, length_append, length_singleton]
      omega

lemma Remembers.forget (h : Remembers s l) :
    Remembers (forgetOldest s.mapStakeSeen s.listStakeSeen) l := by
  have hlist := forgetOldest_list s.mapStakeSeen s.listStakeSeen
  have hsub : ∀ k ∈ (forgetOldest s.mapStakeSeen s.listStakeSeen).listStakeSeen,
      k ∈ s.listStakeSeen := by
    intro k hk
    rw [hlist] at hk
    exact mem_of_mem_drop hk
  refine ⟨fun k => ?_, ?_, ?_, ?_, ?_⟩
  · by_cases hk : k ∈ s.listStakeSeen
    · rw [forgetOldest_map _ _ h.nodup k hk]
      split
      · rename_i hin
        simp [hin, (h.same k).mpr hk]
      · rename_i hout
        simp [hout]
    · refine iff_of_false ?_ fun hin => hk (hsub k hin)
      intro hsome
      obtain ⟨hash, hash_eq⟩ := Option.isSome_iff_exists.mp hsome
      have := forgetOldest_some _ _ k hash hash_eq
      exact hk ((h.same k).mp (by rw [this]; rfl))
  · rw [hlist]
    exact h.nodup.drop
  · rw [hlist]
    exact (drop_suffix _ _).trans h.last
  · have := h.enough
    rw [hlist, length_drop]
    omega
  · intro k hash hk
    exact h.hash k hash (forgetOldest_some _ _ k hash hk)

lemma Remembers.afterCall (h : Remembers s l) (c : Call) : Remembers (c.run s) (l.note s c) := by
  cases c with
  | add kernel blockHash => exact h.record s kernel blockHash rfl
  | check blockHash kernel fUpdate =>
    cases hseen : s.mapStakeSeen kernel with
    | some first =>
      simpa only [Call.run, Ledger.note, checkStakeUnique, hseen, reduceCtorEq, and_false,
        if_false] using h
    | none =>
      cases fUpdate with
      | false =>
        simpa only [Call.run, Ledger.note, checkStakeUnique, hseen, Bool.false_eq_true, false_and,
          if_false] using h
      | true =>
        simp only [Call.run, Ledger.note, checkStakeUnique, hseen, and_self, if_true]
        refine h.forget.record s kernel blockHash ?_
        rw [hseen]
        cases hmap : (forgetOldest s.mapStakeSeen s.listStakeSeen).mapStakeSeen kernel with
        | none => rfl
        | some hash =>
          rw [forgetOldest_some _ _ kernel hash hmap] at hseen
          cases hseen

lemma history_remembers (calls : List Call) : Remembers (history calls).1 (history calls).2 := by
  induction calls using reverseRecOn with
  | nil =>
    refine ⟨fun kernel => ?_, nodup_nil, suffix_rfl, le_rfl.trans (Nat.zero_le _), ?_⟩
    · simp [history, Seen.empty]
    · rintro _ _ ⟨⟩
  | append_singleton calls c ih =>
    rw [history, foldl_append]
    exact ih.afterCall c

lemma Remembers.recent (h : Remembers s l) (kernel : COutPoint)
    (hrecent : kernel ∈ l.recordings.reverse.take MAX_STAKE_SEEN_SIZE) :
    kernel ∈ s.listStakeSeen := by
  obtain ⟨older, holder⟩ := h.last
  have henough := h.enough
  have hlength := congrArg length holder
  rw [length_append] at hlength
  rw [← holder, reverse_append] at hrecent
  rcases Nat.lt_or_ge s.listStakeSeen.length MAX_STAKE_SEEN_SIZE with hshort | hlong
  · have hnil : older = [] := eq_nil_of_length_eq_zero (by omega)
    rw [hnil, reverse_nil, append_nil] at hrecent
    exact mem_reverse.mp (mem_of_mem_take hrecent)
  · rw [take_append_of_le_length (by rwa [length_reverse])] at hrecent
    exact mem_reverse.mp (mem_of_mem_take hrecent)

/-- After any calls the map and the list have the same kernels, each of them once. A call of
`CheckStakeUnique` that records a kernel leaves a list of bounded length, and a kernel among those
recorded last is reported for every block but the one it stands for. -/
theorem kernels_remembered (calls : List Call) :
    (∀ kernel, ((history calls).1.mapStakeSeen kernel).isSome = true ↔
      kernel ∈ (history calls).1.listStakeSeen) ∧
    (history calls).1.listStakeSeen.Nodup ∧
    (∀ blockHash kernel, (history calls).1.mapStakeSeen kernel = none →
      (checkStakeUnique blockHash kernel true (history calls).1).2.mapStakeSeen kernel =
        some blockHash ∧
      (checkStakeUnique blockHash kernel true (history calls).1).2.listStakeSeen.length ≤
        MAX_STAKE_SEEN_SIZE + 1) ∧
    ∀ kernel ∈ (history calls).2.recordings.reverse.take MAX_STAKE_SEEN_SIZE,
      ∃ first, (history calls).2.lastHash kernel = some first ∧
        ∀ blockHash fUpdate, first ≠ blockHash →
          (checkStakeUnique blockHash kernel fUpdate (history calls).1).1 = false := by
  have h := history_remembers calls
  refine ⟨h.same, h.nodup, ?_, ?_⟩
  · intro blockHash kernel hnone
    have hlist := forgetOldest_list (history calls).1.mapStakeSeen (history calls).1.listStakeSeen
    simp only [checkStakeUnique, hnone, if_true, addToMapStakeSeen, update_self, true_and]
    split
    · rw [hlist, length_drop]
      omega
    · rw [hlist, length_append, length_drop, length_singleton]
      omega
  · intro kernel hrecent
    obtain ⟨first, hfirst⟩ := Option.isSome_iff_exists.mp
      ((h.same kernel).mpr (h.recent kernel hrecent))
    refine ⟨first, h.hash kernel first hfirst, ?_⟩
    intro blockHash fUpdate hne
    simp only [checkStakeUnique, hfirst, decide_eq_false_iff_not]
    exact hne

end SeenKernels
