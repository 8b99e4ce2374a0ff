import BitcoinC.SkipList
import BitcoinC.TxVerify

/-!
# Relative lock times

`CalculateSequenceLocks` keeps, over the inputs of a transaction, the last height
and the last time at which it is still locked. The block index is the skip list,
with the time of each entry.
-/

namespace SequenceLocks

open Primitives Environment Verdicts SkipList ParentPaths Option
open TxVerify (SEQUENCE_LOCKTIME_DISABLE_FLAG SEQUENCE_LOCKTIME_TYPE_FLAG SEQUENCE_LOCKTIME_MASK)

def LOCKTIME_VERIFY_SEQUENCE : UInt32 := 1

def nMedianTimeSpan : Nat := 11

section Model

variable (T : Tree) (nTime : Nat → UInt32)

def getMedianTimePast (p : Nat) : Int :=
  let times := (trail T nMedianTimeSpan (some p)).map fun pindex => (nTime pindex).toNat
  ((times.insertionSort (· ≤ ·)).getD (times.length / 2) 0 : Nat)

structure Locks where
  prevHeights : List Nat
  nMinHeight : Int
  nMinTime : Int
deriving Repr, DecidableEq

def skipped (txin : CTxIn) : Bool :=
  txin.isAnonInput ∨ txin.nSequence &&& SEQUENCE_LOCKTIME_DISABLE_FLAG ≠ 0

def masked (txin : CTxIn) : Int := (txin.nSequence &&& SEQUENCE_LOCKTIME_MASK).toNat

def timeBased (txin : CTxIn) : Bool := txin.nSequence &&& SEQUENCE_LOCKTIME_TYPE_FLAG ≠ 0

def lockInput (block : Nat) (locks : Locks) (x : CTxIn × Nat) : Option Locks :=
  if skipped x.1 then some { locks with prevHeights := locks.prevHeights ++ [0] }
  else if timeBased x.1 then do
    let ancestor ← (getAncestor T block (x.2 - 1 : Nat)).join
    let nCoinTime := getMedianTimePast T nTime ancestor
    some { locks with
      prevHeights := locks.prevHeights ++ [x.2]
      nMinTime := max locks.nMinTime (nCoinTime + masked x.1 * 512 - 1) }
  else some { locks with
      prevHeights := locks.prevHeights ++ [x.2]
      nMinHeight := max locks.nMinHeight (x.2 + masked x.1 - 1) }

def enforceBIP68 (tx : CTransaction) (flags : UInt32) : Bool :=
  tx.nVersion ≥ 2 ∧ flags &&& LOCKTIME_VERIFY_SEQUENCE ≠ 0

def calculateSequenceLocks (tx : CTransaction) (flags : UInt32) (prevHeights : List Nat)
    (block : Nat) : Option Locks :=
  if prevHeights.length ≠ tx.vin.length then none
  else if enforceBIP68 tx flags then
    (tx.vin.zip prevHeights).foldlM (lockInput T nTime block) ⟨[], -1, -1⟩
  else some ⟨prevHeights, -1, -1⟩

def evaluateSequenceLocks (block : Nat) (locks : Locks) : Option Bool := do
  let prev ← pprev T block
  let nBlockTime := getMedianTimePast T nTime prev
  some !(locks.nMinHeight ≥ nHeight T block || locks.nMinTime ≥ nBlockTime)

def sequenceLocks (tx : CTransaction) (flags : UInt32) (prevHeights : List Nat)
    (block : Nat) : Option Bool :=
  calculateSequenceLocks T nTime tx flags prevHeights block >>= evaluateSequenceLocks T nTime block

/-- The relative lock of an input is over: counted in blocks from the height of its
coin, or in units of 512 seconds from the median time before the coin's block. -/
def Satisfied (block prev : Nat) (x : CTxIn × Nat) : Prop :=
  if timeBased x.1 then
    ∃ before, Ancestor (pprev T) before block ∧ nHeight T before = x.2 - 1 ∧
      getMedianTimePast T nTime before + masked x.1 * 512 ≤ getMedianTimePast T nTime prev
  else x.2 + masked x.1 ≤ nHeight T block

end Model

section

variable {T : Tree} (nTime : Nat → UInt32)

lemma getMedianTimePast_nonneg (p : Nat) : 0 ≤ getMedianTimePast T nTime p := Int.natCast_nonneg _

lemma coin_ancestor (hT : Sound T) (block h : Nat) : (getAncestor T block (h - 1 : Nat)).join =
      if h - 1 ≤ nHeight T block then up (pprev T) (nHeight T block - (h - 1)) block else none := by
  split_ifs with hle
  · obtain ⟨q, hq, hup⟩ := hT.getAncestor_up hle
    rw [hq, hup]
    rfl
  · rw [getAncestor, if_pos (by omega)]
    rfl

lemma coin_ancestor_iff (hT : Sound T) (block h before : Nat) :
    (getAncestor T block (h - 1 : Nat)).join = some before ↔
      Ancestor (pprev T) before block ∧ nHeight T before = h - 1 := by
  rw [coin_ancestor hT, hT.ranked.ancestor_iff_up]
  constructor
  · intro hup
    split_ifs at hup with hle
    have hrank := hT.ranked.rank_of_up hup
    have hheight : nHeight T before = h - 1 := by omega
    refine ⟨⟨by omega, ?_⟩, hheight⟩
    rw [hheight]
    exact hup
  · rintro ⟨⟨hle, hup⟩, hheight⟩
    rw [hheight] at hle hup
    rw [if_pos hle, hup]

lemma heightLock_fits (txin : CTxIn) (h : Nat) (hh : h < 2 ^ 31 - 2 ^ 16) :
    0 ≤ h + masked txin ∧ h + masked txin < 2 ^ 31 := by
  have hmask : (txin.nSequence &&& SEQUENCE_LOCKTIME_MASK).toNat ≤ 0xffff := by
    rw [UInt32.toNat_and]
    exact Nat.and_le_right
  unfold masked
  omega

lemma lockInput_lt (hT : Sound T) {block prev : Nat} {locks locks' : Locks} {x : CTxIn × Nat}
    (hrun : lockInput T nTime block locks x = some locks') :
    (locks'.nMinHeight < nHeight T block ∧ locks'.nMinTime < getMedianTimePast T nTime prev) ↔
      (locks.nMinHeight < nHeight T block ∧ locks.nMinTime < getMedianTimePast T nTime prev) ∧
        (skipped x.1 = false → Satisfied T nTime block prev x) := by
  unfold lockInput at hrun
  split_ifs at hrun with hskip htime
  · obtain rfl := some.inj hrun
    simp [hskip]
  · obtain ⟨before, hbefore, hlocks⟩ := bind_eq_some_iff.mp hrun
    obtain rfl := some.inj hlocks
    rw [coin_ancestor_iff hT] at hbefore
    have honly : Satisfied T nTime block prev x ↔
        getMedianTimePast T nTime before + masked x.1 * 512 ≤ getMedianTimePast T nTime prev := by
      rw [Satisfied, if_pos htime]
      constructor
      · rintro ⟨other, hother, hheight, hle⟩
        have hsame := hT.ranked.ancestor_unique hother hbefore.1 (hheight.trans hbefore.2.symm)
        exact hsame ▸ hle
      · exact fun hle => ⟨before, hbefore.1, hbefore.2, hle⟩
    simp only [Bool.not_eq_true] at hskip
    rw [honly]
    simp only [hskip, forall_const]
    omega
  · obtain rfl := some.inj hrun
    simp only [Bool.not_eq_true] at hskip
    rw [Satisfied, if_neg htime]
    simp only [hskip, forall_const]
    omega

/-- A time lock whose coin lies above the tip. -/
def Stuck (T : Tree) (block : Nat) (x : CTxIn × Nat) : Prop :=
  skipped x.1 = false ∧ timeBased x.1 = true ∧ nHeight T block < x.2 - 1

lemma lockInput_eq_none_iff (hT : Sound T) (block : Nat) (locks : Locks) (x : CTxIn × Nat) :
    lockInput T nTime block locks x = none ↔ Stuck T block x := by
  unfold lockInput Stuck
  split_ifs with hskip htime
  · simp [hskip]
  · rw [coin_ancestor hT]
    split_ifs with hle
    · obtain ⟨q, hq⟩ := hT.ranked.exists_up (k := nHeight T block - (x.2 - 1)) (i := block)
        (by omega)
      simp [hq, hle]
    · simpa [hskip, htime] using Nat.lt_of_not_ge hle
  · simp [htime]

lemma lockInputs_lt (hT : Sound T) {block prev : Nat} {locks locks' : Locks}
    {xs : List (CTxIn × Nat)} (hrun : xs.foldlM (lockInput T nTime block) locks = some locks') :
    (locks'.nMinHeight < nHeight T block ∧ locks'.nMinTime < getMedianTimePast T nTime prev) ↔
      (locks.nMinHeight < nHeight T block ∧ locks.nMinTime < getMedianTimePast T nTime prev) ∧
        ∀ x ∈ xs, skipped x.1 = false → Satisfied T nTime block prev x := by
  induction xs generalizing locks with
  | nil =>
    obtain rfl := some.inj hrun
    simp
  | cons x xs ih =>
    obtain ⟨mid, hx, hrest⟩ := bind_eq_some_iff.mp hrun
    rw [ih hrest, lockInput_lt nTime hT hx, List.forall_mem_cons, and_assoc]

lemma lockInputs_eq_none_iff (hT : Sound T) (block : Nat) (locks : Locks)
    (xs : List (CTxIn × Nat)) :
    xs.foldlM (lockInput T nTime block) locks = none ↔ ∃ x ∈ xs, Stuck T block x := by
  induction xs generalizing locks with
  | nil => simp
  | cons x xs ih =>
    rw [List.foldlM_cons, List.exists_mem_cons_iff, ← lockInput_eq_none_iff nTime hT block locks x]
    cases hx : lockInput T nTime block locks x with
    | none => simp
    | some mid => simpa using ih mid

lemma Satisfied.not_stuck (hT : Sound T) {block prev : Nat} {x : CTxIn × Nat}
    (hx : skipped x.1 = false → Satisfied T nTime block prev x) : ¬ Stuck T block x := by
  rintro ⟨hskip, htime, habove⟩
  have hsat := hx hskip
  rw [Satisfied, if_pos htime] at hsat
  obtain ⟨before, hbefore, hheight, -⟩ := hsat
  have hle := hT.ranked.rank_le hbefore
  omega

end

lemma option_bool_ext {a b : Option Bool} (htrue : a = some true ↔ b = some true)
    (hnone : a = none ↔ b = none) : a = b := by
  rcases a with - | - | - <;> rcases b with - | - | - <;> simp_all

section

variable {T : Tree} (hT : Sound T) (nTime : Nat → UInt32) (tx : CTransaction) (flags : UInt32)
  (prevHeights : List Nat) {block prev : Nat}
include hT

lemma sequenceLocks_eq_true_iff (hprev : pprev T block = some prev)
    (hlen : prevHeights.length = tx.vin.length) :
    sequenceLocks T nTime tx flags prevHeights block = some true ↔
      (enforceBIP68 tx flags = true → ∀ x ∈ tx.vin.zip prevHeights,
        skipped x.1 = false → Satisfied T nTime block prev x) := by
  have hstart : (-1 : Int) < nHeight T block ∧ -1 < getMedianTimePast T nTime prev := by
    have hmedian := getMedianTimePast_nonneg (T := T) nTime prev
    omega
  have heval : ∀ locks : Locks, evaluateSequenceLocks T nTime block locks = some true ↔
      locks.nMinHeight < nHeight T block ∧ locks.nMinTime < getMedianTimePast T nTime prev := by
    intro locks
    simp [evaluateSequenceLocks, hprev]
  unfold sequenceLocks calculateSequenceLocks
  rw [if_neg (not_not.mpr hlen)]
  by_cases henforce : enforceBIP68 tx flags = true
  · rw [if_pos henforce]
    simp only [henforce, forall_const]
    cases hrun : (tx.vin.zip prevHeights).foldlM (lockInput T nTime block) ⟨[], -1, -1⟩ with
    | none =>
      obtain ⟨x, hx, hstuck⟩ := (lockInputs_eq_none_iff nTime hT block _ _).mp hrun
      refine ⟨nofun, fun hall => absurd hstuck ?_⟩
      exact Satisfied.not_stuck nTime hT (hall x hx)
    | some locks =>
      refine (heval locks).trans ((lockInputs_lt nTime hT hrun).trans ?_)
      exact and_iff_right hstart
  · rw [if_neg henforce]
    refine ⟨fun _ h => absurd h henforce, fun _ => ?_⟩
    exact (heval _).mpr hstart

lemma sequenceLocks_eq_none_iff (hprev : pprev T block = some prev)
    (hlen : prevHeights.length = tx.vin.length) :
    sequenceLocks T nTime tx flags prevHeights block = none ↔
      enforceBIP68 tx flags = true ∧ ∃ x ∈ tx.vin.zip prevHeights, Stuck T block x := by
  unfold sequenceLocks calculateSequenceLocks
  rw [if_neg (not_not.mpr hlen)]
  by_cases henforce : enforceBIP68 tx flags = true
  · rw [if_pos henforce, ← lockInputs_eq_none_iff nTime hT block ⟨[], -1, -1⟩]
    simp only [henforce, true_and]
    cases (tx.vin.zip prevHeights).foldlM (lockInput T nTime block) ⟨[], -1, -1⟩ with
    | none => simp
    | some locks => simp [evaluateSequenceLocks, hprev]
  · rw [if_neg henforce]
    simp [evaluateSequenceLocks, hprev, henforce]

end

section Branches

variable {T : Tree} (hT : Sound T) (entry : Nat → CBlockIndex)

def branchOf (T : Tree) (p : Nat) : List CBlockIndex :=
  (trail T (nHeight T p + 1) (some p)).map entry

lemma branchOf_cons (T : Tree) (p : Nat) :
    branchOf entry T p = entry p :: (trail T (nHeight T p) (pprev T p)).map entry := rfl

include hT

lemma getMedianTimePast_branchOf (p : Nat) :
    TxVerify.getMedianTimePast (branchOf entry T p) = getMedianTimePast T
      (fun q => (entry q).nTime) p := by
  have hsame : (trail T (nHeight T p + 1) (some p)).take 11 = trail T 11 (some p) := by
    rw [← hT.trail_stable (n := nHeight T p + 12) (by omega)]
    exact take_trail (by omega) _
  rw [TxVerify.getMedianTimePast, getMedianTimePast, branchOf, ← List.map_take, hsame, List.map_map]
  rfl

variable (hheight : ∀ q, (entry q).nHeight = nHeight T q)
include hheight

lemma getAncestor_branchOf (block h : Nat) : TxVerify.getAncestor (branchOf entry T block) h =
      ((getAncestor T block h).join.map (branchOf entry T)).getD [] := by
  have hdrop : TxVerify.getAncestor (branchOf entry T block) h =
      ((trail T (nHeight T block + 1) (some block)).dropWhile fun r => nHeight T r ≠
        h).map entry := by
    rw [TxVerify.getAncestor, branchOf, List.dropWhile_map]
    simp only [Function.comp_def, hheight]
  rw [hdrop]
  rcases Nat.lt_or_ge (nHeight T block) h with habove | hle
  · rw [hT.dropWhile_trail_of_lt habove, getAncestor, if_pos (by omega)]
    rfl
  · obtain ⟨q, hq, hup⟩ := hT.getAncestor_up hle
    have hrank := hT.ranked.rank_of_up hup
    have hsame : nHeight T q = h := by omega
    rw [hq, ← hsame, hT.dropWhile_trail hup]
    rfl

lemma lockInput_branchOf (block : Nat) (locks : Locks) (x : CTxIn × Nat) :
    (TxVerify.sequenceLock (branchOf entry T block) (locks.nMinHeight, locks.nMinTime) x).toOption =
      (lockInput T (fun q => (entry q).nTime) block locks x).map fun l =>
        (l.nMinHeight, l.nMinTime) := by
  have hanc := getAncestor_branchOf hT entry hheight block (x.2 - 1)
  by_cases hskip : skipped x.1 = true
  · rw [TxVerify.sequenceLock, if_pos (of_decide_eq_true hskip), lockInput, if_pos hskip]
    rfl
  · rw [TxVerify.sequenceLock, if_neg (of_decide_eq_false (Bool.not_eq_true _ ▸ hskip)), lockInput,
      if_neg hskip]
    by_cases htime : timeBased x.1 = true
    · rw [if_pos htime]
      dsimp only
      rw [if_pos (of_decide_eq_true htime)]
      cases hbefore : (getAncestor T block (x.2 - 1 : Nat)).join with
      | none =>
        rw [hbefore] at hanc
        rw [hanc]
        rfl
      | some before =>
        have hmedian := getMedianTimePast_branchOf hT entry before
        rw [branchOf_cons entry T before] at hmedian
        rw [hanc, hbefore, map_some, getD_some, branchOf_cons entry T before]
        dsimp only
        rw [hmedian]
        rfl
    · rw [if_neg htime]
      dsimp only
      rw [if_neg (of_decide_eq_false (Bool.not_eq_true _ ▸ htime))]
      rfl

/-- Both loops over the inputs compute the same locks. -/
lemma lockInputs_branchOf (block : Nat) (locks : Locks) (xs : List (CTxIn × Nat)) :
    (loop (TxVerify.sequenceLock (branchOf entry T block)) (locks.nMinHeight, locks.nMinTime)
      xs).toOption = (xs.foldlM (lockInput T (fun q => (entry q).nTime) block) locks).map
        fun l => (l.nMinHeight, l.nMinTime) := by
  induction xs generalizing locks with
  | nil => rfl
  | cons x xs ih =>
    have hx := lockInput_branchOf hT entry hheight block locks x
    rw [List.foldlM_cons, loop]
    cases hstep : TxVerify.sequenceLock (branchOf entry T block) (locks.nMinHeight,
      locks.nMinTime) x with
    | error e =>
      rw [hstep] at hx
      rw [map_eq_none_iff.mp hx.symm]
      rfl
    | ok lock =>
      rw [hstep] at hx
      obtain ⟨mid, hmid, hlock⟩ := map_eq_some_iff.mp hx.symm
      rw [hmid, ← hlock]
      exact ih mid

/-- `SequenceLocks` over the tree of block objects gives the verdict that the block checks compute
from the branch as a list. -/
theorem sequenceLocks_branchOf (tx : CTransaction) {flags : UInt32}
    (hflag : flags &&& LOCKTIME_VERIFY_SEQUENCE ≠ 0)
    {prevHeights : List Nat} (hlen : prevHeights.length = tx.vin.length) {block prev : Nat}
    (hprev : pprev T block = some prev) :
    (TxVerify.sequenceLocks tx prevHeights (branchOf entry T block)).toOption =
      sequenceLocks T (fun q => (entry q).nTime) tx flags prevHeights block := by
  have hmedian := getMedianTimePast_branchOf hT entry prev
  have hbranch : branchOf entry T block = entry block :: branchOf entry T prev := by
    rw [branchOf, hT.trail_pprev hprev]
    rfl
  rw [branchOf_cons entry T prev] at hmedian hbranch
  have heval : ∀ locks : Locks, evaluateSequenceLocks T (fun q => (entry q).nTime) block locks =
      some (decide (locks.nMinHeight < (entry block).nHeight) &&
        decide (locks.nMinTime < getMedianTimePast T (fun q => (entry q).nTime) prev)) := by
    intro locks
    simp only [evaluateSequenceLocks, hprev, hheight, bind_eq_bind, bind_some, Bool.not_or,
      ← Int.not_le, decide_not, ge_iff_le]
  have hcalc : (TxVerify.calculateSequenceLocks tx prevHeights (branchOf entry T block)).toOption =
      (calculateSequenceLocks T (fun q => (entry q).nTime) tx flags prevHeights block).map
        fun l => (l.nMinHeight, l.nMinTime) := by
    rw [TxVerify.calculateSequenceLocks, calculateSequenceLocks, if_neg (not_not.mpr hlen)]
    by_cases hversion : tx.nVersion < 2
    · have hoff : enforceBIP68 tx flags =
        false := by simp [enforceBIP68, UInt32.not_le.mpr hversion]
      rw [if_pos hversion, hoff]
      rfl
    · have hon : enforceBIP68 tx flags =
        true := by simp [enforceBIP68, UInt32.not_lt.mp hversion, hflag]
      rw [if_neg hversion, if_pos hon]
      exact lockInputs_branchOf hT entry hheight block ⟨[], -1, -1⟩ _
  rw [TxVerify.sequenceLocks, sequenceLocks]
  cases hrun : TxVerify.calculateSequenceLocks tx prevHeights (branchOf entry T block) with
  | error e =>
    rw [hrun] at hcalc
    rw [map_eq_none_iff.mp hcalc.symm]
    rfl
  | ok lock =>
    rw [hrun] at hcalc
    obtain ⟨locks, hlocks, rfl⟩ := map_eq_some_iff.mp hcalc.symm
    rw [hlocks, hbranch]
    refine Eq.trans ?_ (heval locks).symm
    rw [← hmedian]
    rfl

end Branches

/-- A transaction passes `SequenceLocks` exactly when each of its inputs satisfies its own rule; the
order of the inputs makes no difference, and the sums of heights stay within an `int`. -/
theorem sequenceLocks_accepts_iff {T : Tree} (hT : Built T) (nTime : Nat → UInt32)
    (tx : CTransaction) (flags : UInt32) (prevHeights : List Nat) {block prev : Nat}
    (hprev : pprev T block = some prev) (hlen : prevHeights.length = tx.vin.length) :
    (sequenceLocks T nTime tx flags prevHeights block = some true ↔
      (enforceBIP68 tx flags = true → ∀ x ∈ tx.vin.zip prevHeights,
        skipped x.1 = false → Satisfied T nTime block prev x)) ∧
    (∀ (tx' : CTransaction) (prevHeights' : List Nat), tx'.nVersion = tx.nVersion →
      prevHeights'.length = tx'.vin.length → (tx'.vin.zip prevHeights').Perm
        (tx.vin.zip prevHeights) →
      sequenceLocks T nTime tx' flags prevHeights' block =
        sequenceLocks T nTime tx flags prevHeights block) ∧
    ∀ x ∈ tx.vin.zip prevHeights, x.2 < 2 ^ 31 - 2 ^ 16 →
      0 ≤ x.2 + masked x.1 ∧ x.2 + masked x.1 < 2 ^ 31 := by
  refine ⟨sequenceLocks_eq_true_iff hT.sound nTime tx flags prevHeights hprev hlen, ?_,
    fun x _ => heightLock_fits x.1 x.2⟩
  intro tx' prevHeights' hversion hlen' hperm
  have henforce : enforceBIP68 tx' flags = enforceBIP68 tx flags := by
    unfold enforceBIP68
    rw [hversion]
  have htrue : sequenceLocks T nTime tx' flags prevHeights' block = some true ↔
      sequenceLocks T nTime tx flags prevHeights block = some true := by
    rw [sequenceLocks_eq_true_iff hT.sound nTime tx' flags prevHeights' hprev hlen', henforce,
      sequenceLocks_eq_true_iff hT.sound nTime tx flags prevHeights hprev hlen]
    simp only [hperm.mem_iff]
  have hnone : sequenceLocks T nTime tx' flags prevHeights' block = none ↔
      sequenceLocks T nTime tx flags prevHeights block = none := by
    rw [sequenceLocks_eq_none_iff hT.sound nTime tx' flags prevHeights' hprev hlen', henforce,
      sequenceLocks_eq_none_iff hT.sound nTime tx flags prevHeights hprev hlen]
    simp only [hperm.mem_iff]
  exact option_bool_ext htrue hnone

def lockedTx : CTransaction :=
  { nVersion := 160, vpout := [],
    vin := [{ prevout := ⟨7, 0⟩, nSequence := 2 }, { prevout := ⟨8, 0⟩, nSequence := 0x00400001 }] }

theorem sequenceLocks_accepts_lockedTx :
    sequenceLocks forked (fun q => UInt32.ofNat (512 * q)) lockedTx 1 [1, 1] 4 = some true ∧
      ∀ x ∈ lockedTx.vin.zip [1, 1], skipped x.1 = false →
        Satisfied forked (fun q => UInt32.ofNat (512 * q)) 4 2 x := by
  have hrun : sequenceLocks forked (fun q => UInt32.ofNat (512 * q)) lockedTx 1 [1, 1] 4 =
      some true := by
    decide +kernel
  have hprev : pprev forked 4 = some 2 := by decide
  have hiff := (sequenceLocks_accepts_iff forked_built (fun q => UInt32.ofNat (512 * q))
    lockedTx 1 [1, 1] hprev (by decide)).1
  exact ⟨hrun, hiff.mp hrun (by decide)⟩

def forkedEntry (q : Nat) : CBlockIndex := ⟨0, nHeight forked q, UInt32.ofNat (512 * q), 0, 0,
    ⟨0, 0⟩, 0, 0⟩

theorem sequenceLocks_branchOf_lockedTx :
    (TxVerify.sequenceLocks lockedTx [1, 1] (branchOf forkedEntry forked 4)).toOption =
      some true := by
  have hprev : pprev forked 4 = some 2 := by decide
  have hflag : (1 : UInt32) &&& LOCKTIME_VERIFY_SEQUENCE ≠ 0 := by decide
  rw [sequenceLocks_branchOf forked_built.sound forkedEntry (fun _ => rfl) lockedTx hflag rfl hprev]
  decide +kernel

end SequenceLocks
