import BitcoinC.ParentPaths
import Mathlib.Data.List.Basic
import Mathlib.Order.Lattice

/-!
# The skip list over the block index

Block index entries point to their predecessor and to one ancestor further back
(`pskip`).
-/

namespace SkipList

open ParentPaths List Option

variable (vChain : List Nat) {fuel p : Nat} (n : Nat) {height : Nat}

structure Entry where
  pprev : Option Nat
  nHeight : Nat
  pskip : Option Nat
deriving Repr, DecidableEq

abbrev Tree := List Entry

section Model

variable (T : Tree)

def pprev (p : Nat) : Option Nat := T[p]?.bind Entry.pprev

def pskip (p : Nat) : Option Nat := T[p]?.bind Entry.pskip

def nHeight (p : Nat) : Nat := (T[p]?.map Entry.nHeight).getD 0

def invertLowestOne (n : Nat) : Nat := n &&& (n - 1)

def getSkipHeight (height : Nat) : Nat :=
  if height < 2 then 0
  else if height &&& 1 ≠ 0 then invertLowestOne (invertLowestOne (height - 1)) + 1
  else invertLowestOne height

/-- The skip pointer where the walk follows it: unless the predecessor's skip
pointer is the better one. -/
def jump (height heightWalk pindexWalk : Nat) : Option Nat :=
  let heightSkip := getSkipHeight heightWalk
  let heightSkipPrev := getSkipHeight (heightWalk - 1)
  (pskip T pindexWalk).filter fun _ =>
    heightSkip = height ∨
      (heightSkip > height ∧ ¬ ((heightSkipPrev : Int) < heightSkip - 2 ∧ heightSkipPrev ≥ height))

/-- The loop of `GetAncestor`. There is no result when a predecessor that is
asserted is missing, or when the fuel is used up. -/
def getAncestorLoop (height : Nat) : Nat → Nat → Nat → Option Nat
  | 0, heightWalk, pindexWalk => if heightWalk > height then none else some pindexWalk
  | fuel + 1, heightWalk, pindexWalk =>
    if heightWalk > height then
      (jump T height heightWalk pindexWalk).elim
        ((pprev T pindexWalk).bind (getAncestorLoop height fuel (heightWalk - 1)))
        (getAncestorLoop height fuel (getSkipHeight heightWalk))
    else some pindexWalk

def getAncestor (p : Nat) (height : Int) : Option (Option Nat) :=
  if height > nHeight T p ∨ height < 0 then some none
  else (getAncestorLoop T height.toNat (nHeight T p) (nHeight T p) p).map some

/-- The entries of a block index, each with the skip pointer `BuildSkip` gives it
once its predecessor is there. -/
inductive Built : Tree → Prop
  | empty : Built []
  | root {T : Tree} : Built T → Built (T ++ [⟨none, 0, none⟩])
  | child {T : Tree} {q : Nat} {s : Option Nat} : Built T → q < T.length →
      getAncestor T q (getSkipHeight (nHeight T q + 1)) = some s →
      Built (T ++ [⟨some q, nHeight T q + 1, s⟩])

def trail : Nat → Option Nat → List Nat
  | n + 1, some p => p :: trail n (pprev T p)
  | _, _ => []

def lowered (p : Nat) (height : Int) : Option (Option Nat) :=
  if (nHeight T p : Int) > height then getAncestor T p height else some (some p)

def meetLoop : Nat → Option Nat → Option Nat → Option (Option Nat)
  | fuel + 1, some a, some b =>
    if a = b then some (some a) else meetLoop fuel (pprev T a) (pprev T b)
  | _, pa, pb => if pa = pb then some pa else none

def lastCommonAncestor (pa pb : Nat) : Option (Option Nat) := do
  let qa ← lowered T pa (nHeight T pb)
  let qb ← lowered T pb (nHeight T pa)
  meetLoop T (nHeight T pa + 1) qa qb

def chainAt (vChain : List Nat) (height : Int) : Option Nat :=
  if height < 0 ∨ height ≥ vChain.length then none else vChain[height.toNat]?

def contains (vChain : List Nat) (p : Nat) : Bool := chainAt vChain (nHeight T p) = some p

def chainHeight (vChain : List Nat) : Int := vChain.length - 1

def findForkLoop (vChain : List Nat) : Nat → Option Nat → Option (Option Nat)
  | _, none => some none
  | 0, some p => if contains T vChain p then some (some p) else none
  | fuel + 1, some p =>
    if contains T vChain p then some (some p) else findForkLoop vChain fuel (pprev T p)

def findFork (vChain : List Nat) (p : Nat) : Option (Option Nat) := do
  let q ← lowered T p (chainHeight vChain)
  findForkLoop T vChain (nHeight T p + 1) q

end Model

lemma invertLowestOne_le : invertLowestOne n ≤ n - 1 := Nat.and_le_right

lemma getSkipHeight_lt (height : Nat) (hpos : 0 < height) : getSkipHeight height < height := by
  have hinner := invertLowestOne_le (height - 1)
  have houter := invertLowestOne_le (invertLowestOne (height - 1))
  have heven := invertLowestOne_le height
  simp only [getSkipHeight]
  split_ifs <;> omega

/-- Heights follow the parents, and skip pointers name the ancestors they should. -/
structure Sound (T : Tree) : Prop where
  earlier : ∀ p q, pprev T p = some q → q < T.length
  ranked : Ranked (pprev T) (nHeight T)
  skip : ∀ p s, pskip T p = some s →
    up (pprev T) (nHeight T p - getSkipHeight (nHeight T p)) p = some s

section Walk

variable {T : Tree} (hT : Sound T)
include hT

lemma Sound.exists_pprev (hpos : 0 < nHeight T p) :
    ∃ q, pprev T p = some q ∧ nHeight T p = nHeight T q + 1 := by
  cases hq : pprev T p with
  | none =>
    have hroot := hT.ranked.root p hq
    omega
  | some q => exact ⟨q, rfl, hT.ranked.child p q hq⟩

lemma Sound.jump_up {s : Nat} (hs : jump T height (nHeight T p) p = some s) :
    up (pprev T) (nHeight T p - getSkipHeight (nHeight T p)) p = some s ∧
      height ≤ getSkipHeight (nHeight T p) := by
  obtain ⟨hskip, hcond⟩ := filter_eq_some_iff.mp hs
  refine ⟨hT.skip p s hskip, ?_⟩
  rcases of_decide_eq_true hcond with hsame | ⟨hbelow, -⟩
  · exact hsame.ge
  · exact hbelow.le

lemma Sound.getAncestorLoop_eq (hle : height ≤ nHeight T p) (hfuel : nHeight T p - height ≤ fuel) :
    getAncestorLoop T height fuel (nHeight T p) p = up (pprev T) (nHeight T p - height) p := by
  induction fuel generalizing p with
  | zero =>
    have hsame : nHeight T p = height := by omega
    simp only [getAncestorLoop, hsame, gt_iff_lt, lt_irrefl, if_false, Nat.sub_self, up]
  | succ fuel ih =>
    by_cases hwalk : nHeight T p > height
    · rw [getAncestorLoop, if_pos hwalk]
      cases hs : jump T height (nHeight T p) p with
      | none =>
        obtain ⟨q, hq, hrank⟩ := hT.exists_pprev (p := p) (by omega)
        have hnext := ih (p := q) (by omega) (by omega)
        have hsteps : nHeight T p - height - 1 = nHeight T q - height := by omega
        have hheight : nHeight T p - 1 = nHeight T q := by omega
        rw [elim_none, hq, bind_some, hheight, hnext, up_of_parent hq (by omega), hsteps]
      | some s =>
        obtain ⟨hup, hover⟩ := hT.jump_up hs
        have hbelow := getSkipHeight_lt (nHeight T p) (by omega)
        have hrank := hT.ranked.rank_of_up hup
        have hheight : getSkipHeight (nHeight T p) = nHeight T s := by omega
        have hnext := ih (p := s) (by omega) (by omega)
        have hsteps : nHeight T p - height
            = (nHeight T p - getSkipHeight (nHeight T p)) + (nHeight T s - height) := by omega
        rw [elim_some, hheight, hnext, hsteps, up_add, hup, bind_some]
    · have hsame : nHeight T p = height := by omega
      rw [getAncestorLoop, if_neg hwalk, hsame, Nat.sub_self, up]

/-- `GetAncestor` finds what following the parents finds. -/
lemma Sound.getAncestor_up (hle : height ≤ nHeight T p) :
    ∃ q, getAncestor T p height = some (some q) ∧ up (pprev T) (nHeight T p - height) p =
      some q := by
  obtain ⟨q, hq⟩ := hT.ranked.exists_up (k := nHeight T p - height) (i := p) (by omega)
  refine ⟨q, ?_, hq⟩
  have hloop := hT.getAncestorLoop_eq hle (Nat.sub_le _ _)
  rw [getAncestor, if_neg (by omega), Int.toNat_natCast, hloop, hq, map_some]

end Walk

section Trails

variable {T : Tree}

lemma trail_none : trail T n none = [] := by
  cases n <;> rfl

lemma take_trail {m n : Nat} (hle : m ≤ n) (p : Option Nat) : (trail T n p).take m =
    trail T m p := by
  induction m generalizing n p with
  | zero => cases p <;> rfl
  | succ m ih =>
    obtain ⟨n, rfl⟩ : ∃ k, n = k + 1 := ⟨n - 1, by omega⟩
    cases p with
    | none => rfl
    | some p => rw [trail, trail, take_succ_cons, ih (by omega)]

variable (hT : Sound T)
include hT

lemma Sound.trail_stable {n : Nat} (hn : nHeight T p < n) :
    trail T n (some p) = trail T (nHeight T p + 1) (some p) := by
  induction n generalizing p with
  | zero => omega
  | succ n ih =>
    rw [trail, trail]
    congr 1
    cases hq : pprev T p with
    | none => rw [trail_none, trail_none]
    | some q =>
      have hchild := hT.ranked.child p q hq
      rw [ih (by omega), hchild]

lemma Sound.trail_pprev {q : Nat} (hq : pprev T p = some q) :
    trail T (nHeight T p + 1) (some p) = p :: trail T (nHeight T q + 1) (some q) := by
  rw [trail, hq, hT.ranked.child p q hq]

lemma Sound.dropWhile_trail {k q : Nat} (hup : up (pprev T) k p = some q) :
    (trail T (nHeight T p + 1) (some p)).dropWhile (fun r => nHeight T r ≠ nHeight T q) =
      trail T (nHeight T q + 1) (some q) := by
  induction k generalizing p with
  | zero =>
    obtain rfl := some.inj hup
    rw [trail, dropWhile_cons_of_neg (by simp)]
  | succ k ih =>
    obtain ⟨r, hr, hrest⟩ := bind_eq_some_iff.mp hup
    have hrank := hT.ranked.rank_of_up hup
    rw [hT.trail_pprev hr, dropWhile_cons_of_pos (by simp; omega), ih hrest]

lemma Sound.dropWhile_trail_of_lt (habove : nHeight T p < height) (n : Nat) :
    (trail T n (some p)).dropWhile (fun r => nHeight T r ≠ height) = [] := by
  induction n generalizing p with
  | zero => rfl
  | succ n ih =>
    rw [trail, dropWhile_cons_of_pos (by simp; omega)]
    cases hq : pprev T p with
    | none => rw [trail_none, dropWhile_nil]
    | some q =>
      have hchild := hT.ranked.child p q hq
      exact ih (by omega)

end Trails

section Append

variable (T : Tree) (e : Entry)

lemma at_append_of_ne (hp : p ≠ T.length) : (T ++ [e])[p]? = T[p]? := by
  rcases Nat.lt_or_ge p T.length with hlt | hge
  · exact getElem?_append_left hlt
  · rw [getElem?_eq_none_iff.mpr hge, getElem?_eq_none_iff.mpr]
    rw [length_append, length_singleton]
    omega

lemma at_append_new : (T ++ [e])[T.length]? = some e := getElem?_concat_length

lemma up_append {T : Tree} (hT : Sound T) (hp : p ≠ T.length) (k : Nat) :
    up (pprev (T ++ [e])) k p = up (pprev T) k p := by
  induction k generalizing p with
  | zero => rfl
  | succ k ih =>
    have hparent : pprev (T ++ [e]) p = pprev T p := by rw [pprev, at_append_of_ne T e hp, pprev]
    simp only [up, hparent]
    cases hq : pprev T p with
    | none => rfl
    | some q => exact ih (hT.earlier p q hq).ne

end Append

lemma Sound.append {T : Tree} (hT : Sound T) {e : Entry}
    (hparent : ∀ q, e.pprev = some q → q < T.length ∧ e.nHeight = nHeight T q + 1)
    (hroot : e.pprev = none → e.nHeight = 0 ∧ e.pskip = none)
    (hskip : ∀ q s, e.pprev = some q → e.pskip = some s →
      up (pprev T) (nHeight T q - getSkipHeight e.nHeight) q = some s) : Sound (T ++ [e]) := by
  have hold : ∀ p, p ≠ T.length → pprev (T ++ [e]) p = pprev T p ∧
      nHeight (T ++ [e]) p = nHeight T p ∧ pskip (T ++ [e]) p = pskip T p := by
    intro p hp
    simp only [pprev, nHeight, pskip, at_append_of_ne T e hp, and_self]
  have hnew : pprev (T ++ [e]) T.length = e.pprev ∧ nHeight (T ++ [e]) T.length = e.nHeight ∧
      pskip (T ++ [e]) T.length = e.pskip := by
    simp only [pprev, nHeight, pskip, at_append_new, bind_some, map_some, getD_some, and_self]
  constructor
  case earlier =>
    intro p q hq
    rw [length_append, length_singleton]
    by_cases hp : p = T.length
    · rw [hp, hnew.1] at hq
      have hlt := (hparent q hq).1
      omega
    · rw [(hold p hp).1] at hq
      have hlt := hT.earlier p q hq
      omega
  case ranked =>
    constructor
    · intro p q hq
      by_cases hp : p = T.length
      · rw [hp, hnew.1] at hq
        obtain ⟨hlt, hheight⟩ := hparent q hq
        rw [hp, hnew.2.1, (hold q hlt.ne).2.1, hheight]
      · rw [(hold p hp).1] at hq
        rw [(hold p hp).2.1, (hold q (hT.earlier p q hq).ne).2.1]
        exact hT.ranked.child p q hq
    · intro p hq
      by_cases hp : p = T.length
      · rw [hp, hnew.1] at hq
        rw [hp, hnew.2.1]
        exact (hroot hq).1
      · rw [(hold p hp).1] at hq
        rw [(hold p hp).2.1]
        exact hT.ranked.root p hq
  case skip =>
    intro p s hs
    by_cases hp : p = T.length
    · rw [hp, hnew.2.2] at hs
      rw [hp, hnew.2.1]
      cases hq : e.pprev with
      | none =>
        have hnone := (hroot hq).2
        rw [hs] at hnone
        cases hnone
      | some q =>
        obtain ⟨hlt, hheight⟩ := hparent q hq
        have hbelow := getSkipHeight_lt e.nHeight (by omega)
        -- one step to the predecessor, then the way the skip pointer was found
        have hsteps : e.nHeight - getSkipHeight e.nHeight
            = (nHeight T q - getSkipHeight e.nHeight) + 1 := by omega
        rw [hsteps, up, hnew.1, hq, bind_some, up_append e hT hlt.ne]
        exact hskip q s hq hs
    · rw [(hold p hp).2.2] at hs
      rw [(hold p hp).2.1, up_append e hT hp]
      exact hT.skip p s hs

/-- Trees built by `BuildSkip` have sound pointers. -/
lemma Built.sound {T : Tree} (hT : Built T) : Sound T := by
  induction hT with
  | empty => exact ⟨nofun, ⟨nofun, fun _ _ => rfl⟩, nofun⟩
  | root _ ih => exact ih.append nofun (fun _ => ⟨rfl, rfl⟩) nofun
  | @child T q s _ hq hs ih =>
    have hbelow := Nat.le_of_lt_succ (getSkipHeight_lt _ (Nat.succ_pos (nHeight T q)))
    obtain ⟨r, hr, hup⟩ := ih.getAncestor_up hbelow
    rw [hs] at hr
    apply ih.append
    · rintro q' ⟨⟩
      exact ⟨hq, rfl⟩
    · nofun
    · rintro q' s' ⟨⟩ hs'
      rw [some.inj hr] at hs'
      rw [← some.inj hs']
      exact hup

section Searches

variable {T : Tree} (hT : Sound T)
include hT

lemma Sound.meetLoop_highest {a b : Nat} (hsame : nHeight T a = nHeight T b)
    (hfuel : nHeight T a < fuel) : ∃ r, meetLoop T fuel (some a) (some b) = some r ∧
      HighestOf (nHeight T) (fun c => Ancestor (pprev T) c a ∧ Ancestor (pprev T) c b) r := by
  induction fuel generalizing a b with
  | zero => omega
  | succ fuel ih =>
    rw [meetLoop]
    by_cases heq : a = b
    · subst heq
      rw [if_pos rfl]
      exact ⟨_, rfl, hT.ranked.highestOf_self ⟨.refl a, .refl a⟩ fun _ hl => hl.1⟩
    · rw [if_neg heq]
      -- at one height neither of two different blocks is above the other
      have hapart : ∀ c, Ancestor (pprev T) c a ∧ Ancestor (pprev T) c b → c ≠ a ∧ c ≠ b := by
        rintro c ⟨hca, hcb⟩
        constructor
        · rintro rfl
          exact heq (hT.ranked.ancestor_unique hcb (.refl b) hsame)
        · rintro rfl
          exact heq (hT.ranked.ancestor_unique hca (.refl a) hsame.symm).symm
      have hcommon : ∀ c, Ancestor (pprev T) c a ∧ Ancestor (pprev T) c b ↔
          (∃ p, pprev T a = some p ∧ Ancestor (pprev T) c p) ∧
            ∃ q, pprev T b = some q ∧ Ancestor (pprev T) c q := by
        intro c
        constructor
        · intro hc
          obtain ⟨hna, hnb⟩ := hapart c hc
          exact ⟨(ancestor_iff.mp hc.1).resolve_left hna, (ancestor_iff.mp hc.2).resolve_left hnb⟩
        · rintro ⟨ha, hb⟩
          exact ⟨ancestor_iff.mpr (Or.inr ha), ancestor_iff.mpr (Or.inr hb)⟩
      rcases Nat.eq_zero_or_pos (nHeight T a) with hzero | hpos
      · have hnone : ∀ p, nHeight T p = 0 → pprev T p = none := by
          intro p hp
          cases hq : pprev T p with
          | none => rfl
          | some q =>
            have hchild := hT.ranked.child p q hq
            omega
        have ha := hnone a hzero
        have hb := hnone b (hsame ▸ hzero)
        refine ⟨none, ?_, fun c hc => ?_⟩
        · rw [ha, hb]
          cases fuel <;> rfl
        · obtain ⟨⟨p, hp, -⟩, -⟩ := (hcommon c).mp hc
          rw [ha] at hp
          cases hp
      · obtain ⟨p, hp, hrp⟩ := hT.exists_pprev hpos
        obtain ⟨q, hq, hrq⟩ := hT.exists_pprev (hsame ▸ hpos)
        obtain ⟨r, hr, hhigh⟩ := ih (a := p) (b := q) (by omega) (by omega)
        refine ⟨r, ?_, hhigh.congr fun c => ?_⟩
        · rw [hp, hq]
          exact hr
        · rw [hcommon c, hp, hq]
          simp only [some.injEq, exists_eq_left']

lemma Sound.lowered_eq (p height : Nat) :
    ∃ q, lowered T p height = some (some q) ∧ nHeight T q = min (nHeight T p) height ∧
      ∀ c, nHeight T c ≤ height → (Ancestor (pprev T) c p ↔ Ancestor (pprev T) c q) := by
  by_cases habove : (nHeight T p : Int) > height
  · have hle : height ≤ nHeight T p := by omega
    obtain ⟨q, hq, hup⟩ := hT.getAncestor_up hle
    have hrank := hT.ranked.rank_of_up hup
    have hqp : Ancestor (pprev T) q p := ⟨_, hup⟩
    refine ⟨q, ?_, by omega, fun c hc => ⟨fun hcp => ?_, fun hcq => hcq.trans hqp⟩⟩
    · rw [lowered, if_pos habove, hq]
    · exact hT.ranked.ancestor_of_le hcp hqp (by omega)
  · exact ⟨p, if_neg habove, by omega, fun _ _ => Iff.rfl⟩

lemma Sound.lastCommonAncestor_highest (a b : Nat) : ∃ r, lastCommonAncestor T a b = some r ∧
      HighestOf (nHeight T) (fun c => Ancestor (pprev T) c a ∧ Ancestor (pprev T) c b) r := by
  obtain ⟨qa, hqa, hha, hkepta⟩ := hT.lowered_eq a (nHeight T b)
  obtain ⟨qb, hqb, hhb, hkeptb⟩ := hT.lowered_eq b (nHeight T a)
  have hlevel : nHeight T qa = nHeight T qb := by omega
  have hfuel : nHeight T qa < nHeight T a + 1 := by omega
  obtain ⟨r, hr, hhigh⟩ := hT.meetLoop_highest hlevel hfuel
  refine ⟨r, ?_, hhigh.congr fun c => ?_⟩
  · simp only [lastCommonAncestor, hqa, hqb, bind_eq_bind, bind_some, hr]
  · constructor
    · rintro ⟨hca, hcb⟩
      have hra := hT.ranked.rank_le hca
      have hrb := hT.ranked.rank_le hcb
      exact ⟨(hkepta c (by omega)).mpr hca, (hkeptb c (by omega)).mpr hcb⟩
    · rintro ⟨hca, hcb⟩
      have hra := hT.ranked.rank_le hca
      have hrb := hT.ranked.rank_le hcb
      exact ⟨(hkepta c hrb).mp hca, (hkeptb c hra).mp hcb⟩

lemma Sound.findForkLoop_highest (hfuel : nHeight T p < fuel) :
    ∃ r, findForkLoop T vChain fuel (some p) = some r ∧
      HighestOf (nHeight T) (fun c => Ancestor (pprev T) c p ∧ contains T vChain c) r := by
  induction fuel generalizing p with
  | zero => omega
  | succ fuel ih =>
    rw [findForkLoop]
    by_cases hin : contains T vChain p
    · rw [if_pos hin]
      exact ⟨_, rfl, hT.ranked.highestOf_self ⟨.refl p, hin⟩ fun _ hl => hl.1⟩
    · rw [if_neg hin]
      have hstep : ∀ c, Ancestor (pprev T) c p ∧ contains T vChain c ↔
          (∃ q, pprev T p = some q ∧ Ancestor (pprev T) c q) ∧ contains T vChain c := by
        intro c
        refine and_congr_left fun hc => ?_
        have hne : c ≠ p := fun heq => hin (heq ▸ hc)
        exact ancestor_iff.trans (or_iff_right hne)
      cases hq : pprev T p with
      | none =>
        refine ⟨none, ?_, fun c hc => ?_⟩
        · cases fuel <;> rfl
        · obtain ⟨⟨q, hq', -⟩, -⟩ := (hstep c).mp hc
          rw [hq] at hq'
          cases hq'
      | some q =>
        have hchild := hT.ranked.child p q hq
        obtain ⟨r, hr, hhigh⟩ := ih (p := q) (by omega)
        refine ⟨r, hr, hhigh.congr fun c => ?_⟩
        rw [hstep c, hq]
        simp only [some.injEq, exists_eq_left']

/-- `FindFork` finds the highest ancestor on the chain. -/
lemma Sound.findFork_highest (p : Nat) : ∃ r, findFork T vChain p = some r ∧
      HighestOf (nHeight T) (fun c => Ancestor (pprev T) c p ∧ contains T vChain c) r := by
  have hinside : ∀ c, contains T vChain c → nHeight T c < vChain.length := by
    intro c hc
    have hat := of_decide_eq_true hc
    rw [chainAt] at hat
    split_ifs at hat with hout
    omega
  cases hlen : vChain.length with
  | zero =>
    -- there is no block at height -1
    refine ⟨none, ?_, fun c hc => absurd (hinside c hc.2) (by omega)⟩
    have hnull : lowered T p (chainHeight vChain) = some none := by
      rw [lowered, chainHeight, hlen, if_pos (by omega), getAncestor, if_pos (by omega)]
    rw [findFork, hnull]
    rfl
  | succ n =>
    obtain ⟨q, hq, hheight, hkept⟩ := hT.lowered_eq p n
    have hfuel : nHeight T q < nHeight T p + 1 := by omega
    obtain ⟨r, hr, hhigh⟩ := hT.findForkLoop_highest vChain hfuel
    have hchain : chainHeight vChain = n := by
      rw [chainHeight, hlen]
      omega
    refine ⟨r, ?_, hhigh.congr fun c => and_congr_left fun hc => ?_⟩
    · simp only [findFork, hchain, hq, bind_eq_bind, bind_some, hr]
    · have hin := hinside c hc
      exact (hkept c (by omega)).symm

end Searches

/-- Over every block index built entry by entry, the skip list finds the ancestor
at any height, the highest common ancestor of any two blocks, and the highest
ancestor that is on a chain. -/
theorem skipList_finds {T : Tree} (hT : Built T) : (∀ p < T.length, ∀ height ≤ nHeight T p, ∃ q,
      getAncestor T p height = some (some q) ∧ up (pprev T) (nHeight T p - height) p = some q) ∧
    (∀ a < T.length, ∀ b < T.length, ∃ r, lastCommonAncestor T a b = some r ∧
      HighestOf (nHeight T) (fun c => Ancestor (pprev T) c a ∧ Ancestor (pprev T) c b) r) ∧
    (∀ vChain : List Nat, ∀ p < T.length, ∃ r, findFork T vChain p = some r ∧
      HighestOf (nHeight T) (fun c => Ancestor (pprev T) c p ∧ contains T vChain c) r) := by
  have hsound := hT.sound
  refine ⟨fun p _ height hle => hsound.getAncestor_up hle, fun a _ b _ => ?_, fun vChain p _ => ?_⟩
  · exact hsound.lastCommonAncestor_highest a b
  · exact hsound.findFork_highest vChain p

def forked : Tree :=
  [⟨none, 0, none⟩, ⟨some 0, 1, some 0⟩, ⟨some 1, 2, some 0⟩, ⟨some 2, 3, some 1⟩,
    ⟨some 2, 3, some 1⟩]

lemma forked_built : Built forked := by
  have h₁ : Built (forked.take 1) := Built.empty.root
  have h₂ : Built (forked.take 2) := Built.child (q := 0) (s := some 0) h₁ (by decide) (by decide)
  have h₃ : Built (forked.take 3) := Built.child (q := 1) (s := some 0) h₂ (by decide) (by decide)
  have h₄ : Built (forked.take 4) := Built.child (q := 2) (s := some 1) h₃ (by decide) (by decide)
  exact Built.child (q := 2) (s := some 1) h₄ (by decide) (by decide)

theorem skipList_finds_forked :
    (∃ q, getAncestor forked 4 1 = some (some q) ∧ up (pprev forked) 2 4 = some q) ∧
      ∃ r, lastCommonAncestor forked 3 4 = some r ∧ r = some 2 := by
  obtain ⟨hancestor, hcommon, -⟩ := skipList_finds forked_built
  refine ⟨hancestor 4 (by decide) 1 (by decide), ?_⟩
  obtain ⟨r, hr, -⟩ := hcommon 3 (by decide) 4 (by decide)
  have hrun : lastCommonAncestor forked 3 4 = some (some 2) := by decide
  exact ⟨r, hr, some.inj (hr.symm.trans hrun)⟩

end SkipList
