import Mathlib.Data.List.Basic
import Mathlib.Logic.Function.Iterate
import Mathlib.Tactic.Common

/-!
# Binary trees over lists of hashes

The tree of a list of hashes in which a last hash without partner is paired with
itself. Two lists of one length with the same root are equal as soon as the pairs
hashed in the two trees have no collision.
-/

namespace MerkleTrees

open List

variable {α : Type*}

def pairs : List α → List (α × α)
  | [] => []
  | [h] => [(h, h)]
  | h :: h' :: hs => (h, h') :: pairs hs

def twins [DecidableEq α] : List α → Bool
  | h :: h' :: hs => h = h' || twins hs
  | _ => false

lemma fst_mem_of_mem_pairs (hs : List α) (p : α × α) (hp : p ∈ pairs hs) : p.1 ∈ hs := by
  fun_induction pairs hs with
  | case1 => exact absurd hp not_mem_nil
  | case2 h =>
    rw [mem_singleton] at hp
    simp [hp]
  | case3 h h' hs ih =>
    rcases mem_cons.mp hp with rfl | htail
    · exact mem_cons_self
    · exact mem_cons_of_mem _ (mem_cons_of_mem _ (ih htail))

lemma pairs_length (hs : List α) : (pairs hs).length = (hs.length + 1) / 2 := by
  fun_induction pairs hs with
  | case1 => simp
  | case2 => simp
  | case3 h h' hs ih =>
    simp only [length_cons, ih]
    omega

lemma pairs_getElem? (hs : List α) (i : Nat) :
    (pairs hs)[i]? = hs[2 * i]?.map fun h => (h, hs[2 * i + 1]?.getD h) := by
  fun_induction pairs hs generalizing i with
  | case1 => rfl
  | case2 h =>
    cases i with
    | zero => rfl
    | succ i => rfl
  | case3 h h' hs ih =>
    cases i with
    | zero => rfl
    | succ i =>
      have htwo : 2 * (i + 1) = 2 * i + 1 + 1 := by omega
      simp only [getElem?_cons_succ, htwo, ih]

lemma eq_of_pairs_of_length (xs ys : List α) (hlen : xs.length = ys.length)
    (h : pairs xs = pairs ys) : xs = ys := by
  fun_induction pairs xs generalizing ys with
  | case1 => exact (eq_nil_of_length_eq_zero hlen.symm).symm
  | case2 x =>
    match ys, hlen with
    | [y], _ => simpa [pairs] using h
  | case3 x x' xs ih =>
    match ys, hlen with
    | y :: y' :: ys, hlen =>
      simp only [pairs, cons.injEq, Prod.mk.injEq] at h
      obtain ⟨⟨rfl, rfl⟩, hrest⟩ := h
      rw [ih ys (by simpa using hlen) hrest]

/-- Without twins the pairs determine the list: a last hash that was paired with itself is not a
pair of two positions. -/
lemma eq_of_pairs_of_twins [DecidableEq α] (xs ys : List α) (hx : twins xs = false)
    (hy : twins ys = false) (h : pairs xs = pairs ys) : xs = ys := by
  fun_induction pairs xs generalizing ys with
  | case1 =>
    match ys with
    | [] => rfl
    | [_] => simp [pairs] at h
    | _ :: _ :: _ => simp [pairs] at h
  | case2 x =>
    match ys with
    | [] => simp [pairs] at h
    | [y] => simpa [pairs] using h
    | y :: y' :: ys =>
      simp only [pairs, cons.injEq, Prod.mk.injEq] at h
      simp [twins, ← h.1.1, ← h.1.2] at hy
  | case3 x x' xs ih =>
    match ys with
    | [] => simp [pairs] at h
    | [y] =>
      simp only [pairs, cons.injEq, Prod.mk.injEq] at h
      simp [twins, h.1.1, h.1.2] at hx
    | y :: y' :: ys =>
      simp only [pairs, cons.injEq, Prod.mk.injEq] at h
      simp only [twins, Bool.or_eq_false_iff] at hx hy
      obtain ⟨⟨rfl, rfl⟩, hrest⟩ := h
      rw [ih ys hx.2 hy.2 hrest]

section

variable (node : α → α → α)

def level (hs : List α) : List α := (pairs hs).map fun p => node p.1 p.2

/-- The root above a list, reached in `n` levels; `d` is the root of the empty list. -/
def root (d : α) : Nat → List α → α
  | n + 1, h :: h' :: hs => root d n (level node (h :: h' :: hs))
  | _, hs => hs.headD d

def nodes : Nat → List α → List (α × α)
  | n + 1, h :: h' :: hs => pairs (h :: h' :: hs) ++ nodes n (level node (h :: h' :: hs))
  | _, _ => []

def twinned [DecidableEq α] : Nat → List α → Bool
  | n + 1, h :: h' :: hs => twins (h :: h' :: hs) || twinned n (level node (h :: h' :: hs))
  | _, _ => false

variable {node}

lemma level_length (hs : List α) : (level node hs).length = (hs.length + 1) / 2 := by
  rw [level, length_map, pairs_length]

lemma level_length_le (n : Nat) (h h' : α) (hs : List α) (hle : (h :: h' :: hs).length ≤ n + 1) :
    (level node (h :: h' :: hs)).length ≤ n := by
  rw [level_length]
  simp only [length_cons] at *
  omega

lemma level_ne_nil (h h' : α) (hs : List α) : level node (h :: h' :: hs) ≠ [] := by
  simp [level, pairs]

lemma level_getElem? (hs : List α) (i : Nat) :
    (level node hs)[i]? = hs[2 * i]?.map fun h => node h (hs[2 * i + 1]?.getD h) := by
  rw [level, getElem?_map, pairs_getElem?, Option.map_map]
  rfl

lemma root_eq_headD (d : α) {k n : Nat} {hs : List α} (hk : k ≤ n)
    (hbelow : ∀ j < k, 1 < ((level node)^[j] hs).length) (htop : ((level node)^[k] hs).length ≤ 1) :
    root node d n hs = ((level node)^[k] hs).headD d := by
  induction k generalizing n hs with
  | zero =>
    match hs, htop with
    | [], _ => cases n <;> rfl
    | [_], _ => cases n <;> rfl
  | succ k ih =>
    obtain ⟨n, rfl⟩ : ∃ m, n = m + 1 := ⟨n - 1, by omega⟩
    match hs, hbelow 0 (Nat.succ_pos k) with
    | h :: h' :: hs, _ =>
      exact ih (Nat.le_of_succ_le_succ hk) (fun j hj => hbelow (j + 1) (Nat.succ_lt_succ hj)) htop

lemma pairs_subset_nodes {k n : Nat} {hs : List α} (hk : k < n)
    (hbelow : ∀ j ≤ k, 1 < ((level node)^[j] hs).length) :
    pairs ((level node)^[k] hs) ⊆ nodes node n hs := by
  induction k generalizing n hs with
  | zero =>
    obtain ⟨n, rfl⟩ : ∃ m, n = m + 1 := ⟨n - 1, by omega⟩
    match hs, hbelow 0 (Nat.le_refl 0) with
    | h :: h' :: hs, _ => exact subset_append_left _ _
  | succ k ih =>
    obtain ⟨n, rfl⟩ : ∃ m, n = m + 1 := ⟨n - 1, by omega⟩
    match hs, hbelow 0 (Nat.zero_le _) with
    | h :: h' :: hs, _ =>
      have hnext := ih (Nat.lt_of_succ_lt_succ hk) fun j hj => hbelow (j + 1) (Nat.succ_le_succ hj)
      exact fun p hp => mem_append_right _ (hnext hp)

lemma mem_level_iff (hs : List α) (x : α) :
    x ∈ level node hs ↔ ∃ p ∈ pairs hs, x = node p.1 p.2 := by
  simp only [level, mem_map, eq_comm]

lemma fst_of_mem_nodes (n : Nat) (hs : List α) (p : α × α) (hp : p ∈ nodes node n hs) :
    p.1 ∈ hs ∨ ∃ q ∈ nodes node n hs, p.1 = node q.1 q.2 := by
  fun_induction nodes node n hs with
  | case1 n h h' hs ih =>
    rcases mem_append.mp hp with hlow | hhigh
    · exact Or.inl (fst_mem_of_mem_pairs _ p hlow)
    · right
      rcases ih hhigh with hmem | ⟨q, hq, heq⟩
      · obtain ⟨q, hq, heq⟩ := (mem_level_iff _ _).mp hmem
        exact ⟨q, mem_append_left _ hq, heq⟩
      · exact ⟨q, mem_append_right _ hq, heq⟩
  | case2 => exact absurd hp not_mem_nil

lemma root_eq_node (d : α) (n : Nat) (h h' : α) (hs : List α)
    (hn : (h :: h' :: hs).length ≤ n + 1) :
    ∃ p ∈ nodes node (n + 1) (h :: h' :: hs), root node d (n + 1) (h :: h' :: hs) =
      node p.1 p.2 := by
  induction n generalizing h h' hs with
  | zero => simp at hn
  | succ n ih =>
    have hle : (level node (h :: h' :: hs)).length ≤ n + 1 := level_length_le (n + 1) h h' hs hn
    show ∃ p ∈ pairs (h :: h' :: hs) ++ nodes node (n + 1) (level node (h :: h' :: hs)),
      root node d (n + 1) (level node (h :: h' :: hs)) = _
    match hlevel : level node (h :: h' :: hs) with
    | [] => exact absurd hlevel (level_ne_nil h h' hs)
    | [x] =>
      have hmem : x ∈ level node (h :: h' :: hs) := by rw [hlevel]; exact mem_singleton_self x
      obtain ⟨p, hp, heq⟩ := (mem_level_iff _ _).mp hmem
      exact ⟨p, mem_append_left _ hp, heq⟩
    | x :: x' :: xs =>
      rw [hlevel] at hle
      obtain ⟨p, hp, heq⟩ := ih x x' xs hle
      exact ⟨p, mem_append_right _ hp, heq⟩

/-- Equal nodes have equal children. -/
def CollisionFree (node : α → α → α) (ps qs : List (α × α)) : Prop :=
  ∀ p ∈ ps, ∀ q ∈ qs, node p.1 p.2 = node q.1 q.2 → p = q

/-- No leaf is the node of one of the pairs. -/
def LeavesApart (node : α → α → α) (leaves : List α) (ps : List (α × α)) : Prop :=
  ∀ x ∈ leaves, ∀ p ∈ ps, x ≠ node p.1 p.2

lemma CollisionFree.mono {ps qs ps' qs' : List (α × α)} (h : CollisionFree node ps qs)
    (hp : ps' ⊆ ps) (hq : qs' ⊆ qs) : CollisionFree node ps' qs' :=
  fun p hmem q hmem' => h p (hp hmem) q (hq hmem')

lemma CollisionFree.symm {ps qs : List (α × α)} (h : CollisionFree node ps qs) :
    CollisionFree node qs ps :=
  fun q hq p hp heq => (h p hp q hq heq.symm).symm

lemma eq_of_map_node {ps qs : List (α × α)} (hfree : CollisionFree node ps qs)
    (h : ps.map (fun p => node p.1 p.2) = qs.map fun p => node p.1 p.2) : ps = qs := by
  induction ps generalizing qs with
  | nil => exact (map_eq_nil_iff.mp h.symm).symm
  | cons p ps ih =>
    match qs with
    | [] => simp at h
    | q :: qs =>
      simp only [map_cons, cons.injEq] at h
      have hhead := hfree p mem_cons_self q mem_cons_self h.1
      have htail := ih (hfree.mono (subset_cons_self _ _) (subset_cons_self _ _)) h.2
      rw [hhead, htail]

lemma LeavesApart.level {n : Nat} {xs ys : List α}
    (hfree : CollisionFree node (pairs xs) (nodes node n (level node ys)))
    (hapart : LeavesApart node xs (pairs ys ++ nodes node n (level node ys))) :
    LeavesApart node (level node xs) (nodes node n (level node ys)) := by
  intro x hx q hq heq
  obtain ⟨p, hp, rfl⟩ := (mem_level_iff _ _).mp hx
  obtain rfl := hfree p hp q hq heq
  have hleaf : p.1 ∈ xs := fst_mem_of_mem_pairs _ p hp
  rcases fst_of_mem_nodes n _ p hq with hmem | ⟨r, hr, hnode⟩
  · obtain ⟨r, hr, hnode⟩ := (mem_level_iff _ _).mp hmem
    exact hapart _ hleaf r (mem_append_left _ hr) hnode
  · exact hapart _ hleaf r (mem_append_right _ hr) hnode

lemma eq_of_root_of_length (d : α) (n : Nat) (xs ys : List α) (hn : xs.length ≤ n)
    (hlen : xs.length = ys.length) (hfree : CollisionFree node (nodes node n xs) (nodes node n ys))
    (h : root node d n xs = root node d n ys) : xs = ys := by
  induction n generalizing xs ys with
  | zero =>
    rw [eq_nil_of_length_eq_zero (by omega : xs.length = 0),
      eq_nil_of_length_eq_zero (by omega : ys.length = 0)]
  | succ n ih =>
    match xs, ys, hlen with
    | [], [], _ => rfl
    | [x], [y], _ => exact congrArg (fun z => [z]) h
    | x :: x' :: xs, y :: y' :: ys, hlen =>
      have hlow := hfree.mono (subset_append_left _ _) (subset_append_left _ _)
      have hhigh := hfree.mono (subset_append_right _ _) (subset_append_right _ _)
      have hlevel := ih _ _ (level_length_le n x x' xs hn)
        (by rw [level_length, level_length, hlen]) hhigh h
      exact eq_of_pairs_of_length _ _ hlen (eq_of_map_node hlow hlevel)

/-- With one root and no twins, the lengths agree as well. -/
lemma eq_of_root_of_twinned [DecidableEq α] (d : α) (n m : Nat) (xs ys : List α)
    (hn : xs.length ≤ n) (hm : ys.length ≤ m) (hx : xs ≠ []) (hy : ys ≠ [])
    (hfree : CollisionFree node (nodes node n xs) (nodes node m ys))
    (hleaves : LeavesApart node xs (nodes node m ys))
    (hleaves' : LeavesApart node ys (nodes node n xs))
    (htx : twinned node n xs = false) (hty : twinned node m ys = false)
    (h : root node d n xs = root node d m ys) : xs = ys := by
  induction n generalizing m xs ys with
  | zero => exact absurd (eq_nil_of_length_eq_zero (by omega)) hx
  | succ n ih =>
    match m, xs, ys with
    | 0, _, ys => exact absurd (eq_nil_of_length_eq_zero (by omega)) hy
    | m + 1, [x], [y] => exact congrArg (fun z => [z]) h
    | m + 1, [x], y :: y' :: ys =>
      -- a single leaf against a node
      obtain ⟨p, hp, hroot⟩ := @root_eq_node _ node d m y y' ys hm
      exact absurd (h.trans hroot) (hleaves x (mem_singleton_self x) p hp)
    | m + 1, x :: x' :: xs, [y] =>
      obtain ⟨p, hp, hroot⟩ := @root_eq_node _ node d n x x' xs hn
      exact absurd (h.symm.trans hroot) (hleaves' y (mem_singleton_self y) p hp)
    | m + 1, x :: x' :: xs, y :: y' :: ys =>
      simp only [twinned, Bool.or_eq_false_iff] at htx hty
      have hlow := hfree.mono (subset_append_left _ _) (subset_append_left _ _)
      have hhigh := hfree.mono (subset_append_right _ _) (subset_append_right _ _)
      have hup := hfree.mono (subset_append_left _ _) (subset_append_right _ _)
      have hdown := hfree.mono (subset_append_right _ _) (subset_append_left _ _)
      have hlevel := ih m _ _ (level_length_le n x x' xs hn) (level_length_le m y y' ys hm)
        (level_ne_nil x x' xs) (level_ne_nil y y' ys) hhigh (LeavesApart.level hup hleaves)
        (LeavesApart.level hdown.symm hleaves') htx.2 hty.2 h
      exact eq_of_pairs_of_twins _ _ htx.1 hty.1 (eq_of_map_node hlow hlevel)

end

end MerkleTrees
