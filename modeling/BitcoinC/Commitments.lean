import Mathlib.Algebra.BigOperators.Ring.Finset
import Mathlib.Algebra.Order.BigOperators.Group.List
import Mathlib.Data.ZMod.Basic

/-!
# Homomorphic commitments

Commitments stand for points of a group, and a point commits to a value modulo
`q`: at most one because commitments are binding, additively because they are
homomorphic.
-/

namespace Commitments

universe u v

variable {P : Type u} {G : Type v} [AddCommGroup G] {q : ℕ} (point : P → G) (value : G →+ ZMod q)

def amount (c : P) : ℕ := (value (point c)).val

/-- The commitments differ in blinding only. -/
def Balances (ins outs : List P) : Prop :=
  value ((ins.map point).sum - (outs.map point).sum) = 0

lemma balances_iff (ins outs : List P) : Balances point value ins outs ↔
      (ins.map fun c => value (point c)).sum = (outs.map fun c => value (point c)).sum := by
  rw [Balances, map_sub, sub_eq_zero, map_list_sum, map_list_sum, List.map_map, List.map_map]
  rfl

lemma balances_of_sum_eq {ins outs : List P}
    (h : (ins.map point).sum = (outs.map point).sum) : Balances point value ins outs := by
  rw [Balances, h, sub_self, map_zero]

lemma Balances.trans {ins mids outs : List P} (h : Balances point value ins mids)
    (h' : Balances point value mids outs) : Balances point value ins outs := by
  rw [balances_iff] at *
  exact Eq.trans h h'

lemma balances_flatMap {α : Type} (rs : List α) (ins outs : α → List P)
    (h : ∀ r ∈ rs, Balances point value (ins r) (outs r)) :
    Balances point value (rs.flatMap ins) (rs.flatMap outs) := by
  induction rs with
  | nil => simp [balances_iff]
  | cons r rs ih =>
    rw [List.forall_mem_cons] at h
    have hfirst := (balances_iff point value _ _).mp h.1
    have hrest := (balances_iff point value _ _).mp (ih h.2)
    rw [balances_iff, List.flatMap_cons, List.flatMap_cons, List.map_append, List.map_append,
      List.sum_append, List.sum_append, hfirst, hrest]

section

variable [NeZero q]

lemma sum_amount_cast (cs : List P) :
    ((cs.map (amount point value)).sum : ZMod q) = (cs.map fun c => value (point c)).sum := by
  rw [Nat.cast_list_sum, List.map_map]
  refine congrArg List.sum (List.map_congr_left fun c _ => ?_)
  exact ZMod.natCast_zmod_val _

lemma Balances.sum_amount_eq {ins outs : List P} (h : Balances point value ins outs)
    (hins : (ins.map (amount point value)).sum < q)
    (houts : (outs.map (amount point value)).sum < q) :
    (ins.map (amount point value)).sum = (outs.map (amount point value)).sum := by
  have hcast : ((ins.map (amount point value)).sum : ZMod q) =
      ((outs.map (amount point value)).sum : ℕ) := by
    rw [sum_amount_cast, sum_amount_cast]
    exact (balances_iff point value ins outs).mp h
  rw [ZMod.natCast_eq_natCast_iff', Nat.mod_eq_of_lt hins, Nat.mod_eq_of_lt houts] at hcast
  exact hcast

end

lemma amount_of_value {c : P} {n : ℕ} (h : value (point c) = n) (hn : n < q) :
    amount point value c = n := by
  rw [amount, h, ZMod.val_natCast_of_lt hn]

lemma sum_amount_le (cs : List P) (bound : ℕ) (h : ∀ c ∈ cs, amount point value c ≤ bound) :
    (cs.map (amount point value)).sum ≤ cs.length * bound := by
  have hsum := List.sum_le_card_nsmul (cs.map (amount point value)) bound fun n hn => by
    obtain ⟨c, hc, rfl⟩ := List.mem_map.mp hn
    exact h c hc
  rwa [List.length_map, smul_eq_mul] at hsum

end Commitments
