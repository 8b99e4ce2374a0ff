import Mathlib.Data.Nat.Bitwise
import Mathlib.Tactic.Ring

/-!
# Numbers as lists of 32-bit limbs

Least significant limb first. Carries are followed by equations between values,
shifts bit by bit.
-/

namespace Limbs

open Nat

variable (xs : List UInt32) (n : UInt64) (x : UInt32) (i s j : Nat)

def value : List UInt32 → Nat
  | [] => 0
  | x :: xs => x.toNat + 2 ^ 32 * value xs

lemma value_lt : value xs < 2 ^ (32 * xs.length) := by
  induction xs with
  | nil => decide
  | cons x xs ih =>
    have hx := x.toNat_lt
    have hpow : 2 ^ (32 * (xs.length + 1)) = 2 ^ 32 * 2 ^ (32 * xs.length) := by
      rw [mul_add, pow_add, mul_comm]
    rw [value, List.length_cons, hpow]
    omega

lemma value_replicate_zero (n : Nat) : value (List.replicate n 0) = 0 := by
  induction n with
  | zero => rfl
  | succ n ih =>
    rw [List.replicate_succ, value, ih]
    rfl

def limb (xs : List UInt32) (m : Nat) : UInt32 := xs.getD m 0

lemma testBit_value (m j : Nat) (hj : j < 32) :
    (value xs).testBit (32 * m + j) = (limb xs m).toNat.testBit j := by
  induction xs generalizing m with
  | nil =>
    rw [value, limb, List.getD_nil, zero_testBit]
    exact (zero_testBit j).symm
  | cons x xs ih =>
    have hx : x.toNat < 2 ^ 32 := x.toNat_lt
    rw [value, add_comm, testBit_two_pow_mul_add _ hx]
    cases m with
    | zero =>
      rw [mul_zero, zero_add, if_pos hj]
      rfl
    | succ m =>
      have hge : ¬ 32 * (m + 1) + j < 32 := by omega
      have hsub : 32 * (m + 1) + j - 32 = 32 * m + j := by omega
      rw [if_neg hge, hsub, ih]
      rfl

lemma value_testBit_eq : (value xs).testBit i = (limb xs (i / 32)).toNat.testBit (i % 32) := by
  have hsplit : i = 32 * (i / 32) + i % 32 := (div_add_mod i 32).symm
  have hbit := testBit_value xs (i / 32) (i % 32) (mod_lt i (by decide))
  rwa [← hsplit] at hbit

lemma testBit_value_of_length_le (h : 32 * xs.length ≤ i) : (value xs).testBit i = false :=
  Nat.testBit_lt_two_pow (lt_of_lt_of_le (value_lt xs) (Nat.pow_le_pow_right (by decide) h))

lemma low_toNat : (n &&& 0xffffffff).toUInt32.toNat = n.toNat % 2 ^ 32 := by
  have hmask : (0xffffffff : UInt64).toNat = 2 ^ 32 - 1 := rfl
  rw [UInt64.toNat_toUInt32, UInt64.toNat_and, hmask, and_two_pow_sub_one_eq_mod, mod_mod]

lemma high_toNat : (n >>> 32).toNat = n.toNat / 2 ^ 32 := by
  rw [UInt64.toNat_shiftRight]
  exact shiftRight_eq_div_pow _ _

lemma testBit_shiftLeft (hs : s < 32) (hj : j < 32) :
    (x <<< UInt32.ofNat s).toNat.testBit j = (decide (s ≤ j) && x.toNat.testBit (j - s)) := by
  have hmod : (UInt32.ofNat s).toNat % 32 = s := by
    rw [UInt32.toNat_ofNat', mod_eq_of_lt (by omega : s < 2 ^ 32), mod_eq_of_lt hs]
  rw [UInt32.toNat_shiftLeft, hmod, Nat.testBit_mod_two_pow, Nat.testBit_shiftLeft,
    decide_eq_true hj, Bool.true_and]

lemma testBit_shiftRight (hs : s < 32) :
    (x >>> UInt32.ofNat s).toNat.testBit j = x.toNat.testBit (s + j) := by
  have hmod : (UInt32.ofNat s).toNat % 32 = s := by
    rw [UInt32.toNat_ofNat', mod_eq_of_lt (by omega : s < 2 ^ 32), mod_eq_of_lt hs]
  rw [UInt32.toNat_shiftRight, hmod, Nat.testBit_shiftRight]

end Limbs
