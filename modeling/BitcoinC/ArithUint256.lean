import BitcoinC.Kernel
import BitcoinC.Limbs

/-!
# The 256-bit arithmetic

`base_uint` of `arith_uint256.cpp`: every operation is the loop over 32-bit limbs
that the source has, and computes the operation on numbers modulo `2 ^ BITS`.
-/

namespace ArithUint256

open Limbs List Nat

structure BaseUint (WIDTH : Nat) where
  pn : List UInt32
  size : pn.length = WIDTH
  deriving DecidableEq

abbrev Arith256 := BaseUint 8

namespace BaseUint

variable {WIDTH : Nat}
variable (a : BaseUint WIDTH) (b32 : UInt32) (carry : UInt64) (xs : List UInt32) (x : UInt32)
  (k : Nat) (b : BaseUint WIDTH) (shift : Nat) (ys : List UInt32) (q : BaseUint WIDTH)
  (pn : List UInt32) (i m : Nat)

def toNat (a : BaseUint WIDTH) : Nat := value a.pn

lemma toNat_lt : a.toNat < 2 ^ (32 * WIDTH) := by
  have h := value_lt a.pn
  rwa [a.size] at h

def zero : BaseUint WIDTH := ⟨replicate WIDTH 0, length_replicate⟩

@[simp] lemma toNat_zero : (zero : BaseUint WIDTH).toNat = 0 := value_replicate_zero WIDTH

def ofUint64 (b : UInt64) : BaseUint (WIDTH + 2) :=
  ⟨b.toUInt32 :: (b >>> 32).toUInt32 :: replicate WIDTH 0, by simp⟩

@[simp] lemma toNat_ofUint64 (b : UInt64) : (ofUint64 b : BaseUint (WIDTH + 2)).toNat =
    b.toNat := by
  have hb := b.toNat_lt
  have hhigh := high_toNat b
  show value (b.toUInt32 :: (b >>> 32).toUInt32 :: replicate WIDTH 0) = b.toNat
  rw [value, value, value_replicate_zero, UInt64.toNat_toUInt32, UInt64.toNat_toUInt32, hhigh]
  omega

def addLoop (carry : UInt64) : List UInt32 → List UInt32 → List UInt32
  | x :: xs, y :: ys =>
    let n := carry + x.toUInt64 + y.toUInt64
    (n &&& 0xffffffff).toUInt32 :: addLoop (n >>> 32) xs ys
  | _, _ => []

lemma addLoop_length (h : xs.length = ys.length) : (addLoop carry xs ys).length = xs.length := by
  induction xs generalizing carry ys with
  | nil => rfl
  | cons x xs ih =>
    cases ys with
    | nil => cases h
    | cons y ys => exact congrArg succ (ih _ ys (succ.inj h))

lemma value_addLoop (h : xs.length = ys.length) (hcarry : carry.toNat ≤ 1) :
    ∃ c, value (addLoop carry xs ys) + 2 ^ (32 * xs.length) * c =
      carry.toNat + value xs + value ys := by
  induction xs generalizing carry ys with
  | nil =>
    cases ys with
    | nil => exact ⟨carry.toNat, by simp [addLoop, value]⟩
    | cons y ys => cases h
  | cons x xs ih =>
    cases ys with
    | nil => cases h
    | cons y ys =>
      have hx := x.toNat_lt
      have hy := y.toNat_lt
      have hn : (carry + x.toUInt64 + y.toUInt64).toNat = carry.toNat + x.toNat + y.toNat := by
        rw [UInt64.toNat_add, UInt64.toNat_add, UInt32.toNat_toUInt64, UInt32.toNat_toUInt64]
        omega
      have hlow := low_toNat (carry + x.toUInt64 + y.toUInt64)
      have hhigh := high_toNat (carry + x.toUInt64 + y.toUInt64)
      obtain ⟨c, hc⟩ := ih ((carry + x.toUInt64 + y.toUInt64) >>> 32) ys (succ.inj h) (by omega)
      have hpow : 2 ^ (32 * (xs.length + 1)) * c = 2 ^ 32 * (2 ^ (32 * xs.length) * c) := by
        rw [mul_add, pow_add]
        ring
      refine ⟨c, ?_⟩
      rw [addLoop, value, value, value, length_cons, hpow]
      omega

def addAssign (a b : BaseUint WIDTH) : BaseUint WIDTH :=
  ⟨addLoop 0 a.pn b.pn, by rw [addLoop_length _ _ _ (a.size.trans b.size.symm), a.size]⟩

lemma mod_of_add_mul {m x c y : Nat} (hx : x < m) (h : x + m * c = y) : x = y % m := by
  rw [← h, add_mul_mod_self_left, mod_eq_of_lt hx]

lemma toNat_addAssign : (a.addAssign b).toNat = (a.toNat + b.toNat) % 2 ^ (32 * WIDTH) := by
  obtain ⟨c, hc⟩ := value_addLoop 0 a.pn b.pn (a.size.trans b.size.symm) (zero_le 1)
  have hzero : (0 : UInt64).toNat = 0 := rfl
  rw [a.size, hzero, zero_add] at hc
  exact mod_of_add_mul (a.addAssign b).toNat_lt hc

def incLoop : List UInt32 → List UInt32
  | [] => []
  | x :: xs => if x + 1 = 0 then 0 :: incLoop xs else (x + 1) :: xs

lemma incLoop_length : (incLoop xs).length = xs.length := by
  induction xs with
  | nil => rfl
  | cons x xs ih =>
    rw [incLoop]
    split
    · exact congrArg succ ih
    · rfl

lemma value_incLoop : ∃ c, value (incLoop xs) + 2 ^ (32 * xs.length) * c = value xs + 1 := by
  induction xs with
  | nil => exact ⟨1, rfl⟩
  | cons x xs ih =>
    have hx := x.toNat_lt
    have hadd : (x + 1).toNat = (x.toNat + 1) % 2 ^ 32 := UInt32.toNat_add x 1
    rw [incLoop]
    split
    · rename_i hzero
      have hfull : (x.toNat + 1) % 2 ^ 32 = 0 := by
        rw [← hadd, hzero]
        rfl
      obtain ⟨c, hc⟩ := ih
      have hpow : 2 ^ (32 * (xs.length + 1)) * c = 2 ^ 32 * (2 ^ (32 * xs.length) * c) := by
        rw [mul_add, pow_add]
        ring
      refine ⟨c, ?_⟩
      have hhead : (0 : UInt32).toNat = 0 := rfl
      rw [value, value, length_cons, hpow, hhead]
      omega
    · rename_i hzero
      have hne : (x + 1).toNat ≠ 0 := fun h => hzero (UInt32.toNat_inj.mp h)
      refine ⟨0, ?_⟩
      rw [value, value]
      omega

lemma value_complement : value (xs.map (~~~ ·)) + value xs + 1 = 2 ^ (32 * xs.length) := by
  induction xs with
  | nil => rfl
  | cons x xs ih =>
    have hx := x.toNat_lt
    have hnot : (~~~ x).toNat = 2 ^ 32 - 1 - x.toNat := UInt32.toNat_not x
    have hpow : 2 ^ (32 * (xs.length + 1)) = 2 ^ 32 * 2 ^ (32 * xs.length) := by
      rw [mul_add, pow_add, mul_comm]
    rw [map_cons, value, value, length_cons, hpow, hnot]
    omega

def negate (a : BaseUint WIDTH) : BaseUint WIDTH :=
  ⟨incLoop (a.pn.map (~~~ ·)), by rw [incLoop_length, length_map, a.size]⟩

lemma toNat_negate : (a.negate.toNat + a.toNat) % 2 ^ (32 * WIDTH) = 0 := by
  obtain ⟨c, hc⟩ := value_incLoop (a.pn.map (~~~ ·))
  have hcompl := value_complement a.pn
  rw [length_map, a.size] at hc
  rw [a.size] at hcompl
  have hsum : a.negate.toNat + a.toNat + 2 ^ (32 * WIDTH) * c = 2 ^ (32 * WIDTH) := by
    show value (incLoop (a.pn.map (~~~ ·))) + value a.pn + _ = _
    omega
  have hmod := congrArg (· % 2 ^ (32 * WIDTH)) hsum
  simpa using hmod

def subAssign (a b : BaseUint WIDTH) : BaseUint WIDTH := a.addAssign b.negate

lemma toNat_subAssign_mod :
    (a.subAssign b).toNat = (2 ^ (32 * WIDTH) - b.toNat + a.toNat) % 2 ^ (32 * WIDTH) := by
  have hb := b.toNat_lt
  rw [subAssign, toNat_addAssign]
  obtain ⟨k, hk⟩ := dvd_of_mod_eq_zero (toNat_negate b)
  apply Nat.ModEq.add_right_cancel' b.toNat
  have hleft : a.toNat + b.negate.toNat + b.toNat = a.toNat + 2 ^ (32 * WIDTH) * k := by omega
  have hright : 2 ^ (32 * WIDTH) - b.toNat + a.toNat + b.toNat = a.toNat +
      2 ^ (32 * WIDTH) * 1 := by
    omega
  rw [hleft, hright]
  exact (add_mul_mod_self_left _ _ _).trans (add_mul_mod_self_left _ _ _).symm

lemma toNat_subAssign (h : b.toNat ≤ a.toNat) : (a.subAssign b).toNat = a.toNat - b.toNat := by
  have ha := a.toNat_lt
  have hsum : 2 ^ (32 * WIDTH) - b.toNat + a.toNat = a.toNat - b.toNat +
    2 ^ (32 * WIDTH) := by omega
  rw [toNat_subAssign_mod, hsum, add_mod_right, mod_eq_of_lt (by omega)]

def mulLoop32 (b32 : UInt32) (carry : UInt64) : List UInt32 → List UInt32
  | [] => []
  | x :: xs =>
    let n := carry + b32.toUInt64 * x.toUInt64
    (n &&& 0xffffffff).toUInt32 :: mulLoop32 b32 (n >>> 32) xs

/-- The inner loop of `operator*=`, which adds `x` times `b` to the upper limbs of the result. -/
def mulInner (x : UInt32) (carry : UInt64) : List UInt32 → List UInt32 → List UInt32
  | a :: as, b :: bs =>
    let n := carry + a.toUInt64 + x.toUInt64 * b.toUInt64
    (n &&& 0xffffffff).toUInt32 :: mulInner x (n >>> 32) as bs
  | _, _ => []

/-- The outer loop of `operator*=`: from limb `j` of the number on, the limbs of the result below
`j` are final. -/
def mulOuter (b : List UInt32) : List UInt32 → List UInt32 → List UInt32
  | x :: xs, a =>
    match mulInner x 0 a b with
    | r :: rs => r :: mulOuter b xs rs
    | [] => []
  | [], a => a

lemma mulLoop32_length : (mulLoop32 b32 carry xs).length = xs.length := by
  induction xs generalizing carry with
  | nil => rfl
  | cons x xs ih => exact congrArg succ (ih _)

lemma mulInner_length (carry : UInt64) (as bs : List UInt32) (h : as.length ≤ bs.length) :
    (mulInner x carry as bs).length = as.length := by
  induction as generalizing carry bs with
  | nil => rfl
  | cons a as ih =>
    cases bs with
    | nil => cases h
    | cons b bs => exact congrArg succ (ih _ bs (le_of_succ_le_succ h))

lemma mulOuter_length (b xs as : List UInt32) (hlen : xs.length = as.length)
    (hb : as.length ≤ b.length) : (mulOuter b xs as).length = as.length := by
  induction xs generalizing as with
  | nil => rfl
  | cons x xs ih =>
    have hinner := mulInner_length x 0 as b hb
    rw [mulOuter]
    split
    · rename_i r rs heq
      rw [heq, length_cons] at hinner
      rw [length_cons] at hlen ⊢
      rw [ih rs (by omega) (by omega)]
      omega
    · rename_i heq
      rw [heq] at hinner
      exact hinner

lemma product_lt {x y a c : Nat} (hx : x < 2 ^ 32) (hy : y < 2 ^ 32) (ha : a < 2 ^ 32)
    (hc : c < 2 ^ 32) : c + a + x * y < 2 ^ 64 := by
  have hmul : x * y ≤ (2 ^ 32 - 1) * (2 ^ 32 - 1) :=
    Nat.mul_le_mul (by omega) (by omega)
  omega

lemma value_mulLoop32 (hcarry : carry.toNat < 2 ^ 32) :
    ∃ c, value (mulLoop32 b32 carry xs) + 2 ^ (32 * xs.length) * c =
      carry.toNat + b32.toNat * value xs := by
  induction xs generalizing carry with
  | nil => exact ⟨carry.toNat, by simp [mulLoop32, value]⟩
  | cons x xs ih =>
    have hbound := product_lt b32.toNat_lt x.toNat_lt (Nat.two_pow_pos 32) hcarry
    have hprod : b32.toNat * x.toNat < 2 ^ 64 := by omega
    have hn : (carry + b32.toUInt64 * x.toUInt64).toNat = carry.toNat + b32.toNat * x.toNat := by
      rw [UInt64.toNat_add, UInt64.toNat_mul, UInt32.toNat_toUInt64, UInt32.toNat_toUInt64,
        mod_eq_of_lt hprod, mod_eq_of_lt (by omega)]
    have hlow := low_toNat (carry + b32.toUInt64 * x.toUInt64)
    have hhigh := high_toNat (carry + b32.toUInt64 * x.toUInt64)
    obtain ⟨c, hc⟩ := ih ((carry + b32.toUInt64 * x.toUInt64) >>> 32) (by omega)
    have hpow : 2 ^ (32 * (xs.length + 1)) * c = 2 ^ 32 * (2 ^ (32 * xs.length) * c) := by
      rw [mul_add, pow_add]
      ring
    have hdist : b32.toNat * (x.toNat + 2 ^ 32 * value xs) =
        b32.toNat * x.toNat + 2 ^ 32 * (b32.toNat * value xs) := by ring
    refine ⟨c, ?_⟩
    rw [mulLoop32, value, value, length_cons, hpow, hdist]
    omega

lemma modEq_cons (l u v M : Nat) (h : u ≡ v [MOD M]) :
    l + 2 ^ 32 * u ≡ l + 2 ^ 32 * v [MOD 2 ^ 32 * M] :=
  Nat.ModEq.add_left l (Nat.ModEq.mul_left' (2 ^ 32) h)

lemma value_mulInner (carry : UInt64) (as bs : List UInt32) (h : as.length ≤ bs.length)
    (hcarry : carry.toNat < 2 ^ 32) :
    value (mulInner x carry as bs) ≡ carry.toNat + value as + x.toNat * value bs
      [MOD 2 ^ (32 * as.length)] := by
  induction as generalizing carry bs with
  | nil => exact modEq_one
  | cons a as ih =>
    cases bs with
    | nil => cases h
    | cons b bs =>
      have hbound := product_lt x.toNat_lt b.toNat_lt a.toNat_lt hcarry
      have hprod : x.toNat * b.toNat < 2 ^ 64 := by omega
      have hn : (carry + a.toUInt64 + x.toUInt64 * b.toUInt64).toNat =
          carry.toNat + a.toNat + x.toNat * b.toNat := by
        rw [UInt64.toNat_add, UInt64.toNat_add, UInt64.toNat_mul, UInt32.toNat_toUInt64,
          UInt32.toNat_toUInt64, UInt32.toNat_toUInt64, mod_eq_of_lt hprod,
          mod_eq_of_lt (by omega : carry.toNat + a.toNat < 2 ^ 64), mod_eq_of_lt hbound]
      have hlow := low_toNat (carry + a.toUInt64 + x.toUInt64 * b.toUInt64)
      have hhigh := high_toNat (carry + a.toUInt64 + x.toUInt64 * b.toUInt64)
      have hrest := ih ((carry + a.toUInt64 + x.toUInt64 * b.toUInt64) >>> 32) bs
        (le_of_succ_le_succ h) (by omega)
      have hpow : 2 ^ (32 * (as.length + 1)) = 2 ^ 32 * 2 ^ (32 * as.length) := by
        rw [mul_add, pow_add, mul_comm]
      have hdist : x.toNat * (b.toNat + 2 ^ 32 * value bs) =
          x.toNat * b.toNat + 2 ^ 32 * (x.toNat * value bs) := by ring
      rw [mulInner, value, value, value, length_cons, hpow, hdist]
      refine (modEq_cons _ _ _ _ hrest).trans (congrArg (· % _) ?_)
      omega

lemma value_mulOuter (b xs as : List UInt32) (hlen : xs.length = as.length)
    (hb : as.length ≤ b.length) :
    value (mulOuter b xs as) ≡ value as + value xs * value b [MOD 2 ^ (32 * as.length)] := by
  induction xs generalizing as with
  | nil =>
    rw [mulOuter, value, zero_mul, add_zero]
  | cons x xs ih =>
    have hsize := mulInner_length x 0 as b hb
    have hinner := value_mulInner x 0 as b hb (by decide)
    rw [length_cons] at hlen
    rw [mulOuter]
    split
    · rename_i r rs heq
      rw [heq] at hsize hinner
      rw [length_cons] at hsize
      have hrest := ih rs (by omega) (by omega)
      have hpow : 2 ^ (32 * as.length) = 2 ^ 32 * 2 ^ (32 * rs.length) := by
        rw [← hsize, mul_add, pow_add, mul_comm]
      have hzero : (0 : UInt64).toNat = 0 := rfl
      rw [value, hzero, zero_add] at hinner
      rw [value, value]
      have hsplit : r.toNat + 2 ^ 32 * (value rs + value xs * value b) =
          (r.toNat + 2 ^ 32 * value rs) + 2 ^ 32 * (value xs * value b) := by ring
      have hjoin : value as + (x.toNat + 2 ^ 32 * value xs) * value b =
          (value as + x.toNat * value b) + 2 ^ 32 * (value xs * value b) := by ring
      calc r.toNat + 2 ^ 32 * value (mulOuter b xs rs)
          ≡ r.toNat + 2 ^ 32 * (value rs + value xs * value b) [MOD 2 ^ (32 * as.length)] := by
            rw [hpow]
            exact modEq_cons _ _ _ _ hrest
        _ ≡ value as + (x.toNat + 2 ^ 32 * value xs) * value b [MOD 2 ^ (32 * as.length)] := by
            rw [hsplit, hjoin]
            exact hinner.add_right _
    · rename_i heq
      rw [heq, length_nil] at hsize
      omega

def mulAssign32 (a : BaseUint WIDTH) (b32 : UInt32) : BaseUint WIDTH :=
  ⟨mulLoop32 b32 0 a.pn, by rw [mulLoop32_length, a.size]⟩

def mulAssign (a b : BaseUint WIDTH) : BaseUint WIDTH :=
  ⟨mulOuter b.pn a.pn (replicate WIDTH 0), by
    have hle : (replicate WIDTH (0 : UInt32)).length ≤ b.pn.length := by
      rw [length_replicate, b.size]
    rw [mulOuter_length _ _ _ (by rw [a.size, length_replicate]) hle, length_replicate]⟩

lemma toNat_mulAssign32 : (a.mulAssign32 b32).toNat = a.toNat * b32.toNat % 2 ^ (32 * WIDTH) := by
  obtain ⟨c, hc⟩ := value_mulLoop32 b32 0 a.pn (by decide)
  have hzero : (0 : UInt64).toNat = 0 := rfl
  rw [a.size, hzero, zero_add, mul_comm b32.toNat] at hc
  exact mod_of_add_mul (a.mulAssign32 b32).toNat_lt hc

lemma toNat_mulAssign : (a.mulAssign b).toNat = a.toNat * b.toNat % 2 ^ (32 * WIDTH) := by
  have hle : (replicate WIDTH (0 : UInt32)).length ≤ b.pn.length := by
    rw [length_replicate, b.size]
  have hmod := value_mulOuter b.pn a.pn (replicate WIDTH 0)
    (by rw [a.size, length_replicate]) hle
  rw [length_replicate, value_replicate_zero, zero_add] at hmod
  rw [← mod_eq_of_lt (a.mulAssign b).toNat_lt]
  exact hmod

def compareLoop : List UInt32 → List UInt32 → Int
  | x :: xs, y :: ys =>
    if compareLoop xs ys ≠ 0 then compareLoop xs ys
    else if x < y then -1 else if x > y then 1 else 0
  | _, _ => 0

lemma compareLoop_eq (h : xs.length = ys.length) :
    compareLoop xs ys = if value xs < value ys then -1 else if value ys < value xs
      then 1 else 0 := by
  induction xs generalizing ys with
  | nil =>
    cases ys with
    | nil => rfl
    | cons y ys => cases h
  | cons x xs ih =>
    cases ys with
    | nil => cases h
    | cons y ys =>
      have hx := x.toNat_lt
      have hy := y.toNat_lt
      have hlt : x < y ↔ x.toNat < y.toNat := UInt32.lt_iff_toNat_lt
      have hgt : x > y ↔ y.toNat < x.toNat := UInt32.lt_iff_toNat_lt
      rw [compareLoop, ih ys (succ.inj h), value, value]
      simp only [hlt, hgt]
      split_ifs <;> omega

def compareTo (a b : BaseUint WIDTH) : Int := compareLoop a.pn b.pn

lemma compareTo_eq :
    compareTo a b = if a.toNat < b.toNat then -1 else if b.toNat < a.toNat then 1 else 0 :=
  compareLoop_eq a.pn b.pn (a.size.trans b.size.symm)

lemma compareTo_pos_iff : compareTo a b > 0 ↔ b.toNat < a.toNat := by
  rw [compareTo_eq]
  split_ifs <;> omega

lemma compareTo_nonneg_iff : compareTo a b ≥ 0 ↔ b.toNat ≤ a.toNat := by
  rw [compareTo_eq]
  split_ifs <;> omega

def orAt (pn : List UInt32) (i : Nat) (x : UInt32) : List UInt32 := pn.modify i (· ||| x)

@[simp] lemma orAt_length (x : UInt32) : (orAt pn i x).length = pn.length := length_modify ..

lemma limb_orAt (x : UInt32) (hi : i < pn.length) :
    limb (orAt pn i x) m = if m = i then limb pn m ||| x else limb pn m := by
  rw [limb, limb, orAt, getD_eq_getElem?_getD, getD_eq_getElem?_getD, getElem?_modify]
  by_cases hm : m = i
  · subst hm
    simp [getElem?_eq_getElem hi]
  · have hne : i ≠ m := fun h => hm h.symm
    simp [hm, hne]

def shlStep (a : List UInt32) (k shift : Nat) (pn : List UInt32) (i : Nat) : List UInt32 :=
  let pn := if i + k + 1 < a.length ∧ shift ≠ 0 then
      orAt pn (i + k + 1) (limb a i >>> UInt32.ofNat (32 - shift)) else pn
  if i + k < a.length then orAt pn (i + k) (limb a i <<< UInt32.ofNat shift) else pn

def shlLoop (a : List UInt32) (shift : Nat) : List UInt32 :=
  (range a.length).foldl (shlStep a (shift / 32) (shift % 32)) (replicate a.length 0)

def shrStep (a : List UInt32) (k shift : Nat) (pn : List UInt32) (i : Nat) : List UInt32 :=
  let pn := if k + 1 ≤ i ∧ shift ≠ 0 then
      orAt pn (i - k - 1) (limb a i <<< UInt32.ofNat (32 - shift)) else pn
  if k ≤ i then orAt pn (i - k) (limb a i >>> UInt32.ofNat shift) else pn

def shrLoop (a : List UInt32) (shift : Nat) : List UInt32 :=
  (range a.length).foldl (shrStep a (shift / 32) (shift % 32)) (replicate a.length 0)

lemma shlStep_length (a : List UInt32) (k shift : Nat) (pn : List UInt32) (i : Nat) :
    (shlStep a k shift pn i).length = pn.length := by
  unfold shlStep
  split_ifs <;> simp

lemma shrStep_length (a : List UInt32) (k shift : Nat) (pn : List UInt32) (i : Nat) :
    (shrStep a k shift pn i).length = pn.length := by
  unfold shrStep
  split_ifs <;> simp

lemma foldl_length (step : List UInt32 → Nat → List UInt32)
    (hstep : ∀ pn i, (step pn i).length = pn.length) (is : List Nat) (pn : List UInt32) :
    (is.foldl step pn).length = pn.length := by
  induction is generalizing pn with
  | nil => rfl
  | cons i is ih => exact (ih _).trans (hstep pn i)

lemma shlLoop_length (a : List UInt32) (shift : Nat) : (shlLoop a shift).length = a.length := by
  rw [shlLoop, foldl_length _ (shlStep_length _ _ _), length_replicate]

lemma shrLoop_length (a : List UInt32) (shift : Nat) : (shrLoop a shift).length = a.length := by
  rw [shrLoop, foldl_length _ (shrStep_length _ _ _), length_replicate]

lemma limb_replicate_zero (n m : Nat) : limb (replicate n 0) m = 0 := by
  rw [limb, getD_eq_getElem?_getD, getElem?_replicate]
  split <;> rfl

lemma limb_shlStep (a : List UInt32) (k shift : Nat) (pn : List UInt32) (i m : Nat)
    (hlen : pn.length = a.length) (hm : m < a.length) : limb (shlStep a k shift pn i) m =
      if m = i + k then limb pn m ||| limb a i <<< UInt32.ofNat shift
      else if m = i + k + 1 ∧ shift ≠ 0 then limb pn m ||| limb a i >>> UInt32.ofNat (32 - shift)
      else limb pn m := by
  have hfirst : ∀ pn' : List UInt32, pn'.length = a.length →
      limb (if i + k < a.length then orAt pn' (i + k) (limb a i <<< UInt32.ofNat shift)
        else pn') m =
        if m = i + k then limb pn' m ||| limb a i <<< UInt32.ofNat shift else limb pn' m := by
    intro pn' hpn'
    split
    · rw [limb_orAt _ _ _ _ (by omega)]
    · rw [if_neg (by omega)]
  unfold shlStep
  dsimp only
  by_cases hsecond : i + k + 1 < a.length ∧ shift ≠ 0
  · rw [if_pos hsecond, hfirst _ (by rw [orAt_length, hlen]), limb_orAt _ _ _ _ (by omega)]
    split_ifs <;> first | rfl | omega
  · rw [if_neg hsecond, hfirst _ hlen]
    split_ifs <;> first | rfl | omega

/-- After `n` iterations of a left shift each limb reached is put together from two of the
number. -/
lemma limb_shlFold (a : List UInt32) (k shift m n : Nat) (hm : m < a.length) :
    limb ((range n).foldl (shlStep a k shift) (replicate a.length 0)) m =
      (if k ≤ m ∧ m < n + k then limb a (m - k) <<< UInt32.ofNat shift else 0) |||
        (if shift ≠ 0 ∧ k + 1 ≤ m ∧ m < n + k + 1 then
          limb a (m - k - 1) >>> UInt32.ofNat (32 - shift) else 0) := by
  induction n with
  | zero =>
    have h₁ : ¬ (k ≤ m ∧ m < 0 + k) := by omega
    have h₂ : ¬ (shift ≠ 0 ∧ k + 1 ≤ m ∧ m < 0 + k + 1) := by omega
    rw [range_zero, foldl_nil, limb_replicate_zero, if_neg h₁, if_neg h₂]
    rfl
  | succ n ih =>
    have hlen : ((range n).foldl (shlStep a k shift) (replicate a.length 0)).length = a.length := by
      rw [foldl_length _ (shlStep_length _ _ _), length_replicate]
    rw [range_succ, foldl_append, foldl_cons, foldl_nil, limb_shlStep a k shift _ n m hlen hm, ih]
    by_cases hfirst : m = n + k
    · have h₁ : ¬ (k ≤ m ∧ m < n + k) := by omega
      have h₂ : k ≤ m ∧ m < n + 1 + k := by omega
      have h₃ : (shift ≠ 0 ∧ k + 1 ≤ m ∧ m < n + k + 1) ↔
          (shift ≠ 0 ∧ k + 1 ≤ m ∧ m < n + 1 + k + 1) := by omega
      have hidx : m - k = n := by omega
      rw [if_pos hfirst, if_neg h₁, if_pos h₂, if_congr h₃ rfl rfl, hidx, UInt32.zero_or,
        UInt32.or_comm]
    · rw [if_neg hfirst]
      have h₁ : (k ≤ m ∧ m < n + k) ↔ (k ≤ m ∧ m < n + 1 + k) := by omega
      by_cases hsecond : m = n + k + 1 ∧ shift ≠ 0
      · have h₂ : ¬ (shift ≠ 0 ∧ k + 1 ≤ m ∧ m < n + k + 1) := by omega
        have h₃ : shift ≠ 0 ∧ k + 1 ≤ m ∧ m < n + 1 + k + 1 := ⟨hsecond.2, by omega, by omega⟩
        have hidx : m - k - 1 = n := by omega
        rw [if_pos hsecond, if_congr h₁ rfl rfl, if_neg h₂, if_pos h₃, hidx, UInt32.or_zero]
      · have h₂ : (shift ≠ 0 ∧ k + 1 ≤ m ∧ m < n + k + 1) ↔
            (shift ≠ 0 ∧ k + 1 ≤ m ∧ m < n + 1 + k + 1) := by
          constructor
          · exact fun h => ⟨h.1, h.2.1, by omega⟩
          · exact fun h => ⟨h.1, h.2.1, by omega⟩
        rw [if_neg hsecond, if_congr h₁ rfl rfl, if_congr h₂ rfl rfl]

lemma zero_bit (j : Nat) : (0 : UInt32).toNat.testBit j = false := zero_testBit j

lemma testBit_shlLoop (a : List UInt32) (shift i : Nat) (hi : i < 32 * a.length) :
    (value (shlLoop a shift)).testBit i =
      (decide (shift ≤ i) && (value a).testBit (i - shift)) := by
  have hs : shift % 32 < 32 := mod_lt shift (by decide)
  have hj : i % 32 < 32 := mod_lt i (by decide)
  have hm : i / 32 < a.length := by omega
  rw [value_testBit_eq, shlLoop, limb_shlFold a _ _ _ _ hm, UInt32.toNat_or, testBit_or]
  by_cases hle : shift ≤ i
  · rw [decide_eq_true hle, Bool.true_and]
    by_cases hbit : shift % 32 ≤ i % 32
    · -- the bit comes from the limb `shift / 32` below
      have h₁ : shift / 32 ≤ i / 32 ∧ i / 32 < a.length + shift / 32 := by omega
      have hpos : i - shift = 32 * (i / 32 - shift / 32) + (i % 32 - shift % 32) := by omega
      rw [if_pos h₁, testBit_shiftLeft _ _ _ hs hj, decide_eq_true hbit, Bool.true_and, hpos,
        testBit_value a _ _ (by omega)]
      split
      · rename_i h₂
        rw [testBit_shiftRight _ _ _ (by omega), testBit_lt_two_pow (lt_of_lt_of_le
          (limb a (i / 32 - shift / 32 - 1)).toNat_lt
            (Nat.pow_le_pow_right (by decide) (by omega))),
          Bool.or_false]
      · rw [zero_bit, Bool.or_false]
    · -- the bit comes from the limb below that one
      have h₂ : shift % 32 ≠ 0 ∧ shift / 32 + 1 ≤ i / 32 ∧ i / 32 < a.length + shift / 32 + 1 := by
        omega
      have hpos : i - shift = 32 * (i / 32 - shift / 32 - 1) +
        (32 - shift % 32 + i % 32) := by omega
      rw [if_pos h₂, testBit_shiftRight _ _ _ (by omega), hpos, testBit_value a _ _ (by omega)]
      split
      · rw [testBit_shiftLeft _ _ _ hs hj, decide_eq_false hbit, Bool.false_and, Bool.false_or]
      · rw [zero_bit, Bool.false_or]
  · rw [decide_eq_false hle, Bool.false_and]
    have h₂ : ¬ (shift % 32 ≠ 0 ∧ shift / 32 + 1 ≤ i / 32 ∧ i / 32 < a.length +
        shift / 32 + 1) := by
      omega
    rw [if_neg h₂, zero_bit, Bool.or_false]
    split
    · have hbit : ¬ shift % 32 ≤ i % 32 := by omega
      rw [testBit_shiftLeft _ _ _ hs hj, decide_eq_false hbit, Bool.false_and]
    · exact zero_bit _

lemma value_shlLoop (a : List UInt32) (shift : Nat) :
    value (shlLoop a shift) = value a * 2 ^ shift % 2 ^ (32 * a.length) := by
  apply eq_of_testBit_eq
  intro i
  rw [Nat.testBit_mod_two_pow, ← Nat.shiftLeft_eq, Nat.testBit_shiftLeft]
  by_cases hi : i < 32 * a.length
  · rw [testBit_shlLoop a shift i hi, decide_eq_true hi, Bool.true_and]
  · rw [testBit_value_of_length_le _ _ (by rw [shlLoop_length]; omega), decide_eq_false hi,
      Bool.false_and]

lemma limb_shrStep (a : List UInt32) (k shift : Nat) (pn : List UInt32) (i m : Nat)
    (hlen : pn.length = a.length) (hi : i < a.length) : limb (shrStep a k shift pn i) m =
      if i = m + k then limb pn m ||| limb a i >>> UInt32.ofNat shift
      else if i = m + k + 1 ∧ shift ≠ 0 then limb pn m ||| limb a i <<< UInt32.ofNat (32 - shift)
      else limb pn m := by
  have hfirst : ∀ pn' : List UInt32, pn'.length = a.length →
      limb (if k ≤ i then orAt pn' (i - k) (limb a i >>> UInt32.ofNat shift) else pn') m =
        if i = m + k then limb pn' m ||| limb a i >>> UInt32.ofNat shift else limb pn' m := by
    intro pn' hpn'
    split
    · rw [limb_orAt _ _ _ _ (by omega), if_congr (by omega : m = i - k ↔ i = m + k) rfl rfl]
    · rw [if_neg (by omega)]
  unfold shrStep
  dsimp only
  by_cases hsecond : k + 1 ≤ i ∧ shift ≠ 0
  · rw [if_pos hsecond, hfirst _ (by rw [orAt_length, hlen]), limb_orAt _ _ _ _ (by omega)]
    split_ifs <;> first | rfl | omega
  · rw [if_neg hsecond, hfirst _ hlen]
    split_ifs <;> first | rfl | omega

lemma limb_shrFold (a : List UInt32) (k shift m n : Nat) (hn : n ≤ a.length) :
    limb ((range n).foldl (shrStep a k shift) (replicate a.length 0)) m =
      (if m + k < n then limb a (m + k) >>> UInt32.ofNat shift else 0) |||
        (if shift ≠ 0 ∧ m + k + 1 < n then
          limb a (m + k + 1) <<< UInt32.ofNat (32 - shift) else 0) := by
  induction n with
  | zero =>
    rw [range_zero, foldl_nil, limb_replicate_zero, if_neg (by omega), if_neg (by omega)]
    rfl
  | succ n ih =>
    have hlen : ((range n).foldl (shrStep a k shift) (replicate a.length 0)).length = a.length := by
      rw [foldl_length _ (shrStep_length _ _ _), length_replicate]
    rw [range_succ, foldl_append, foldl_cons, foldl_nil,
      limb_shrStep a k shift _ n m hlen hn, ih (by omega)]
    by_cases hfirst : n = m + k
    · have h₁ : ¬ m + k < n := by omega
      have h₂ : m + k < n + 1 := by omega
      have h₃ : ¬ (shift ≠ 0 ∧ m + k + 1 < n) := by omega
      have h₄ : ¬ (shift ≠ 0 ∧ m + k + 1 < n + 1) := by omega
      rw [if_pos hfirst, if_neg h₁, if_neg h₃, if_pos h₂, if_neg h₄, ← hfirst, UInt32.zero_or,
        UInt32.zero_or, UInt32.or_zero]
    · rw [if_neg hfirst]
      have h₁ : m + k < n ↔ m + k < n + 1 := by omega
      by_cases hsecond : n = m + k + 1 ∧ shift ≠ 0
      · have h₂ : ¬ (shift ≠ 0 ∧ m + k + 1 < n) := by omega
        have h₃ : shift ≠ 0 ∧ m + k + 1 < n + 1 := ⟨hsecond.2, by omega⟩
        rw [if_pos hsecond, if_congr h₁ rfl rfl, if_neg h₂, if_pos h₃, ← hsecond.1, UInt32.or_zero]
      · have h₂ : (shift ≠ 0 ∧ m + k + 1 < n) ↔ (shift ≠ 0 ∧ m + k + 1 < n + 1) := by
          constructor
          · exact fun h => ⟨h.1, by omega⟩
          · exact fun h => ⟨h.1, by omega⟩
        rw [if_neg hsecond, if_congr h₁ rfl rfl, if_congr h₂ rfl rfl]

lemma limb_of_length_le (h : xs.length ≤ m) : limb xs m = 0 := by
  rw [limb, getD_eq_getElem?_getD, getElem?_eq_none h]
  rfl

lemma testBit_shrLoop (a : List UInt32) (shift i : Nat) :
    (value (shrLoop a shift)).testBit i = (value a).testBit (i + shift) := by
  have hs : shift % 32 < 32 := mod_lt shift (by decide)
  have hj : i % 32 < 32 := mod_lt i (by decide)
  rw [value_testBit_eq, shrLoop, limb_shrFold a _ _ _ _ le_rfl, UInt32.toNat_or, testBit_or]
  by_cases hbit : i % 32 + shift % 32 < 32
  · -- the bit comes from the limb `shift / 32` above
    have hpos : i + shift = 32 * (i / 32 + shift / 32) + (shift % 32 + i % 32) := by omega
    have hfirst : (if i / 32 + shift / 32 < a.length then
        limb a (i / 32 + shift / 32) >>> UInt32.ofNat (shift % 32) else 0).toNat.testBit (i % 32) =
        (limb a (i / 32 + shift / 32)).toNat.testBit (shift % 32 + i % 32) := by
      split
      · exact testBit_shiftRight _ _ _ hs
      · rw [limb_of_length_le a _ (by omega), zero_bit, zero_bit]
    have hsecond : (if shift % 32 ≠ 0 ∧ i / 32 + shift / 32 + 1 < a.length then
        limb a (i / 32 + shift / 32 + 1) <<< UInt32.ofNat (32 - shift % 32) else 0).toNat.testBit
          (i % 32) = false := by
      split
      · rw [testBit_shiftLeft _ _ _ (by omega) hj, decide_eq_false (by omega), Bool.false_and]
      · exact zero_bit _
    rw [hfirst, hsecond, Bool.or_false, hpos, testBit_value a _ _ (by omega)]
  · -- the bit comes from the limb above that one
    have hpos : i + shift = 32 * (i / 32 + shift / 32 + 1) +
      (i % 32 - (32 - shift % 32)) := by omega
    have hfirst : (if i / 32 + shift / 32 < a.length then
        limb a (i / 32 + shift / 32) >>> UInt32.ofNat (shift % 32) else 0).toNat.testBit (i % 32) =
        false := by
      split
      · rw [testBit_shiftRight _ _ _ hs]
        exact testBit_lt_two_pow (lt_of_lt_of_le (limb a _).toNat_lt
          (Nat.pow_le_pow_right (by decide) (by omega)))
      · exact zero_bit _
    have hsecond : (if shift % 32 ≠ 0 ∧ i / 32 + shift / 32 + 1 < a.length then
        limb a (i / 32 + shift / 32 + 1) <<< UInt32.ofNat (32 - shift % 32) else 0).toNat.testBit
          (i % 32) =
        (limb a (i / 32 + shift / 32 + 1)).toNat.testBit (i % 32 - (32 - shift % 32)) := by
      split
      · rw [testBit_shiftLeft _ _ _ (by omega) hj, decide_eq_true (by omega), Bool.true_and]
      · rw [limb_of_length_le a _ (by omega), zero_bit, zero_bit]
    rw [hfirst, hsecond, Bool.false_or, hpos, testBit_value a _ _ (by omega)]

lemma value_shrLoop (a : List UInt32) (shift : Nat) :
    value (shrLoop a shift) = value a / 2 ^ shift := by
  apply eq_of_testBit_eq
  intro i
  rw [testBit_shrLoop, testBit_div_two_pow]

def shlAssign (a : BaseUint WIDTH) (shift : Nat) : BaseUint WIDTH :=
  ⟨shlLoop a.pn shift, by rw [shlLoop_length, a.size]⟩

def shrAssign (a : BaseUint WIDTH) (shift : Nat) : BaseUint WIDTH :=
  ⟨shrLoop a.pn shift, by rw [shrLoop_length, a.size]⟩

lemma toNat_shlAssign : (a.shlAssign shift).toNat = a.toNat * 2 ^ shift % 2 ^ (32 * WIDTH) := by
  have h := value_shlLoop a.pn shift
  rwa [a.size] at h

lemma toNat_shrAssign : (a.shrAssign shift).toNat = a.toNat / 2 ^ shift := value_shrLoop a.pn shift

def wordBits (x : UInt32) : Nat → Nat
  | 0 => 1
  | nbits + 1 => if x &&& 1 <<< UInt32.ofNat (nbits + 1) ≠ 0 then nbits + 2 else wordBits x nbits

/-- The loop of `bits` over the limbs, from the top; `pos` is the position of the first one. -/
def bitsLoop : List UInt32 → Nat → Nat
  | [], _ => 0
  | x :: xs, pos =>
    if bitsLoop xs (pos + 1) ≠ 0 then bitsLoop xs (pos + 1)
    else if x ≠ 0 then 32 * pos + wordBits x 31 else 0

def bits (a : BaseUint WIDTH) : Nat := bitsLoop a.pn 0

lemma bit_toNat (hk : k < 32) : ((1 : UInt32) <<< UInt32.ofNat k).toNat = 2 ^ k := by
  have hmod : (UInt32.ofNat k).toNat % 32 = k := by
    rw [UInt32.toNat_ofNat', mod_eq_of_lt (by omega : k < 2 ^ 32), mod_eq_of_lt hk]
  have hlt : 2 ^ k < 2 ^ 32 := Nat.pow_lt_pow_right (by decide) hk
  rw [UInt32.toNat_shiftLeft, hmod, shiftLeft_eq]
  show 1 * 2 ^ k % 2 ^ 32 = 2 ^ k
  rw [one_mul, mod_eq_of_lt hlt]

lemma and_bit_ne_zero_iff (hk : k < 32) :
    x &&& 1 <<< UInt32.ofNat k ≠ 0 ↔ x.toNat.testBit k = true := by
  have hand : (x &&& 1 <<< UInt32.ofNat k).toNat = (x.toNat.testBit k).toNat * 2 ^ k := by
    rw [UInt32.toNat_and, bit_toNat k hk, and_two_pow]
  have hpos := Nat.two_pow_pos k
  rw [Ne, ← UInt32.toNat_inj, hand]
  cases x.toNat.testBit k with
  | false => simp
  | true =>
    simp only [Bool.toNat_true, one_mul, iff_true]
    exact hpos.ne'

lemma wordBits_spec (hx : x.toNat ≠ 0) (n : Nat) (hn : n < 32) (hlt : x.toNat < 2 ^ (n + 1)) :
    1 ≤ wordBits x n ∧ 2 ^ (wordBits x n - 1) ≤ x.toNat ∧ x.toNat < 2 ^ wordBits x n := by
  induction n with
  | zero =>
    rw [wordBits]
    omega
  | succ n ih =>
    rw [wordBits]
    by_cases hbit : x.toNat.testBit (n + 1) = true
    · rw [if_pos ((and_bit_ne_zero_iff x _ hn).mpr hbit)]
      exact ⟨by omega, ge_two_pow_of_testBit hbit, hlt⟩
    · rw [if_neg fun h => hbit ((and_bit_ne_zero_iff x _ hn).mp h)]
      refine ih (by omega) (lt_pow_two_of_testBit _ fun i hi => ?_)
      rcases eq_or_lt_of_le hi with rfl | hi
      · exact Bool.eq_false_iff.mpr hbit
      · exact Nat.testBit_lt_two_pow
          (lt_of_lt_of_le hlt (Nat.pow_le_pow_right (by decide) (by omega)))

lemma bitsLoop_spec (pos : Nat) : (value xs = 0 ∧ bitsLoop xs pos = 0) ∨
      ∃ b, 1 ≤ b ∧ bitsLoop xs pos = 32 * pos + b ∧ 2 ^ (b - 1) ≤ value xs ∧ value xs < 2 ^ b := by
  induction xs generalizing pos with
  | nil => exact Or.inl ⟨rfl, rfl⟩
  | cons x xs ih =>
    have hx := x.toNat_lt
    rw [bitsLoop, value]
    rcases ih (pos + 1) with ⟨hzero, hbits⟩ | ⟨b, hb, hbits, hlo, hhi⟩
    · rw [hbits, hzero, if_neg (by omega)]
      by_cases hxz : x.toNat = 0
      · rw [if_neg (not_not.mpr (UInt32.toNat_inj.mp hxz))]
        exact Or.inl ⟨by omega, rfl⟩
      · obtain ⟨hone, hlo, hhi⟩ := wordBits_spec x hxz 31 (by decide) hx
        rw [if_pos fun h => hxz (congrArg UInt32.toNat h)]
        exact Or.inr ⟨wordBits x 31, hone, rfl, by omega, by omega⟩
    · rw [hbits, if_pos (by omega)]
      have hlow : 2 ^ (32 + b - 1) = 2 ^ 32 * 2 ^ (b - 1) := by
        rw [← pow_add]
        congr 1
        omega
      have hhigh : 2 ^ (32 + b) = 2 ^ 32 * 2 ^ b := pow_add ..
      refine Or.inr ⟨32 + b, by omega, by omega, ?_, ?_⟩
      · rw [hlow]
        omega
      · rw [hhigh]
        omega

lemma bits_eq_zero_iff : a.bits = 0 ↔ a.toNat = 0 := by
  rcases bitsLoop_spec a.pn 0 with ⟨hzero, hbits⟩ | ⟨b, hb, hbits, hlo, hhi⟩
  · exact ⟨fun _ => hzero, fun _ => hbits⟩
  · have hpos := Nat.two_pow_pos (b - 1)
    constructor
    · intro h
      rw [bits] at h
      omega
    · intro h
      rw [toNat] at h
      omega

lemma bits_spec (h : a.toNat ≠ 0) :
    1 ≤ a.bits ∧ 2 ^ (a.bits - 1) ≤ a.toNat ∧ a.toNat < 2 ^ a.bits := by
  rcases bitsLoop_spec a.pn 0 with ⟨hzero, -⟩ | ⟨b, hb, hbits, hlo, hhi⟩
  · exact absurd hzero h
  · have hb' : a.bits = b := by
      rw [bits, hbits]
      omega
    rw [hb']
    exact ⟨hb, hlo, hhi⟩

lemma bits_le : a.bits ≤ 32 * WIDTH := by
  by_cases hzero : a.toNat = 0
  · rw [(bits_eq_zero_iff a).mpr hzero]
    exact zero_le _
  · obtain ⟨hone, hlo, -⟩ := bits_spec a hzero
    have hlt : a.bits - 1 < 32 * WIDTH :=
      (Nat.pow_lt_pow_iff_right (by decide : 1 < 2)).mp (lt_of_le_of_lt hlo a.toNat_lt)
    omega

def orBit (q : BaseUint WIDTH) (shift : Nat) : BaseUint WIDTH :=
  ⟨orAt q.pn (shift / 32) (1 <<< UInt32.ofNat (shift % 32)), by rw [orAt_length, q.size]⟩

lemma toNat_orBit (shift : Nat) (h : shift < 32 * WIDTH) :
    (q.orBit shift).toNat = q.toNat ||| 2 ^ shift := by
  have hs : shift % 32 < 32 := mod_lt shift (by decide)
  apply eq_of_testBit_eq
  intro i
  show (value (orAt q.pn (shift / 32) (1 <<< UInt32.ofNat (shift % 32)))).testBit i = _
  rw [testBit_or, testBit_two_pow, value_testBit_eq, limb_orAt _ _ _ _ (by rw [q.size]; omega),
    toNat, value_testBit_eq q.pn]
  by_cases hlimb : i / 32 = shift / 32
  · rw [if_pos hlimb, UInt32.toNat_or, testBit_or, bit_toNat _ hs, testBit_two_pow]
    congr 1
    rw [decide_eq_decide]
    omega
  · rw [if_neg hlimb, decide_eq_false (by omega), Bool.or_false]

def divLoop : Nat → BaseUint WIDTH → BaseUint WIDTH → BaseUint WIDTH → BaseUint WIDTH
  | 0, _, _, q => q
  | shift + 1, num, div, q =>
    if compareTo num div ≥ 0 then
      divLoop shift (num.subAssign div) (div.shrAssign 1) (q.orBit shift)
    else divLoop shift num (div.shrAssign 1) q

def divAssign (a b : BaseUint WIDTH) : Option (BaseUint WIDTH) :=
  if b.bits = 0 then none
  else if b.bits > a.bits then some zero
  else some (divLoop (a.bits - b.bits + 1) a (b.shlAssign (a.bits - b.bits)) zero)

/-- The bits of the quotient from `n` on are set; what is left of the number decides the others. -/
lemma toNat_divLoop (d n : Nat) (num div q : BaseUint WIDTH) (hnum : num.toNat < d * 2 ^ n)
    (hdiv : n ≠ 0 → div.toNat = d * 2 ^ (n - 1)) (hq : 2 ^ n ∣ q.toNat) (hn : n ≤ 32 * WIDTH) :
    (divLoop n num div q).toNat = q.toNat + num.toNat / d := by
  induction n generalizing num div q with
  | zero =>
    rw [divLoop, div_eq_of_lt (by omega), add_zero]
  | succ shift ih =>
    have hd : div.toNat = d * 2 ^ shift := hdiv (succ_ne_zero shift)
    have hhalf : (div.shrAssign 1).toNat = d * 2 ^ shift / 2 := by rw [toNat_shrAssign, hd, pow_one]
    have hnext : shift ≠ 0 → (div.shrAssign 1).toNat = d * 2 ^ (shift - 1) := by
      intro hne
      obtain ⟨k, rfl⟩ := exists_eq_succ_of_ne_zero hne
      rw [hhalf, Nat.pow_succ, ← Nat.mul_assoc, Nat.mul_div_cancel _ (by decide)]
      rfl
    have hpow : d * 2 ^ (shift + 1) = d * 2 ^ shift + d * 2 ^ shift := by ring
    have hdvd : 2 ^ shift ∣ q.toNat := dvd_trans (pow_dvd_pow 2 (le_succ shift)) hq
    rw [divLoop]
    split
    · rename_i hge
      have hle : div.toNat ≤ num.toNat := (compareTo_nonneg_iff num div).mp hge
      have hsub := toNat_subAssign num div hle
      have hbit : (q.orBit shift).toNat = q.toNat + 2 ^ shift := by
        obtain ⟨c, hc⟩ := hq
        rw [toNat_orBit q shift (by omega), hc,
          Nat.two_pow_add_eq_or_of_lt (Nat.pow_lt_pow_right (by decide) (Nat.lt_succ_self shift))]
      have hdpos : 0 < d := by
        rcases Nat.eq_zero_or_pos d with rfl | hpos
        · omega
        · exact hpos
      have hquot : num.toNat / d = (num.toNat - d * 2 ^ shift) / d + 2 ^ shift := by
        have hsplit : num.toNat = num.toNat - d * 2 ^ shift + d * 2 ^ shift := by omega
        conv_lhs => rw [hsplit]
        rw [add_mul_div_left _ _ hdpos]
      rw [ih _ _ _ (by omega) hnext (by rw [hbit]; exact dvd_add hdvd dvd_rfl) (by omega),
        hbit, hsub, hd, hquot]
      omega
    · rename_i hge
      have hlt : ¬ div.toNat ≤ num.toNat := fun h => hge ((compareTo_nonneg_iff num div).mpr h)
      exact ih _ _ _ (by omega) hnext hdvd (by omega)

lemma divAssign_eq_none_iff : a.divAssign b = none ↔ b.toNat = 0 := by
  rw [← bits_eq_zero_iff]
  unfold divAssign
  split_ifs <;> simp_all

lemma toNat_divAssign (h : a.divAssign b = some q) : q.toNat = a.toNat / b.toNat := by
  unfold divAssign at h
  split_ifs at h with hzero hless
  · obtain rfl := Option.some.inj h
    have hb : b.toNat ≠ 0 := fun h => hzero ((bits_eq_zero_iff b).mpr h)
    obtain ⟨-, hlo, -⟩ := bits_spec b hb
    have hlt : a.toNat < b.toNat := by
      by_cases ha : a.toNat = 0
      · omega
      · obtain ⟨-, -, hhi⟩ := bits_spec a ha
        exact lt_of_lt_of_le hhi (le_trans (Nat.pow_le_pow_right (by decide) (by omega)) hlo)
    rw [toNat_zero, div_eq_of_lt hlt]
  · obtain rfl := Option.some.inj h
    have hb : b.toNat ≠ 0 := fun h => hzero ((bits_eq_zero_iff b).mpr h)
    have ha : a.toNat ≠ 0 := by
      intro ha
      rw [(bits_eq_zero_iff a).mpr ha] at hless
      omega
    obtain ⟨hbone, hblo, hbhi⟩ := bits_spec b hb
    obtain ⟨-, -, hahi⟩ := bits_spec a ha
    have habits := bits_le a
    have htop : 2 ^ (b.bits - 1) * 2 ^ (a.bits - b.bits + 1) = 2 ^ a.bits := by
      rw [← pow_add]
      congr 1
      omega
    have hnum : a.toNat < b.toNat * 2 ^ (a.bits - b.bits + 1) :=
      lt_of_lt_of_le hahi (htop ▸ mul_le_mul_right _ hblo)
    have halign : b.toNat * 2 ^ (a.bits - b.bits) < 2 ^ (32 * WIDTH) := by
      have hprod : 2 ^ b.bits * 2 ^ (a.bits - b.bits) = 2 ^ a.bits := by
        rw [← pow_add]
        congr 1
        omega
      calc b.toNat * 2 ^ (a.bits - b.bits) < 2 ^ b.bits * 2 ^ (a.bits - b.bits) :=
            Nat.mul_lt_mul_of_pos_right hbhi (Nat.two_pow_pos _)
        _ = 2 ^ a.bits := hprod
        _ ≤ 2 ^ (32 * WIDTH) := Nat.pow_le_pow_right (by decide) habits
    have hdiv : (b.shlAssign (a.bits - b.bits)).toNat = b.toNat * 2 ^ (a.bits - b.bits) := by
      rw [toNat_shlAssign, mod_eq_of_lt halign]
    rw [toNat_divLoop b.toNat _ a _ zero hnum (fun _ => hdiv) (by rw [toNat_zero]; exact dvd_zero _)
      (by omega), toNat_zero, zero_add]

end BaseUint

end ArithUint256
