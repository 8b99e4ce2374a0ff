import BitcoinC.AmountCompression

/-!
# Parameters of a range proof

`SelectRangeProofParameters` of `blind.cpp`: an exponent whose power of ten
divides the value, drawn between half and all of its trailing zeros, and a number
of bits for the quotient.
-/

namespace RangeProofParameters

open Primitives AmountCompression

def countFromHigh : Nat → UInt64 → Nat
  | 0, _ => 0
  | k + 1, nValueIn => if nValueIn &&& ((1 : UInt64) <<< 63) ≠ 0 then 0 else countFromHigh k
      (nValueIn <<< 1) + 1

def countTrailingZeros (nValueIn : UInt64) : Nat := countFromHigh 64 nValueIn

def mulInt64 (overflow : Int → Int → Int) (a b : Int) : Int :=
  if -2 ^ 63 ≤ a * b ∧ a * b < 2 ^ 63 then a * b else overflow a b

def ipowLoop (overflow : Int → Int → Int) : Nat → Int → Int → Nat → Int
  | 0, _, result, _ => result
  | fuel + 1, base, result, exp =>
    if exp = 0 then result
    else
      let result := if exp % 2 = 1 then mulInt64 overflow result base else result
      ipowLoop overflow fuel (mulInt64 overflow base base) result (exp / 2)

def ipow (overflow : Int → Int → Int) (base : Int) (exp : Nat) : Int :=
  ipowLoop overflow exp base 1 exp

def getRandInt (rand : Nat) (nMax : Nat) : Nat := if nMax = 0 then 0 else rand % nMax

def roundBits : Nat → Nat → Nat
  | 0, nBits => nBits
  | fuel + 1, nBits => if nBits < 63 ∧ nBits % 4 ≠ 0 then roundBits fuel (nBits + 1) else nBits

def bitsFor (nTest : UInt64) : Nat :=
  let nBitsReq := 64 - countTrailingZeros nTest
  roundBits 3 (if 32 < nBitsReq then nBitsReq else 32)

structure Parameters where
  exponent : Nat
  nBits : Nat
  deriving DecidableEq

/-- `SelectRangeProofParameters` with the outcomes of its draws in order. `minValue` is not set. -/
def selectRangeProofParameters (overflow : Int → Int → Int) (rand : Nat → Nat) (nValueIn : UInt64) :
    Parameters :=
  if nValueIn = 0 then
    { exponent := getRandInt (rand 0) 5
      nBits := if getRandInt (rand 1) 10 = 0 then 32 + getRandInt (rand 2) 5 else 32 }
  else
    -- a word has less than twenty digits, so the loop ends by itself
    let nDiv10 := (stripTens 20 nValueIn).2
    let eMin := nDiv10 / 2
    let exponent := eMin + getRandInt (rand 0) (nDiv10 - eMin)
    { exponent := exponent, nBits := bitsFor (nValueIn / UInt64.ofInt (ipow overflow 10 exponent)) }

lemma stripTens_ends {n : UInt64} (hne : n ≠ 0) : (stripTens 20 n).2 < 20 := by
  obtain ⟨hvalue, hcount, -⟩ := stripTens_spec 20 n
  by_contra hall
  have heq : (stripTens 20 n).2 = 20 := by omega
  have hpos : 0 < (stripTens 20 n).1.toNat := by
    refine Nat.pos_of_ne_zero fun hzero => hne (UInt64.toNat_inj.mp ?_)
    rw [hvalue, hzero, Nat.zero_mul]
    rfl
  have hlt := n.toNat_lt
  rw [hvalue, heq] at hlt
  omega

lemma lt_of_high_clear {n : UInt64} (h : n &&& ((1 : UInt64) <<< 63) = 0) : n.toNat < 2 ^ 63 := by
  by_contra hge
  have hlt := n.toNat_lt
  have hset : n.toNat.testBit 63 = true := by
    rw [Nat.testBit_eq_decide_div_mod_eq, decide_eq_true_eq]
    omega
  have hmasked : ((n &&& ((1 : UInt64) <<< 63)).toNat).testBit 63 = true := by
    rw [UInt64.toNat_and, Nat.testBit_and, hset]
    decide
  rw [h] at hmasked
  exact absurd hmasked (by decide)

lemma toNat_double {n : UInt64} (h : n.toNat < 2 ^ 63) : (n <<< 1).toNat = n.toNat * 2 := by
  have hone : ((1 : UInt64).toNat % 64) = 1 := rfl
  rw [UInt64.toNat_shiftLeft, Nat.shiftLeft_eq, hone]
  omega

lemma countFromHigh_spec (k : Nat) (n : UInt64) :
    countFromHigh k n ≤ k ∧ n.toNat * 2 ^ countFromHigh k n < 2 ^ 64 := by
  induction k generalizing n with
  | zero => exact ⟨le_rfl, by simpa [countFromHigh] using n.toNat_lt⟩
  | succ k ih =>
    unfold countFromHigh
    split_ifs with hbit
    · exact ⟨Nat.zero_le _, by simpa using n.toNat_lt⟩
    · obtain ⟨hle, hlt⟩ := ih (n <<< 1)
      rw [toNat_double (lt_of_high_clear (not_not.mp hbit)), Nat.mul_assoc, ← Nat.pow_succ'] at hlt
      exact ⟨Nat.succ_le_succ hle, hlt⟩

lemma lt_two_pow_countTrailingZeros (n : UInt64) : n.toNat < 2 ^ (64 - countTrailingZeros n) := by
  have hle : countTrailingZeros n ≤ 64 := (countFromHigh_spec 64 n).1
  have hlt : n.toNat * 2 ^ countTrailingZeros n < 2 ^ 64 := (countFromHigh_spec 64 n).2
  have hsplit : 2 ^ (64 - countTrailingZeros n) * 2 ^ countTrailingZeros n = 2 ^ 64 := by
    rw [← Nat.pow_add, Nat.sub_add_cancel hle]
  exact Nat.lt_of_mul_lt_mul_right (lt_of_lt_of_eq hlt hsplit.symm)

lemma mulInt64_eq (overflow : Int → Int → Int) {a b : Int} (hlow : 0 ≤ a * b)
    (hhigh : a * b < 2 ^ 63) : mulInt64 overflow a b = a * b :=
  if_pos ⟨by omega, hhigh⟩

lemma ipowLoop_zero (overflow : Int → Int → Int) (fuel : Nat) (base result : Int) :
    ipowLoop overflow fuel base result 0 = result := by
  cases fuel with
  | zero => rfl
  | succ fuel => rw [ipowLoop, if_pos rfl]

/-- A power that fits is computed exactly: only a square no longer used can overflow. -/
lemma ipowLoop_eq (overflow : Int → Int → Int) (fuel exp : Nat) (base result : Int)
    (hbase : 1 ≤ base) (hresult : 1 ≤ result) (hfuel : exp ≤ fuel)
    (hfits : result * base ^ exp < 2 ^ 63) :
    ipowLoop overflow fuel base result exp = result * base ^ exp := by
  induction fuel generalizing exp base result with
  | zero =>
    obtain rfl := Nat.le_zero.mp hfuel
    simp [ipowLoop]
  | succ fuel ih =>
    rcases Nat.eq_zero_or_pos exp with rfl | hpos
    · simp [ipowLoop]
    · have hsquares : (base * base) ^ (exp / 2) * base ^ (exp % 2) = base ^ exp := by
        rw [← pow_two, ← pow_mul, ← pow_add, Nat.div_add_mod]
      rw [ipowLoop, if_neg hpos.ne']
      dsimp only
      -- the product that is taken into the result, when there is one
      have hnext : (if exp % 2 = 1 then mulInt64 overflow result base else result) =
          result * base ^ (exp % 2) := by
        split_ifs with hodd
        · have hle : result * base ≤ result * base ^ exp := by
            refine Int.mul_le_mul_of_nonneg_left ?_ (by omega)
            exact le_self_pow₀ hbase hpos.ne'
          rw [hodd, pow_one]
          exact mulInt64_eq overflow (by positivity) (lt_of_le_of_lt hle hfits)
        · have heven : exp % 2 = 0 := by omega
          rw [heven, pow_zero, mul_one]
      rw [hnext]
      rcases Nat.eq_zero_or_pos (exp / 2) with hhalf | hhalf
      · rw [hhalf, ipowLoop_zero, ← hsquares, hhalf, pow_zero, one_mul]
      · have hsquare : base * base ≤ result * base ^ exp := by
          have htwo : base ^ 2 ≤ base ^ exp := pow_le_pow_right₀ hbase (by omega)
          have hone : base ^ exp ≤ result * base ^ exp :=
            le_mul_of_one_le_left (by positivity) hresult
          rw [← pow_two]
          exact htwo.trans hone
        have hvalue : result * base ^ (exp % 2) * (base * base) ^ (exp / 2) =
            result * base ^ exp := by
          rw [mul_assoc, mul_comm (base ^ (exp % 2)), hsquares]
        rw [mulInt64_eq overflow (by positivity) (lt_of_le_of_lt hsquare hfits),
          ih (exp / 2) (base * base) (result * base ^ (exp % 2))
            (one_le_mul_of_one_le_of_one_le hbase hbase)
            (one_le_mul_of_one_le_of_one_le hresult (one_le_pow₀ hbase)) (by omega)
              (by rw [hvalue]; exact hfits),
          hvalue]

lemma ipow_eq (overflow : Int → Int → Int) {base : Int} {exp : Nat} (hbase : 1 ≤ base)
    (hfits : base ^ exp < 2 ^ 63) : ipow overflow base exp = base ^ exp := by
  rw [ipow, ipowLoop_eq overflow exp exp base 1 hbase le_rfl le_rfl (by rwa [one_mul]), one_mul]

lemma roundBits_spec (fuel nBits : Nat) (h : nBits ≤ 64) :
    nBits ≤ roundBits fuel nBits ∧ roundBits fuel nBits ≤ 64 := by
  induction fuel generalizing nBits with
  | zero => exact ⟨le_rfl, h⟩
  | succ fuel ih =>
    unfold roundBits
    split_ifs with hround
    · obtain ⟨hle, hmax⟩ := ih (nBits + 1) (by omega)
      exact ⟨by omega, hmax⟩
    · exact ⟨le_rfl, h⟩

lemma roundBits_stops (nBits : Nat) : ¬ (roundBits 3 nBits < 63 ∧ roundBits 3 nBits % 4 ≠ 0) := by
  unfold roundBits roundBits roundBits roundBits
  split_ifs
  all_goals omega

/-- Between 32 and 64 bits, enough for the quotient. -/
lemma bitsFor_spec (nTest : UInt64) : 32 ≤ bitsFor nTest ∧ bitsFor nTest ≤ 64 ∧
      (bitsFor nTest < 63 → 4 ∣ bitsFor nTest) ∧ nTest.toNat < 2 ^ bitsFor nTest := by
  have hcovers := lt_two_pow_countTrailingZeros nTest
  unfold bitsFor
  dsimp only
  set least := if 32 < 64 - countTrailingZeros nTest then 64 - countTrailingZeros nTest else 32
  have hleast : 32 ≤ least ∧ least ≤ 64 ∧ 64 - countTrailingZeros nTest ≤ least := by
    unfold least
    split_ifs
    all_goals omega
  obtain ⟨hle, hmax⟩ := roundBits_spec 3 least hleast.2.1
  refine ⟨hleast.1.trans hle, hmax, fun hlt => ?_, hcovers.trans_le ?_⟩
  · exact Nat.dvd_of_mod_eq_zero (not_not.mp fun hne => roundBits_stops least ⟨hlt, hne⟩)
  · exact Nat.pow_le_pow_right (by decide) (hleast.2.2.trans hle)

lemma getRandInt_le (rand nMax : Nat) : getRandInt rand nMax ≤ nMax := by
  unfold getRandInt
  split_ifs with hzero
  · exact Nat.zero_le _
  · exact (Nat.mod_lt _ (by omega)).le

section

variable (overflow : Int → Int → Int) (rand : Nat → Nat) {v : UInt64}

lemma exponent_dvd (hne : v ≠ 0) : 10 ^ (selectRangeProofParameters overflow rand v).exponent ∣
    v.toNat := by
  obtain ⟨hvalue, -, -⟩ := stripTens_spec 20 v
  have hle : (selectRangeProofParameters overflow rand v).exponent ≤ (stripTens 20 v).2 := by
    have hrand := getRandInt_le (rand 0) ((stripTens 20 v).2 - (stripTens 20 v).2 / 2)
    rw [selectRangeProofParameters, if_neg hne]
    dsimp only
    omega
  rw [hvalue]
  exact Dvd.dvd.mul_left (Nat.pow_dvd_pow 10 hle) _

lemma nBits_eq (hne : v ≠ 0) : (selectRangeProofParameters overflow rand v).nBits =
    bitsFor (v / UInt64.ofInt (ipow overflow 10
      (selectRangeProofParameters overflow rand v).exponent)) := by
  simp only [selectRangeProofParameters, if_neg hne]

end

lemma toNat_ofInt {x : Int} (hlow : 0 ≤ x) (hhigh : x < 2 ^ 64) :
    ((UInt64.ofInt x).toNat : Int) = x := by
  rw [UInt64.ofInt, UInt64.toNat_ofNat']
  omega

/-- For every value of the money range but zero, every outcome of the draws and whatever an
overflow gives: the loop over the digits ends, the power of ten is computed exactly and divides
the value, and the quotient fits into the bits, which are a multiple of four below 63. -/
theorem parameters_cover (overflow : Int → Int → Int) (rand : Nat → Nat) (v : UInt64)
    (hpos : 1 ≤ v.toNat) (hmax : (v.toNat : Int) ≤ MAX_MONEY) :
    let P := selectRangeProofParameters overflow rand v
    (stripTens 20 v).2 < 20 ∧ ipow overflow 10 P.exponent = 10 ^ P.exponent ∧
      10 ^ P.exponent ∣ v.toNat ∧ 32 ≤ P.nBits ∧ P.nBits ≤ 64 ∧ (P.nBits < 63 → 4 ∣ P.nBits) ∧
      v.toNat / 10 ^ P.exponent < 2 ^ P.nBits := by
  intro P
  have hne : v ≠ 0 := by
    rintro rfl
    exact absurd hpos (by decide)
  have hdvd : 10 ^ P.exponent ∣ v.toNat := exponent_dvd overflow rand hne
  have hle : (10 : Int) ^ P.exponent ≤ v.toNat := by exact_mod_cast Nat.le_of_dvd hpos hdvd
  have hfits : (10 : Int) ^ P.exponent < 2 ^ 63 := by
    unfold MAX_MONEY COIN at hmax
    omega
  have hpower : ipow overflow 10 P.exponent = 10 ^ P.exponent :=
    ipow_eq overflow (by norm_num) hfits
  have hword : (UInt64.ofInt (10 ^ P.exponent)).toNat = 10 ^ P.exponent := by
    have hint := toNat_ofInt (x := 10 ^ P.exponent) (by positivity) (by omega)
    zify
    exact hint
  obtain ⟨hmin, hmax64, hfour, hcovers⟩ :=
    bitsFor_spec (v / UInt64.ofInt (ipow overflow 10 P.exponent))
  rw [← nBits_eq overflow rand hne] at hmin hmax64 hfour hcovers
  rw [hpower, UInt64.toNat_div, hword] at hcovers
  exact ⟨stripTens_ends hne, hpower, hdvd, hmin, hmax64, hfour, hcovers⟩

/-- The largest value, with the largest draw: nine digits more than the half of eighteen. -/
theorem parameters_cover_max :
    let P := selectRangeProofParameters (fun _ _ => -1) (fun _ => 8) 1000000000000000000
    P = ⟨17, 32⟩ ∧ ipow (fun _ _ => -1) 10 P.exponent = 10 ^ P.exponent := by
  refine ⟨by decide +kernel, ?_⟩
  exact (parameters_cover (fun _ _ => -1) (fun _ => 8) 1000000000000000000 (by decide)
    (by decide)).2.1

end RangeProofParameters
