import BitcoinC.Primitives

/-!
# Amount compression

`CompressAmount` and `DecompressAmount` of `compressor.cpp` on 64-bit words.
-/

namespace AmountCompression

open Primitives UInt64

/-- The first loop: at most `k` factors of ten are taken out; the second part counts them. -/
def stripTens : Nat → UInt64 → UInt64 × Nat
  | 0, n => (n, 0)
  | k + 1, n => if n % 10 = 0 then ((stripTens k (n / 10)).1, (stripTens k (n / 10)).2 + 1)
      else (n, 0)

def compressAmount (n : UInt64) : UInt64 :=
  if n = 0 then 0
  else
    let (n, e) := stripTens 9 n
    if e < 9 then
      let d := n % 10
      let n := n / 10
      1 + (n * 9 + d - 1) * 10 + ofNat e
    else 1 + (n - 1) * 10 + 9

def scaleTens : Nat → UInt64 → UInt64
  | 0, n => n
  | e + 1, n => scaleTens e (n * 10)

def decompressAmount (x : UInt64) : UInt64 :=
  if x = 0 then 0
  else
    let x := x - 1
    let e := x % 10
    let x := x / 10
    if e < 9 then
      let d := x % 9 + 1
      let x := x / 9
      scaleTens e.toNat (x * 10 + d)
    else scaleTens e.toNat (x + 1)

def add64 (a b : Nat) : Option Nat := if a + b < 2 ^ 64 then some (a + b) else none

def sub64 (a b : Nat) : Option Nat := if b ≤ a then some (a - b) else none

def mul64 (a b : Nat) : Option Nat := if a * b < 2 ^ 64 then some (a * b) else none

/-- `CompressAmount` in exact arithmetic, stopped at the first step that leaves the 64-bit range. -/
def compressChecked (n : UInt64) : Option Nat :=
  if n = 0 then some 0
  else
    let (n, e) := stripTens 9 n
    if e < 9 then do
      let packed ← mul64 (n / 10).toNat 9
      let packed ← add64 packed (n % 10).toNat
      let packed ← sub64 packed 1
      let packed ← mul64 packed 10
      let packed ← add64 1 packed
      add64 packed e
    else do
      let packed ← sub64 n.toNat 1
      let packed ← mul64 packed 10
      let packed ← add64 1 packed
      add64 packed 9

lemma stripTens_spec (k : Nat) (n : UInt64) :
    n.toNat = (stripTens k n).1.toNat * 10 ^ (stripTens k n).2 ∧ (stripTens k n).2 ≤ k ∧
      ((stripTens k n).2 < k → (stripTens k n).1.toNat % 10 ≠ 0) := by
  induction k generalizing n with
  | zero => simp [stripTens]
  | succ k ih =>
    unfold stripTens
    split_ifs with hzero
    · obtain ⟨hvalue, hcount, hlast⟩ := ih (n / 10)
      have hmod : n.toNat % 10 = 0 := by
        have hnat := congrArg toNat hzero
        simpa using hnat
      rw [UInt64.toNat_div] at hvalue
      have hten : (10 : UInt64).toNat = 10 := rfl
      refine ⟨?_, Nat.succ_le_succ hcount, fun h => hlast (Nat.lt_of_succ_lt_succ h)⟩
      rw [Nat.pow_succ, ← Nat.mul_assoc, ← hvalue, hten]
      omega
    · refine ⟨by simp, Nat.zero_le _, fun _ hmod => hzero (UInt64.toNat_inj.mp ?_)⟩
      simpa using hmod

lemma scaleTens_toNat (e : Nat) (n : UInt64) (h : n.toNat * 10 ^ e < 2 ^ 64) :
    (scaleTens e n).toNat = n.toNat * 10 ^ e := by
  induction e generalizing n with
  | zero => simp [scaleTens]
  | succ e ih =>
    have hsplit : n.toNat * 10 ^ (e + 1) = n.toNat * 10 * 10 ^ e := by ring
    have hstep : (n * 10).toNat = n.toNat * 10 := by
      have hten : (10 : UInt64).toNat = 10 := rfl
      have hle : n.toNat * 10 ≤ n.toNat * 10 * 10 ^ e := Nat.le_mul_of_pos_right _ (by positivity)
      rw [UInt64.toNat_mul, hten]
      exact Nat.mod_eq_of_lt (by omega)
    rw [scaleTens, ih _ (by rw [hstep]; omega), hstep, hsplit]

lemma add64_eq {a b : Nat} (h : a + b < 2 ^ 64) : add64 a b = some (a + b) := if_pos h

lemma sub64_eq {a b : Nat} (h : b ≤ a) : sub64 a b = some (a - b) := if_pos h

lemma mul64_eq {a b : Nat} (h : a * b < 2 ^ 64) : mul64 a b = some (a * b) := if_pos h

def packed (m e : Nat) : Nat := if e < 9 then 1 + (m / 10 * 9 + m % 10 - 1) * 10 + e
    else 1 + (m - 1) * 10 + 9

/-- Mantissa and exponent as `CompressAmount` leaves them. -/
structure Stripped (m : UInt64) (e : Nat) : Prop where
  pos : 0 < m.toNat
  le : m.toNat * 10 ^ e ≤ 10 ^ 18
  count : e ≤ 9
  last : e < 9 → m.toNat % 10 ≠ 0

lemma stripped_stripTens {n : UInt64} (hne : n ≠ 0) (hn : n.toNat ≤ 10 ^ 18) :
    Stripped (stripTens 9 n).1 (stripTens 9 n).2 := by
  obtain ⟨hvalue, hcount, hlast⟩ := stripTens_spec 9 n
  refine ⟨Nat.pos_of_ne_zero fun hzero => hne (UInt64.toNat_inj.mp ?_), hvalue ▸ hn, hcount, hlast⟩
  rw [hvalue, hzero, Nat.zero_mul]
  rfl

section

variable {m : UInt64} {e : Nat}

lemma Stripped.le_max (h : Stripped m e) : m.toNat ≤ 10 ^ 18 :=
  (Nat.le_mul_of_pos_right _ (by positivity)).trans h.le

lemma Stripped.digits_toNat (h : Stripped m e) (hlt : e < 9) :
    (m / 10 * 9 + m % 10 - 1).toNat = m.toNat / 10 * 9 + m.toNat % 10 - 1 := by
  have hmax := h.le_max
  have hlast := h.last hlt
  have hsum : (m / 10 * 9 + m % 10).toNat = m.toNat / 10 * 9 + m.toNat % 10 := by
    simp only [UInt64.toNat_add, UInt64.toNat_mul, UInt64.toNat_div, UInt64.toNat_mod,
      UInt64.reduceToNat]
    omega
  have hle : (1 : UInt64) ≤ m / 10 * 9 + m % 10 := by
    rw [le_iff_toNat_le, hsum]
    simp only [reduceToNat]
    omega
  rw [UInt64.toNat_sub_of_le _ _ hle, hsum]
  rfl

lemma Stripped.packed_toNat (h : Stripped m e) :
    (if e < 9 then 1 + (m / 10 * 9 + m % 10 - 1) * 10 + ofNat e else 1 + (m - 1) * 10 + 9).toNat =
      packed m.toNat e := by
  have hmax := h.le_max
  have hpos := h.pos
  unfold packed
  split_ifs with hlt
  · simp only [UInt64.toNat_add, UInt64.toNat_mul, h.digits_toNat hlt, UInt64.toNat_ofNat',
      UInt64.reduceToNat]
    omega
  · have hle : (1 : UInt64) ≤ m := by
      rw [le_iff_toNat_le]
      exact hpos
    simp only [UInt64.toNat_add, UInt64.toNat_mul, UInt64.toNat_sub_of_le _ _ hle,
      UInt64.reduceToNat]
    omega

lemma Stripped.checked_eq (h : Stripped m e) : (if e < 9 then do
      let packed ← mul64 (m / 10).toNat 9
      let packed ← add64 packed (m % 10).toNat
      let packed ← sub64 packed 1
      let packed ← mul64 packed 10
      let packed ← add64 1 packed
      add64 packed e
    else do
      let packed ← sub64 m.toNat 1
      let packed ← mul64 packed 10
      let packed ← add64 1 packed
      add64 packed 9) = some (packed m.toNat e) := by
  have hmax := h.le_max
  have hpos := h.pos
  have hcount := h.count
  have hdiv : (m / 10).toNat = m.toNat / 10 := UInt64.toNat_div _ _
  have hmod : (m % 10).toNat = m.toNat % 10 := UInt64.toNat_mod _ _
  unfold packed
  split_ifs with hlt
  · have hlast := h.last hlt
    simp only [Option.bind_eq_bind]
    rw [hdiv, hmod, mul64_eq (by omega), Option.bind_some, add64_eq (by omega), Option.bind_some,
      sub64_eq (by omega), Option.bind_some, mul64_eq (by omega), Option.bind_some,
      add64_eq (by omega), Option.bind_some, add64_eq (by omega)]
  · simp only [Option.bind_eq_bind]
    rw [sub64_eq (by omega), Option.bind_some, mul64_eq (by omega), Option.bind_some,
      add64_eq (by omega), Option.bind_some, add64_eq (by omega)]

lemma Stripped.decompress_eq (h : Stripped m e) {x : UInt64} (hx : x.toNat = packed m.toNat e) :
    (decompressAmount x).toNat = m.toNat * 10 ^ e := by
  have hmax := h.le_max
  have hpos := h.pos
  have hcount := h.count
  have hx1 : 1 ≤ x.toNat := by
    rw [hx]
    unfold packed
    split_ifs
    · omega
    · omega
  have hne : x ≠ 0 := by
    rintro rfl
    exact absurd hx1 (by decide)
  have hle : (1 : UInt64) ≤ x := le_iff_toNat_le.mpr hx1
  have hpred : (x - 1).toNat = x.toNat - 1 := UInt64.toNat_sub_of_le _ _ hle
  have hbound : m.toNat * 10 ^ e < 2 ^ 64 := lt_of_le_of_lt h.le (by norm_num)
  unfold decompressAmount
  rw [if_neg hne]
  dsimp only
  have hexp : ((x - 1) % 10).toNat = if e < 9 then e else 9 := by
    simp only [UInt64.toNat_mod, hpred, hx, UInt64.reduceToNat]
    unfold packed
    split_ifs with hlt
    · omega
    · omega
  by_cases hlt : e < 9
  · have hlast := h.last hlt
    rw [if_pos hlt] at hexp
    have hsmall : (x - 1) % 10 < 9 := by
      rw [lt_iff_toNat_lt, hexp]
      exact hlt
    have hdigits : ((x - 1) / 10).toNat = m.toNat / 10 * 9 + m.toNat % 10 - 1 := by
      simp only [UInt64.toNat_div, hpred, hx, packed, if_pos hlt, UInt64.reduceToNat]
      omega
    have hback : ((x - 1) / 10 / 9 * 10 + ((x - 1) / 10 % 9 + 1)).toNat = m.toNat := by
      simp only [UInt64.toNat_add, UInt64.toNat_mul, UInt64.toNat_div _ 9, UInt64.toNat_mod _ 9,
        hdigits, reduceToNat]
      omega
    rw [if_pos hsmall, hexp, scaleTens_toNat _ _ (by rwa [hback]), hback]
  · obtain rfl : e = 9 := by omega
    rw [if_neg hlt] at hexp
    have hlarge : ¬ (x - 1) % 10 < 9 := by
      rw [lt_iff_toNat_lt, hexp]
      decide
    have hback : ((x - 1) / 10 + 1).toNat = m.toNat := by
      simp only [UInt64.toNat_add, UInt64.toNat_div, hpred, hx, packed, if_neg hlt,
        UInt64.reduceToNat]
      omega
    rw [if_neg hlarge, hexp, scaleTens_toNat _ _ (by rwa [hback]), hback]

end

lemma compressAmount_toNat {n : UInt64} (hne : n ≠ 0) (hn : n.toNat ≤ 10 ^ 18) :
    (compressAmount n).toNat = packed (stripTens 9 n).1.toNat (stripTens 9 n).2 := by
  rw [compressAmount, if_neg hne]
  exact (stripped_stripTens hne hn).packed_toNat

lemma compressChecked_eq {n : UInt64} (hn : n.toNat ≤ 10 ^ 18) :
    compressChecked n = some (compressAmount n).toNat := by
  by_cases hne : n = 0
  · rw [compressChecked, compressAmount, if_pos hne, if_pos hne]
    rfl
  · rw [compressAmount_toNat hne hn, compressChecked, if_neg hne]
    exact (stripped_stripTens hne hn).checked_eq

lemma decompressAmount_compressAmount {n : UInt64} (hn : n.toNat ≤ 10 ^ 18) :
    decompressAmount (compressAmount n) = n := by
  by_cases hne : n = 0
  · rw [hne]
    decide
  · apply UInt64.toNat_inj.mp
    rw [(stripped_stripTens hne hn).decompress_eq (compressAmount_toNat hne hn)]
    exact (stripTens_spec 9 n).1.symm

/-- Over the whole money range no step of the compression overflows and it can be undone; on the
compressed amounts of that range the two functions are inverse to each other. -/
theorem amountCompression_exact (n : UInt64) (hn : (n.toNat : Int) ≤ MAX_MONEY) :
    compressChecked n = some (compressAmount n).toNat ∧ decompressAmount (compressAmount n) = n ∧
      ∀ x, compressAmount n = x → compressAmount (decompressAmount x) = x := by
  have hmax : n.toNat ≤ 10 ^ 18 := by
    unfold MAX_MONEY COIN at hn
    omega
  refine ⟨compressChecked_eq hmax, decompressAmount_compressAmount hmax, ?_⟩
  rintro x rfl
  rw [decompressAmount_compressAmount hmax]

/-- The largest amount. -/
theorem amountCompression_exact_max : compressChecked 1000000000000000000 = some 10000000000 ∧
      decompressAmount (compressAmount 1000000000000000000) = 1000000000000000000 := by
  have hexact := amountCompression_exact 1000000000000000000 (by decide)
  exact ⟨hexact.1, hexact.2.1⟩

end AmountCompression
