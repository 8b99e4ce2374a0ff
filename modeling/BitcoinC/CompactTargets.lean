import BitcoinC.ArithUint256
import BitcoinC.HeaderChecks

/-!
# Compact targets on limbs

`SetCompact` and `GetCompact` as the source computes them, with the 256-bit
operations on limbs. They agree with the definitions over `BitVec 256` that the
validators use.
-/

namespace CompactTargets

open Primitives Limbs ArithUint256 ArithUint256.BaseUint Nat UInt32

variable (a : Arith256) (n : Nat) (nCompact : UInt32) (nSize : Nat)

def equalTo {WIDTH : Nat} (a : BaseUint WIDTH) (b : UInt64) : Bool :=
  (a.pn.drop 2).all (· = 0) && limb a.pn 1 = (b >>> 32).toUInt32 &&
    limb a.pn 0 = (b &&& 0xffffffff).toUInt32

lemma value_eq_zero_iff (xs : List UInt32) : value xs = 0 ↔ ∀ x ∈ xs, x = 0 := by
  induction xs with
  | nil => exact ⟨fun _ x hx => absurd hx List.not_mem_nil, fun _ => rfl⟩
  | cons x xs ih =>
    rw [List.forall_mem_cons, ← ih, value, ← UInt32.toNat_inj]
    have hzero : (0 : UInt32).toNat = 0 := rfl
    omega

lemma equalTo_zero_iff : equalTo a 0 = true ↔ a.toNat = 0 := by
  obtain ⟨pn, hsize⟩ := a
  match pn, hsize with
  | x :: y :: rest, _ =>
    show equalTo ⟨x :: y :: rest, _⟩ 0 = true ↔ value (x :: y :: rest) = 0
    rw [value_eq_zero_iff]
    simp [equalTo, limb, and_comm]

def getLow64 (a : Arith256) : UInt64 :=
  (limb a.pn 0).toUInt64 ||| (limb a.pn 1).toUInt64 <<< 32

lemma getLow64_toNat : (getLow64 a).toNat = a.toNat % 2 ^ 64 := by
  obtain ⟨pn, hsize⟩ := a
  match pn, hsize with
  | x :: y :: rest, _ =>
    have hx := x.toNat_lt
    have hy := y.toNat_lt
    have hshift : (y.toUInt64 <<< 32).toNat = 2 ^ 32 * y.toNat := by
      rw [UInt64.toNat_shiftLeft, toNat_toUInt64, shiftLeft_eq]
      show y.toNat * 2 ^ 32 % 2 ^ 64 = 2 ^ 32 * y.toNat
      omega
    show (x.toUInt64 ||| y.toUInt64 <<< 32).toNat =
      (x.toNat + 2 ^ 32 * (y.toNat + 2 ^ 32 * value rest)) % 2 ^ 64
    rw [UInt64.toNat_or, UInt32.toNat_toUInt64, hshift, Nat.or_comm,
      ← Nat.two_pow_add_eq_or_of_lt hx]
    omega

def limbsOf : Nat → Nat → List UInt32
  | 0, _ => []
  | n + 1, v => ofNat v :: limbsOf n (v / 2 ^ 32)

lemma limbsOf_length (v : Nat) : (limbsOf n v).length = n := by
  induction n generalizing v with
  | zero => rfl
  | succ n ih => exact congrArg succ (ih _)

lemma value_limbsOf (v : Nat) (h : v < 2 ^ (32 * n)) : value (limbsOf n v) = v := by
  induction n generalizing v with
  | zero =>
    have hzero : v = 0 := by simpa using h
    rw [hzero]
    rfl
  | succ n ih =>
    have hpow : 2 ^ (32 * (n + 1)) = 2 ^ (32 * n) * 2 ^ 32 := by rw [mul_add, pow_add]
    rw [limbsOf, value,
      ih _ (by rw [hpow] at h; exact Nat.div_lt_of_lt_mul (by rw [Nat.mul_comm]; exact h)),
      toNat_ofNat']
    omega

def uintToArith256 (a : Uint256) : Arith256 := ⟨limbsOf 8 a.toNat, limbsOf_length 8 _⟩

@[simp] lemma toNat_uintToArith256 (a : Uint256) : (uintToArith256 a).toNat = a.toNat :=
  value_limbsOf 8 a.toNat a.isLt

def toBitVec (a : Arith256) : BitVec 256 := BitVec.ofNat 256 a.toNat

@[simp] lemma toBitVec_toNat : (toBitVec a).toNat = a.toNat := by
  rw [toBitVec, BitVec.toNat_ofNat, mod_eq_of_lt a.toNat_lt]

def setCompact (nCompact : UInt32) : Arith256 × Bool × Bool :=
  let nSize := (nCompact >>> 24).toNat
  let mantissa := nCompact &&& 0x007fffff
  let nWord := if nSize ≤ 3 then mantissa >>> ofNat (8 * (3 - nSize)) else mantissa
  let value : Arith256 := if nSize ≤ 3 then ofUint64 nWord.toUInt64
    else (ofUint64 nWord.toUInt64 : Arith256).shlAssign (8 * (nSize - 3))
  (value, nWord ≠ 0 && nCompact &&& 0x00800000 ≠ 0,
    nWord ≠ 0 && (34 < nSize || (0xff < nWord && 33 < nSize) || (0xffff < nWord && 32 < nSize)))

lemma shiftRight_toNat (x : UInt32) (k : Nat) (hk : k < 32) :
    (x >>> UInt32.ofNat k).toNat = x.toNat >>> k := by
  have hmod : (ofNat k).toNat % 32 = k := by
    rw [toNat_ofNat', mod_eq_of_lt (by omega : k < 2 ^ 32), mod_eq_of_lt hk]
  rw [UInt32.toNat_shiftRight, hmod]

lemma nWord_toNat (mantissa : UInt32) :
    (if nSize ≤ 3 then mantissa >>> ofNat (8 * (3 - nSize)) else mantissa).toNat =
      if nSize ≤ 3 then mantissa.toNat >>> (8 * (3 - nSize)) else mantissa.toNat := by
  split
  · exact shiftRight_toNat _ _ (by omega)
  · rfl

lemma toNat_word (w : UInt32) : (ofUint64 w.toUInt64 : Arith256).toNat = w.toNat := by
  rw [toNat_ofUint64, toNat_toUInt64]

lemma setCompact_refines :
    (toBitVec (setCompact nCompact).1, (setCompact nCompact).2) = Kernel.setCompact nCompact := by
  unfold setCompact Kernel.setCompact
  dsimp only
  rw [← nWord_toNat]
  generalize (if (nCompact >>> 24).toNat ≤ 3 then
    (nCompact &&& 0x007fffff) >>> ofNat (8 * (3 - (nCompact >>> 24).toNat))
    else nCompact &&& 0x007fffff) = w
  have hw : w.toNat < 2 ^ 256 := lt_trans w.toNat_lt (by decide)
  have hzero : w ≠ 0 ↔ w.toNat ≠ 0 := not_congr UInt32.toNat_inj.symm
  have hff : 0xff < w ↔ 0xff < w.toNat := lt_iff_toNat_lt
  have hffff : 0xffff < w ↔ 0xffff < w.toNat := lt_iff_toNat_lt
  simp only [hzero, hff, hffff]
  congr 1
  apply BitVec.eq_of_toNat_eq
  rw [toBitVec_toNat]
  split
  · rw [toNat_word, BitVec.toNat_ofNat, mod_eq_of_lt hw]
  · rw [toNat_shlAssign, toNat_word, BitVec.toNat_shiftLeft, BitVec.toNat_ofNat, mod_eq_of_lt hw,
      shiftLeft_eq]

lemma toBitVec_setCompact : toBitVec (setCompact nCompact).1 = (Kernel.setCompact nCompact).1 :=
  congrArg Prod.fst (setCompact_refines nCompact)

/-- The size of the number a compact encoding stands for: the mantissa times a power of 256,
over unbounded numbers. -/
def compactMagnitude (nCompact : UInt32) : Nat :=
  (nCompact &&& 0x007fffff).toNat * 256 ^ (nCompact >>> 24).toNat / 256 ^ 3

def compactValue (nCompact : UInt32) : Int :=
  if nCompact &&& 0x00800000 ≠ 0 then -(compactMagnitude nCompact : Int)
  else compactMagnitude nCompact

lemma mantissa_lt : (nCompact &&& 0x007fffff).toNat < 2 ^ 23 := by
  rw [UInt32.toNat_and]
  exact Nat.lt_of_le_of_lt Nat.and_le_right (by decide)

lemma compactMagnitude_of_le (h : (nCompact >>> 24).toNat ≤ 3) : compactMagnitude nCompact =
      (nCompact &&& 0x007fffff).toNat >>> (8 * (3 - (nCompact >>> 24).toNat)) := by
  unfold compactMagnitude
  generalize (nCompact >>> 24).toNat = nSize at h ⊢
  have hsplit : 256 ^ 3 = 256 ^ nSize * 256 ^ (3 - nSize) := by
    rw [← Nat.pow_add, Nat.add_sub_of_le h]
  rw [hsplit, ← Nat.div_div_eq_div_mul, Nat.mul_div_cancel _ (Nat.pow_pos (by decide)),
    Nat.shiftRight_eq_div_pow, Nat.pow_mul]

lemma compactMagnitude_of_lt (h : 3 < (nCompact >>> 24).toNat) : compactMagnitude nCompact =
      (nCompact &&& 0x007fffff).toNat * 2 ^ (8 * ((nCompact >>> 24).toNat - 3)) := by
  unfold compactMagnitude
  generalize (nCompact >>> 24).toNat = nSize at h ⊢
  have hsplit : 256 ^ nSize = 256 ^ (nSize - 3) * 256 ^ 3 := by
    rw [← Nat.pow_add, Nat.sub_add_cancel (by omega)]
  rw [hsplit, ← Nat.mul_assoc, Nat.mul_div_cancel _ (by decide), Nat.pow_mul]

lemma overflow_iff (w nSize : Nat) (hw : w < 2 ^ 23) (hsize : 3 < nSize) :
    2 ^ 256 ≤ w * 2 ^ (8 * (nSize - 3)) ↔
      w ≠ 0 ∧ (34 < nSize ∨ (0xff < w ∧ 33 < nSize) ∨ (0xffff < w ∧ 32 < nSize)) := by
  rcases Nat.eq_zero_or_pos w with hzero | hpos
  · simp [hzero]
  · rcases Nat.lt_or_ge 34 nSize with hbig | hsmall
    · have hpow : 2 ^ 256 ≤ 2 ^ (8 * (nSize - 3)) := Nat.pow_le_pow_right (by decide) (by omega)
      have hmul : 1 * 2 ^ 256 ≤ w * 2 ^ (8 * (nSize - 3)) := Nat.mul_le_mul hpos hpow
      omega
    · -- only the sizes 33 and 34 depend on the mantissa
      rcases Nat.lt_or_ge 32 nSize with hmid | hlow
      · obtain rfl | rfl : nSize = 33 ∨ nSize = 34 := by omega
        · show 2 ^ 256 ≤ w * 2 ^ 240 ↔ _
          omega
        · show 2 ^ 256 ≤ w * 2 ^ 248 ↔ _
          omega
      · have hpow : 2 ^ (8 * (nSize - 3)) ≤ 2 ^ 232 := Nat.pow_le_pow_right (by decide) (by omega)
        have hmul : w * 2 ^ (8 * (nSize - 3)) ≤ w * 2 ^ 232 := Nat.mul_le_mul_left _ hpow
        omega

lemma compactValue_neg_iff :
    compactValue nCompact < 0 ↔ compactMagnitude nCompact ≠ 0 ∧ nCompact &&& 0x00800000 ≠ 0 := by
  unfold compactValue
  split <;> rename_i hsign
  · simp only [hsign, ne_eq, not_false_iff, and_true]
    omega
  · simp only [hsign, and_false, iff_false]
    omega

lemma setCompact_spec : (setCompact nCompact).1.toNat = compactMagnitude nCompact % 2 ^ 256 ∧
      ((setCompact nCompact).2.1 = true ↔ compactValue nCompact < 0) ∧
      ((setCompact nCompact).2.2 = true ↔ 2 ^ 256 ≤ compactMagnitude nCompact) := by
  have hmantissa := mantissa_lt nCompact
  have hzero : ∀ w : UInt32, w ≠ 0 ↔ w.toNat ≠ 0 := fun w => not_congr UInt32.toNat_inj.symm
  rw [compactValue_neg_iff]
  unfold setCompact
  rcases lt_or_ge 3 (nCompact >>> 24).toNat with hlong | hshort
  · have hmag := compactMagnitude_of_lt nCompact hlong
    have hover := overflow_iff _ _ hmantissa hlong
    rw [← hmag] at hover
    have hpos : compactMagnitude nCompact ≠ 0 ↔ (nCompact &&& 0x007fffff).toNat ≠ 0 := by
      rw [hmag]
      simp
    simp only [if_neg (not_le.mpr hlong), toNat_shlAssign, toNat_word, hpos, hover]
    refine ⟨by rw [hmag], by simp [hzero], ?_⟩
    simp [hzero, lt_iff_toNat_lt, or_assoc]
  · have hmag := compactMagnitude_of_le nCompact hshort
    have hword := shiftRight_toNat (nCompact &&& 0x007fffff) (8 * (3 - (nCompact >>> 24).toNat))
      (by omega)
    rw [← hmag] at hword
    have hsmall : compactMagnitude nCompact < 2 ^ 23 := by
      rw [hmag]
      exact lt_of_le_of_lt (shiftRight_le _ _) hmantissa
    simp only [if_pos hshort, toNat_word, hword, hzero]
    refine ⟨(mod_eq_of_lt (by omega)).symm, by simp, ?_⟩
    have hsizes : ¬ 34 < (nCompact >>> 24).toNat ∧ ¬ 33 < (nCompact >>> 24).toNat ∧
        ¬ 32 < (nCompact >>> 24).toNat := by omega
    simp only [hsizes, decide_false, Bool.and_false, Bool.or_self, Bool.false_eq_true, false_iff]
    omega

/-- An encoding passes its callers' tests exactly when it stands for a positive number below
`2 ^ 256`, which is then the one stored. -/
lemma setCompact_positive : ((setCompact nCompact).2.1 = false ∧ (setCompact nCompact).2.2 = false ∧
      (setCompact nCompact).1.toNat ≠ 0) ↔
      0 < compactValue nCompact ∧ compactValue nCompact < 2 ^ 256 := by
  obtain ⟨hvalue, hneg, hover⟩ := setCompact_spec nCompact
  rw [← Bool.not_eq_true, ← Bool.not_eq_true, hneg, hover, hvalue]
  unfold compactValue
  split <;> omega

lemma setCompact_toNat (hpos : 0 < compactValue nCompact) (hlt : compactValue nCompact < 2 ^ 256) :
    ((setCompact nCompact).1.toNat : Int) = compactValue nCompact := by
  rw [(setCompact_spec nCompact).1]
  unfold compactValue at *
  split at hpos <;> rename_i hsign
  · omega
  · rw [if_neg hsign] at hlt ⊢
    omega

def getCompact (a : Arith256) : UInt32 :=
  let nSize := (a.bits + 7) / 8
  let nCompact := if nSize ≤ 3 then (getLow64 a <<< UInt64.ofNat (8 * (3 - nSize))).toUInt32
    else (getLow64 (a.shrAssign (8 * (nSize - 3)))).toUInt32
  -- a mantissa with the sign bit set is shifted down
  if nCompact &&& 0x00800000 ≠ 0 then nCompact >>> 8 ||| ofNat (nSize + 1) <<< 24
  else nCompact ||| ofNat nSize <<< 24

lemma bits_eq : a.bits = HeaderChecks.bits (toBitVec a) := by
  unfold HeaderChecks.bits
  by_cases hzero : a.toNat = 0
  · have hvec : toBitVec a = 0 := BitVec.eq_of_toNat_eq (by rw [toBitVec_toNat, hzero]; rfl)
    rw [if_pos hvec, (bits_eq_zero_iff a).mpr hzero]
  · have hvec : toBitVec a ≠ 0 := by
      intro hvec
      have hnat := congrArg BitVec.toNat hvec
      rw [toBitVec_toNat] at hnat
      exact hzero hnat
    obtain ⟨hone, hlo, hhi⟩ := bits_spec a hzero
    rw [if_neg hvec, toBitVec_toNat]
    have hlog : a.toNat.log2 = a.bits - 1 := by
      rw [log2_eq_iff hzero]
      refine ⟨hlo, ?_⟩
      have hback : a.bits - 1 + 1 = a.bits := by omega
      rwa [hback]
    omega

lemma toNat_lt_bytes : a.toNat < 2 ^ (8 * ((a.bits + 7) / 8)) := by
  by_cases hzero : a.toNat = 0
  · rw [hzero]
    exact Nat.two_pow_pos _
  · obtain ⟨-, -, hhi⟩ := bits_spec a hzero
    exact lt_of_lt_of_le hhi (Nat.pow_le_pow_right (by decide) (by omega))

lemma mantissa_toNat (hsize : a.toNat < 2 ^ (8 * nSize)) :
    (if nSize ≤ 3 then (getLow64 a <<< UInt64.ofNat (8 * (3 - nSize))).toUInt32
      else (getLow64 (a.shrAssign (8 * (nSize - 3)))).toUInt32).toNat =
      (if nSize ≤ 3 then a.toNat <<< (8 * (3 - nSize)) else a.toNat >>> (8 * (nSize - 3))) ∧
    (if nSize ≤ 3 then a.toNat <<< (8 * (3 - nSize)) else a.toNat >>> (8 * (nSize - 3))) <
      2 ^ 24 := by
  by_cases hle : nSize ≤ 3
  · rw [if_pos hle, if_pos hle]
    have hpow : 2 ^ (8 * nSize) * 2 ^ (8 * (3 - nSize)) = 2 ^ 24 := by
      rw [← pow_add]
      congr 1
      omega
    have hlt : a.toNat * 2 ^ (8 * (3 - nSize)) < 2 ^ 24 := by
      rw [← hpow]
      exact Nat.mul_lt_mul_of_pos_right hsize (Nat.two_pow_pos _)
    have hmod : (UInt64.ofNat (8 * (3 - nSize))).toNat % 64 = 8 * (3 - nSize) := by
      rw [UInt64.toNat_ofNat', mod_eq_of_lt (by omega), mod_eq_of_lt (by omega)]
    have hsmall : a.toNat < 2 ^ 64 :=
      lt_of_lt_of_le hsize (Nat.pow_le_pow_right (by decide) (by omega))
    rw [UInt64.toNat_toUInt32, UInt64.toNat_shiftLeft, hmod, getLow64_toNat, mod_eq_of_lt hsmall,
      shiftLeft_eq]
    exact ⟨by omega, hlt⟩
  · rw [if_neg hle, if_neg hle]
    have hpow : 2 ^ (8 * nSize) = 2 ^ (8 * (nSize - 3)) * 2 ^ 24 := by
      rw [← pow_add]
      congr 1
      omega
    have hlt : a.toNat / 2 ^ (8 * (nSize - 3)) < 2 ^ 24 :=
      Nat.div_lt_of_lt_mul (by rw [← hpow]; exact hsize)
    rw [UInt64.toNat_toUInt32, getLow64_toNat, toNat_shrAssign, shiftRight_eq_div_pow]
    generalize a.toNat / 2 ^ (8 * (nSize - 3)) = q at hlt
    exact ⟨by omega, hlt⟩

lemma size_toNat (h : n < 256) : (UInt32.ofNat n <<< 24).toNat = n <<< 24 := by
  rw [UInt32.toNat_shiftLeft, UInt32.toNat_ofNat', Nat.shiftLeft_eq, Nat.shiftLeft_eq]
  show n % 2 ^ 32 * 2 ^ 24 % 2 ^ 32 = n * 2 ^ 24
  omega

lemma getCompact_refines : getCompact a = HeaderChecks.getCompact (toBitVec a) := by
  have hbits := bits_le a
  obtain ⟨hword, hlt⟩ := mantissa_toNat a ((a.bits + 7) / 8) (toNat_lt_bytes a)
  unfold getCompact HeaderChecks.getCompact
  rw [← bits_eq, toBitVec_toNat]
  dsimp only
  generalize (if (a.bits + 7) / 8 ≤ 3 then
    (getLow64 a <<< UInt64.ofNat (8 * (3 - (a.bits + 7) / 8))).toUInt32
    else (getLow64 (a.shrAssign (8 * ((a.bits + 7) / 8 - 3)))).toUInt32) = c at hword
  generalize (if (a.bits + 7) / 8 ≤ 3 then a.toNat <<< (8 * (3 - (a.bits + 7) / 8))
    else a.toNat >>> (8 * ((a.bits + 7) / 8 - 3))) = N at hword hlt
  have hsign : c &&& 0x00800000 ≠ 0 ↔ N &&& 0x00800000 ≠ 0 := by
    rw [Ne, ← UInt32.toNat_inj, UInt32.toNat_and, hword]
    rfl
  have hor : ∀ n m, n < 2 ^ 24 → m < 256 → (n ||| m <<< 24) < 2 ^ 32 := by
    intro n m hn hm
    refine or_lt_two_pow (by omega) ?_
    rw [shiftLeft_eq]
    omega
  have hdown : N >>> 8 < 2 ^ 24 := by
    rw [shiftRight_eq_div_pow]
    omega
  rw [if_congr hsign rfl rfl]
  split
  · apply UInt32.toNat_inj.mp
    rw [UInt32.toNat_or, size_toNat _ (by omega), UInt32.toNat_shiftRight, hword,
      UInt32.toNat_ofNat', mod_eq_of_lt (hor _ _ hdown (by omega))]
    rfl
  · apply UInt32.toNat_inj.mp
    rw [UInt32.toNat_or, size_toNat _ (by omega), hword, UInt32.toNat_ofNat',
      mod_eq_of_lt (hor _ _ hlt (by omega))]

def signedBytes (n : Nat) : Nat := (log2 n + 1) / 8 + 1

/-- The compact form over unbounded numbers: the number of bytes above the three highest of them. -/
def compactForm (n : Nat) : Nat :=
  if n = 0 then 0 else signedBytes n * 2 ^ 24 + n * 256 ^ 3 / 256 ^ signedBytes n

lemma highBytes_eq : (if nSize ≤ 3 then n <<< (8 * (3 - nSize)) else n >>> (8 * (nSize - 3))) =
      n * 256 ^ 3 / 256 ^ nSize := by
  split <;> rename_i hsize
  · have hsplit : 256 ^ 3 = 256 ^ (3 - nSize) * 256 ^ nSize := by
      rw [← Nat.pow_add, Nat.sub_add_cancel hsize]
    rw [Nat.shiftLeft_eq, Nat.pow_mul, hsplit, ← Nat.mul_assoc,
      Nat.mul_div_cancel _ (Nat.pow_pos (by decide))]
  · have hsplit : 256 ^ nSize = 256 ^ 3 * 256 ^ (nSize - 3) := by
      rw [← Nat.pow_add, Nat.add_sub_of_le (by omega)]
    rw [Nat.shiftRight_eq_div_pow, Nat.pow_mul, hsplit, ← Nat.div_div_eq_div_mul,
      Nat.mul_div_cancel _ (by decide)]

lemma highBytes_lt (b : Nat) (hb : b ≤ 8 * nSize) (hn : n < 2 ^ b) :
    n * 256 ^ 3 / 256 ^ nSize < 2 ^ (24 - (8 * nSize - b)) ∨ 24 < 8 * nSize - b := by
  rcases lt_or_ge 24 (8 * nSize - b) with hfar | hnear
  · exact Or.inr hfar
  · left
    have hpow : 256 ^ nSize * 2 ^ (24 - (8 * nSize - b)) = 2 ^ b * 256 ^ 3 := by
      have hbase : 256 ^ nSize = 2 ^ (8 * nSize) := (pow_mul 2 8 nSize).symm
      rw [hbase, ← pow_add]
      show _ = 2 ^ b * 2 ^ 24
      rw [← pow_add]
      congr 1
      omega
    apply Nat.div_lt_of_lt_mul
    rw [hpow]
    exact mul_lt_mul_of_pos_right hn (by decide)

lemma log2_bounds (h : n ≠ 0) : 2 ^ log2 n ≤ n ∧ n < 2 ^ (log2 n + 1) :=
  ⟨log2_self_le h, lt_log2_self⟩

lemma compactForm_mantissa_lt (h : n ≠ 0) : n * 256 ^ 3 / 256 ^ signedBytes n < 2 ^ 23 := by
  have hlt := (log2_bounds n h).2
  have hbytes : log2 n + 1 < 8 * signedBytes n := by
    unfold signedBytes
    omega
  have hlow : n < 2 ^ (8 * signedBytes n - 1) :=
    lt_of_lt_of_le hlt (Nat.pow_le_pow_right (by decide) (by omega))
  have hfact := highBytes_lt n (signedBytes n) (8 * signedBytes n - 1) (by omega) hlow
  rcases hfact with hfact | hfar
  · have hexp : 24 - (8 * signedBytes n - (8 * signedBytes n - 1)) = 23 := by
      unfold signedBytes
      omega
    rwa [hexp] at hfact
  · omega

/-- A mantissa of 24 bits has its sign bit set exactly when the bytes of the number have no room
for a sign. -/
lemma highBytes_sign_iff (h : n ≠ 0) (hsize : nSize = (log2 n + 8) / 8) :
    2 ^ 23 ≤ n * 256 ^ 3 / 256 ^ nSize ↔ signedBytes n = nSize + 1 := by
  obtain ⟨hlo, hhi⟩ := log2_bounds n h
  constructor
  · intro hset
    by_contra hroom
    have hsame : signedBytes n = nSize := by
      unfold signedBytes at *
      omega
    have hlt := compactForm_mantissa_lt n h
    rw [hsame] at hlt
    omega
  · intro hfull
    have hlog : log2 n = 8 * nSize - 1 := by
      unfold signedBytes at hfull
      omega
    have hpos : 0 < nSize := by omega
    rw [Nat.le_div_iff_mul_le (Nat.pow_pos (by decide))]
    have hbase : 256 ^ nSize = 2 ^ (8 * nSize) := (pow_mul 2 8 nSize).symm
    have hpow : 2 ^ 23 * 256 ^ nSize = 2 ^ (8 * nSize - 1) * 256 ^ 3 := by
      rw [hbase, ← pow_add]
      show _ = _ * 2 ^ 24
      rw [← pow_add]
      congr 1
      omega
    rw [hpow, ← hlog]
    exact mul_le_mul_right _ hlo

lemma sign_and_iff (m : Nat) (hm : m < 2 ^ 24) : m &&& 0x00800000 ≠ 0 ↔ 2 ^ 23 ≤ m := by
  have hand : m &&& 2 ^ 23 = (m.testBit 23).toNat * 2 ^ 23 := and_two_pow m 23
  show m &&& 2 ^ 23 ≠ 0 ↔ _
  rw [hand, testBit_eq_decide_div_mod_eq]
  by_cases hset : m / 2 ^ 23 % 2 = 1
  · simp only [hset, decide_true, Bool.toNat_true]
    omega
  · simp only [hset, decide_false, Bool.toNat_false]
    omega

lemma or_size (m nSize : Nat) (hm : m < 2 ^ 24) : m ||| nSize <<< 24 = nSize * 2 ^ 24 + m := by
  rw [Nat.or_comm, ← Nat.shiftLeft_add_eq_or_of_lt hm, Nat.shiftLeft_eq]

lemma getCompact_eq_compactForm (a : BitVec 256) :
    HeaderChecks.getCompact a = ofNat (compactForm a.toNat) := by
  by_cases hzero : a = 0
  · subst hzero
    decide +kernel
  · have hne : a.toNat ≠ 0 := fun h => hzero (BitVec.eq_of_toNat_eq h)
    obtain ⟨-, hhi⟩ := log2_bounds a.toNat hne
    have hsize : (HeaderChecks.bits a + 7) / 8 = (log2 a.toNat + 8) / 8 := by
      rw [HeaderChecks.bits, if_neg hzero]
    unfold HeaderChecks.getCompact compactForm
    rw [if_neg hne, hsize]
    dsimp only
    rw [highBytes_eq]
    have hsign := highBytes_sign_iff a.toNat _ hne rfl
    have hlt : a.toNat * 256 ^ 3 / 256 ^ ((log2 a.toNat + 8) / 8) < 2 ^ 24 := by
      rcases highBytes_lt a.toNat ((log2 a.toNat + 8) / 8) _ (by omega) hhi with hfact | hfar
      · exact lt_of_lt_of_le hfact (Nat.pow_le_pow_right (by decide) (by omega))
      · omega
    by_cases hset : 2 ^ 23 ≤ a.toNat * 256 ^ 3 / 256 ^ ((log2 a.toNat + 8) / 8)
    · have hnext : a.toNat * 256 ^ 3 / 256 ^ ((log2 a.toNat + 8) / 8) / 2 ^ 8 =
          a.toNat * 256 ^ 3 / 256 ^ ((Nat.log2 a.toNat + 8) / 8 + 1) := Nat.div_div_eq_div_mul _ _ _
      rw [if_pos ((sign_and_iff _ hlt).mpr hset), hsign.mp hset, shiftRight_eq_div_pow,
        or_size _ _ (by omega), hnext]
    · have hsame : signedBytes a.toNat = (log2 a.toNat + 8) / 8 := by
        have hnot := fun h => hset (hsign.mpr h)
        unfold signedBytes at *
        omega
      rw [if_neg (fun h => hset ((sign_and_iff _ hlt).mp h)), hsame, or_size _ _ hlt]

lemma compactForm_mono {n m : Nat} (h : n ≤ m) : compactForm n ≤ compactForm m := by
  unfold compactForm
  by_cases hn : n = 0
  · rw [if_pos hn]
    exact zero_le _
  · have hm : m ≠ 0 := by omega
    rw [if_neg hn, if_neg hm]
    have hmantissa := compactForm_mantissa_lt n hn
    have hlog : log2 n ≤ log2 m := by
      rw [le_log2 hm]
      exact le_trans (log2_self_le hn) h
    have hbytes : signedBytes n ≤ signedBytes m := by
      unfold signedBytes
      omega
    rcases lt_or_ge (signedBytes n) (signedBytes m) with hless | hge
    · have hmul : (signedBytes n + 1) * 2 ^ 24 ≤ signedBytes m * 2 ^ 24 := mul_le_mul_right _ hless
      calc signedBytes n * 2 ^ 24 + n * 256 ^ 3 / 256 ^ signedBytes n
          ≤ signedBytes n * 2 ^ 24 + 2 ^ 24 := Nat.add_le_add_left (by omega) _
        _ = (signedBytes n + 1) * 2 ^ 24 := (succ_mul _ _).symm
        _ ≤ signedBytes m * 2 ^ 24 := hmul
        _ ≤ _ := le_add_right _ _
    · have hsame : signedBytes n = signedBytes m := le_antisymm hbytes hge
      rw [hsame]
      exact Nat.add_le_add_left (Nat.div_le_div_right (Nat.mul_le_mul_right _ h)) _

lemma compactForm_lt (h : n < 2 ^ 256) : compactForm n < 2 ^ 32 := by
  unfold compactForm
  split <;> rename_i hn
  · decide
  · have hmantissa := compactForm_mantissa_lt n hn
    have hlog : log2 n < 256 := (log2_lt hn).mpr h
    have hbytes : signedBytes n ≤ 33 := by
      unfold signedBytes
      omega
    omega

end CompactTargets
