import BitcoinC.CompactTargets

/-!
# Compact round trips and the work of a block

What is left of a number that goes through `GetCompact` and `SetCompact`, and the
work that `GetBlockProof` computes from a target on 256-bit limbs.
-/

namespace BlockWork

open ArithUint256 ArithUint256.BaseUint CompactTargets

variable (n : Nat) (t : Arith256) (nBits : UInt32)

def getCompactSigned (fNegative : Bool) (a : Arith256) : Option UInt32 :=
  let nSize := (a.bits + 7) / 8
  let nCompact := if nSize ≤ 3 then (getLow64 a <<< UInt64.ofNat (8 * (3 - nSize))).toUInt32
    else (getLow64 (a.shrAssign (8 * (nSize - 3)))).toUInt32
  let full := nCompact &&& 0x00800000 ≠ 0
  let mantissa := if full then nCompact >>> 8 else nCompact
  let size := if full then nSize + 1 else nSize
  if mantissa &&& ~~~ 0x007fffff = 0 ∧ size < 256 then
    let nCompact := mantissa ||| UInt32.ofNat size <<< 24
    some (nCompact ||| if fNegative && nCompact &&& 0x007fffff ≠ 0 then 0x00800000 else 0)
  else none

lemma and_not_mantissa (x : UInt32) (hx : x.toNat < 2 ^ 23) : x &&& ~~~ 0x007fffff = 0 := by
  have hmask : x.toNat &&& (2 ^ 23 - 1) = x.toNat % 2 ^ 23 := Nat.and_two_pow_sub_one_eq_mod _ _
  have hself : x &&& 0x007fffff = x := by
    apply UInt32.toNat_inj.mp
    rw [UInt32.toNat_and]
    exact hmask.trans (Nat.mod_eq_of_lt hx)
  have hnone : (0x007fffff : UInt32) &&& ~~~ 0x007fffff = 0 := by decide
  rw [← hself, UInt32.and_assoc, hnone, UInt32.and_zero]

lemma getCompactSigned_false (a : Arith256) : getCompactSigned false a = some (getCompact a) := by
  have hbits := bits_le a
  obtain ⟨hword, hlt⟩ := mantissa_toNat a ((a.bits + 7) / 8) (toNat_lt_bytes a)
  rw [← hword] at hlt
  unfold getCompactSigned getCompact
  dsimp only
  generalize (if (a.bits + 7) / 8 ≤ 3 then
    (getLow64 a <<< UInt64.ofNat (8 * (3 - (a.bits + 7) / 8))).toUInt32
    else (getLow64 (a.shrAssign (8 * ((a.bits + 7) / 8 - 3)))).toUInt32) = c at hlt
  have hsign : c &&& 0x00800000 ≠ 0 ↔ 2 ^ 23 ≤ c.toNat := by
    rw [← sign_and_iff c.toNat hlt, Ne, ← UInt32.toNat_inj, UInt32.toNat_and]
    rfl
  by_cases hfull : c &&& 0x00800000 ≠ 0
  · have hdown : (c >>> 8).toNat < 2 ^ 23 := by
      have hshift := shiftRight_toNat c 8 (by decide)
      rw [Nat.shiftRight_eq_div_pow] at hshift
      refine lt_of_eq_of_lt hshift ?_
      omega
    simp only [if_pos hfull, and_not_mantissa _ hdown, true_and, Bool.false_and, Bool.false_eq_true,
      if_false, UInt32.or_zero]
    rw [if_pos (by omega)]
  · have hsmall : c.toNat < 2 ^ 23 := Nat.lt_of_not_ge fun hge => hfull (hsign.mpr hge)
    simp only [if_neg hfull, and_not_mantissa _ hsmall, true_and, Bool.false_and,
      Bool.false_eq_true, if_false, UInt32.or_zero]
    rw [if_pos (by omega)]

/-- A number with all but the highest three of its bytes cleared, counted with room for a sign. -/
def leadingBytes (n : Nat) : Nat := n / 256 ^ (signedBytes n - 3) * 256 ^ (signedBytes n - 3)

lemma leadingBytes_le : leadingBytes n ≤ n := Nat.div_mul_le_self _ _

lemma getCompact_toNat : getCompact t = UInt32.ofNat (compactForm t.toNat) := by
  rw [getCompact_refines, getCompact_eq_compactForm, toBitVec_toNat]

lemma compactForm_toNat : (getCompact t).toNat = compactForm t.toNat := by
  have hlt := compactForm_lt t.toNat t.toNat_lt
  rw [getCompact_toNat, UInt32.toNat_ofNat', Nat.mod_eq_of_lt hlt]

lemma compact_fields {c : UInt32} {nSize mantissa : Nat} (hm : mantissa < 2 ^ 23)
    (hc : c.toNat = nSize * 2 ^ 24 + mantissa) :
    (c >>> 24).toNat = nSize ∧ (c &&& 0x007fffff).toNat = mantissa ∧ c &&& 0x00800000 = 0 := by
  refine ⟨?_, ?_, ?_⟩
  · have hshift := shiftRight_toNat c 24 (by decide)
    rw [Nat.shiftRight_eq_div_pow, hc] at hshift
    refine hshift.trans ?_
    omega
  · have hmask : c.toNat &&& (2 ^ 23 - 1) = c.toNat % 2 ^ 23 := Nat.and_two_pow_sub_one_eq_mod _ _
    rw [UInt32.toNat_and]
    refine hmask.trans ?_
    omega
  · apply UInt32.toNat_inj.mp
    have hbit : c.toNat &&& 2 ^ 23 = (c.toNat.testBit 23).toNat * 2 ^ 23 := Nat.and_two_pow _ 23
    have hclear : c.toNat.testBit 23 = false := by
      rw [Nat.testBit_eq_decide_div_mod_eq, decide_eq_false_iff_not]
      omega
    rw [hclear] at hbit
    rw [UInt32.toNat_and]
    exact hbit

lemma highBytes_of_le {s : Nat} (hs : s ≤ 3) : n * 256 ^ 3 / 256 ^ s * 256 ^ s / 256 ^ 3 = n := by
  have hsplit : 256 ^ 3 = 256 ^ (3 - s) * 256 ^ s := by rw [← Nat.pow_add, Nat.sub_add_cancel hs]
  have hexact : n * 256 ^ 3 / 256 ^ s = n * 256 ^ (3 - s) := by
    rw [hsplit, ← Nat.mul_assoc, Nat.mul_div_cancel _ (Nat.pow_pos (by decide))]
  rw [hexact, Nat.mul_assoc, ← hsplit, Nat.mul_div_cancel _ (by decide)]

lemma highBytes_of_ge {s : Nat} (hs : 3 ≤ s) : n * 256 ^ 3 / 256 ^ s = n / 256 ^ (s - 3) := by
  have hsplit : 256 ^ s = 256 ^ (s - 3) * 256 ^ 3 := by rw [← Nat.pow_add, Nat.sub_add_cancel hs]
  rw [hsplit, Nat.mul_div_mul_right _ _ (by decide)]

lemma compactMagnitude_getCompact :
    compactMagnitude (getCompact t) = leadingBytes t.toNat ∧ 0 ≤ compactValue (getCompact t) := by
  have hc := compactForm_toNat t
  by_cases hzero : t.toNat = 0
  · have hnone : getCompact t = 0 := by
      apply UInt32.toNat_inj.mp
      rw [hc, hzero]
      rfl
    rw [hnone, hzero]
    decide
  · rw [compactForm, if_neg hzero] at hc
    obtain ⟨hsize, hmantissa, hsign⟩ := compact_fields (compactForm_mantissa_lt _ hzero) hc
    have hmag : compactMagnitude (getCompact t) = leadingBytes t.toNat := by
      rw [compactMagnitude, hsize, hmantissa, leadingBytes]
      rcases Nat.le_total (signedBytes t.toNat) 3 with hle | hge
      · rw [highBytes_of_le _ hle, Nat.sub_eq_zero_of_le hle, Nat.pow_zero, Nat.div_one,
          Nat.mul_one]
      · have hsplit : 256 ^ signedBytes t.toNat = 256 ^ (signedBytes t.toNat - 3) * 256 ^ 3 := by
          rw [← Nat.pow_add, Nat.sub_add_cancel hge]
        rw [highBytes_of_ge _ hge, hsplit, ← Nat.mul_assoc, Nat.mul_div_cancel _ (by decide)]
    refine ⟨hmag, ?_⟩
    rw [compactValue, if_neg (not_not.mpr hsign)]
    exact Int.natCast_nonneg _

lemma setCompact_getCompact : (setCompact (getCompact t)).1.toNat = leadingBytes t.toNat ∧
      (setCompact (getCompact t)).2.1 = false ∧ (setCompact (getCompact t)).2.2 = false := by
  obtain ⟨hmag, hnonneg⟩ := compactMagnitude_getCompact t
  obtain ⟨hvalue, hneg, hover⟩ := setCompact_spec (getCompact t)
  have hlt : leadingBytes t.toNat < 2 ^ 256 := lt_of_le_of_lt (leadingBytes_le _) t.toNat_lt
  rw [hmag] at hvalue hover
  refine ⟨hvalue.trans (Nat.mod_eq_of_lt hlt), ?_, ?_⟩
  · rw [← Bool.not_eq_true, hneg]
    omega
  · rw [← Bool.not_eq_true, hover]
    omega

lemma log2_leadingBytes_ge (h : n ≠ 0) (hs : 3 ≤ signedBytes n) :
    2 ^ (8 * signedBytes n - 9) ≤ leadingBytes n := by
  have hlow : 2 ^ (8 * signedBytes n - 9) ≤ n := by
    refine le_trans (Nat.pow_le_pow_right (by decide) ?_) (log2_bounds n h).1
    unfold signedBytes
    omega
  have hsplit : 2 ^ (8 * signedBytes n - 9) = 2 ^ 15 * 256 ^ (signedBytes n - 3) := by
    have hbase : 256 ^ (signedBytes n - 3) = 2 ^ (8 * (signedBytes n - 3)) :=
      (Nat.pow_mul 2 8 _).symm
    rw [hbase, ← Nat.pow_add]
    congr 1
    omega
  rw [hsplit] at hlow ⊢
  exact Nat.mul_le_mul_right _ ((Nat.le_div_iff_mul_le (Nat.pow_pos (by decide))).mpr hlow)

lemma signedBytes_leadingBytes : signedBytes (leadingBytes n) = signedBytes n := by
  rcases Nat.le_total (signedBytes n) 3 with hle | hge
  · rw [leadingBytes, Nat.sub_eq_zero_of_le hle, Nat.pow_zero, Nat.div_one, Nat.mul_one]
  · have hne : n ≠ 0 := by
      rintro rfl
      exact absurd hge (by decide)
    have hlow := log2_leadingBytes_ge n hne hge
    have hpos : leadingBytes n ≠ 0 := (lt_of_lt_of_le (Nat.two_pow_pos _) hlow).ne'
    have hlo : 8 * signedBytes n - 9 ≤ Nat.log2 (leadingBytes n) := (Nat.le_log2 hpos).mpr hlow
    have hhi : Nat.log2 (leadingBytes n) ≤ Nat.log2 n :=
      (Nat.le_log2 hne).mpr (le_trans (Nat.log2_self_le hpos) (leadingBytes_le n))
    have hn : Nat.log2 n + 1 < 8 * signedBytes n := by
      unfold signedBytes
      omega
    generalize hs : signedBytes n = s at *
    unfold signedBytes
    omega

lemma compactForm_leadingBytes : compactForm (leadingBytes n) = compactForm n := by
  rcases Nat.le_total (signedBytes n) 3 with hle | hge
  · rw [leadingBytes, Nat.sub_eq_zero_of_le hle, Nat.pow_zero, Nat.div_one, Nat.mul_one]
  · have hne : n ≠ 0 := by
      rintro rfl
      exact absurd hge (by decide)
    have hpos : leadingBytes n ≠ 0 :=
      (lt_of_lt_of_le (Nat.two_pow_pos _) (log2_leadingBytes_ge n hne hge)).ne'
    rw [compactForm, compactForm, if_neg hpos, if_neg hne, signedBytes_leadingBytes,
      highBytes_of_ge _ hge, highBytes_of_ge _ hge, leadingBytes,
      Nat.mul_div_cancel _ (Nat.pow_pos (by decide))]

lemma getCompact_setCompact : getCompact (setCompact (getCompact t)).1 = getCompact t := by
  rw [getCompact_toNat, (setCompact_getCompact t).1, compactForm_leadingBytes, ← getCompact_toNat]

def complement {WIDTH : Nat} (a : BaseUint WIDTH) : BaseUint WIDTH :=
  ⟨a.pn.map (~~~ ·), by rw [List.length_map, a.size]⟩

lemma toNat_complement {WIDTH : Nat} (a : BaseUint WIDTH) :
    (complement a).toNat + a.toNat + 1 = 2 ^ (32 * WIDTH) := by
  have hvalue := value_complement a.pn
  rw [a.size] at hvalue
  exact hvalue

def getBlockProof (nBits : UInt32) : Option Arith256 :=
  let bnTarget := setCompact nBits
  if bnTarget.2.1 || bnTarget.2.2 || equalTo bnTarget.1 0 then some (ofUint64 0)
  else ((complement bnTarget.1).divAssign (bnTarget.1.addAssign (ofUint64 1))).map
    fun q => q.addAssign (ofUint64 1)

lemma compactMagnitude_succ_ne : compactMagnitude nBits + 1 ≠ 2 ^ 256 := by
  rcases Nat.lt_or_ge 3 (nBits >>> 24).toNat with hlong | hshort
  · rw [compactMagnitude_of_lt nBits hlong]
    have heven : 2 ^ (8 * ((nBits >>> 24).toNat - 3)) =
        2 * 2 ^ (8 * ((nBits >>> 24).toNat - 3) - 1) := by
      rw [← Nat.pow_succ']
      congr 1
      omega
    rw [heven, Nat.mul_left_comm]
    omega
  · rw [compactMagnitude_of_le nBits hshort]
    have hmantissa := mantissa_lt nBits
    have hle := Nat.shiftRight_le (nBits &&& 0x007fffff).toNat (8 * (3 - (nBits >>> 24).toNat))
    omega

lemma setCompact_succ_lt (hover : (setCompact nBits).2.2 = false) :
    (setCompact nBits).1.toNat + 1 < 2 ^ 256 := by
  have hsucc := compactMagnitude_succ_ne nBits
  obtain ⟨hvalue, -, hflag⟩ := setCompact_spec nBits
  rw [hover, Bool.false_eq_true, false_iff] at hflag
  omega

lemma complement_div (t : Nat) (ht : t < 2 ^ 256) :
    (2 ^ 256 - 1 - t) / (t + 1) + 1 = 2 ^ 256 / (t + 1) := by
  rw [← Nat.add_div_right _ (Nat.succ_pos t)]
  congr 1
  omega

lemma getBlockProof_toNat (hneg : (setCompact nBits).2.1 = false)
    (hover : (setCompact nBits).2.2 = false) (hzero : (setCompact nBits).1.toNat ≠ 0) :
    ∃ work, getBlockProof nBits = some work ∧
      work.toNat = 2 ^ 256 / ((setCompact nBits).1.toNat + 1) := by
  have htop := setCompact_succ_lt nBits hover
  unfold getBlockProof
  generalize setCompact nBits = target at *
  obtain ⟨t, fNegative, fOverflow⟩ := target
  dsimp only at *
  have hone : (ofUint64 1 : Arith256).toNat = 1 := toNat_ofUint64 1
  have hnext : (t.addAssign (ofUint64 1)).toNat = t.toNat + 1 := by
    rw [toNat_addAssign, hone]
    exact Nat.mod_eq_of_lt htop
  have hnot : (complement t).toNat = 2 ^ 256 - 1 - t.toNat := by
    have hsum := toNat_complement t
    omega
  cases hq : (complement t).divAssign (t.addAssign (ofUint64 1)) with
  | none =>
    rw [divAssign_eq_none_iff, hnext] at hq
    omega
  | some q =>
    have hquot := toNat_divAssign _ _ _ hq
    rw [hnot, hnext] at hquot
    have hequal : equalTo t 0 = false := by
      rw [← Bool.not_eq_true, equalTo_zero_iff]
      exact hzero
    refine ⟨q.addAssign (ofUint64 1), ?_, ?_⟩
    · rw [hneg, hover, hequal]
      rfl
    · have hexact := complement_div t.toNat t.toNat_lt
      have hhalf : 2 ^ 256 / (t.toNat + 1) ≤ 2 ^ 256 / 2 :=
        Nat.div_le_div_left (by omega) (by decide)
      rw [toNat_addAssign, hone, hquot, hexact]
      exact Nat.mod_eq_of_lt (by omega)

/-- The limb arithmetic of `GetBlockProof` never divides by zero and gives the proof that the
chain model uses. -/
theorem getBlockProof_refines :
    (getBlockProof nBits).map toBitVec = some (HeaderChecks.getBlockProof nBits) := by
  have hflags : (Kernel.setCompact nBits).2 = (setCompact nBits).2 :=
    (congrArg Prod.snd (setCompact_refines nBits)).symm
  have hzero : decide ((Kernel.setCompact nBits).1 = 0) = equalTo (setCompact nBits).1 0 := by
    rw [Bool.eq_iff_iff, decide_eq_true_iff, equalTo_zero_iff, ← toBitVec_setCompact,
      ← BitVec.toNat_inj, toBitVec_toNat]
    rfl
  rw [HeaderChecks.getBlockProof, hflags, hzero]
  by_cases hskip : ((setCompact nBits).2.1 || (setCompact nBits).2.2 ||
    equalTo (setCompact nBits).1 0) = true
  · rw [getBlockProof, if_pos hskip, if_pos hskip, Option.map_some]
    decide +kernel
  · rw [if_neg hskip]
    simp only [Bool.or_eq_true, not_or, Bool.not_eq_true, equalTo_zero_iff] at hskip
    obtain ⟨⟨hneg, hover⟩, hne⟩ := hskip
    obtain ⟨work, hwork, hvalue⟩ := getBlockProof_toNat nBits hneg hover hne
    have htop := setCompact_succ_lt nBits hover
    have hexact := complement_div _ (setCompact nBits).1.toNat_lt
    have hhalf : 2 ^ 256 / ((setCompact nBits).1.toNat + 1) ≤ 2 ^ 256 / 2 :=
      Nat.div_le_div_left (by omega) (by decide)
    have hnext : (toBitVec (setCompact nBits).1 + 1).toNat = (setCompact nBits).1.toNat + 1 := by
      rw [BitVec.toNat_add, toBitVec_toNat]
      exact Nat.mod_eq_of_lt htop
    rw [hwork, Option.map_some, ← toBitVec_setCompact]
    congr 1
    apply BitVec.eq_of_toNat_eq
    rw [toBitVec_toNat, hvalue, BitVec.toNat_add, BitVec.toNat_udiv, BitVec.toNat_not, hnext,
      toBitVec_toNat]
    exact (Nat.mod_eq_of_lt (by omega)).symm.trans (congrArg (· % 2 ^ 256) hexact.symm)

/-- Compact targets lose nothing but the low bytes, and the work of a block is exact. -/
theorem compactTargets_exact : (∀ t : Arith256, getCompactSigned false t = some (getCompact t) ∧
      (setCompact (getCompact t)).1.toNat ≤ t.toNat ∧
      (setCompact (getCompact t)).2 = (false, false) ∧
      (setCompact (getCompact t)).1.toNat = leadingBytes t.toNat) ∧
    (∀ c : UInt32, (∃ t, c = getCompact t) → getCompact (setCompact c).1 = c) ∧
    (∀ nBits : UInt32, (setCompact nBits).2 = (false, false) → (setCompact nBits).1.toNat ≠ 0 →
      ∃ work, getBlockProof nBits = some work ∧
        work.toNat = 2 ^ 256 / ((setCompact nBits).1.toNat + 1)) ∧
    ∀ (WIDTH : Nat) (a b : BaseUint WIDTH), b.toNat ≠ 0 →
      ∃ q, a.divAssign b = some q ∧ q.toNat = a.toNat / b.toNat := by
  refine ⟨fun t => ?_, ?_, fun nBits hflags hne => ?_, fun WIDTH a b hb => ?_⟩
  · obtain ⟨hvalue, hneg, hover⟩ := setCompact_getCompact t
    refine ⟨getCompactSigned_false t, ?_, Prod.ext hneg hover, hvalue⟩
    rw [hvalue]
    exact leadingBytes_le _
  · rintro c ⟨t, rfl⟩
    exact getCompact_setCompact t
  · exact getBlockProof_toNat nBits (congrArg Prod.fst hflags) (congrArg Prod.snd hflags) hne
  · cases hq : a.divAssign b with
    | none => exact absurd ((divAssign_eq_none_iff a b).mp hq) hb
    | some q => exact ⟨q, rfl, toNat_divAssign a b q hq⟩

end BlockWork
