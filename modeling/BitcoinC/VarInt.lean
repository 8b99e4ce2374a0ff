import BitcoinC.WireFormat

/-!
# Variable-length integers

`serialize.h` has two of them.
-/

namespace VarInt

open Primitives Encoding Codecs WireFormat List Nat

variable (v : Bytes) (n x : UInt64) (bs : Bytes) (b : UInt8) (i : UInt64) (rest : Bytes)

variable (ofs : Nat) (q : UInt64) (len : Nat) (is : Bytes)

lemma group_toNat : (b &&& 0x7F).toUInt64.toNat = b.toNat % 128 := by
  have hmask : (0x7F : UInt8).toNat = 2 ^ 7 - 1 := rfl
  rw [UInt8.toNat_toUInt64, UInt8.toNat_and, hmask, and_two_pow_sub_one_eq_mod]

lemma low_toNat : ((i &&& 0x7F).toUInt8).toNat = i.toNat % 128 := by
  have hmask : (0x7F : UInt64).toNat = 2 ^ 7 - 1 := rfl
  rw [UInt64.toNat_toUInt8, UInt64.toNat_and, hmask, and_two_pow_sub_one_eq_mod]
  omega

lemma shift_toNat : (i >>> 7).toNat = i.toNat / 128 := by
  rw [UInt64.toNat_shiftRight]
  simp [shiftRight_eq_div_pow]

lemma marked_toNat (h : b.toNat < 128) : (b ||| 0x80).toNat = b.toNat + 128 := by
  have hall : ∀ i : Fin 128, (UInt8.ofNat i.val ||| 0x80).toNat = i.val + 128 := by decide +kernel
  have hb := hall ⟨b.toNat, h⟩
  rwa [UInt8.ofNat_toNat] at hb

lemma more_iff : (b &&& 0x80 != 0) = decide (128 ≤ b.toNat) := by
  have hall : ∀ i : Fin 256, ((UInt8.ofNat i.val &&& 0x80) != 0) = decide (128 ≤ i.val) := by
    decide +kernel
  have hb := hall ⟨b.toNat, b.toNat_lt⟩
  rwa [UInt8.ofNat_toNat] at hb

def payload : Bytes → Nat
  | [] => 0
  | b :: bs => b.toNat % 128 + 128 * payload bs

def Terminated : Bytes → Prop
  | [] => False
  | [b] => b.toNat < 128
  | b :: c :: bs => 128 ≤ b.toNat ∧ Terminated (c :: bs)

/-- One group of bytes with the value `x`. -/
def Encodes (bs : Bytes) (x : Nat) : Prop := Terminated bs ∧ payload bs = x

lemma terminated_cons {b : UInt8} {bs : Bytes} (hb : 128 ≤ b.toNat) :
    Terminated (b :: bs) ↔ Terminated bs := by
  cases bs with
  | nil =>
    constructor
    · intro h
      have hlt : b.toNat < 128 := h
      omega
    · exact False.elim
  | cons c bs => exact and_iff_right hb

lemma terminated_last {b : UInt8} {bs : Bytes} (hb : b.toNat < 128) :
    Terminated (b :: bs) ↔ bs = [] := by
  cases bs with
  | nil => exact ⟨fun _ => rfl, fun _ => hb⟩
  | cons c bs =>
    constructor
    · rintro ⟨hge, -⟩
      omega
    · exact fun h => absurd h (cons_ne_nil c bs)

lemma terminated_unique {bs cs r s : Bytes} (hb : Terminated bs) (hc : Terminated cs)
    (h : bs ++ r = cs ++ s) : bs = cs := by
  induction bs generalizing cs with
  | nil => exact hb.elim
  | cons b bs ih =>
    cases cs with
    | nil => exact hc.elim
    | cons c cs =>
      obtain ⟨rfl, htail⟩ := cons.inj h
      by_cases hge : 128 ≤ b.toNat
      · rw [ih ((terminated_cons hge).mp hb) ((terminated_cons hge).mp hc) htail]
      · have hlt : b.toNat < 128 := by omega
        rw [(terminated_last hlt).mp hb, (terminated_last hlt).mp hc]

def putVarIntLoop (b : UInt8) (i : UInt64) : Bytes :=
  if i >>> 7 > 0 then
    (b ||| 0x80) :: putVarIntLoop ((i >>> 7) &&& 0x7F).toUInt8 (i >>> 7)
  else [b]
termination_by i.toNat
decreasing_by
  rename_i h
  have hpos : 0 < (i >>> 7).toNat := h
  rw [shift_toNat] at hpos ⊢
  omega

def putVarInt (v : Bytes) (i : UInt64) : Bytes := v ++ putVarIntLoop (i &&& 0x7F).toUInt8 i

lemma encodes_putVarIntLoop : Encodes (putVarIntLoop (i &&& 0x7F).toUInt8 i) i.toNat := by
  induction hn : i.toNat using Nat.strongRecOn generalizing i with
  | ind n ih =>
    subst hn
    have hlow := low_toNat i
    have hshift := shift_toNat i
    rw [putVarIntLoop]
    split
    · rename_i h
      have hpos : 0 < (i >>> 7).toNat := h
      have hmark := marked_toNat (i &&& 0x7F).toUInt8 (by omega)
      obtain ⟨hterm, hpay⟩ := ih (i >>> 7).toNat (by omega) (i >>> 7) rfl
      refine ⟨(terminated_cons (by omega)).mpr hterm, ?_⟩
      rw [payload, hpay]
      omega
    · rename_i h
      have hzero : ¬ 0 < (i >>> 7).toNat := h
      refine ⟨(terminated_last (by omega)).mpr rfl, ?_⟩
      rw [payload, payload]
      omega

def shifted : Nat → Bytes → UInt64
  | _, [] => 0
  | nB, b :: bs => ((b &&& 0x7F).toUInt64 <<< UInt64.ofNat (7 * nB)) + shifted (nB + 1) bs

lemma getVarIntLoop_terminated (h : Terminated bs) (i : UInt64) (nB : Nat) :
    getVarIntLoop (bs ++ rest) i nB true = .value (i + shifted nB bs) (nB + bs.length) := by
  induction bs generalizing i nB with
  | nil => exact h.elim
  | cons b bs ih =>
    rw [cons_append, getVarIntLoop, more_iff, shifted, length_cons]
    by_cases hge : 128 ≤ b.toNat
    · rw [decide_eq_true hge, ih ((terminated_cons hge).mp h), UInt64.add_assoc]
      congr 1
      omega
    · have hnil := (terminated_last (by omega)).mp h
      rw [decide_eq_false hge, hnil, shifted, UInt64.add_zero]
      cases rest <;> rfl

lemma getVarIntLoop_unterminated (h : ∀ b ∈ bs, 128 ≤ b.toNat) (i : UInt64) (nB : Nat) :
    getVarIntLoop bs i nB true = .failure := by
  induction bs generalizing i nB with
  | nil => rfl
  | cons b bs ih =>
    rw [forall_mem_cons] at h
    rw [getVarIntLoop, more_iff, decide_eq_true h.1]
    exact ih h.2 _ _

lemma not_terminated_of_marked (h : ∀ b ∈ bs, 128 ≤ b.toNat) : ¬ Terminated bs := by
  induction bs with
  | nil => exact id
  | cons b bs ih =>
    rw [forall_mem_cons] at h
    rw [terminated_cons h.1]
    exact ih h.2

lemma terminated_or_unterminated :
    (∃ cs rest, bs = cs ++ rest ∧ Terminated cs) ∨ ∀ b ∈ bs, 128 ≤ b.toNat := by
  induction bs with
  | nil => exact Or.inr fun b hb => absurd hb not_mem_nil
  | cons b bs ih =>
    by_cases hge : 128 ≤ b.toNat
    · rcases ih with ⟨cs, rest, rfl, hcs⟩ | hall
      · exact Or.inl ⟨b :: cs, rest, rfl, (terminated_cons hge).mpr hcs⟩
      · exact Or.inr (forall_mem_cons.mpr ⟨hge, hall⟩)
    · exact Or.inl ⟨[b], bs, rfl, (terminated_last (by omega)).mpr rfl⟩

lemma shifted_toNat (nB : Nat) (bs : Bytes) (h : 2 ^ (7 * nB) * payload bs < 2 ^ 64) :
    (shifted nB bs).toNat = 2 ^ (7 * nB) * payload bs := by
  induction bs generalizing nB with
  | nil => rfl
  | cons b bs ih =>
    have hpow : 2 ^ (7 * (nB + 1)) = 2 ^ (7 * nB) * 128 := by
      rw [Nat.mul_add, Nat.pow_add]
    have hsplit : 2 ^ (7 * nB) * payload (b :: bs) =
        2 ^ (7 * nB) * (b.toNat % 128) + 2 ^ (7 * (nB + 1)) * payload bs := by
      rw [payload, hpow, mul_add, mul_assoc]
    rw [hsplit] at h ⊢
    have hgroup : ((b &&& 0x7F).toUInt64 <<< UInt64.ofNat (7 * nB)).toNat =
        2 ^ (7 * nB) * (b.toNat % 128) := by
      by_cases hzero : b.toNat % 128 = 0
      · have hb : (b &&& 0x7F).toUInt64 = 0 := by
          apply UInt64.toNat_inj.mp
          rw [group_toNat, hzero]
          rfl
        rw [hb, hzero, UInt64.zero_shiftLeft]
        rfl
      · have hone : 2 ^ (7 * nB) * 1 ≤ 2 ^ (7 * nB) * (b.toNat % 128) :=
          mul_le_mul_left _ (by omega)
        have hlt : 7 * nB < 64 := by
          apply (Nat.pow_lt_pow_iff_right (by decide : 1 < 2)).mp
          omega
        rw [UInt64.toNat_shiftLeft, group_toNat, UInt64.toNat_ofNat', shiftLeft_eq]
        rw [mod_eq_of_lt (by omega : 7 * nB < 2 ^ 64), mod_eq_of_lt hlt, mul_comm]
        apply mod_eq_of_lt
        omega
    rw [shifted, UInt64.toNat_add, hgroup, ih (nB + 1) (by omega)]
    exact mod_eq_of_lt h

lemma getVarInt_terminated (bs rest : Bytes) (hdrop : v.drop ofs = bs ++ rest) (h : Terminated bs) :
    getVarInt v ofs = .value (shifted 0 bs) bs.length := by
  cases bs with
  | nil => exact h.elim
  | cons b bs =>
    have hin : ¬ v.length < ofs := by
      intro hlt
      rw [drop_of_length_le (by omega)] at hdrop
      cases hdrop
    have hzero : (b &&& 0x7F).toUInt64 <<< UInt64.ofNat (7 * 0) = (b &&& 0x7F).toUInt64 :=
      UInt64.shiftLeft_zero
    rw [getVarInt, if_neg hin, hdrop, cons_append, shifted, hzero, length_cons]
    dsimp only
    rw [more_iff]
    by_cases hge : 128 ≤ b.toNat
    · rw [decide_eq_true hge, getVarIntLoop_terminated bs rest ((terminated_cons hge).mp h)]
      congr 1
      omega
    · rw [decide_eq_false hge, (terminated_last (by omega)).mp h, shifted, UInt64.add_zero]
      cases rest <;> rfl

lemma getVarInt_unterminated (hin : ofs < v.length) (h : ∀ b ∈ v.drop ofs, 128 ≤ b.toNat) :
    getVarInt v ofs = .failure := by
  rw [getVarInt, if_neg (by omega)]
  cases hdrop : v.drop ofs with
  | nil =>
    have hlen := length_drop (i := ofs) (l := v)
    rw [hdrop, length_nil] at hlen
    omega
  | cons b bs =>
    rw [hdrop, forall_mem_cons] at h
    dsimp only
    rw [more_iff, decide_eq_true h.1]
    exact getVarIntLoop_unterminated bs h.2 _ _

lemma getVarInt_outside (hout : v.length ≤ ofs) :
    getVarInt v ofs = .untouched ∨ getVarInt v ofs = .pastEnd := by
  unfold getVarInt
  by_cases hlt : v.length < ofs
  · exact Or.inr (if_pos hlt)
  · rw [if_neg hlt, drop_of_length_le hout]
    exact Or.inl rfl

/-- What is written is read back. -/
lemma getVarInt_putVarInt (x : UInt64) : getVarInt (putVarInt v x ++ rest) v.length =
      .value x ((putVarInt v x).length - v.length) := by
  obtain ⟨hterm, hpay⟩ := encodes_putVarIntLoop x
  have hdrop : (putVarInt v x ++ rest).drop v.length =
      putVarIntLoop (x &&& 0x7F).toUInt8 x ++ rest := by
    rw [putVarInt, append_assoc, drop_left]
  have hfits : 2 ^ (7 * 0) * payload (putVarIntLoop (x &&& 0x7F).toUInt8 x) < 2 ^ 64 := by
    rw [hpay, mul_zero, pow_zero, one_mul]
    exact x.toNat_lt
  have hvalue : shifted 0 (putVarIntLoop (x &&& 0x7F).toUInt8 x) = x := by
    apply UInt64.toNat_inj.mp
    rw [shifted_toNat 0 _ hfits, hpay, mul_zero, pow_zero, one_mul]
  rw [getVarInt_terminated _ _ _ _ hdrop hterm, hvalue, putVarInt, length_append]
  congr 1
  omega

/-- A read that reports success has found a complete encoding of the number it returns. -/
def Faithful (v : Bytes) (ofs : Nat) : VarIntRead → Prop
  | .failure => True
  | .untouched => False
  | .pastEnd => False
  | .value i nB => ∃ bs rest, v.drop ofs = bs ++ rest ∧ bs.length = nB ∧ Encodes bs i.toNat

/-- What `PutVarInt` appends is read back whatever follows. A read anywhere is faithful exactly
when it starts inside the vector and the encoding that is there, if it ends, fits 64 bits. -/
theorem varInt_faithful (v rest : Bytes) (x : UInt64) (ofs : Nat) :
    getVarInt (putVarInt v x ++ rest) v.length = .value x ((putVarInt v x).length - v.length) ∧
      (Faithful v ofs (getVarInt v ofs) ↔ ofs < v.length ∧
        ∀ bs, bs <+: v.drop ofs → Terminated bs → payload bs < 2 ^ 64) := by
  refine ⟨getVarInt_putVarInt v rest x, ?_⟩
  by_cases hin : ofs < v.length
  · rw [and_iff_right hin]
    rcases terminated_or_unterminated (v.drop ofs) with ⟨bs, tail, hdrop, hterm⟩ | hall
    · rw [getVarInt_terminated v ofs bs tail hdrop hterm]
      constructor
      · rintro ⟨cs, tail', hdrop', -, hcs, hpay⟩ ds ⟨tail'', hds⟩ hterm'
        have hsame : ds = cs := terminated_unique hterm' hcs (hds.trans hdrop')
        rw [hsame, hpay]
        exact UInt64.toNat_lt _
      · intro hfits
        have hlt : 2 ^ (7 * 0) * payload bs < 2 ^ 64 := by
          rw [mul_zero, pow_zero, one_mul]
          exact hfits bs ⟨tail, hdrop.symm⟩ hterm
        refine ⟨bs, tail, hdrop, rfl, hterm, ?_⟩
        rw [shifted_toNat 0 bs hlt, mul_zero, pow_zero, one_mul]
    · rw [getVarInt_unterminated v ofs hin hall]
      refine ⟨fun _ bs hpre hterm => absurd hall ?_, fun _ => trivial⟩
      exact fun hall => not_terminated_of_marked bs (fun b hb => hall b (hpre.subset hb)) hterm
  · have hfalse : ¬ Faithful v ofs (getVarInt v ofs) := by
      rcases getVarInt_outside v ofs (by omega) with hread | hread
      · rw [hread]
        exact id
      · rw [hread]
        exact id
    exact ⟨fun h => absurd h hfalse, fun h => absurd h.1 hin⟩

/-- A read at the end of an empty vector reports success and no number; ten bytes that spell a
number of 70 bits are read as `2^63`. -/
theorem getVarInt_unfaithful : ¬ Faithful [] 0 (getVarInt [] 0) ∧
    getVarInt [] 0 = .untouched ∧
    getVarInt [0x80, 0x80, 0x80, 0x80, 0x80, 0x80, 0x80, 0x80, 0x80, 0x7F] 0 = .value (2 ^ 63) 10 ∧
    payload [0x80, 0x80, 0x80, 0x80, 0x80, 0x80, 0x80, 0x80, 0x80, 0x7F] = 127 * 2 ^ 63 := by
  refine ⟨id, rfl, ?_, ?_⟩
  · decide +kernel
  · decide +kernel

def varIntTmp (n : UInt64) (len : Nat) : Bytes :=
  ((n &&& 0x7F).toUInt8 ||| if len = 0 then 0 else 0x80) ::
    if n ≤ 0x7F then [] else varIntTmp (n >>> 7 - 1) (len + 1)
termination_by n.toNat
decreasing_by
  rename_i h
  have hgt : ¬ n.toNat ≤ 127 := h
  have hshift := shift_toNat n
  have hone : (1 : UInt64) ≤ n >>> 7 := by
    show 1 ≤ (n >>> 7).toNat
    omega
  rw [UInt64.toNat_sub_of_le _ _ hone]
  omega

def writeVarInt (n : UInt64) : Bytes := (varIntTmp n 0).reverse

def uint64Max : UInt64 := 0xFFFFFFFFFFFFFFFF

def readVarIntLoop (n : UInt64) : Bytes → Option (UInt64 × Bytes)
  | [] => none
  | chData :: is =>
    if n > uint64Max >>> 7 then none
    else if chData &&& 0x80 != 0 then
      if n <<< 7 ||| (chData &&& 0x7F).toUInt64 = uint64Max then none
      else readVarIntLoop ((n <<< 7 ||| (chData &&& 0x7F).toUInt64) + 1) is
    else some (n <<< 7 ||| (chData &&& 0x7F).toUInt64, is)

/-- `ReadVarInt` for a `uint64_t`; a stream that ends or a number that is too large throws. -/
def readVarInt : Reader UInt64 := readVarIntLoop 0

def groupsAbove (q : UInt64) : Bytes := if q = 0 then [] else (varIntTmp (q - 1) 1).reverse

lemma le_low_iff : n ≤ 0x7F ↔ (n >>> 7).toNat = 0 := by
  have hshift := shift_toNat n
  constructor
  · intro h
    have hle : n.toNat ≤ 127 := h
    omega
  · intro h
    show n.toNat ≤ 127
    omega

lemma pred_toNat (h : q.toNat ≠ 0) : (q - 1).toNat = q.toNat - 1 := by
  have hone : (1 : UInt64) ≤ q := by
    show 1 ≤ q.toNat
    omega
  rw [UInt64.toNat_sub_of_le _ _ hone]
  rfl

lemma varIntTmp_succ : varIntTmp n (len + 1) = varIntTmp n 1 := by
  induction hn : n.toNat using Nat.strongRecOn generalizing n len with
  | ind k ih =>
    subst hn
    rw [varIntTmp.eq_def n (len + 1), varIntTmp.eq_def n 1, if_neg (succ_ne_zero len),
      if_neg one_ne_zero]
    congr 1
    split
    · rfl
    · rename_i h
      have hshift := shift_toNat n
      have hne : (n >>> 7).toNat ≠ 0 := fun hzero => h ((le_low_iff n).mpr hzero)
      have hpred := pred_toNat (n >>> 7) hne
      rw [ih _ (by omega) (n >>> 7 - 1) (len + 1) rfl, ih _ (by omega) (n >>> 7 - 1) 1 rfl]

lemma varIntTmp_reverse : (varIntTmp n len).reverse =
      groupsAbove (n >>> 7) ++ [(n &&& 0x7F).toUInt8 ||| if len = 0 then 0 else 0x80] := by
  rw [varIntTmp, reverse_cons, groupsAbove]
  congr 1
  by_cases hle : n ≤ 0x7F
  · have hzero : n >>> 7 = 0 := UInt64.toNat_inj.mp ((le_low_iff n).mp hle)
    rw [if_pos hle, if_pos hzero, reverse_nil]
  · have hne : n >>> 7 ≠ 0 := fun hzero => hle ((le_low_iff n).mpr (congrArg UInt64.toNat hzero))
    rw [if_neg hle, if_neg hne, varIntTmp_succ]

lemma writeVarInt_eq : writeVarInt n = groupsAbove (n >>> 7) ++ [(n &&& 0x7F).toUInt8] := by
  rw [writeVarInt, varIntTmp_reverse, if_pos rfl, UInt8.or_zero]

lemma groupsAbove_succ (h : x.toNat + 1 < 2 ^ 64) :
    groupsAbove (x + 1) = groupsAbove (x >>> 7) ++ [(x &&& 0x7F).toUInt8 ||| 0x80] := by
  have hsucc : (x + 1).toNat = x.toNat + 1 := by
    rw [UInt64.toNat_add]
    exact mod_eq_of_lt h
  have hne : x + 1 ≠ 0 := by
    intro hzero
    have hnat := congrArg UInt64.toNat hzero
    rw [hsucc] at hnat
    exact succ_ne_zero _ hnat
  rw [groupsAbove, if_neg hne, UInt64.add_sub_cancel, varIntTmp_reverse, if_neg one_ne_zero]

lemma max_toNat : (uint64Max >>> 7).toNat = 2 ^ 57 - 1 := by decide

lemma combine_toNat (h : n.toNat < 2 ^ 57) :
    (n <<< 7 ||| (b &&& 0x7F).toUInt64).toNat = 128 * n.toNat + b.toNat % 128 := by
  have hshift : (n <<< 7).toNat = 2 ^ 7 * n.toNat := by
    rw [UInt64.toNat_shiftLeft, shiftLeft_eq]
    show n.toNat * 2 ^ 7 % 2 ^ 64 = 2 ^ 7 * n.toNat
    omega
  have hlow : b.toNat % 128 < 2 ^ 7 := mod_lt _ (by decide)
  rw [UInt64.toNat_or, hshift, group_toNat, ← two_pow_add_eq_or_of_lt hlow]

lemma combine_shift (h : n.toNat < 2 ^ 57) : (n <<< 7 ||| (b &&& 0x7F).toUInt64) >>> 7 = n := by
  apply UInt64.toNat_inj.mp
  rw [shift_toNat, combine_toNat n b h]
  omega

lemma combine_low (h : n.toNat < 2 ^ 57) :
    ((n <<< 7 ||| (b &&& 0x7F).toUInt64) &&& 0x7F).toUInt8.toNat = b.toNat % 128 := by
  rw [low_toNat, combine_toNat n b h]
  omega

lemma combine_eq (h : b.toNat % 128 = x.toNat % 128) :
    x >>> 7 <<< 7 ||| (b &&& 0x7F).toUInt64 = x := by
  have hshift := shift_toNat x
  have hlt := x.toNat_lt
  apply UInt64.toNat_inj.mp
  rw [combine_toNat _ b (by omega)]
  omega

lemma shift_le_max : ¬ x >>> 7 > uint64Max >>> 7 := by
  have hmax := max_toNat
  have hshift := shift_toNat x
  have hlt := x.toNat_lt
  show ¬ (uint64Max >>> 7).toNat < (x >>> 7).toNat
  omega

lemma readVarIntLoop_marked (h : x.toNat + 1 < 2 ^ 64) :
    readVarIntLoop (x >>> 7) (((x &&& 0x7F).toUInt8 ||| 0x80) :: is) =
      readVarIntLoop (x + 1) is := by
  have hlow := low_toNat x
  have hmark := marked_toNat (x &&& 0x7F).toUInt8 (by omega)
  have hnot : x ≠ uint64Max := by
    intro heq
    have hmax : uint64Max.toNat = 2 ^ 64 - 1 := by decide
    rw [heq] at h
    omega
  rw [readVarIntLoop, if_neg (shift_le_max x), more_iff, decide_eq_true (by omega), if_pos rfl,
    combine_eq x _ (by omega), if_neg hnot]

lemma readVarIntLoop_last :
    readVarIntLoop (x >>> 7) ((x &&& 0x7F).toUInt8 :: is) = some (x, is) := by
  have hlow := low_toNat x
  have hclear : ¬ 128 ≤ (x &&& 0x7F).toUInt8.toNat := by omega
  rw [readVarIntLoop, if_neg (shift_le_max x), more_iff, decide_eq_false hclear,
    if_neg Bool.false_ne_true, combine_eq x _ (by omega)]

lemma readVarIntLoop_groupsAbove :
    readVarIntLoop 0 (groupsAbove q ++ is) = readVarIntLoop q is := by
  induction hn : q.toNat using Nat.strongRecOn generalizing q is with
  | ind k ih =>
    subst hn
    by_cases hzero : q = 0
    · rw [groupsAbove, if_pos hzero, nil_append, hzero]
    · have hne : q.toNat ≠ 0 := fun h => hzero (UInt64.toNat_inj.mp h)
      have hpred := pred_toNat q hne
      have hlt := q.toNat_lt
      have hshift := shift_toNat (q - 1)
      have hsucc : q - 1 + 1 = q := UInt64.sub_add_cancel q 1
      have hgroups := groupsAbove_succ (q - 1) (by omega)
      rw [hsucc] at hgroups
      rw [hgroups, append_assoc, ih _ (by omega) _ _ rfl, singleton_append,
        readVarIntLoop_marked _ _ (by omega), hsucc]

lemma readVarInt_writeVarInt : readVarInt (writeVarInt x ++ rest) = some (x, rest) := by
  rw [readVarInt, writeVarInt_eq, append_assoc, readVarIntLoop_groupsAbove]
  exact readVarIntLoop_last x rest

/-- What has been read so far, followed by the rest of the stream, is the encoding of the result. -/
lemma readVarIntLoop_canonical (v : UInt64) :
    ∀ n, readVarIntLoop n bs = some (v, rest) → groupsAbove n ++ bs = writeVarInt v ++ rest := by
  induction bs with
  | nil => exact fun n h => absurd h.symm (Option.some_ne_none _)
  | cons b bs ih =>
    intro n h
    rw [readVarIntLoop] at h
    split at h
    · cases h
    · rename_i hle
      have hmax := max_toNat
      have hn : n.toNat < 2 ^ 57 := by
        have hnot : ¬ (uint64Max >>> 7).toNat < n.toNat := hle
        omega
      have hshift := combine_shift n b hn
      have hlow := combine_low n b hn
      rw [more_iff] at h
      split at h
      · rename_i hmore
        have hge : 128 ≤ b.toNat := of_decide_eq_true hmore
        split at h
        · cases h
        · rename_i hnot
          have hlt : (n <<< 7 ||| (b &&& 0x7F).toUInt64).toNat + 1 < 2 ^ 64 := by
            have hbound := (n <<< 7 ||| (b &&& 0x7F).toUInt64).toNat_lt
            have hne : (n <<< 7 ||| (b &&& 0x7F).toUInt64).toNat ≠ 2 ^ 64 - 1 :=
              fun heq => hnot (UInt64.toNat_inj.mp heq)
            omega
          have hbyte : ((n <<< 7 ||| (b &&& 0x7F).toUInt64) &&& 0x7F).toUInt8 ||| 0x80 = b := by
            have hb := b.toNat_lt
            apply UInt8.toNat_inj.mp
            rw [marked_toNat _ (by omega)]
            omega
          have hread := ih _ h
          rw [groupsAbove_succ _ hlt, hshift, hbyte, append_assoc] at hread
          exact hread
      · rename_i hmore
        have hge : ¬ 128 ≤ b.toNat := fun hge => hmore (decide_eq_true hge)
        obtain ⟨rfl, rfl⟩ := Prod.mk.inj (Option.some.inj h)
        have hbyte : ((n <<< 7 ||| (b &&& 0x7F).toUInt64) &&& 0x7F).toUInt8 = b := by
          apply UInt8.toNat_inj.mp
          omega
        rw [writeVarInt_eq, hshift, hbyte, append_assoc]
        rfl

/-- A stream yields a number exactly when it starts with the one encoding of that number. -/
theorem stream_integers_canonical (bs rest : Bytes) (v : UInt64) (nSize : Nat) :
    (readVarInt bs = some (v, rest) ↔ bs = writeVarInt v ++ rest) ∧
      (readCompactSize bs = some (nSize, rest) ↔
        nSize < 2 ^ 64 ∧ bs = writeCompactSize nSize ++ rest) := by
  constructor
  · constructor
    · intro h
      exact readVarIntLoop_canonical bs rest v 0 h
    · rintro rfl
      exact readVarInt_writeVarInt v rest
  · constructor
    · intro h
      exact compactSize.enc_dec bs nSize rest h
    · rintro ⟨hdom, rfl⟩
      exact compactSize.dec_enc nSize rest hdom

end VarInt
