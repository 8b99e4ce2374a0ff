import BitcoinC.TransactionFormat

/-!
# Reading a transaction

`UnserializeTransaction`. The reader undoes the writer.
-/

namespace ReadTransaction

open Primitives Encoding Codecs WireFormat TransactionFormat

variable (version : UInt8) (bs rest : Bytes) (x : List CTxIn × List CTxOut) (tx : CTransaction)
variable (n : Nat) (flags : UInt8) (vin : List CTxIn)

structure CMutableTransaction where
  nVersion : UInt32
  nLockTime : UInt32
  vin : List CTxIn
  vout : List CTxOut
  vpout : List (Option CTxOutBase)
  deriving DecidableEq

def mutable (tx : CTransaction) : CMutableTransaction :=
  ⟨tx.nVersion, tx.nLockTime, tx.vin, tx.vout, tx.vpout.map some⟩

lemma mutable_injective : Function.Injective mutable := by
  intro tx tx' h
  have hvpout := List.map_injective_iff.mpr (Option.some_injective _)
    (congrArg CMutableTransaction.vpout h)
  cases tx
  cases tx'
  simp_all [mutable]

/-- The loop over the outputs; false when it returned at an unknown type. The vector has its
full size from the start, so the outputs that were not reached are null. -/
def readOutputs : (nOutputs : Nat) → Reader (List (Option CTxOutBase) × Bool)
  | 0 => pure ([], true)
  | n + 1 => do
    let bv ← readByte
    match readOutputBody bv with
    | none => pure (List.replicate (n + 1) none, false)
    | some read => do
      let out ← read
      let r ← readOutputs n
      pure (some out :: r.1, r.2)

def readWitnesses (vin : List CTxIn) : Reader (List CTxIn) := do
  let items ← readCount (readVector readBytes) vin.length
  pure (withWitnesses vin items)

def unserializeBitcoinC (fAllowWitness : Bool) (version : UInt8) : Reader CMutableTransaction := do
  let bv ← readByte
  let nVersion := version.toUInt32 ||| bv.toUInt32 <<< 8
  let nLockTime ← uint32.dec
  let vin ← readVector readTxIn
  let nOutputs ← readCompactSize
  let r ← readOutputs nOutputs
  if r.2 = true ∧ fAllowWitness = true then do
    let vin' ← readWitnesses vin
    pure ⟨nVersion, nLockTime, vin', [], r.1⟩
  else pure ⟨nVersion, nLockTime, vin, [], r.1⟩

def readFlagged (fAllowWitness : Bool) : Reader (UInt8 × List CTxIn × List CTxOut) := do
  let vin ← readVector readTxIn
  if vin = [] ∧ fAllowWitness = true then do
    -- a dummy or an empty vin
    let flags ← readByte
    if flags ≠ 0 then do
      let vin' ← readVector readTxIn
      let vout ← readVector readTxOut
      pure (flags, vin', vout)
    else pure (flags, vin, [])
  else do
    let vout ← readVector readTxOut
    pure (0, vin, vout)

def readByFlags (fAllowWitness : Bool) (flags : UInt8) (vin : List CTxIn) (vout : List CTxOut) :
    Reader (List CTxIn × List CTxOut) :=
  if flags &&& 1 ≠ 0 ∧ fAllowWitness = true then do
    let vin' ← readWitnesses vin
    if flags ^^^ 1 ≠ 0 then failure else pure (vin', vout)
  else if flags ≠ 0 then failure
  else pure (vin, vout)

def readInOut (fAllowWitness : Bool) : Reader (List CTxIn × List CTxOut) := do
  let x ← readFlagged fAllowWitness
  readByFlags fAllowWitness x.1 x.2.1 x.2.2

def unserializeLegacy (fAllowWitness : Bool) (version : UInt8) : Reader CMutableTransaction := do
  let b₁ ← readByte
  let b₂ ← readByte
  let b₃ ← readByte
  let nVersion := version.toUInt32 ||| b₁.toUInt32 <<< 8 ||| b₂.toUInt32 <<< 16 |||
    b₃.toUInt32 <<< 24
  let x ← readInOut fAllowWitness
  let nLockTime ← uint32.dec
  pure ⟨nVersion, nLockTime, x.1, x.2, []⟩

def unserializeTransaction (fAllowWitness : Bool) : Reader CMutableTransaction := do
  let bv ← readByte
  if 0xA0 ≤ bv then unserializeBitcoinC fAllowWitness bv
  else unserializeLegacy fAllowWitness bv

lemma or_shift_toNat (x y k : Nat) (h : x < 2 ^ k) : x ||| y <<< k = x + y * 2 ^ k := by
  rw [Nat.or_comm, ← Nat.shiftLeft_add_eq_or_of_lt h, Nat.shiftLeft_eq, Nat.add_comm]

lemma shifted_toNat (b : UInt8) (k : UInt32) (hk : k.toNat ≤ 24) :
    (b.toUInt32 <<< k).toNat = b.toNat <<< k.toNat := by
  have hb : b.toNat < 2 ^ 8 := b.toNat_lt
  have hpow : 2 ^ k.toNat ≤ 2 ^ 24 := Nat.pow_le_pow_right (by decide) hk
  rw [UInt32.toNat_shiftLeft, UInt8.toNat_toUInt32, Nat.mod_eq_of_lt (by omega : k.toNat < 32)]
  refine Nat.mod_eq_of_lt ?_
  rw [Nat.shiftLeft_eq]
  calc b.toNat * 2 ^ k.toNat ≤ b.toNat * 2 ^ 24 := Nat.mul_le_mul_left _ hpow
    _ < 2 ^ 32 := by omega

lemma bitcoinCVersion_eq (b₀ b₁ : UInt8) :
    b₀.toUInt32 ||| b₁.toUInt32 <<< 8 = versionOf [b₀, b₁] := by
  have h₀ : b₀.toNat < 2 ^ 8 := b₀.toNat_lt
  apply UInt32.toNat_inj.mp
  rw [versionOf_toNat _ (by simp), UInt32.toNat_or, shifted_toNat b₁ 8 (by decide)]
  show b₀.toNat ||| b₁.toNat <<< 8 = _
  rw [or_shift_toNat _ _ _ h₀]
  simp only [readLE]
  omega

lemma legacyVersion_eq (b₀ b₁ b₂ b₃ : UInt8) :
    b₀.toUInt32 ||| b₁.toUInt32 <<< 8 ||| b₂.toUInt32 <<< 16 ||| b₃.toUInt32 <<< 24 =
      versionOf [b₀, b₁, b₂, b₃] := by
  have h₀ : b₀.toNat < 2 ^ 8 := b₀.toNat_lt
  have h₁ : b₁.toNat < 2 ^ 8 := b₁.toNat_lt
  have h₂ : b₂.toNat < 2 ^ 8 := b₂.toNat_lt
  apply UInt32.toNat_inj.mp
  rw [versionOf_toNat _ (by simp), UInt32.toNat_or, UInt32.toNat_or, UInt32.toNat_or,
    shifted_toNat b₁ 8 (by decide), shifted_toNat b₂ 16 (by decide),
    shifted_toNat b₃ 24 (by decide)]
  show b₀.toNat ||| b₁.toNat <<< 8 ||| b₂.toNat <<< 16 ||| b₃.toNat <<< 24 = _
  rw [or_shift_toNat b₀.toNat b₁.toNat 8 h₀, or_shift_toNat _ b₂.toNat 16 (by omega),
    or_shift_toNat _ b₃.toNat 24 (by omega)]
  simp only [readLE]
  omega

lemma lenient_witnesses : Lenient (readCount (readVector readBytes) n) (witnesses n) :=
  (lenient_vector lenient_bytes).count n

def knownOutputs : Reader (List CTxOutBase) := do
  let nOutputs ← readCompactSize
  readCount readTxOutBase nOutputs

lemma lenient_outputs : Lenient knownOutputs outputs := by
  refine (Lenient.map ((lenient_dec compactSize).seq fun n => lenient_txOutBase.count n)
    _ _ _).of_eq ?_
  simp only [knownOutputs, readSeq, bind_assoc, pure_bind, bind_pure]
  rfl

def knownBitcoinC (version : UInt8) : Reader CTransaction := do
  let bv ← readByte
  let nLockTime ← uint32.dec
  let vin ← readVector readTxIn
  let vpout ← knownOutputs
  let vin' ← readWitnesses vin
  pure ⟨versionOf [version, bv], nLockTime, vin', [], vpout⟩

lemma lenient_bitcoinC : Lenient (knownBitcoinC version) (bitcoinCBody version) := by
  refine (Lenient.map ((lenient_dec byte).seq fun _ => (lenient_dec uint32).seq fun _ =>
    (lenient_vector lenient_txIn).seq fun vin => lenient_outputs.seq fun _ =>
      lenient_witnesses vin.length) _ _ _).of_eq ?_
  simp only [knownBitcoinC, readWitnesses, readSeq, bind_assoc, pure_bind]
  rfl

lemma readOutputs_of_known (bs rest : Bytes) (vpout : List CTxOutBase)
    (h : readCount readTxOutBase n bs = some (vpout, rest)) :
    readOutputs n bs = some ((vpout.map some, true), rest) := by
  induction n generalizing bs vpout with
  | zero =>
    obtain ⟨rfl, rfl⟩ := (readCount_zero _ _ _ _).mp h
    rfl
  | succ n ih =>
    obtain ⟨out, tail, mid, rfl, hout, htail⟩ := (readCount_succ _ _ _ _ _).mp h
    obtain ⟨bv, mid', hbyte, hbody⟩ := (bind_eq_some_iff _ _ _ _ _).mp hout
    refine (bind_eq_some_iff _ _ _ _ _).mpr ⟨bv, mid', hbyte, ?_⟩
    cases hread : readOutputBody bv with
    | none =>
      rw [hread] at hbody
      cases hbody
    | some read =>
      rw [hread] at hbody
      exact (bind_eq_some_iff _ _ _ _ _).mpr
        ⟨out, mid, hbody, (bind_eq_some_iff _ _ _ _ _).mpr ⟨_, rest, ih _ _ htail, rfl⟩⟩

lemma readOutputs_cases (bs rest : Bytes) (r : List (Option CTxOutBase) × Bool)
    (h : readOutputs n bs = some (r, rest)) :
    (∃ vpout, r = (vpout.map some, true) ∧ readCount readTxOutBase n bs = some (vpout, rest)) ∨
      (r.2 = false ∧ none ∈ r.1) := by
  induction n generalizing bs r with
  | zero =>
    obtain ⟨rfl, rfl⟩ := (pure_eq_some_iff _ _ _ _).mp h
    exact .inl ⟨[], rfl, rfl⟩
  | succ n ih =>
    obtain ⟨bv, mid, hbyte, hbody⟩ := (bind_eq_some_iff _ _ _ _ _).mp h
    cases hread : readOutputBody bv with
    | none =>
      rw [hread] at hbody
      obtain ⟨rfl, rfl⟩ := (pure_eq_some_iff _ _ _ _).mp hbody
      exact .inr ⟨rfl, by simp⟩
    | some read =>
      rw [hread] at hbody
      obtain ⟨out, mid', hout, hrest⟩ := (bind_eq_some_iff _ _ _ _ _).mp hbody
      obtain ⟨r', last, htail, hlast⟩ := (bind_eq_some_iff _ _ _ _ _).mp hrest
      obtain ⟨rfl, rfl⟩ := (pure_eq_some_iff _ _ _ _).mp hlast
      rcases ih _ _ htail with ⟨vpout, rfl, hknown⟩ | ⟨hfalse, hnone⟩
      · refine .inl ⟨out :: vpout, rfl, (readCount_succ _ _ _ _ _).mpr
          ⟨out, vpout, mid', rfl, ?_, hknown⟩⟩
        refine (bind_eq_some_iff _ _ _ _ _).mpr ⟨bv, mid, hbyte, ?_⟩
        rw [hread]
        exact hout
      · exact .inr ⟨hfalse, List.mem_cons_of_mem _ hnone⟩

lemma unserializeBitcoinC_iff : unserializeBitcoinC true version bs = some (mutable tx, rest) ↔
      knownBitcoinC version bs = some (tx, rest) := by
  simp only [unserializeBitcoinC, knownBitcoinC, knownOutputs, bind_eq_some_iff, bitcoinCVersion_eq,
    and_true]
  constructor
  · rintro ⟨bv, m₁, h₁, nLockTime, m₂, h₂, vin, m₃, h₃, nOutputs, m₄, h₄, r, m₅, h₅, h⟩
    rcases readOutputs_cases _ _ _ _ h₅ with ⟨vpout, rfl, hknown⟩ | ⟨hfalse, hnone⟩
    · obtain ⟨vin', m₆, h₆, h⟩ := (bind_eq_some_iff _ _ _ _ _).mp h
      obtain ⟨htx, rfl⟩ := (pure_eq_some_iff _ _ _ _).mp h
      have htx' : (⟨versionOf [version, bv], nLockTime, vin', [], vpout⟩ : CTransaction) = tx :=
        mutable_injective htx
      exact ⟨bv, m₁, h₁, nLockTime, m₂, h₂, vin, m₃, h₃, vpout, m₅, ⟨nOutputs, m₄, h₄, hknown⟩,
        vin', m₆, h₆, (pure_eq_some_iff _ _ _ _).mpr ⟨htx', rfl⟩⟩
    · -- a null output is no output of a transaction
      exfalso
      rw [if_neg (by simp [hfalse])] at h
      obtain ⟨htx, -⟩ := (pure_eq_some_iff _ _ _ _).mp h
      have hvpout : r.1 = tx.vpout.map some := congrArg CMutableTransaction.vpout htx
      rw [hvpout] at hnone
      simp at hnone
  · rintro ⟨bv, m₁, h₁, nLockTime, m₂, h₂, vin, m₃, h₃, vpout, m₅, ⟨nOutputs, m₄, h₄, hknown⟩,
      vin', m₆, h₆, h⟩
    obtain ⟨rfl, rfl⟩ := (pure_eq_some_iff _ _ _ _).mp h
    refine ⟨bv, m₁, h₁, nLockTime, m₂, h₂, vin, m₃, h₃, nOutputs, m₄, h₄, _, m₅,
      readOutputs_of_known _ _ _ _ hknown, ?_⟩
    rw [if_pos rfl]
    exact (bind_eq_some_iff _ _ _ _ _).mpr ⟨vin', m₆, h₆, rfl⟩

def readWithWitness : Reader (List CTxIn × List CTxOut) := do
  let vin ← readVector readTxIn
  let vout ← readVector readTxOut
  let vin' ← readWitnesses vin
  pure (vin', vout)

lemma lenient_withWitness : Lenient readWithWitness withWitnessBody := by
  refine (Lenient.map ((lenient_vector lenient_txIn).seq fun vin =>
    (lenient_vector lenient_txOut).seq fun _ => lenient_witnesses vin.length) _ _ _).of_eq ?_
  simp only [readWithWitness, readWitnesses, readSeq, bind_assoc, pure_bind]

lemma flags_eq_one (h : flags ^^^ 1 = 0) : flags = 1 := by
  have hxor : flags ^^^ 1 ^^^ 1 = 0 ^^^ 1 := by rw [h]
  rwa [UInt8.xor_assoc, UInt8.xor_self, UInt8.xor_zero, UInt8.zero_xor] at hxor

lemma readByFlags_iff (vout : List CTxOut) (bs rest : Bytes) (x : List CTxIn × List CTxOut) :
    readByFlags true flags vin vout bs = some (x, rest) ↔
      (flags = 0 ∧ (vin, vout) = x ∧ bs = rest) ∨
      (flags = 1 ∧ readWitnesses vin bs = some (x.1, rest) ∧ vout = x.2) := by
  constructor
  · intro h
    unfold readByFlags at h
    by_cases hodd : flags &&& 1 ≠ 0 ∧ true = true
    · rw [if_pos hodd] at h
      obtain ⟨vin', mid, hwitness, h⟩ := (bind_eq_some_iff _ _ _ _ _).mp h
      by_cases hone : flags ^^^ 1 ≠ 0
      · rw [if_pos hone] at h
        cases h
      · rw [if_neg hone, pure_eq_some_iff] at h
        obtain ⟨rfl, rfl⟩ := h
        exact .inr ⟨flags_eq_one flags (not_not.mp hone), hwitness, rfl⟩
    · rw [if_neg hodd] at h
      by_cases hzero : flags ≠ 0
      · rw [if_pos hzero] at h
        cases h
      · rw [if_neg hzero, pure_eq_some_iff] at h
        exact .inl ⟨not_not.mp hzero, h⟩
  · rintro (⟨rfl, rfl, rfl⟩ | ⟨rfl, hwitness, rfl⟩)
    · rfl
    · exact (bind_eq_some_iff _ _ _ _ _).mpr ⟨x.1, rest, hwitness, rfl⟩

/-- The three ways in which the legacy inputs and outputs are read. -/
inductive ReadsInOut (bs : Bytes) (x : List CTxIn × List CTxOut) (rest : Bytes) : Prop
  | plain (mid : Bytes) (hvin : x.1 ≠ []) (h₁ : readVector readTxIn bs = some (x.1, mid))
    (h₂ : readVector readTxOut mid = some (x.2, rest))
  | empty (hx : x = ([], [])) (h₁ : readVector readTxIn bs = some ([], 0 :: rest))
  | flagged (mid : Bytes) (h₁ : readVector readTxIn bs = some ([], 1 :: mid))
    (h₂ : readWithWitness mid = some (x, rest))

lemma readsInOut_of_read (h : readInOut true bs = some (x, rest)) : ReadsInOut bs x rest := by
  obtain ⟨⟨flags, vin', vout⟩, mid, hflagged, h⟩ := (bind_eq_some_iff _ _ _ _ _).mp h
  obtain ⟨vin, m₁, hvin, hflagged⟩ := (bind_eq_some_iff _ _ _ _ _).mp hflagged
  have hflags := (readByFlags_iff _ _ _ _ _ _).mp h
  by_cases hnil : vin = []
  · rw [if_pos ⟨hnil, rfl⟩] at hflagged
    rw [hnil] at hvin
    obtain ⟨flags', m₂, hbyte, hflagged⟩ := (bind_eq_some_iff _ _ _ _ _).mp hflagged
    obtain ⟨-, hm₁⟩ := byte.enc_dec _ _ _ hbyte
    by_cases hzero : flags' ≠ 0
    · rw [if_pos hzero] at hflagged
      obtain ⟨vin'', m₃, hvin', hflagged⟩ := (bind_eq_some_iff _ _ _ _ _).mp hflagged
      obtain ⟨vout', m₄, hvout, hflagged⟩ := (bind_eq_some_iff _ _ _ _ _).mp hflagged
      obtain ⟨heq, rfl⟩ := (pure_eq_some_iff _ _ _ _).mp hflagged
      cases heq
      rcases hflags with ⟨hflags, -⟩ | ⟨rfl, hwitness, rfl⟩
      · exact absurd hflags hzero
      · refine .flagged m₂ (hvin.trans (by rw [hm₁]; rfl)) ?_
        exact (bind_eq_some_iff _ _ _ _ _).mpr ⟨_, m₃, hvin', (bind_eq_some_iff _ _ _ _ _).mpr
          ⟨x.2, m₄, hvout, (bind_eq_some_iff _ _ _ _ _).mpr ⟨x.1, rest, hwitness, rfl⟩⟩⟩
    · rw [if_neg hzero, pure_eq_some_iff] at hflagged
      obtain ⟨heq, rfl⟩ := hflagged
      cases heq
      rcases hflags with ⟨rfl, hx, rfl⟩ | ⟨rfl, -⟩
      · exact .empty (hx.symm.trans (by rw [hnil])) (hvin.trans (by rw [hm₁]; rfl))
      · exact absurd (by decide) hzero
  · rw [if_neg (fun hc => hnil hc.1)] at hflagged
    obtain ⟨vout', m₂, hvout, hflagged⟩ := (bind_eq_some_iff _ _ _ _ _).mp hflagged
    obtain ⟨heq, rfl⟩ := (pure_eq_some_iff _ _ _ _).mp hflagged
    cases heq
    rcases hflags with ⟨-, rfl, rfl⟩ | ⟨hflags, -⟩
    · exact .plain m₁ hnil hvin hvout
    · cases hflags

lemma read_of_readsInOut (h : ReadsInOut bs x rest) : readInOut true bs = some (x, rest) := by
  rcases h with ⟨mid, hvin, h₁, h₂⟩ | ⟨rfl, h₁⟩ | ⟨mid, h₁, h₂⟩
  · refine (bind_eq_some_iff _ _ _ _ _).mpr ⟨(0, x), rest,
      (bind_eq_some_iff _ _ _ _ _).mpr ⟨x.1, mid, h₁, ?_⟩,
      (readByFlags_iff _ _ _ _ _ _).mpr (.inl ⟨rfl, rfl, rfl⟩)⟩
    rw [if_neg (fun hc => hvin hc.1)]
    exact (bind_eq_some_iff _ _ _ _ _).mpr ⟨x.2, rest, h₂, rfl⟩
  · exact (bind_eq_some_iff _ _ _ _ _).mpr ⟨(0, [], []), rest,
      (bind_eq_some_iff _ _ _ _ _).mpr ⟨[], _, h₁, rfl⟩, rfl⟩
  · obtain ⟨vin, m₁, hvin, h₂⟩ := (bind_eq_some_iff _ _ _ _ _).mp h₂
    obtain ⟨vout, m₂, hvout, h₂⟩ := (bind_eq_some_iff _ _ _ _ _).mp h₂
    obtain ⟨vin', m₃, hwitness, h₂⟩ := (bind_eq_some_iff _ _ _ _ _).mp h₂
    obtain ⟨rfl, rfl⟩ := (pure_eq_some_iff _ _ _ _).mp h₂
    have hflagged : readFlagged true bs = some ((1, vin, vout), m₂) := by
      refine (bind_eq_some_iff _ _ _ _ _).mpr ⟨[], _, h₁, ?_⟩
      exact (bind_eq_some_iff _ _ _ _ _).mpr ⟨1, mid, rfl, (bind_eq_some_iff _ _ _ _ _).mpr
        ⟨vin, m₁, hvin, (bind_eq_some_iff _ _ _ _ _).mpr ⟨vout, m₂, hvout, rfl⟩⟩⟩
    exact (bind_eq_some_iff _ _ _ _ _).mpr ⟨_, m₂, hflagged,
      (readByFlags_iff _ _ _ _ _ _).mpr (.inr ⟨rfl, hwitness, rfl⟩)⟩

/-- The reader of the legacy inputs and outputs, without those whose outputs have no input: they
are written as something else. -/
def knownInOut : Reader (List CTxIn × List CTxOut) :=
  readWhen (readInOut true) fun x => x.1 ≠ [] ∨ x.2 = []

lemma map_withoutWitness_of_dom (h : (vector txIn).dom vin) :
    anyWitness vin = false ∧ vin.map withoutWitness = vin := by
  have hnone := anyWitness_of_none vin fun txin hmem =>
    ((txIn_dom txin).mp (((vector_dom _ _).mp h).2 txin hmem)).2.2
  exact ⟨hnone, map_withoutWitness vin hnone⟩

lemma readsInOut_of_dec (h : legacyInOut.dec bs = some (x, rest)) :
    ReadsInOut bs x rest ∧ (x.1 ≠ [] ∨ x.2 = []) := by
  obtain ⟨⟨vin, x'⟩, hdec, rfl⟩ := (map_eq_some_iff _ _ _ _ _).mp h
  obtain ⟨mid, hvin, hafter⟩ := (readSeq_eq_some_iff _ _ _ _ _).mp hdec
  have hread := (lenient_vector lenient_txIn).accepts _ _ hvin
  dsimp only at hafter hread ⊢
  unfold afterInputs at hafter
  split_ifs at hafter with hnil
  · subst hnil
    obtain ⟨⟨flags, x''⟩, hflags, rfl⟩ := (map_eq_some_iff _ _ _ _ _).mp hafter
    obtain ⟨mid', hbyte, hbody⟩ := (readSeq_eq_some_iff _ _ _ _ _).mp hflags
    obtain ⟨-, rfl⟩ := byte.enc_dec _ _ _ hbyte
    dsimp only at hbody hread ⊢
    unfold flagBody at hbody
    split_ifs at hbody with hzero hone
    · obtain ⟨rfl, rfl⟩ := (pure_eq_some_iff _ _ _ _).mp hbody
      rw [hzero] at hread
      exact ⟨.empty rfl hread, .inr rfl⟩
    · obtain ⟨hdec', hany⟩ := (readWhen_eq_some_iff _ _ _ _ _).mp hbody
      rw [hone] at hread
      refine ⟨.flagged mid' hread (lenient_withWitness.accepts _ _ hdec'), .inl ?_⟩
      intro hempty
      rw [hempty] at hany
      cases hany
    · cases hbody
  · obtain ⟨vout, hvout, rfl⟩ := (map_eq_some_iff _ _ _ _ _).mp hafter
    exact ⟨.plain mid hnil hread ((lenient_vector lenient_txOut).accepts _ _ hvout), .inl hnil⟩

lemma withWitnessBody_enc : withWitnessBody.enc x = writeVector writeTxIn x.1 ++
      (writeVector writeTxOut x.2 ++ writeWitnesses x.1) := by
  show (vector txIn).enc (x.1.map withoutWitness) ++ ((vector txOut).enc x.2 ++
    (witnesses _).enc (x.1.map (·.scriptWitness))) = _
  rw [vector_txIn_enc_map, witnesses_enc]
  rfl

lemma legacyInOut_le_withWitness (h : x.1 ≠ [] ∨ x.2 = []) :
    (legacyInOut.enc x).length ≤ (withWitnessBody.enc x).length + 2 := by
  rw [withWitnessBody_enc]
  cases hany : anyWitness x.1 with
  | true =>
    rw [legacyInOut_enc_flagged x.1 x.2 hany]
    simp only [List.length_append, List.length_cons, List.length_nil]
    omega
  | false =>
    rw [legacyInOut_enc_plain x.1 x.2 hany h]
    simp only [List.length_append]
    omega

lemma vectorNil_length : ((vector txIn).enc []).length = 1 := rfl

lemma lenient_legacyInOut : Lenient knownInOut legacyInOut where
  accepts := by
    rintro bs ⟨x, rest⟩ h
    obtain ⟨hread, hx⟩ := readsInOut_of_dec bs rest x h
    exact (readWhen_eq_some_iff _ _ _ _ _).mpr ⟨read_of_readsInOut bs rest x hread, hx⟩
  longer := by
    intro bs x rest h
    obtain ⟨hread, hx⟩ := (readWhen_eq_some_iff _ _ _ _ _).mp h
    rcases readsInOut_of_read bs rest x hread with ⟨mid, hvin, h₁, h₂⟩ | ⟨rfl, h₁⟩ | ⟨mid, h₁, h₂⟩
    · obtain ⟨hdomIn, hlength₁⟩ := (lenient_vector lenient_txIn).longer _ _ _ h₁
      obtain ⟨hdomOut, hlength₂⟩ := (lenient_vector lenient_txOut).longer _ _ _ h₂
      obtain ⟨hany, hclear⟩ := map_withoutWitness_of_dom x.1 hdomIn
      refine ⟨legacyInOut_dom x.1 x.2 (by rwa [hclear]) hdomOut ?_ hx, ?_⟩
      · intro txin hmem
        rw [((txIn_dom txin).mp (((vector_dom _ _).mp hdomIn).2 txin hmem)).2.2]
        exact (vector_dom _ _).mpr (by simp)
      · rw [vector_txIn_enc] at hlength₁
        have hout : ((vector txOut).enc x.2).length = (writeVector writeTxOut x.2).length := rfl
        rw [legacyInOut_enc_plain x.1 x.2 hany hx, List.length_append]
        omega
    · obtain ⟨hdomIn, hlength⟩ := (lenient_vector lenient_txIn).longer _ _ _ h₁
      have henc : (legacyInOut.enc ([], [])).length = 2 := by
        rw [legacyInOut_enc_plain [] [] rfl hx]
        rfl
      rw [vectorNil_length, List.length_cons] at hlength
      exact ⟨legacyInOut_dom [] [] hdomIn ((vector_dom _ _).mpr (by simp)) (by simp) hx, by omega⟩
    · obtain ⟨-, hlength₁⟩ := (lenient_vector lenient_txIn).longer _ _ _ h₁
      obtain ⟨⟨⟨hdomIn, hdomOut, -, hwitness⟩, -⟩, hlength₂⟩ := lenient_withWitness.longer _ _ _ h₂
      have hle := legacyInOut_le_withWitness x hx
      rw [vectorNil_length, List.length_cons] at hlength₁
      refine ⟨legacyInOut_dom x.1 x.2 hdomIn hdomOut ?_ hx, by omega⟩
      intro txin hmem
      exact hwitness _ (List.mem_map_of_mem hmem)

def knownLegacy (version : UInt8) : Reader CTransaction := do
  let versionBytes ← readFixed 3
  let x ← knownInOut
  let nLockTime ← uint32.dec
  pure ⟨versionOf (version :: versionBytes), nLockTime, x.1, x.2, []⟩

lemma lenient_legacy : Lenient (knownLegacy version) (legacyBody version) := by
  refine (Lenient.map ((lenient_dec (fixed 3)).seq fun _ => lenient_legacyInOut.seq fun _ =>
    lenient_dec uint32) _ _ _).of_eq ?_
  simp only [knownLegacy, readSeq, bind_assoc, pure_bind]
  rfl

lemma readFixed_three (versionBytes : Bytes) : readFixed 3 bs = some (versionBytes, rest) ↔
      ∃ b₁ b₂ b₃, versionBytes = [b₁, b₂, b₃] ∧ bs = b₁ :: b₂ :: b₃ :: rest := by
  constructor
  · intro h
    obtain ⟨hlength, hbs⟩ := (fixed 3).enc_dec _ _ _ h
    obtain ⟨b₁, b₂, b₃, rfl⟩ := List.length_eq_three.mp hlength
    exact ⟨b₁, b₂, b₃, rfl, hbs⟩
  · rintro ⟨b₁, b₂, b₃, rfl, rfl⟩
    exact (fixed 3).dec_enc [b₁, b₂, b₃] rest rfl

lemma unserializeLegacy_iff :
    unserializeLegacy true version bs = some (mutable tx, rest) ∧ (tx.vin ≠ [] ∨ tx.vout = []) ↔
      knownLegacy version bs = some (tx, rest) := by
  simp only [unserializeLegacy, knownLegacy, knownInOut, bind_eq_some_iff, legacyVersion_eq,
    readWhen_eq_some_iff, readFixed_three, pure_eq_some_iff]
  constructor
  · rintro ⟨⟨b₁, m₁, h₁, b₂, m₂, h₂, b₃, m₃, h₃, x, m₄, h₄, nLockTime, m₅, h₅, htx, rfl⟩, hvin⟩
    obtain ⟨-, rfl⟩ := byte.enc_dec _ _ _ h₁
    obtain ⟨-, rfl⟩ := byte.enc_dec _ _ _ h₂
    obtain ⟨-, rfl⟩ := byte.enc_dec _ _ _ h₃
    have htx' : (⟨versionOf [version, b₁, b₂, b₃], nLockTime, x.1, x.2, []⟩ : CTransaction) = tx :=
      mutable_injective htx
    rw [← htx'] at hvin
    exact ⟨[b₁, b₂, b₃], m₃, ⟨b₁, b₂, b₃, rfl, rfl⟩, x, m₄, ⟨h₄, hvin⟩, nLockTime, m₅,
      h₅, htx', rfl⟩
  · rintro ⟨versionBytes, m₃, ⟨b₁, b₂, b₃, rfl, rfl⟩, x, m₄, ⟨h₄, hx⟩, nLockTime, m₅, h₅, rfl, rfl⟩
    exact ⟨⟨b₁, _, rfl, b₂, _, rfl, b₃, _, rfl, x, m₄, h₄, nLockTime, m₅, h₅, rfl, rfl⟩, hx⟩

def knownTransaction : Reader CTransaction := do
  let bv ← readByte
  if 0xA0 ≤ bv then knownBitcoinC bv else knownLegacy bv

lemma lenient_transaction : Lenient knownTransaction transaction := by
  have hbody : ∀ bv : UInt8, Lenient (if 0xA0 ≤ bv then knownBitcoinC bv else knownLegacy bv)
      (transactionBody bv) := by
    intro bv
    unfold transactionBody
    split
    · exact lenient_bitcoinC bv
    · exact lenient_legacy bv
  refine (Lenient.map ((lenient_dec byte).seq hbody) _ _ _).of_eq ?_
  simp only [knownTransaction, readSeq, bind_assoc, pure_bind, bind_pure]
  rfl

def HasInput (tx : CTransaction) : Prop := tx.isBitcoinCVersion ∨ tx.vin ≠ [] ∨ tx.vout = []

lemma transaction_enc (h : HasInput tx) : transaction.enc tx = serializeTransaction true tx := by
  by_cases hv : tx.isBitcoinCVersion
  · exact bitcoinC_enc tx hv
  · exact legacy_enc tx hv (h.resolve_left hv)

/-- The legacy reader took three bytes of version, inputs and outputs, and the lock time. -/
lemma unserializeLegacy_cases {version : UInt8} {bs rest : Bytes} {tx : CMutableTransaction}
    (h : unserializeLegacy true version bs = some (tx, rest)) :
    ∃ b₁ b₂ b₃ mid m, bs = b₁ :: b₂ :: b₃ :: mid ∧ readInOut true mid =
      some ((tx.vin, tx.vout), m) ∧
      m = uint32Bytes tx.nLockTime ++ rest ∧ tx.nVersion = versionOf [version, b₁, b₂, b₃] := by
  simp only [unserializeLegacy, bind_eq_some_iff, legacyVersion_eq, pure_eq_some_iff] at h
  obtain ⟨b₁, m₁, h₁, b₂, m₂, h₂, b₃, m₃, h₃, x, m₄, h₄, nLockTime, m₅, h₅, rfl, rfl⟩ := h
  obtain ⟨-, rfl⟩ := byte.enc_dec _ _ _ h₁
  obtain ⟨-, rfl⟩ := byte.enc_dec _ _ _ h₂
  obtain ⟨-, rfl⟩ := byte.enc_dec _ _ _ h₃
  exact ⟨b₁, b₂, b₃, m₃, m₄, rfl, h₄, (uint32.enc_dec _ _ _ h₅).2, rfl⟩

lemma not_isBitcoinCVersion_of_legacy {version : UInt8} {bs rest : Bytes} {tx : CTransaction}
    (hv : ¬0xA0 ≤ version) (h : unserializeLegacy true version bs = some (mutable tx, rest)) :
    ¬tx.isBitcoinCVersion := by
  obtain ⟨b₁, b₂, b₃, mid, m, -, -, -, hversion⟩ := unserializeLegacy_cases h
  have hlow : lowByte tx = version := by
    rw [lowByte, show tx.nVersion = _ from hversion]
    exact lowByte_versionOf version [b₁, b₂, b₃] (by simp)
  rw [isBitcoinCVersion_iff, hlow]
  exact hv

lemma isBitcoinCVersion_of_known {version : UInt8} {bs rest : Bytes} {tx : CTransaction}
    (hv : 0xA0 ≤ version) (h : knownBitcoinC version bs = some (tx, rest)) :
    tx.isBitcoinCVersion := by
  have hdom := ((lenient_bitcoinC version).longer _ _ _ h).1
  have hlow : lowByte tx = version := by
    apply lowByte_of_dom
    rwa [transactionBody, if_pos hv]
  rwa [isBitcoinCVersion_iff, hlow]

lemma knownTransaction_iff : knownTransaction bs = some (tx, rest) ↔
      unserializeTransaction true bs = some (mutable tx, rest) ∧ HasInput tx := by
  simp only [knownTransaction, unserializeTransaction, bind_eq_some_iff]
  constructor
  · rintro ⟨bv, mid, hbyte, h⟩
    by_cases hv : 0xA0 ≤ bv
    · rw [if_pos hv] at h
      refine ⟨⟨bv, mid, hbyte, ?_⟩, .inl (isBitcoinCVersion_of_known hv h)⟩
      rw [if_pos hv]
      exact (unserializeBitcoinC_iff _ _ _ _).mpr h
    · rw [if_neg hv] at h
      obtain ⟨hread, hvin⟩ := (unserializeLegacy_iff _ _ _ _).mpr h
      refine ⟨⟨bv, mid, hbyte, ?_⟩, .inr hvin⟩
      rwa [if_neg hv]
  · rintro ⟨⟨bv, mid, hbyte, h⟩, hinput⟩
    refine ⟨bv, mid, hbyte, ?_⟩
    by_cases hv : 0xA0 ≤ bv
    · rw [if_pos hv] at h ⊢
      exact (unserializeBitcoinC_iff _ _ _ _).mp h
    · rw [if_neg hv] at h ⊢
      exact (unserializeLegacy_iff _ _ _ _).mp
        ⟨h, hinput.resolve_left (not_isBitcoinCVersion_of_legacy hv h)⟩

lemma longer_of_no_input {bs rest : Bytes} {tx : CTransaction}
    (h : unserializeTransaction true bs = some (mutable tx, rest)) (hinput : ¬HasInput tx) :
    (serializeTransaction true tx).length + rest.length < bs.length := by
  simp only [HasInput, not_or, not_not] at hinput
  obtain ⟨hversion, hvin, hvout⟩ := hinput
  obtain ⟨bv, mid, hbyte, hbody⟩ := (bind_eq_some_iff _ _ _ _ _).mp h
  obtain ⟨-, rfl⟩ := byte.enc_dec _ _ _ hbyte
  by_cases hv : 0xA0 ≤ bv
  · rw [if_pos hv] at hbody
    exact absurd (isBitcoinCVersion_of_known hv ((unserializeBitcoinC_iff _ _ _ _).mp hbody))
      hversion
  · rw [if_neg hv] at hbody
    obtain ⟨b₁, b₂, b₃, mid', m, rfl, hread, rfl, -⟩ := unserializeLegacy_cases hbody
    have hserialize : (serializeTransaction true tx).length =
        9 + (writeVector writeTxOut tx.vout).length := by
      rw [serializeTransaction, if_neg hversion, serializeLegacyTransaction, hasWitness, hvin]
      simp [uint32Bytes, writeVector, writeCompactSize]
      omega
    rcases readsInOut_of_read _ _ _ hread with ⟨m', hne, -, -⟩ | ⟨hx, -⟩ | ⟨m', h₁, h₂⟩
    · exact absurd hvin hne
    · exact absurd (congrArg Prod.snd hx) hvout
    · obtain ⟨-, hlength₁⟩ := (lenient_vector lenient_txIn).longer _ _ _ h₁
      obtain ⟨-, hlength₂⟩ := lenient_withWitness.longer _ _ _ h₂
      rw [vectorNil_length, List.length_cons] at hlength₁
      rw [withWitnessBody_enc, show (mutable tx).vin = [] from hvin] at hlength₂
      have hnil : (writeVector writeTxIn []).length = 1 := rfl
      have hlock : (uint32Bytes (mutable tx).nLockTime).length = 4 := leBytes_length 4 _
      simp only [List.length_append, hnil, hlock] at hlength₂
      have hbs : (byte.enc bv ++ b₁ :: b₂ :: b₃ :: mid').length = mid'.length + 4 := by
        simp [byte]
      have hout : (writeVector writeTxOut (mutable tx).vout).length =
          (writeVector writeTxOut tx.vout).length := rfl
      omega

end ReadTransaction
