import BitcoinC.ToyEnvironment

/-!
# The receiver of a standard output

Outside a coinbase a standard output carries a signature of its receiver. The
check recovers a key for each of two hashes and compares each with an id; for a
plain script the second hash and id are null.
-/

namespace OutputAuthority

open Primitives Encoding Scripts Environment Verdicts TxVerify

variable (E : Env)
variable (tx : CTransaction) (p : CTxOutStandard)

/-- A key id that a script names, by itself or by one of its two conditional branches. -/
def Names (s : Bytes) (k : Uint160) : Prop :=
  extractStakingKeyID E.keyIDOf256 s = some k ∨
    ∃ scripts, splitConditionalCoinstakeScript s = some scripts ∧
      (extractStakingKeyID E.keyIDOf256 scripts.1 = some k ∨
        extractStakingKeyID E.keyIDOf256 scripts.2 = some k)

/-- A key named by the output's script is the one that is recovered from its signature. -/
def Authorised (tx : CTransaction) (p : CTxOutStandard) : Prop :=
  ∃ k key, Names E p.scriptPubKey k ∧
    E.recoverCompact (signatureHashStakingOutput E k p.nValue tx.vin) p.vecSignature = some key ∧
    E.getID (some key) = k

/-- A plain script to the key of the dev fund selected at the clock. -/
def PaysDevFund (p : CTxOutStandard) : Prop :=
  ¬ hasIsCoinstakeOp p.scriptPubKey ∧ ∃ k settings,
    extractStakingKeyID E.keyIDOf256 p.scriptPubKey = some k ∧
    E.getDevFundSettings (Int.bmod E.nAdjustedTime (2 ^ 32)) = some settings ∧
    settings.keyID = some k

/-- The comparison that the check makes for an id: what is recovered for it has that id, which an
unset key has as well if it is the id of no bytes. -/
def Compared (tx : CTransaction) (p : CTxOutStandard) (k : Uint160) : Prop :=
  E.getID (E.recoverCompact (signatureHashStakingOutput E k p.nValue tx.vin) p.vecSignature) = k

/-- No id that the script names is that of a key that was never set, and the key recovered for the
null hash does not have the null id. -/
structure Unambiguous (p : CTxOutStandard) : Prop where
  named : ∀ k, Names E p.scriptPubKey k → k ≠ E.getID none
  null : E.getID (E.recoverCompact 0 p.vecSignature) ≠ 0

lemma not_paysDevFund
    (hnone : (E.getDevFundSettings (Int.bmod E.nAdjustedTime (2 ^ 32))).map (·.keyID) = some none) :
    ¬ PaysDevFund E p := by
  rintro ⟨-, k, settings, -, hsettings, hkey⟩
  rw [hsettings, Option.map_some, hkey] at hnone
  cases hnone

lemma checkTransaction_staking (fBulletproofsActive : Bool) (tx : CTransaction)
    (fCheckDuplicateInputs : Bool) (r : Unit) (hcb : ¬ tx.isCoinBase)
    (h : checkTransaction E fBulletproofsActive tx fCheckDuplicateInputs = .ok r)
    (p : CTxOutStandard) (hp : .standard p ∈ tx.vpout) :
    checkStakingOutput E (Int.bmod E.nAdjustedTime (2 ^ 32)) tx p = .ok () := by
  obtain ⟨-, -, -, houts, -⟩ := checkTransaction_ok E _ _ _ _ h
  obtain ⟨-, -, fConvert, total, hloop⟩ := checkOutputs_ok E _ _ _ houts
  obtain ⟨m, m', hstep⟩ := loop_ok_mem _ _ _ _ hloop _ hp
  simp only [checkOutput, checkOutputBody, checkStandardOutput, if_neg hcb, bind_ok_iff] at hstep
  obtain ⟨-, ⟨-, -, -, -, -, -, -, -, u, hstaking, -⟩, -⟩ := hstep
  exact hstaking

/-- What the two comparisons leave: an id is that of a recovered key, or of a key that was never
set. -/
lemma checkStakingSignature_ok (keyID1 keyID2 : Uint160) (nSigHash1 nSigHash2 : Uint256) (r : Unit)
    (h : checkStakingSignature E p keyID1 keyID2 nSigHash1 nSigHash2 = .ok r) :
    E.getID (E.recoverCompact nSigHash1 p.vecSignature) = keyID1 ∨
      E.getID (E.recoverCompact nSigHash2 p.vecSignature) = keyID2 := by
  simp only [checkStakingSignature, bind_ok_iff, rejectIf_ok_iff] at h
  obtain ⟨-, -, hids⟩ := h
  by_contra hnone
  exact hids (not_or.mp hnone)

lemma authorised_of_compared (k : Uint160) (hnames : Names E p.scriptPubKey k)
    (hset : k ≠ E.getID none) (hid : Compared E tx p k) : Authorised E tx p := by
  unfold Compared at hid
  cases hkey : E.recoverCompact (signatureHashStakingOutput E k p.nValue tx.vin) p.vecSignature with
  | none =>
    rw [hkey] at hid
    exact absurd hid.symm hset
  | some key =>
    rw [hkey] at hid
    exact ⟨k, key, hnames, hkey, hid⟩

/-- An accepted output meets the comparison for an id that its script names, or, of a plain script,
the null id. -/
lemma compared_of_accepted (fBulletproofsActive : Bool) (tx : CTransaction)
    (fCheckDuplicateInputs : Bool) (r : Unit) (hcb : ¬ tx.isCoinBase)
    (h : checkTransaction E fBulletproofsActive tx fCheckDuplicateInputs = .ok r)
    (p : CTxOutStandard) (hp : .standard p ∈ tx.vpout) (hdev : ¬ PaysDevFund E p) :
    (∃ k, Names E p.scriptPubKey k ∧ Compared E tx p k) ∨
      (¬ hasIsCoinstakeOp p.scriptPubKey ∧ E.getID (E.recoverCompact 0 p.vecSignature) = 0) := by
  have hcheck := checkTransaction_staking E _ tx _ r hcb h p hp
  unfold checkStakingOutput at hcheck
  by_cases hcs : hasIsCoinstakeOp p.scriptPubKey
  · simp only [if_pos hcs, bind_ok_iff, orReject_ok_iff] at hcheck
    obtain ⟨scripts, hsplit, k1, hk1, k2, hk2, hsig⟩ := hcheck
    rcases checkStakingSignature_ok E p _ _ _ _ _ hsig with hid | hid
    · exact .inl ⟨k1, .inr ⟨scripts, hsplit, .inl hk1⟩, hid⟩
    · exact .inl ⟨k2, .inr ⟨scripts, hsplit, .inr hk2⟩, hid⟩
  · simp only [if_neg hcs, bind_ok_iff, orReject_ok_iff] at hcheck
    obtain ⟨k, hk, settings, hsettings, hrest⟩ := hcheck
    have hnotdev : settings.keyID ≠ some k := fun hkey => hdev ⟨hcs, k, settings, hk,
      hsettings, hkey⟩
    rw [if_neg hnotdev] at hrest
    rcases checkStakingSignature_ok E p _ _ _ _ _ hrest with hid | hid
    · exact .inl ⟨k, .inl hk, hid⟩
    · exact .inr ⟨hcs, hid⟩

/-- A comparison is met without a key of the receiver: the script names the id of an unset key and
no key is recovered for it, or the script is plain and the null id is met by chance. -/
def UnsetMet (tx : CTransaction) (p : CTxOutStandard) : Prop :=
  (∃ k, Names E p.scriptPubKey k ∧ k = E.getID none ∧
      E.recoverCompact (signatureHashStakingOutput E k p.nValue tx.vin) p.vecSignature = none) ∨
    (¬ hasIsCoinstakeOp p.scriptPubKey ∧ E.getID (E.recoverCompact 0 p.vecSignature) = 0)

/-- An accepted output that is not authorised met its comparison without a key. -/
lemma unset_of_not_authorised (tx : CTransaction) (p : CTxOutStandard)
    (hcompared : (∃ k, Names E p.scriptPubKey k ∧ Compared E tx p k) ∨
      (¬ hasIsCoinstakeOp p.scriptPubKey ∧ E.getID (E.recoverCompact 0 p.vecSignature) = 0))
    (hnot : ¬ Authorised E tx p) : UnsetMet E tx p := by
  refine hcompared.imp_left fun ⟨k, hnames, hid⟩ => ?_
  have hunset : k = E.getID none := by
    by_contra hset
    exact hnot (authorised_of_compared E tx p k hnames hset hid)
  refine ⟨k, hnames, hunset, ?_⟩
  by_contra hsome
  obtain ⟨key, hkey⟩ := Option.ne_none_iff_exists'.mp hsome
  rw [Compared, hkey] at hid
  exact hnot ⟨k, key, hnames, hkey, hid⟩

lemma authorised_of_unambiguous (fBulletproofsActive : Bool) (tx : CTransaction)
    (fCheckDuplicateInputs : Bool) (r : Unit) (hcb : ¬ tx.isCoinBase)
    (h : checkTransaction E fBulletproofsActive tx fCheckDuplicateInputs = .ok r)
    (p : CTxOutStandard) (hp : .standard p ∈ tx.vpout) (hdev : ¬ PaysDevFund E p)
    (hclear : Unambiguous E p) : Authorised E tx p := by
  by_contra hnot
  rcases unset_of_not_authorised E tx p (compared_of_accepted E _ tx _ r hcb h p hp hdev) hnot with
    ⟨k, hnames, hunset, -⟩ | ⟨-, hnull⟩
  · exact hclear.named k hnames hunset
  · exact hclear.null hnull

section

open ToyEnvironment

def keyEnv : Env := { env with hash160 := fun bs => BitVec.ofNat 160 (polyHash bs + 1) }

def paying (p : CTxOutStandard) : CTransaction :=
  { nVersion := 0xA0, vin := [spend 5 0], vpout := [.standard p] }

def signedOutput : CTxOutStandard :=
  { nValue := 1000
    scriptPubKey := p2pkh (keyEnv.getID (some (keyBytes 3)))
    vecSignature := keyBytes 3 ++ List.replicate 32 0 }

/-- A signature from which no key can be recovered for any hash but the null one: for `r` of a point
`R = k G` and `s = z / k`, the key for the hash `z` would be the point at infinity. -/
def stuckEnv : Env :=
  { keyEnv with ecdsaRecover := fun h sig => if h = 0 then some (sig.take 33) else none }

def unsetOutput : CTxOutStandard :=
  { nValue := 1000
    scriptPubKey := p2pkh (stuckEnv.getID none)
    vecSignature := keyBytes 3 ++ List.replicate 32 0 }

end

end OutputAuthority
