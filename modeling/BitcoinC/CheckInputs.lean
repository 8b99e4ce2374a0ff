import BitcoinC.Coins

/-!
# Script checks and the script execution cache

`CheckInputs` of `validation.cpp`.
-/

namespace CheckInputs

open Primitives Encoding Environment Verdicts TxVerify Anon

abbrev ScriptCache := Uint256 → Bool

def STANDARD_SCRIPT_VERIFY_FLAGS : UInt32 := 0x1FFDF
def STANDARD_NOT_MANDATORY_VERIFY_FLAGS : UInt32 := 0x1FFDE

structure CheckMode where
  fScriptChecks : Bool
  flags : UInt32
  cacheFullScriptStore : Bool
  pvChecks : Bool
  fAnonChecks : Bool := true

structure InputsResult where
  vChecks : List CScriptCheck
  inserted : Option Uint256

section

variable (E : Env) (db : CBlockTreeDB) (pool : CTxMemPool) (coins : CoinMap)
variable (cache : ScriptCache) (tx : CTransaction) (m : CheckMode) (q : InputsResult)

def cacheEntry (tx : CTransaction) (flags : UInt32) : Uint256 :=
  E.sha256 (E.scriptExecutionCacheNonce ++ hashBytes (E.witnessHash tx) ++ uint32Bytes flags)

def scriptCheck (tx : CTransaction) (flags : UInt32) (nIn : Nat) (coin : Coin) : CScriptCheck where
  scriptPubKey := coin.out.scriptPubKey
  vchAmount := if coin.nType = .standard then amountBytes coin.out.nValue else []
  txTo := tx
  nIn := nIn
  nFlags := flags

def runCheck (check : CScriptCheck) : Verdict Unit :=
  match E.verifyScript check with
  | none => .ok ()
  | some err =>
    if check.nFlags &&& STANDARD_NOT_MANDATORY_VERIFY_FLAGS ≠ 0 ∧
        E.verifyScript
          { check with nFlags := check.nFlags &&& ~~~STANDARD_NOT_MANDATORY_VERIFY_FLAGS } =
            none then
      .error (.dos 0 REJECT_NONSTANDARD s!"non-mandatory-script-verify-flag ({err})")
    else .error (.dos 100 REJECT_INVALID s!"mandatory-script-verify-flag-failed ({err})")

def checkInput (tx : CTransaction) (m : CheckMode) (vChecks : List CScriptCheck)
    (x : CTxIn × Nat) : Verdict (List CScriptCheck) :=
  if x.1.isAnonInput then .ok vChecks
  else do
    let coin ← orReject (coins x.1.prevout) (.throws "CheckInputs: coin.IsSpent()")
    if m.pvChecks then pure (vChecks ++ [scriptCheck tx m.flags x.2 coin])
    else do
      runCheck E (scriptCheck tx m.flags x.2 coin)
      pure vChecks

def checkAnonInputs (tx : CTransaction) (fAnonChecks : Bool) : Verdict Unit :=
  if tx.anonInputs ≠ [] ∧ fAnonChecks then verifyMLSAG E db pool tx else .ok ()

def checkInputsMiss (tx : CTransaction) (m : CheckMode) : Verdict InputsResult := do
  let vChecks ← loop (checkInput E coins tx m) [] tx.vin.zipIdx
  checkAnonInputs E db pool tx m.fAnonChecks
  pure ⟨vChecks,
    if m.cacheFullScriptStore && !m.pvChecks then some (cacheEntry E tx m.flags) else none⟩

def checkInputs (cache : ScriptCache) (tx : CTransaction) (m : CheckMode) : Verdict InputsResult :=
  if tx.isCoinBase ∨ m.fScriptChecks = false then .ok ⟨[], none⟩
  else if cache (cacheEntry E tx m.flags) then .ok ⟨[], none⟩
  else checkInputsMiss E db pool coins tx m

def queueSucceeds (vChecks : List CScriptCheck) : Bool :=
  vChecks.all fun check => (E.verifyScript check).isNone

lemma checkInputsMiss_ok_iff : checkInputsMiss E db pool coins tx m = .ok q ↔
      loop (checkInput E coins tx m) [] tx.vin.zipIdx = .ok q.vChecks ∧
        (tx.anonInputs ≠ [] → m.fAnonChecks = true → verifyMLSAG E db pool tx = .ok ()) ∧
        q.inserted =
          if m.cacheFullScriptStore && !m.pvChecks then some (cacheEntry E tx m.flags)
            else none := by
  have hanon : ∀ r : Unit, checkAnonInputs E db pool tx m.fAnonChecks = .ok r ↔
      (tx.anonInputs ≠ [] → m.fAnonChecks = true → verifyMLSAG E db pool tx = .ok ()) := by
    intro r
    unfold checkAnonInputs
    split
    · rename_i hon
      exact ⟨fun h _ _ => h, fun h => h hon.1 hon.2⟩
    · rename_i hoff
      exact ⟨fun _ h₁ h₂ => absurd ⟨h₁, h₂⟩ hoff, fun _ => rfl⟩
  simp only [checkInputsMiss, bind_ok_iff, hanon, pure_ok_iff]
  constructor
  · rintro ⟨vChecks, hchecks, -, hverify, rfl⟩
    exact ⟨hchecks, hverify, rfl⟩
  · rintro ⟨hchecks, hverify, hins⟩
    exact ⟨q.vChecks, hchecks, (), hverify, by rw [← hins]⟩

/-- Without a cache hit, an accepted call with script checks has verified the ring signatures. -/
lemma checkInputs_verified (hscripts : m.fScriptChecks = true) (hanon : m.fAnonChecks = true)
    (hmiss : cache (cacheEntry E tx m.flags) = false) (hne : tx.anonInputs ≠ [])
    (h : checkInputs E db pool coins cache tx m = .ok q) : verifyMLSAG E db pool tx = .ok () := by
  have hcb : ¬ (tx.isCoinBase ∨ m.fScriptChecks = false) := by
    rintro (hcb | hoff)
    · exact hne (tx.anonInputs_of_isCoinBase hcb)
    · rw [hscripts] at hoff
      cases hoff
  rw [checkInputs, if_neg hcb, if_neg (by simp [hmiss])] at h
  exact ((checkInputsMiss_ok_iff E db pool coins tx m q).mp h).2.1 hne hanon

lemma checkInputs_inserted (hstore : m.cacheFullScriptStore = false)
    (h : checkInputs E db pool coins cache tx m = .ok q) : q.inserted = none := by
  unfold checkInputs at h
  split at h
  · rw [← Except.ok.inj h]
  · split at h
    · rw [← Except.ok.inj h]
    · rw [((checkInputsMiss_ok_iff E db pool coins tx m q).mp h).2.2, hstore]
      rfl

end

end CheckInputs
