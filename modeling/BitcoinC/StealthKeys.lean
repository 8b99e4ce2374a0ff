import BitcoinC.CurveKeys

/-!
# Stealth keys

Sender and receiver of a stealth output (`key/stealth.cpp`); `hash` stands for SHA-256 of a point.
-/

namespace StealthKeys

open Primitives CurveKeys

section

variable {G : Type} {q : Nat} [AddCommGroup G] [Module (ZMod q) G] (C : Curve G q)
  (hash : G → Uint256)

def ecdh (Q : G) (secret : Uint256) : Option Uint256 :=
  if C.SeckeyVerify secret then some (hash ((secret.toNat : ZMod q) • Q)) else none

/-- Both sides hash the same point. -/
lemma ecdh_comm {d e : Uint256} (hd : C.SeckeyVerify d) (he : C.SeckeyVerify e) :
    ecdh C hash (C.point e) d = ecdh C hash (C.point d) e := by
  rw [ecdh, ecdh, if_pos hd, if_pos he, Curve.point, Curve.point, smul_smul, smul_smul, mul_comm]

variable [DecidableEq G]

def stealthSecret (secret : Uint256) (pubkey pkSpend : Bytes) : Option (Uint256 × Bytes) := do
  let Q ← C.pubkeyParse pubkey
  let R ← C.pubkeyParse pkSpend
  let sharedS ← ecdh C hash Q secret
  let R' ← C.pubkeyTweakAdd R sharedS
  pure (sharedS, C.serialize R')

def stealthSecretSpend (scanSecret : Uint256) (ephemPubkey : Bytes) (spendSecret : Uint256) :
    Option Uint256 := do
  let P ← C.pubkeyParse ephemPubkey
  let tmp32 ← ecdh C hash P scanSecret
  C.privkeyTweakAdd spendSecret tmp32

def stealthSharedToSecretSpend (sharedS spendSecret : Uint256) : Option Uint256 := do
  let secretOut ← C.privkeyTweakAdd spendSecret sharedS
  if C.SeckeyVerify secretOut then pure secretOut else none

def stealthSharedToPublicKey (pkSpend : Bytes) (sharedS : Uint256) : Option Bytes := do
  let R ← C.pubkeyParse pkSpend
  let R' ← C.pubkeyTweakAdd R sharedS
  pure (C.serialize R')

/-- Whenever the sender has a key for the output, the receiver finds the same shared secret and
key, and its secret. -/
theorem stealth_keys_agree [Fact q.Prime] {d e f : Uint256} (hd : C.SeckeyVerify d)
    (hf : C.SeckeyVerify f) (he : C.SeckeyVerify e) {sharedS : Uint256} {pkOut : Bytes}
    (hsend : stealthSecret C hash e (C.getPubKey d) (C.getPubKey f) = some (sharedS, pkOut)) :
    stealthSecret C hash d (C.getPubKey e) (C.getPubKey f) = some (sharedS, pkOut) ∧
    stealthSharedToPublicKey C (C.getPubKey f) sharedS = some pkOut ∧
    ∃ secretOut, stealthSecretSpend C hash d (C.getPubKey e) f = some secretOut ∧
      stealthSharedToSecretSpend C sharedS f = some secretOut ∧ C.getPubKey secretOut = pkOut := by
  simp only [stealthSecret, stealthSharedToPublicKey, stealthSecretSpend,
    stealthSharedToSecretSpend,
    C.pubkeyParse_getPubKey hd, C.pubkeyParse_getPubKey hf, C.pubkeyParse_getPubKey he,
    Option.bind_eq_bind, Option.bind_some, ecdh_comm C hash hd he] at hsend ⊢
  refine ⟨hsend, ?_⟩
  obtain ⟨c, hc, hsend⟩ := Option.bind_eq_some_iff.mp hsend
  obtain ⟨R', hR, hout⟩ := Option.bind_eq_some_iff.mp hsend
  cases hout
  have hadd := C.map_point_privkeyTweakAdd f sharedS
  rw [hR] at hadd
  obtain ⟨r, hr, hpoint⟩ := Option.map_eq_some_iff.mp hadd
  refine ⟨by rw [hR]; rfl, r, ?_, ?_, ?_⟩
  · rw [hc, Option.bind_some, hr]
  · rw [hr, Option.bind_some, if_pos (C.seckeyVerify_of_tweakAdd hr)]
    rfl
  · rw [Curve.getPubKey, hpoint]

end

theorem stealth_keys_agree_seven :
    stealthSharedToPublicKey seven (seven.getPubKey 3) 6 = some (seven.getPubKey 2) := by
  have hprime : Fact (Nat.Prime 7) := ⟨by decide⟩
  exact (stealth_keys_agree seven (fun P => BitVec.ofNat 256 P.val) (d := 2) (e := 3) (f := 3)
    (by decide) (by decide) (by decide) (by decide +kernel)).2.1

end StealthKeys
