import BitcoinC.CurveKeys
import BitcoinC.Encoding

/-!
# Derivation of child keys

`CExtKeyPair::Derive` with and without the secret (`key/extkey.cpp`, `key.cpp`, `pubkey.cpp`). A
key that is not valid is missing; the hashes are arbitrary functions.
-/

namespace KeyDerivation

open Primitives Encoding CurveKeys

structure CExtKeyPair where
  nDepth : UInt8
  vchFingerprint : Bytes
  nChild : UInt32
  chaincode : Bytes
  key : Option Uint256
  pubkey : Bytes

def CExtKeyPair.neutered (k : CExtKeyPair) : CExtKeyPair := { k with key := none }

/-- `Hash160`, and HMAC-SHA512 as its two halves. -/
structure Hashes where
  hash160 : Bytes → Bytes
  hmacSha512 : Bytes → Bytes → Uint256 × Bytes

section

variable {G : Type} {q : Nat} [AddCommGroup G] [Module (ZMod q) G] [DecidableEq G] (C : Curve G q)
  (H : Hashes)

def bip32Hash (chaincode : Bytes) (nChild : UInt32) (data : Bytes) : Uint256 × Bytes :=
  H.hmacSha512 chaincode (data ++ (leBytes 4 nChild.toNat).reverse)

/-- `CKey::Derive`: the child and its chain code. -/
def deriveKey (key : Uint256) (nChild : UInt32) (cc : Bytes) : Option (Uint256 × Bytes) := do
  let vout := bip32Hash H cc nChild
    (if nChild.toNat >>> 31 = 0 then C.getPubKey key else 0 :: (leBytes 32 key.toNat).reverse)
  let keyChild ← C.privkeyTweakAdd key vout.1
  pure (keyChild, vout.2)

/-- `CPubKey::Derive`. -/
def derivePubKey (pubkey : Bytes) (nChild : UInt32) (cc : Bytes) : Option (Bytes × Bytes) := do
  let out := bip32Hash H cc nChild pubkey
  let P ← C.pubkeyParse pubkey
  let R ← C.pubkeyTweakAdd P out.1
  pure (C.serialize R, out.2)

/-- `Derive` for a `CExtKey`, from which the pair is made again with its public key. -/
def derivePrivate (k : CExtKeyPair) (nChild : UInt32) : Option CExtKeyPair := do
  let key ← k.key
  let child ← deriveKey C H key nChild k.chaincode
  pure { nDepth := k.nDepth + 1, vchFingerprint := (H.hash160 (C.getPubKey key)).take 4, nChild,
         chaincode := child.2, key := some child.1, pubkey := C.getPubKey child.1 }

/-- `Derive` for a `CExtPubKey`, from which the pair is made again without a key. -/
def derivePublic (k : CExtKeyPair) (nChild : UInt32) : Option CExtKeyPair :=
  let made := fun child : Bytes × Bytes =>
    { nDepth := k.nDepth + 1, vchFingerprint := (H.hash160 k.pubkey).take 4, nChild,
      chaincode := child.2, key := none, pubkey := child.1 : CExtKeyPair }
  if nChild.toNat >>> 31 = 0 then (derivePubKey C H k.pubkey nChild k.chaincode).map made
  else do
    let key ← k.key
    let tkey ← deriveKey C H key nChild k.chaincode
    pure (made (C.getPubKey tkey.1, tkey.2))

end

/-- Derivation along a path; an error is the part of the path from the step that failed. -/
def derivePath (derive : CExtKeyPair → UInt32 → Option CExtKeyPair) :
    CExtKeyPair → List UInt32 → Except (List UInt32) CExtKeyPair
  | k, [] => .ok k
  | k, nChild :: path =>
    match derive k nChild with
    | none => .error (nChild :: path)
    | some child => derivePath derive child path

section

variable {G : Type} {q : Nat} [AddCommGroup G] [Module (ZMod q) G] [Fact q.Prime] (C : Curve G q)
  (H : Hashes)

/-- An extended private key: the secret is valid and the public key is its own. -/
def IsPrivate (k : CExtKeyPair) : Prop :=
  ∃ key, k.key = some key ∧ C.SeckeyVerify key ∧ k.pubkey = C.getPubKey key

variable {C H} {k : CExtKeyPair} {nChild : UInt32}

lemma IsPrivate.derivePrivate {child : CExtKeyPair} (h : derivePrivate C H k nChild = some child) :
    IsPrivate C child := by
  simp only [KeyDerivation.derivePrivate, deriveKey, Option.bind_eq_bind, Option.bind_eq_some_iff]
    at h
  obtain ⟨key, -, made, ⟨keyChild, hadd, hmade⟩, hchild⟩ := h
  cases hmade
  cases hchild
  exact ⟨keyChild, rfl, C.seckeyVerify_of_tweakAdd hadd, rfl⟩

variable [DecidableEq G]

lemma derive_commutes (hk : IsPrivate C k) (hchild : nChild.toNat >>> 31 = 0) :
    (derivePrivate C H k nChild).map CExtKeyPair.neutered = derivePublic C H k.neutered nChild := by
  obtain ⟨key, hkey, hvalid, hpub⟩ := hk
  have hadd := C.map_point_privkeyTweakAdd key (bip32Hash H k.chaincode nChild (C.getPubKey key)).1
  simp only [derivePrivate, derivePublic, deriveKey, derivePubKey, CExtKeyPair.neutered, hkey, hpub,
    hchild, if_true, C.pubkeyParse_getPubKey hvalid, ← hadd, Option.bind_eq_bind, Option.bind_some]
  cases C.privkeyTweakAdd key (bip32Hash H k.chaincode nChild (C.getPubKey key)).1 <;> rfl

/-- Along a path of unhardened children, derivation with the secret and then neutering is
derivation from the neutered key, and both fail at the same step. -/
theorem derivePath_commutes (hk : IsPrivate C k) (path : List UInt32)
    (hpath : ∀ nChild ∈ path, nChild.toNat >>> 31 = 0) :
    (derivePath (derivePrivate C H) k path).map CExtKeyPair.neutered =
      derivePath (derivePublic C H) k.neutered path := by
  induction path generalizing k with
  | nil => rfl
  | cons nChild path ih =>
    have hstep := derive_commutes (H := H) hk (hpath nChild List.mem_cons_self)
    rw [derivePath, derivePath, ← hstep]
    cases hderive : derivePrivate C H k nChild with
    | none => rfl
    | some child =>
      exact ih (.derivePrivate hderive) fun n hn => hpath n (List.mem_cons_of_mem _ hn)

end

def pairSeven : CExtKeyPair := ⟨0, [], 0, [], some 2, seven.getPubKey 2⟩

def hashesSeven : Hashes := ⟨id, fun _ _ => (3, [])⟩

theorem derivePath_commutes_pairSeven :
    (derivePath (derivePublic seven hashesSeven) pairSeven.neutered [5, 1]).map CExtKeyPair.pubkey =
      .ok (seven.getPubKey 1) := by
  have hprime : Fact (Nat.Prime 7) := ⟨by decide⟩
  have hprivate : IsPrivate seven pairSeven := ⟨2, rfl, by decide, rfl⟩
  rw [← derivePath_commutes hprivate [5, 1] (by simp)]
  decide +kernel

end KeyDerivation
