import BitcoinC.Primitives

/-!
# Keys on a curve

A cyclic group of prime order with an encoding of its points, as the key functions use
secp256k1. A secret is a number of 32 bytes, valid below the order and not zero.
-/

namespace CurveKeys

open Primitives

structure Curve (G : Type*) (q : Nat) [AddCommGroup G] where
  g : G
  g_ne_zero : g ≠ 0
  order_lt : q < 2 ^ 256
  serialize : G → Bytes
  length_serialize : ∀ P, (serialize P).length = 33
  parse : Bytes → Option G
  parse_serialize : ∀ P, P ≠ 0 → parse (serialize P) = some P

namespace Curve

variable {G : Type*} {q : Nat} [AddCommGroup G] (C : Curve G q)

def SeckeyVerify (_ : Curve G q) (s : Uint256) : Prop := 0 < s.toNat ∧ s.toNat < q

instance (s : Uint256) : Decidable (C.SeckeyVerify s) := inferInstanceAs (Decidable (_ ∧ _))

def pubkeyParse (b : Bytes) : Option G := if b.length = 33 then C.parse b else none

def privkeyTweakAdd (_ : Curve G q) (s t : Uint256) : Option Uint256 :=
  if q ≤ t.toNat ∨ (s.toNat + t.toNat) % q = 0 then none
  else some (BitVec.ofNat 256 ((s.toNat + t.toNat) % q))

include C in
lemma toNat_reduced [Fact q.Prime] (n : Nat) : (BitVec.ofNat 256 (n % q)).toNat = n % q := by
  rw [BitVec.toNat_ofNat]
  exact Nat.mod_eq_of_lt ((Nat.mod_lt n (Fact.out : q.Prime).pos).trans C.order_lt)

lemma seckeyVerify_of_tweakAdd [Fact q.Prime] {s t r : Uint256}
    (h : C.privkeyTweakAdd s t = some r) : C.SeckeyVerify r := by
  unfold privkeyTweakAdd at h
  split at h
  · cases h
  rename_i hok
  obtain rfl := Option.some.inj h
  rw [SeckeyVerify, C.toNat_reduced]
  exact ⟨Nat.pos_of_ne_zero fun h0 => hok (.inr h0), Nat.mod_lt _ (Fact.out : q.Prime).pos⟩

variable [Module (ZMod q) G]

def point (s : Uint256) : G := (s.toNat : ZMod q) • C.g

def getPubKey (s : Uint256) : Bytes := C.serialize (C.point s)

def pubkeyTweakAdd [DecidableEq G] (P : G) (t : Uint256) : Option G :=
  if q ≤ t.toNat ∨ P + C.point t = 0 then none else some (P + C.point t)

variable [Fact q.Prime]

lemma smul_g_eq_zero_iff (n : Nat) : (n : ZMod q) • C.g = 0 ↔ n % q = 0 := by
  rw [smul_eq_zero, or_iff_left C.g_ne_zero, ZMod.natCast_eq_zero_iff, Nat.dvd_iff_mod_eq_zero]

lemma pubkeyParse_getPubKey {s : Uint256} (h : C.SeckeyVerify s) :
    C.pubkeyParse (C.getPubKey s) = some (C.point s) := by
  have hne : C.point s ≠ 0 := by
    rw [point, Ne, smul_g_eq_zero_iff, Nat.mod_eq_of_lt h.2]
    exact h.1.ne'
  rw [pubkeyParse, getPubKey, if_pos (C.length_serialize _), C.parse_serialize _ hne]

/-- Adding to the secret and to the public point agree, also on when they fail. -/
lemma map_point_privkeyTweakAdd [DecidableEq G] (s t : Uint256) :
    (C.privkeyTweakAdd s t).map C.point = C.pubkeyTweakAdd (C.point s) t := by
  have hsum : C.point s + C.point t = ((s.toNat + t.toNat : Nat) : ZMod q) • C.g := by
    rw [point, point, ← add_smul, Nat.cast_add]
  simp only [privkeyTweakAdd, pubkeyTweakAdd, hsum, smul_g_eq_zero_iff]
  split
  · rfl
  · rw [Option.map_some, point, C.toNat_reduced, ZMod.natCast_mod]

end Curve

/-- The group of order 7, the last byte of an encoding being the number. -/
def seven : Curve (ZMod 7) 7 where
  g := 1
  g_ne_zero := by decide
  order_lt := by decide
  serialize P := 2 :: List.replicate 31 0 ++ [UInt8.ofNat P.val]
  length_serialize _ := rfl
  parse b := some ((b.getLast?.getD 0).toNat : ZMod 7)
  parse_serialize := by decide

end CurveKeys
