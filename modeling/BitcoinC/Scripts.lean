import BitcoinC.Encoding

/-!
# Script shapes

The parts of `script/script.cpp`, `script/interpreter.cpp` and
`script/standard.cpp` that validation uses without running a script: reading one
operation, the fixed payment patterns, the split of a conditional coinstake script
into its two branches and the key id that stakes an output.
-/

namespace Scripts

open Primitives Encoding

def OP_PUSHDATA1 : UInt8 := 0x4c
def OP_PUSHDATA2 : UInt8 := 0x4d
def OP_PUSHDATA4 : UInt8 := 0x4e
def OP_IF : UInt8 := 0x63
def OP_ELSE : UInt8 := 0x67
def OP_ENDIF : UInt8 := 0x68
def OP_RETURN : UInt8 := 0x6a
def OP_DUP : UInt8 := 0x76
def OP_EQUAL : UInt8 := 0x87
def OP_EQUALVERIFY : UInt8 := 0x88
def OP_SHA256 : UInt8 := 0xa8
def OP_HASH160 : UInt8 := 0xa9
def OP_CHECKSIG : UInt8 := 0xac
def OP_CHECKSIGVERIFY : UInt8 := 0xad
def OP_CHECKMULTISIG : UInt8 := 0xae
def OP_CHECKMULTISIGVERIFY : UInt8 := 0xaf
def OP_ISCOINSTAKE : UInt8 := 0xb8

def MAX_SCRIPT_SIZE : Nat := 10000
def MAX_PUBKEYS_PER_MULTISIG : Nat := 20

def pushSize (opcode : UInt8) (rest : Bytes) : Option (Nat × Nat) :=
  if opcode < OP_PUSHDATA1 then some (opcode.toNat, 0)
  else
    let k := if opcode = OP_PUSHDATA1 then 1 else if opcode = OP_PUSHDATA2 then 2 else 4
    if rest.length < k then none else some (readLE (rest.take k), k)

/-- `GetScriptOp`: the operation at `pc`, the bytes it pushes and the position after it. -/
def getScriptOp (s : Bytes) (pc : Nat) : Option (UInt8 × Bytes × Nat) :=
  match s.drop pc with
  | [] => none
  | opcode :: rest =>
    if opcode ≤ OP_PUSHDATA4 then
      match pushSize opcode rest with
      | none => none
      | some (nSize, k) =>
        if rest.length - k < nSize then none
        else some (opcode, (rest.drop k).take nSize, pc + 1 + k + nSize)
    else some (opcode, [], pc + 1)

def hasIsCoinstakeOp (s : Bytes) : Prop :=
  (getScriptOp s 0).map (·.1) = some OP_ISCOINSTAKE

instance (s : Bytes) : Decidable (hasIsCoinstakeOp s) :=
  inferInstanceAs (Decidable (_ = _))

def isUnspendable (s : Bytes) : Prop := s.head? = some OP_RETURN ∨ MAX_SCRIPT_SIZE < s.length

instance (s : Bytes) : Decidable (isUnspendable s) :=
  inferInstanceAs (Decidable (_ ∨ _))

def matchPayToPublicKeyHash (s : Bytes) (ofs : Nat) : Bool :=
  25 ≤ s.length - ofs && s[ofs]? = some OP_DUP && s[ofs + 1]? = some OP_HASH160 &&
    s[ofs + 2]? = some 0x14 && s[ofs + 23]? = some OP_EQUALVERIFY &&
    s[ofs + 24]? = some OP_CHECKSIG

def matchPayToPublicKeyHash256 (s : Bytes) (ofs : Nat) : Bool :=
  37 ≤ s.length - ofs && s[ofs]? = some OP_DUP && s[ofs + 1]? = some OP_SHA256 &&
    s[ofs + 2]? = some 0x20 && s[ofs + 35]? = some OP_EQUALVERIFY &&
    s[ofs + 36]? = some OP_CHECKSIG

def matchPayToScriptHash (s : Bytes) (ofs : Nat) : Bool :=
  23 ≤ s.length - ofs && s[ofs]? = some OP_HASH160 && s[ofs + 1]? = some 0x14 &&
    s[ofs + 22]? = some OP_EQUAL

def matchPayToScriptHash256 (s : Bytes) (ofs : Nat) : Bool :=
  35 ≤ s.length - ofs && s[ofs]? = some OP_SHA256 && s[ofs + 1]? = some 0x20 &&
    s[ofs + 34]? = some OP_EQUAL

def isPayToPublicKeyHash (s : Bytes) : Bool := s.length = 25 && matchPayToPublicKeyHash s 0

def isPayToPublicKeyHash256 (s : Bytes) : Bool := s.length = 37 && matchPayToPublicKeyHash256 s 0

/-- The three `_CS` patterns: a pay-to-pubkey-hash coinstake branch and a spend
branch of `len` bytes that `spend` recognises. -/
def isConditionalCoinstake (len : Nat) (spend : Bytes → Nat → Bool) (s : Bytes) : Bool :=
  s.length = 25 + len + 4 && s[0]? = some OP_ISCOINSTAKE && s[1]? = some OP_IF &&
    matchPayToPublicKeyHash s 2 && s[27]? = some OP_ELSE && spend s 28 &&
    s[25 + len + 3]? = some OP_ENDIF

def isPayToPublicKeyHash256CS : Bytes → Bool :=
  isConditionalCoinstake 37 matchPayToPublicKeyHash256

def isPayToScriptHash256CS : Bytes → Bool := isConditionalCoinstake 35 matchPayToScriptHash256

def isPayToScriptHashCS : Bytes → Bool := isConditionalCoinstake 23 matchPayToScriptHash

def isSpendScriptP2PKHLoop (s : Bytes) : Nat → Nat → Bool
  | 0, _ => false
  | fuel + 1, pc =>
    match getScriptOp s pc with
    | none => false
    | some (opcode, _, pc') =>
      if opcode = OP_ELSE then matchPayToPublicKeyHash s pc'
      else isSpendScriptP2PKHLoop s fuel pc'

def isSpendScriptP2PKH (s : Bytes) : Bool := isSpendScriptP2PKHLoop s s.length 0

def slice (s : Bytes) (a b : Nat) : Bytes := (s.take b).drop a

/-- The scan of `SplitConditionalCoinstakeScript`: `start` is set once the marker has
been seen, `scriptA` once its branch is complete. -/
def splitLoop (s : Bytes) : Nat → Nat → Option Nat → Option Bytes → Option (Bytes × Bytes)
  | 0, _, _, _ => none
  | fuel + 1, pc, start, scriptA =>
    match getScriptOp s pc with
    | none => none
    | some (opcode, _, pc') =>
      match start with
      | none =>
        -- the operation after the marker is skipped without being looked at
        if opcode = OP_ISCOINSTAKE then splitLoop s fuel (pc' + 1) (some (pc' + 1)) scriptA
        else splitLoop s fuel pc' none scriptA
      | some st =>
        match scriptA with
        | some a =>
          if opcode = OP_ENDIF then some (a, slice s st (pc' - 1))
          else if opcode = OP_ELSE then
            splitLoop s fuel pc' (some pc') (some (slice s st (pc' - 1)))
          else splitLoop s fuel pc' (some st) (some a)
        | none =>
          if opcode = OP_ELSE then
            splitLoop s fuel pc' (some pc') (some (slice s st (pc' - 1)))
          else splitLoop s fuel pc' (some st) none

def splitConditionalCoinstakeScript (s : Bytes) : Option (Bytes × Bytes) :=
  splitLoop s s.length 0 none none

def keyIDAt (s : Bytes) (ofs : Nat) : Uint160 := BitVec.ofNat 160 (readLE (slice s ofs (ofs + 20)))

def extractStakingKeyID (keyIDOf256 : Uint256 → Uint160) (s : Bytes) : Option Uint160 :=
  if isPayToPublicKeyHash s then some (keyIDAt s 3)
  else if isPayToPublicKeyHash256 s then
    some (keyIDOf256 (BitVec.ofNat 256 (readLE (slice s 3 35))))
  else if isPayToPublicKeyHash256CS s || isPayToScriptHash256CS s || isPayToScriptHashCS s then
    some (keyIDAt s 5)
  else none

def getSigOpCountLoop (s : Bytes) : Nat → Nat → Nat
  | 0, _ => 0
  | fuel + 1, pc =>
    match getScriptOp s pc with
    | none => 0
    | some (opcode, _, pc') =>
      (if opcode = OP_CHECKSIG ∨ opcode = OP_CHECKSIGVERIFY then 1
        else if opcode = OP_CHECKMULTISIG ∨ opcode = OP_CHECKMULTISIGVERIFY then
          MAX_PUBKEYS_PER_MULTISIG
        else 0) + getSigOpCountLoop s fuel pc'

def getSigOpCount (s : Bytes) : Nat := getSigOpCountLoop s s.length 0

end Scripts
