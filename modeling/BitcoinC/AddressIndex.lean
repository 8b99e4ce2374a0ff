import BitcoinC.RingMaturity
import BitcoinC.UndoBlock

/-!
# The address, unspent and spent indexes

What `ConnectBlock` and `DisconnectBlock` push for the insight indexes and how
`FlushView` writes it, with all three indexes enabled.
-/

namespace AddressIndex

open Primitives Encoding Scripts Environment Verdicts TxVerify Anon Coins Kernel ConnectBlock
  DisconnectBlock KeyedStore ChainRun

def isPayToScriptHash (s : Bytes) : Bool := s.length = 23 && matchPayToScriptHash s 0

def isPayToScriptHash256 (s : Bytes) : Bool := s.length = 35 && matchPayToScriptHash256 s 0

def nonCoinstakePathLoop (s : Bytes) : Nat → Nat → Option Nat → Option Bytes
  | 0, _, _ => none
  | fuel + 1, pc, start =>
    match getScriptOp s pc with
    | none => none
    | some (opcode, _, pc') =>
      match start with
      | none => nonCoinstakePathLoop s fuel pc' (if opcode = OP_ELSE then some pc' else none)
      | some st =>
        if opcode = OP_ENDIF then some (slice s st (pc' - 1))
        else nonCoinstakePathLoop s fuel pc' (some st)

def getNonCoinstakeScriptPath (s : Bytes) : Option Bytes := nonCoinstakePathLoop s s.length 0 none

inductive AddressIndexType
  | unknown
  | pubkeyAddress
  | scriptAddress
  | pubkeyAddress256
  | scriptAddress256
  deriving DecidableEq

def hashAt (s : Bytes) (a b : Nat) : Uint256 := BitVec.ofNat 256 (readLE (slice s a b))

def plainIndexInfo (s : Bytes) : Option (AddressIndexType × Uint256) :=
  if isPayToPublicKeyHash s then some (.pubkeyAddress, hashAt s 3 23)
  else if isPayToScriptHash s then some (.scriptAddress, hashAt s 2 22)
  else if isPayToPublicKeyHash256 s then some (.pubkeyAddress256, hashAt s 3 35)
  else if isPayToScriptHash256 s then some (.scriptAddress256, hashAt s 2 34)
  else none

/-- A spend branch may be conditional in turn; it is always shorter than its script. -/
def extractIndexInfoLoop : Nat → Bytes → Option (AddressIndexType × Uint256)
  | 0, _ => none
  | fuel + 1, s =>
    match (if hasIsCoinstakeOp s then getNonCoinstakeScriptPath s else none) with
    | some path => extractIndexInfoLoop fuel path
    | none => plainIndexInfo s

def extractIndexInfo (s : Bytes) : Option (AddressIndexType × Uint256) :=
  extractIndexInfoLoop s.length s

/-- `index` is cut to 32 bits when it is written, which no vector of inputs or outputs reaches. -/
structure CAddressIndexKey where
  type : AddressIndexType
  hashBytes : Uint256
  blockHeight : Nat
  txindex : Nat
  txhash : Uint256
  index : Nat
  spending : Bool
  deriving DecidableEq

structure CAddressUnspentKey where
  type : AddressIndexType
  hashBytes : Uint256
  txhash : Uint256
  index : UInt32
  deriving DecidableEq

structure CAddressUnspentValue where
  satoshis : Int
  script : Bytes
  blockHeight : Nat
  deriving DecidableEq

def CAddressUnspentValue.null : CAddressUnspentValue := ⟨-1, [], 0⟩

def CAddressUnspentValue.isNull (v : CAddressUnspentValue) : Bool := v.satoshis = -1

structure CSpentIndexValue where
  txid : Uint256
  inputIndex : Nat
  blockHeight : Nat
  satoshis : Int
  addressType : AddressIndexType
  addressHash : Uint256
  deriving DecidableEq

def CSpentIndexValue.null : CSpentIndexValue := ⟨0, 0, 0, 0, .unknown, 0⟩

def CSpentIndexValue.isNull (v : CSpentIndexValue) : Bool := v.txid = 0

structure Pending where
  addressIndex : List (CAddressIndexKey × Int) := []
  addressUnspentIndex : List (CAddressUnspentKey × CAddressUnspentValue) := []
  spentIndex : List (COutPoint × CSpentIndexValue) := []

def Pending.append (P Q : Pending) : Pending where
  addressIndex := P.addressIndex ++ Q.addressIndex
  addressUnspentIndex := P.addressUnspentIndex ++ Q.addressUnspentIndex
  spentIndex := P.spentIndex ++ Q.spentIndex

def gather (Ps : List Pending) : Pending := Ps.foldr Pending.append {}

def unspentKey (info : AddressIndexType × Uint256) (o : COutPoint) : CAddressUnspentKey :=
  ⟨info.1, info.2, o.hash, o.n⟩

section

variable (nHeight : Nat) (txhash : Uint256) (i : Nat)

def addressKey (info : AddressIndexType × Uint256) (index : Nat) (spending : Bool) :
    CAddressIndexKey :=
  ⟨info.1, info.2, nHeight, i, txhash, index, spending⟩

def classified (o : CTxOutBase) : Option (CTxOutStandard × AddressIndexType × Uint256) :=
  o.standard?.bind fun p => (extractIndexInfo p.scriptPubKey).map fun info => (p, info)

def classifiedAt (coins : CoinMap) (o : COutPoint) : Option (Coin × AddressIndexType × Uint256) :=
  (coins o).bind fun coin => (extractIndexInfo coin.out.scriptPubKey).map fun info => (coin, info)

def spendNotes (coins : CoinMap) (x : CTxIn × Nat) : Pending :=
  if x.1.isAnonInput then {}
  else
    match classifiedAt coins x.1.prevout with
    | none => {}
    | some (coin, info) =>
      { addressIndex := [(addressKey nHeight txhash i info x.2 true, -coin.out.nValue)]
        addressUnspentIndex := [(unspentKey info x.1.prevout, .null)]
        spentIndex := [(x.1.prevout, ⟨txhash, x.2, nHeight, coin.out.nValue, info.1, info.2⟩)] }

def receiveNotes (x : CTxOutBase × Nat) : Pending :=
  match classified x.1 with
  | none => {}
  | some (p, info) =>
    { addressIndex := [(addressKey nHeight txhash i info x.2 false, p.nValue)]
      addressUnspentIndex :=
        [(unspentKey info ⟨txhash, UInt32.ofNat x.2⟩, ⟨p.nValue, p.scriptPubKey, nHeight⟩)] }

def connectNotes (coins : CoinMap) (tx : CTransaction) : Pending :=
  (if tx.isCoinBase ∨ ¬ tx.isBitcoinCVersion then {}
    else gather (tx.vin.zipIdx.map (spendNotes nHeight txhash i coins))).append
  (gather (tx.vpout.zipIdx.map (receiveNotes nHeight txhash i)))

def unreceiveNotes (x : CTxOutBase × Nat) : Pending :=
  match classified x.1 with
  | none => {}
  | some (p, info) =>
    { addressIndex := [(addressKey nHeight txhash i info x.2 false, p.nValue)]
      addressUnspentIndex := [(unspentKey info ⟨txhash, UInt32.ofNat x.2⟩, .null)] }

def unspendNotes (coins : CoinMap) (x : CTxIn × Nat) : Pending :=
  if x.1.isAnonInput then {}
  else
    match classifiedAt coins x.1.prevout with
    | none => { spentIndex := [(x.1.prevout, .null)] }
    | some (coin, info) =>
      { addressIndex := [(addressKey nHeight txhash i info x.2 true, -coin.out.nValue)]
        addressUnspentIndex := [(unspentKey info x.1.prevout,
          ⟨coin.out.nValue, coin.out.scriptPubKey, coin.nHeight⟩)]
        spentIndex := [(x.1.prevout, .null)] }

end

section

variable (E : Env)

def connectTxIndexed (G : NodeState) (C : BlockContext) :
    BlockState × Pending → CTransaction × Nat → Except Failure (BlockState × Pending) :=
  carry (connectTx E G C) fun s _ x P =>
    P.append (connectNotes C.pindex.nHeight (E.txHash x.1) x.2 s.view.coins x.1)

def connectBlockIndexed (G : NodeState) (C : BlockContext) (view : CCoinsViewCache) (b : CBlock) :
    Except Failure (Connected × Pending) := do
  relabel (Failure.at view) (checkBefore E G C view b)
  let s ← loop (connectTxIndexed E G C) ({ view }, {}) b.vtx.zipIdx
  relabel (Failure.at s.1.view) (checkAfter E G C b s.1)
  pure (finish E C b s.1, s.2)

section

variable (db : CBlockTreeDB) (pindex : CBlockIndex)

def undoOutputIndexed (txhash : Uint256) (i : Nat) (fCoinBase : Bool) :
    UndoState × Pending → CTxOutBase × Nat → Verdict (UndoState × Pending) :=
  carry (undoOutput db pindex txhash fCoinBase) fun _ _ x P =>
    P.append (unreceiveNotes pindex.nHeight txhash i x)

def restoreInputIndexed (txhash : Uint256) (i : Nat) (txundo : CTxUndo) :
    UndoState × Pending → CTxIn × Nat → Verdict (UndoState × Pending) :=
  carry (restoreInput txundo) fun _ t x P =>
    P.append (unspendNotes pindex.nHeight txhash i t.view.coins x)

def restoreInputsIndexed (blockUndo : CBlockUndo) (s : UndoState × Pending)
    (x : CTransaction × Nat) : Verdict (UndoState × Pending) :=
  match s.1.nVtxundo with
  | 0 => .error (.error "transaction undo data offset out of range")
  | n + 1 => do
    let txundo ← orReject (blockUndo.vtxundo[n]?)
      (.error "transaction undo data offset out of range")
    rejectIf (txundo.vprevout.length ≠ (x.1.vin.filter fun txin => ¬ txin.isAnonInput).length)
      (.error "transaction and undo data inconsistent")
    loop (restoreInputIndexed pindex (E.txHash x.1) x.2 txundo) ({ s.1 with nVtxundo := n }, s.2)
      x.1.vin.zipIdx.reverse

def undoTxIndexed (blockUndo : CBlockUndo) (s : UndoState × Pending) (x : CTransaction × Nat) :
    Verdict (UndoState × Pending) := do
  let view ← relabel Failure.reject (loop (pushKeyImages (E.txHash x.1)) s.1.view x.1.vin)
  let t ← loop (undoOutputIndexed db pindex (E.txHash x.1) x.2 (isCoinBaseOrStake x.1))
    ({ s.1 with view }, s.2) x.1.vpout.zipIdx.reverse
  if x.1.isCoinBase then .ok t else restoreInputsIndexed E pindex blockUndo t x

def disconnectBlockIndexed (branch : List CBlockIndex) (view : CCoinsViewCache) (b : CBlock)
    (undo : Option CBlockUndo) : Verdict ((CCoinsViewCache × Bool) × Pending) := do
  rejectIf (pindex.hashBlock ≠ view.hashBlock) (.throws "DisconnectBlock: GetBestBlock")
  let blockUndo ← orReject undo (.error "failure reading undo data")
  rejectIf (blockUndo.vtxundo.length ≠ b.vtx.length ∧
      blockUndo.vtxundo.length ≠ (b.vtx.filter fun tx => ¬ tx.isCoinBase).length)
    (.error "block and undo data inconsistent")
  let s ← loop (undoTxIndexed E db pindex blockUndo) (⟨view, true, blockUndo.vtxundo.length⟩, {})
    b.vtx.zipIdx.reverse
  let pprev ← orReject branch.head? (.throws "DisconnectBlock: pindex->pprev")
  pure (({ s.1.view with hashBlock := pprev.hashBlock }, s.1.fClean), s.2)

end

structure Indexes where
  addressIndex : CAddressIndexKey → Option Int
  addressUnspentIndex : CAddressUnspentKey → Option CAddressUnspentValue
  spentIndex : COutPoint → Option CSpentIndexValue

def Indexes.empty : Indexes := ⟨fun _ => none, fun _ => none, fun _ => none⟩

def updateAddressUnspentIndex : (CAddressUnspentKey → Option CAddressUnspentValue) →
    List (CAddressUnspentKey × CAddressUnspentValue) →
    CAddressUnspentKey → Option CAddressUnspentValue :=
  updateAll CAddressUnspentValue.isNull

def updateSpentIndex : (COutPoint → Option CSpentIndexValue) →
    List (COutPoint × CSpentIndexValue) → COutPoint → Option CSpentIndexValue :=
  updateAll CSpentIndexValue.isNull

def flushIndexes (fDisconnecting : Bool) (I : Indexes) (P : Pending) : Indexes where
  addressIndex := if fDisconnecting then eraseAll I.addressIndex (P.addressIndex.map Prod.fst)
    else putAll I.addressIndex P.addressIndex
  addressUnspentIndex := updateAddressUnspentIndex I.addressUnspentIndex P.addressUnspentIndex
  spentIndex := updateSpentIndex I.spentIndex P.spentIndex

structure IndexedState where
  state : ChainState
  indexes : Indexes

def IndexedState.empty : IndexedState := ⟨.empty, .empty⟩

def connectTipIndexed (S : IndexedState) (a : ConnectStep) : Verdict IndexedState := do
  let c ← relabel Failure.reject (connectBlockIndexed (withProcess E a.around.process)
    (S.state.node a.around) (S.state.context a) S.state.view a.block)
  pure ⟨⟨⟨a.block, c.1.pindex, c.1.undo⟩ :: S.state.chain, c.1.view.coins,
    flushConnected S.state.db c.1.view⟩, flushIndexes false S.indexes c.2⟩

def disconnectTipIndexed (S : IndexedState) (A : Surroundings) : Verdict IndexedState :=
  match S.state.chain with
  | [] => .error (.throws "DisconnectTip: pindexDelete")
  | e :: rest => do
    let r ← disconnectBlockIndexed (withProcess E A.process) S.state.db e.pindex
      (rest.map (·.pindex)) S.state.view e.block e.undo
    rejectIf (r.1.2 = false) (.error "DisconnectTip(): DisconnectBlock failed")
    pure ⟨⟨rest, r.1.1.coins, flushDisconnected S.state.db r.1.1⟩, flushIndexes true S.indexes r.2⟩

def indexedStep (S : IndexedState) : ChainStep → Verdict IndexedState
  | .connect a => connectTipIndexed E S a
  | .disconnect A => disconnectTipIndexed E S A

end

end AddressIndex
