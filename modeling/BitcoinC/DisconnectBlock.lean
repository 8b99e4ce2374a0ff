import BitcoinC.ConnectBlock

/-!
# Disconnecting a block

`CChainState::DisconnectBlock`, `ApplyTxInUndo` and the disconnecting half of
`FlushView`.
-/

namespace DisconnectBlock

open Primitives Scripts Environment Verdicts TxVerify Anon Coins ConnectBlock KeyedStore

/-- The metadata of a restored coin. Height 0 is read as missing metadata and replaced by that of
another unspent output of the transaction. -/
def undoMetadata (coins : CoinMap) (undo : Coin) (txid : Uint256) : Verdict Coin :=
  if undo.nHeight = 0 then do
    let alternate ← orReject (accessByTxid coins txid) (.error "ApplyTxInUndo failed")
    pure { undo with nHeight := alternate.nHeight, fCoinBase := alternate.fCoinBase }
  else .ok undo

def applyTxInUndo (coins : CoinMap) (undo : Coin) (out : COutPoint) : Verdict (CoinMap × Bool) := do
  let fClean := (coins out).isNone
  let coin ← undoMetadata coins undo out.hash
  let coins' ← addCoin (!fClean) coins (out, coin)
  pure (coins', fClean)

/-- The variables of the loop over the transactions; `nVtxundo` counts the undo records that are
left. -/
structure UndoState where
  view : CCoinsViewCache
  fClean : Bool
  nVtxundo : Nat

section

variable (E : Env) (db : CBlockTreeDB) (pindex : CBlockIndex)

def checkLastOutput (view : CCoinsViewCache) (pk : CCmpPubKey) : Verdict CCoinsViewCache :=
  if view.nLastRCTOutput = 0 then do
    rejectIf (view.fForceDisconnect = false ∧
        (db.rctOutput pindex.nAnonOutputs).map (fun ao => comparedKey ao.pubkey) ≠
          some (comparedKey pk))
      (.error "RCT output missing or mismatch")
    pure { view with nLastRCTOutput := pindex.nAnonOutputs }
  else .ok view

def unindexOutput (pk : CCmpPubKey) (view : CCoinsViewCache) : CCoinsViewCache :=
  { view with
    anonOutputLinks := setLink view.anonOutputLinks (comparedKey pk) view.nLastRCTOutput
    nLastRCTOutput := view.nLastRCTOutput - 1 }

def expectedCoin (fCoinBase : Bool) (p : CTxOutStandard) (coin : Coin) : Bool :=
  coin.out = ⟨p.nValue, p.scriptPubKey⟩ && coin.nHeight = pindex.nHeight && coin.fCoinBase =
    fCoinBase

def undoOutput (txhash : Uint256) (fCoinBase : Bool) (s : UndoState) (x : CTxOutBase × Nat) :
    Verdict UndoState :=
  match x.1 with
  | .ringCT p => do
    let view ← checkLastOutput db pindex s.view p.pk
    pure { s with view := unindexOutput p.pk view }
  | .standard p =>
    if isUnspendable p.scriptPubKey then .ok s
    else
      let op : COutPoint := ⟨txhash, UInt32.ofNat x.2⟩
      .ok { s with
        view := { s.view with coins := erase s.view.coins op }
        fClean := s.fClean && (s.view.coins op).any (expectedCoin pindex fCoinBase p) }
  | .data _ => .ok s

def restoreInput (txundo : CTxUndo) (s : UndoState) (x : CTxIn × Nat) : Verdict UndoState :=
  if x.1.isAnonInput then .ok s
  else do
    let undo ← orReject (txundo.vprevout[x.2]?) (.throws "DisconnectBlock: vprevout")
    let r ← applyTxInUndo s.view.coins undo x.1.prevout
    pure { s with view := { s.view with coins := r.1 }, fClean := s.fClean && r.2 }

def restoreInputs (blockUndo : CBlockUndo) (s : UndoState) (tx : CTransaction) :
    Verdict UndoState :=
  match s.nVtxundo with
  | 0 => .error (.error "transaction undo data offset out of range")
  | n + 1 => do
    let txundo ← orReject (blockUndo.vtxundo[n]?)
      (.error "transaction undo data offset out of range")
    rejectIf (txundo.vprevout.length ≠ (tx.vin.filter fun txin => ¬ txin.isAnonInput).length)
      (.error "transaction and undo data inconsistent")
    loop (restoreInput txundo) { s with nVtxundo := n } tx.vin.zipIdx.reverse

def undoTx (blockUndo : CBlockUndo) (s : UndoState) (tx : CTransaction) : Verdict UndoState := do
  let view ← relabel Failure.reject (loop (pushKeyImages (E.txHash tx)) s.view tx.vin)
  let t ← loop (undoOutput db pindex (E.txHash tx) (isCoinBaseOrStake tx)) { s with view }
    tx.vpout.zipIdx.reverse
  if tx.isCoinBase then .ok t else restoreInputs blockUndo t tx

def disconnectBlock (branch : List CBlockIndex) (view : CCoinsViewCache) (b : CBlock)
    (undo : Option CBlockUndo) : Verdict (CCoinsViewCache × Bool) := do
  rejectIf (pindex.hashBlock ≠ view.hashBlock) (.throws "DisconnectBlock: GetBestBlock")
  let blockUndo ← orReject undo (.error "failure reading undo data")
  rejectIf (blockUndo.vtxundo.length ≠ b.vtx.length ∧
      blockUndo.vtxundo.length ≠ (b.vtx.filter fun tx => ¬ tx.isCoinBase).length)
    (.error "block and undo data inconsistent")
  let s ← loop (undoTx E db pindex blockUndo) ⟨view, true, blockUndo.vtxundo.length⟩ b.vtx.reverse
  let pprev ← orReject branch.head? (.throws "DisconnectBlock: pindex->pprev")
  pure ({ s.view with hashBlock := pprev.hashBlock }, s.fClean)

end

def flushDisconnected (db : CBlockTreeDB) (view : CCoinsViewCache) : CBlockTreeDB where
  rctOutput := eraseAll db.rctOutput (view.anonOutputLinks.map Prod.snd)
  rctOutputLink := eraseAll db.rctOutputLink (view.anonOutputLinks.map fun x => storedKey x.1)
  rctKeyImage := eraseAll db.rctKeyImage (view.keyImages.map Prod.fst)

end DisconnectBlock
