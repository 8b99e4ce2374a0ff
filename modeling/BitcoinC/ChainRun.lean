import BitcoinC.RingRecords

/-!
# Runs of the chain state

`ConnectTip` and `DisconnectTip` as steps of a chain state: a block is connected
to or disconnected from a fresh view over the tip, and the view is flushed.
-/

namespace ChainRun

open Primitives Environment Verdicts TxVerify Anon Coins CheckInputs Kernel ConnectBlock
  DisconnectBlock KeyedStore RingRecords

structure ChainBlock where
  block : CBlock
  pindex : CBlockIndex
  undo : Option CBlockUndo

structure ChainState where
  chain : List ChainBlock
  coins : CoinMap
  db : CBlockTreeDB

def ChainState.empty : ChainState := ⟨[], fun _ => none, .empty⟩

def ChainState.branch (S : ChainState) : List CBlockIndex := S.chain.map (·.pindex)

def ChainState.view (S : ChainState) : CCoinsViewCache :=
  { coins := S.coins, hashBlock := bestBlock S.branch }

/-- The rest of the node during a step. The chain does not change while `VerifyDB` runs. -/
structure Surroundings where
  process : Process
  mempool : CTxMemPool
  scriptCache : ScriptCache
  txOnDisk : Uint256 → Option (CTransaction × CBlockHeader)
  coinStakeOf : Uint256 → Option CTransaction
  fScriptChecks : Bool
  notVerifying : process.fVerifyingDB = false

structure ConnectStep where
  around : Surroundings
  block : CBlock
  pindex : CBlockIndex

inductive ChainStep
  | connect (a : ConnectStep)
  | disconnect (around : Surroundings)

def withProcess (E : Env) (P : Process) : Env := { E with toProcess := P }

section

variable (E : Env)
variable (S T : ChainState) (a : ConnectStep)

def ChainState.node (S : ChainState) (A : Surroundings) : NodeState where
  chainActive := S.branch
  coinsTip := S.coins
  db := S.db
  mempool := A.mempool
  scriptCache := A.scriptCache
  txOnDisk := A.txOnDisk
  coinStakeOf := A.coinStakeOf

def ChainState.context (S : ChainState) (a : ConnectStep) : BlockContext :=
  { branch := S.branch, pindex := a.pindex, fScriptChecks := a.around.fScriptChecks }

def connectStep (S : ChainState) (a : ConnectStep) : Except Failure Connected :=
  connectBlock (withProcess E a.around.process) (S.node a.around) (S.context a) S.view a.block

def connectTip (S : ChainState) (a : ConnectStep) : Verdict ChainState := do
  let c ← relabel Failure.reject (connectStep E S a)
  pure ⟨⟨a.block, c.pindex, c.undo⟩ :: S.chain, c.view.coins, flushConnected S.db c.view⟩

def disconnectTip (S : ChainState) (A : Surroundings) : Verdict ChainState :=
  match S.chain with
  | [] => .error (.throws "DisconnectTip: pindexDelete")
  | e :: rest => do
    let r ← disconnectBlock (withProcess E A.process) S.db e.pindex (rest.map (·.pindex)) S.view
      e.block e.undo
    rejectIf (r.2 = false) (.error "DisconnectTip(): DisconnectBlock failed")
    pure ⟨rest, r.1.coins, flushDisconnected S.db r.1⟩

def chainStep (S : ChainState) : ChainStep → Verdict ChainState
  | .connect a => connectTip E S a
  | .disconnect A => disconnectTip E S A

lemma connectTip_ok_iff : connectTip E S a = .ok T ↔
      ∃ c, connectStep E S a = .ok c ∧
        T = ⟨⟨a.block, c.pindex, c.undo⟩ :: S.chain, c.view.coins, flushConnected S.db c.view⟩ := by
  simp only [connectTip, bind_ok_iff, relabel_ok_iff, pure_ok_iff, eq_comm (a := T)]

lemma disconnectTip_ok (A : Surroundings) (h : disconnectTip E S A = .ok T) :
    ∃ e rest view, S.chain = e :: rest ∧
      disconnectBlock (withProcess E A.process) S.db e.pindex (rest.map (·.pindex)) S.view e.block
        e.undo = .ok (view, true) ∧
      T = ⟨rest, view.coins, flushDisconnected S.db view⟩ := by
  unfold disconnectTip at h
  split at h
  · cases h
  · rename_i e rest hchain
    simp only [bind_ok_iff, rejectIf_ok_iff, pure_ok_iff] at h
    obtain ⟨⟨view, fClean⟩, hdisc, -, hclean, rfl⟩ := h
    obtain rfl : fClean = true := by simpa using hclean
    exact ⟨e, rest, view, hchain, hdisc, rfl⟩

lemma view_fresh : S.view.Fresh := ⟨rfl, rfl, rfl, rfl, rfl⟩

lemma connectStep_nHeight (c : Connected) (h : connectStep E S a = .ok c) :
    c.pindex.nHeight = a.pindex.nHeight := by
  obtain ⟨-, s, -, -, rfl⟩ := (connectBlock_ok_iff _ _ _ _ _ _).mp h
  show (stakedIndex _ _ _).nHeight = _
  unfold stakedIndex
  split <;> rfl

def blockKeyImages (b : CBlock) : List (CCmpPubKey × Uint256) := b.vtx.flatMap (keyImageRecords E)

def chainKeyImages : List ChainBlock → List (CCmpPubKey × Uint256)
  | [] => []
  | e :: rest => chainKeyImages rest ++ blockKeyImages E e.block

def chainRecords : List ChainBlock → List CAnonOutput
  | [] => []
  | e :: rest => chainRecords rest ++ blockRecords E e.pindex.nHeight e.block

lemma connectTip_keyImages (h : connectTip E S a = .ok T) :
    T.db.rctKeyImage = putAll S.db.rctKeyImage (blockKeyImages E a.block) ∧
      chainKeyImages E T.chain = chainKeyImages E S.chain ++ blockKeyImages E a.block := by
  obtain ⟨c, hc, rfl⟩ := (connectTip_ok_iff E S T a).mp h
  have hkis := (connectBlock_keyImages _ _ _ _ _ _ hc).1
  refine ⟨?_, rfl⟩
  show putAll S.db.rctKeyImage c.view.keyImages = _
  rw [hkis]
  rfl

end

end ChainRun
