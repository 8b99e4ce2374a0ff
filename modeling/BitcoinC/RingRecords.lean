import BitcoinC.DisconnectBlock
import BitcoinC.LogIndex

/-!
# The RingCT records of a block

What connecting a block appends to the pending key images and RingCT outputs of a
view, and what disconnecting it lists for erasure.
-/

namespace RingRecords

open Primitives Environment Verdicts Anon Coins Kernel Blocks ConnectBlock DisconnectBlock LogIndex
  List

def ringRecord (txhash : Uint256) (nHeight : Nat) (x : CTxOutBase × Nat) : Option CAnonOutput :=
  x.1.ringCT?.map fun p => ⟨p.pk, p.commitment, ⟨txhash, UInt32.ofNat x.2⟩, nHeight, 0⟩

/-- The key of a record in the map of links. -/
def linkKey (r : CAnonOutput) : CCmpPubKey := comparedKey r.pubkey

section

variable (E : Env)

def ringRecords (nHeight : Nat) (tx : CTransaction) : List CAnonOutput :=
  tx.vpout.zipIdx.filterMap (ringRecord (E.txHash tx) nHeight)

def keyImageRecords (tx : CTransaction) : List (CCmpPubKey × Uint256) :=
  (txKeyImages tx).map fun ki => (ki, E.txHash tx)

lemma keyImageRecords_eq_nil (tx : CTransaction) (h : tx.anonInputs = []) :
    keyImageRecords E tx = [] := by
  rw [keyImageRecords, txKeyImages, h]
  rfl

lemma mem_ringRecords (nHeight : Nat) (tx : CTransaction) (r : CAnonOutput)
    (h : r ∈ ringRecords E nHeight tx) :
    ∃ p ∈ tx.ringCTOutputs, r.pubkey = p.pk ∧ r.commitment = p.commitment := by
  obtain ⟨x, hx, hr⟩ := mem_filterMap.mp h
  obtain ⟨p, hp, rfl⟩ := Option.map_eq_some_iff.mp hr
  exact ⟨p, mem_filterMap.mpr ⟨x.1, fst_mem_of_mem_zipIdx hx, hp⟩, rfl, rfl⟩

lemma pushKeyImages_loop_ok_iff (txhash : Uint256) (vin : List CTxIn)
    (view view' : CCoinsViewCache) : loop (pushKeyImages txhash) view vin = .ok view' ↔
      (∀ txin ∈ vin, txin.isAnonInput → (anonKeyImages txin).isSome) ∧
        view' = { view with
          keyImages := view.keyImages ++
            ((vin.filter fun txin => txin.isAnonInput).flatMap fun txin =>
              (anonKeyImages txin).getD []).map fun ki => (ki, txhash) } := by
  induction vin generalizing view with
  | nil =>
    simp only [loop_nil, Except.ok.injEq, filter_nil, flatMap_nil, map_nil, append_nil]
    constructor
    · rintro rfl
      exact ⟨by simp, rfl⟩
    · rintro ⟨-, rfl⟩
      rfl
  | cons txin vin ih =>
    rw [loop_cons_ok_iff, forall_mem_cons]
    by_cases hanon : txin.isAnonInput
    · cases hkis : anonKeyImages txin with
      | none => simp [pushKeyImages, hanon, hkis]
      | some kis => simp [pushKeyImages, hanon, hkis, ih, append_assoc]
    · simp [pushKeyImages, hanon, ih]

variable (G : NodeState) (C : BlockContext)
variable (view : CCoinsViewCache) (b : CBlock) (c : Connected)

lemma pushOutput_ringCT_ok (txhash : Uint256) (x : CTxOutBase × Nat) (p : CTxOutRingCT)
    (view view' : CCoinsViewCache) (hx : x.1.ringCT? = some p)
    (h : pushOutput E G C txhash view x = .ok view') : view' = indexOutput C txhash p x.2 view ∧
      (E.fVerifyingDB = false →
        G.db.rctOutputLink (storedKey p.pk) = none ∧
          comparedKey p.pk ∉ view.anonOutputLinks.map Prod.fst) := by
  simp only [pushOutput, hx] at h
  split at h
  · rename_i hverify
    exact ⟨(Except.ok.inj h).symm, fun hno => absurd hverify (by simp [hno])⟩
  · split at h
    · cases h
    · rename_i hlink
      split at h
      · cases h
      · rename_i hview
        exact ⟨(Except.ok.inj h).symm, fun _ => ⟨hlink, hview⟩⟩

lemma ringRecord_none {txhash : Uint256} {nHeight : Nat} {x : CTxOutBase × Nat}
    (hx : x.1.ringCT? = none) : ringRecord txhash nHeight x = none := by simp [ringRecord, hx]

lemma ringRecord_some {txhash : Uint256} {nHeight : Nat} {x : CTxOutBase × Nat} {p : CTxOutRingCT}
    (hx : x.1.ringCT? = some p) : ringRecord txhash nHeight x =
      some ⟨p.pk, p.commitment, ⟨txhash, UInt32.ofNat x.2⟩, nHeight, 0⟩ := by simp [ringRecord, hx]

lemma pushOutputs_ok (txhash : Uint256) (xs : List (CTxOutBase × Nat))
    (view view' : CCoinsViewCache) (h : loop (pushOutput E G C txhash) view xs = .ok view') :
    view' = { view with
      nLastRCTOutput := view.nLastRCTOutput +
        (xs.filterMap (ringRecord txhash C.pindex.nHeight)).length
      anonOutputs := view.anonOutputs ++
        numbered view.nLastRCTOutput (xs.filterMap (ringRecord txhash C.pindex.nHeight))
      anonOutputLinks := view'.anonOutputLinks } := by
  induction xs generalizing view with
  | nil =>
    rw [loop_nil, Except.ok.injEq] at h
    simp [← h]
  | cons x xs ih =>
    obtain ⟨m, hm, hrest⟩ := (loop_cons_ok_iff _ _ _ _ _).mp h
    have hrec := ih m hrest
    cases hx : x.1.ringCT? with
    | none =>
      simp only [pushOutput, hx, Except.ok.injEq] at hm
      subst hm
      rw [filterMap_cons_none (ringRecord_none hx)]
      exact hrec
    | some p =>
      rw [filterMap_cons_some (ringRecord_some hx)]
      rw [(pushOutput_ringCT_ok E G C txhash x p view m hx hm).1] at hrec
      have hn : view.nLastRCTOutput +
            (((xs.filterMap (ringRecord txhash C.pindex.nHeight)).length + 1 : Nat) : Int) =
          view.nLastRCTOutput + 1 + (xs.filterMap (ringRecord txhash C.pindex.nHeight)).length := by
        omega
      rw [hrec]
      simp only [indexOutput, numbered, append_assoc, singleton_append, length_cons, hn]

lemma pushOutputs_links (hverify : E.fVerifyingDB = false) (txhash : Uint256)
    (xs : List (CTxOutBase × Nat)) (view view' : CCoinsViewCache)
    (hnodup : (view.anonOutputLinks.map Prod.fst).Nodup)
    (h : loop (pushOutput E G C txhash) view xs = .ok view') :
    view'.anonOutputLinks = view.anonOutputLinks ++
        links linkKey view.nLastRCTOutput
          (xs.filterMap (ringRecord txhash C.pindex.nHeight)) ∧
      (view'.anonOutputLinks.map Prod.fst).Nodup ∧
      ∀ r ∈ xs.filterMap (ringRecord txhash C.pindex.nHeight),
        G.db.rctOutputLink (storedKey r.pubkey) = none := by
  induction xs generalizing view with
  | nil =>
    cases h
    simpa using hnodup
  | cons x xs ih =>
    obtain ⟨m, hm, hrest⟩ := (loop_cons_ok_iff _ _ _ _ _).mp h
    cases hx : x.1.ringCT? with
    | none =>
      simp only [pushOutput, hx, Except.ok.injEq] at hm
      subst hm
      rw [filterMap_cons_none (ringRecord_none hx)]
      exact ih view hnodup hrest
    | some p =>
      obtain ⟨rfl, hfresh⟩ := pushOutput_ringCT_ok E G C txhash x p view m hx hm
      obtain ⟨hdb, hview⟩ := hfresh hverify
      have hset : setLink view.anonOutputLinks (comparedKey p.pk) (view.nLastRCTOutput + 1) =
          view.anonOutputLinks ++ [(comparedKey p.pk, view.nLastRCTOutput + 1)] := by
        rw [setLink, filter_eq_self.mpr]
        intro link hlink
        have : link.1 ≠ comparedKey p.pk := fun heq => hview (heq ▸ mem_map_of_mem hlink)
        simpa using this
      obtain ⟨hlinks, hnodup', hnone⟩ := ih (indexOutput C txhash p x.2 view) (by
        simp only [indexOutput, hset, map_append, map_cons, map_nil]
        exact nodup_append'.mpr ⟨hnodup, nodup_singleton _, by simpa using hview⟩) hrest
      rw [filterMap_cons_some (ringRecord_some hx), links_cons, forall_mem_cons]
      refine ⟨?_, hnodup', hdb, hnone⟩
      rw [hlinks]
      simp only [indexOutput, hset, append_assoc, singleton_append, linkKey]

lemma startIndex_frame :
    startIndex C view = { view with nLastRCTOutput := (startIndex C view).nLastRCTOutput } := by
  unfold startIndex
  split <;> rfl

lemma indexRingCT_cases (m t : BlockState) (tx : CTransaction)
    (h : indexRingCT E G C m tx = .ok t) :
    (m.fHasAnon = false ∧ t = { m with view := startIndex C m.view }) ∨
      (∀ txin ∈ tx.vin, txin.isAnonInput → (anonKeyImages txin).isSome) ∧
        t = { m with view := t.view } ∧ loop (pushOutput E G C (E.txHash tx))
          { startIndex C m.view with keyImages := m.view.keyImages ++ keyImageRecords E tx }
          tx.vpout.zipIdx = .ok t.view := by
  unfold indexRingCT at h
  split at h
  · simp only [bind_ok_iff, pure_ok_iff] at h
    obtain ⟨v, hv, w, hw, rfl⟩ := h
    obtain ⟨hsome, rfl⟩ := (pushKeyImages_loop_ok_iff _ _ _ _).mp hv
    rw [startIndex_frame] at hw ⊢
    exact Or.inr ⟨hsome, rfl, hw⟩
  · rename_i hoff
    exact Or.inl ⟨by simpa using hoff, (Except.ok.inj h).symm⟩

lemma indexRingCT_frame (m t : BlockState) (tx : CTransaction)
    (h : indexRingCT E G C m tx = .ok t) :
    t = { m with view := t.view } ∧ t.view.coins = m.view.coins ∧
      t.view.hashBlock = m.view.hashBlock := by
  rcases indexRingCT_cases E G C m t tx h with ⟨-, rfl⟩ | ⟨-, hview, hloop⟩
  · rw [startIndex_frame]
    exact ⟨rfl, rfl, rfl⟩
  · refine ⟨hview, ?_⟩
    rw [pushOutputs_ok E G C _ _ _ _ hloop, startIndex_frame]
    exact ⟨rfl, rfl⟩

lemma connectTx_coins (s t : BlockState) (x : CTransaction × Nat)
    (h : connectTx E G C s x = .ok t) :
    ∃ undo, updateCoins (E.txHash x.1) s.view.coins x.1 C.pindex.nHeight =
        .ok (t.view.coins, undo) ∧
      t.vtxundo = s.vtxundo ++ if x.1.isCoinBase then [] else [undo] := by
  obtain ⟨m, hm, hindex⟩ := (connectTx_ok_iff E G C s t x).mp h
  obtain ⟨undo, hupdate, -, hundo⟩ := applyTx_coins E G C s m x hm
  obtain ⟨hframe, hview, -⟩ := indexRingCT_frame E G C m t x.1 hindex
  have hsame : t.vtxundo = m.vtxundo := by rw [hframe]
  exact ⟨undo, hview ▸ hupdate, hsame ▸ hundo⟩

lemma connectTx_inserted (hjust : C.fJustCheck = false) (s t : BlockState)
    (x : CTransaction × Nat) (h : connectTx E G C s x = .ok t) : t.inserted = s.inserted := by
  obtain ⟨m, hm, hindex⟩ := (connectTx_ok_iff E G C s t x).mp h
  obtain ⟨hframe, -, -⟩ := indexRingCT_frame E G C m t x.1 hindex
  rw [hframe]
  exact applyTx_inserted E G C hjust s m x hm

lemma connectBlock_inserted (hjust : C.fJustCheck = false) (view : CCoinsViewCache) (b : CBlock)
    (c : Connected) (h : connectBlock E G C view b = .ok c) : c.inserted = [] := by
  obtain ⟨-, t, hloop, -, rfl⟩ := (connectBlock_ok_iff E G C view b c).mp h
  rw [finish, if_neg (by simp [hjust])]
  exact loop_induction (connectTx E G C) (fun s => s.inserted = []) _
    (fun s t x _ hs hstep => (connectTx_inserted E G C hjust s t x hstep).trans hs) _ t rfl hloop

lemma indexRingCT_keyImages (m t : BlockState) (tx : CTransaction)
    (hidle : m.fHasAnon = false → tx.anonInputs = []) (h : indexRingCT E G C m tx = .ok t) :
    t.view.keyImages = m.view.keyImages ++ keyImageRecords E tx ∧
      ∀ txin ∈ tx.anonInputs, (anonKeyImages txin).isSome := by
  rcases indexRingCT_cases E G C m t tx h with ⟨hoff, rfl⟩ | ⟨hsome, -, hloop⟩
  · rw [keyImageRecords_eq_nil E tx (hidle hoff), hidle hoff, startIndex_frame]
    simp
  · rw [pushOutputs_ok E G C _ _ _ _ hloop]
    refine ⟨rfl, ?_⟩
    intro txin hmem
    rw [CTransaction.anonInputs, mem_filter, decide_eq_true_eq] at hmem
    exact hsome txin hmem.1 hmem.2

lemma pushOutputs_of_no_ringCT (txhash : Uint256) (xs : List (CTxOutBase × Nat))
    (view : CCoinsViewCache) (h : ∀ x ∈ xs, x.1.ringCT? = none) :
    loop (pushOutput E G C txhash) view xs = .ok view := by
  induction xs with
  | nil => rfl
  | cons x xs ih =>
    rw [forall_mem_cons] at h
    rw [loop_cons_ok_iff]
    refine ⟨view, ?_, ih h.2⟩
    simp only [pushOutput, h.1]

/-- If it is off only for transactions without RingCT outputs, indexing is a run over the
outputs. -/
lemma indexRingCT_outputs (m t : BlockState) (tx : CTransaction)
    (hidle : m.fHasAnon = false → tx.anonInputs = [] ∧ tx.ringCTOutputs = [])
    (h : indexRingCT E G C m tx = .ok t) : loop (pushOutput E G C (E.txHash tx))
        { startIndex C m.view with keyImages := m.view.keyImages ++ keyImageRecords E tx }
        tx.vpout.zipIdx = .ok t.view := by
  rcases indexRingCT_cases E G C m t tx h with ⟨hoff, rfl⟩ | ⟨-, -, hloop⟩
  · obtain ⟨hanon, hring⟩ := hidle hoff
    rw [keyImageRecords_eq_nil E tx hanon, append_nil, startIndex_frame]
    refine pushOutputs_of_no_ringCT E G C _ _ _ fun x hx => ?_
    rw [CTransaction.ringCTOutputs, filterMap_eq_nil_iff] at hring
    exact hring x.1 (fst_mem_of_mem_zipIdx hx)
  · exact hloop

lemma indexRingCT_anonOutputs (m t : BlockState) (tx : CTransaction)
    (h : indexRingCT E G C m tx = .ok t) (y : Int × CAnonOutput) (hy : y ∈ t.view.anonOutputs) :
    y ∈ m.view.anonOutputs ∨ y.2 ∈ ringRecords E C.pindex.nHeight tx := by
  rcases indexRingCT_cases E G C m t tx h with ⟨-, rfl⟩ | ⟨-, -, hloop⟩
  · rw [startIndex_frame] at hy
    exact Or.inl hy
  · rw [pushOutputs_ok E G C _ _ _ _ hloop, startIndex_frame] at hy
    refine (mem_append.mp hy).imp id fun hnew => ?_
    have hrecord := mem_map_of_mem (f := Prod.snd) hnew
    rwa [map_snd_numbered] at hrecord

lemma connectBlock_anonOutputs (h : connectBlock E G C view b = .ok c) (y : Int × CAnonOutput)
    (hy : y ∈ c.view.anonOutputs) :
    y ∈ view.anonOutputs ∨ ∃ tx ∈ b.vtx, y.2 ∈ ringRecords E C.pindex.nHeight tx := by
  obtain ⟨-, s, hloop, -, rfl⟩ := (connectBlock_ok_iff E G C view b c).mp h
  have hview : (finish E C b s).view.anonOutputs = s.view.anonOutputs := by
    unfold finish
    split <;> rfl
  rw [hview] at hy
  refine loop_induction (connectTx E G C)
    (fun s => ∀ y ∈ s.view.anonOutputs,
      y ∈ view.anonOutputs ∨ ∃ tx ∈ b.vtx, y.2 ∈ ringRecords E C.pindex.nHeight tx)
    b.vtx.zipIdx ?_ _ s (fun y hy => Or.inl hy) hloop y hy
  intro s t x hx hs hstep y hy
  obtain ⟨m, hm, hindex⟩ := (connectTx_ok_iff E G C s t x).mp hstep
  obtain ⟨-, -, hmview, -⟩ := applyTx_coins E G C s m x hm
  rcases indexRingCT_anonOutputs E G C m t x.1 hindex y hy with hold | hnew
  · rw [hmview] at hold
    exact hs y hold
  · exact Or.inr ⟨x.1, fst_mem_of_mem_zipIdx hx, hnew⟩

lemma connectTx_keyImages (s t : BlockState) (x : CTransaction × Nat)
    (h : connectTx E G C s x = .ok t) :
    t.view.keyImages = s.view.keyImages ++ keyImageRecords E x.1 ∧
      ∀ txin ∈ x.1.anonInputs, (anonKeyImages txin).isSome := by
  obtain ⟨m, hm, hindex⟩ := (connectTx_ok_iff E G C s t x).mp h
  obtain ⟨-, -, hview, -⟩ := applyTx_coins E G C s m x hm
  have hstep := indexRingCT_keyImages E G C m t x.1
    (fun hoff => (applyTx_idle E G C s m x hm hoff).1) hindex
  rw [hview] at hstep
  exact hstep

lemma connectTxs_keyImages (xs : List (CTransaction × Nat)) (s t : BlockState)
    (h : loop (connectTx E G C) s xs = .ok t) :
    t.view.keyImages = s.view.keyImages ++ (xs.map Prod.fst).flatMap (keyImageRecords E) ∧
      ∀ x ∈ xs, ∀ txin ∈ x.1.anonInputs, (anonKeyImages txin).isSome := by
  induction xs generalizing s with
  | nil =>
    cases h
    simp
  | cons x xs ih =>
    obtain ⟨m, hm, hrest⟩ := (loop_cons_ok_iff _ _ _ _ _).mp h
    obtain ⟨hfirst, hsome⟩ := connectTx_keyImages E G C s m x hm
    obtain ⟨hkis, hall⟩ := ih m hrest
    rw [forall_mem_cons, hkis, hfirst]
    exact ⟨by simp [append_assoc], hsome, hall⟩

/-- The key images a connected block leaves in the view are those of its transactions, in order. -/
lemma connectBlock_keyImages (h : connectBlock E G C view b = .ok c) :
    c.view.keyImages = view.keyImages ++ b.vtx.flatMap (keyImageRecords E) ∧
      ∀ tx ∈ b.vtx, ∀ txin ∈ tx.anonInputs, (anonKeyImages txin).isSome := by
  obtain ⟨-, s, hloop, -, rfl⟩ := (connectBlock_ok_iff E G C view b c).mp h
  obtain ⟨hkis, hsome⟩ := connectTxs_keyImages E G C _ _ _ hloop
  rw [zipIdx_map_fst] at hkis
  refine ⟨?_, ?_⟩
  · rw [← hkis]
    unfold finish
    split <;> rfl
  · intro tx htx
    obtain ⟨i, hi, rfl⟩ := getElem_of_mem htx
    exact hsome (b.vtx[i], i) (mk_mem_zipIdx_iff_getElem?.mpr (getElem?_eq_getElem hi))

def prevAnonOutputs : Int := (C.branch.head?.map (·.nAnonOutputs)).getD 0

lemma startIndex_nLastRCTOutput : (startIndex C view).nLastRCTOutput =
      if view.nLastRCTOutput = 0 then prevAnonOutputs C else view.nLastRCTOutput := by
  unfold startIndex
  split <;> rfl

/-- The view holds back the records `rs`, numbered from the end of the chain's index, and their keys
are new. -/
structure Pending (rs : List CAnonOutput) (view : CCoinsViewCache) : Prop where
  next : (startIndex C view).nLastRCTOutput = prevAnonOutputs C + rs.length
  outputs : view.anonOutputs = numbered (prevAnonOutputs C) rs
  linked : view.anonOutputLinks = links linkKey (prevAnonOutputs C) rs
  nodup : (rs.map linkKey).Nodup
  fresh : ∀ r ∈ rs, G.db.rctOutputLink (storedKey r.pubkey) = none

lemma pending_nil (h : view.Fresh) : Pending G C [] view := by
  obtain ⟨hlast, hout, hlink, -, -⟩ := h
  refine ⟨?_, hout, hlink, nodup_nil, by simp⟩
  rw [startIndex_nLastRCTOutput, if_pos hlast, length_nil, Int.natCast_zero, Int.add_zero]

/-- A coinbase has no RingCT outputs. -/
def PlainCoinBase (tx : CTransaction) : Prop := tx.isCoinBase → tx.ringCTOutputs = []

instance (tx : CTransaction) : Decidable (PlainCoinBase tx) :=
  inferInstanceAs (Decidable (_ → _))

lemma connectTx_pending (hverify : E.fVerifyingDB = false) (hprev : 0 ≤ prevAnonOutputs C)
    (rs : List CAnonOutput) (s t : BlockState) (x : CTransaction × Nat) (hplain : PlainCoinBase x.1)
    (hs : Pending G C rs s.view) (h : connectTx E G C s x = .ok t) :
    Pending G C (rs ++ ringRecords E C.pindex.nHeight x.1) t.view ∧
      t.view.nLastRCTOutput =
        prevAnonOutputs C + (rs ++ ringRecords E C.pindex.nHeight x.1).length := by
  obtain ⟨m, hm, hindex⟩ := (connectTx_ok_iff E G C s t x).mp h
  obtain ⟨-, -, hview, -⟩ := applyTx_coins E G C s m x hm
  have hidle : m.fHasAnon = false → x.1.anonInputs = [] ∧ x.1.ringCTOutputs = [] := by
    intro hoff
    obtain ⟨hanon, hring⟩ := applyTx_idle E G C s m x hm hoff
    exact ⟨hanon, (em x.1.isCoinBase).elim hplain hring⟩
  have hloop := indexRingCT_outputs E G C m t x.1 hidle hindex
  have hstart : (startIndex C m.view).nLastRCTOutput = prevAnonOutputs C + rs.length := by
    rw [← hs.next, hview, startIndex_nLastRCTOutput, startIndex_nLastRCTOutput]
  have hlinks : m.view.anonOutputLinks = links linkKey (prevAnonOutputs C) rs := by
    rw [hview]
    exact hs.linked
  have houts : m.view.anonOutputs = numbered (prevAnonOutputs C) rs := by
    rw [hview]
    exact hs.outputs
  rw [startIndex_frame, hstart] at hloop
  obtain ⟨hlink, hnodup, hfresh⟩ := pushOutputs_links E G C hverify _ _ _ _ (by
    show (m.view.anonOutputLinks.map Prod.fst).Nodup
    rw [hlinks, map_fst_links]
    exact hs.nodup) hloop
  have hlast := congrArg CCoinsViewCache.nLastRCTOutput (pushOutputs_ok E G C _ _ _ _ hloop)
  have hout := congrArg CCoinsViewCache.anonOutputs (pushOutputs_ok E G C _ _ _ _ hloop)
  dsimp only at hlink hlast hout
  rw [hlinks, ← links_append] at hlink
  rw [houts, ← numbered_append] at hout
  have hlen : t.view.nLastRCTOutput =
      prevAnonOutputs C + (rs ++ ringRecords E C.pindex.nHeight x.1).length := by
    rw [hlast, length_append, ringRecords]
    omega
  refine ⟨⟨?_, hout, hlink, ?_, ?_⟩, hlen⟩
  · -- 0 means unset, and is reached only when nothing has been numbered at all
    rw [startIndex_nLastRCTOutput]
    split
    · omega
    · exact hlen
  · rw [hlink, map_fst_links] at hnodup
    exact hnodup
  · rw [forall_mem_append]
    exact ⟨hs.fresh, hfresh⟩

lemma connectTxs_pending (hverify : E.fVerifyingDB = false) (hprev : 0 ≤ prevAnonOutputs C)
    (xs : List (CTransaction × Nat)) (hplain : ∀ x ∈ xs, PlainCoinBase x.1) (rs : List CAnonOutput)
    (s t : BlockState) (hs : Pending G C rs s.view) (h : loop (connectTx E G C) s xs = .ok t) :
    Pending G C (rs ++ (xs.map Prod.fst).flatMap (ringRecords E C.pindex.nHeight)) t.view ∧
      (xs ≠ [] → t.view.nLastRCTOutput = prevAnonOutputs C +
        (rs ++ (xs.map Prod.fst).flatMap (ringRecords E C.pindex.nHeight)).length) := by
  induction xs generalizing rs s with
  | nil =>
    cases h
    exact ⟨by simpa using hs, by simp⟩
  | cons x xs ih =>
    rw [forall_mem_cons] at hplain
    obtain ⟨m, hm, hrest⟩ := (loop_cons_ok_iff _ _ _ _ _).mp h
    obtain ⟨hpending, hlast⟩ := connectTx_pending E G C hverify hprev rs s m x hplain.1 hs hm
    obtain ⟨hall, hlast'⟩ := ih hplain.2 _ m hpending hrest
    rw [map_cons, flatMap_cons, ← append_assoc]
    refine ⟨hall, fun _ => ?_⟩
    cases xs with
    | nil =>
      rw [loop_nil, Except.ok.injEq] at hrest
      subst hrest
      simpa using hlast
    | cons y ys => exact hlast' (cons_ne_nil y ys)

def blockRecords (nHeight : Nat) (b : CBlock) : List CAnonOutput :=
  b.vtx.flatMap (ringRecords E nHeight)

lemma connectBlock_pending (hverify : E.fVerifyingDB = false) (hprev : 0 ≤ prevAnonOutputs C)
    (hjust : C.fJustCheck = false) (view : CCoinsViewCache) (hview : view.Fresh) (b : CBlock)
    (hplain : ∀ tx ∈ b.vtx, PlainCoinBase tx) (c : Connected)
    (h : connectBlock E G C view b = .ok c) :
    Pending G C (blockRecords E C.pindex.nHeight b) c.view ∧
      c.pindex.nAnonOutputs = prevAnonOutputs C + (blockRecords E C.pindex.nHeight b).length := by
  obtain ⟨hbefore, s, hloop, -, rfl⟩ := (connectBlock_ok_iff E G C view b c).mp h
  obtain ⟨-, hblock, -⟩ := checkBefore_ok E G C view b () hbefore
  obtain ⟨⟨tx, txs, hvtx, -⟩, -⟩ := checkBlock_ok E _ b () hblock
  have hplain' : ∀ x ∈ b.vtx.zipIdx, PlainCoinBase x.1 := fun x hx =>
    hplain x.1 (fst_mem_of_mem_zipIdx hx)
  obtain ⟨hpending, hlast⟩ := connectTxs_pending E G C hverify hprev _ hplain' [] _ s
    (pending_nil G C view hview) hloop
  rw [zipIdx_map_fst, nil_append] at hpending hlast
  have hne : b.vtx.zipIdx ≠ [] := by simp [hvtx]
  rw [finish, if_neg (by simp [hjust])]
  refine ⟨⟨?_, hpending.outputs, hpending.linked, hpending.nodup, hpending.fresh⟩, hlast hne⟩
  have hnext := hpending.next
  rw [startIndex_nLastRCTOutput] at hnext ⊢
  exact hnext

variable (db : CBlockTreeDB) (pindex : CBlockIndex)
variable (txhash : Uint256) (blockUndo : CBlockUndo) (fCoinBase : Bool) (tx : CTransaction)
  (pks : List CCmpPubKey) (nHeight : Nat) (s t : UndoState)

def cursor (view : CCoinsViewCache) : Int :=
  if view.nLastRCTOutput = 0 then pindex.nAnonOutputs else view.nLastRCTOutput

def ringKeys (xs : List (CTxOutBase × Nat)) : List CCmpPubKey :=
  xs.filterMap fun x => x.1.ringCT?.map fun p => comparedKey p.pk

lemma checkLastOutput_ok (view view' : CCoinsViewCache) (pk : CCmpPubKey)
    (h : checkLastOutput db pindex view pk = .ok view') :
    view' = { view with nLastRCTOutput := cursor pindex view } := by
  unfold checkLastOutput at h
  unfold cursor
  split at h
  · simp only [rejectIf_bind_ok_iff, pure_ok_iff] at h
    rw [← h.2, if_pos ‹_›]
  · rw [← Except.ok.inj h, if_neg ‹_›]

/-- The view lists the keys `pks` for erasure, numbered downwards from the block's last number. -/
structure Unindexed (pks : List CCmpPubKey) (view : CCoinsViewCache) : Prop where
  next : (pks.length : Int) < pindex.nAnonOutputs →
    cursor pindex view = pindex.nAnonOutputs - pks.length
  linked : view.anonOutputLinks = downwards pindex.nAnonOutputs pks

lemma unindexed_nil (view : CCoinsViewCache) (h : view.Fresh) : Unindexed pindex [] view := by
  obtain ⟨hlast, -, hlink, -, -⟩ := h
  refine ⟨fun _ => ?_, hlink⟩
  rw [cursor, if_pos hlast, length_nil, Int.natCast_zero, Int.sub_zero]

lemma map_fst_downwards (n : Int) (pks : List CCmpPubKey) :
    (downwards n pks).map Prod.fst = pks := by
  induction pks generalizing n with
  | nil => rfl
  | cons pk pks ih => rw [downwards, map_cons, ih]

lemma unindexed_output (pk : CCmpPubKey) (view : CCoinsViewCache) (hs : Unindexed pindex pks view)
    (hnew : comparedKey pk ∉ pks) (hlen : (pks.length : Int) < pindex.nAnonOutputs) :
    Unindexed pindex (pks ++ [comparedKey pk])
      (unindexOutput pk { view with nLastRCTOutput := cursor pindex view }) := by
  have hcursor := hs.next hlen
  refine ⟨?_, ?_⟩
  · intro hmore
    rw [length_append, length_singleton] at hmore ⊢
    show (if cursor pindex view - 1 = 0 then _ else cursor pindex view - 1) = _
    rw [hcursor, if_neg (by omega)]
    omega
  · show setLink view.anonOutputLinks (comparedKey pk) (cursor pindex view) = _
    rw [setLink, hs.linked, hcursor, downwards_append, filter_eq_self.mpr]
    · rfl
    · intro link hlink
      have hmem := mem_map_of_mem (f := Prod.fst) hlink
      rw [map_fst_downwards] at hmem
      have hne : link.1 ≠ comparedKey pk := fun heq => hnew (heq ▸ hmem)
      simpa using hne

lemma undoOutput_ok (x : CTxOutBase × Nat) (s t : UndoState)
    (h : undoOutput db pindex txhash fCoinBase s x = .ok t) : t.view = (match x.1.ringCT? with
      | some p => unindexOutput p.pk { s.view with nLastRCTOutput := cursor pindex s.view }
      | none => { s.view with coins := t.view.coins }) ∧ t.nVtxundo = s.nVtxundo := by
  obtain ⟨o, k⟩ := x
  cases o with
  | ringCT p =>
    simp only [undoOutput, bind_ok_iff, pure_ok_iff] at h
    obtain ⟨view, hview, rfl⟩ := h
    rw [checkLastOutput_ok db pindex _ _ _ hview]
    exact ⟨rfl, rfl⟩
  | standard p =>
    simp only [undoOutput] at h
    split at h
    · rw [← Except.ok.inj h]
      exact ⟨rfl, rfl⟩
    · rw [← Except.ok.inj h]
      exact ⟨rfl, rfl⟩
  | data p =>
    rw [← Except.ok.inj h]
    exact ⟨rfl, rfl⟩

lemma undoOutputs_ok (xs : List (CTxOutBase × Nat)) (pks : List CCmpPubKey) (s t : UndoState)
    (hs : Unindexed pindex pks s.view) (hnodup : (pks ++ ringKeys xs).Nodup)
    (hlen : ((pks ++ ringKeys xs).length : Int) ≤ pindex.nAnonOutputs)
    (h : loop (undoOutput db pindex txhash fCoinBase) s xs = .ok t) :
    Unindexed pindex (pks ++ ringKeys xs) t.view ∧ t.view.keyImages = s.view.keyImages := by
  induction xs generalizing pks s with
  | nil =>
    cases h
    exact ⟨by simpa [ringKeys] using hs, rfl⟩
  | cons x xs ih =>
    obtain ⟨m, hm, hrest⟩ := (loop_cons_ok_iff _ _ _ _ _).mp h
    obtain ⟨hview, -⟩ := undoOutput_ok db pindex txhash fCoinBase x s m hm
    cases hx : x.1.ringCT? with
    | none =>
      have hkeys : ringKeys (x :: xs) = ringKeys xs := by simp [ringKeys, hx]
      rw [hkeys] at hnodup hlen ⊢
      rw [hx] at hview
      have hm' : Unindexed pindex pks m.view := by
        rw [hview]
        exact ⟨hs.next, hs.linked⟩
      obtain ⟨hall, hkis⟩ := ih pks m hm' hnodup hlen hrest
      rw [hview] at hkis
      exact ⟨hall, hkis⟩
    | some p =>
      have hkeys : pks ++ ringKeys (x :: xs) = pks ++ [comparedKey p.pk] ++ ringKeys xs := by
        simp [ringKeys, hx]
      rw [hkeys] at hnodup hlen ⊢
      rw [hx] at hview
      have hnew : comparedKey p.pk ∉ pks := by
        have hpre := hnodup.of_append_left
        rw [nodup_append'] at hpre
        exact fun hmem => hpre.2.2 hmem (mem_singleton.mpr rfl)
      have hm' : Unindexed pindex (pks ++ [comparedKey p.pk]) m.view := by
        rw [hview]
        refine unindexed_output pindex pks p.pk s.view hs hnew ?_
        simp only [length_append, length_singleton] at hlen
        omega
      obtain ⟨hall, hkis⟩ := ih _ m hm' hnodup hlen hrest
      rw [hview] at hkis
      exact ⟨hall, hkis⟩

lemma restoreInput_ok (txundo : CTxUndo) (x : CTxIn × Nat) (s t : UndoState)
    (h : restoreInput txundo s x = .ok t) : t.view = { s.view with coins := t.view.coins } := by
  unfold restoreInput at h
  split at h
  · rw [← Except.ok.inj h]
  · simp only [bind_ok_iff, pure_ok_iff] at h
    obtain ⟨u, -, r, -, rfl⟩ := h
    rfl

lemma restoreInputs_ok (h : restoreInputs blockUndo s tx = .ok t) :
    t.view = { s.view with coins := t.view.coins } := by
  unfold restoreInputs at h
  split at h
  · cases h
  · simp only [bind_ok_iff, rejectIf_ok_iff] at h
    obtain ⟨txundo, -, -, -, hloop⟩ := h
    refine loop_induction (restoreInput txundo)
      (fun t => t.view = { s.view with coins := t.view.coins }) _ ?_ { s with nVtxundo := _ } t rfl
      hloop
    intro m t x _ hm hstep
    rw [restoreInput_ok txundo x m t hstep, hm]

/-- Undoing a transaction: its key images are listed, its outputs undone, and its inputs change
nothing but coins. -/
lemma undoTx_outputs (h : undoTx E db pindex blockUndo s tx = .ok t) : ∃ m,
      loop (undoOutput db pindex (E.txHash tx) (isCoinBaseOrStake tx)) { s with view :=
          { s.view with keyImages := s.view.keyImages ++ keyImageRecords E tx } }
        tx.vpout.zipIdx.reverse = .ok m ∧ t.view = { m.view with coins := t.view.coins } := by
  simp only [undoTx, bind_ok_iff, relabel_ok_iff] at h
  obtain ⟨view, hview, m, hm, hrest⟩ := h
  obtain ⟨-, rfl⟩ := (pushKeyImages_loop_ok_iff _ _ _ _).mp hview
  refine ⟨m, hm, ?_⟩
  split at hrest
  · rw [← Except.ok.inj hrest]
  · exact restoreInputs_ok blockUndo tx m t hrest

/-- Undoing a transaction lists its key images and the keys of its RingCT outputs, last first. -/
lemma undoTx_ok (hs : Unindexed pindex pks s.view)
    (hnodup : (pks ++ ringKeys tx.vpout.zipIdx.reverse).Nodup)
    (hlen : ((pks ++ ringKeys tx.vpout.zipIdx.reverse).length : Int) ≤ pindex.nAnonOutputs)
    (h : undoTx E db pindex blockUndo s tx = .ok t) :
    Unindexed pindex (pks ++ ringKeys tx.vpout.zipIdx.reverse) t.view ∧
      t.view.keyImages = s.view.keyImages ++ keyImageRecords E tx := by
  obtain ⟨m, hm, hframe⟩ := undoTx_outputs E db pindex blockUndo tx s t h
  have hrun := fun hs' => undoOutputs_ok db pindex _ _ _ pks _ m hs' hnodup hlen hm
  obtain ⟨hunindexed, hkis⟩ := hrun ⟨hs.next, hs.linked⟩
  rw [hframe]
  exact ⟨⟨hunindexed.next, hunindexed.linked⟩, hkis⟩

lemma ringKeys_eq (xs : List (CTxOutBase × Nat)) :
    ringKeys xs = (xs.filterMap (ringRecord txhash nHeight)).map linkKey := by
  rw [ringKeys, map_filterMap]
  refine filterMap_congr fun x _ => ?_
  cases hx : x.1.ringCT? <;> simp [ringRecord, hx, linkKey]

lemma undoTxs_ok (txs : List CTransaction) (pks : List CCmpPubKey) (s t : UndoState)
    (hs : Unindexed pindex pks s.view)
    (hnodup : (pks ++ txs.flatMap fun tx => ringKeys tx.vpout.zipIdx.reverse).Nodup)
    (hlen : ((pks ++ txs.flatMap fun tx => ringKeys tx.vpout.zipIdx.reverse).length : Int) ≤
      pindex.nAnonOutputs) (h : loop (undoTx E db pindex blockUndo) s txs = .ok t) :
    Unindexed pindex (pks ++ txs.flatMap fun tx => ringKeys tx.vpout.zipIdx.reverse) t.view ∧
      t.view.keyImages = s.view.keyImages ++ txs.flatMap (keyImageRecords E) := by
  induction txs generalizing pks s with
  | nil =>
    cases h
    exact ⟨by simpa using hs, by simp⟩
  | cons tx txs ih =>
    rw [flatMap_cons, ← append_assoc] at hnodup hlen ⊢
    obtain ⟨m, hm, hrest⟩ := (loop_cons_ok_iff _ _ _ _ _).mp h
    obtain ⟨hfirst, hkis⟩ := undoTx_ok E db pindex blockUndo tx pks s m hs hnodup.of_append_left
      (by rw [length_append] at hlen; omega) hm
    obtain ⟨hall, hkis'⟩ := ih _ m hfirst hnodup hlen hrest
    rw [hkis] at hkis'
    exact ⟨hall, by rw [hkis', flatMap_cons, append_assoc]⟩

lemma ringKeys_block (b : CBlock) :
    (b.vtx.reverse.flatMap fun tx => ringKeys tx.vpout.zipIdx.reverse) =
      ((blockRecords E nHeight b).map linkKey).reverse := by
  rw [blockRecords, map_flatMap, reverse_flatMap]
  refine congrArg (fun f => b.vtx.reverse.flatMap f) (funext fun tx => ?_)
  rw [ringKeys_eq (E.txHash tx) nHeight, filterMap_reverse, map_reverse]
  rfl

/-- A disconnected block lists its key images and, from its last number down, its RingCT outputs. -/
lemma disconnectBlock_records (branch : List CBlockIndex) (view view' : CCoinsViewCache)
    (hview : view.Fresh) (b : CBlock) (undo : Option CBlockUndo) (fClean : Bool) (nHeight : Nat)
    (hnodup : ((blockRecords E nHeight b).map linkKey).Nodup)
    (hlen : ((blockRecords E nHeight b).length : Int) ≤ pindex.nAnonOutputs)
    (h : disconnectBlock E db pindex branch view b undo = .ok (view', fClean)) :
    view'.anonOutputLinks = downwards pindex.nAnonOutputs
        ((blockRecords E nHeight b).map linkKey).reverse ∧
      view'.keyImages = b.vtx.reverse.flatMap (keyImageRecords E) := by
  have hkeys := ringKeys_block E nHeight b
  simp only [disconnectBlock, bind_ok_iff, rejectIf_ok_iff, orReject_ok_iff, pure_ok_iff,
    Prod.mk.injEq] at h
  obtain ⟨-, -, blockUndo, -, -, -, s, hloop, pprev, -, rfl, -⟩ := h
  obtain ⟨hunindexed, hkis⟩ := undoTxs_ok E db pindex blockUndo _ [] _ s
    (unindexed_nil pindex view hview) (by rw [nil_append, hkeys]; exact nodup_reverse.mpr hnodup)
    (by rw [nil_append, hkeys, length_reverse, length_map]; exact hlen) hloop
  rw [nil_append, hkeys] at hunindexed
  refine ⟨hunindexed.linked, ?_⟩
  have hnone : view.keyImages = [] := hview.2.2.2.1
  show s.view.keyImages = _
  rw [hkis, hnone, nil_append]

end

end RingRecords
