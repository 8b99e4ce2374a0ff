import BitcoinC.MerkleRoot

/-!
# Partial Merkle trees

`CPartialMerkleTree` has some of the hashes of the Merkle tree of a block, in
depth-first order, with a bit for each node that was visited.
-/

namespace PartialMerkleTree

open Primitives Environment TxVerify Blocks MerkleTrees MerkleRoot ToyEnvironment Nat

def MIN_TRANSACTION_WEIGHT : Nat := WITNESS_SCALE_FACTOR * 60

structure CPartialMerkleTree where
  nTransactions : Nat
  vBits : List Bool
  vHash : List Uint256
  fBad : Bool
deriving DecidableEq

def calcTreeWidth (nTransactions height : Nat) : Nat :=
  (nTransactions + 1 <<< height - 1) >>> height

def heightLoop (nTransactions : Nat) : Nat → Nat → Nat
  | 0, nHeight => nHeight
  | fuel + 1, nHeight =>
    if calcTreeWidth nTransactions nHeight > 1 then heightLoop nTransactions fuel (nHeight + 1)
      else nHeight

def treeHeight (nTransactions : Nat) : Nat := heightLoop nTransactions nTransactions 0

section Build

variable (E : Env) (vTxid : List Uint256)

def calcHash : Nat → Nat → Uint256
  | 0, pos => vTxid.getD pos 0
  | height + 1, pos =>
    let left := calcHash height (pos * 2)
    let right := if pos * 2 + 1 < calcTreeWidth vTxid.length height then calcHash height
      (pos * 2 + 1) else left
    inner E left right

variable (vMatch : List Bool)

def hits (height pos : Nat) : List Nat :=
  (List.range' (pos <<< height) (1 <<< height)).filter fun p => p < vTxid.length &&
    vMatch.getD p false

def parentOfMatch (height pos : Nat) : Bool := !(hits vTxid vMatch height pos).isEmpty

def traverseAndBuild : Nat → Nat → List Bool × List Uint256
  | 0, pos => ([parentOfMatch vTxid vMatch 0 pos], [calcHash E vTxid 0 pos])
  | height + 1, pos =>
    if parentOfMatch vTxid vMatch (height + 1) pos then
      let left := traverseAndBuild height (pos * 2)
      let right := if pos * 2 + 1 < calcTreeWidth vTxid.length height then
        traverseAndBuild height (pos * 2 + 1) else ([], [])
      (true :: (left.1 ++ right.1), left.2 ++ right.2)
    else ([false], [calcHash E vTxid (height + 1) pos])

def ofMatches : CPartialMerkleTree :=
  let built := traverseAndBuild E vTxid vMatch (treeHeight vTxid.length) 0
  ⟨vTxid.length, built.1, built.2, false⟩

end Build

structure Cursor where
  nBitsUsed : Nat
  nHashUsed : Nat
  vMatch : List Uint256
  vnIndex : List Nat
  fBad : Bool
deriving DecidableEq

variable {height pos : Nat} {s : Cursor}

def Cursor.bad (s : Cursor) : Cursor := { s with fBad := true }

section Extract

variable (E : Env) (t : CPartialMerkleTree)

def takeHash (matched : Bool) (pos : Nat) (s : Cursor) : Uint256 × Cursor :=
  match t.vHash[s.nHashUsed]? with
  | none => (0, s.bad)
  | some hash =>
    (hash, { s with
      nHashUsed := s.nHashUsed + 1
      vMatch := if matched then s.vMatch ++ [hash] else s.vMatch
      vnIndex := if matched then s.vnIndex ++ [pos] else s.vnIndex })

def Cursor.nextBit (s : Cursor) : Cursor := { s with nBitsUsed := s.nBitsUsed + 1 }

def joinBranches (left : Uint256) (right : Uint256 × Cursor) : Uint256 × Cursor :=
  (inner E left right.1, if right.1 = left then right.2.bad else right.2)

def traverseAndExtract : Nat → Nat → Cursor → Uint256 × Cursor
  | 0, pos, s =>
    match t.vBits[s.nBitsUsed]? with
    | none => (0, s.bad)
    | some fParentOfMatch => takeHash t fParentOfMatch pos s.nextBit
  | height + 1, pos, s =>
    match t.vBits[s.nBitsUsed]? with
    | none => (0, s.bad)
    | some false => takeHash t false pos s.nextBit
    | some true =>
      let left := traverseAndExtract height (pos * 2) s.nextBit
      if pos * 2 + 1 < calcTreeWidth t.nTransactions height then
        joinBranches E left.1 (traverseAndExtract height (pos * 2 + 1) left.2)
      else (inner E left.1 left.1, left.2)

structure Extracted where
  hashMerkleRoot : Uint256
  vMatch : List Uint256
  vnIndex : List Nat
deriving DecidableEq

def extractMatches (vnIndex : List Nat) : Extracted :=
  if t.nTransactions = 0 ∨ t.nTransactions > MAX_BLOCK_WEIGHT / MIN_TRANSACTION_WEIGHT ∨
      t.vHash.length > t.nTransactions ∨ t.vBits.length < t.vHash.length then ⟨0, [], vnIndex⟩
  else
    let walk := traverseAndExtract E t (treeHeight t.nTransactions) 0 ⟨0, 0, [], vnIndex, t.fBad⟩
    let s := walk.2
    ⟨if s.fBad ∨ (s.nBitsUsed + 7) / 8 ≠ (t.vBits.length + 7) / 8 ∨ s.nHashUsed ≠ t.vHash.length
      then 0 else walk.1, s.vMatch, s.vnIndex⟩

end Extract

lemma lt_calcTreeWidth_iff (n height pos : Nat) : pos < calcTreeWidth n height ↔
    pos * 2 ^ height < n := by
  have hpos := Nat.two_pow_pos height
  rw [calcTreeWidth, shiftRight_eq_div_pow, one_shiftLeft, ← succ_le_iff,
    le_div_iff_mul_le hpos, succ_mul]
  omega

lemma calcTreeWidth_zero (n : Nat) : calcTreeWidth n 0 = n := by
  simp [calcTreeWidth]

lemma heightLoop_spec (n fuel h : Nat) :
    heightLoop n fuel h ≤ h + fuel ∧
      (∀ k, h ≤ k → k < heightLoop n fuel h → 1 < calcTreeWidth n k) ∧
      (heightLoop n fuel h = h + fuel ∨ calcTreeWidth n (heightLoop n fuel h) ≤ 1) := by
  induction fuel generalizing h with
  | zero => exact ⟨le_refl _, fun k hle hlt => absurd hlt (not_lt.mpr hle), Or.inl rfl⟩
  | succ fuel ih =>
    rw [heightLoop]
    split_ifs with hwide
    · obtain ⟨hle, hbelow, hend⟩ := ih (h + 1)
      refine ⟨by omega, fun k hk hlt => ?_, by omega⟩
      rcases eq_or_lt_of_le hk with rfl | hnext
      · exact hwide
      · exact hbelow k hnext hlt
    · refine ⟨le_add_right _ _, fun k hle hlt => ?_, Or.inr (not_lt.mp hwide)⟩
      exact absurd hlt (not_lt.mpr hle)

lemma treeHeight_spec (n : Nat) :
    treeHeight n ≤ n ∧ (∀ k < treeHeight n, 1 < calcTreeWidth n k) ∧
      calcTreeWidth n (treeHeight n) ≤ 1 := by
  obtain ⟨hle, hbelow, hend⟩ := heightLoop_spec n n 0
  have hlast : calcTreeWidth n n ≤ 1 := by
    rw [← not_lt, lt_calcTreeWidth_iff, one_mul]
    exact Nat.not_lt.mpr Nat.lt_two_pow_self.le
  rw [zero_add] at hle hend
  refine ⟨hle, fun k hk => hbelow k (zero_le k) hk, ?_⟩
  rcases hend with heq | hdone
  · rw [treeHeight, heq]
    exact hlast
  · exact hdone

section Hashes

variable (E : Env) (vTxid : List Uint256)

lemma levels_length (height : Nat) :
    ((level (inner E))^[height] vTxid).length = calcTreeWidth vTxid.length height := by
  induction height with
  | zero => rw [calcTreeWidth_zero]; rfl
  | succ height ih =>
    rw [Function.iterate_succ_apply', level_length, ih]
    refine eq_of_forall_lt_iff fun pos => ?_
    have hhalf : pos < (calcTreeWidth vTxid.length height + 1) / 2 ↔
        pos * 2 < calcTreeWidth vTxid.length height := by omega
    rw [hhalf, lt_calcTreeWidth_iff, lt_calcTreeWidth_iff, pow_succ', mul_assoc]

lemma levels_getElem? (height pos : Nat) (hpos : pos * 2 ^ height < vTxid.length) :
    ((level (inner E))^[height] vTxid)[pos]? = some (calcHash E vTxid height pos) := by
  induction height generalizing pos with
  | zero =>
    rw [pow_zero, mul_one] at hpos
    rw [Function.iterate_zero, id, List.getElem?_eq_getElem hpos, calcHash,
      List.getD_eq_getElem _ _ hpos]
  | succ height ih =>
    have hleft : pos * 2 * 2 ^ height < vTxid.length := by
      rwa [mul_assoc, ← pow_succ']
    rw [Function.iterate_succ_apply', level_getElem?, mul_comm 2 pos, ih _ hleft, Option.map_some,
      calcHash]
    split_ifs with hright
    · rw [ih _ ((lt_calcTreeWidth_iff _ _ _).mp hright), Option.getD_some]
    · have hend : ((level (inner E))^[height] vTxid)[pos * 2 + 1]? = none := by
        rw [List.getElem?_eq_none_iff, levels_length]
        exact not_lt.mp hright
      rw [hend, Option.getD_none]

lemma calcHash_root (hne : vTxid ≠ []) :
    calcHash E vTxid (treeHeight vTxid.length) 0 = (computeMerkleRoot E vTxid).1 := by
  obtain ⟨hle, hbelow, htop⟩ := treeHeight_spec vTxid.length
  have hwide : ∀ j < treeHeight vTxid.length, 1 < ((level (inner E))^[j] vTxid).length := by
    intro j hj
    rw [levels_length]
    exact hbelow j hj
  have hone : ((level (inner E))^[treeHeight vTxid.length] vTxid).length ≤ 1 := by
    rw [levels_length]
    exact htop
  have hfirst := levels_getElem? E vTxid (treeHeight vTxid.length) 0
    (by rw [zero_mul]; exact List.length_pos_of_ne_nil hne)
  rw [computeMerkleRoot, merkleLoop_eq, root_eq_headD 0 hle hwide hone, List.headD_eq_head?_getD,
    List.head?_eq_getElem?, hfirst, Option.getD_some]

def treePairs : List (Uint256 × Uint256) := nodes (inner E) vTxid.length vTxid

def branches (height pos : Nat) : Uint256 × Uint256 :=
  (calcHash E vTxid height (pos * 2),
    if pos * 2 + 1 < calcTreeWidth vTxid.length height then calcHash E vTxid height (pos * 2 + 1)
    else calcHash E vTxid height (pos * 2))

lemma calcHash_succ (height pos : Nat) :
    calcHash E vTxid (height + 1) pos = inner E (branches E vTxid height pos).1
      (branches E vTxid height pos).2 := rfl

lemma branches_mem (hheight : height < treeHeight vTxid.length)
    (hpos : pos * 2 ^ (height + 1) < vTxid.length) :
    branches E vTxid height pos ∈ treePairs E vTxid := by
  obtain ⟨hle, hbelow, -⟩ := treeHeight_spec vTxid.length
  have hwide : ∀ j ≤ height, 1 < ((level (inner E))^[j] vTxid).length := by
    intro j hj
    rw [levels_length]
    exact hbelow j (by omega)
  refine pairs_subset_nodes (by omega) hwide ?_
  have hleft : pos * 2 * 2 ^ height < vTxid.length := by
    rwa [mul_assoc, ← pow_succ']
  refine List.mem_of_getElem? (i := pos) ?_
  rw [pairs_getElem?, mul_comm 2 pos, levels_getElem? E vTxid _ _ hleft, Option.map_some, branches]
  split_ifs with hright
  · rw [levels_getElem? E vTxid _ _ ((lt_calcTreeWidth_iff _ _ _).mp hright), Option.getD_some]
  · have hend : ((level (inner E))^[height] vTxid)[pos * 2 + 1]? = none := by
      rw [List.getElem?_eq_none_iff, levels_length]
      exact not_lt.mp hright
    rw [hend, Option.getD_none]

lemma calcHash_inj (hnodup : vTxid.Nodup)
    (hfree : CollisionFree (inner E) (treePairs E vTxid) (treePairs E vTxid)) {p q : Nat}
    (hheight : height ≤ treeHeight vTxid.length) (hp : p * 2 ^ height < vTxid.length)
    (hq : q * 2 ^ height < vTxid.length)
    (h : calcHash E vTxid height p = calcHash E vTxid height q) : p = q := by
  induction height generalizing p q with
  | zero =>
    rw [pow_zero, mul_one] at hp hq
    rw [calcHash, calcHash, List.getD_eq_getElem _ _ hp, List.getD_eq_getElem _ _ hq] at h
    exact (hnodup.getElem_inj_iff).mp h
  | succ height ih =>
    have hpair := hfree _ (branches_mem E vTxid hheight hp) _ (branches_mem E vTxid hheight hq) h
    have hp' : p * 2 * 2 ^ height < vTxid.length := by rwa [mul_assoc, ← pow_succ']
    have hq' : q * 2 * 2 ^ height < vTxid.length := by rwa [mul_assoc, ← pow_succ']
    have hsame := ih (by omega) hp' hq' (congrArg Prod.fst hpair)
    omega

end Hashes

section Matched

variable (vTxid : List Uint256) (vMatch : List Bool)

lemma hits_of_le (hle : vTxid.length ≤ pos * 2 ^ height) : hits vTxid vMatch height pos = [] := by
  rw [hits, List.filter_eq_nil_iff]
  intro p hp
  rw [List.mem_range'_1, shiftLeft_eq] at hp
  simp only [Bool.and_eq_true, decide_eq_true_eq, not_and]
  omega

lemma hits_succ (height pos : Nat) :
    hits vTxid vMatch (height + 1) pos = hits vTxid vMatch height (pos * 2) ++ hits vTxid vMatch
      height (pos * 2 + 1) := by
  have hstart : (pos * 2 + 1) * 2 ^ height = pos * 2 * 2 ^ height + 2 ^ height := succ_mul _ _
  have hwhole : pos * 2 ^ (height + 1) = pos * 2 * 2 ^ height := by rw [pow_succ', mul_assoc]
  have hdouble : 2 ^ (height + 1) = 2 ^ height + 2 ^ height := by rw [pow_succ]; omega
  rw [hits, shiftLeft_eq, one_shiftLeft, hwhole, hdouble, ← List.range'_append_1,
    List.filter_append, ← hstart]
  simp only [hits, shiftLeft_eq, one_mul]

lemma hits_root (height : Nat) (hle : vTxid.length ≤ 2 ^ height) :
    hits vTxid vMatch height 0 = (List.range vTxid.length).filter fun p => vMatch.getD p false := by
  have hsplit : 2 ^ height = vTxid.length + (2 ^ height - vTxid.length) := by omega
  rw [hits, zero_shiftLeft, one_shiftLeft, hsplit, ← List.range'_append_1, List.filter_append,
    List.range_eq_range']
  have hrest : (List.range' (0 + vTxid.length) (2 ^ height - vTxid.length)).filter
      (fun p => p < vTxid.length && vMatch.getD p false) = [] := by
    rw [List.filter_eq_nil_iff]
    intro p hp
    rw [List.mem_range'_1] at hp
    simp only [Bool.and_eq_true, decide_eq_true_eq, not_and]
    omega
  rw [hrest, List.append_nil]
  refine List.filter_congr fun p hp => ?_
  rw [List.mem_range'_1] at hp
  rw [decide_eq_true (by omega), Bool.true_and]

lemma hits_zero (pos : Nat) (hpos : pos < vTxid.length) :
    hits vTxid vMatch 0 pos = if vMatch.getD pos false then [pos] else [] := by
  simp only [hits, shiftLeft_zero, List.range'_one, List.filter_cons, List.filter_nil, hpos,
    decide_true, Bool.true_and]

end Matched

section Sizes

variable (E : Env) (vTxid : List Uint256) (vMatch : List Bool)

lemma build_hashes_le_bits (height pos : Nat) :
    (traverseAndBuild E vTxid vMatch height pos).2.length ≤
      (traverseAndBuild E vTxid vMatch height pos).1.length := by
  induction height generalizing pos with
  | zero => exact le_refl _
  | succ height ih =>
    have hleft := ih (pos * 2)
    have hright := ih (pos * 2 + 1)
    rw [traverseAndBuild]
    split_ifs
    · simp only [List.length_cons, List.length_append]
      omega
    · simp only [List.length_cons, List.length_append, List.length_nil]
      omega
    · exact le_refl _

lemma build_hashes_le_leaves (hpos : pos * 2 ^ height < vTxid.length) :
    (traverseAndBuild E vTxid vMatch height pos).2.length ≤ min (2 ^ height)
    (vTxid.length - pos * 2 ^ height) := by
  induction height generalizing pos with
  | zero =>
    have hone : (traverseAndBuild E vTxid vMatch 0 pos).2.length = 1 := rfl
    rw [hone]
    omega
  | succ height ih =>
    have hwhole : pos * 2 ^ (height + 1) = pos * 2 * 2 ^ height := by rw [pow_succ', mul_assoc]
    have hdouble : 2 ^ (height + 1) = 2 ^ height + 2 ^ height := by rw [pow_succ]; omega
    have hstart : (pos * 2 + 1) * 2 ^ height = pos * 2 * 2 ^ height + 2 ^ height := succ_mul _ _
    have hpower := Nat.two_pow_pos height
    rw [hwhole] at hpos ⊢
    have hleft := ih hpos
    rw [hdouble, traverseAndBuild]
    split_ifs with _ hright
    · rw [lt_calcTreeWidth_iff] at hright
      have hrest := ih hright
      rw [hstart] at hrest hright
      simp only [List.length_append]
      omega
    · simp only [List.length_append, List.length_nil]
      omega
    · simp only [List.length_singleton]
      omega

end Sizes

lemma uncons_drop {α : Type*} {x : α} {a l : List α} {n : Nat} (h : x :: a <+: l.drop n) :
    l[n]? = some x ∧ a <+: l.drop (n + 1) := by
  obtain ⟨rest, hrest⟩ := h
  constructor
  · rw [← List.head?_drop, ← hrest]
    rfl
  · refine ⟨rest, ?_⟩
    rw [← List.tail_drop, ← hrest]
    rfl

lemma parts_of_prefix {α : Type*} {a b l : List α} {n : Nat} (h : a ++ b <+: l.drop n) :
    a <+: l.drop n ∧ b <+: l.drop (n + a.length) := by
  obtain ⟨rest, hrest⟩ := h
  constructor
  · exact ⟨b ++ rest, by rw [← hrest, List.append_assoc]⟩
  · refine ⟨rest, ?_⟩
    rw [← List.drop_drop, ← hrest, List.append_assoc, List.drop_left]

lemma takeHash_of_some {t : CPartialMerkleTree} {matched : Bool} {hash : Uint256}
    (h : t.vHash[s.nHashUsed]? = some hash) : takeHash t matched pos s = (hash, { s with
      nHashUsed := s.nHashUsed + 1
      vMatch := s.vMatch ++ if matched then [hash] else []
      vnIndex := s.vnIndex ++ if matched then [pos] else [] }) := by
  rw [takeHash, h]
  cases matched <;> simp

section Completeness

variable (E : Env) (vTxid : List Uint256) (vMatch : List Bool)

def pastNode (height pos : Nat) (s : Cursor) : Cursor where
  nBitsUsed := s.nBitsUsed + (traverseAndBuild E vTxid vMatch height pos).1.length
  nHashUsed := s.nHashUsed + (traverseAndBuild E vTxid vMatch height pos).2.length
  vMatch := s.vMatch ++ (hits vTxid vMatch height pos).map fun p => vTxid.getD p 0
  vnIndex := s.vnIndex ++ hits vTxid vMatch height pos
  fBad := s.fBad

lemma pastNode_both (s : Cursor) (hparent : parentOfMatch vTxid vMatch (height + 1) pos)
    (hright : pos * 2 + 1 < calcTreeWidth vTxid.length height) :
    pastNode E vTxid vMatch height (pos * 2 + 1) (pastNode E vTxid vMatch height
      (pos * 2) s.nextBit) = pastNode E vTxid vMatch (height + 1) pos s := by
  simp only [pastNode, Cursor.nextBit, traverseAndBuild, if_pos hparent, if_pos hright, hits_succ,
    List.length_cons, List.length_append, List.map_append, List.append_assoc, Cursor.mk.injEq,
    and_self, and_true]
  omega

lemma pastNode_left (s : Cursor) (hparent : parentOfMatch vTxid vMatch (height + 1) pos)
    (hright : ¬ pos * 2 + 1 < calcTreeWidth vTxid.length height) :
    pastNode E vTxid vMatch height (pos * 2) s.nextBit = pastNode E vTxid vMatch
      (height + 1) pos s := by
  have hnone : hits vTxid vMatch height (pos * 2 + 1) = [] := by
    rw [lt_calcTreeWidth_iff] at hright
    exact hits_of_le vTxid vMatch (not_lt.mp hright)
  simp only [pastNode, Cursor.nextBit, traverseAndBuild, if_pos hparent, if_neg hright,
    hits_succ, hnone, List.length_cons, List.append_nil, Cursor.mk.injEq, and_self, and_true]
  omega

lemma extract_build {t : CPartialMerkleTree} (ht : t.nTransactions = vTxid.length)
    (hnodup : vTxid.Nodup) (hfree : CollisionFree (inner E) (treePairs E vTxid) (treePairs E vTxid))
    (hheight : height ≤ treeHeight vTxid.length) (hpos : pos * 2 ^ height < vTxid.length)
    (hbits : (traverseAndBuild E vTxid vMatch height pos).1 <+: t.vBits.drop s.nBitsUsed)
    (hhash : (traverseAndBuild E vTxid vMatch height pos).2 <+: t.vHash.drop s.nHashUsed) :
    traverseAndExtract E t height pos s = (calcHash E vTxid height pos,
      pastNode E vTxid vMatch height pos s) := by
  induction height generalizing pos s with
  | zero =>
    rw [pow_zero, mul_one] at hpos
    have hbit := (uncons_drop hbits).1
    have hfirst := (uncons_drop hhash).1
    have hhit := hits_zero vTxid vMatch pos hpos
    rw [traverseAndExtract, hbit]
    dsimp only
    rw [takeHash_of_some (s := s.nextBit) hfirst, parentOfMatch, hhit]
    unfold pastNode
    rw [hhit]
    cases vMatch.getD pos false <;> rfl
  | succ height ih =>
    have hwhole : pos * 2 * 2 ^ height < vTxid.length := by rwa [mul_assoc, ← pow_succ']
    by_cases hparent : parentOfMatch vTxid vMatch (height + 1) pos
    · rw [traverseAndBuild, if_pos hparent] at hbits hhash
      obtain ⟨hbit, hbits⟩ := uncons_drop hbits
      obtain ⟨hleftBits, hrightBits⟩ := parts_of_prefix hbits
      obtain ⟨hleftHash, hrightHash⟩ := parts_of_prefix hhash
      have hleft := ih (s := s.nextBit) (by omega) hwhole hleftBits hleftHash
      rw [traverseAndExtract, hbit]
      dsimp only
      rw [hleft, ht]
      split_ifs with hright
      · rw [if_pos hright] at hrightBits hrightHash
        rw [lt_calcTreeWidth_iff] at hright
        have hnext := ih (s := pastNode E vTxid vMatch height (pos * 2) s.nextBit) (by omega)
          hright hrightBits hrightHash
        have hne : calcHash E vTxid height (pos * 2 + 1) ≠ calcHash E vTxid height (pos * 2) :=
          fun heq => absurd (calcHash_inj E vTxid hnodup hfree (by omega) hright hwhole heq)
            (by omega)
        have hin := (lt_calcTreeWidth_iff _ _ _).mpr hright
        rw [hnext, joinBranches, if_neg hne, calcHash_succ, branches, if_pos hin,
          pastNode_both E vTxid vMatch s hparent hin]
      · rw [calcHash_succ, branches, if_neg hright, pastNode_left E vTxid vMatch s hparent hright]
    · rw [traverseAndBuild, if_neg hparent] at hbits hhash
      have hbit := (uncons_drop hbits).1
      have hfirst := (uncons_drop hhash).1
      have hnone : hits vTxid vMatch (height + 1) pos = [] := by
        rw [parentOfMatch, Bool.not_eq_true, Bool.not_eq_false', List.isEmpty_iff] at hparent
        exact hparent
      rw [traverseAndExtract, hbit]
      dsimp only
      rw [takeHash_of_some (s := s.nextBit) hfirst]
      simp only [pastNode, hnone, traverseAndBuild, if_neg hparent, List.map_nil, List.append_nil,
        Bool.false_eq_true, if_false, Cursor.nextBit, List.length_singleton]

/-- What was built is read back, with root, ids and positions. -/
lemma extractMatches_ofMatches (hne : vTxid ≠ []) (hnodup : vTxid.Nodup)
    (hlimit : vTxid.length ≤ MAX_BLOCK_WEIGHT / MIN_TRANSACTION_WEIGHT)
    (hfree : CollisionFree (inner E) (treePairs E vTxid) (treePairs E vTxid)) :
    extractMatches E (ofMatches E vTxid vMatch) [] =
      ⟨(computeMerkleRoot E vTxid).1,
        ((List.range vTxid.length).filter fun p => vMatch.getD p false).map fun p => vTxid.getD p 0,
        (List.range vTxid.length).filter fun p => vMatch.getD p false⟩ := by
  have hpos : 0 * 2 ^ treeHeight vTxid.length < vTxid.length := by
    rw [zero_mul]
    exact List.length_pos_of_ne_nil hne
  have hcover : vTxid.length ≤ 2 ^ treeHeight vTxid.length := by
    have htop := (treeHeight_spec vTxid.length).2.2
    rw [← not_lt, lt_calcTreeWidth_iff, one_mul] at htop
    exact not_lt.mp htop
  have hbits := build_hashes_le_bits E vTxid vMatch (treeHeight vTxid.length) 0
  have hleaves := build_hashes_le_leaves E vTxid vMatch hpos
  have hwalk := extract_build E vTxid vMatch (t := ofMatches E vTxid vMatch) rfl hnodup hfree
    (s := ⟨0, 0, [], [], false⟩) (le_refl _) hpos List.prefix_rfl List.prefix_rfl
  have hpass : ¬ ((ofMatches E vTxid vMatch).nTransactions = 0 ∨
      (ofMatches E vTxid vMatch).nTransactions > MAX_BLOCK_WEIGHT / MIN_TRANSACTION_WEIGHT ∨
      (ofMatches E vTxid vMatch).vHash.length > (ofMatches E vTxid vMatch).nTransactions ∨
      (ofMatches E vTxid vMatch).vBits.length < (ofMatches E vTxid vMatch).vHash.length) := by
    simp only [ofMatches]
    omega
  rw [extractMatches, if_neg hpass]
  have hstart : (ofMatches E vTxid vMatch).fBad = false := rfl
  have hcount : (ofMatches E vTxid vMatch).nTransactions = vTxid.length := rfl
  dsimp only
  rw [hstart, hcount, hwalk, calcHash_root E vTxid hne]
  simp only [pastNode, ofMatches, hits_root vTxid vMatch _ hcover, zero_add, List.nil_append,
    Bool.false_eq_true, ne_eq, not_true_eq_false, or_self, if_false]

end Completeness

section Soundness

variable (E : Env) (t : CPartialMerkleTree)

def extractPairs : Nat → Nat → Cursor → List (Uint256 × Uint256)
  | 0, _, _ => []
  | height + 1, pos, s =>
    if t.vBits[s.nBitsUsed]? = some true then
      let left := traverseAndExtract E t height (pos * 2) s.nextBit
      if pos * 2 + 1 < calcTreeWidth t.nTransactions height then
        (left.1, (traverseAndExtract E t height (pos * 2 + 1) left.2).1) ::
          (extractPairs height (pos * 2) s.nextBit ++ extractPairs height (pos * 2 + 1) left.2)
      else (left.1, left.1) :: extractPairs height (pos * 2) s.nextBit
    else []

/-- The matches added since `s` stand at their positions in the list. -/
def Located (vTxid : List Uint256) (s s' : Cursor) : Prop :=
  ∃ found : List (Uint256 × Nat), s'.vMatch = s.vMatch ++ found.map Prod.fst ∧
    s'.vnIndex = s.vnIndex ++ found.map Prod.snd ∧ ∀ x ∈ found, vTxid[x.2]? = some x.1

variable {vTxid : List Uint256}

lemma Located.same {s' : Cursor} (hmatch : s'.vMatch = s.vMatch)
    (hindex : s'.vnIndex = s.vnIndex) : Located vTxid s s' :=
  ⟨[], by rw [hmatch, List.map_nil, List.append_nil], by rw [hindex, List.map_nil, List.append_nil],
    nofun⟩

lemma Located.trans {s' s'' : Cursor} (h : Located vTxid s s') (h' : Located vTxid s' s'') :
    Located vTxid s s'' := by
  obtain ⟨found, hmatch, hindex, hat⟩ := h
  obtain ⟨found', hmatch', hindex', hat'⟩ := h'
  refine ⟨found ++ found', ?_, ?_, ?_⟩
  · rw [hmatch', hmatch, List.map_append, List.append_assoc]
  · rw [hindex', hindex, List.map_append, List.append_assoc]
  · intro x hx
    rcases List.mem_append.mp hx with hold | hnew
    · exact hat x hold
    · exact hat' x hnew

lemma takeHash_located {matched : Bool}
    (hat : matched = true → vTxid[pos]? = some (takeHash t matched pos s).1) :
    Located vTxid s (takeHash t matched pos s).2 := by
  cases hhash : t.vHash[s.nHashUsed]? with
  | none =>
    rw [takeHash, hhash]
    exact .same rfl rfl
  | some hash =>
    rw [takeHash_of_some hhash] at hat ⊢
    cases matched with
    | false => exact .same (List.append_nil _) (List.append_nil _)
    | true =>
      refine ⟨[(hash, pos)], rfl, rfl, ?_⟩
      intro x hx
      obtain rfl := List.mem_singleton.mp hx
      exact hat rfl

lemma joinBranches_located (left : Uint256) (right : Uint256 × Cursor) :
    Located vTxid right.2 (joinBranches E left right).2 := by
  rw [joinBranches]
  dsimp only
  split_ifs
  · exact .same rfl rfl
  · exact .same rfl rfl

lemma extract_located (ht : t.nTransactions = vTxid.length)
    (hheight : height ≤ treeHeight vTxid.length) (hpos : pos * 2 ^ height < vTxid.length)
    (hfree : CollisionFree (inner E) (extractPairs E t height pos s) (treePairs E vTxid))
    (hhash : (traverseAndExtract E t height pos s).1 = calcHash E vTxid height pos) :
    Located vTxid s (traverseAndExtract E t height pos s).2 := by
  induction height generalizing pos s with
  | zero =>
    rw [pow_zero, mul_one] at hpos
    rw [traverseAndExtract] at hhash ⊢
    cases hbit : t.vBits[s.nBitsUsed]? with
    | none => exact .same rfl rfl
    | some matched =>
      rw [hbit] at hhash
      have hnext : Located vTxid s s.nextBit := .same rfl rfl
      refine hnext.trans (takeHash_located t fun _ => ?_)
      rw [hhash, calcHash, List.getD_eq_getElem _ _ hpos, List.getElem?_eq_getElem hpos]
  | succ height ih =>
    have hnext : Located vTxid s s.nextBit := .same rfl rfl
    have hwhole : pos * 2 * 2 ^ height < vTxid.length := by rwa [mul_assoc, ← pow_succ']
    have hpair := branches_mem E vTxid hheight hpos
    rw [traverseAndExtract] at hhash ⊢
    cases hbit : t.vBits[s.nBitsUsed]? with
    | none => exact .same rfl rfl
    | some descend =>
      cases descend with
      | false => exact hnext.trans (takeHash_located t nofun)
      | true =>
        rw [hbit, calcHash_succ] at hhash
        rw [extractPairs, if_pos hbit] at hfree
        dsimp only at hhash hfree ⊢
        by_cases hright : pos * 2 + 1 < calcTreeWidth t.nTransactions height
        · rw [if_pos hright] at hhash hfree ⊢
          have hsame := hfree _ List.mem_cons_self _ hpair hhash
          rw [branches, ← ht, if_pos hright] at hsame
          obtain ⟨hl, hr⟩ := Prod.mk.inj hsame
          rw [ht, lt_calcTreeWidth_iff] at hright
          have hleft := ih (by omega) hwhole (hfree.mono (by simp) fun _ h => h) hl
          have hrest := ih (by omega) hright (hfree.mono (by simp) fun _ h => h) hr
          exact hnext.trans (hleft.trans (hrest.trans (joinBranches_located E _ _)))
        · rw [if_neg hright] at hhash hfree ⊢
          have hsame := hfree _ List.mem_cons_self _ hpair hhash
          rw [branches, ← ht, if_neg hright] at hsame
          have hfree' := hfree.mono (List.subset_cons_self _ _) fun _ h => h
          exact hnext.trans (ih (by omega) hwhole hfree' (Prod.mk.inj hsame).1)

def walkPairs : List (Uint256 × Uint256) :=
  extractPairs E t (treeHeight t.nTransactions) 0 ⟨0, 0, [], [], t.fBad⟩

/-- With the right root every match is a member of the list. -/
lemma extractMatches_located (hne : vTxid ≠ []) (ht : t.nTransactions = vTxid.length)
    (hfree : CollisionFree (inner E) (walkPairs E t) (treePairs E vTxid))
    (hroot : (extractMatches E t []).hashMerkleRoot = (computeMerkleRoot E vTxid).1)
    (hnull : (computeMerkleRoot E vTxid).1 ≠ 0) :
    ∃ found : List (Uint256 × Nat), (extractMatches E t []).vMatch = found.map Prod.fst ∧
      (extractMatches E t []).vnIndex = found.map Prod.snd ∧ ∀ x ∈ found,
        vTxid[x.2]? = some x.1 := by
  rw [← hroot] at hnull
  unfold extractMatches at hroot hnull ⊢
  split_ifs at hroot hnull ⊢ with hcheck
  · exact absurd rfl hnull
  · dsimp only at hroot hnull ⊢
    split_ifs at hroot hnull with hfail
    · exact absurd rfl hnull
    · rw [← calcHash_root E vTxid hne, ← ht] at hroot
      have hpos : 0 * 2 ^ treeHeight t.nTransactions < vTxid.length := by
        rw [zero_mul]
        exact List.length_pos_of_ne_nil hne
      obtain ⟨found, hmatch, hindex, hat⟩ :=
        extract_located E t ht (ht ▸ le_refl _) hpos hfree hroot
      exact ⟨found, hmatch, hindex, hat⟩

end Soundness

/-- What was built is extracted again, and what is extracted under the root of a list is at its
position there; the null hash is the answer to a malformed tree, so the root is a different one. -/
theorem partialTree_authenticates (E : Env) {vTxid : List Uint256} (hne : vTxid ≠ []) :
    (vTxid.Nodup → vTxid.length ≤ MAX_BLOCK_WEIGHT / MIN_TRANSACTION_WEIGHT →
      CollisionFree (inner E) (treePairs E vTxid) (treePairs E vTxid) → ∀ vMatch : List Bool,
      extractMatches E (ofMatches E vTxid vMatch) [] =
        ⟨(computeMerkleRoot E vTxid).1,
          ((List.range vTxid.length).filter fun p => vMatch.getD p false).map fun p =>
            vTxid.getD p 0,
          (List.range vTxid.length).filter fun p => vMatch.getD p false⟩) ∧
    ∀ t : CPartialMerkleTree, t.nTransactions = vTxid.length →
      CollisionFree (inner E) (walkPairs E t) (treePairs E vTxid) →
      (extractMatches E t []).hashMerkleRoot = (computeMerkleRoot E vTxid).1 →
      (computeMerkleRoot E vTxid).1 ≠ 0 →
      ∃ found : List (Uint256 × Nat), (extractMatches E t []).vMatch = found.map Prod.fst ∧
        (extractMatches E t []).vnIndex = found.map Prod.snd ∧ ∀ x ∈ found,
          vTxid[x.2]? = some x.1 := by
  constructor
  · intro hnodup hlimit hfree vMatch
    exact extractMatches_ofMatches E vTxid vMatch hne hnodup hlimit hfree
  · intro t ht hfree hroot hnull
    exact extractMatches_located E t hne ht hfree hroot hnull

def twoIds : List Uint256 := [1, 2]

lemma twoIds_pairs : treePairs env twoIds = [(1, 2)] := rfl

theorem partialTree_authenticates_second :
    extractMatches env (ofMatches env twoIds [false, true]) [] =
      ⟨(computeMerkleRoot env twoIds).1, [2], [1]⟩ := by
  have hfree : CollisionFree (inner env) (treePairs env twoIds) (treePairs env twoIds) := by
    intro p hp q hq _
    rw [twoIds_pairs, List.mem_singleton] at hp hq
    rw [hp, hq]
  have hindex : (List.range twoIds.length).filter (fun p => [false, true].getD p false) =
    [1] := by decide
  have hids : [1].map (fun p => twoIds.getD p 0) = [2] := by decide
  have hne : twoIds ≠ [] := by decide
  have hrun := (partialTree_authenticates env hne).1 (by decide) (by decide) hfree [false, true]
  rw [hindex, hids] at hrun
  exact hrun

def paddedTree : CPartialMerkleTree := ⟨1, List.replicate 16 true, [5], false⟩

/-- The null hash stands for a malformed tree; when it is also the root of the list, the ids that
were found before the check are taken for members of it. -/
theorem null_root_misleads :
    ([0] : List Uint256).Nodup ∧ paddedTree.nTransactions = ([0] : List Uint256).length ∧
      CollisionFree (inner env) (walkPairs env paddedTree) (treePairs env [0]) ∧
      extractMatches env paddedTree [] = ⟨(computeMerkleRoot env [0]).1, [5], [0]⟩ ∧
      ([0] : List Uint256)[0]? ≠ some 5 := by
  refine ⟨List.nodup_singleton 0, rfl, ?_, by decide +kernel, by decide⟩
  exact fun p hp => absurd hp List.not_mem_nil

end PartialMerkleTree
