import BitcoinC.Extents
import BitcoinC.Primitives

/-!
# Positions in block and undo files

`FindBlockPos` and `FindUndoPos` hand out space in the numbered block and undo
files from a table of their sizes. All sizes are 32-bit unsigned integers.
-/

namespace BlockFiles

open Extents List Function Option

def MAX_BLOCKFILE_SIZE : UInt32 := 0x8000000
def BLOCKFILE_CHUNK_SIZE : UInt32 := 0x1000000
def UNDOFILE_CHUNK_SIZE : UInt32 := 0x100000

structure CBlockFileInfo where
  nBlocks : UInt32 := 0
  nSize : UInt32 := 0
  nUndoSize : UInt32 := 0
  nHeightFirst : UInt32 := 0
  nHeightLast : UInt32 := 0
  nTimeFirst : UInt64 := 0
  nTimeLast : UInt64 := 0
deriving Repr, DecidableEq

def CBlockFileInfo.addBlock (info : CBlockFileInfo) (nHeightIn : UInt32) (nTimeIn : UInt64) :
    CBlockFileInfo :=
  { info with
    nHeightFirst := if info.nBlocks = 0 ∨ info.nHeightFirst > nHeightIn then nHeightIn
      else info.nHeightFirst
    nTimeFirst := if info.nBlocks = 0 ∨ info.nTimeFirst > nTimeIn then nTimeIn else info.nTimeFirst
    nBlocks := info.nBlocks + 1
    nHeightLast := if nHeightIn > info.nHeightLast then nHeightIn else info.nHeightLast
    nTimeLast := if nTimeIn > info.nTimeLast then nTimeIn else info.nTimeLast }

@[simp] lemma addBlock_nSize (info : CBlockFileInfo) (nHeightIn : UInt32) (nTimeIn : UInt64) :
    (info.addBlock nHeightIn nTimeIn).nSize = info.nSize := rfl

structure CDiskBlockPos where
  nFile : Nat
  nPos : UInt32
deriving Repr, DecidableEq

structure Files where
  vinfoBlockFile : List CBlockFileInfo := []
  nLastBlockFile : Nat := 0
deriving Repr, DecidableEq

def infoAt (vinfo : List CBlockFileInfo) (nFile : Nat) : CBlockFileInfo := vinfo.getD nFile {}

def resizeTo (vinfo : List CBlockFileInfo) (nFile : Nat) : List CBlockFileInfo :=
  vinfo ++ replicate (nFile + 1 - vinfo.length) ({} : CBlockFileInfo)

/-- The first file from `nFile` on with room. There is no result when the fuel is used up. -/
def findFile (nAddSize : UInt32) : Nat → List CBlockFileInfo → Nat →
    Option (List CBlockFileInfo × Nat)
  | 0, vinfo, nFile =>
    if (infoAt vinfo nFile).nSize + nAddSize ≥ MAX_BLOCKFILE_SIZE then none else some (vinfo, nFile)
  | fuel + 1, vinfo, nFile =>
    if (infoAt vinfo nFile).nSize + nAddSize ≥ MAX_BLOCKFILE_SIZE then
      findFile nAddSize fuel (resizeTo vinfo (nFile + 1)) (nFile + 1)
    else some (vinfo, nFile)

def chunksFit (chunk nPos nNewSize : UInt32) (space : Bool) : Bool :=
  let nOldChunks := (nPos + chunk - 1) / chunk
  let nNewChunks := (nNewSize + chunk - 1) / chunk
  !(nNewChunks > nOldChunks) || space

def findBlockPos (s : Files) (pos : CDiskBlockPos) (nAddSize nHeight : UInt32) (nTime : UInt64)
    (fKnown space : Bool) : Option (Bool × CDiskBlockPos × Files) :=
  let nFile := if fKnown then pos.nFile else s.nLastBlockFile
  let vinfo := resizeTo s.vinfoBlockFile nFile
  let found := if fKnown then some (vinfo, nFile) else findFile nAddSize vinfo.length vinfo nFile
  found.map fun (vinfo, nFile) =>
    let pos := if fKnown then pos else ⟨nFile, (infoAt vinfo nFile).nSize⟩
    let info := (infoAt vinfo nFile).addBlock nHeight nTime
    let nSize := if fKnown then max (pos.nPos + nAddSize) info.nSize else info.nSize + nAddSize
    (fKnown || chunksFit BLOCKFILE_CHUNK_SIZE pos.nPos nSize space, pos,
      ⟨vinfo.set nFile { info with nSize }, nFile⟩)

def findUndoPos (s : Files) (nFile : Nat) (nAddSize : UInt32) (space : Bool) :
    Option (Bool × CDiskBlockPos × Files) :=
  if nFile < s.vinfoBlockFile.length then
    let info := infoAt s.vinfoBlockFile nFile
    let nNewSize := info.nUndoSize + nAddSize
    some (chunksFit UNDOFILE_CHUNK_SIZE info.nUndoSize nNewSize space, ⟨nFile, info.nUndoSize⟩,
      { s with vinfoBlockFile := s.vinfoBlockFile.set nFile { info with nUndoSize := nNewSize } })
  else none

def sizeOf (s : Files) (f : Nat) : Nat := (infoAt s.vinfoBlockFile f).nSize.toNat

def undoSizeOf (s : Files) (f : Nat) : Nat := (infoAt s.vinfoBlockFile f).nUndoSize.toNat

lemma infoAt_resizeTo (vinfo : List CBlockFileInfo) (n f : Nat) :
    infoAt (resizeTo vinfo n) f = infoAt vinfo f := by
  unfold infoAt resizeTo
  rcases Nat.lt_or_ge f vinfo.length with hlt | hge
  · rw [getD_append _ _ _ _ hlt]
  · rw [getD_append_right _ _ _ _ hge, getD_eq_default _ _ hge]
    rcases Nat.lt_or_ge (f - vinfo.length) (n + 1 - vinfo.length) with hin | hout
    · exact getD_replicate _ hin
    · exact getD_eq_default _ _ (by rwa [length_replicate])

lemma resizeTo_length (vinfo : List CBlockFileInfo) (n : Nat) : n < (resizeTo vinfo n).length := by
  rw [resizeTo, length_append, length_replicate]
  omega

lemma infoAt_set (vinfo : List CBlockFileInfo) {n : Nat} (hn : n < vinfo.length)
    (info : CBlockFileInfo) (f : Nat) :
    infoAt (vinfo.set n info) f = if f = n then info else infoAt vinfo f := by
  unfold infoAt
  rw [getD_eq_getElem?_getD, getD_eq_getElem?_getD]
  by_cases hf : f = n
  · rw [if_pos hf, hf, getElem?_set_self hn, getD_some]
  · rw [if_neg hf, getElem?_set_ne (Ne.symm hf)]

lemma findFile_spec {nAddSize : UInt32} (hadd : nAddSize < MAX_BLOCKFILE_SIZE) {fuel nFile : Nat}
    {vinfo : List CBlockFileInfo} (hin : nFile < vinfo.length)
    (hfresh : ∀ f, nFile + fuel ≤ f → infoAt vinfo f = {}) :
    ∃ found, findFile nAddSize fuel vinfo nFile = some found ∧ found.2 < found.1.length ∧
      (∀ f, infoAt found.1 f = infoAt vinfo f) ∧
      (infoAt vinfo found.2).nSize + nAddSize < MAX_BLOCKFILE_SIZE := by
  induction fuel generalizing vinfo nFile with
  | zero =>
    have hroom : (infoAt vinfo nFile).nSize + nAddSize < MAX_BLOCKFILE_SIZE := by
      rw [hfresh nFile (Nat.le_refl _), UInt32.zero_add]
      exact hadd
    exact ⟨(vinfo, nFile), if_neg (UInt32.not_le.mpr hroom), hin, fun _ => rfl, hroom⟩
  | succ fuel ih =>
    rw [findFile]
    by_cases hfull : (infoAt vinfo nFile).nSize + nAddSize ≥ MAX_BLOCKFILE_SIZE
    · rw [if_pos hfull]
      have hnext : ∀ f, nFile + 1 + fuel ≤ f → infoAt (resizeTo vinfo (nFile + 1)) f = {} := by
        intro f hf
        rw [infoAt_resizeTo]
        exact hfresh f (by omega)
      obtain ⟨found, hfound, hlen, hsame, hroom⟩ := ih (resizeTo_length vinfo (nFile + 1)) hnext
      simp only [infoAt_resizeTo] at hsame hroom
      exact ⟨found, hfound, hlen, hsame, hroom⟩
    · rw [if_neg hfull]
      exact ⟨(vinfo, nFile), rfl, hin, fun _ => rfl, UInt32.not_le.mp hfull⟩

/-- A position is the old end of its file, which grows by the size asked for. -/
lemma findBlockPos_spec (s : Files) (pos : CDiskBlockPos) {nAddSize : UInt32}
    (hadd : nAddSize < MAX_BLOCKFILE_SIZE) (nHeight : UInt32) (nTime : UInt64) (space : Bool) :
    ∃ ok f s', findBlockPos s pos nAddSize nHeight nTime false space =
        some (ok, ⟨f, (infoAt s.vinfoBlockFile f).nSize⟩, s') ∧
      (infoAt s.vinfoBlockFile f).nSize + nAddSize < MAX_BLOCKFILE_SIZE ∧
      sizeOf s' = update (sizeOf s) f ((infoAt s.vinfoBlockFile f).nSize + nAddSize).toNat ∧
      undoSizeOf s' = undoSizeOf s := by
  have hfresh : ∀ f, s.nLastBlockFile + (resizeTo s.vinfoBlockFile s.nLastBlockFile).length ≤ f →
      infoAt (resizeTo s.vinfoBlockFile s.nLastBlockFile) f = {} := by
    intro f hf
    exact getD_eq_default _ _ (by omega)
  obtain ⟨⟨vinfo, f⟩, hfound, hlen, hsame, hroom⟩ :=
    findFile_spec hadd (resizeTo_length s.vinfoBlockFile s.nLastBlockFile) hfresh
  simp only [infoAt_resizeTo] at hsame hroom hlen
  have hset := infoAt_set vinfo hlen
  let info := { (infoAt s.vinfoBlockFile f).addBlock nHeight nTime with
    nSize := (infoAt s.vinfoBlockFile f).nSize + nAddSize }
  refine ⟨chunksFit BLOCKFILE_CHUNK_SIZE (infoAt s.vinfoBlockFile f).nSize info.nSize space, f,
    ⟨vinfo.set f info, f⟩, ?_, hroom, ?_, ?_⟩
  · unfold findBlockPos
    simp only [Bool.false_eq_true, if_false, hfound, map_some, hsame, Bool.false_or,
      addBlock_nSize, info]
  · funext g
    rw [sizeOf, hset, update_apply]
    split_ifs with hg
    · rfl
    · rw [hsame, sizeOf]
  · funext g
    rw [undoSizeOf, hset]
    split_ifs with hg
    · rw [undoSizeOf, hg]
      rfl
    · rw [hsame, undoSizeOf]

lemma findUndoPos_spec {s : Files} {nFile : Nat} {nAddSize : UInt32} {space ok : Bool}
    {pos : CDiskBlockPos} {s' : Files} (h : findUndoPos s nFile nAddSize space =
      some (ok, pos, s')) :
    pos = ⟨nFile, (infoAt s.vinfoBlockFile nFile).nUndoSize⟩ ∧ sizeOf s' = sizeOf s ∧
      undoSizeOf s' = update (undoSizeOf s) nFile
        ((undoSizeOf s nFile + nAddSize.toNat) % 2 ^ 32) := by
  unfold findUndoPos at h
  split_ifs at h with hlen
  simp only [some.injEq, Prod.mk.injEq] at h
  obtain ⟨-, rfl, rfl⟩ := h
  have hset := infoAt_set s.vinfoBlockFile hlen
  refine ⟨rfl, ?_, ?_⟩
  · funext g
    rw [sizeOf, hset]
    split_ifs with hg
    · rw [sizeOf, hg]
    · rw [sizeOf]
  · funext g
    rw [undoSizeOf, hset, update_apply]
    split_ifs with hg
    · exact UInt32.toNat_add _ _
    · rw [undoSizeOf]

inductive Call where
  | findBlockPos (nAddSize nHeight : UInt32) (nTime : UInt64) (space : Bool)
  | findUndoPos (nFile : Nat) (nAddSize : UInt32) (space : Bool)
deriving Repr, DecidableEq

structure Handed where
  files : Files := {}
  blocks : List (Extent Nat) := []
  undos : List (Extent Nat) := []

variable (vinfo : List CBlockFileInfo) {h h' : Handed} {nAddSize : UInt32} {c : Call}
  {calls : List Call}

def extentAt (pos : CDiskBlockPos) (nAddSize : UInt32) : Extent Nat :=
  ⟨pos.nFile, pos.nPos.toNat, nAddSize.toNat⟩

def step (h : Handed) : Call → Option Handed
  | .findBlockPos nAddSize nHeight nTime space =>
    (findBlockPos h.files ⟨0, 0⟩ nAddSize nHeight nTime false space).map fun r =>
      { h with files := r.2.2, blocks := h.blocks ++ [extentAt r.2.1 nAddSize] }
  | .findUndoPos nFile nAddSize space =>
    (findUndoPos h.files nFile nAddSize space).map fun r =>
      { h with files := r.2.2, undos := h.undos ++ [extentAt r.2.1 nAddSize] }

def SmallBlocks (calls : List Call) : Prop :=
  ∀ nAddSize nHeight nTime space, Call.findBlockPos nAddSize nHeight nTime space ∈ calls →
    nAddSize < MAX_BLOCKFILE_SIZE

/-- Every undo record that is not empty starts below `2 ^ 32`, with the sizes added up exactly. -/
def UndoStartsFit (used : Nat → Nat) : List Call → Prop
  | [] => True
  | .findBlockPos _ _ _ _ :: calls => UndoStartsFit used calls
  | .findUndoPos nFile nAddSize _ :: calls => (0 < nAddSize.toNat → used nFile < 2 ^ 32) ∧
      UndoStartsFit (update used nFile (used nFile + nAddSize.toNat)) calls

/-- The files are filled with the blocks handed out so far. -/
structure Packed (h : Handed) : Prop where
  filled : Filled (sizeOf h.files) h.blocks
  limit : ∀ f, sizeOf h.files f < MAX_BLOCKFILE_SIZE.toNat

lemma max_toNat : MAX_BLOCKFILE_SIZE.toNat = 0x8000000 := by
  simp only [MAX_BLOCKFILE_SIZE, UInt32.reduceToNat]

lemma packed_start : Packed {} := by
  refine ⟨Filled.nil, fun _ => ?_⟩
  rw [max_toNat]
  exact Nat.succ_pos _

lemma Packed.step (hp : Packed h) (hsmall : SmallBlocks [c]) (hstep : step h c = some h') :
    Packed h' := by
  cases c with
  | findBlockPos nAddSize nHeight nTime space =>
    have hadd := hsmall nAddSize nHeight nTime space mem_cons_self
    obtain ⟨ok, f, s', hrun, hroom, hsize, -⟩ :=
      findBlockPos_spec h.files ⟨0, 0⟩ hadd nHeight nTime space
    rw [BlockFiles.step, hrun, map_some] at hstep
    obtain rfl := some.inj hstep
    -- below the limit the 32-bit sum is the exact one
    have hexact : ((infoAt h.files.vinfoBlockFile f).nSize + nAddSize).toNat =
        sizeOf h.files f + nAddSize.toNat := by
      have hlimit := hp.limit f
      rw [UInt32.lt_iff_toNat_lt, max_toNat] at hadd
      rw [max_toNat] at hlimit
      rw [sizeOf] at hlimit ⊢
      rw [UInt32.toNat_add]
      omega
    rw [UInt32.lt_iff_toNat_lt, hexact] at hroom
    rw [hexact] at hsize
    constructor
    · rw [hsize]
      exact hp.filled.append f nAddSize.toNat
    · intro g
      rw [hsize, update_apply]
      split_ifs with hg
      · exact hroom
      · exact hp.limit g
  | findUndoPos nFile nAddSize space =>
    obtain ⟨⟨ok, pos, s'⟩, hrun, rfl⟩ := map_eq_some_iff.mp hstep
    obtain ⟨-, hsize, -⟩ := findUndoPos_spec hrun
    constructor
    · rw [hsize]
      exact hp.filled
    · rw [hsize]
      exact hp.limit

lemma Packed.run (hp : Packed h) (hsmall : SmallBlocks calls)
    (hrun : calls.foldlM BlockFiles.step h = some h') : Packed h' := by
  induction calls generalizing h with
  | nil =>
    obtain rfl := some.inj hrun
    exact hp
  | cons c calls ih =>
    obtain ⟨mid, hmid, hrest⟩ := bind_eq_some_iff.mp hrun
    have hfirst : SmallBlocks [c] := fun _ _ _ _ hc =>
      hsmall _ _ _ _ (mem_cons.mpr (Or.inl (mem_singleton.mp hc)))
    exact ih (hp.step hfirst hmid) (fun _ _ _ _ hc => hsmall _ _ _ _ (mem_cons_of_mem _ hc)) hrest

/-- The undo files, with sizes that are kept modulo 2^32. -/
structure UndoPacked (used : Nat → Nat) (h : Handed) : Prop where
  filled : Filled used h.undos
  wraps : ∀ f, undoSizeOf h.files f = used f % 2 ^ 32

lemma undoPacked_start : UndoPacked (fun _ => 0) {} := ⟨Filled.nil, fun _ => rfl⟩

lemma step_undos (hstep : step h c = some h') : ∃ more, h'.undos = h.undos ++ more := by
  cases c with
  | findBlockPos nAddSize nHeight nTime space =>
    obtain ⟨r, -, rfl⟩ := map_eq_some_iff.mp hstep
    exact ⟨[], (append_nil _).symm⟩
  | findUndoPos nFile nAddSize space =>
    obtain ⟨r, -, rfl⟩ := map_eq_some_iff.mp hstep
    exact ⟨_, rfl⟩

lemma run_undos (hrun : calls.foldlM step h = some h') : ∃ more, h'.undos = h.undos ++ more := by
  induction calls generalizing h with
  | nil =>
    obtain rfl := some.inj hrun
    exact ⟨[], (append_nil _).symm⟩
  | cons c calls ih =>
    obtain ⟨mid, hmid, hrest⟩ := bind_eq_some_iff.mp hrun
    obtain ⟨more, hmore⟩ := step_undos hmid
    obtain ⟨rest, hrest⟩ := ih hrest
    exact ⟨more ++ rest, by rw [hrest, hmore, append_assoc]⟩

/-- Undo positions are disjoint exactly when every start fits its counter. -/
lemma undos_apart_iff {used : Nat → Nat} (hp : UndoPacked used h) (hsmall : SmallBlocks calls)
    (hrun : calls.foldlM step h = some h') :
    h'.undos.Pairwise Apart ↔ UndoStartsFit used calls := by
  induction calls generalizing used h with
  | nil =>
    obtain rfl := some.inj hrun
    exact iff_of_true hp.filled.apart trivial
  | cons c calls ih =>
    obtain ⟨mid, hmid, hrest⟩ := bind_eq_some_iff.mp hrun
    have hsmall' : SmallBlocks calls := fun _ _ _ _ hc => hsmall _ _ _ _ (mem_cons_of_mem _ hc)
    cases c with
    | findBlockPos nAddSize nHeight nTime space =>
      have hadd := hsmall nAddSize nHeight nTime space mem_cons_self
      obtain ⟨ok, f, s', hcall, -, -, hundo⟩ :=
        findBlockPos_spec h.files ⟨0, 0⟩ hadd nHeight nTime space
      rw [step, hcall, map_some] at hmid
      obtain rfl := some.inj hmid
      have hkept : ∀ f, undoSizeOf s' f = used f % 2 ^ 32 := fun f => hundo ▸ hp.wraps f
      exact ih (h := ⟨s', _, h.undos⟩) ⟨hp.filled, hkept⟩ hsmall' hrest
    | findUndoPos nFile nAddSize space =>
      obtain ⟨⟨ok, pos, s'⟩, hcall, rfl⟩ := map_eq_some_iff.mp hmid
      obtain ⟨rfl, -, hundo⟩ := findUndoPos_spec hcall
      have hstart : (infoAt h.files.vinfoBlockFile nFile).nUndoSize.toNat = used nFile % 2 ^ 32 :=
        hp.wraps nFile
      have hwraps : ∀ f, undoSizeOf s' f =
          update used nFile (used nFile + nAddSize.toNat) f % 2 ^ 32 := by
        intro f
        rw [hundo, update_apply, update_apply, hp.wraps nFile, Nat.mod_add_mod]
        split_ifs with hf
        · rfl
        · exact hp.wraps f
      rw [UndoStartsFit]
      rw [extentAt, hstart] at hrest
      rcases Nat.lt_or_ge (used nFile) (2 ^ 32) with hfits | hover
      · rw [Nat.mod_eq_of_lt hfits] at hrest
        rw [ih ⟨hp.filled.append nFile nAddSize.toNat, hwraps⟩ hsmall' hrest]
        exact (and_iff_right fun _ => hfits).symm
      · have hlow : used nFile % 2 ^ 32 < used nFile :=
          Nat.lt_of_lt_of_le (Nat.mod_lt _ (Nat.two_pow_pos 32)) hover
        rcases Nat.eq_zero_or_pos nAddSize.toNat with hempty | hpos
        · rw [hempty, Nat.add_zero, update_eq_self] at hwraps ⊢
          rw [hempty] at hrest
          rw [ih ⟨hp.filled.append_empty rfl hlow.le, hwraps⟩ hsmall' hrest]
          exact (and_iff_right fun hpos => absurd hpos (Nat.lt_irrefl 0)).symm
        · -- the start has wrapped into space that is taken
          obtain ⟨more, hmore⟩ := run_undos hrest
          refine iff_of_false ?_ fun hfit => absurd (hfit.1 hpos) (Nat.not_lt.mpr hover)
          rw [hmore, append_assoc]
          exact hp.filled.not_apart hlow hpos more

/-- Block positions never overlap and stay below the limit, and the search for a file ends; undo
positions do not overlap exactly when no undo record starts at `2 ^ 32` or above. -/
theorem positions_disjoint {calls : List Call} (hsmall : SmallBlocks calls) {h : Handed}
    (hrun : calls.foldlM step {} = some h) :
    h.blocks.Pairwise Apart ∧ (∀ r ∈ h.blocks, r.start + r.size ≤ MAX_BLOCKFILE_SIZE.toNat) ∧
    (∀ pos nAddSize nHeight nTime space, nAddSize < MAX_BLOCKFILE_SIZE →
      (findBlockPos h.files pos nAddSize nHeight nTime false space).isSome) ∧
    (h.undos.Pairwise Apart ↔ UndoStartsFit (fun _ => 0) calls) := by
  have hpacked := packed_start.run hsmall hrun
  refine ⟨hpacked.filled.apart, fun r hr => ?_, ?_, undos_apart_iff undoPacked_start hsmall hrun⟩
  · exact (hpacked.filled.inside r hr).trans (hpacked.limit r.file).le
  · intro pos nAddSize nHeight nTime space hadd
    obtain ⟨ok, f, s', hcall, -⟩ := findBlockPos_spec h.files pos hadd nHeight nTime space
    rw [hcall]
    rfl

def twoFiles : List Call :=
  [.findBlockPos 1000 1 1 true, .findUndoPos 0 200 true, .findBlockPos 0x7ffffff 2 2 true,
    .findUndoPos 1 300 true, .findUndoPos 0 100 true]

lemma twoFiles_small : SmallBlocks twoFiles := by
  intro nAddSize nHeight nTime space hc
  simp only [twoFiles, mem_cons, Call.findBlockPos.injEq, reduceCtorEq, not_mem_nil, or_false,
    false_or] at hc
  rcases hc with ⟨rfl, -⟩ | ⟨rfl, -⟩ <;> decide

theorem positions_disjoint_twoFiles :
    ∃ h, twoFiles.foldlM step {} = some h ∧ h.blocks = [⟨0, 0, 1000⟩, ⟨1, 0, 0x7ffffff⟩] ∧
      h.undos.Pairwise Apart := by
  have hrun : (twoFiles.foldlM step {}).map (fun h => h.blocks) =
      some [⟨0, 0, 1000⟩, ⟨1, 0, 0x7ffffff⟩] := by decide +kernel
  obtain ⟨h, hh, hblocks⟩ := map_eq_some_iff.mp hrun
  refine ⟨h, hh, hblocks, (positions_disjoint twoFiles_small hh).2.2.2.mpr ?_⟩
  simp [twoFiles, UndoStartsFit]

def wrapping : List Call :=
  [.findBlockPos 1000 1 1 true, .findUndoPos 0 0x80000000 true, .findUndoPos 0 0x80000000 true,
    .findUndoPos 0 1 true]

/-- The third record gets the first byte of the first one. -/
theorem undo_position_taken :
    SmallBlocks wrapping ∧ ∃ h, wrapping.foldlM step {} = some h ∧ ¬ h.undos.Pairwise Apart := by
  constructor
  · intro nAddSize nHeight nTime space hc
    simp only [wrapping, mem_cons, Call.findBlockPos.injEq, reduceCtorEq, not_mem_nil,
      or_false] at hc
    obtain ⟨rfl, -⟩ := hc
    decide
  · have hrun : (wrapping.foldlM step {}).map (fun h => h.undos) =
        some [⟨0, 0, 0x80000000⟩, ⟨0, 0x80000000, 0x80000000⟩, ⟨0, 0, 1⟩] := by decide +kernel
    obtain ⟨h, hh, hundos⟩ := map_eq_some_iff.mp hrun
    refine ⟨h, hh, fun hpair => ?_⟩
    rw [hundos] at hpair
    have hapart := rel_of_pairwise_cons hpair (mem_cons_of_mem _ mem_cons_self)
    exact hapart rfl 0 ⟨⟨Nat.le_refl 0, by decide⟩, ⟨Nat.le_refl 0, by decide⟩⟩

end BlockFiles
