import BitcoinC.ScriptPaths

/-!
# Nested coinstake scripts

`ExtractDestination` and `ExtractIndexInfo` call themselves on the spend branch of a conditional
coinstake script, which may be one again. `ExtractStakingKeyID` does not.
-/

namespace NestedScripts

open Primitives Scripts AddressIndex ScriptPaths

inductive TxNOutType
  | pubkey
  | pubkeyhash
  | scripthash
  | multisig
  | nullData
  | pubkeyhash256
  | scripthash256
  | timelockedPubkeyhash
  | timelockedScripthash
  | timelockedPubkeyhash256
  | timelockedScripthash256
  | timelockedMultisig

inductive CTxDestination
  | keyID (id : Bytes)
  | scriptID (id : Bytes)
  | keyID256 (id : Bytes)
  | scriptID256 (id : Bytes)

/-- `Solver`, which does not call itself, and the id of a public key that is valid. -/
structure Solving where
  solver : Bytes → Option (TxNOutType × Bytes)
  pubkeyID : Bytes → Option Bytes

def destination (E : Solving) (s : Bytes) : Option CTxDestination :=
  match E.solver s with
  | some (.pubkey, key) => (E.pubkeyID key).map .keyID
  | some (.pubkeyhash, id) => some (.keyID id)
  | some (.timelockedPubkeyhash, id) => some (.keyID id)
  | some (.scripthash, id) => some (.scriptID id)
  | some (.timelockedScripthash, id) => some (.scriptID id)
  | some (.pubkeyhash256, id) => some (.keyID256 id)
  | some (.scripthash256, id) => some (.scriptID256 id)
  | _ => none

/-- `ExtractDestination` with at most `depth` calls inside each other; nothing if it needs more. -/
def extractDestination (E : Solving) : Nat → Bytes → Option (Option CTxDestination)
  | 0, _ => none
  | depth + 1, s =>
    if hasIsCoinstakeOp s then
      match getNonCoinstakeScriptPath s with
      | none => some none
      | some scriptB => extractDestination E depth scriptB
    else some (destination E s)

/-- A call on `s` makes a call on `path`. -/
def Enters (s path : Bytes) : Prop := hasIsCoinstakeOp s ∧ getNonCoinstakeScriptPath s = some path

lemma path_length_lt {s path : Bytes} (h : getNonCoinstakeScriptPath s = some path) :
    path.length < s.length := by
  obtain ⟨q, e, hq, he, rfl⟩ := (getNonCoinstakeScriptPath_eq_some_iff path).mp h
  have hq := hq.bound
  have he := he.bound
  rw [length_slice (by omega)]
  omega

lemma nested_length_le {s : Bytes} {chain : List Bytes} (h : List.IsChain Enters (s :: chain)) :
    chain.length ≤ s.length := by
  induction chain generalizing s with
  | nil => exact Nat.zero_le _
  | cons path chain ih =>
    obtain ⟨⟨-, hpath⟩, hrest⟩ := List.isChain_cons_cons.mp h
    have hlt := path_length_lt hpath
    have hle := ih hrest
    rw [List.length_cons]
    omega

lemma extractDestination_isSome (E : Solving) {depth : Nat} {s : Bytes} (h : s.length < depth) :
    (extractDestination E depth s).isSome := by
  induction depth generalizing s with
  | zero => omega
  | succ depth ih =>
    rw [extractDestination]
    split
    · split
      · rfl
      · rename_i path hpath
        have hlt := path_length_lt hpath
        exact ih (by omega)
    · rfl

lemma extractIndexInfoLoop_eq {n m : Nat} {s : Bytes} (hn : s.length ≤ n) (hm : s.length ≤ m) :
    extractIndexInfoLoop n s = extractIndexInfoLoop m s := by
  induction n generalizing m s with
  | zero =>
    obtain rfl : s = [] := List.length_eq_zero_iff.mp (by omega)
    cases m with
    | zero => rfl
    | succ m => rfl
  | succ n ih =>
    cases m with
    | zero =>
      obtain rfl : s = [] := List.length_eq_zero_iff.mp (by omega)
      rfl
    | succ m =>
      rw [extractIndexInfoLoop, extractIndexInfoLoop]
      cases hpath : if hasIsCoinstakeOp s then getNonCoinstakeScriptPath s else none with
      | none => rfl
      | some path =>
        have hlt : path.length < s.length := by
          split at hpath
          · exact path_length_lt hpath
          · cases hpath
        exact ih (by omega) (by omega)

/-- For every script each opcode that is read moves the scan forward within the script, so that it
ends by itself; the branch is shorter than the script, calls are nested no deeper than the script
is long, and both functions return. -/
theorem classification_terminates (s : Bytes) :
    (∀ pc opcode data pc', getScriptOp s pc = some (opcode, data, pc') → pc < pc' ∧
      pc' ≤ s.length) ∧
    (∀ fuel, s.length ≤ fuel → nonCoinstakePathLoop s fuel 0 none = getNonCoinstakeScriptPath s) ∧
    (∀ path, Enters s path → path.length < s.length) ∧
    (∀ chain, List.IsChain Enters (s :: chain) → chain.length ≤ s.length) ∧
    (∀ E : Solving, (extractDestination E (s.length + 1) s).isSome) ∧
    ∀ depth, s.length ≤ depth → extractIndexInfoLoop depth s = extractIndexInfo s := by
  refine ⟨fun _ _ _ _ => getScriptOp_bound, ?_, fun path h => path_length_lt h.2, fun chain h =>
    nested_length_le h, fun E => extractDestination_isSome E (Nat.lt_succ_self _),
    fun depth h => extractIndexInfoLoop_eq h le_rfl⟩
  intro fuel hfuel
  refine Option.ext fun r => ?_
  rw [getNonCoinstakeScriptPath_eq_some_iff, nonCoinstakePathLoop_eq]
  exact pathLoop_closed fuel 0 (by omega) r

end NestedScripts
