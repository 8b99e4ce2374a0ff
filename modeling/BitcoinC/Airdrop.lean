import BitcoinC.ToyEnvironment

/-!
# Imported coinbases

Up to the last import height a block may carry coinbase transactions whose hashes
are listed in the chain parameters.
-/

namespace Airdrop

open Primitives Encoding Environment Verdicts TxVerify Kernel Blocks ConnectBlock List

/-- Members of `ls` that occur in `cs`, as often in all as `ls` is long, occur exactly once. -/
lemma count_eq_one_of_sum {α : Type} [DecidableEq α] (ls cs : List α)
    (hfound : ∀ l ∈ ls, 0 < cs.count l) (hsum : (ls.map fun l => cs.count l).sum = ls.length) :
    ∀ l ∈ ls, cs.count l = 1 := by
  induction ls with
  | nil => simp
  | cons l ls ih =>
    rw [forall_mem_cons] at hfound ⊢
    rw [map_cons, sum_cons, length_cons] at hsum
    have hrest : (ls.map fun l => cs.count l).length ≤ (ls.map fun l => cs.count l).sum := by
      refine length_le_sum_of_one_le _ fun n hn => ?_
      obtain ⟨l', hl', rfl⟩ := mem_map.mp hn
      exact hfound.2 l' hl'
    rw [length_map] at hrest
    have hpos := hfound.1
    exact ⟨by omega, ih hfound.2 (by omega)⟩

/-- With every member of `ls` exactly once in `cs`, the two are one multiset exactly when `cs` has
no other member and `ls` no repetition. -/
lemma coe_eq_coe_iff_of_count {α : Type} [DecidableEq α] (ls cs : List α)
    (hone : ∀ l ∈ ls, cs.count l = 1) : (cs : Multiset α) = ls ↔ (∀ c ∈ cs, c ∈ ls) ∧ ls.Nodup := by
  rw [Multiset.coe_eq_coe, perm_iff_count, nodup_iff_count_le_one]
  constructor
  · intro hcount
    refine ⟨?_, ?_⟩
    · intro c hc
      rw [← count_pos_iff, ← hcount c]
      exact count_pos_iff.mpr hc
    · intro a
      by_cases ha : a ∈ ls
      · exact (hcount a ▸ hone a ha).le
      · rw [count_eq_zero_of_not_mem ha]
        exact Nat.zero_le 1
  · rintro ⟨hsub, hnodup⟩ a
    by_cases ha : a ∈ ls
    · have hpos := count_pos_iff.mpr ha
      have hle := hnodup a
      have := hone a ha
      omega
    · rw [count_eq_zero_of_not_mem ha, count_eq_zero_of_not_mem fun hc => ha (hsub a hc)]

section

variable (E : Env)
variable (b : CBlock) (nHeight : Nat)

def coinbaseIds (b : CBlock) : List Uint256 := (b.vtx.filter fun tx => tx.isCoinBase).map E.txHash

def listedIds (nHeight : Nat) : List Uint256 :=
  (E.vImportedCoinbaseTxns.filter fun cth => cth.nHeight = nHeight).map (·.hash)

lemma length_filter_eq_count (h : Uint256) :
    (b.vtx.filter fun tx => E.txHash tx = h ∧ tx.isCoinBase).length =
      (coinbaseIds E b).count h := by
  rw [coinbaseIds, count, countP_map, countP_filter, countP_eq_length_filter]
  congr 1
  refine filter_congr fun tx _ => ?_
  simp [Bool.beq_eq_decide_eq]

lemma countAirdrop_loop_ok (cths : List CImportedCoinbaseTxn) (s t : Nat × Nat)
    (h : loop (countAirdrop E b nHeight) s cths = .ok t) :
    let ls := (cths.filter fun cth => cth.nHeight = nHeight).map (·.hash)
    (∀ l ∈ ls, 0 < (coinbaseIds E b).count l) ∧ t.1 = s.1 + ls.length ∧
      t.2 = s.2 + (ls.map fun l => (coinbaseIds E b).count l).sum := by
  induction cths generalizing s with
  | nil =>
    rw [loop_nil, Except.ok.injEq] at h
    subst h
    simp
  | cons cth cths ih =>
    obtain ⟨m, hm, hrest⟩ := (loop_cons_ok_iff _ _ _ _ _).mp h
    obtain ⟨hfound, hexpected, hcounted⟩ := ih m hrest
    by_cases hheight : cth.nHeight = nHeight
    · simp only [countAirdrop, hheight, ne_eq, not_true_eq_false, if_false, rejectIf_bind_ok_iff,
        pure_ok_iff, length_filter_eq_count] at hm
      obtain ⟨hpos, rfl⟩ := hm
      simp only [filter_cons, hheight, decide_true, if_true, map_cons,
        forall_mem_cons, length_cons, sum_cons]
      exact ⟨⟨Nat.pos_of_ne_zero hpos, hfound⟩, by omega, by omega⟩
    · simp only [countAirdrop, ne_eq, hheight, not_false_eq_true, if_true, Except.ok.injEq] at hm
      subst hm
      simpa [filter_cons, hheight] using ih s hrest

lemma count_of_checkAirdropCoinbase (h : checkAirdropCoinbase E b nHeight = true) :
    ∀ l ∈ listedIds E nHeight, (coinbaseIds E b).count l = 1 := by
  unfold checkAirdropCoinbase at h
  cases hloop : loop (countAirdrop E b nHeight) (0, 0) E.vImportedCoinbaseTxns with
  | error e => simp [hloop] at h
  | ok t =>
    obtain ⟨hfound, hexpected, hcounted⟩ := countAirdrop_loop_ok E b nHeight _ _ _ hloop
    have heq : t.2 = t.1 := by simpa [hloop] using h
    refine count_eq_one_of_sum _ _ hfound ?_
    rw [zero_add] at hexpected hcounted
    rw [listedIds, ← hcounted, heq, hexpected]

/-- For a block at an import height that passes `ContextualCheckBlock`, its coinbases are exactly
the listed ones if and only if it has no other coinbase and the list no repetition. -/
theorem coinbases_exact_iff (G : NodeState) (branch : List CBlockIndex) (b : CBlock)
    (accept_block : Bool) (hpos : 0 < nextHeight branch)
    (hlast : nextHeight branch ≤ E.nLastImportHeight)
    (h : contextualCheckBlock E G branch b accept_block = .ok ()) :
    (coinbaseIds E b : Multiset Uint256) = listedIds E (nextHeight branch) ↔
      (∀ tx ∈ b.vtx, tx.isCoinBase → E.txHash tx ∈ listedIds E (nextHeight branch)) ∧
        (listedIds E (nextHeight branch)).Nodup := by
  obtain ⟨-, hcoinbases⟩ := contextualCheckBlock_ok E G _ _ _ _ h
  rw [checkCoinbases, if_pos ⟨hpos, hlast⟩, rejectIf_ok_iff] at hcoinbases
  rw [coe_eq_coe_iff_of_count _ _ (count_of_checkAirdropCoinbase E b _ (by simpa using hcoinbases))]
  refine and_congr_left' ⟨?_, ?_⟩
  · intro hall tx htx hcb
    exact hall _ (mem_map_of_mem (mem_filter.mpr ⟨htx, by simpa using hcb⟩))
  · intro hall c hc
    obtain ⟨tx, htx, rfl⟩ := mem_map.mp hc
    rw [mem_filter, decide_eq_true_eq] at htx
    exact hall tx htx.1 htx.2

end

open ToyEnvironment

def coinbase (key : CCmpPubKey) (nValue : Int) : CTransaction :=
  { nVersion := 0x1A0
    vin := [{ prevout := ⟨0, 0xffffffff⟩, scriptSig := [1, 1] }]
    vpout := [keyOutput key nValue] }

def importEnv : Env := { env with vImportedCoinbaseTxns := [⟨1, env.txHash (coinbase 5 20)⟩] }

def importCoins : CoinMap := fun o =>
  if o = ⟨7, 0⟩ then some ⟨⟨10, p2pkh (hash160 (keyBytes 3))⟩, false, 0, .standard⟩ else none

def importNode : NodeState := node [genesisIndex] importCoins .empty

def importBlock (coinbases : List CTransaction) : CBlock :=
  mine importEnv genesisIndex (stake 7 0 1 [keyOutput 3 10] :: coinbases)

theorem coinbases_exact_iff_listed :
    (coinbaseIds importEnv (importBlock [coinbase 5 20]) : Multiset Uint256) =
      listedIds importEnv 1 :=
  (coinbases_exact_iff importEnv importNode [genesisIndex] (importBlock [coinbase 5 20]) false
    (by decide) (by decide) (by decide +kernel)).mpr ⟨by decide +kernel, by decide⟩

/-- A block with the listed coinbase and another one passes all checks and creates the coin of the
other one. -/
theorem coinbases_not_exact : let b := importBlock [coinbase 5 20, coinbase 6 1000]
    checkBlock importEnv true b = .ok () ∧
      contextualCheckBlock importEnv importNode [genesisIndex] b false = .ok () ∧
      (∃ c, connectBlock importEnv importNode ⟨[genesisIndex], indexOf importEnv genesisIndex b,
        false, true⟩
          { coins := importCoins, hashBlock := 1 } b = .ok c ∧
        (c.view.coins ⟨importEnv.txHash (coinbase 6 1000), 0⟩).map (·.out.nValue) = some 1000) ∧
      (coinbaseIds importEnv b : Multiset Uint256) ≠ listedIds importEnv 1 := by
  intro b
  have hconnect : (connectBlock importEnv importNode
        ⟨[genesisIndex], indexOf importEnv genesisIndex b, false, true⟩
        { coins := importCoins, hashBlock := 1 } b).toOption.map (fun c : Connected =>
          (c.view.coins ⟨importEnv.txHash (coinbase 6 1000), 0⟩).map (·.out.nValue)) =
      some (some 1000) := by decide +kernel
  exact ⟨by decide +kernel, by decide +kernel, exists_ok_of_toOption _ _ _ hconnect,
    by decide +kernel⟩

end Airdrop
