import BitcoinC.OutputAuthority
import BitcoinC.PoolKeyImages
import BitcoinC.SignatureHash

/-!
# What the receiver's signature binds

The hash that the receiver of a standard output signs covers the key, the value
and the prevouts of the transaction. The prevout of a standard input is the coin
it spends.
-/

namespace AuthorityBinding

open Primitives Encoding Scripts Environment Verdicts TxVerify Anon ChainRun OutputAuthority

section

variable (E : Env)

/-- The signature recovers, for the inputs of `tx`, to a key with an id that the script names. -/
def AuthorisedAs (tx : CTransaction) (p : CTxOutStandard) (k : Uint160) : Prop :=
  Names E p.scriptPubKey k ∧ ∃ key,
    E.recoverCompact (signatureHashStakingOutput E k p.nValue tx.vin) p.vecSignature = some key ∧
    E.getID (some key) = k

/-- The two lists of inputs give one signature hash only for one string. -/
def Collisionless (k : Uint160) (nAmount : Int) (vin vin' : List CTxIn) : Prop :=
  signatureHashStakingOutput E k nAmount vin = signatureHashStakingOutput E k nAmount vin' →
    stakingOutputBytes k nAmount vin = stakingOutputBytes k nAmount vin'

/-- The signature does not recover to keys with one id for two hashes. -/
def OneHash (vecSignature : Bytes) : Prop :=
  ∀ nSigHash nSigHash' key key', E.recoverCompact nSigHash vecSignature = some key →
    E.recoverCompact nSigHash' vecSignature = some key' → E.getID (some key) = E.getID (some key') →
    nSigHash = nSigHash'

end

def prevouts (tx : CTransaction) : List COutPoint := tx.vin.map (·.prevout)

/-- Both transactions spend the same standard coins and show the same key images. -/
structure SameCoins (tx tx' : CTransaction) : Prop where
  standard : ∀ o, o ∈ standardPrevouts tx.vin ↔ o ∈ standardPrevouts tx'.vin
  anon : ∀ ki, ki ∈ txKeyImages tx ↔ ki ∈ txKeyImages tx'

lemma standardPrevouts_eq (tx : CTransaction) :
    standardPrevouts tx.vin = (prevouts tx).filter fun o => ¬ o.isAnonInput := by
  rw [standardPrevouts, prevouts, List.filter_map]
  rfl

lemma anonInputs_eq_nil_iff (tx : CTransaction) :
    tx.anonInputs = [] ↔ ∀ o ∈ prevouts tx, ¬ o.isAnonInput := by
  rw [CTransaction.anonInputs, List.filter_eq_nil_iff, prevouts, List.forall_mem_map]
  exact forall₂_congr fun _ _ => not_congr decide_eq_true_iff

lemma sameCoins_of_prevouts {tx tx' : CTransaction} (h : prevouts tx = prevouts tx')
    (hanon : tx.anonInputs = []) : SameCoins tx tx' := by
  have hanon' : tx'.anonInputs = [] := by
    rw [anonInputs_eq_nil_iff, ← h]
    exact (anonInputs_eq_nil_iff tx).mp hanon
  refine ⟨fun o => ?_, fun ki => ?_⟩
  · rw [standardPrevouts_eq, standardPrevouts_eq, h]
  · rw [txKeyImages, txKeyImages, hanon, hanon']

lemma stakingOutputBytes_congr {tx tx' : CTransaction} (h : prevouts tx = prevouts tx')
    (k : Uint160) (nAmount : Int) : stakingOutputBytes k nAmount tx.vin =
      stakingOutputBytes k nAmount tx'.vin := by
  have hbytes : ∀ tx : CTransaction,
      tx.vin.flatMap (fun txin => writeOutPoint txin.prevout) =
        (prevouts tx).flatMap writeOutPoint :=
    fun tx => (List.flatMap_map _ _ _).symm
  rw [stakingOutputBytes, stakingOutputBytes, hbytes tx, hbytes tx', h]

lemma prevouts_of_stakingOutputBytes {tx tx' : CTransaction} {k : Uint160} {nAmount : Int}
    (h : stakingOutputBytes k nAmount tx.vin = stakingOutputBytes k nAmount tx'.vin) :
    prevouts tx = prevouts tx' :=
  SignatureHash.prevouts_eq (List.append_cancel_left h)

/-- The transaction without the data of its anon inputs. -/
def stripped (tx : CTransaction) : CTransaction :=
  { tx with vin := tx.vin.map fun txin => { txin with scriptData := [] } }

lemma prevouts_stripped (tx : CTransaction) : prevouts (stripped tx) = prevouts tx := by
  simp [prevouts, stripped]

lemma txKeyImages_stripped (tx : CTransaction) : txKeyImages (stripped tx) = [] := by
  rw [txKeyImages, List.flatMap_eq_nil_iff]
  intro txin htxin
  obtain ⟨txin, -, rfl⟩ := List.mem_map.mp (List.mem_of_mem_filter htxin)
  rfl

/-- A transaction with verified anon inputs shows a key image. -/
lemma txKeyImages_ne_nil (E : Env) (db : CBlockTreeDB) (pool : CTxMemPool) (tx : CTransaction)
    (hne : tx.anonInputs ≠ []) (h : verifyMLSAG E db pool tx = .ok ()) : txKeyImages tx ≠ [] := by
  obtain ⟨fee, plain, s, -, -, -, hloop, -⟩ := (verifyMLSAG_ok_iff E db pool tx ()).mp h
  obtain ⟨txin, htxin⟩ := List.exists_mem_of_ne_nil _ hne
  have hmem := List.mem_of_mem_filter htxin
  obtain ⟨t, t', hstep⟩ := loop_ok_mem _ _ _ _ hloop txin hmem
  simp only [verifyAnonInput, bind_ok_iff] at hstep
  obtain ⟨a, ha, -⟩ := hstep
  obtain ⟨-, -, hn, -⟩ := anonShape_ok _ _ a ha
  intro hnil
  have hnone := List.flatMap_eq_nil_iff.mp hnil txin htxin
  rw [anonKeyImages_of_anonShape _ _ a ha] at hnone
  have hlen := congrArg List.length hnone
  simp [AnonShape.keyImages, keyImageSlots] at hlen
  omega

section

variable {E : Env} {tx tx' : CTransaction} {p p' : CTxOutStandard} {k : Uint160}

lemma AuthorisedAs.congr (h : AuthorisedAs E tx p k) (hprevouts : prevouts tx = prevouts tx') :
    AuthorisedAs E tx' p k := by
  obtain ⟨hnames, key, hkey, hid⟩ := h
  refine ⟨hnames, key, ?_, hid⟩
  rw [signatureHashStakingOutput, ← stakingOutputBytes_congr hprevouts]
  exact hkey

/-- Outputs of one key and value with one signature stand in transactions with the same prevouts. -/
lemma AuthorisedAs.prevouts_eq (h : AuthorisedAs E tx p k) (h' : AuthorisedAs E tx' p' k)
    (hvalue : p.nValue = p'.nValue) (hsignature : p.vecSignature = p'.vecSignature)
    (hone : OneHash E p.vecSignature) (hfree : Collisionless E k p.nValue tx.vin tx'.vin) :
    prevouts tx = prevouts tx' := by
  obtain ⟨-, key, hkey, hid⟩ := h
  obtain ⟨-, key', hkey', hid'⟩ := h'
  rw [← hvalue, ← hsignature] at hkey'
  exact prevouts_of_stakingOutputBytes (hfree (hone _ _ key key' hkey hkey' (hid.trans hid'.symm)))

/-- The authorisation of an output binds the coins exactly when there are no anon inputs. -/
lemma AuthorisedAs.binds_iff (h : AuthorisedAs E tx p k) (hone : OneHash E p.vecSignature)
    (hring : tx.anonInputs ≠ [] → txKeyImages tx ≠ []) :
    (∀ tx'', Collisionless E k p.nValue tx.vin tx''.vin → AuthorisedAs E tx'' p k →
        SameCoins tx tx'') ↔ tx.anonInputs = [] := by
  constructor
  · intro hall
    by_contra hne
    have hsame := hall (stripped tx)
      (fun _ => stakingOutputBytes_congr (prevouts_stripped tx).symm k _)
      (h.congr (prevouts_stripped tx).symm)
    obtain ⟨ki, hki⟩ := List.exists_mem_of_ne_nil _ (hring hne)
    have hnone := (hsame.anon ki).mp hki
    rw [txKeyImages_stripped] at hnone
    cases hnone
  · intro hanon tx'' hfree h''
    exact sameCoins_of_prevouts (h.prevouts_eq h'' rfl rfl hone hfree) hanon

lemma authorised_iff : Authorised E tx p ↔ ∃ k, AuthorisedAs E tx p k := by
  constructor
  · rintro ⟨k, key, hnames, hkey, hid⟩
    exact ⟨k, hnames, key, hkey, hid⟩
  · rintro ⟨k, hnames, key, hkey, hid⟩
    exact ⟨k, key, hnames, hkey, hid⟩

end

/-- Two accepted transactions with outputs of one value and signature, which were authorised under
the same key, have the same prevouts, so that they spend the same standard coins. These are all
the coins that any transaction with that authorisation spends exactly when there are no anon
inputs. The signature holds in every transaction with those prevouts. -/
theorem authorisation_binds_prevouts (E : Env) (P P' : Process)
    (fBulletproofsActive fBulletproofsActive' fCheckDuplicateInputs fCheckDuplicateInputs' : Bool)
    (tx tx' : CTransaction) (p p' : CTxOutStandard) (hcb : ¬ tx.isCoinBase)
    (hcb' : ¬ tx'.isCoinBase)
    (h : checkTransaction (withProcess E P) fBulletproofsActive tx fCheckDuplicateInputs = .ok ())
    (h' : checkTransaction (withProcess E P') fBulletproofsActive' tx' fCheckDuplicateInputs' =
      .ok ())
    (hp : .standard p ∈ tx.vpout) (hp' : .standard p' ∈ tx'.vpout)
    (hdev : ¬ PaysDevFund (withProcess E P) p) (hdev' : ¬ PaysDevFund (withProcess E P') p')
    (hclear : Unambiguous E p) (hclear' : Unambiguous E p')
    (hkey : ∀ k k', AuthorisedAs E tx p k → AuthorisedAs E tx' p' k' → k = k')
    (hvalue : p.nValue = p'.nValue) (hsignature : p.vecSignature = p'.vecSignature)
    (hone : OneHash E p.vecSignature)
    (hfree : ∀ k, AuthorisedAs E tx p k → Collisionless E k p.nValue tx.vin tx'.vin)
    (db : CBlockTreeDB) (pool : CTxMemPool)
    (hring : tx.anonInputs ≠ [] → verifyMLSAG (withProcess E P) db pool tx = .ok ()) :
    prevouts tx = prevouts tx' ∧
      (∀ o, o ∈ standardPrevouts tx.vin ↔ o ∈ standardPrevouts tx'.vin) ∧
      (tx.anonInputs = [] → SameCoins tx tx') ∧
      ∃ k, AuthorisedAs E tx p k ∧
        (∀ tx'', prevouts tx'' = prevouts tx → AuthorisedAs E tx'' p k) ∧
        ((∀ tx'', Collisionless E k p.nValue tx.vin tx''.vin → AuthorisedAs E tx'' p k →
          SameCoins tx tx'') ↔ tx.anonInputs = []) := by
  obtain ⟨k, hk⟩ : ∃ k, AuthorisedAs E tx p k :=
    authorised_iff.mp (authorised_of_unambiguous (withProcess E P) _ tx _ () hcb h p hp hdev
      ⟨hclear.named, hclear.null⟩)
  obtain ⟨k', hk'⟩ : ∃ k, AuthorisedAs E tx' p' k :=
    authorised_iff.mp (authorised_of_unambiguous (withProcess E P') _ tx' _ () hcb' h' p' hp' hdev'
      ⟨hclear'.named, hclear'.null⟩)
  obtain rfl := hkey k k' hk hk'
  have hprevouts := hk.prevouts_eq hk' hvalue hsignature hone (hfree k hk)
  refine ⟨hprevouts, fun o => ?_, sameCoins_of_prevouts hprevouts, k, hk,
    fun tx'' h'' => hk.congr h''.symm, hk.binds_iff hone fun hne => ?_⟩
  · rw [standardPrevouts_eq, standardPrevouts_eq, hprevouts]
  · exact txKeyImages_ne_nil _ db pool tx hne (hring hne)

section Example

open ToyEnvironment PoolKeyImages

/-- The toy environment in which a signature carries the key and the hash that was signed. -/
def bindEnv : Env :=
  { chainEnv with
    hash160 := fun bs => BitVec.ofNat 160 (polyHash bs + 1)
    ecdsaRecover := fun nSigHash sig => if sig.drop 33 = hashBytes nSigHash then some (sig.take 33)
      else none }

def boundOutput (vin : List CTxIn) : CTxOutStandard where
  nValue := 95
  scriptPubKey := p2pkh (bindEnv.hash160 (keyBytes 3))
  vecSignature := keyBytes 3 ++
    hashBytes (signatureHashStakingOutput bindEnv (bindEnv.hash160 (keyBytes 3)) 95 vin)

def ringPayment (keyImage : CCmpPubKey) : CTransaction where
  nVersion := 0xA0
  vin := [ringSpend keyImage]
  vpout := [feeOutput 5, .standard (boundOutput [ringSpend keyImage])]

lemma oneHash_bindEnv (vecSignature : Bytes) : OneHash bindEnv vecSignature := by
  have hcarries : ∀ nSigHash key, bindEnv.recoverCompact nSigHash vecSignature = some key →
      vecSignature.drop 33 = hashBytes nSigHash := by
    intro nSigHash key h
    unfold Env.recoverCompact at h
    split_ifs at h
    have h : (if vecSignature.drop 33 = hashBytes nSigHash then some (vecSignature.take 33)
      else none) = some key := h
    split_ifs at h with hdrop
    exact hdrop
  intro nSigHash nSigHash' key key' h h' _
  exact WireFormat.hash.enc_inj (WireFormat.hash_dom _) (WireFormat.hash_dom _)
    ((hcarries _ _ h).symm.trans (hcarries _ _ h'))

lemma prevouts_ringPayment (ki ki' : CCmpPubKey) : prevouts (ringPayment ki) =
    prevouts (ringPayment ki') :=
  rfl

lemma boundOutput_ringSpend (ki ki' : CCmpPubKey) : boundOutput [ringSpend ki] =
    boundOutput [ringSpend ki'] :=
  rfl

lemma names_boundOutput (k : Uint160) (h : Names bindEnv (boundOutput []).scriptPubKey k) :
    k = bindEnv.getID (some (keyBytes 3)) := by
  have hwhole : extractStakingKeyID bindEnv.keyIDOf256 (boundOutput []).scriptPubKey =
      some (bindEnv.getID (some (keyBytes 3))) := by decide +kernel
  have hsplit : splitConditionalCoinstakeScript (boundOutput []).scriptPubKey = none := by
    decide +kernel
  rcases h with hk | ⟨scripts, hscripts, -⟩
  · exact Option.some.inj (hk.symm.trans hwhole)
  · cases hsplit.symm.trans hscripts

/-- The two payments have the same prevouts. -/
theorem authorisation_binds_ringPayments : prevouts (ringPayment 77) = prevouts (ringPayment 78) ∧
    ∀ o, o ∈ standardPrevouts (ringPayment 77).vin ↔ o ∈ standardPrevouts (ringPayment 78).vin := by
  have hnamed : ∀ k, Names bindEnv (boundOutput [ringSpend 77]).scriptPubKey k →
      k = bindEnv.getID (some (keyBytes 3)) :=
    names_boundOutput
  have hclear : Unambiguous bindEnv (boundOutput [ringSpend 77]) :=
    ⟨fun k hk => hnamed k hk ▸ by decide +kernel, by decide +kernel⟩
  have hdev := not_paysDevFund bindEnv (boundOutput [ringSpend 77]) (by decide +kernel)
  have hbinds := authorisation_binds_prevouts bindEnv process process true true true true
    (ringPayment 77) (ringPayment 78) (boundOutput [ringSpend 77]) (boundOutput [ringSpend 77])
    (by decide +kernel)
    (by decide +kernel) (by decide +kernel) (by decide +kernel) (by simp [ringPayment])
    (by rw [boundOutput_ringSpend 77 78]; simp [ringPayment]) hdev hdev hclear hclear
    (fun k k' hk hk' => (hnamed k hk.1).trans (hnamed k' hk'.1).symm) rfl rfl (oneHash_bindEnv _)
    (fun k _ _ => stakingOutputBytes_congr (prevouts_ringPayment 77 78) k _) ringChain.db .empty
    (fun _ => by decide +kernel)
  exact ⟨hbinds.1, hbinds.2.1⟩

/-- Both payments are accepted, and the signature of the output in one serves in the other, which
spends another ring coin. -/
theorem signature_is_transplanted : (checkTransaction bindEnv true (ringPayment 77) true = .ok () ∧
      verifyMLSAG bindEnv ringChain.db .empty (ringPayment 77) = .ok ()) ∧
    (checkTransaction bindEnv true (ringPayment 78) true = .ok () ∧
      verifyMLSAG bindEnv ringChain.db .empty (ringPayment 78) = .ok ()) ∧
    (∃ p, .standard p ∈ (ringPayment 77).vpout ∧ .standard p ∈ (ringPayment 78).vpout ∧
      OneHash bindEnv p.vecSignature ∧
      ∀ k, Collisionless bindEnv k p.nValue (ringPayment 77).vin (ringPayment 78).vin) ∧
    txKeyImages (ringPayment 77) = [77] ∧ txKeyImages (ringPayment 78) = [78] := by
  refine ⟨⟨by decide +kernel, by decide +kernel⟩, ⟨by decide +kernel, by decide +kernel⟩, ?_,
    by decide +kernel, by decide +kernel⟩
  refine ⟨boundOutput [ringSpend 77], by simp [ringPayment], ?_, oneHash_bindEnv _, fun k _ => ?_⟩
  · rw [boundOutput_ringSpend 77 78]
    simp [ringPayment]
  · exact stakingOutputBytes_congr (prevouts_ringPayment 77 78) k _

end Example

end AuthorityBinding
