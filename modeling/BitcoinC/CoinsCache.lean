import BitcoinC.Coins
import BitcoinC.WriteBack

/-!
# Layers of coins caches

`CCoinsViewCache` of `coins.cpp` as it is stored: a map of entries with the flags
`DIRTY` and `FRESH`, over another cache or over the backing map. A spent coin is a
coin with a null output.
-/

namespace CoinsCache

open Primitives Scripts Environment Verdicts TxVerify KeyedStore WriteBack Function

def isSpent (coin : Coin) : Bool := coin.out.nValue = -1

def clear (coin : Coin) : Coin := { coin with out := ⟨-1, []⟩, fCoinBase := false, nHeight := 0 }

def coinEmpty : Coin := ⟨⟨-1, []⟩, false, 0, .standard⟩

def unspent (coin : Coin) : Option Coin := if isSpent coin then none else some coin

structure CCoinsCacheEntry where
  coin : Coin
  dirty : Bool := false
  fresh : Bool := false

abbrev CCoinsMap := AList fun _ : COutPoint => CCoinsCacheEntry

structure Layer where
  cacheCoins : CCoinsMap
  hashBlock : Uint256

structure Backing where
  coins : CoinMap
  hashBlock : Uint256
  live : ∀ o coin, coins o = some coin → isSpent coin = false

variable (backing : Backing) (cacheCoins : CCoinsMap) (o : COutPoint) (layers : List Layer)
  (layer : Layer)

variable (below : List Layer) (depth : Nat) (coin : Coin) (coins : CoinMap)

structure Stack where
  top : Layer
  below : List Layer
  backing : Backing

def fetchFrom (base : List Layer × Option Coin) (layer : Layer) (below : List Layer)
    (o : COutPoint) : (Layer × List Layer) × Option CCoinsCacheEntry :=
  match layer.cacheCoins.lookup o with
  | some entry => ((layer, below), some entry)
  | none =>
    match base.2 with
    | none => ((layer, base.1), none)
    | some tmp =>
      let entry : CCoinsCacheEntry := ⟨tmp, false, isSpent tmp⟩
      (({ layer with cacheCoins := layer.cacheCoins.insert o entry }, base.1), some entry)

def getCoinFrom (backing : Backing) (o : COutPoint) : List Layer → List Layer × Option Coin
  | [] => ([], backing.coins o)
  | layer :: below =>
    let r := fetchFrom (getCoinFrom backing o below) layer below o
    (r.1.1 :: r.1.2, r.2.bind fun entry => unspent entry.coin)

def fetchCoin (s : Stack) (o : COutPoint) : Stack × Option CCoinsCacheEntry :=
  let r := fetchFrom (getCoinFrom s.backing o s.below) s.top s.below o
  ({ s with top := r.1.1, below := r.1.2 }, r.2)

def getCoin (s : Stack) (o : COutPoint) : Stack × Option Coin :=
  ((fetchCoin s o).1, (fetchCoin s o).2.bind fun entry => unspent entry.coin)

def haveCoin (s : Stack) (o : COutPoint) : Stack × Bool :=
  ((fetchCoin s o).1, (fetchCoin s o).2.any fun entry => !isSpent entry.coin)

def accessCoin (s : Stack) (o : COutPoint) : Stack × Coin :=
  ((fetchCoin s o).1, ((fetchCoin s o).2.map (·.coin)).getD coinEmpty)

def emplaced (cacheCoins : CCoinsMap) (o : COutPoint) : CCoinsCacheEntry :=
  (cacheCoins.lookup o).getD ⟨coinEmpty, false, false⟩

def addCoin (s : Stack) (o : COutPoint) (coin : Coin) (possible_overwrite : Bool) :
    Verdict Stack := do
  rejectIf (isSpent coin = true) (.throws "AddCoin: !coin.IsSpent()")
  if isUnspendable coin.out.scriptPubKey then pure s
  else do
    let it := emplaced s.top.cacheCoins o
    rejectIf (possible_overwrite = false ∧ isSpent it.coin = false)
      (.throws "Adding new coin that replaces non-pruned entry")
    let fresh := !possible_overwrite && !it.dirty
    pure { s with top := { s.top with
      cacheCoins := s.top.cacheCoins.insert o ⟨coin, true, it.fresh || fresh⟩ } }

def spendCoin (s : Stack) (o : COutPoint) : Stack × Option Coin :=
  let r := fetchCoin s o
  match r.2 with
  | none => (r.1, none)
  | some it =>
    let cacheCoins :=
      if it.fresh then r.1.top.cacheCoins.erase o
      else r.1.top.cacheCoins.insert o ⟨clear it.coin, true, it.fresh⟩
    ({ r.1 with top := { r.1.top with cacheCoins := cacheCoins } }, some it.coin)

def batchEntry (cacheCoins : CCoinsMap) (it : Sigma fun _ : COutPoint => CCoinsCacheEntry) :
    Verdict CCoinsMap :=
  if it.2.dirty = false then .ok cacheCoins
  else
    match cacheCoins.lookup it.1 with
    | none =>
      if it.2.fresh && isSpent it.2.coin then .ok cacheCoins
      else .ok (cacheCoins.insert it.1 ⟨it.2.coin, true, it.2.fresh⟩)
    | some itUs => do
      rejectIf (it.2.fresh = true ∧ isSpent itUs.coin = false)
        (.throws "FRESH flag misapplied to cache entry for base transaction with spendable outputs")
      if itUs.fresh && isSpent it.2.coin then pure (cacheCoins.erase it.1)
      else pure (cacheCoins.insert it.1 ⟨it.2.coin, true, itUs.fresh⟩)

def batchWrite (layer : Layer) (mapCoins : CCoinsMap) (hashBlockIn : Uint256) : Verdict Layer := do
  let cacheCoins ← loop batchEntry layer.cacheCoins mapCoins.entries
  pure ⟨cacheCoins, hashBlockIn⟩

def backingEntry (coins : CoinMap) (it : Sigma fun _ : COutPoint => CCoinsCacheEntry) : CoinMap :=
  if it.2.dirty = false then coins
  else if isSpent it.2.coin then erase coins it.1
  else put coins it.1 it.2.coin

lemma backingEntry_live (it : Sigma fun _ : COutPoint => CCoinsCacheEntry)
    (h : ∀ o coin, coins o = some coin → isSpent coin = false) :
    ∀ o coin, backingEntry coins it o = some coin → isSpent coin = false := by
  intro o coin hcoin
  unfold backingEntry at hcoin
  split at hcoin
  · exact h o coin hcoin
  · split at hcoin
    · by_cases ho : o = it.1
      · rw [ho, erase_self] at hcoin
        cases hcoin
      · rw [erase_other _ _ _ ho] at hcoin
        exact h o coin hcoin
    · rename_i hlive
      by_cases ho : o = it.1
      · rw [ho, put_self] at hcoin
        cases hcoin
        simpa using hlive
      · rw [put_other _ _ _ _ ho] at hcoin
        exact h o coin hcoin

lemma foldl_backingEntry_live (its : List (Sigma fun _ : COutPoint => CCoinsCacheEntry))
    (coins : CoinMap) (h : ∀ o coin, coins o = some coin → isSpent coin = false) :
    ∀ o coin, its.foldl backingEntry coins o = some coin → isSpent coin = false := by
  induction its generalizing coins with
  | nil => exact h
  | cons it its ih => exact ih _ (backingEntry_live coins it h)

def Backing.batchWrite (backing : Backing) (mapCoins : CCoinsMap) (hashBlockIn : Uint256) :
    Backing where
  coins := mapCoins.entries.foldl backingEntry backing.coins
  hashBlock := hashBlockIn
  live := foldl_backingEntry_live mapCoins.entries backing.coins backing.live

def flushHead (layer : Layer) (below : List Layer) (backing : Backing) :
    Verdict (List Layer × Backing) :=
  match below with
  | [] => .ok ([], backing.batchWrite layer.cacheCoins layer.hashBlock)
  | base :: rest => do
    let base' ← batchWrite base layer.cacheCoins layer.hashBlock
    pure (base' :: rest, backing)

def flushFrom (backing : Backing) : Nat → List Layer → Verdict (List Layer × Backing)
  | _, [] => .ok ([], backing)
  | 0, layer :: below => do
    let r ← flushHead layer below backing
    pure ({ layer with cacheCoins := ∅ } :: r.1, r.2)
  | depth + 1, layer :: below => do
    let r ← flushFrom backing depth below
    pure (layer :: r.1, r.2)

def Layer.uncache (layer : Layer) (o : COutPoint) : Layer :=
  match layer.cacheCoins.lookup o with
  | none => layer
  | some it =>
    if it.dirty = false ∧ it.fresh = false then
      { layer with cacheCoins := layer.cacheCoins.erase o }
    else layer

def uncacheFrom (o : COutPoint) : Nat → List Layer → List Layer
  | _, [] => []
  | 0, layer :: below => layer.uncache o :: below
  | depth + 1, layer :: below => layer :: uncacheFrom o depth below

def flush (s : Stack) : Nat → Verdict Stack
  | 0 => do
    let r ← flushHead s.top s.below s.backing
    pure ⟨{ s.top with cacheCoins := ∅ }, r.1, r.2⟩
  | depth + 1 => do
    let r ← flushFrom s.backing depth s.below
    pure { s with below := r.1, backing := r.2 }

def uncache (s : Stack) (o : COutPoint) : Nat → Stack
  | 0 => { s with top := s.top.uncache o }
  | depth + 1 => { s with below := uncacheFrom o depth s.below }

def flushAll (s : Stack) : Verdict Stack := loop flush s (List.range (s.below.length + 1))

lemma unspent_eq_some_iff (coin' : Coin) :
    unspent coin = some coin' ↔ isSpent coin = false ∧ coin = coin' := by
  unfold unspent
  split <;> simp_all

lemma unspent_of_live {coin : Coin} (h : isSpent coin = false) : unspent coin = some coin := by
  rw [unspent, h]
  rfl

lemma unspent_isNone : (unspent coin).isNone = isSpent coin := by
  unfold unspent
  split <;> simp_all

def slotOf (entry : CCoinsCacheEntry) : Slot Coin := ⟨unspent entry.coin, entry.dirty, entry.fresh⟩

def slots (cacheCoins : CCoinsMap) (o : COutPoint) : Option (Slot Coin) :=
  (cacheCoins.lookup o).map slotOf

lemma slots_insert (entry : CCoinsCacheEntry) :
    slots (cacheCoins.insert o entry) = update (slots cacheCoins) o (some (slotOf entry)) := by
  funext a
  by_cases ha : a = o
  · subst ha
    rw [update_self, slots, AList.lookup_insert]
    rfl
  · rw [update_of_ne ha, slots, AList.lookup_insert_ne ha]
    rfl

lemma slots_erase : slots (cacheCoins.erase o) = update (slots cacheCoins) o none := by
  funext a
  by_cases ha : a = o
  · subst ha
    rw [update_self, slots, AList.lookup_erase]
    rfl
  · rw [update_of_ne ha, slots, AList.lookup_erase_ne ha]
    rfl

def seen (backing : Backing) : List Layer → CoinMap
  | [] => backing.coins
  | layer :: below => fun o => look (slots layer.cacheCoins o) (seen backing below o)

def SoundFrom (backing : Backing) : List Layer → Prop
  | [] => True
  | layer :: below =>
    (∀ o, Sound (slots layer.cacheCoins o) (seen backing below o)) ∧ SoundFrom backing below

lemma seen_live (o : COutPoint) (coin : Coin) (h : seen backing layers o = some coin) :
    isSpent coin = false := by
  induction layers with
  | nil => exact backing.live o coin h
  | cons layer below ih =>
    have hlook : look (slots layer.cacheCoins o) (seen backing below o) = some coin := h
    cases hentry : layer.cacheCoins.lookup o with
    | none =>
      rw [slots, hentry] at hlook
      exact ih hlook
    | some entry =>
      rw [slots, hentry] at hlook
      obtain ⟨hlive, rfl⟩ := (unspent_eq_some_iff entry.coin coin).mp hlook
      exact hlive

/-- A second arrangement of caches that shows the same coins, with flags that tell the truth. -/
structure Shows (backing : Backing) (layers : List Layer) (backing' : Backing)
    (layers' : List Layer) : Prop where
  seen : seen backing' layers' = seen backing layers
  sound : SoundFrom backing' layers'
  length : layers'.length = layers.length

lemma shows_refl (h : SoundFrom backing layers) :
    Shows backing layers backing layers := ⟨rfl, h, rfl⟩

lemma Shows.cons {backing backing' : Backing} {below below' : List Layer}
    (h : Shows backing below backing' below') (layer : Layer)
    (hl : ∀ o, Sound (slots layer.cacheCoins o) (CoinsCache.seen backing below o)) :
    Shows backing (layer :: below) backing' (layer :: below') where
  seen := by
    funext o
    exact congrArg (look (slots layer.cacheCoins o)) (congrFun h.seen o)
  sound := ⟨fun o => by rw [h.seen]; exact hl o, h.sound⟩
  length := congrArg (· + 1) h.length

lemma sound_update {cacheCoins : COutPoint → Option (Slot Coin)} {below : CoinMap}
    (h : ∀ o, Sound (cacheCoins o) (below o)) (o : COutPoint) (slot : Option (Slot Coin))
    (hslot : Sound slot (below o)) : ∀ a, Sound (update cacheCoins o slot a) (below a) := by
  intro a
  by_cases ha : a = o
  · subst ha
    rwa [update_self]
  · rw [update_of_ne ha]
    exact h a

lemma look_update (cacheCoins : COutPoint → Option (Slot Coin)) (below : CoinMap) (o : COutPoint)
    (slot : Option (Slot Coin)) : (fun a => look (update cacheCoins o slot a) (below a)) =
      update (fun a => look (cacheCoins a) (below a)) o (look slot (below o)) := by
  funext a
  by_cases ha : a = o
  · subst ha
    rw [update_self, update_self]
  · rw [update_of_ne ha, update_of_ne ha]

lemma fetchFrom_spec (o : COutPoint) (base : List Layer × Option Coin)
    (hbase : Shows backing below backing base.1) (hcoin : base.2 = seen backing below o)
    (h : SoundFrom backing (layer :: below)) : let r := fetchFrom base layer below o
    Shows backing (layer :: below) backing (r.1.1 :: r.1.2) ∧ r.2 = r.1.1.cacheCoins.lookup o ∧
      (r.2.bind fun entry => unspent entry.coin) = seen backing (layer :: below) o := by
  intro r
  cases hentry : layer.cacheCoins.lookup o with
  | some entry =>
    have hr : r = ((layer, below), some entry) := by simp only [r, fetchFrom, hentry]
    rw [hr]
    refine ⟨shows_refl _ _ h, hentry.symm, ?_⟩
    show unspent entry.coin = look (slots layer.cacheCoins o) _
    rw [slots, hentry]
    rfl
  | none =>
    have hshow := hbase.cons layer h.1
    have hmiss : seen backing (layer :: below) o = seen backing below o := by
      show look (slots layer.cacheCoins o) _ = _
      rw [slots, hentry]
      rfl
    cases htmp : base.2 with
    | none =>
      have hr : r = ((layer, base.1), none) := by simp only [r, fetchFrom, hentry, htmp]
      rw [hr]
      exact ⟨hshow, hentry.symm, by rw [hmiss, ← hcoin, htmp]; rfl⟩
    | some tmp =>
      have hlive : isSpent tmp = false := seen_live backing below o tmp (hcoin.symm.trans htmp)
      have hr : r = (({ layer with cacheCoins := layer.cacheCoins.insert o ⟨tmp, false, false⟩ },
          base.1), some ⟨tmp, false, false⟩) := by
        simp only [r, fetchFrom, hentry, htmp, hlive]
      have hslot : some (slotOf ⟨tmp, false, false⟩) = fill (seen backing below o) := by
        rw [← hcoin, htmp, slotOf, unspent_of_live hlive]
        rfl
      rw [hr]
      refine ⟨⟨?_, ⟨?_, hbase.sound⟩, congrArg (· + 1) hbase.length⟩, ?_, ?_⟩
      · -- the new slot shows what was below, which is what was seen before
        show (fun a => look (slots (layer.cacheCoins.insert o _) a) (seen backing base.1 a)) = _
        rw [slots_insert, look_update, hbase.seen, hslot, look_fill, ← hmiss]
        exact update_eq_self o (seen backing (layer :: below))
      · show ∀ a, Sound (slots (layer.cacheCoins.insert o _) a) (seen backing base.1 a)
        rw [slots_insert, hbase.seen, hslot]
        exact sound_update h.1 o _ (sound_fill _)
      · exact (AList.lookup_insert layer.cacheCoins).symm
      · show unspent tmp = _
        rw [hmiss, ← hcoin, htmp, unspent_of_live hlive]

lemma getCoinFrom_spec (h : SoundFrom backing layers) :
    Shows backing layers backing (getCoinFrom backing o layers).1 ∧
      (getCoinFrom backing o layers).2 = seen backing layers o := by
  induction layers with
  | nil => exact ⟨shows_refl _ _ h, rfl⟩
  | cons layer below ih =>
    obtain ⟨hshow, hcoin⟩ := ih h.2
    obtain ⟨hresult, -, hvalue⟩ := fetchFrom_spec backing layer below o _ hshow hcoin h
    exact ⟨hresult, hvalue⟩

def seenThrough (its : List (Sigma fun _ : COutPoint => CCoinsCacheEntry)) (below : CoinMap) :
    CoinMap :=
  fun o => look ((its.dlookup o).map slotOf) (below o)

lemma seenThrough_cons (it : Sigma fun _ : COutPoint => CCoinsCacheEntry)
    (its : List (Sigma fun _ : COutPoint => CCoinsCacheEntry)) (h : (it :: its).NodupKeys)
    (below : CoinMap) : seenThrough (it :: its) below =
      seenThrough its (update below it.1 (slotOf it.2).value) := by
  funext o
  have hkey : it.1 ∉ its.keys := (List.nodupKeys_cons.mp h).1
  by_cases ho : o = it.1
  · have hhead : (it :: its).dlookup it.1 = some it.2 := List.dlookup_cons_eq its it.1 it.2
    subst ho
    simp [seenThrough, hhead, List.dlookup_eq_none.mpr hkey, look]
  · simp [seenThrough, List.dlookup_cons_ne its it ho, update_of_ne ho]

lemma key_ne {it : Sigma fun _ : COutPoint => CCoinsCacheEntry}
    {its : List (Sigma fun _ : COutPoint => CCoinsCacheEntry)} (h : (it :: its).NodupKeys)
    {a : Sigma fun _ : COutPoint => CCoinsCacheEntry} (ha : a ∈ its) : a.1 ≠ it.1 := by
  intro heq
  exact (List.nodupKeys_cons.mp h).1 (heq ▸ List.mem_keys_of_mem ha)

lemma backingEntry_eq (it : Sigma fun _ : COutPoint => CCoinsCacheEntry) : backingEntry coins it =
      update coins it.1 (settle (slotOf it.2) (coins it.1)) := by
  funext o
  by_cases ho : o = it.1
  · subst ho
    by_cases hdirty : it.2.dirty = true <;> by_cases hspent : isSpent it.2.coin = true <;>
      simp [backingEntry, settle, slotOf, unspent, hdirty, hspent]
  · by_cases hdirty : it.2.dirty = true <;> by_cases hspent : isSpent it.2.coin = true <;>
      simp [backingEntry, hdirty, hspent, ho, erase_other, put_other]

lemma foldl_backingEntry (its : List (Sigma fun _ : COutPoint => CCoinsCacheEntry))
    (hkeys : its.NodupKeys) (coins : CoinMap)
    (h : ∀ it ∈ its, Sound (some (slotOf it.2)) (coins it.1)) :
    its.foldl backingEntry coins = seenThrough its coins := by
  induction its generalizing coins with
  | nil => rfl
  | cons it its ih =>
    have hstep : backingEntry coins it = update coins it.1 (slotOf it.2).value := by
      rw [backingEntry_eq, settle_eq (h it List.mem_cons_self)]
    rw [seenThrough_cons it its hkeys, ← hstep]
    refine ih (List.nodupKeys_cons.mp hkeys).2 _ fun a ha => ?_
    rw [hstep, update_of_ne (key_ne hkeys ha)]
    exact h a (List.mem_cons_of_mem it ha)

lemma batchEntry_spec (it : Sigma fun _ : COutPoint => CCoinsCacheEntry) (below : Option Coin)
    (h : Sound (some (slotOf it.2)) (look (slots cacheCoins it.1) below)) :
    ∃ cacheCoins', batchEntry cacheCoins it = .ok cacheCoins' ∧
      slots cacheCoins' =
        update (slots cacheCoins) it.1 (merge (slotOf it.2) (slots cacheCoins it.1)) := by
  have hnone : (slotOf it.2).value.isNone = isSpent it.2.coin := unspent_isNone it.2.coin
  by_cases hdirty : it.2.dirty = false
  · refine ⟨cacheCoins, by simp only [batchEntry, hdirty, if_true], ?_⟩
    have hmerge : merge (slotOf it.2) (slots cacheCoins it.1) = slots cacheCoins it.1 :=
      if_pos hdirty
    rw [hmerge, update_eq_self]
  · have hdirty' : (slotOf it.2).dirty ≠ false := hdirty
    cases hus : cacheCoins.lookup it.1 with
    | none =>
      have hslot : slots cacheCoins it.1 = none := by rw [slots, hus]; rfl
      by_cases hdrop : (it.2.fresh && isSpent it.2.coin) = true
      · have hmerge : merge (slotOf it.2) (slots cacheCoins it.1) = none := by
          rw [hslot, merge, if_neg hdirty']
          exact if_pos (by rw [hnone]; exact hdrop)
        refine ⟨cacheCoins, by simp [batchEntry, hus, hdrop], ?_⟩
        rw [hmerge, ← hslot, update_eq_self]
      · have hmerge : merge (slotOf it.2) (slots cacheCoins it.1) =
            some (slotOf ⟨it.2.coin, true, it.2.fresh⟩) := by
          rw [hslot, merge, if_neg hdirty']
          exact if_neg (by rw [hnone]; exact hdrop)
        refine ⟨cacheCoins.insert it.1 ⟨it.2.coin, true, it.2.fresh⟩,
          by simp [batchEntry, hdirty, hus, hdrop], ?_⟩
        rw [hmerge, slots_insert]
    | some itUs =>
      have hslot : slots cacheCoins it.1 = some (slotOf itUs) := by rw [slots, hus]; rfl
      -- a fresh entry has no live coin below it
      have hdead : ¬(it.2.fresh = true ∧ isSpent itUs.coin = false) := by
        rintro ⟨hfresh, hlive⟩
        have hvalue := parent_dead h hfresh (slotOf itUs) hslot
        rw [slotOf, unspent_of_live hlive] at hvalue
        cases hvalue
      by_cases hdrop : (itUs.fresh && isSpent it.2.coin) = true
      · have hmerge : merge (slotOf it.2) (slots cacheCoins it.1) = none := by
          rw [hslot, merge, if_neg hdirty']
          exact if_pos (by rw [hnone]; exact hdrop)
        refine ⟨cacheCoins.erase it.1, ?_, by rw [hmerge, slots_erase]⟩
        simp only [batchEntry, hdirty, hus, hdrop, if_true, if_false, rejectIf, hdead]
        rfl
      · have hmerge : merge (slotOf it.2) (slots cacheCoins it.1) =
            some (slotOf ⟨it.2.coin, true, itUs.fresh⟩) := by
          rw [hslot, merge, if_neg hdirty']
          exact if_neg (by rw [hnone]; exact hdrop)
        refine ⟨cacheCoins.insert it.1 ⟨it.2.coin, true, itUs.fresh⟩, ?_, by
          rw [hmerge, slots_insert]⟩
        simp only [batchEntry, hdirty, hus, hdrop, if_false, rejectIf, hdead]
        rfl

lemma loop_batchEntry (its : List (Sigma fun _ : COutPoint => CCoinsCacheEntry))
    (hkeys : its.NodupKeys) (cacheCoins : CCoinsMap) (below : CoinMap)
    (hsound : ∀ o, Sound (slots cacheCoins o) (below o))
    (h : ∀ it ∈ its, Sound (some (slotOf it.2)) (look (slots cacheCoins it.1) (below it.1))) :
    ∃ cacheCoins', loop batchEntry cacheCoins its = .ok cacheCoins' ∧
      (∀ o, Sound (slots cacheCoins' o) (below o)) ∧
      (fun o => look (slots cacheCoins' o) (below o)) =
        seenThrough its fun o => look (slots cacheCoins o) (below o) := by
  induction its generalizing cacheCoins with
  | nil => exact ⟨cacheCoins, rfl, hsound, rfl⟩
  | cons it its ih =>
    have hit := h it List.mem_cons_self
    obtain ⟨next, hstep, hnext⟩ := batchEntry_spec cacheCoins it (below it.1) hit
    have hseen : (fun o => look (slots next o) (below o)) =
        update (fun o => look (slots cacheCoins o) (below o)) it.1 (slotOf it.2).value := by
      rw [hnext, look_update, look_merge hit (hsound it.1)]
    have hnextSound : ∀ o, Sound (slots next o) (below o) := by
      rw [hnext]
      exact sound_update hsound it.1 _ (sound_merge hit (hsound it.1))
    obtain ⟨last, hrun, hlast, hresult⟩ := ih (List.nodupKeys_cons.mp hkeys).2 next hnextSound (by
      intro a ha
      have hsame := congrFun hseen a.1
      rw [update_of_ne (key_ne hkeys ha)] at hsame
      rw [hsame]
      exact h a (List.mem_cons_of_mem it ha))
    refine ⟨last, (loop_cons_ok_iff _ _ _ _ _).mpr ⟨next, hstep, hrun⟩, hlast, ?_⟩
    rw [hresult, hseen, seenThrough_cons it its hkeys]

lemma sound_entry {cacheCoins : CCoinsMap} {below : CoinMap}
    (h : ∀ o, Sound (slots cacheCoins o) (below o))
    (it : Sigma fun _ : COutPoint => CCoinsCacheEntry) (hit : it ∈ cacheCoins.entries) :
    Sound (some (slotOf it.2)) (below it.1) := by
  have hlookup : slots cacheCoins it.1 = some (slotOf it.2) := by
    rw [slots, AList.mem_lookup_iff.mpr hit]
    rfl
  rw [← hlookup]
  exact h it.1

lemma flushHead_spec (h : SoundFrom backing (layer :: below)) :
    ∃ below' backing', flushHead layer below backing = .ok (below', backing') ∧
      seen backing' below' = seen backing (layer :: below) ∧ SoundFrom backing' below' ∧
      below'.length = below.length := by
  have hentries := sound_entry h.1
  cases below with
  | nil =>
    have hcoins : (backing.batchWrite layer.cacheCoins layer.hashBlock).coins =
        seen backing [layer] :=
      foldl_backingEntry layer.cacheCoins.entries layer.cacheCoins.nodupKeys backing.coins hentries
    exact ⟨[], _, rfl, hcoins, trivial, rfl⟩
  | cons base rest =>
    obtain ⟨cacheCoins, hrun, hsound, hseen⟩ := loop_batchEntry layer.cacheCoins.entries
      layer.cacheCoins.nodupKeys base.cacheCoins (seen backing rest) h.2.1 hentries
    refine ⟨⟨cacheCoins, layer.hashBlock⟩ :: rest, backing, ?_, hseen, ⟨hsound, h.2.2⟩, rfl⟩
    simp [flushHead, batchWrite, hrun]

lemma flushFrom_spec (backing : Backing) (layers : List Layer) (h : SoundFrom backing layers) :
    ∃ layers' backing', flushFrom backing depth layers = .ok (layers', backing') ∧
      Shows backing layers backing' layers' := by
  induction depth generalizing layers with
  | zero =>
    cases layers with
    | nil => exact ⟨[], backing, rfl, shows_refl _ _ h⟩
    | cons layer below =>
      obtain ⟨below', backing', hflush, hseen, hsound, hlength⟩ :=
        flushHead_spec backing layer below h
      refine ⟨{ layer with cacheCoins := ∅ } :: below', backing', ?_,
        ⟨hseen, ⟨fun o => sound_none _, hsound⟩, congrArg (· + 1) hlength⟩⟩
      simp [flushFrom, hflush]
  | succ depth ih =>
    cases layers with
    | nil => exact ⟨[], backing, rfl, shows_refl _ _ h⟩
    | cons layer below =>
      obtain ⟨below', backing', hflush, hshows⟩ := ih below h.2
      refine ⟨layer :: below', backing', ?_, hshows.cons layer h.1⟩
      simp [flushFrom, hflush]

lemma flushFrom_empties (backing backing' : Backing) (layers layers' : List Layer)
    (hflush : flushFrom backing depth layers = .ok (layers', backing'))
    (h : ∀ layer ∈ layers.take depth, layer.cacheCoins = ∅) :
    ∀ layer ∈ layers'.take (depth + 1), layer.cacheCoins = ∅ := by
  induction depth generalizing layers layers' with
  | zero =>
    cases layers with
    | nil =>
      cases hflush
      simp
    | cons layer below =>
      obtain ⟨r, -, hr⟩ := (bind_ok_iff _ _ _).mp hflush
      cases hr
      simp
  | succ depth ih =>
    cases layers with
    | nil =>
      cases hflush
      simp
    | cons layer below =>
      obtain ⟨r, hrest, hr⟩ := (bind_ok_iff _ _ _).mp hflush
      cases hr
      rw [List.take_succ_cons, List.forall_mem_cons] at h
      rw [List.take_succ_cons, List.forall_mem_cons]
      exact ⟨h.1, ih below r.1 hrest h.2⟩

lemma seen_empty (h : ∀ layer ∈ layers, layer.cacheCoins = ∅) :
    seen backing layers = backing.coins := by
  induction layers with
  | nil => rfl
  | cons layer below ih =>
    rw [List.forall_mem_cons] at h
    rw [← ih h.2]
    funext o
    rw [seen, h.1]
    rfl

lemma sound_empty (h : ∀ layer ∈ layers, layer.cacheCoins = ∅) : SoundFrom backing layers := by
  induction layers with
  | nil => trivial
  | cons layer below ih =>
    rw [List.forall_mem_cons] at h
    refine ⟨fun o => ?_, ih h.2⟩
    rw [h.1]
    exact sound_none _

lemma uncache_spec (o : COutPoint) (h : SoundFrom backing (layer :: below)) :
    Shows backing (layer :: below) backing (layer.uncache o :: below) := by
  unfold Layer.uncache
  cases hentry : layer.cacheCoins.lookup o with
  | none => exact shows_refl _ _ h
  | some it =>
    dsimp only
    by_cases hflags : it.dirty = false ∧ it.fresh = false
    · rw [if_pos hflags]
      have hslot : slots layer.cacheCoins o = some (slotOf it) := by rw [slots, hentry]; rfl
      have hclean : seen backing below o = seen backing (layer :: below) o := by
        have hsound := h.1 o
        rw [hslot] at hsound
        exact (look_clean hsound hflags.1).trans (congrArg (look · _) hslot.symm)
      refine ⟨?_, ⟨?_, h.2⟩, rfl⟩
      · show (fun a => look (slots (layer.cacheCoins.erase o) a) (seen backing below a)) = _
        rw [slots_erase, look_update]
        exact (congrArg _ hclean).trans (update_eq_self o (seen backing (layer :: below)))
      · show ∀ a, Sound (slots (layer.cacheCoins.erase o) a) (seen backing below a)
        rw [slots_erase]
        exact sound_update h.1 o none (sound_none _)
    · rw [if_neg hflags]
      exact shows_refl _ _ h

lemma uncacheFrom_spec (backing : Backing) (layers : List Layer) (h : SoundFrom backing layers) :
    Shows backing layers backing (uncacheFrom o depth layers) := by
  induction depth generalizing layers with
  | zero =>
    cases layers with
    | nil => exact shows_refl _ _ h
    | cons layer below => exact uncache_spec backing layer below o h
  | succ depth ih =>
    cases layers with
    | nil => exact shows_refl _ _ h
    | cons layer below => exact (ih below h.2).cons layer h.1

end CoinsCache
