import BitcoinC.CoinsCache

/-!
# The stack of caches refines one map

Every operation on a stack of coins caches is matched by the same operation on one
map from outpoints to unspent coins.
-/

namespace CoinsRefinement

open Primitives Scripts Environment Verdicts TxVerify KeyedStore WriteBack CoinsCache

variable {s : Stack} {coins : CoinMap}
variable (cacheCoins : CCoinsMap) (o : COutPoint)

inductive Op where
  | getCoin (o : COutPoint)
  | haveCoin (o : COutPoint)
  | accessCoin (o : COutPoint)
  | addCoin (o : COutPoint) (coin : Coin) (possible_overwrite : Bool)
  | spendCoin (o : COutPoint)
  | uncache (depth : Nat) (o : COutPoint)
  | flush (depth : Nat)

/-- What an operation returns. A spent coin that is handed out counts as no coin; the boolean of
`SpendCoin` only tells whether there was an entry, and that may be one of a spent coin. -/
inductive Answer where
  | coin (coin : Option Coin)
  | present (b : Bool)
  | done
deriving DecidableEq

def step (s : Stack) : Op → Verdict (Stack × Answer)
  | .getCoin o => .ok ((getCoin s o).1, .coin (getCoin s o).2)
  | .haveCoin o => .ok ((haveCoin s o).1, .present (haveCoin s o).2)
  | .accessCoin o => .ok ((accessCoin s o).1, .coin (unspent (accessCoin s o).2))
  | .addCoin o coin possible_overwrite => do
    let s' ← addCoin s o coin possible_overwrite
    pure (s', .done)
  | .spendCoin o => .ok ((spendCoin s o).1, .coin ((spendCoin s o).2.bind unspent))
  | .uncache depth o => .ok (uncache s o depth, .done)
  | .flush depth => do
    let s' ← flush s depth
    pure (s', .done)

def run : Stack → List Op → Verdict (Stack × List Answer)
  | s, [] => .ok (s, [])
  | s, op :: ops => do
    let r ← step s op
    let rest ← run r.1 ops
    pure (rest.1, r.2 :: rest.2)

def flatStep (coins : CoinMap) : Op → Verdict (CoinMap × Answer)
  | .getCoin o => .ok (coins, .coin (coins o))
  | .haveCoin o => .ok (coins, .present (coins o).isSome)
  | .accessCoin o => .ok (coins, .coin (coins o))
  | .addCoin o coin _ => do
    rejectIf (isSpent coin = true) (.throws "AddCoin: !coin.IsSpent()")
    pure (if isUnspendable coin.out.scriptPubKey then coins else put coins o coin, .done)
  | .spendCoin o => .ok (erase coins o, .coin (coins o))
  | .uncache _ _ => .ok (coins, .done)
  | .flush _ => .ok (coins, .done)

def flatRun : CoinMap → List Op → Verdict (CoinMap × List Answer)
  | coins, [] => .ok (coins, [])
  | coins, op :: ops => do
    let r ← flatStep coins op
    let rest ← flatRun r.1 ops
    pure (rest.1, r.2 :: rest.2)

def OpAllowed (coins : CoinMap) : Op → Prop
  | .addCoin o _ possible_overwrite => possible_overwrite = false → coins o = none
  | _ => True

def Allowed : CoinMap → List Op → Prop
  | _, [] => True
  | coins, op :: ops =>
    OpAllowed coins op ∧ ∀ coins' answer, flatStep coins op = .ok (coins', answer) →
      Allowed coins' ops

/-- The stack of caches stands for the flat map. -/
structure Simulates (s : Stack) (coins : CoinMap) : Prop where
  sound : SoundFrom s.backing (s.top :: s.below)
  seen : seen s.backing (s.top :: s.below) = coins

lemma Simulates.of_shows {s' : Stack} (h : Simulates s coins)
    (hshows : Shows s.backing (s.top :: s.below) s'.backing (s'.top :: s'.below)) :
    Simulates s' coins :=
  ⟨hshows.sound, hshows.seen.trans h.seen⟩

lemma Simulates.of_update (h : Simulates s coins) (cacheCoins : CCoinsMap) (o : COutPoint)
    (slot : Option (Slot Coin))
    (hslots : slots cacheCoins = Function.update (slots s.top.cacheCoins) o slot)
    (hslot : Sound slot (CoinsCache.seen s.backing s.below o)) :
    Simulates { s with top := { s.top with cacheCoins := cacheCoins } }
      (Function.update coins o (look slot (CoinsCache.seen s.backing s.below o))) where
  sound := by
    refine ⟨?_, h.sound.2⟩
    show ∀ a, Sound (slots cacheCoins a) (CoinsCache.seen s.backing s.below a)
    rw [hslots]
    exact sound_update h.sound.1 o slot hslot
  seen := by
    show (fun a => look (slots cacheCoins a) (CoinsCache.seen s.backing s.below a)) = _
    rw [hslots, look_update, ← h.seen]
    rfl

lemma fetchCoin_spec (h : Simulates s coins) (o : COutPoint) : Simulates (fetchCoin s o).1 coins ∧
      (fetchCoin s o).2 = (fetchCoin s o).1.top.cacheCoins.lookup o ∧
      ((fetchCoin s o).2.bind fun entry => unspent entry.coin) = coins o := by
  obtain ⟨hshows, hcoin⟩ := getCoinFrom_spec s.backing o s.below h.sound.2
  obtain ⟨hresult, hentry, hvalue⟩ :=
    fetchFrom_spec s.backing s.top s.below o _ hshows hcoin h.sound
  exact ⟨h.of_shows hresult, hentry, hvalue.trans (congrFun h.seen o)⟩

def addedEntry (cacheCoins : CCoinsMap) (o : COutPoint) (coin : Coin) (possible_overwrite : Bool) :
    CCoinsCacheEntry :=
  ⟨coin, true, (emplaced cacheCoins o).fresh ||
    (!possible_overwrite && !(emplaced cacheCoins o).dirty)⟩

lemma slotOf_addedEntry (coin : Coin) (possible_overwrite : Bool) (hlive : isSpent coin = false) :
    slotOf (addedEntry cacheCoins o coin possible_overwrite) =
      write (slots cacheCoins o) coin (!possible_overwrite) := by
  rw [slotOf, addedEntry, unspent_of_live hlive, slots, emplaced]
  cases cacheCoins.lookup o with
  | none => simp [write]
  | some entry => rfl

lemma emplaced_dead (below : Option Coin) (h : look (slots cacheCoins o) below = none) :
    isSpent (emplaced cacheCoins o).coin = true := by
  rw [slots] at h
  rw [emplaced]
  cases hentry : cacheCoins.lookup o with
  | none => rfl
  | some entry =>
    rw [hentry] at h
    rw [Option.getD_some, ← unspent_isNone]
    exact congrArg Option.isNone h

lemma addCoin_spec (h : Simulates s coins) (o : COutPoint) (coin : Coin)
    (possible_overwrite : Bool) (hlive : isSpent coin = false)
    (hspendable : ¬isUnspendable coin.out.scriptPubKey)
    (hnew : possible_overwrite = false → coins o = none) :
    ∃ s', addCoin s o coin possible_overwrite = .ok s' ∧ Simulates s' (put coins o coin) := by
  have hseen : look (slots s.top.cacheCoins o) (seen s.backing s.below o) = coins o :=
    congrFun h.seen o
  have hfree : ¬(possible_overwrite = false ∧
      isSpent (emplaced s.top.cacheCoins o).coin = false) := by
    rintro ⟨hoverwrite, hunspent⟩
    have hdead := emplaced_dead _ o _ (hseen.trans (hnew hoverwrite))
    rw [hunspent] at hdead
    cases hdead
  have hsound := sound_write (h.sound.1 o) coin (!possible_overwrite) (by
    intro hoverwrite
    exact hseen.trans (hnew (by simpa using hoverwrite)))
  have hresult := h.of_update (s.top.cacheCoins.insert o
    (addedEntry s.top.cacheCoins o coin possible_overwrite)) o _
    (by rw [slots_insert, slotOf_addedEntry _ _ _ _ hlive]) hsound
  rw [look_write, update_some] at hresult
  refine ⟨_, ?_, hresult⟩
  simp only [addCoin, rejectIf, hlive, hspendable, hfree, if_false, Bool.false_eq_true]
  rfl

lemma spendCoin_spec (h : Simulates s coins) (o : COutPoint) :
    Simulates (spendCoin s o).1 (erase coins o) ∧ (spendCoin s o).2.bind unspent = coins o := by
  obtain ⟨hfetch, hentry, hvalue⟩ := fetchCoin_spec h o
  unfold spendCoin
  dsimp only
  cases hit : (fetchCoin s o).2 with
  | none =>
    rw [hit] at hvalue
    rw [erase_of_none coins o hvalue.symm]
    exact ⟨hfetch, hvalue⟩
  | some it =>
    rw [hit] at hvalue hentry
    have hslot : slots (fetchCoin s o).1.top.cacheCoins o = some (slotOf it) := by
      rw [slots, ← hentry]
      rfl
    have hsound := hfetch.sound.1 o
    rw [hslot] at hsound
    have hresult := hfetch.of_update
      (if it.fresh then (fetchCoin s o).1.top.cacheCoins.erase o
        else (fetchCoin s o).1.top.cacheCoins.insert o ⟨clear it.coin, true, it.fresh⟩) o
      (delete (slotOf it)) (by
        by_cases hfresh : it.fresh = true
        · rw [if_pos hfresh, slots_erase]
          exact congrArg _ (if_pos hfresh).symm
        · rw [if_neg hfresh, slots_insert]
          exact congrArg _ (if_neg hfresh).symm)
      (sound_delete _ _)
    rw [look_delete hsound, update_none] at hresult
    exact ⟨hresult, hvalue⟩

lemma flush_spec (h : Simulates s coins) (depth : Nat) :
    ∃ s', flush s depth = .ok s' ∧ Simulates s' coins ∧ s'.below.length = s.below.length ∧
      ((∀ layer ∈ (s.top :: s.below).take depth, layer.cacheCoins = ∅) →
        ∀ layer ∈ (s'.top :: s'.below).take (depth + 1), layer.cacheCoins = ∅) := by
  cases depth with
  | zero =>
    obtain ⟨below', backing', hflush, hseen, hsound, hlength⟩ :=
      flushHead_spec s.backing s.top s.below h.sound
    refine ⟨⟨{ s.top with cacheCoins := ∅ }, below', backing'⟩, by simp [flush, hflush],
      ⟨⟨fun o => sound_none _, hsound⟩, hseen.trans h.seen⟩, hlength, ?_⟩
    simp
  | succ depth =>
    obtain ⟨below', backing', hflush, hshows⟩ :=
      flushFrom_spec depth s.backing s.below h.sound.2
    refine ⟨{ s with below := below', backing := backing' }, by simp [flush, hflush],
      h.of_shows (hshows.cons s.top h.sound.1), hshows.length, ?_⟩
    intro hempty
    rw [List.take_succ_cons, List.forall_mem_cons] at hempty
    rw [List.take_succ_cons, List.forall_mem_cons]
    exact ⟨hempty.1, flushFrom_empties depth _ _ _ _ hflush hempty.2⟩

lemma uncache_simulates (h : Simulates s coins) (depth : Nat) (o : COutPoint) :
    Simulates (uncache s o depth) coins := by
  cases depth with
  | zero => exact h.of_shows (uncache_spec s.backing s.top s.below o h.sound)
  | succ depth =>
    exact h.of_shows ((uncacheFrom_spec o depth s.backing s.below h.sound.2).cons s.top h.sound.1)

/-- The stack fails as the map does, or gives the same answer and shows the map's result. -/
def Matches {α : Type} (flat : Verdict (CoinMap × α)) (real : Verdict (Stack × α)) : Prop :=
  match flat with
  | .error e => real = .error e
  | .ok r => ∃ s', real = .ok (s', r.2) ∧ Simulates s' r.1

lemma step_matches (h : Simulates s coins) (op : Op) (hop : OpAllowed coins op) :
    Matches (flatStep coins op) (step s op) := by
  cases op with
  | getCoin o =>
    obtain ⟨hfetch, -, hvalue⟩ := fetchCoin_spec h o
    exact ⟨_, congrArg (fun c => Except.ok ((fetchCoin s o).1, Answer.coin c)) hvalue, hfetch⟩
  | haveCoin o =>
    obtain ⟨hfetch, -, hvalue⟩ := fetchCoin_spec h o
    have hhave : ((fetchCoin s o).2.any fun entry => !isSpent entry.coin) = (coins o).isSome := by
      rw [← hvalue]
      cases (fetchCoin s o).2 with
      | none => rfl
      | some entry => simp [← unspent_isNone]
    exact ⟨_, congrArg (fun b => Except.ok ((fetchCoin s o).1, Answer.present b)) hhave, hfetch⟩
  | accessCoin o =>
    obtain ⟨hfetch, -, hvalue⟩ := fetchCoin_spec h o
    have hcoin : unspent (accessCoin s o).2 = coins o := by
      rw [← hvalue, accessCoin]
      cases (fetchCoin s o).2 <;> rfl
    exact ⟨_, congrArg (fun c => Except.ok ((fetchCoin s o).1, Answer.coin c)) hcoin, hfetch⟩
  | addCoin o coin possible_overwrite =>
    by_cases hlive : isSpent coin = true
    · simp [Matches, flatStep, step, addCoin, rejectIf, hlive]
    · by_cases hspendable : isUnspendable coin.out.scriptPubKey
      · simpa [Matches, flatStep, step, addCoin, rejectIf, hlive, hspendable] using h
      · obtain ⟨s', hadd, hs'⟩ := addCoin_spec h o coin possible_overwrite (by simpa using hlive)
          hspendable hop
        simpa [Matches, flatStep, step, rejectIf, hlive, hspendable, hadd] using hs'
  | spendCoin o =>
    obtain ⟨hspend, hvalue⟩ := spendCoin_spec h o
    exact ⟨_, congrArg (fun c => Except.ok ((spendCoin s o).1, Answer.coin c)) hvalue, hspend⟩
  | uncache depth o => exact ⟨_, rfl, uncache_simulates h depth o⟩
  | flush depth =>
    obtain ⟨s', hflush, hs', -⟩ := flush_spec h depth
    exact ⟨s', by simp [step, hflush], hs'⟩

/-- A run on the stack answers like the run on the flat map. -/
lemma run_matches (h : Simulates s coins) (ops : List Op) (hops : Allowed coins ops) :
    Matches (flatRun coins ops) (run s ops) := by
  induction ops generalizing s coins with
  | nil => exact ⟨s, rfl, h⟩
  | cons op ops ih =>
    have hstep := step_matches h op hops.1
    cases hflat : flatStep coins op with
    | error e =>
      rw [hflat] at hstep
      have hreal : step s op = .error e := hstep
      simp [Matches, flatRun, run, hflat, hreal]
    | ok r =>
      rw [hflat] at hstep
      obtain ⟨s', hreal, hs'⟩ := hstep
      have hrest := ih hs' (hops.2 r.1 r.2 hflat)
      cases hlast : flatRun r.1 ops with
      | error e =>
        rw [hlast] at hrest
        have hrun : run s' ops = .error e := hrest
        simp [Matches, flatRun, run, hflat, hreal, hlast, hrun]
      | ok rest =>
        rw [hlast] at hrest
        obtain ⟨last, hrun, hsim⟩ := hrest
        simpa [Matches, flatRun, run, hflat, hreal, hlast, hrun] using hsim

lemma flatStep_error (coins : CoinMap) (op : Op) (e : Reject) (h : flatStep coins op = .error e) :
    e = .throws "AddCoin: !coin.IsSpent()" := by
  cases op with
  | addCoin o coin possible_overwrite =>
    by_cases hlive : isSpent coin = true
    · simp only [flatStep, rejectIf, hlive, if_true, error_bind] at h
      cases h
      rfl
    · simp [flatStep, rejectIf, hlive] at h
  | _ => cases h

lemma flatRun_error (coins : CoinMap) (ops : List Op) (e : Reject)
    (h : flatRun coins ops = .error e) : e = .throws "AddCoin: !coin.IsSpent()" := by
  induction ops generalizing coins with
  | nil => cases h
  | cons op ops ih =>
    cases hflat : flatStep coins op with
    | error e' =>
      simp only [flatRun, hflat, error_bind] at h
      cases h
      exact flatStep_error coins op _ hflat
    | ok r =>
      cases hlast : flatRun r.1 ops with
      | error e' =>
        simp only [flatRun, hflat, hlast, ok_bind, error_bind] at h
        cases h
        exact ih r.1 hlast
      | ok rest => simp [flatRun, hflat, hlast] at h

lemma flush_upTo (h : Simulates s coins) (n : Nat) :
    ∃ s', loop flush s (List.range n) = .ok s' ∧ Simulates s' coins ∧
      s'.below.length = s.below.length ∧
      ∀ layer ∈ (s'.top :: s'.below).take n, layer.cacheCoins = ∅ := by
  induction n with
  | zero => exact ⟨s, rfl, h, rfl, by simp⟩
  | succ n ih =>
    obtain ⟨mid, hmid, hsim, hlength, hempty⟩ := ih
    obtain ⟨s', hflush, hs', hlength', hempty'⟩ := flush_spec hsim n
    refine ⟨s', ?_, hs', hlength'.trans hlength, hempty' hempty⟩
    rw [List.range_succ, loop_append_ok_iff]
    exact ⟨mid, hmid, (loop_cons_ok_iff _ _ _ _ _).mpr ⟨s', hflush, rfl⟩⟩

lemma flushAll_spec (h : Simulates s coins) :
    ∃ s', flushAll s = .ok s' ∧ s'.backing.coins = coins := by
  obtain ⟨s', hflush, hs', hlength, hempty⟩ := flush_upTo h (s.below.length + 1)
  rw [List.take_of_length_le (by simp [hlength])] at hempty
  exact ⟨s', hflush, (seen_empty _ _ hempty).symm.trans hs'.seen⟩

/-- Caches over a backing map, empty at first and of any depth. Whatever is read, added, spent,
uncached and flushed, the answers are those of one map, the map is what flushing all the caches
leaves at the bottom, `SpendCoin` returns false only for a coin that the map does not have, and
nothing throws but the assertion that an added coin is not spent. -/
theorem caches_refine_map (s : Stack) (hempty : ∀ layer ∈ s.top :: s.below, layer.cacheCoins = ∅)
    (ops : List Op) (hops : Allowed s.backing.coins ops) : match flatRun s.backing.coins ops with
    | .error e => run s ops = .error e ∧ e = .throws "AddCoin: !coin.IsSpent()"
    | .ok (coins, answers) =>
      ∃ s' s'', run s ops = .ok (s', answers) ∧ flushAll s' = .ok s'' ∧ s''.backing.coins = coins ∧
        ∀ o, (spendCoin s' o).2 = none → coins o = none := by
  have hstart : Simulates s s.backing.coins :=
    ⟨sound_empty s.backing _ hempty, seen_empty s.backing _ hempty⟩
  have hrun := run_matches hstart ops hops
  cases hflat : flatRun s.backing.coins ops with
  | error e =>
    rw [hflat] at hrun
    exact ⟨hrun, flatRun_error _ _ e hflat⟩
  | ok r =>
    rw [hflat] at hrun
    obtain ⟨s', hreal, hs'⟩ := hrun
    obtain ⟨s'', hflush, hcoins⟩ := flushAll_spec hs'
    refine ⟨s', s'', hreal, hflush, hcoins, fun o hnone => ?_⟩
    rw [← (spendCoin_spec hs' o).2, hnone]
    rfl

def sampleOut : COutPoint := ⟨1, 0⟩

def sampleCoin : Coin := ⟨⟨5, []⟩, false, 1, .standard⟩

def sampleStack : Stack :=
  ⟨⟨∅, 0⟩, [⟨∅, 0⟩], ⟨fun _ => none, 0, fun _ _ h => by cases h⟩⟩

def sampleOps : List Op :=
  [.addCoin sampleOut sampleCoin false, .flush 0, .getCoin sampleOut, .uncache 0 sampleOut,
    .spendCoin sampleOut, .flush 0, .haveCoin sampleOut, .flush 1, .accessCoin sampleOut]

lemma sampleOps_allowed : Allowed sampleStack.backing.coins sampleOps := by
  refine ⟨fun _ => rfl, fun coins' answer _ => ?_⟩
  repeat first
    | exact trivial
    | refine ⟨trivial, fun coins' answer _ => ?_⟩

theorem sampleOps_refine : Allowed sampleStack.backing.coins sampleOps ∧
      ∃ s' s'', run sampleStack sampleOps = .ok (s', [.done, .done, .coin (some sampleCoin), .done,
        .coin (some sampleCoin), .done, .present false, .done, .coin none]) ∧
        flushAll s' = .ok s'' ∧ s''.backing.coins = erase (put (fun _ => none) sampleOut sampleCoin)
          sampleOut := by
  obtain ⟨s', s'', hrun, hflush, hcoins, -⟩ :=
    caches_refine_map sampleStack (by simp [sampleStack]) sampleOps sampleOps_allowed
  exact ⟨sampleOps_allowed, s', s'', hrun, hflush, hcoins⟩

end CoinsRefinement
