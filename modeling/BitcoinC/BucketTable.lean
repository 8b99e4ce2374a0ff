import BitcoinC.PurgedMessages

/-!
# The table of buckets

Buckets are created by `buckets[time]` in `Store` and `Purge`, and for the times a peer names in
`smsgInv` and `smsgHave` (`smsg/smessage.cpp`); `smsgShow` and `smsgWant` only look them up.
-/

namespace BucketTable

open OrderedMaps SecureMessages PurgedMessages

def SmsgState.touch (S : SmsgState) (time : Int) : SmsgState := S.setBucket time (S.bucket time)

/-- The bucket headers of a peer: a time, a number of messages and a hash. -/
def smsgInv (now : Int) (headers : List (Int × UInt32 × UInt32)) (S : SmsgState) : SmsgState :=
  if SMSG_RETENTION / SMSG_BUCKET_LEN + 1 < headers.length then S
  else headers.foldl (fun S h =>
    if InWindow now h.1 ∧ ¬ h.2.1 < 1 then SmsgState.touch S h.1 else S) S

def smsgHave (now time : Int) (tokens : List TokenKey) (peer : Nat) (S : SmsgState) : SmsgState :=
  if ¬ InWindow now time then S
  else
    let T := SmsgState.touch S time
    if 0 < (T.bucket time).nLockCount then T
    else if (tokens.filter fun k => !(k.1 ∈ T.setPurgedTimestamps && k ∈ T.setPurged) &&
        (find (T.bucket time).setTokens k).isNone).isEmpty then T
    else T.setBucket time { T.bucket time with nLockCount := 3, nLockPeerId := peer }

inductive Event
  | smsgInv (now : Int) (headers : List (Int × UInt32 × UInt32))
  | smsgHave (now time : Int) (tokens : List TokenKey) (peer : Nat)
  | smsgMsg (valid unscanned : SecureMessage → Bool) (nBunch : Nat) (bktTime : Int)
      (messages : List SecureMessage) (now : Int) (io : Storage)
  | store (m : SecureMessage) (now : Int) (fHashBucket : Bool) (io : Storage)
  | purge (id : MsgID) (time : Int) (io : Storage)

def step (E : SmsgEnv) (S : SmsgState) : Event → SmsgState
  | .smsgInv now headers => smsgInv now headers S
  | .smsgHave now time tokens peer => smsgHave now time tokens peer S
  | .smsgMsg valid unscanned nBunch bktTime messages now io =>
    (receive E valid unscanned S nBunch bktTime messages now io).2
  | .store m now fHashBucket io => (store E S m now fHashBucket io).2
  | .purge id time io => (purge E S id time io).2

def run (E : SmsgEnv) (events : List Event) : SmsgState := events.foldl (step E) {}

/-- No event is later than `clock`; the times peers name for buckets are whole hours and ids to
purge do not lie ahead. -/
def Event.Regular (clock : Int) : Event → Prop
  | .smsgInv now headers => now ≤ clock ∧
      ∀ h ∈ headers, InWindow now h.1 ∧ ¬ h.2.1 < 1 → SMSG_BUCKET_LEN ∣ h.1
  | .smsgHave now time _ _ => now ≤ clock ∧ (InWindow now time → SMSG_BUCKET_LEN ∣ time)
  | .smsgMsg _ _ _ _ _ now _ => SMSG_RETENTION ≤ now ∧ now ≤ clock
  | .store _ now _ _ => SMSG_RETENTION ≤ now ∧ now ≤ clock
  | .purge id _ _ => 0 ≤ clock ∧ id.timestamp ≤ clock + SMSG_TIME_LEEWAY

/-- The tokens lie in the hour of the bucket. -/
def Fits (t : Int) (b : SecMsgBucket) : Prop :=
  ∀ k d, find b.setTokens k = some d → t ≤ k.1 ∧ k.1 < t + SMSG_BUCKET_LEN

/-- Bucket times are multiples of the bucket length and not far in the future. -/
def WellFormed (clock : Int) (buckets : List (Int × SecMsgBucket)) : Prop :=
  ∀ t b, find buckets t = some b → SMSG_BUCKET_LEN ∣ t ∧ t ≤ clock + SMSG_TIME_LEEWAY ∧ Fits t b

variable {E : SmsgEnv} {clock now t : Int} {S : SmsgState} {b : SecMsgBucket} {m : SecureMessage}

lemma bucketTime_bounds {ts : Int} (h : 0 ≤ ts) :
    0 ≤ bucketTime ts ∧ bucketTime ts ≤ ts ∧ ts < bucketTime ts + SMSG_BUCKET_LEN := by
  rw [bucketTime, Int.tmod_eq_emod_of_nonneg h, SMSG_BUCKET_LEN]
  omega

lemma bucketTime_le {ts c : Int} (h : ts ≤ c) (hc : 0 ≤ c) : bucketTime ts ≤ c := by
  rcases le_total 0 ts with h0 | h0
  · exact (bucketTime_bounds h0).2.1.trans h
  · have hneg : bucketTime ts = -bucketTime (-ts) := by
      rw [bucketTime, bucketTime, Int.neg_tmod]
      omega
    have hpos := (bucketTime_bounds (neg_nonneg.mpr h0)).1
    omega

lemma WellFormed.put (h : WellFormed clock S.buckets) (ht : SMSG_BUCKET_LEN ∣ t)
    (hle : t ≤ clock + SMSG_TIME_LEEWAY) (hb : Fits t b) :
    WellFormed clock (S.setBucket t b).buckets := by
  intro t' b' hfind
  rw [SmsgState.setBucket, find_put] at hfind
  split at hfind
  · rename_i heq
    rw [heq, ← Option.some.inj hfind]
    exact ⟨ht, hle, hb⟩
  · exact h t' b' hfind

lemma WellFormed.bucket (h : WellFormed clock S.buckets) (t : Int) : Fits t (S.bucket t) := by
  unfold SmsgState.bucket bucketAt
  cases hfind : find S.buckets t with
  | none => exact fun k d hk => absurd hk (by simp [find])
  | some b => exact (h t b hfind).2.2

lemma Fits.put (h : Fits t b) {k : TokenKey} (hk : t ≤ k.1 ∧ k.1 < t + SMSG_BUCKET_LEN)
    (d : TokenData) : Fits t { b with setTokens := OrderedMaps.put tokenLt b.setTokens k d } := by
  intro k' d' hfind
  rw [find_put] at hfind
  split at hfind
  · rename_i heq
    rwa [heq]
  · exact h k' d' hfind

lemma WellFormed.touch (h : WellFormed clock S.buckets) (ht : SMSG_BUCKET_LEN ∣ t)
    (hle : t ≤ clock + SMSG_TIME_LEEWAY) : WellFormed clock (SmsgState.touch S t).buckets :=
  h.put ht hle (h.bucket t)

lemma storeUnscanned_buckets (S : SmsgState) (m : SecureMessage) (now : Int) (io : Storage) :
    (storeUnscanned E S m now io).2.buckets = S.buckets := by
  have hcheck := (checkPurged_frame (E := E) S m io).1
  unfold storeUnscanned
  dsimp only
  split_ifs
  · exact hcheck
  · exact hcheck
  · exact hcheck
  · exact hcheck

lemma remove_buckets (S : SmsgState) (x : TokenKey × TokenData) :
    (remove E S x io).1.buckets = S.buckets := by
  unfold remove
  split
  · rfl
  · rfl
  · rfl

lemma WellFormed.store (h : WellFormed clock S.buckets) (hnow : SMSG_RETENTION ≤ now)
    (hclock : now ≤ clock) (fHashBucket : Bool) (io : Storage) :
    WellFormed clock (store E S m now fHashBucket io).2.buckets := by
  have hcheck : WellFormed clock (checkPurged E S m io).2.buckets := by
    rw [(checkPurged_frame S m io).1]
    exact h
  unfold SecureMessages.store
  dsimp only
  split
  · exact hcheck
  split
  · exact hcheck
  rename_i hwindow
  obtain ⟨hlate, hearly⟩ := not_not.mp hwindow
  have hbounds := bucketTime_bounds (show 0 ≤ m.timestamp by omega)
  have hdvd : SMSG_BUCKET_LEN ∣ bucketTime m.timestamp := Int.dvd_self_sub_tmod
  have hle : bucketTime m.timestamp ≤ clock + SMSG_TIME_LEEWAY := by omega
  have hopened := hcheck.touch hdvd hle
  split
  · exact hopened
  split
  · exact hopened
  -- the new token goes into the bucket of its time
  have hadded := fun d => (hopened.bucket (bucketTime m.timestamp)).put (k := m.key) hbounds.2 d
  refine WellFormed.put (S := setFile _ _ _) hopened hdvd hle ?_
  split
  · exact hadded _
  · exact hadded _

lemma WellFormed.receiveLoop (h : WellFormed clock S.buckets) (hnow : SMSG_RETENTION ≤ now)
    (hclock : now ≤ clock) (valid unscanned : SecureMessage → Bool) (io : Storage) (n : Nat)
    (messages : List SecureMessage) :
    WellFormed clock (receiveLoop E valid unscanned now io n messages S).buckets := by
  fun_induction SecureMessages.receiveLoop E valid unscanned now io n messages S with
  | case1 => exact h
  | case2 => exact h
  | case3 n m rest S hvalid ih => exact ih h
  | case4 n m rest S hvalid stored hfailed => exact h.store hnow hclock false io
  | case5 n m rest S hvalid stored hstored ih =>
    have hstore := h.store (E := E) (m := m) hnow hclock false io
    refine ih ?_
    split
    · rw [storeUnscanned_buckets]
      exact hstore
    · exact hstore

lemma WellFormed.dropToken {id : MsgID} {io : Storage} (h : WellFormed clock S.buckets)
    (hle : bucketTime id.timestamp ≤ clock + SMSG_TIME_LEEWAY) :
    WellFormed clock (dropToken E S id io).1.buckets := by
  unfold SecureMessages.dropToken
  split
  · exact h
  rename_i x hx
  have hkept : WellFormed clock (remove E S x io).1.buckets := by
    rw [remove_buckets]
    exact h
  dsimp only
  split
  · exact hkept
  -- the token that loses its days was in the bucket before
  have hsame :
      (remove E S x io).1.bucket (bucketTime id.timestamp) =
        S.bucket (bucketTime id.timestamp) := by
    rw [SmsgState.bucket, remove_buckets]
    rfl
  obtain ⟨d, hd⟩ := Option.ne_none_iff_exists'.mp (find_ne_none (List.mem_of_find?_eq_some hx))
  rw [hsame]
  exact hkept.put Int.dvd_self_sub_tmod hle ((h.bucket _).put (h.bucket _ _ d hd) _)

lemma WellFormed.step (h : WellFormed clock S.buckets) {e : Event} (he : e.Regular clock) :
    WellFormed clock (step E S e).buckets := by
  cases e with
  | smsgInv now headers =>
    obtain ⟨hclock, htimes⟩ := he
    show WellFormed clock (smsgInv now headers S).buckets
    unfold smsgInv
    split
    · exact h
    refine List.foldlRecOn (motive := fun T : SmsgState => WellFormed clock T.buckets) _ _ h ?_
    intro T hT x hx
    split
    · rename_i hin
      exact hT.touch (htimes x hx hin) (hin.1.1.trans (by omega))
    · exact hT
  | smsgHave now time tokens peer =>
    obtain ⟨hclock, htime⟩ := he
    show WellFormed clock (smsgHave now time tokens peer S).buckets
    unfold smsgHave
    split
    · exact h
    rename_i hwindow
    have hwindow := not_not.mp hwindow
    have hle : time ≤ clock + SMSG_TIME_LEEWAY := hwindow.1.trans (by omega)
    have htouch := h.touch (htime hwindow) hle
    dsimp only
    split
    · exact htouch
    split
    · exact htouch
    · exact htouch.put (htime hwindow) hle (htouch.bucket time)
  | smsgMsg valid unscanned nBunch bktTime messages now io =>
    have hloop := h.receiveLoop (E := E) he.1 he.2 valid unscanned io nBunch messages
    show WellFormed clock (receive E valid unscanned S nBunch bktTime messages now io).2.buckets
    unfold receive
    dsimp only
    split
    · exact h
    split
    · split
      · exact h
      · rename_i b hb
        obtain ⟨hdvd, hle, hfits⟩ := h bktTime b hb
        exact h.put hdvd hle hfits
    split
    · exact hloop
    · rename_i b hb
      obtain ⟨hdvd, hle, hfits⟩ := hloop bktTime b hb
      exact hloop.put hdvd hle hfits
  | store m now fHashBucket io => exact h.store he.1 he.2 fHashBucket io
  | purge id time io =>
    show WellFormed clock (purge E S id time io).2.buckets
    unfold purge
    split
    · exact h
    have hle := bucketTime_le he.2 (add_nonneg he.1 (by decide))
    exact (h.touch Int.dvd_self_sub_tmod hle).dropToken hle

/-- A run of regular events keeps the table well formed. -/
lemma run_wellFormed {events : List Event} (h : ∀ e ∈ events, e.Regular clock) :
    WellFormed clock (run E events).buckets := by
  refine List.foldlRecOn (motive := fun S : SmsgState => WellFormed clock S.buckets) _ _ ?_ ?_
  · exact fun t b hb => absurd hb (by simp [find])
  · exact fun S hS e he => hS.step (h e he)

/-- Whole hours from `clock - SMSG_RETENTION` to `clock + SMSG_TIME_LEEWAY`. -/
lemma card_hours_le (clock : Int) (hours : Finset Int) (h : ∀ t ∈ hours, SMSG_BUCKET_LEN ∣ t ∧
    clock - SMSG_RETENTION ≤ t ∧ t ≤ clock + SMSG_TIME_LEEWAY) :
    (hours.card : Int) ≤ (SMSG_RETENTION + SMSG_TIME_LEEWAY) / SMSG_BUCKET_LEN + 1 := by
  simp only [SMSG_BUCKET_LEN, SMSG_RETENTION, SMSG_TIME_LEEWAY] at h ⊢
  have hcard : hours.card ≤
      (Finset.Icc ((clock - 2678400 + 3599) / 3600) ((clock + 24) / 3600)).card := by
    refine Finset.card_le_card_of_injOn (fun t => t / 3600) ?_ ?_
    · intro t ht
      have := h t ht
      rw [Finset.mem_coe, Finset.mem_Icc]
      dsimp only
      omega
    · intro t ht t' ht' heq
      have := h t ht
      have := h t' ht'
      dsimp only at heq
      omega
  rw [Int.card_Icc] at hcard
  omega

/-- As long as peers name whole hours, every bucket starts on one and holds tokens of its hour, and
the buckets that are not expired are as many as fit. -/
theorem buckets_wellFormed {events : List Event} (h : ∀ e ∈ events, e.Regular clock) :
    (∀ t b, find (run E events).buckets t = some b → SMSG_BUCKET_LEN ∣ t ∧
      ∀ k d, find b.setTokens k = some d → t ≤ k.1 ∧ k.1 < t + SMSG_BUCKET_LEN) ∧
    ((((run E events).buckets.map Prod.fst).toFinset.filter
      fun t => clock - SMSG_RETENTION ≤ t).card : Int) ≤
        (SMSG_RETENTION + SMSG_TIME_LEEWAY) / SMSG_BUCKET_LEN + 1 := by
  have hrun := run_wellFormed (E := E) h
  refine ⟨fun t b hb => ⟨(hrun t b hb).1, (hrun t b hb).2.2⟩, card_hours_le clock _ ?_⟩
  intro t ht
  obtain ⟨ht, hlate⟩ := Finset.mem_filter.mp ht
  obtain ⟨x, hx, rfl⟩ := List.mem_map.mp (List.mem_toFinset.mp ht)
  obtain ⟨b, hb⟩ := Option.ne_none_iff_exists'.mp (find_ne_none hx)
  exact ⟨(hrun _ b hb).1, hlate, (hrun _ b hb).2.1⟩

def toySmsg : SmsgEnv := ⟨fun _ => 0, fun _ => 0, 86400, fun n => List.replicate n 0⟩

def hourMessage : SecureMessage := { timestamp := 3605, payload := [1, 2, 3, 4, 5, 6, 7, 8, 9] }

/-- A peer announces the bucket, and a message of its hour is stored and purged. -/
def hourEvents : List Event :=
  [.smsgInv 2678400 [(3600, 1, 0)], .store hourMessage 2678400 true {},
    .purge (getMsgID toySmsg hourMessage) 2678400 {}]

theorem buckets_wellFormed_hour :
    ∃ b, find (run toySmsg hourEvents).buckets 3600 = some b ∧
      find b.setTokens hourMessage.key = some ⟨0, 0⟩ ∧ SMSG_BUCKET_LEN ∣ 3600 ∧
        3600 ≤ hourMessage.key.1 ∧ hourMessage.key.1 < 3600 + SMSG_BUCKET_LEN := by
  have hregular : ∀ e ∈ hourEvents, e.Regular 2678400 := by
    intro e he
    simp only [hourEvents, List.mem_cons, List.not_mem_nil, or_false] at he
    rcases he with rfl | rfl | rfl
    · refine ⟨le_rfl, ?_⟩
      rintro x hx -
      obtain rfl := List.mem_singleton.mp hx
      decide
    · exact ⟨le_rfl, le_rfl⟩
    · exact ⟨by decide, by decide⟩
  obtain ⟨b, hb, htoken⟩ : ∃ b, find (run toySmsg hourEvents).buckets 3600 = some b ∧
      find b.setTokens hourMessage.key = some ⟨0, 0⟩ := ⟨_, rfl, by decide +kernel⟩
  obtain ⟨hdvd, hfits⟩ := (buckets_wellFormed (E := toySmsg) hregular).1 3600 b hb
  exact ⟨b, hb, htoken, hdvd, hfits _ _ htoken⟩

/-- A peer names a bucket one second past the hour. -/
theorem bucket_between_hours :
    ∃ b, find (run toySmsg [.smsgInv 2678400 [(3601, 1, 0)]]).buckets 3601 = some b ∧
      ¬ SMSG_BUCKET_LEN ∣ 3601 :=
  ⟨{}, by decide +kernel, by decide⟩

end BucketTable
