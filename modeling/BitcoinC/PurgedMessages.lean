import BitcoinC.SecureMessages

/-!
# Purged messages

`Purge` enters a message in a database, and `Store` and `StoreUnscanned` ask
`CheckPurged` before they accept one.
-/

namespace PurgedMessages

open OrderedMaps SecureMessages List

variable {id : MsgID} (S : SmsgState) (m : SecureMessage) {t₀ : Int} (now : Int) (io : Storage)

section

variable {E : SmsgEnv}
variable (fHashBucket : Bool) (valid : SecureMessage → Bool) {α : Type}
  (unscanned : SecureMessage → Bool)

lemma checkPurged_frame : (checkPurged E S m io).2.buckets = S.buckets ∧
      (checkPurged E S m io).2.purgedDb = S.purgedDb ∧
      (checkPurged E S m io).2.setPurgedTimestamps = S.setPurgedTimestamps := by
  unfold checkPurged
  split
  · exact ⟨rfl, rfl, rfl⟩
  · split
    · exact ⟨rfl, rfl, rfl⟩
    · split <;> exact ⟨rfl, rfl, rfl⟩

lemma bucket_setBucket_self (t : Int) (b : SecMsgBucket) : (S.setBucket t b).bucket t = b := by
  show (find (put timeLt S.buckets t b) t).getD {} = b
  rw [find_put_self]
  rfl

lemma store_ok_iff (io : Storage) : (store E S m now fHashBucket io).1 = .noError ↔
      (checkPurged E S m io).1 = .noError ∧ InWindow now m.timestamp ∧
        find (S.bucket (bucketTime m.timestamp)).setTokens m.key = none ∧ io.writes = true := by
  have hbuckets : (checkPurged E S m io).2.bucket (bucketTime m.timestamp) =
      S.bucket (bucketTime m.timestamp) := by
    rw [SmsgState.bucket, (checkPurged_frame S m io).1]
    rfl
  unfold store
  dsimp only
  rw [bucket_setBucket_self, hbuckets]
  by_cases hcheck : (checkPurged E S m io).1 = .noError
  · rw [if_neg (not_not.mpr hcheck)]
    by_cases hwindow : InWindow now m.timestamp
    · rw [if_neg (not_not.mpr hwindow)]
      cases hfind : find (S.bucket (bucketTime m.timestamp)).setTokens m.key <;>
        cases hio : io.writes <;> simp [hcheck, hwindow]
    · rw [if_pos hwindow]
      simp [hwindow]
  · rw [if_pos hcheck]
    simp [hcheck]

lemma storeUnscanned_ok_iff : (storeUnscanned E S m now io).1 = .noError ↔
      (checkPurged E S m io).1 = .noError ∧ InWindow now m.timestamp ∧ io.writes = true := by
  unfold storeUnscanned
  dsimp only
  by_cases hcheck : (checkPurged E S m io).1 = .noError
  · rw [if_neg (not_not.mpr hcheck)]
    by_cases hwindow : InWindow now m.timestamp
    · rw [if_neg (not_not.mpr hwindow)]
      cases hio : io.writes <;> simp [hcheck, hwindow]
    · rw [if_pos hwindow]
      simp [hwindow]
  · rw [if_pos hcheck]
    simp [hcheck]

lemma checkPurged_listed_iff {S : SmsgState} {m : SecureMessage} {p : SecMsgPurged}
    (h : find S.purgedDb (getMsgID E m) = some p) (io : Storage) :
    (checkPurged E S m io).1 = .noError ↔ m.timestamp ∈ S.setPurgedTimestamps := by
  unfold checkPurged
  by_cases hmem : m.timestamp ∈ S.setPurgedTimestamps
  · simp [hmem]
  · rw [if_neg hmem]
    cases hio : io.dbOpens <;> simp [h, hmem]

def SameRecords (S T : SmsgState) : Prop :=
  T.purgedDb = S.purgedDb ∧ T.setPurgedTimestamps = S.setPurgedTimestamps

lemma SameRecords.trans {S T U : SmsgState} (h : SameRecords S T) (h' : SameRecords T U) :
    SameRecords S U :=
  ⟨h'.1.trans h.1, h'.2.trans h.2⟩

lemma sameRecords_checkPurged : SameRecords S (checkPurged E S m io).2 :=
  (checkPurged_frame S m io).2

lemma sameRecords_storeUnscanned : SameRecords S (storeUnscanned E S m now io).2 := by
  have hcheck := sameRecords_checkPurged (E := E) S m io
  unfold storeUnscanned
  dsimp only
  split_ifs
  · exact hcheck
  · exact hcheck
  · exact hcheck
  · exact hcheck

lemma sameRecords_store (io : Storage) : SameRecords S (store E S m now fHashBucket io).2 := by
  have hcheck := sameRecords_checkPurged (E := E) S m io
  unfold store
  dsimp only
  split_ifs
  · exact hcheck
  · exact hcheck
  · exact hcheck
  · exact hcheck
  · exact hcheck

lemma sameRecords_receiveLoop (now : Int) (io : Storage) (n : Nat) (messages : List SecureMessage)
    (S : SmsgState) : SameRecords S (receiveLoop E valid unscanned now io n messages S) := by
  fun_induction receiveLoop E valid unscanned now io n messages S with
  | case1 => exact ⟨rfl, rfl⟩
  | case2 => exact ⟨rfl, rfl⟩
  | case3 n m rest S hvalid ih => exact ih
  | case4 n m rest S hvalid stored hfailed => exact sameRecords_store S m now false io
  | case5 n m rest S hvalid stored hstored ih =>
    refine SameRecords.trans (sameRecords_store (E := E) S m now false io) (SameRecords.trans ?_ ih)
    split
    · exact sameRecords_storeUnscanned _ m now io
    · exact ⟨rfl, rfl⟩

lemma sameRecords_receive (S : SmsgState) (nBunch : Nat) (bktTime : Int)
    (messages : List SecureMessage) (now : Int) (io : Storage) :
    SameRecords S (receive E valid unscanned S nBunch bktTime messages now io).2 := by
  have hloop := sameRecords_receiveLoop (E := E) valid unscanned now io nBunch messages S
  unfold receive
  dsimp only
  split
  · exact ⟨rfl, rfl⟩
  · split
    · split <;> exact ⟨rfl, rfl⟩
    · split <;> exact hloop

lemma mem_insertNew [DecidableEq α] (s : List α) (a b : α) : b ∈ insertNew s a ↔ b = a ∨ b ∈ s := by
  unfold insertNew
  split
  · rename_i hmem
    exact ⟨Or.inr, fun h => h.elim (fun heq => heq ▸ hmem) id⟩
  · exact mem_cons

lemma mem_foldl_insertNew {β : Type} [DecidableEq α] (f : β → α) (xs : List β) (s : List α)
    (b : α) : b ∈ xs.foldl (fun s x => insertNew s (f x)) s ↔ b ∈ s ∨ ∃ x ∈ xs, f x = b := by
  induction xs generalizing s with
  | nil => simp
  | cons x xs ih =>
    rw [foldl_cons, ih, mem_insertNew]
    simp only [exists_mem_cons_iff, eq_comm (a := b)]
    tauto

lemma sameRecords_dropToken (id : MsgID) (io : Storage) :
    SameRecords S (dropToken E S id io).1 := by
  have hremove : ∀ x, SameRecords S (remove E S x io).1 := by
    intro x
    unfold remove
    split <;> exact ⟨rfl, rfl⟩
  unfold dropToken
  split
  · exact ⟨rfl, rfl⟩
  · rename_i x hx
    dsimp only
    split_ifs
    · exact hremove x
    · exact hremove x

lemma purge_records (id : MsgID) (time : Int) (io : Storage)
    (h : (purge E S id time io).1 = .noError) :
    (∃ p : SecMsgPurged, p.timestamp = id.timestamp ∧ p.timepurged = time ∧
        (purge E S id time io).2.purgedDb = put (fun _ _ => false) S.purgedDb id p) ∧
      (purge E S id time io).2.setPurgedTimestamps =
        insertNew S.setPurgedTimestamps id.timestamp := by
  have hdrop := sameRecords_dropToken (E := E)
    (S.setBucket (bucketTime id.timestamp) (S.bucket (bucketTime id.timestamp))) id io
  unfold purge at h ⊢
  split at h
  · exact absurd h (by simp)
  · rename_i hio
    rw [if_neg hio]
    dsimp only
    exact ⟨⟨_, rfl, rfl, by rw [hdrop.1]; rfl⟩, by rw [hdrop.2]; rfl⟩

lemma purge_failed (id : MsgID) (time : Int) (io : Storage)
    (h : (purge E S id time io).1 ≠ .noError) : (purge E S id time io).2 = S := by
  unfold purge at h ⊢
  split
  · rfl
  · rename_i hio
    rw [if_neg hio] at h
    exact absurd rfl h

/-- Calls that change the store. -/
inductive Call
  | store (m : SecureMessage) (now : Int) (fHashBucket : Bool) (io : Storage)
  | storeUnscanned (m : SecureMessage) (now : Int) (io : Storage)
  | receive (valid unscanned : SecureMessage → Bool) (nBunch : Nat) (bktTime : Int)
      (messages : List SecureMessage) (now : Int) (io : Storage)
  | purge (id : MsgID) (time : Int) (io : Storage)
  | buildPurgedSets (time : Int) (io : Storage)
  | manage (now time : Int) (io : Storage)

variable (E) in
def step (S : SmsgState) : Call → SmsgState
  | .store m now fHashBucket io => (store E S m now fHashBucket io).2
  | .storeUnscanned m now io => (storeUnscanned E S m now io).2
  | .receive valid unscanned nBunch bktTime messages now io =>
    (receive E valid unscanned S nBunch bktTime messages now io).2
  | .purge id time io => (purge E S id time io).2
  | .buildPurgedSets time io => (buildPurgedSets E S time io).2
  | .manage now time io => manage E S now time io

variable (E) in
def run (S : SmsgState) (calls : List Call) : SmsgState := calls.foldl (step E) S

def Call.times : Call → List Int
  | .purge _ time _ => [time]
  | .buildPurgedSets time _ => [time]
  | .manage _ time _ => [time]
  | _ => []

def Call.DbOpens : Call → Prop
  | .buildPurgedSets _ io => io.dbOpens = true
  | .manage _ _ io => io.dbOpens = true
  | _ => True

/-- The message has a purge record from `t₀` on. -/
def Listed (id : MsgID) (t₀ : Int) (S : SmsgState) : Prop :=
  ∃ p, find S.purgedDb id = some p ∧ p.timestamp = id.timestamp ∧ t₀ ≤ p.timepurged

def Call.Within (E : SmsgEnv) (t₀ : Int) (c : Call) : Prop :=
  ∀ time ∈ c.times, t₀ ≤ time ∧ time ≤ t₀ + 31 * E.secondsInDay

lemma SameRecords.listed {S T : SmsgState} (h : SameRecords S T) (hS : Listed id t₀ S) :
    Listed id t₀ T := by
  obtain ⟨p, hfind, hp⟩ := hS
  exact ⟨p, by rw [h.1]; exact hfind, hp⟩

lemma listed_purge {S : SmsgState} (hS : Listed id t₀ S) (id' : MsgID) (time : Int) (io : Storage)
    (htime : t₀ ≤ time) : Listed id t₀ (purge E S id' time io).2 := by
  by_cases hok : (purge E S id' time io).1 = .noError
  · obtain ⟨⟨q, hstamp, hpurged, hdb⟩, -⟩ := purge_records S id' time io hok
    unfold Listed
    rw [hdb, find_put]
    split
    · rename_i heq
      exact ⟨q, rfl, by rw [hstamp, heq], by omega⟩
    · exact hS
  · rw [purge_failed S id' time io hok]
    exact hS

lemma listed_buildPurgedSets {S : SmsgState} (hS : Listed id t₀ S) (time : Int) (io : Storage)
    (htime : time ≤ t₀ + 31 * E.secondsInDay) : Listed id t₀ (buildPurgedSets E S time io).2 := by
  obtain ⟨p, hfind, hstamp, hp⟩ := hS
  unfold buildPurgedSets
  split_ifs
  · exact ⟨p, hfind, hstamp, hp⟩
  · refine ⟨p, find_filter _ _ _ _ hfind ?_, hstamp, hp⟩
    simp only [outdated, Bool.not_eq_true', decide_eq_false_iff_not]
    omega

lemma mem_buildPurgedSets {S : SmsgState} (hS : Listed id t₀ S) (time : Int) (io : Storage)
    (htime : time ≤ t₀ + 31 * E.secondsInDay) (hio : io.dbOpens = true) :
    id.timestamp ∈ (buildPurgedSets E S time io).2.setPurgedTimestamps := by
  obtain ⟨p, hfind, hstamp, hp⟩ := hS
  unfold buildPurgedSets
  rw [if_neg (by simp [hio])]
  show id.timestamp ∈ (filter _ _).foldl _ []
  rw [mem_foldl_insertNew (fun x : MsgID × SecMsgPurged => x.2.timestamp)]
  refine Or.inr ⟨(id, p), mem_filter.mpr ⟨mem_of_find _ _ _ hfind, ?_⟩, hstamp⟩
  simp only [outdated, Bool.not_eq_true', decide_eq_false_iff_not]
  omega

lemma listed_step {S : SmsgState} (hS : Listed id t₀ S) (c : Call) (hc : c.Within E t₀) :
    Listed id t₀ (step E S c) := by
  cases c with
  | store m now fHashBucket io => exact (sameRecords_store S m now fHashBucket io).listed hS
  | storeUnscanned m now io => exact (sameRecords_storeUnscanned S m now io).listed hS
  | receive valid unscanned nBunch bktTime messages now io =>
    exact (sameRecords_receive valid unscanned S nBunch bktTime messages now io).listed hS
  | purge id' time io => exact listed_purge hS id' time io (hc time mem_cons_self).1
  | buildPurgedSets time io =>
    exact listed_buildPurgedSets hS time io (hc time mem_cons_self).2
  | manage now time io =>
    have hmanaged : Listed id t₀ (manageBuckets E S now) := hS
    show Listed id t₀ (manage E S now time io)
    unfold manage
    dsimp only
    split
    · exact listed_buildPurgedSets hmanaged time io (hc time mem_cons_self).2
    · exact hmanaged

lemma listed_run (calls : List Call) (S : SmsgState) (hS : Listed id t₀ S)
    (hcalls : ∀ c ∈ calls, c.Within E t₀) : Listed id t₀ (run E S calls) := by
  induction calls generalizing S with
  | nil => exact hS
  | cons c calls ih =>
    rw [forall_mem_cons] at hcalls
    exact ih (step E S c) (listed_step hS c hcalls.1) hcalls.2

/-- A listed time stamp stays in the set while the database opens whenever the sets are rebuilt. -/
lemma stamped_step {S : SmsgState} (hS : Listed id t₀ S)
    (hmem : id.timestamp ∈ S.setPurgedTimestamps) (c : Call) (hc : c.Within E t₀)
    (hdb : c.DbOpens) : id.timestamp ∈ (step E S c).setPurgedTimestamps := by
  have hsame : ∀ T, SameRecords S T → id.timestamp ∈ T.setPurgedTimestamps :=
    fun T h => by rw [h.2]; exact hmem
  cases c with
  | store m now fHashBucket io => exact hsame _ (sameRecords_store S m now fHashBucket io)
  | storeUnscanned m now io => exact hsame _ (sameRecords_storeUnscanned S m now io)
  | receive valid unscanned nBunch bktTime messages now io =>
    exact hsame _ (sameRecords_receive valid unscanned S nBunch bktTime messages now io)
  | purge id' time io =>
    show id.timestamp ∈ (purge E S id' time io).2.setPurgedTimestamps
    by_cases hok : (purge E S id' time io).1 = .noError
    · rw [(purge_records S id' time io hok).2, mem_insertNew]
      exact Or.inr hmem
    · rw [purge_failed S id' time io hok]
      exact hmem
  | buildPurgedSets time io =>
    exact mem_buildPurgedSets hS time io (hc time mem_cons_self).2 hdb
  | manage now time io =>
    have hmanaged : Listed id t₀ (manageBuckets E S now) := hS
    show id.timestamp ∈ (manage E S now time io).setPurgedTimestamps
    unfold manage
    dsimp only
    split
    · exact mem_buildPurgedSets hmanaged time io (hc time mem_cons_self).2 hdb
    · exact hmem

lemma stamped_run (calls : List Call) (S : SmsgState) (hS : Listed id t₀ S)
    (hmem : id.timestamp ∈ S.setPurgedTimestamps) (hcalls : ∀ c ∈ calls, c.Within E t₀)
    (hdb : ∀ c ∈ calls, c.DbOpens) : id.timestamp ∈ (run E S calls).setPurgedTimestamps := by
  induction calls generalizing S with
  | nil => exact hmem
  | cons c calls ih =>
    rw [forall_mem_cons] at hcalls hdb
    exact ih (step E S c) (listed_step hS c hcalls.1) (stamped_step hS hmem c hcalls.1 hdb.1)
      hcalls.2 hdb.2

lemma listed_after_purge {S : SmsgState} {io : Storage} (h : (purge E S id t₀ io).1 = .noError) :
    Listed id t₀ (purge E S id t₀ io).2 ∧
      id.timestamp ∈ (purge E S id t₀ io).2.setPurgedTimestamps := by
  obtain ⟨⟨p, hstamp, hpurged, hdb⟩, hset⟩ := purge_records S id t₀ io h
  refine ⟨⟨p, by rw [hdb, find_put_self], hstamp, by omega⟩, ?_⟩
  rw [hset, mem_insertNew]
  exact Or.inl rfl

end

/-- After a purge and within its retention, a message with that id is accepted by `Store` exactly
when its time stamp is in the set of purged time stamps, its time is in the window and its token is
not in its bucket, and by `StoreUnscanned` without the last condition; and the time stamp is in the
set as long as the database could be opened when the sets were rebuilt. -/
theorem purged_accepted_iff (E : SmsgEnv) (S : SmsgState) (id : MsgID) (t₀ : Int) (io₀ : Storage)
    (hpurge : (purge E S id t₀ io₀).1 = .noError) (calls : List Call)
    (hcalls : ∀ c ∈ calls, c.Within E t₀) (m : SecureMessage) (hid : getMsgID E m = id) (now : Int)
    (fHashBucket : Bool) (io : Storage) :
    ((store E (run E (purge E S id t₀ io₀).2 calls) m now fHashBucket io).1 = .noError ↔
      m.timestamp ∈ (run E (purge E S id t₀ io₀).2 calls).setPurgedTimestamps ∧
        InWindow now m.timestamp ∧
        find ((run E (purge E S id t₀ io₀).2 calls).bucket (bucketTime m.timestamp)).setTokens
          m.key = none ∧ io.writes = true) ∧
    ((storeUnscanned E (run E (purge E S id t₀ io₀).2 calls) m now io).1 = .noError ↔
      m.timestamp ∈ (run E (purge E S id t₀ io₀).2 calls).setPurgedTimestamps ∧
        InWindow now m.timestamp ∧ io.writes = true) ∧
    ((∀ c ∈ calls, c.DbOpens) →
      m.timestamp ∈ (run E (purge E S id t₀ io₀).2 calls).setPurgedTimestamps) := by
  subst hid
  obtain ⟨hlisted, hstamped⟩ := listed_after_purge hpurge
  obtain ⟨p, hfind, -⟩ := listed_run calls _ hlisted hcalls
  refine ⟨?_, ?_, ?_⟩
  · rw [store_ok_iff, checkPurged_listed_iff hfind]
  · rw [storeUnscanned_ok_iff, checkPurged_listed_iff hfind]
  · exact stamped_run calls _ hlisted hstamped hcalls

def toySmsg : SmsgEnv where
  ripemd160 bs := BitVec.ofNat 160 (bs.foldl (fun h b => h * 257 + b.toNat + 1) 0)
  xxh32 bs := UInt32.ofNat (bs.foldl (fun h b => h * 257 + b.toNat + 1) 0)
  secondsInDay := 86400
  stackBytes n := replicate n 0

def toyMessage : SecureMessage := { timestamp := 3600, payload := [1, 2, 3, 4, 5, 6, 7, 8, 9] }

def arrived : SmsgState := (store toySmsg {} toyMessage 4000 true {}).2

theorem purged_accepted_iff_toy :
    (store toySmsg (run toySmsg (purge toySmsg arrived (getMsgID toySmsg toyMessage) 4000 {}).2
      [.manage 176401 176401 {}]) toyMessage 176401 true {}).1 = .noError :=
  (purged_accepted_iff toySmsg arrived (getMsgID toySmsg toyMessage) 4000 {} rfl
    [.manage 176401 176401 {}] (by simp [Call.Within, Call.times, toySmsg]) toyMessage
    rfl 176401 true {}).1.mpr ⟨by decide +kernel, by decide, by decide +kernel, rfl⟩

/-- The message is purged right after it arrived. It can be put aside for the wallet at once, and
two days later, when the thread has erased its bucket, `Store` accepts it. -/
theorem purged_message_returns :
    let S := (purge toySmsg arrived (getMsgID toySmsg toyMessage) 4000 {}).2
    (purge toySmsg arrived (getMsgID toySmsg toyMessage) 4000 {}).1 = .noError ∧
      (storeUnscanned toySmsg S toyMessage 4000 {}).1 = .noError ∧
      (store toySmsg S toyMessage 4000 true {}).1 = .generalError ∧
      (store toySmsg (run toySmsg S [.manage 176401 176401 {}]) toyMessage 176401 true {}).1 =
        .noError := by
  decide +kernel

end PurgedMessages
