import BitcoinC.BucketTable

/-!
# Tokens and the messages they stand for

A token holds the place of its message in the file of its hour. Files only grow, and `Remove`
overwrites a message where it stands.
-/

namespace StoredMessages

open OrderedMaps SecureMessages BucketTable List

variable {E : SmsgEnv} {S : SmsgState} {m : SecureMessage} {now t : Int} {io : Storage}

/-- Each token leads to a message with its time stamp and sample. -/
def Leads (S : SmsgState) (tokens : List (TokenKey × TokenData)) : Prop :=
  ∀ x ∈ tokens, ∃ m, retrieve S x = some m ∧ m.key = x.1

/-- Every token leads to its message. -/
def Sound (S : SmsgState) : Prop := ∀ b ∈ S.buckets, Leads S b.2.setTokens

lemma Sound.bucket (h : Sound S) (t : Int) : Leads S (S.bucket t).setTokens := by
  unfold SmsgState.bucket bucketAt
  cases hfind : find S.buckets t with
  | none => exact fun x hx => by cases hx
  | some b => exact h _ (mem_of_find _ t b hfind)

lemma Sound.withBucket (h : Sound S) {b : SecMsgBucket} (hb : Leads S b.setTokens) :
    Sound (S.setBucket t b) := by
  intro x hx
  rcases mem_put hx with rfl | hx
  · exact hb
  · exact h x hx

lemma Sound.touched (h : Sound S) (t : Int) : Sound (SmsgState.touch S t) :=
  h.withBucket (h.bucket t)

/-- A file may change as long as each message stays where it is, up to what its key leaves out. -/
lemma Sound.withFile (h : Sound S) {file : List SecureMessage}
    (hfile : ∀ (i : Nat) (m : SecureMessage), (S.files t)[i]? = some m →
      ∃ m', file[i]? = some m' ∧ m'.key = m.key) : Sound (setFile S t file) := by
  intro b hb x hx
  obtain ⟨m, hm, hkey⟩ := h b hb x hx
  unfold retrieve at hm ⊢
  by_cases ht : bucketTime x.1.1 = t
  · rw [ht] at hm
    obtain ⟨m', hm', hkey'⟩ := hfile _ m hm
    exact ⟨m', by simpa [setFile, ht] using hm', hkey'.trans hkey⟩
  · exact ⟨m, by simpa [setFile, ht] using hm, hkey⟩

lemma Sound.checked (h : Sound S) : Sound (checkPurged E S m io).2 := by
  unfold checkPurged
  split
  · exact h
  split
  · exact h
  split
  · exact h
  · exact h

lemma Sound.unscanned (h : Sound S) : Sound (storeUnscanned E S m now io).2 := by
  unfold storeUnscanned
  dsimp only
  split_ifs
  · exact h.checked
  · exact h.checked
  · exact h.checked
  · exact h.checked

lemma Sound.added (h : Sound S) (fHashBucket : Bool) :
    Sound (addMessage E S m now fHashBucket) := by
  set file := S.files (bucketTime m.timestamp) ++ [m]
  have hgrown : Sound (setFile S (bucketTime m.timestamp) file) := h.withFile fun i m' hm' =>
    ⟨m', (getElem?_append_left (List.getElem?_eq_some_iff.mp hm').1).trans hm', rfl⟩
  have hadded : Leads (setFile S (bucketTime m.timestamp) file)
      (put tokenLt (S.bucket (bucketTime m.timestamp)).setTokens m.key
        ⟨(S.files (bucketTime m.timestamp)).length, m.nDaysToLive⟩) := by
    intro x hx
    rcases mem_put hx with rfl | hx
    · exact ⟨m, by simp [retrieve, setFile, SecureMessage.key, file], rfl⟩
    · exact hgrown.bucket (bucketTime m.timestamp) x hx
  refine hgrown.withBucket ?_
  split
  · exact hadded
  · exact hadded

lemma Sound.stored (h : Sound S) (fHashBucket : Bool) :
    Sound (store E S m now fHashBucket io).2 := by
  have hchecked : Sound (checkPurged E S m io).2 := h.checked
  have hopened := hchecked.touched (bucketTime m.timestamp)
  unfold store
  dsimp only
  split
  · exact hchecked
  split
  · exact hchecked
  split
  · exact hopened
  split
  · exact hopened
  · exact hopened.added fHashBucket

lemma Sound.received (h : Sound S) (valid unscanned : SecureMessage → Bool) (n : Nat)
    (messages : List SecureMessage) :
    Sound (receiveLoop E valid unscanned now io n messages S) := by
  fun_induction receiveLoop E valid unscanned now io n messages S with
  | case1 => exact h
  | case2 => exact h
  | case3 n m rest S hvalid ih => exact ih h
  | case4 n m rest S hvalid stored hfailed => exact h.stored false
  | case5 n m rest S hvalid stored hstored ih =>
    refine ih ?_
    split
    · exact (h.stored false).unscanned
    · exact h.stored false

lemma key_removed (m : SecureMessage) : (removed E m).key = m.key := by
  unfold SecureMessage.key removed sample SecureMessage.nPayload
  split
  · rfl
  · have hlong : 8 ≤ m.payload.length := by omega
    simp [hlong, Nat.not_lt.mpr hlong]

lemma Sound.overwritten (h : Sound S) (x : TokenKey × TokenData) : Sound (remove E S x io).1 := by
  unfold remove
  split
  · exact h
  · exact h
  rename_i m hm _
  refine h.withFile fun i m' hm' => ?_
  by_cases hi : x.2.offset = i
  · subst hi
    obtain rfl := Option.some.inj (hm.symm.trans hm')
    refine ⟨removed E m, ?_, key_removed m⟩
    exact getElem?_set_self (List.getElem?_eq_some_iff.mp hm').1
  · exact ⟨m', by rwa [getElem?_set_ne hi], rfl⟩

lemma Sound.dropped (h : Sound S) (id : MsgID) : Sound (dropToken E S id io).1 := by
  unfold dropToken
  split
  · exact h
  rename_i x hx
  have hremoved : Sound (remove E S x io).1 := h.overwritten x
  dsimp only
  split
  · exact hremoved
  have hbucket := hremoved.bucket (bucketTime id.timestamp)
  refine hremoved.withBucket fun y hy => ?_
  rcases mem_put hy with rfl | hy
  · -- the token keeps its place
    refine hbucket x ?_
    rw [SmsgState.bucket, remove_buckets]
    exact mem_of_find?_eq_some hx
  · exact hbucket y hy

lemma Sound.stepped (h : Sound S) (e : Event) : Sound (step E S e) := by
  cases e with
  | smsgInv now headers =>
    rw [step, smsgInv]
    split
    · exact h
    refine foldlRecOn (motive := Sound) _ _ h fun T hT x _ => ?_
    split
    · exact hT.touched x.1
    · exact hT
  | smsgHave now time tokens peer =>
    have htouch := h.touched time
    rw [step, smsgHave]
    split
    · exact h
    dsimp only
    split
    · exact htouch
    split
    · exact htouch
    · exact htouch.withBucket (htouch.bucket time)
  | smsgMsg valid unscanned nBunch bktTime messages now io =>
    have hloop : Sound (receiveLoop E valid unscanned now io nBunch messages S) :=
      h.received valid unscanned nBunch messages
    rw [step, receive]
    dsimp only
    split
    · exact h
    split
    · split
      · exact h
      · rename_i b hb
        exact h.withBucket (h _ (mem_of_find _ _ b hb))
    split
    · exact hloop
    · rename_i b hb
      exact hloop.withBucket (hloop _ (mem_of_find _ _ b hb))
  | store m now fHashBucket io => exact h.stored fHashBucket
  | purge id time io =>
    rw [step, purge]
    split
    · exact h
    · exact (h.touched _).dropped id

/-- A run keeps every token leading to its message. -/
lemma run_sound (events : List Event) : Sound (run E events) :=
  foldlRecOn (motive := Sound) _ _ (fun b hb => by cases hb) fun _ h e _ => h.stepped e

/-- Whatever peers send and whichever calls cannot open their file or the database, every token
leads to a message with its time stamp and sample. -/
theorem tokens_readable {events : List Event} {x : TokenKey × TokenData}
    (h : x ∈ ((run E events).bucket t).setTokens) :
    ∃ m, retrieve (run E events) x = some m ∧ m.key = x.1 :=
  (run_sound events).bucket t x h

/-- The token of a purged message, with another message of the hour behind it in the file. -/
theorem tokens_readable_purged : ∃ m, retrieve (run toySmsg (hourEvents ++
    [.store { hourMessage with timestamp := 3601 } 2678400 false {}])) (hourMessage.key, ⟨0, 0⟩) =
      some m ∧ m.key = hourMessage.key :=
  tokens_readable (t := 3600) (by decide +kernel)

end StoredMessages
