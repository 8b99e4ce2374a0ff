import BitcoinC.Encoding
import BitcoinC.OrderedMaps

/-!
# The store of secure messages

`smsg/smessage.cpp`: messages are kept in files, one for every hour, and their
tokens in buckets.
-/

namespace SecureMessages

open Primitives Encoding OrderedMaps

inductive Code
  | noError
  | generalError
  | purgedMsg
  deriving DecidableEq

def SMSG_BUCKET_LEN : Int := 60 * 60
def SMSG_RETENTION : Int := 86400 * 31
def SMSG_TIME_LEEWAY : Int := 24

structure SecureMessage where
  hash : Bytes := [0, 0, 0, 0]
  version : UInt8 × UInt8 := (2, 1)
  flags : UInt8 := 0
  timestamp : Int
  iv : Bytes := []
  cpkR : Bytes := []
  mac : Bytes := []
  nonce : Bytes := [0, 0, 0, 0]
  payload : Bytes
  deriving DecidableEq

namespace SecureMessage

def nPayload (m : SecureMessage) : Nat := m.payload.length

def isPaidVersion (m : SecureMessage) : Bool := m.version.1 = 3

def nonce0 (m : SecureMessage) : UInt8 := m.nonce.headD 0

def header (m : SecureMessage) : Bytes :=
  m.hash ++ [m.version.1, m.version.2, m.flags] ++ amountBytes m.timestamp ++ m.iv ++
    m.cpkR ++ m.mac ++ m.nonce ++ leBytes 4 m.nPayload

def nDaysToLive (m : SecureMessage) : UInt8 := if m.version.1 < 3 then 2 else m.nonce0

end SecureMessage

structure MsgID where
  timestamp : Int
  hash : Uint160
  deriving DecidableEq

/-- What tokens are ordered by: the time stamp, then the first bytes of the payload. -/
abbrev TokenKey := Int × Bytes

structure TokenData where
  offset : Nat
  ttl : UInt8
  deriving DecidableEq

def tokenLt (x y : TokenKey) : Bool := x.1 < y.1 || (x.1 = y.1 && decide (x.2 < y.2))

def timeLt (x y : Int) : Bool := x < y

structure SecMsgBucket where
  timeChanged : Int := 0
  hash : UInt32 := 0
  nLockCount : Nat := 0
  nLeastTTL : UInt8 := 0
  nActive : Nat := 0
  nLockPeerId : Nat := 0
  setTokens : List (TokenKey × TokenData) := []
  deriving DecidableEq

structure SecMsgPurged where
  timestamp : Int
  sample : Bytes
  timepurged : Int
  deriving DecidableEq

structure SmsgState where
  buckets : List (Int × SecMsgBucket) := []
  files : Int → List SecureMessage := fun _ => []
  /-- The files of messages that wait for the wallet to be unlocked. -/
  walletFiles : Int → List SecureMessage := fun _ => []
  purgedDb : List (MsgID × SecMsgPurged) := []
  setPurged : List TokenKey := []
  setPurgedTimestamps : List Int := []
  nLastProcessedPurged : Int := 0

/-- The hash functions, the length of a day, and what `fwrite(&z, 1, n)` writes from a one-byte
variable. -/
structure SmsgEnv where
  ripemd160 : Bytes → Uint160
  xxh32 : Bytes → UInt32
  secondsInDay : Int
  stackBytes : Nat → Bytes

/-- Whether the database of a call can be opened, and whether its file can: a call writes all it
has to write, or nothing. -/
structure Storage where
  dbOpens : Bool := true
  writes : Bool := true
  deriving DecidableEq

def sample (payload : Bytes) : Bytes :=
  if payload.length < 8 then List.replicate 8 0 else payload.take 8

def SecureMessage.key (m : SecureMessage) : TokenKey := (m.timestamp, sample m.payload)

def bucketTime (timestamp : Int) : Int := timestamp - timestamp.tmod SMSG_BUCKET_LEN

def bucketAt (buckets : List (Int × SecMsgBucket)) (time : Int) : SecMsgBucket :=
  (find buckets time).getD {}

def SmsgState.bucket (S : SmsgState) (time : Int) : SecMsgBucket := bucketAt S.buckets time

def SmsgState.setBucket (S : SmsgState) (time : Int) (b : SecMsgBucket) : SmsgState :=
  { S with buckets := put timeLt S.buckets time b }

section

variable (E : SmsgEnv)

/-- `GetMsgID`. The funding transaction at the end of a paid message is not hashed; where the
payload is too short for one nothing is, and the hash stays null. -/
def getMsgID (m : SecureMessage) : MsgID :=
  { timestamp := m.timestamp
    hash :=
      if m.isPaidVersion = false then E.ripemd160 (m.header ++ m.payload)
      else if m.nPayload < 32 then 0
      else E.ripemd160 (m.header ++ m.payload.take (m.nPayload - 32)) }

def expired (now : Int) (x : TokenKey × TokenData) : Bool :=
  x.1.1 + x.2.ttl.toNat * E.secondsInDay < now

def activeTokens (now : Int) (b : SecMsgBucket) : List (TokenKey × TokenData) :=
  b.setTokens.filter fun x => !expired E now x

def leastTTL (least : UInt8) (x : TokenKey × TokenData) : UInt8 :=
  if 0 < x.2.ttl ∧ (least = 0 ∨ x.2.ttl < least) then x.2.ttl else least

def hashBucket (now : Int) (b : SecMsgBucket) : SecMsgBucket :=
  let active := activeTokens E now b
  let hash_new := E.xxh32 (active.flatMap fun x => x.1.2)
  { b with
    nActive := active.length
    nLeastTTL := active.foldl leastTTL 0
    hash := hash_new
    timeChanged := if b.hash ≠ hash_new then now else b.timeChanged }

def retrieve (S : SmsgState) (x : TokenKey × TokenData) : Option SecureMessage :=
  (S.files (bucketTime x.1.1))[x.2.offset]?

/-- What is left of a message in its file. Two bytes of the version and the payload from its ninth
byte on are overwritten from the stack; only the first of these bytes is known to be zero. -/
def removed (m : SecureMessage) : SecureMessage :=
  { m with
    version := (0, (E.stackBytes 2).getD 1 0)
    payload := if m.nPayload ≤ 8 then m.payload
      else m.payload.take 8 ++ E.stackBytes (m.nPayload - 8) }

def setFile (S : SmsgState) (time : Int) (file : List SecureMessage) : SmsgState :=
  { S with files := fun t => if t = time then file else S.files t }

/-- `Remove`: the state and whether it succeeded. A payload of at most eight bytes makes it fail
after the version has been overwritten. -/
def remove (S : SmsgState) (x : TokenKey × TokenData) (io : Storage) : SmsgState × Bool :=
  match retrieve S x, io.writes with
  | none, _ => (S, false)
  | some _, false => (S, false)
  | some m, true =>
    (setFile S (bucketTime x.1.1) ((S.files (bucketTime x.1.1)).set x.2.offset (removed E m)),
      8 < m.nPayload)

def insertNew {α : Type} [DecidableEq α] (s : List α) (a : α) : List α :=
  if a ∈ s then s else a :: s

def checkPurged (S : SmsgState) (m : SecureMessage) (io : Storage) : Code × SmsgState :=
  if m.timestamp ∈ S.setPurgedTimestamps then (.noError, S)
  else if io.dbOpens = false then (.generalError, S)
  else match find S.purgedDb (getMsgID E m) with
    | some purged =>
      (.purgedMsg, { S with setPurged := insertNew S.setPurged (purged.timestamp,
        m.payload.take 8) })
    | none => (.noError, S)

def InWindow (now timestamp : Int) : Prop :=
  timestamp ≤ now + SMSG_TIME_LEEWAY ∧ now - SMSG_RETENTION ≤ timestamp

instance (now timestamp : Int) : Decidable (InWindow now timestamp) :=
  inferInstanceAs (Decidable (_ ∧ _))

def storeUnscanned (S : SmsgState) (m : SecureMessage) (now : Int) (io : Storage) :
    Code × SmsgState :=
  let checked := checkPurged E S m io
  if checked.1 ≠ .noError then (.purgedMsg, checked.2)
  else if ¬ InWindow now m.timestamp then (.generalError, checked.2)
  else if io.writes = false then (.generalError, checked.2)
  else
    let t := bucketTime m.timestamp
    (.noError, { checked.2 with walletFiles := fun t' =>
      if t' = t then checked.2.walletFiles t ++ [m] else checked.2.walletFiles t' })

def addMessage (S : SmsgState) (m : SecureMessage) (now : Int) (fHashBucket : Bool) : SmsgState :=
  let t := bucketTime m.timestamp
  let bucket := S.bucket t
  let token : TokenKey × TokenData := (m.key, ⟨(S.files t).length, m.nDaysToLive⟩)
  let added := { bucket with
    setTokens := put tokenLt bucket.setTokens token.1 token.2
    nLeastTTL := leastTTL bucket.nLeastTTL token }
  (setFile S t (S.files t ++ [m])).setBucket t (if fHashBucket then hashBucket E now added
    else added)

def store (S : SmsgState) (m : SecureMessage) (now : Int) (fHashBucket : Bool) (io : Storage) :
    Code × SmsgState :=
  let checked := checkPurged E S m io
  if checked.1 ≠ .noError then (.purgedMsg, checked.2)
  else if ¬ InWindow now m.timestamp then (.generalError, checked.2)
  else
    let t := bucketTime m.timestamp
    let opened := checked.2.setBucket t (checked.2.bucket t)
    if (find (opened.bucket t).setTokens m.key).isSome then (.generalError, opened)
    else if io.writes = false then (.generalError, opened)
    else (.noError, addMessage E opened m now fHashBucket)

/-- The token of a message id: the first one of that time whose message is in its file and has
that id. -/
def tokenOf (S : SmsgState) (id : MsgID) : Option (TokenKey × TokenData) :=
  (S.bucket (bucketTime id.timestamp)).setTokens.find? fun x =>
    x.1.1 = id.timestamp && (retrieve S x).any fun m => getMsgID E m = id

/-- The loop of `Purge` over the tokens: the message is removed from its file, and its token stays
in the bucket without days to live. The bytes are the sample for the database. -/
def dropToken (S : SmsgState) (id : MsgID) (io : Storage) : SmsgState × Bytes :=
  match tokenOf E S id with
  | none => (S, List.replicate 8 0)
  | some x =>
    let after := remove E S x io
    let t := bucketTime id.timestamp
    if after.2 = false then (after.1, List.replicate 8 0)
    else (after.1.setBucket t { after.1.bucket t with
      setTokens := put tokenLt (after.1.bucket t).setTokens x.1 { x.2 with ttl := 0 } }, x.1.2)

def purge (S : SmsgState) (id : MsgID) (time : Int) (io : Storage) : Code × SmsgState :=
  if io.dbOpens = false then (.generalError, S)
  else
    let t := bucketTime id.timestamp
    let dropped := dropToken E (S.setBucket t (S.bucket t)) id io
    let purged : SecMsgPurged := ⟨id.timestamp, dropped.2, time⟩
    (.noError, { dropped.1 with
      purgedDb := put (fun _ _ => false) dropped.1.purgedDb id purged
      setPurged := insertNew dropped.1.setPurged (purged.timestamp, purged.sample)
      setPurgedTimestamps := insertNew dropped.1.setPurgedTimestamps purged.timestamp })

def outdated (time : Int) (x : MsgID × SecMsgPurged) : Bool :=
  x.2.timepurged + 31 * E.secondsInDay < time

def buildPurgedSets (S : SmsgState) (time : Int) (io : Storage) : Code × SmsgState :=
  if io.dbOpens = false then (.generalError, { S with setPurged := [], setPurgedTimestamps := [] })
  else
    let kept := S.purgedDb.filter fun x => !outdated E time x
    (.noError, { S with
      purgedDb := kept
      setPurged := kept.foldl (fun s x => insertNew s (x.2.timestamp, x.2.sample)) []
      setPurgedTimestamps := kept.foldl (fun s x => insertNew s x.2.timestamp) []
      nLastProcessedPurged := time })

/-- The loop of `Receive` over the messages of a bunch: `valid` is the verdict of `Validate`,
`unscanned` whether `ScanMessage` puts a message aside for a locked wallet. A message that is not
valid is looked at again in the next round. -/
def receiveLoop (valid unscanned : SecureMessage → Bool) (now : Int) (io : Storage) :
    Nat → List SecureMessage → SmsgState → SmsgState
  | 0, _, S => S
  | _ + 1, [], S => S
  | n + 1, m :: rest, S =>
    if valid m = false then receiveLoop valid unscanned now io n (m :: rest) S
    else
      let stored := store E S m now false io
      if stored.1 ≠ .noError then stored.2
      else
        receiveLoop valid unscanned now io n rest
          (if unscanned m then (storeUnscanned E stored.2 m now io).2 else stored.2)

def receive (valid unscanned : SecureMessage → Bool) (S : SmsgState) (nBunch : Nat) (bktTime : Int)
    (messages : List SecureMessage) (now : Int) (io : Storage) : Code × SmsgState :=
  if ¬ InWindow now bktTime then (.generalError, S)
  else if nBunch = 0 ∨ 500 < nBunch then
    (.generalError, match find S.buckets bktTime with
      | none => S
      | some b => S.setBucket bktTime { b with nLockCount := 0 })
  else
    let T := receiveLoop E valid unscanned now io nBunch messages S
    match find T.buckets bktTime with
    | none => (.generalError, T)
    | some b =>
      (.noError, T.setBucket bktTime (hashBucket E now
        { b with nLockCount := 0, nLockPeerId := 0 }))

def manageBucket (now : Int) (x : Int × SecMsgBucket) : Option (Int × SecMsgBucket) :=
  let stale := x.1 + x.2.nLeastTTL.toNat * E.secondsInDay < now
  let b := if stale then hashBucket E now x.2 else x.2
  if x.1 < now - SMSG_RETENTION ∨ (stale ∧ b.nActive < 1) then none
  else some (x.1, { b with
    nLockCount := b.nLockCount - 1
    nLockPeerId := if b.nLockCount = 1 then 0 else b.nLockPeerId })

/-- The loop of the thread: old and empty buckets are erased with their files, locks tick down. -/
def manageBuckets (S : SmsgState) (now : Int) : SmsgState :=
  let gone := (S.buckets.filter fun x => (manageBucket E now x).isNone).map Prod.fst
  { S with
    buckets := S.buckets.filterMap (manageBucket E now)
    files := fun t => if t ∈ gone then [] else S.files t
    walletFiles := fun t => if t ∈ gone then [] else S.walletFiles t }

def manage (S : SmsgState) (now time : Int) (io : Storage) : SmsgState :=
  let T := manageBuckets E S now
  if T.nLastProcessedPurged + E.secondsInDay < now then (buildPurgedSets E T time io).2 else T

end

end SecureMessages
