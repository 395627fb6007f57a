import PqSuite.Protocol.Messages
import PqSuite.Server.Files
import PqSuite.Server.Keyrings
import PqSuite.Server.Mailboxes
import PqSuite.Server.Prekeys

/-!
# Sessions of the relay (`relay_service.cpp`)

What a connection's next message does to the relay, with the requests that concern archives. A handler
is split where the source makes a second call to the store or the files folder: what is left to do is
kept as the session's `pending` work, so other sessions can run in between.
-/

namespace PqSuite.Relay

/-! ## Rate limiting -/

/-- `++` on an `int`: after the greatest value comes the least. -/
def increment (n : Int) : Int := (n + 1).bmod (2 ^ 32)

structure Window where
  start : Time := 0
  /-- The calls in the window, as an `int`. -/
  count : Int := 0

/-- A fixed one-minute window counter per key; a key never seen has the default window. -/
structure RateLimiter where
  windows : Bytes → Window

def RateLimiter.allow (r : RateLimiter) (key : Bytes) (limit : Int) (now : Time) :
    Bool × RateLimiter :=
  let w := r.windows key
  let w := if now - w.start ≥ 60 then ⟨now, 0⟩ else w
  let w := { w with count := increment w.count }
  (w.count ≤ limit, ⟨fun k => if k = key then w else r.windows k⟩)

def RateLimiter.prune (r : RateLimiter) (now : Time) : RateLimiter :=
  ⟨fun k => if now - (r.windows k).start ≥ 300 then {} else r.windows k⟩

/-! ## Service and sessions -/

structure RelayLimits where
  mailboxQuotaBytes : Nat := 64 * 1024 * 1024
  maxMailboxes : Nat := 1000
  maxTokensPerMailbox : Nat := 1024
  rateLimitPerMinute : Int := 120
  inviteLifetimeSeconds : Int := 14 * 24 * 3600
  memberInvitesOutstanding : Nat := 3
  memberInvitesTotal : Nat := 10
  maxArchives : Nat := 1000
  archiveQuotaBytes : Nat := 512 * 1024 * 1024
  archiveJoinWindowSeconds : Int := 30 * 24 * 3600
  keyringMaxBytes : Nat := 4 * 1024 * 1024
  maxPrekeys : Nat := 200
  prekeyTakesPerHour : Nat := 60
  maxAttachmentBytes : Nat := 1024 * 1024 * 1024
  attachmentQuotaBytes : Nat := 4096 * 1024 * 1024
  attachmentMaxSeconds : Int := 30 * 24 * 3600
  abandonedUploadSeconds : Int := 3600

/-- What every session of one relay shares besides the store: its limits, its identity and the
cryptography it is linked with. -/
structure Service where
  sha256 : Bytes → Digest
  verify : Bytes → Bytes → Bytes → Bool
  sigPublicKeySize : Nat
  relayId : Bytes
  limits : RelayLimits

/-- What a session still has to do with the store or the files folder for the message it is handling.
A time in it is the one the message arrived at. -/
inductive Pending where
  | agreement (archiveId : Bytes) (m : ArchiveDelete)
  | deleteArchive (archiveId : Bytes)
  | redactEntries (archiveId : Bytes) (entryHashes : List Digest)
  | fetchEnd (archiveId : Bytes)
  | deposit (m : Deposit) (tokenHash : Digest) (now : Time)
  /-- A push round with what is left of the batch it last looked up. -/
  | push (collect : Bool) (batch : List EnvelopeRow)
  | inviteList (mailbox : Bytes) (unused : List InviteRow)
  | prekeyPutOk (mailbox : Bytes)
  | takePrekey (mailboxId : Bytes) (tokenHash : Digest) (now : Time)
  | beginFile (mailbox : Bytes) (m : FileBegin) (now : Time)
  | openPart (m : FileBegin) (number : Nat)
  | renameFile (index : UInt32)
  | finishFile (index : UInt32)
  | sendFile (m : FileDownload)
  | remove (ending : FileEnding) (fileId : Bytes) (next : Pending)
  /-- `delete_file` without an owner. -/
  | dropFile (fileId : Bytes) (next : Pending)
  | reply (msg : WireMessage)
  | hangUp (replies : List WireMessage)

/-- A file arriving on a connection, with the temporary file it is written to and how much of that is
written. `number` is history: which upload it is. -/
structure Upload where
  id : Bytes
  count : Nat
  next : Nat
  chunkSize : Nat
  total : Nat
  file : Nat
  written : Nat
  number : Nat

structure Session where
  peerIp : Bytes
  challenge : Bytes
  challengeUsed : Bool := false
  mailbox : Option Bytes := none
  archiveSession : Option (Bytes × Digest) := none
  pending : Option Pending := none
  collecting : Bool := false
  lastSeq : Nat := 0
  upload : Option Upload := none
  keyringUpload : KeyringUpload := {}
  /-- What the next request that draws random bytes gets. -/
  random : Bytes := []
  /-- History: the key it signed in with. -/
  key : Option Bytes := none
  /-- History: what was pushed since the last collect request. -/
  pushed : List EnvelopeRow := []

/-- An append the relay acknowledged: to which archive, what its sender named as the head, what it
sent and the head it was told. -/
structure Ack where
  archiveId : Bytes
  expected : ArchiveHead
  ciphertext : Bytes
  head : ArchiveHead

/-- What handling a message does. `session = none` closes the connection. The last fields record
history: the entry hash inputs that were hashed, the append that was acknowledged and the envelope
that was stored. -/
structure Outcome where
  store : RelayStore
  rate : RateLimiter
  session : Option Session
  replies : List WireMessage
  hashed : List Bytes := []
  acked : Option Ack := none
  deposited : Option EnvelopeRow := none

section

variable (st : RelayStore) (rate : RateLimiter) (ss : Session)

def refuse (text : String) : Outcome :=
  { store := st, rate := rate, session := some ss, replies := [⟨.errorMsg, ascii text⟩] }

def close (text : String) : Outcome :=
  { store := st, rate := rate, session := none, replies := [⟨.errorMsg, ascii text⟩] }

end

def archiveRateKey (archiveId : Bytes) : Bytes := ascii "archive:" ++ bytesToHex archiveId

section

variable (svc : Service) (now : Time) (ss : Session) (payload : Bytes) (st : RelayStore)
  (rate : RateLimiter)

def handleAuth : Outcome :=
  match decodeAuth payload with
  | none => close st rate "Malformed auth request"
  | some m =>
    if ss.challengeUsed then close st rate "Reconnect to authenticate again"
    else
      match st.accessKey m.mailboxId with
      | none => close st rate "Authentication failed"
      | some key =>
        if !svc.verify (authSigningInput ss.challenge svc.relayId m.mailboxId) m.signature key then
          close st rate "Authentication failed"
        else
          { store := st, rate := rate,
            session := some
              { ss with challengeUsed := true, mailbox := some m.mailboxId, key := some key }
            replies := [⟨.relayAuthOk, []⟩] }

def handleArchiveCreate : Outcome :=
  match ss.mailbox with
  | none => refuse st rate ss "Sign in first"
  | some mailbox =>
    match decodeArchiveCreate payload with
    | none => close st rate "Malformed archive request"
    | some m =>
      let (allowed, rate) := rate.allow (ascii "archive-create:" ++ bytesToHex mailbox) 10 now
      if !allowed then refuse st rate ss "Too many requests, try again later"
      else
        match st.createArchive m.archiveId m.joinTokenHashes
            (svc.sha256 (archiveGenesisInput m.archiveId)) now
            (now + svc.limits.archiveJoinWindowSeconds) svc.limits.maxArchives with
        | (.ok, st) =>
          { store := st, rate := rate, session := some ss, replies := [⟨.archiveCreateOk, []⟩] }
        | (.exists, st) => refuse st rate ss "That archive already exists"
        | (.limitReached, st) => refuse st rate ss "This relay can't hold more archives"

def handleArchiveJoin : Outcome :=
  match decodeArchiveJoin payload with
  | none => close st rate "Malformed archive request"
  | some m =>
    let (allowed, rate) := rate.allow (ascii "archive-join:" ++ ss.peerIp) 30 now
    if !allowed then refuse st rate ss "Too many attempts, try again later"
    else if m.publicKey.length ≠ svc.sigPublicKeySize then refuse st rate ss "Invalid key"
    else
      let tokenHash := svc.sha256 m.joinToken
      if !svc.verify (archiveJoinSigningInput svc.relayId m.archiveId m.publicKey tokenHash.1)
          m.signature m.publicKey then
        refuse st rate ss "Invalid proof of key ownership"
      else
        match st.joinArchive m.archiveId tokenHash (svc.sha256 m.publicKey) m.publicKey now with
        | (.ok, st) =>
          { store := st, rate := rate, session := some ss, replies := [⟨.archiveJoinOk, []⟩] }
        | (.noSuchArchive, st) => refuse st rate ss "Unknown archive or join token"
        | (.badToken, st) => refuse st rate ss "Unknown archive or join token"
        | (.closed, st) => refuse st rate ss "Registration for this archive is closed"
        | (.keyExists, st) => refuse st rate ss "That key is already registered"

def handleArchiveAuth : Outcome :=
  match decodeArchiveAuth payload with
  | none => close st rate "Malformed archive request"
  | some m =>
    if ss.challengeUsed then close st rate "Reconnect to authenticate again"
    else
      match st.archiveMemberKey m.archiveId m.keyHash with
      | none => close st rate "Authentication failed"
      | some key =>
        if !svc.verify (archiveAuthSigningInput ss.challenge svc.relayId m.archiveId m.keyHash.1)
            m.signature key then
          close st rate "Authentication failed"
        else
          { store := st, rate := rate,
            session := some
              { ss with
                challengeUsed := true, archiveSession := some (m.archiveId, m.keyHash)
                key := some key }
            replies := [⟨.archiveAuthOk, []⟩] }

/-- The relay computes the chain itself, from the head the sender named. -/
def handleArchiveAppend : Outcome :=
  match ss.archiveSession with
  | none => refuse st rate ss "Sign in to an archive first"
  | some (archiveId, _) =>
    match decodeArchiveAppend payload with
    | none => close st rate "Malformed archive request"
    | some m =>
      if m.expectedNumber = 18446744073709551615 then close st rate "Malformed archive request"
      else
        let (allowed, rate) := rate.allow (archiveRateKey archiveId) svc.limits.rateLimitPerMinute now
        if !allowed then refuse st rate ss "Too many requests, slow down"
        else
          let input :=
            archiveEntryHashInput archiveId (m.expectedNumber + 1) m.expectedHash m.ciphertext
          match st.appendEntry archiveId m.expectedNumber m.expectedHash (svc.sha256 input)
              m.ciphertext now svc.limits.archiveQuotaBytes with
          | (.ok head, st) =>
            { store := st, rate := rate, session := some ss
              replies := [⟨.archiveAppendOk, encodeArchiveHead head⟩]
              hashed := [input]
              acked := some ⟨archiveId, ⟨m.expectedNumber, m.expectedHash⟩, m.ciphertext, head⟩ }
          | (.stale head, st) =>
            { store := st, rate := rate, session := some ss
              replies := [⟨.archiveStale, encodeArchiveHead head⟩], hashed := [input] }
          | (.archiveFull, st) =>
            { refuse st rate ss "This archive is full" with hashed := [input] }
          | (.noSuchArchive, st) =>
            { refuse st rate ss "Unknown archive" with hashed := [input] }
          -- the exception ends the session's thread
          | (.failed, st) =>
            { store := st, rate := rate, session := none, replies := [], hashed := [input] }

/-- The first registered key without a valid signature decides what is wrong with a deletion order:
`none` if each has one, `some true` if one is missing, `some false` if one does not verify. -/
def missingAgreement (signedInput : Bytes) (signatures : List ArchiveSignature) :
    List ArchiveKeyRow → Option Bool
  | [] => none
  | key :: keys =>
    match signatures.find? (·.keyHash = key.keyHash) with
    | none => some true
    | some mine =>
      if !svc.verify signedInput mine.signature key.publicKey then some false
      else missingAgreement signedInput signatures keys

def handleArchiveDelete : Outcome :=
  match ss.archiveSession with
  | none => refuse st rate ss "Sign in to an archive first"
  | some (archiveId, _) =>
    match decodeArchiveDelete payload with
    | none => close st rate "Malformed archive request"
    | some m =>
      let (allowed, rate) := rate.allow (archiveRateKey archiveId) svc.limits.rateLimitPerMinute now
      if !allowed then refuse st rate ss "Too many requests, slow down"
      else if m.expiresAt < UInt64.ofInt now then refuse st rate ss "That deletion order has expired"
      else
        match st.archiveInfo archiveId now with
        | none => refuse st rate ss "Unknown archive"
        | some info =>
          if info.registrationOpen then
            refuse st rate ss
              "Not everyone has joined this chat's archive yet, so it can't be deleted"
          else
            { store := st, rate := rate, session := some { ss with pending := some (.agreement archiveId m) }
              replies := [] }

def handleArchiveFetch : Outcome :=
  match ss.archiveSession with
  | none => refuse st rate ss "Sign in to an archive first"
  | some (archiveId, _) =>
    match decodeArchiveFetch payload with
    | none => close st rate "Malformed archive request"
    | some m =>
      let (allowed, rate) := rate.allow (archiveRateKey archiveId) svc.limits.rateLimitPerMinute now
      if !allowed then refuse st rate ss "Too many requests, slow down"
      else
        { store := st, rate := rate
          session := some { ss with pending := some (.fetchEnd archiveId) }
          replies := (st.fetchEntries archiveId m.fromNumber m.limit.toNat).map fun e =>
            ⟨.archiveEntry, encodeArchiveEntry e.number e.hash e.ciphertext e.redacted⟩ }

end

end PqSuite.Relay
