import PqSuite.Server.Service

/-!
# The requests of a session (`relay_service.cpp`)

What concerns mailboxes and attachments, and the switch over all requests. The checks that many
requests begin with are functions of what is done when they pass.
-/

namespace PqSuite.Relay

/-! ## Checks and answers -/

section

variable (st : RelayStore) (rate : RateLimiter) (ss : Session)

def needsMailbox (k : Bytes → Outcome) : Outcome :=
  match ss.mailbox with
  | none => refuse st rate ss "Sign in first"
  | some mailbox => k mailbox

def decoded {α : Type} (m : Option α) (text : String) (k : α → Outcome) : Outcome :=
  match m with
  | none => close st rate text
  | some m => k m

def limited (now : Time) (key : Bytes) (limit : Int) (text : String) (k : RateLimiter → Outcome) :
    Outcome :=
  if (rate.allow key limit now).1 then k (rate.allow key limit now).2
  else refuse st (rate.allow key limit now).2 ss text

def answer (msg : WireMessage) : Outcome :=
  { store := st, rate := rate, session := some ss, replies := [msg] }

/-- Goes on to the next call to the store or the files folder. -/
def later (work : Pending) : Outcome :=
  { store := st, rate := rate, session := some { ss with pending := some work }, replies := [] }

/-- An exception of the database ends the session's thread. -/
def fail : Outcome := { store := st, rate := rate, session := none, replies := [] }

end

def errorReply (text : String) : WireMessage := ⟨.errorMsg, ascii text⟩

/-- What `abort_upload` does when an upload is active. -/
def abortUpload (u : Upload) (next : Pending) : Pending := .remove .part u.id (.dropFile u.id next)

/-- A connection that ends with an upload active leaves nothing behind. -/
def Session.leave (ss : Session) : Option Session :=
  ss.upload.map fun u => { ss with pending := some (abortUpload u (.hangUp [])) }

section

variable (svc : Service) (now : Time) (ss : Session) (payload : Bytes) (st : RelayStore)
  (rate : RateLimiter)

/-! ## Mailboxes -/

def handleRegister : Outcome :=
  decoded st rate (decodeRegister payload) "Malformed register request" fun m =>
  limited st rate ss now (ascii "reg:" ++ ss.peerIp) 10 "Too many attempts, try again later"
    fun rate =>
  if m.accessPublicKey.length ≠ svc.sigPublicKeySize then refuse st rate ss "Invalid access key"
  else if !svc.verify
      (registerSigningInput svc.relayId m.mailboxId m.accessPublicKey m.sendTokenHash.1)
      m.signature m.accessPublicKey then
    refuse st rate ss "Invalid proof of key ownership"
  else
    match st.registerMailbox (svc.sha256 m.invite) m.mailboxId m.accessPublicKey m.sendTokenHash now
        svc.limits.maxMailboxes with
    | (.ok, st) => answer st rate ss ⟨.relayRegisterOk, []⟩
    | (.badInvite, st) => refuse st rate ss "Invalid, used or expired invite"
    | (.mailboxExists, st) => refuse st rate ss "That mailbox already exists"
    | (.limitReached, st) => refuse st rate ss "This relay is full"

/-- The same answer for "no such mailbox" and "wrong token", so mailbox IDs can't be probed. -/
def handleDeposit : Outcome :=
  decoded st rate (decodeDeposit payload) "Malformed deposit" fun m =>
  if m.ttlSeconds < minTtlSeconds then refuse st rate ss "Invalid lifetime"
  else
    limited st rate ss now (ascii "dep-ip:" ++ ss.peerIp) svc.limits.rateLimitPerMinute
      "Too many deposits, slow down" fun rate =>
    let tokenHash := svc.sha256 m.sendToken
    if !st.tokenValid m.mailboxId tokenHash then refuse st rate ss "Unknown mailbox or token"
    else
      limited st rate ss now (ascii "dep-tok:" ++ bytesToHex tokenHash.1)
        svc.limits.rateLimitPerMinute "Too many deposits with this token" fun rate =>
      later st rate ss (.deposit m tokenHash now)

/-- A new collect sends anything again that is not yet acknowledged. -/
def handleCollect : Outcome :=
  needsMailbox st rate ss fun _ =>
  later st rate { ss with collecting := true, lastSeq := 0, pushed := [] } (.push true [])

def handleAck : Outcome :=
  needsMailbox st rate ss fun mailbox =>
  decoded st rate (decodeIdList payload) "Malformed acknowledgement" fun ids =>
  answer (st.ack mailbox ids).2 rate ss
    ⟨.relayAckOk, writeU32 (UInt32.ofNat (st.ack mailbox ids).1)⟩

def handleInviteCreate : Outcome :=
  needsMailbox st rate ss fun mailbox =>
  if svc.limits.memberInvitesOutstanding = 0 then
    refuse st rate ss "This relay doesn't let members make invites"
  else
    limited st rate ss now (ascii "invite:" ++ bytesToHex mailbox) 10
      "Too many requests, try again later" fun rate =>
    match st.addMemberInvite mailbox (svc.sha256 ss.random) now
        (now + svc.limits.inviteLifetimeSeconds) svc.limits.memberInvitesOutstanding
        svc.limits.memberInvitesTotal with
    | (.ok, st) => answer st rate ss ⟨.relayInviteOk, ss.random⟩
    | (.tooManyOutstanding, st) =>
      refuse st rate ss ("You already have " ++ toString svc.limits.memberInvitesOutstanding ++
        " unused invites. Wait until a friend uses one or it expires.")
    | (.tooManyIssued, st) =>
      refuse st rate ss "You have reached the limit of people you can invite to this relay"
    | (.noSuchMailbox, st) => refuse st rate ss "Unknown mailbox"
    | (.failed, st) => fail st rate

def handleInviteList : Outcome :=
  needsMailbox st rate ss fun mailbox =>
  if svc.limits.memberInvitesOutstanding = 0 then
    refuse st rate ss "This relay doesn't let members make invites"
  else later st rate ss (.inviteList mailbox (st.unusedInvites mailbox now))

/-- Someone else's invite, a used one and a made-up one all look the same. -/
def handleInviteCancel : Outcome :=
  needsMailbox st rate ss fun mailbox =>
  decoded st rate (decodeHashOp payload) "Malformed request" fun hash =>
  if (st.cancelMemberInvite mailbox hash).1 then
    answer (st.cancelMemberInvite mailbox hash).2 rate ss ⟨.relayInviteCancelOk, []⟩
  else
    refuse (st.cancelMemberInvite mailbox hash).2 rate ss "That isn't one of your unused invites"

def handleTokenAdd : Outcome :=
  needsMailbox st rate ss fun mailbox =>
  decoded st rate (decodeHashOp payload) "Malformed token request" fun hash =>
  match st.addToken mailbox hash now svc.limits.maxTokensPerMailbox with
  | (.ok, st) => answer st rate ss ⟨.relayTokenOk, []⟩
  | (_, st) => refuse st rate ss "Too many send tokens on this mailbox"

def handleTokenRevoke : Outcome :=
  needsMailbox st rate ss fun mailbox =>
  decoded st rate (decodeHashOp payload) "Malformed token request" fun hash =>
  answer (st.revokeToken mailbox hash) rate ss ⟨.relayTokenOk, []⟩

/-! ## Prekeys and the keyring -/

def handlePrekeyPut : Outcome :=
  needsMailbox st rate ss fun mailbox =>
  decoded st rate (decodePrekeyPut payload) "Malformed prekey request" fun m =>
  match st.putPrekeys mailbox m.replace m.generation m.prekeys now svc.limits.maxPrekeys with
  | (.ok, st) => later st rate ss (.prekeyPutOk mailbox)
  | (.wrongGeneration, st) =>
    refuse st rate ss "The relay holds a different set of prekeys for you: replace them"
  | (.tooMany, st) =>
    refuse st rate ss
      ("Too many prekeys (this relay keeps at most " ++ toString svc.limits.maxPrekeys ++ ")")
  | (.duplicate, st) => refuse st rate ss "That prekey is already there"
  | (.noSuchMailbox, st) => refuse st rate ss "Unknown mailbox"

/-- Needs a send token for the mailbox, like a deposit, with the same answer if it is wrong. -/
def handlePrekeyTake : Outcome :=
  decoded st rate (decodePrekeyTake payload) "Malformed prekey request" fun m =>
  limited st rate ss now (ascii "dep-ip:" ++ ss.peerIp) svc.limits.rateLimitPerMinute
    "Too many requests, slow down" fun rate =>
  if !st.tokenValid m.mailboxId (svc.sha256 m.sendToken) then
    refuse st rate ss "Unknown mailbox or token"
  else later st rate ss (.takePrekey m.mailboxId (svc.sha256 m.sendToken) now)

def handlePrekeyStatus : Outcome :=
  needsMailbox st rate ss fun mailbox =>
  answer st rate ss ⟨.prekeyStatusOk, encodePrekeyStatus (st.prekeyStatus mailbox)⟩

/-- The first chunk of a keyring counts against the rate limit. -/
def handleKeyringPut : Outcome :=
  needsMailbox st rate ss fun mailbox =>
  decoded st rate ((decodeKeyringChunk payload).filter (·.count ≠ 0)) "Malformed keyring request"
    fun c =>
  let allowed := rate.allow (ascii "keyring:" ++ bytesToHex mailbox) 20 now
  let rate := if c.index = 0 then allowed.2 else rate
  match KeyringSession.handleKeyringPut ⟨mailbox, svc.limits.keyringMaxBytes, allowed.1, now⟩ c st
      ss.keyringUpload with
  | (.error text, st, up) => refuse st rate { ss with keyringUpload := up } text
  | (.ok, st', up) =>
    -- the mailbox is a foreign key of the keyring the last chunk stores
    if up.active = false ∧ (st.accessKey mailbox).isNone then fail st rate
    else answer st' rate { ss with keyringUpload := up } ⟨.keyringPutOk, []⟩

def handleKeyringGet : Outcome :=
  needsMailbox st rate ss fun mailbox =>
  match st.getKeyring mailbox with
  | none => answer st rate ss ⟨.keyringData, encodeKeyringChunk {}⟩
  | some blob =>
    { store := st, rate := rate, session := some ss
      replies := (chunksOf blob).map fun c => ⟨.keyringData, encodeKeyringChunk c⟩ }

/-! ## Attachments -/

/-- Starting another upload replaces one that was begun and never finished. -/
def handleFileBegin : Outcome :=
  needsMailbox st rate ss fun mailbox =>
  decoded st rate (decodeFileBegin payload) "Malformed file request" fun m =>
  match ss.upload with
  | none => later st rate ss (.beginFile mailbox m now)
  | some u => later st rate ss (abortUpload u (.beginFile mailbox m now))

def Upload.expected (u : Upload) : Nat :=
  if u.next + 1 < u.count then u.chunkSize else u.total - u.chunkSize * (u.count - 1)

def Upload.advance (u : Upload) (data : Bytes) : Upload :=
  { u with next := u.next + 1, written := u.written + data.length }

/-- The store after a chunk was written to an upload's temporary file. -/
def RelayStore.writeChunk (st : RelayStore) (u : Upload) (data : Bytes) : RelayStore :=
  { st with
    disk := st.disk.write u.file u.written data
    uploads := { st.uploads with
      received := Function.update st.uploads.received u.number
        (st.uploads.received u.number ++ data) } }

def handleFileChunk : Outcome :=
  match ss.upload with
  | none => refuse st rate ss "No upload in progress"
  | some u =>
    match decodeFileChunk payload with
    | none => later st rate ss (abortUpload u (.hangUp [errorReply "Malformed file request"]))
    | some m =>
      if m.index.toNat ≠ u.next ∨ m.data.length ≠ u.expected then
        later st rate ss
          (abortUpload u (.reply (errorReply "File chunks out of order, or of the wrong size")))
      else if !st.disk.health.writes then
        later st rate ss
          (abortUpload u (.reply (errorReply "The relay can't store files right now")))
      else
        let st := st.writeChunk u m.data
        let ss := { ss with upload := some (u.advance m.data) }
        if u.next + 1 = u.count then
          later { st with disk := st.disk.close u.file } rate ss (.renameFile m.index)
        else if (u.next + 1) % fileAckWindow = 0 then
          answer st rate ss ⟨.fileChunkOk, writeU32 (UInt32.ofNat (u.next + 1))⟩
        else { store := st, rate := rate, session := some ss, replies := [] }

/-- Anyone holding a recipient's token, with the same refusal for "no such file" and "wrong token". -/
def handleFileDownload : Outcome :=
  decoded st rate (decodeFileDownload payload) "Malformed file request" fun m =>
  limited st rate ss now (ascii "file-dl:" ++ ss.peerIp) svc.limits.rateLimitPerMinute
    "Too many attempts, try again later" fun rate =>
  match st.checkFileToken m.fileId (svc.sha256 m.token) now with
  | .ok => later st rate ss (.sendFile m)
  | .expired => refuse st rate ss "That file has expired"
  | .alreadyRedeemed => refuse st rate ss "That file was already downloaded with this token"
  | .notReady => refuse st rate ss "That file isn't ready yet"
  | .noSuchFile => refuse st rate ss "No such file, or that token isn't valid"
  | .badToken => refuse st rate ss "No such file, or that token isn't valid"

def handleFileRedeem : Outcome :=
  decoded st rate (decodeFileRedeem payload) "Malformed file request" fun m =>
  limited st rate ss now (ascii "file-dl:" ++ ss.peerIp) svc.limits.rateLimitPerMinute
    "Too many attempts, try again later" fun rate =>
  match st.redeemFileToken m.fileId (svc.sha256 m.token) with
  | (.ok true, st) =>
    later st rate ss (.remove .bin m.fileId (.remove .part m.fileId (.reply ⟨.fileRedeemOk, []⟩)))
  | (.ok false, st) => answer st rate ss ⟨.fileRedeemOk, []⟩
  | (.alreadyRedeemed, st) => refuse st rate ss "That token was already used"
  | (.noSuchFile, st) => refuse st rate ss "No such file, or that token isn't valid"
  | (.badToken, st) => refuse st rate ss "No such file, or that token isn't valid"

def handleFileCancel : Outcome :=
  needsMailbox st rate ss fun mailbox =>
  decoded st rate (decodeFileRef payload) "Malformed file request" fun fileId =>
  if (st.deleteFile fileId mailbox).1 then
    later (st.deleteFile fileId mailbox).2 rate ss
      (.remove .bin fileId (.remove .part fileId (.reply ⟨.fileCancelOk, []⟩)))
  else refuse (st.deleteFile fileId mailbox).2 rate ss "That isn't one of your files"

def handleFileStatus : Outcome :=
  needsMailbox st rate ss fun mailbox =>
  decoded st rate (decodeFileRef payload) "Malformed file request" fun fileId =>
  match (st.file fileId).filter (·.owner = mailbox) with
  | none => refuse st rate ss "That isn't one of your files"
  | some f =>
    answer st rate ss ⟨.fileStatusOk,
      encodeFileStatus f.tokensTotal f.tokensRedeemed (UInt64.ofInt f.expiresAt) f.ready⟩

/-! ## What is left of a request -/

/-- One step of a push round: a look for envelopes newer than the last one sent, or one sent. -/
def resumePush (collect : Bool) (batch : List EnvelopeRow) : Outcome :=
  match ss.mailbox, batch with
  | none, _ => { store := st, rate := rate, session := some ss, replies := [] }
  | some mailbox, [] =>
    let batch := st.fetch mailbox ss.lastSeq now 32
    if batch = [] then
      { store := st, rate := rate, session := some ss
        replies := if collect then [⟨.relayCollectEnd, []⟩] else [] }
    else later st rate ss (.push collect batch)
  | some _, e :: rest =>
    { store := st, rate := rate
      session := some { ss with
        lastSeq := e.seq, pushed := ss.pushed ++ [e], pending := some (.push collect rest) }
      replies := [⟨.relayEnvelope, encodeStoredEnvelope
        ⟨e.id, UInt64.ofInt e.depositedAt, e.tokenHash, e.envelope⟩⟩] }

def resumeDeposit (m : Deposit) (tokenHash : Digest) (at' : Time) : Outcome :=
  let ttl := if m.ttlSeconds > maxTtlSeconds then maxTtlSeconds else m.ttlSeconds
  match st.deposit m.mailboxId ss.random m.envelope tokenHash at' ttl
      svc.limits.mailboxQuotaBytes with
  | (.ok, st) =>
    { answer st rate ss ⟨.relayDepositOk, encodeIdList [ss.random]⟩ with
      deposited := st.envelopes.getLast? }
  | (.mailboxFull, st) => refuse st rate ss "Mailbox is full"
  | (.failed, st) => fail st rate

def resumeTakePrekey (mailboxId : Bytes) (tokenHash : Digest) (at' : Time) : Outcome :=
  match st.takePrekey mailboxId tokenHash at' svc.limits.prekeyTakesPerHour with
  | (.ok row, st) => answer st rate ss ⟨.prekeyData, encodePrekeyData row.lastResort row.blob⟩
  | (.rateLimited, st) =>
    refuse st rate ss "Too many prekeys taken with this token; try again later"
  | (.empty, st) => refuse st rate ss "That mailbox has no prekeys"

def resumeInviteList (mailbox : Bytes) (unused : List InviteRow) : Outcome :=
  answer st rate ss ⟨.relayInviteListOk, encodeInviteStatus
    { maxUnused := UInt32.ofNat svc.limits.memberInvitesOutstanding
      maxTotal := UInt32.ofNat svc.limits.memberInvitesTotal
      unused := unused.map fun r => (r.hash, UInt64.ofInt r.expiresAt)
      joined := (st.joinedThrough mailbox).map fun r => (r.id, UInt64.ofInt r.createdAt) }⟩

def resumeBeginFile (mailbox : Bytes) (m : FileBegin) (at' : Time) : Outcome :=
  limited st rate ss at' (ascii "file-up:" ++ bytesToHex mailbox) 30
    "Too many requests, try again later" fun rate =>
  if m.totalSize.toNat > svc.limits.maxAttachmentBytes then
    refuse st rate ss ("That file is larger than this relay allows (" ++
      toString (svc.limits.maxAttachmentBytes / (1024 * 1024)) ++ " MiB)")
  else if m.expiresAt.toInt64.toInt < at' + 60 ∨
      m.expiresAt.toInt64.toInt > at' + svc.limits.attachmentMaxSeconds then
    refuse st rate ss ("A file's expiry must be between a minute and " ++
      toString (svc.limits.attachmentMaxSeconds.tdiv 86400) ++ " days from now")
  else
    match st.beginFile mailbox m at' svc.limits.attachmentQuotaBytes with
    | (.ok, st') => later st' rate ss (.openPart m st.uploads.begun)
    | (.exists, st) => refuse st rate ss "That file already exists"
    | (.quotaExceeded, st) =>
      refuse st rate ss ("Your stored attachments would go over this relay's limit (" ++
        toString (svc.limits.attachmentQuotaBytes / (1024 * 1024)) ++ " MiB)")
    | (.noSuchMailbox, st) => refuse st rate ss "Unknown mailbox"

def resumeOpenPart (m : FileBegin) (number : Nat) : Outcome :=
  if !st.disk.health.opens then
    later st rate ss
      (.dropFile m.fileId (.reply (errorReply "The relay can't store files right now")))
  else
    answer { st with disk := (st.disk.openPart m.fileId).2 } rate
      { ss with
        upload := some
          { id := m.fileId, count := m.chunkCount.toNat, next := 0
            chunkSize := m.chunkSize.toNat, total := m.totalSize.toNat
            file := (st.disk.openPart m.fileId).1, written := 0, number := number } }
      ⟨.fileUploadOk, []⟩

def resumeRename (index : UInt32) : Outcome :=
  match ss.upload with
  | none => { store := st, rate := rate, session := some ss, replies := [] }
  | some u =>
    match st.disk.rename u.id with
    | none =>
      later st rate ss
        (abortUpload u (.reply (errorReply "The relay can't store files right now")))
    | some disk => later { st with disk := disk } rate ss (.finishFile index)

/-- The store after the record of a finished upload was marked ready and its last chunk confirmed. -/
def RelayStore.confirm (st : RelayStore) (u : Upload) : RelayStore :=
  { st.finishFile u.id with
    uploads := { st.uploads with confirmed := st.uploads.confirmed ++ [u.number] } }

def resumeFinish (index : UInt32) : Outcome :=
  match ss.upload with
  | none => { store := st, rate := rate, session := some ss, replies := [] }
  | some u =>
    answer (st.confirm u) rate { ss with upload := none } ⟨.fileChunkOk, writeU32 (index + 1)⟩

def chunkAt (f : RelayStore.FileMeta) (i : Nat) : Nat × Nat :=
  (i * f.chunkSize.toNat, min f.chunkSize.toNat (f.totalSize.toNat - i * f.chunkSize.toNat))

def resumeSendFile (m : FileDownload) : Outcome :=
  match (st.file m.fileId).filter (m.fromChunk < ·.chunkCount), st.disk.stored m.fileId with
  | none, _ => refuse st rate ss "No such file, or that token isn't valid"
  | some _, none => refuse st rate ss "That file is no longer available"
  | some f, some content =>
    let all := List.range' m.fromChunk.toNat (f.chunkCount.toNat - m.fromChunk.toNat)
    let there := all.takeWhile fun i => (chunkAt f i).1 + (chunkAt f i).2 ≤ content.length
    let sent := ⟨.fileInfo, encodeFileInfo f.totalSize f.chunkSize f.chunkCount
      (UInt64.ofInt f.expiresAt)⟩ :: there.map fun i => ⟨.fileData,
        encodeFileChunk (UInt32.ofNat i) ((content.drop (chunkAt f i).1).take (chunkAt f i).2)⟩
    if there.length = all.length then
      { store := st, rate := rate, session := some ss
        replies := sent ++ [⟨.fileDownloadEnd, []⟩] }
    else
      { store := st, rate := rate, session := none
        replies := sent ++ [errorReply "That file is no longer available"] }

def resumeAgreement (archiveId : Bytes) (m : ArchiveDelete) : Outcome :=
  let signedInput := archiveDeleteSigningInput svc.relayId archiveId m.scope.toU32 m.opId m.expiresAt
    (m.entryHashes.map (·.1))
  match missingAgreement svc signedInput m.signatures (st.archiveMemberKeys archiveId) with
  | some true => refuse st rate ss "Not every member has agreed to this deletion"
  | some false => refuse st rate ss "A member's signature on this deletion is not valid"
  | none =>
    later st rate ss (match m.scope with
      | .chat => .deleteArchive archiveId
      | .entries => .redactEntries archiveId m.entryHashes)

/-- The rest of a request, one call to the store or the files folder at a time. -/
def resume (work : Pending) : Outcome :=
  let ss := { ss with pending := none }
  match work with
  | .agreement archiveId m => resumeAgreement svc ss st rate archiveId m
  | .deleteArchive archiveId => answer (st.deleteArchive archiveId) rate ss ⟨.archiveDeleteOk, []⟩
  | .redactEntries archiveId entryHashes =>
    match st.redactEntries archiveId entryHashes with
    | (.ok, st) => answer st rate ss ⟨.archiveDeleteOk, []⟩
    | (.unknownEntry, st) => refuse st rate ss "One of those entries isn't in this archive"
    | (.noSuchArchive, st) => refuse st rate ss "Unknown archive"
  | .fetchEnd archiveId =>
    match st.archiveInfo archiveId now with
    | none => refuse st rate ss "Unknown archive"
    | some info => answer st rate ss ⟨.archiveFetchEnd, encodeArchiveHead info.head⟩
  | .deposit m tokenHash at' => resumeDeposit svc ss st rate m tokenHash at'
  | .push collect batch => resumePush now ss st rate collect batch
  | .inviteList mailbox unused => resumeInviteList svc ss st rate mailbox unused
  | .prekeyPutOk mailbox =>
    answer st rate ss ⟨.prekeyPutOk, encodePrekeyStatus (st.prekeyStatus mailbox)⟩
  | .takePrekey mailboxId tokenHash at' => resumeTakePrekey svc ss st rate mailboxId tokenHash at'
  | .beginFile mailbox m at' => resumeBeginFile svc ss st rate mailbox m at'
  | .openPart m number => resumeOpenPart ss st rate m number
  | .renameFile index => resumeRename ss st rate index
  | .finishFile index => resumeFinish ss st rate index
  | .sendFile m => resumeSendFile ss st rate m
  | .remove ending fileId next =>
    later { st with disk := st.disk.remove ending fileId } rate ss next
  | .dropFile fileId next => later (st.deleteFile fileId []).2 rate { ss with upload := none } next
  | .reply msg => answer st rate ss msg
  | .hangUp replies => { store := st, rate := rate, session := none, replies := replies }

end

/-- One message of a session: the switch of `handle_session`. -/
def handleMessage (svc : Service) (now : Time) (ss : Session) (msg : WireMessage)
    (st : RelayStore) (rate : RateLimiter) : Outcome :=
  match msg.type with
  | .relayPing =>
    { store := st, rate := rate, session := some ss, replies := [⟨.relayPong, []⟩] }
  | .relayRegister => handleRegister svc now ss msg.payload st rate
  | .relayAuth => handleAuth svc ss msg.payload st rate
  | .relayDeposit => handleDeposit svc now ss msg.payload st rate
  | .relayCollect => handleCollect ss st rate
  | .relayAck => handleAck ss msg.payload st rate
  | .relayInviteCreate => handleInviteCreate svc now ss st rate
  | .archiveCreate => handleArchiveCreate svc now ss msg.payload st rate
  | .archiveJoin => handleArchiveJoin svc now ss msg.payload st rate
  | .archiveAuth => handleArchiveAuth svc ss msg.payload st rate
  | .archiveAppend => handleArchiveAppend svc now ss msg.payload st rate
  | .archiveDelete => handleArchiveDelete svc now ss msg.payload st rate
  | .archiveFetch => handleArchiveFetch svc now ss msg.payload st rate
  | .prekeyPut => handlePrekeyPut svc now ss msg.payload st rate
  | .prekeyTake => handlePrekeyTake svc now ss msg.payload st rate
  | .prekeyStatus => handlePrekeyStatus ss st rate
  | .fileUploadBegin => handleFileBegin now ss msg.payload st rate
  | .fileChunk => handleFileChunk ss msg.payload st rate
  | .fileDownload => handleFileDownload svc now ss msg.payload st rate
  | .fileRedeem => handleFileRedeem svc now ss msg.payload st rate
  | .fileCancel => handleFileCancel ss msg.payload st rate
  | .fileStatus => handleFileStatus ss msg.payload st rate
  | .keyringPut => handleKeyringPut svc now ss msg.payload st rate
  | .keyringGet => handleKeyringGet ss st rate
  | .relayInviteList => handleInviteList svc now ss st rate
  | .relayInviteCancel => handleInviteCancel ss msg.payload st rate
  | .relayTokenAdd => handleTokenAdd svc now ss msg.payload st rate
  | .relayTokenRevoke => handleTokenRevoke ss msg.payload st rate
  | _ => close st rate "Unexpected message"

end PqSuite.Relay
