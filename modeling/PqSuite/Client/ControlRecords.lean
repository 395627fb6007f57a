import PqSuite.Client.MessageRecord

/-!
# What control records and queued jobs carry (`message_record.cpp`, `messaging_engine.cpp`)

The payloads of receipts, forwards, archive grants, checkpoints and the records of a deletion, and the
two forms in which something that is not a record waits in the outbox: what one recipient needs to fetch
a file, and the list of members who are to be given a send token.
-/

namespace PqSuite

open Reader

/-- What one recipient needs to fetch one file. -/
structure AttachmentGrant where
  fileId : Bytes
  key : Bytes
  token : Bytes
  fileId_size : fileId.length = 16
  key_size : key.length = 32
  token_size : token.length = 32
  deriving DecidableEq

namespace Chat

/-! ## Receipts -/

inductive ReceiptKind where
  | delivered
  | read
  deriving DecidableEq

def ReceiptKind.code : ReceiptKind → UInt8
  | .delivered => 1
  | .read => 2

def ReceiptKind.ofCode : UInt8 → Option ReceiptKind
  | 1 => some .delivered
  | 2 => some .read
  | _ => none

structure ReceiptInfo where
  kind : ReceiptKind
  messageIds : List Bytes
  deriving DecidableEq

def receiptPayload (kind : ReceiptKind) (messageIds : List Bytes) : Except String Bytes :=
  if messageIds.length > maxReceiptIds then .error "Too many messages in one receipt"
  else .ok (kind.code :: (writeU32 (UInt32.ofNat messageIds.length) ++
    (messageIds.map writeBlob).flatten))

def receiptIdsReader : Reader UInt8 (List Bytes) := do
  let count ← u32
  guard (count.toNat ≤ maxReceiptIds)
  many count.toNat (blob idBytes)

def parseReceiptPayload : Bytes → Option ReceiptInfo
  | [] => none
  | code :: rest => do
    let kind ← ReceiptKind.ofCode code
    let messageIds ← whole receiptIdsReader rest
    if messageIds.all (·.length = idBytes) then some ⟨kind, messageIds⟩ else none

theorem ReceiptKind.ofCode_code (kind : ReceiptKind) : ReceiptKind.ofCode kind.code = some kind := by
  cases kind <;> rfl

theorem parseReceiptPayload_written {kind : ReceiptKind} {ids : List Bytes} {payload : Bytes}
    (hids : ∀ id ∈ ids, id.length = idBytes) (h : receiptPayload kind ids = .ok payload) :
    parseReceiptPayload payload = some ⟨kind, ids⟩ := by
  unfold receiptPayload at h
  split_ifs at h with hcount
  obtain rfl := Except.ok.inj h
  have hlen : (UInt32.ofNat ids.length).toNat = ids.length := by
    rw [UInt32.toNat_ofNat', Nat.mod_eq_of_lt]
    simp only [maxReceiptIds] at hcount
    omega
  have hreads : Reads receiptIdsReader
      (writeU32 (UInt32.ofNat ids.length) ++ (ids.map writeBlob).flatten) ids := by
    refine (reads_u32 _).bind <| .check (hlen.trans_le (not_lt.1 hcount)) ?_
    rw [hlen]
    exact reads_blobs (fun b hb => (hids b hb).le) (by decide)
  have hall : ids.all (·.length = idBytes) = true := by simpa using hids
  rw [parseReceiptPayload, ReceiptKind.ofCode_code, hreads.whole_eq]
  exact if_pos hall

/-! ## Forwards -/

/-- A sealed envelope that the group's creator passes on. -/
structure ForwardInfo where
  target : Bytes
  envelope : Bytes
  deriving DecidableEq

def forwardPayload (target sealedEnvelope : Bytes) : Except String Bytes :=
  if target.length ≠ hashBytes ∨ sealedEnvelope = [] ∨
      sealedEnvelope.length > maxForwardEnvelopeBytes then
    .error "The forwarded envelope is not valid"
  else .ok (writeBlob target ++ writeBlob sealedEnvelope)

def forwardReader : Reader UInt8 ForwardInfo := do
  let target ← blob hashBytes
  let envelope ← blob maxForwardEnvelopeBytes
  return { target, envelope }

def parseForwardPayload (payload : Bytes) : Option ForwardInfo :=
  (whole forwardReader payload).filter fun f => f.target.length = hashBytes && f.envelope ≠ []

/-! ## Archive grants -/

/-- How one member joins a chat's archive. -/
structure ArchiveGrantInfo where
  relayAddress : Bytes
  relayId : Bytes
  archiveKey : Bytes
  joinToken : Bytes
  deriving DecidableEq

def visibleAscii (s : Bytes) : Bool := s.all fun c => 0x21 ≤ c && c ≤ 0x7E

def validArchiveGrant (info : ArchiveGrantInfo) : Bool :=
  info.relayAddress ≠ [] && info.relayAddress.length ≤ maxRelayAddressBytes &&
    visibleAscii info.relayAddress && info.relayId.length = hashBytes &&
    info.archiveKey.length = 32 && info.joinToken.length = 32

def archiveGrantPayload (info : ArchiveGrantInfo) : Except String Bytes :=
  if validArchiveGrant info then
    .ok (writeBlob info.relayAddress ++ (writeBlob info.relayId ++
      (writeBlob info.archiveKey ++ writeBlob info.joinToken)))
  else .error "The archive grant is not valid"

def archiveGrantReader : Reader UInt8 ArchiveGrantInfo := do
  let relayAddress ← blob maxRelayAddressBytes
  let relayId ← blob hashBytes
  let archiveKey ← blob 32
  let joinToken ← blob 32
  return { relayAddress, relayId, archiveKey, joinToken }

def parseArchiveGrantPayload (payload : Bytes) : Option ArchiveGrantInfo :=
  if payload.length > maxArchiveGrantPayload then none
  else (whole archiveGrantReader payload).filter validArchiveGrant

/-! ## Checkpoints -/

def checkpointPayload (number : UInt64) (hash : Bytes) : Except String Bytes :=
  if number = 0 ∨ hash.length ≠ hashBytes then .error "The checkpoint is not valid"
  else .ok (writeU64 number ++ writeBlob hash)

/-- The head of a chat's archive, as a member saw it. -/
structure CheckpointInfo where
  number : UInt64
  hash : Bytes
  deriving DecidableEq

def checkpointReader : Reader UInt8 CheckpointInfo := do
  let number ← u64
  let hash ← blob hashBytes
  guard (number ≠ 0 ∧ hash.length = hashBytes)
  return { number, hash }

def parseCheckpointPayload (payload : Bytes) : Option CheckpointInfo := whole checkpointReader payload

/-! ## Deletions -/

open Relay (DeleteScope)

structure DeleteRequestInfo where
  scope : DeleteScope
  opId : Bytes
  expiresAt : UInt64
  entries : List Bytes
  deriving DecidableEq

def deleteRequestPayload (info : DeleteRequestInfo) : Except String Bytes :=
  if info.opId.length ≠ 16 ∨ ¬info.scope.allows info.entries.length ∨
      ¬info.entries.all (·.length = hashBytes) then
    .error "The deletion request is not valid"
  else .ok (writeU32 info.scope.toU32 ++ (writeBlob info.opId ++ (writeU64 info.expiresAt ++
    (writeU32 (UInt32.ofNat info.entries.length) ++ (info.entries.map writeBlob).flatten))))

def scopeOf : UInt32 → Option DeleteScope
  | 1 => some .chat
  | 2 => some .entries
  | _ => none

def deleteRequestReader : Reader UInt8 DeleteRequestInfo := do
  let code ← u32
  let opId ← blob 16
  let expiresAt ← u64
  let count ← u32
  let scope ← StateT.lift (scopeOf code)
  guard (opId.length = 16 ∧ scope.allows count.toNat)
  let entries ← many count.toNat (blob hashBytes)
  guard (entries.all (·.length = hashBytes) ∧ entries.Nodup)
  return { scope, opId, expiresAt, entries }

def parseDeleteRequestPayload (payload : Bytes) : Option DeleteRequestInfo :=
  if payload.length > maxDeleteRequestPayload then none else whole deleteRequestReader payload

structure DeleteAcceptInfo where
  opId : Bytes
  keyHash : Bytes
  signature : Bytes
  deriving DecidableEq

def validDeleteAccept (info : DeleteAcceptInfo) : Bool :=
  info.opId.length = 16 && info.keyHash.length = hashBytes && info.signature ≠ [] &&
    info.signature.length ≤ maxSignatureBytes

def deleteAcceptPayload (info : DeleteAcceptInfo) : Except String Bytes :=
  if validDeleteAccept info then
    .ok (writeBlob info.opId ++ (writeBlob info.keyHash ++ writeBlob info.signature))
  else .error "The deletion acceptance is not valid"

def deleteAcceptReader : Reader UInt8 DeleteAcceptInfo := do
  let opId ← blob 16
  let keyHash ← blob hashBytes
  let signature ← blob maxSignatureBytes
  return { opId, keyHash, signature }

def parseDeleteAcceptPayload (payload : Bytes) : Option DeleteAcceptInfo :=
  if payload.length > maxDeleteAcceptPayload then none
  else (whole deleteAcceptReader payload).filter validDeleteAccept

end Chat

/-! ## What waits in the outbox beside records -/

def encodeGrant (fileId key token : Bytes) : Bytes :=
  writeBlob fileId ++ (writeBlob key ++ writeBlob token)

def grantReader : Reader UInt8 (Bytes × Bytes × Bytes) := do
  let fileId ← blob 16
  let key ← blob 32
  let token ← blob 32
  return (fileId, key, token)

end PqSuite
