import PqSuite.Client.History
import PqSuite.Protocol.Readers

/-!
# Signed message records (`message_record.cpp`)

A record says who sent what, to whom and in which conversation, and is signed with the sender's
identity key. `parseRecord` reads only the structure. What is signed is read back as it was
(`parseRecord_signRecord`).
-/

namespace PqSuite

open Relay (Digest)

/-- SHA-256 and ML-DSA-65, and the sizes of the two public keys. -/
structure ChatCrypto where
  sha256 : Bytes → Digest
  /-- Signing throws if the key has the wrong size. -/
  sign : (message privateKey : Bytes) → Except String Bytes
  verify : (message signature publicKey : Bytes) → Bool
  sigPublicKeySize : ℕ
  kemPublicKeySize : ℕ

/-- `CryptoEngine::fingerprint`: the hash of a signing key in lowercase hexadecimal. -/
def ChatCrypto.fingerprint (C : ChatCrypto) (pubDsa : Bytes) : Bytes := bytesToHex (C.sha256 pubDsa)

namespace Chat

open Reader

def idBytes : ℕ := 16
def hashBytes : ℕ := 32
def maxTextBytes : ℕ := 32 * 1024
def maxRecordBytes : ℕ := 40 * 1024
def maxSeen : ℕ := 15
def maxGroupMembers : ℕ := 16
def maxTitleBytes : ℕ := 64
def maxConversationPayload : ℕ := 1024
def maxForwardEnvelopeBytes : ℕ := 8 * 1024
def maxRelayAddressBytes : ℕ := 255
def maxArchiveGrantPayload : ℕ := 512
def maxAttachmentNameBytes : ℕ := 255
def maxAttachmentCaptionBytes : ℕ := 1024
def maxAttachmentPayload : ℕ := 2048
def maxAttachmentFileBytes : UInt64 := 15 * 1024 * 1024 * 1024
def maxDeleteRequestPayload : ℕ := 4096
def maxDeleteAcceptPayload : ℕ := 8192 + 256
def maxReceiptIds : ℕ := 256
def maxSignatureBytes : ℕ := 8192

def recordMagic : UInt32 := 0x50514D52
def recordVersion : UInt32 := 2
def minRecordVersion : UInt32 := 1
def conversationPayloadVersion : UInt32 := 1
def signatureLabel : Bytes := ascii "pq-suite v3 message"
def conversationLabel : Bytes := ascii "pq-suite v3 one-to-one conversation"
def recipientsLabel : Bytes := ascii "pq-suite v3 recipients"

/-! ## Records -/

inductive RecordType where
  | text
  | receipt
  | tokenGrant
  | conversation
  | forward
  | archiveGrant
  | checkpoint
  | deleteRequest
  | deleteAccept
  | attachment
  deriving DecidableEq

def RecordType.code : RecordType → UInt32
  | .text => 1
  | .receipt => 2
  | .tokenGrant => 3
  | .conversation => 4
  | .forward => 5
  | .archiveGrant => 6
  | .checkpoint => 7
  | .deleteRequest => 8
  | .deleteAccept => 9
  | .attachment => 10

def RecordType.ofCode : UInt32 → Option RecordType
  | 1 => some .text
  | 2 => some .receipt
  | 3 => some .tokenGrant
  | 4 => some .conversation
  | 5 => some .forward
  | 6 => some .archiveGrant
  | 7 => some .checkpoint
  | 8 => some .deleteRequest
  | 9 => some .deleteAccept
  | 10 => some .attachment
  | _ => none

structure Record where
  conversationId : Bytes
  messageId : Bytes
  sender : Bytes
  /-- Binds the record to exactly the people it is for. -/
  recipientsHash : Bytes
  sentAt : UInt64
  type : RecordType
  payload : Bytes
  /-- The record the sender wrote before this one, if any. -/
  ownPrev : Bytes := []
  /-- The latest record the sender had from each other member. -/
  seen : List Bytes := []
  deriving DecidableEq

structure SignedRecord where
  record : Record
  /-- Exactly what is sent and stored. -/
  raw : Bytes
  entryHash : Digest
  body : Bytes
  signature : Bytes
  deriving DecidableEq

def maxPayload : RecordType → ℕ
  | .text => maxTextBytes
  | .attachment => maxAttachmentPayload
  | .receipt => 1 + 4 + maxReceiptIds * (4 + idBytes)
  | .tokenGrant => 32
  | .conversation => maxConversationPayload
  | .forward => 4 + hashBytes + 4 + maxForwardEnvelopeBytes
  | .archiveGrant => maxArchiveGrantPayload
  | .checkpoint => 8 + 4 + hashBytes
  | .deleteRequest => maxDeleteRequestPayload
  | .deleteAccept => maxDeleteAcceptPayload

/-- Whether a record comes after nothing and has seen nothing: the first of a conversation, and control
records, which are outside the transcript. -/
def RecordType.standsAlone : RecordType → Bool
  | .text | .attachment | .receipt | .tokenGrant => false
  | .conversation | .forward | .archiveGrant | .checkpoint | .deleteRequest | .deleteAccept => true

def wellFormed (r : Record) : Bool :=
  r.conversationId.length = idBytes && r.messageId.length = idBytes &&
  r.sender.length = hashBytes && r.recipientsHash.length = hashBytes &&
  (r.ownPrev = [] || r.ownPrev.length = hashBytes) && r.seen.length ≤ maxSeen &&
  r.seen.all (·.length = hashBytes) && r.seen.Nodup && r.payload.length ≤ maxPayload r.type &&
  (r.type ≠ .tokenGrant || r.payload.length = 32) &&
  (!r.type.standsAlone || (r.ownPrev = [] && r.seen = []))

def signingInput (body : Bytes) : Bytes := writeString signatureLabel ++ body

def writeBody (r : Record) : Bytes :=
  writeU32 recordMagic ++ (writeU32 recordVersion ++ (writeBlob r.conversationId ++
    (writeBlob r.messageId ++ (writeBlob r.sender ++ (writeBlob r.recipientsHash ++
      (writeU64 r.sentAt ++ (writeU32 r.type.code ++ (writeBlob r.payload ++
        (writeBlob r.ownPrev ++ (writeU32 (UInt32.ofNat r.seen.length) ++
          (r.seen.map writeBlob).flatten))))))))))

/-- Version 1 has one hash or none, version 2 a list. -/
def seenReader (version : UInt32) : Reader UInt8 (List Bytes) :=
  if version = 1 then do
    let one ← blob hashBytes
    return if one = [] then [] else [one]
  else do
    let count ← u32
    guard (count.toNat ≤ maxSeen)
    many count.toNat (blob hashBytes)

def bodyReader : Reader UInt8 Record := do
  let magic ← u32
  let version ← u32
  guard (magic = recordMagic ∧ minRecordVersion ≤ version ∧ version ≤ recordVersion)
  let conversationId ← blob idBytes
  let messageId ← blob idBytes
  let sender ← blob hashBytes
  let recipientsHash ← blob hashBytes
  let sentAt ← u64
  let type ← u32
  let payload ← blob (maxTextBytes + 1)
  let ownPrev ← blob hashBytes
  let seen ← seenReader version
  -- the later types came with version 2
  guard (version ≠ 1 ∨ type ≤ 3)
  let type ← StateT.lift (RecordType.ofCode type)
  return { conversationId, messageId, sender, recipientsHash, sentAt, type, payload, ownPrev, seen }

def rawReader : Reader UInt8 (Bytes × Bytes) := do
  let body ← blob maxRecordBytes
  let signature ← blob maxSignatureBytes
  return (body, signature)

section

variable (C : ChatCrypto)

def signRecord (r : Record) (privateKey : Bytes) : Except String Bytes :=
  if wellFormed r then
    match C.sign (signingInput (writeBody r)) privateKey with
    | .ok signature => .ok (writeBlob (writeBody r) ++ writeBlob signature)
    | .error e => .error e
  else .error "The message record is malformed or too large"

def parseRecord (raw : Bytes) : Option SignedRecord :=
  if raw.length > maxRecordBytes then none
  else do
    let (body, signature) ← whole rawReader raw
    let record ← whole bodyReader body
    if wellFormed record then
      some { record, raw, entryHash := C.sha256 raw, body, signature }
    else none

/-- The ID of the one saved chat between two people, the same on both sides. -/
def conversationIdFor (a b : Bytes) : Bytes :=
  let low := if bytesLe b a then b else a
  let high := if bytesLe b a then a else b
  (C.sha256 (writeString conversationLabel ++ writeBlob low ++ writeBlob high)).1.take idBytes

def recipientsHashFor (fingerprints : List Bytes) : Bytes :=
  let sorted := fingerprints.insertionSort (bytesLe · ·)
  C.sha256 (writeString recipientsLabel ++ writeU32 (UInt32.ofNat sorted.length) ++
    (sorted.map writeBlob).flatten)

end

theorem recipientsHashFor_perm {C : ChatCrypto} {l l' : List Bytes} (h : l.Perm l') :
    recipientsHashFor C l = recipientsHashFor C l' := by
  rw [recipientsHashFor, recipientsHashFor, insertionSort_eq_iff_perm.2 h]

/-! ## Texts that are shown -/

/-- The value bits of the first byte of a character, and the character's length. -/
def leadByte (c : UInt8) : Option (ℕ × ℕ) :=
  if c < 0x80 then some (c.toNat, 1)
  else if c &&& 0xE0 = 0xC0 then some ((c &&& 0x1F).toNat, 2)
  else if c &&& 0xF0 = 0xE0 then some ((c &&& 0x0F).toNat, 3)
  else if c &&& 0xF8 = 0xF0 then some ((c &&& 0x07).toNat, 4)
  else none

/-- The smallest code point that needs a character of the given length. -/
def minForLength : ℕ → ℕ
  | 2 => 0x80
  | 3 => 0x800
  | 4 => 0x10000
  | _ => 0

/-- Neither a surrogate nor too large, a control character or one that changes the text's direction. -/
def showable (cp : ℕ) : Bool :=
  !(cp > 0x10FFFF || (cp ≥ 0xD800 && cp ≤ 0xDFFF)) && !(cp < 0x20 || (cp ≥ 0x7F && cp ≤ 0x9F)) &&
    !((cp ≥ 0x202A && cp ≤ 0x202E) || (cp ≥ 0x2066 && cp ≤ 0x2069))

/-- The first `n` characters at most; each has at least one byte. -/
def validChars : ℕ → Bytes → Bool
  | _, [] => true
  | 0, _ :: _ => false
  | n + 1, c :: rest =>
    match leadByte c with
    | none => false
    | some (bits, len) =>
      let more := rest.take (len - 1)
      let cp := more.foldl (fun cp cc => cp * 64 + (cc &&& 0x3F).toNat) bits
      len ≤ rest.length + 1 && more.all (· &&& 0xC0 = 0x80) && minForLength len ≤ cp &&
        showable cp && validChars n (rest.drop (len - 1))

/-- Well-formed UTF-8 that is safe to show as a label. -/
def validLabel (s : Bytes) : Bool := validChars s.length s

/-! ## Conversation records -/

inductive ConversationMode where
  | saved
  deriving DecidableEq

structure ConversationInfo where
  title : Bytes
  mode : ConversationMode := .saved
  timerSeconds : UInt64 := 0
  previousId : Bytes := []
  /-- Everyone including the creator, in the creator's order. -/
  members : List Bytes
  deriving DecidableEq

def ConversationMode.code : ConversationMode → UInt32
  | .saved => 1

def ConversationMode.ofCode : UInt32 → Option ConversationMode
  | 1 => some .saved
  | _ => none

def validInfo (c : ConversationInfo) : Bool :=
  c.title.length ≤ maxTitleBytes && validLabel c.title && c.timerSeconds = 0 &&
  (c.previousId = [] || c.previousId.length = idBytes) && 2 ≤ c.members.length &&
  c.members.length ≤ maxGroupMembers && c.members.all (·.length = hashBytes) && c.members.Nodup

def conversationPayload (c : ConversationInfo) : Except String Bytes :=
  if validInfo c then
    .ok (writeU32 conversationPayloadVersion ++ (writeBlob c.title ++ (writeU32 c.mode.code ++
      (writeU64 c.timerSeconds ++ (writeBlob c.previousId ++
        (writeU32 (UInt32.ofNat c.members.length) ++ (c.members.map writeBlob).flatten))))))
  else .error "The group's details are not valid"

def conversationPayloadReader : Reader UInt8 ConversationInfo := do
  let version ← u32
  let title ← blob maxTitleBytes
  let mode ← u32
  let timerSeconds ← u64
  let previousId ← blob idBytes
  let count ← u32
  guard (version = conversationPayloadVersion ∧ 2 ≤ count.toNat ∧ count.toNat ≤ maxGroupMembers)
  let members ← many count.toNat (blob hashBytes)
  let mode ← StateT.lift (ConversationMode.ofCode mode)
  return { title, mode, timerSeconds, previousId, members }

def parseConversationPayload (payload : Bytes) : Option ConversationInfo :=
  if payload.length > maxConversationPayload then none
  else (whole conversationPayloadReader payload).filter validInfo

/-! ## Attachments -/

structure AttachmentInfo where
  fileId : Bytes
  name : Bytes
  size : UInt64
  /-- Of the file's contents. -/
  sha256 : Bytes
  expiresAt : UInt64
  relayAddress : Bytes
  relayId : Bytes
  caption : Bytes
  deriving DecidableEq

def validAttachment (a : AttachmentInfo) : Bool :=
  a.fileId.length = 16 && a.sha256.length = hashBytes && a.relayId.length = hashBytes &&
  a.name ≠ [] && a.name.length ≤ maxAttachmentNameBytes && validLabel a.name &&
  a.caption.length ≤ maxAttachmentCaptionBytes && validLabel a.caption &&
  a.size ≤ maxAttachmentFileBytes &&
  a.relayAddress ≠ [] && a.relayAddress.length ≤ maxRelayAddressBytes &&
  a.relayAddress.all fun c => 0x21 ≤ c && c ≤ 0x7E

def attachmentPayload (a : AttachmentInfo) : Except String Bytes :=
  if validAttachment a then
    .ok (writeBlob a.fileId ++ (writeBlob a.name ++ (writeU64 a.size ++ (writeBlob a.sha256 ++
      (writeU64 a.expiresAt ++ (writeBlob a.relayAddress ++ (writeBlob a.relayId ++
        writeBlob a.caption)))))))
  else .error "The attachment details are not valid"

def attachmentPayloadReader : Reader UInt8 AttachmentInfo := do
  let fileId ← blob 16
  let name ← blob maxAttachmentNameBytes
  let size ← u64
  let sha256 ← blob hashBytes
  let expiresAt ← u64
  let relayAddress ← blob maxRelayAddressBytes
  let relayId ← blob hashBytes
  let caption ← blob maxAttachmentCaptionBytes
  return { fileId, name, size, sha256, expiresAt, relayAddress, relayId, caption }

def parseAttachmentPayload (payload : Bytes) : Option AttachmentInfo :=
  if payload.length > maxAttachmentPayload then none
  else (whole attachmentPayloadReader payload).filter validAttachment

/-! ## Reading back what was written -/

variable {C : ChatCrypto} {r : Record} {sr : SignedRecord} {raw key : Bytes}

theorem ofCode_code (t : RecordType) : RecordType.ofCode t.code = some t := by
  cases t <;> rfl

theorem maxPayload_le (t : RecordType) : maxPayload t ≤ maxTextBytes := by
  cases t <;> decide

theorem reads_body (h : wellFormed r = true) : Reads bodyReader (writeBody r) r := by
  simp only [wellFormed, Bool.and_eq_true, Bool.or_eq_true, decide_eq_true_eq, List.all_eq_true] at h
  obtain ⟨⟨⟨⟨⟨⟨⟨⟨⟨⟨hconv, hmsg⟩, hsender⟩, hrecipients⟩, hprev⟩, hcount⟩, hseen⟩, -⟩, hpayload⟩, -⟩,
    -⟩ := h
  have hpayload : r.payload.length ≤ maxTextBytes + 1 :=
    (hpayload.trans (maxPayload_le r.type)).trans (Nat.le_succ _)
  have hlen : (UInt32.ofNat r.seen.length).toNat = r.seen.length := by
    rw [UInt32.toNat_ofNat', Nat.mod_eq_of_lt]
    simp only [maxSeen] at hcount
    omega
  have hreads : Reads (seenReader recordVersion)
      (writeU32 (UInt32.ofNat r.seen.length) ++ (r.seen.map writeBlob).flatten) r.seen := by
    refine (reads_u32 _).bind <| .check (hlen.trans_le hcount) ?_
    rw [hlen]
    exact reads_blobs (fun b hb => (hseen b hb).le) (by decide)
  have hprev : r.ownPrev.length ≤ hashBytes := by
    rcases hprev with hprev | hprev <;> simp [hprev]
  exact (reads_u32 _).bind <| (reads_u32 _).bind <| .check (by decide) <|
    (reads_blob hconv.le (by decide)).bind <| (reads_blob hmsg.le (by decide)).bind <|
    (reads_blob hsender.le (by decide)).bind <| (reads_blob hrecipients.le (by decide)).bind <|
    (reads_u64 _).bind <| (reads_u32 _).bind <| (reads_blob hpayload (by decide)).bind <|
    (reads_blob hprev (by decide)).bind <| hreads.last <| .check (.inl (by decide)) <|
    (reads_lift (ofCode_code r.type)).last <| reads_pure r

theorem whole_rawReader {body signature : Bytes} {p : Bytes × Bytes}
    (hlen : (writeBlob body ++ writeBlob signature).length ≤ maxRecordBytes)
    (h : whole rawReader (writeBlob body ++ writeBlob signature) = some p) :
    p = (body, signature) := by
  simp only [writeBlob, List.length_append, length_writeU32] at hlen
  have hsize : maxRecordBytes < 2 ^ 32 := by decide
  have hbody : Reads (blob maxRecordBytes) (writeBlob body) body := reads_blob (by omega) hsize
  by_cases hsig : signature.length ≤ maxSignatureBytes
  · have hreads : Reads rawReader (writeBlob body ++ writeBlob signature) (body, signature) :=
      hbody.bind <| (reads_blob hsig (by decide)).last <| reads_pure _
    exact Option.some.inj (h.symm.trans hreads.whole_eq)
  · have hnone := readBlob_writeBlob_of_lt (not_le.1 hsig) (by omega) []
    rw [List.append_nil] at hnone
    have hrun : rawReader.run (writeBlob body ++ writeBlob signature) = none := by
      rw [rawReader, StateT.run_bind, hbody, Option.bind_eq_bind, Option.bind_some,
        StateT.run_bind]
      exact congrArg (· >>= _) hnone
    rw [whole, hrun] at h
    cases h

theorem parseRecord_eq_some (h : parseRecord C raw = some sr) :
    raw.length ≤ maxRecordBytes ∧ whole rawReader raw = some (sr.body, sr.signature) ∧
      whole bodyReader sr.body = some sr.record ∧ wellFormed sr.record = true ∧ sr.raw = raw ∧
      sr.entryHash = C.sha256 raw := by
  unfold parseRecord at h
  split_ifs at h with hlen
  obtain ⟨⟨body, signature⟩, hraw, h⟩ := Option.bind_eq_some_iff.1 h
  obtain ⟨record, hbody, h⟩ := Option.bind_eq_some_iff.1 h
  split_ifs at h with hwell
  obtain rfl := Option.some.inj h
  exact ⟨not_lt.1 hlen, hraw, hbody, hwell, rfl, rfl⟩

theorem signRecord_eq_ok (h : signRecord C r key = .ok raw) :
    wellFormed r = true ∧ ∃ signature, C.sign (signingInput (writeBody r)) key = .ok signature ∧
      raw = writeBlob (writeBody r) ++ writeBlob signature := by
  unfold signRecord at h
  split_ifs at h with hwell
  refine ⟨hwell, ?_⟩
  split at h
  · rename_i signature hsign
    exact ⟨signature, hsign, (Except.ok.inj h).symm⟩
  · exact nomatch h

theorem parseRecord_signed {signature : Bytes} (hwell : wellFormed r = true)
    (hsignature : signature.length ≤ maxSignatureBytes)
    (hsize : (writeBlob (writeBody r) ++ writeBlob signature).length ≤ maxRecordBytes) :
    parseRecord C (writeBlob (writeBody r) ++ writeBlob signature) = some
      { record := r, raw := writeBlob (writeBody r) ++ writeBlob signature,
        entryHash := C.sha256 (writeBlob (writeBody r) ++ writeBlob signature), body := writeBody r,
        signature } := by
  have hbody : (writeBody r).length ≤ maxRecordBytes := by
    rw [List.length_append, length_writeBlob] at hsize
    omega
  have hread : Reads rawReader (writeBlob (writeBody r) ++ writeBlob signature) (writeBody r, signature) :=
    (reads_blob hbody (by decide)).bind <| (reads_blob hsignature (by decide)).last <| reads_pure _
  rw [parseRecord, if_neg (not_lt.2 hsize), hread.whole_eq]
  simp only [Option.bind_eq_bind, Option.bind_some, (reads_body hwell).whole_eq, hwell, if_true]

theorem parseRecord_signRecord (h : signRecord C r key = .ok raw)
    (hparse : parseRecord C raw = some sr) :
    sr.record = r ∧ ∃ signature, C.sign (signingInput sr.body) key = .ok signature ∧
      sr.signature = signature := by
  obtain ⟨hwell, signature, hsign, rfl⟩ := signRecord_eq_ok h
  obtain ⟨hlen, hraw, hbody, -, -, -⟩ := parseRecord_eq_some hparse
  have hpair := whole_rawReader hlen hraw
  rw [Prod.mk.injEq] at hpair
  rw [hpair.1, (reads_body hwell).whole_eq, Option.some.injEq] at hbody
  exact ⟨hbody.symm, signature, hpair.1.symm ▸ hsign, hpair.2⟩

theorem parseAttachmentPayload_attachmentPayload {a : AttachmentInfo} {payload : Bytes}
    (h : attachmentPayload a = .ok payload) : parseAttachmentPayload payload = some a := by
  unfold attachmentPayload at h
  split_ifs at h with hvalid
  obtain rfl := Except.ok.inj h
  have hfields := hvalid
  simp only [validAttachment, Bool.and_eq_true, decide_eq_true_eq] at hfields
  obtain ⟨⟨⟨⟨⟨⟨⟨⟨⟨⟨⟨hid, hsha⟩, hrelay⟩, -⟩, hname⟩, -⟩, hcaption⟩, -⟩, -⟩, -⟩, haddress⟩, -⟩ := hfields
  have hreads : Reads attachmentPayloadReader _ a :=
    (reads_blob hid.le (by decide)).bind <| (reads_blob hname (by decide)).bind <|
    (reads_u64 _).bind <| (reads_blob hsha.le (by decide)).bind <| (reads_u64 _).bind <|
    (reads_blob haddress (by decide)).bind <| (reads_blob hrelay.le (by decide)).bind <|
    (reads_blob hcaption (by decide)).last <| reads_pure a
  have hlen : ¬(writeBlob a.fileId ++ (writeBlob a.name ++ (writeU64 a.size ++
      (writeBlob a.sha256 ++ (writeU64 a.expiresAt ++ (writeBlob a.relayAddress ++
        (writeBlob a.relayId ++ writeBlob a.caption))))))).length > maxAttachmentPayload := by
    simp only [writeBlob, List.length_append, length_writeU32, length_writeU64, maxAttachmentPayload]
    simp only [hashBytes, maxAttachmentNameBytes, maxRelayAddressBytes, maxAttachmentCaptionBytes] at *
    omega
  rw [parseAttachmentPayload, if_neg hlen, hreads.whole_eq, Option.filter_some, if_pos hvalid]

end Chat

end PqSuite
