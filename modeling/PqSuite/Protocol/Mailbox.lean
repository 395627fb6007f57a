import PqSuite.Lib.Reader
import PqSuite.Protocol.Archive

/-!
# Messages of a mailbox (`relay_protocol.h`)

How a session starts, what a relay delivers to the owner of a mailbox, and what the owner answers.
-/

namespace PqSuite.Relay

def sendTokenBytes : Nat := 32
def inviteBytes : Nat := 16
def envelopeIdBytes : Nat := 16
def minTtlSeconds : UInt32 := 1
def maxTtlSeconds : UInt32 := 30 * 24 * 3600
def maxEnvelopeBytes : Nat := 64 * 1024 + 4096
def maxAckIds : Nat := 256
def maxPrekeysPerPut : Nat := 12
def maxInviteStatusEntries : Nat := 4096
def nonceBytes : Nat := 32

/-! ## Starting a session -/

structure Hello where
  version : UInt32
  clientNonce : Bytes

/-- The relay's key, its proof that it holds it, and what a sign-in in this session has to sign. -/
structure HelloReply where
  relayPublicKey : Bytes
  signature : Bytes
  authChallenge : Bytes

def encodeHello (m : Hello) : Bytes := writeU32 m.version ++ writeBlob m.clientNonce

def decodeHello (bytes : Bytes) : Option Hello := do
  let (version, rest) ← readU32 bytes
  let (nonce, rest) ← fixedBlob rest nonceBytes
  if rest ≠ [] then none else return ⟨version, nonce⟩

def encodeHelloReply (m : HelloReply) : Bytes :=
  writeBlob m.relayPublicKey ++ writeBlob m.signature ++ writeBlob m.authChallenge

def decodeHelloReply (bytes : Bytes) : Option HelloReply := do
  let (key, rest) ← readBlob bytes maxKeyBlob
  let (signature, rest) ← readBlob rest maxKeyBlob
  let (challenge, rest) ← fixedBlob rest nonceBytes
  if rest ≠ [] then none else return ⟨key, signature, challenge⟩

def helloLabel : Bytes := ascii "pq-suite v3 relay hello"

def helloSigningInput (clientNonce relayId : Bytes) (version : UInt32) (authChallenge : Bytes) :
    Bytes :=
  writeString helloLabel ++ writeBlob relayId ++ writeU32 version ++ writeBlob clientNonce ++
    writeBlob authChallenge

/-! ## Delivery -/

structure StoredEnvelope where
  id : Bytes
  depositedAt : UInt64
  tokenHash : Digest
  envelope : Bytes
  deriving DecidableEq

def encodeStoredEnvelope (m : StoredEnvelope) : Bytes :=
  writeBlob m.id ++ writeU64 m.depositedAt ++ writeBlob m.tokenHash.1 ++ writeBlob m.envelope

def decodeStoredEnvelope (bytes : Bytes) : Option StoredEnvelope := do
  let (id, rest) ← fixedBlob bytes envelopeIdBytes
  let (at', rest) ← readU64 rest
  let (tokenHash, rest) ← fixedDigest rest
  let (envelope, rest) ← readBlob rest maxEnvelopeBytes
  if rest ≠ [] then none else return ⟨id, at', tokenHash, envelope⟩

def encodeIdList (ids : List Bytes) : Bytes :=
  writeU32 (UInt32.ofNat ids.length) ++ ids.flatMap writeBlob

def readFixedBlobs (size : Nat) : Nat → Bytes → Option (List Bytes × Bytes)
  | 0, bytes => some ([], bytes)
  | count + 1, bytes => do
    let (id, rest) ← fixedBlob bytes size
    let (ids, rest) ← readFixedBlobs size count rest
    return (id :: ids, rest)

def decodeIdList (bytes : Bytes) : Option (List Bytes) := do
  let (count, rest) ← readU32 bytes
  if count.toNat > maxAckIds then none else
  let (ids, rest) ← readFixedBlobs envelopeIdBytes count.toNat rest
  if rest ≠ [] then none else return ids

def encodeHashOp (tokenHash : Bytes) : Bytes := writeBlob tokenHash

def decodeHashOp (bytes : Bytes) : Option Digest := do
  let (hash, rest) ← fixedDigest bytes
  if rest ≠ [] then none else return hash

def encodeAuth (mailboxId signature : Bytes) : Bytes := writeBlob mailboxId ++ writeBlob signature

/-! ## Mailboxes and deposits -/

structure Register where
  invite : Bytes
  mailboxId : Bytes
  accessPublicKey : Bytes
  sendTokenHash : Digest
  signature : Bytes

def decodeRegister (bytes : Bytes) : Option Register := do
  let (invite, rest) ← fixedBlob bytes inviteBytes
  let (mailboxId, rest) ← fixedBlob rest mailboxIdBytes
  let (key, rest) ← readBlob rest maxKeyBlob
  let (tokenHash, rest) ← fixedDigest rest
  let (signature, rest) ← readBlob rest maxKeyBlob
  if rest ≠ [] then none else return ⟨invite, mailboxId, key, tokenHash, signature⟩

def encodeRegister (m : Register) : Bytes :=
  writeBlob m.invite ++ writeBlob m.mailboxId ++ writeBlob m.accessPublicKey ++
    writeBlob m.sendTokenHash.1 ++ writeBlob m.signature

def registerLabel : Bytes := ascii "pq-suite v3 relay register"

def registerSigningInput (relayId mailboxId accessPublicKey sendTokenHash : Bytes) : Bytes :=
  writeString registerLabel ++ writeBlob relayId ++ writeBlob mailboxId ++
    writeBlob accessPublicKey ++ writeBlob sendTokenHash

structure Deposit where
  mailboxId : Bytes
  sendToken : Bytes
  ttlSeconds : UInt32
  envelope : Bytes

def decodeDeposit (bytes : Bytes) : Option Deposit := do
  let (mailboxId, rest) ← fixedBlob bytes mailboxIdBytes
  let (token, rest) ← fixedBlob rest sendTokenBytes
  let (ttl, rest) ← readU32 rest
  let (envelope, rest) ← readBlob rest maxEnvelopeBytes
  if rest ≠ [] then none else return ⟨mailboxId, token, ttl, envelope⟩

def encodeDeposit (m : Deposit) : Bytes :=
  writeBlob m.mailboxId ++ writeBlob m.sendToken ++ writeU32 m.ttlSeconds ++ writeBlob m.envelope

structure InviteStatus where
  maxUnused : UInt32
  maxTotal : UInt32
  unused : List (Digest × UInt64)
  joined : List (Bytes × UInt64)

def encodeInviteStatus (m : InviteStatus) : Bytes :=
  writeU32 m.maxUnused ++ writeU32 m.maxTotal ++
    writeU32 (UInt32.ofNat m.unused.length) ++
    m.unused.flatMap (fun u => writeBlob u.1.1 ++ writeU64 u.2) ++
    writeU32 (UInt32.ofNat m.joined.length) ++
    m.joined.flatMap fun j => writeBlob j.1 ++ writeU64 j.2

def readUnused (bytes : Bytes) : Option ((Digest × UInt64) × Bytes) := do
  let (hash, rest) ← fixedDigest bytes
  let (expires, rest) ← readU64 rest
  return ((hash, expires), rest)

def readJoined (bytes : Bytes) : Option ((Bytes × UInt64) × Bytes) := do
  let (id, rest) ← fixedBlob bytes mailboxIdBytes
  let (at', rest) ← readU64 rest
  return ((id, at'), rest)

def decodeInviteStatus (bytes : Bytes) : Option InviteStatus := do
  let (maxUnused, rest) ← readU32 bytes
  let (maxTotal, rest) ← readU32 rest
  let (count, rest) ← readU32 rest
  if count.toNat > maxInviteStatusEntries then none else
  let (unused, rest) ← Reader.many count.toNat readUnused rest
  let (count, rest) ← readU32 rest
  if count.toNat > maxInviteStatusEntries then none else
  let (joined, rest) ← Reader.many count.toNat readJoined rest
  if rest ≠ [] then none else return ⟨maxUnused, maxTotal, unused, joined⟩

/-! ## Prekeys -/

def prekeyIdBytes : Nat := 16
def prekeyGenerationBytes : Nat := 16
def maxPrekeyBytes : Nat := 8192

/-- A prekey as its owner uploads it: an encoded and signed blob. -/
structure PrekeyEntry where
  id : Bytes
  lastResort : Bool
  blob : Bytes
  deriving DecidableEq

structure PrekeyPut where
  replace : Bool
  generation : Bytes
  prekeys : List PrekeyEntry

structure PrekeyStatus where
  oneTime : UInt32
  lastResort : Bool
  /-- Empty if the mailbox never had any. -/
  generation : Bytes
  deriving DecidableEq

/-- What `decode_prekey_put` asks of the prekeys of one message beyond their sizes. -/
def PrekeyPut.wellFormed (m : PrekeyPut) : Bool :=
  m.prekeys.length ≤ maxPrekeysPerPut ∧ (m.prekeys.map (·.id)).Nodup ∧
    (m.prekeys.filter (·.lastResort)).length ≤ 1

def readPrekeys : Nat → Bytes → Option (List PrekeyEntry × Bytes)
  | 0, bytes => some ([], bytes)
  | count + 1, bytes => do
    let (id, rest) ← fixedBlob bytes prekeyIdBytes
    let (flag, rest) ← readU32 rest
    let (blob, rest) ← readBlob rest maxPrekeyBytes
    if flag > 1 ∨ blob = [] then none else
    let (prekeys, rest) ← readPrekeys count rest
    return (⟨id, flag = 1, blob⟩ :: prekeys, rest)

def decodePrekeyPut (bytes : Bytes) : Option PrekeyPut := do
  let (replace, rest) ← readU32 bytes
  let (generation, rest) ← fixedBlob rest prekeyGenerationBytes
  let (count, rest) ← readU32 rest
  if replace > 1 ∨ count.toNat > maxPrekeysPerPut then none else
  let (prekeys, rest) ← readPrekeys count.toNat rest
  let m : PrekeyPut := ⟨replace = 1, generation, prekeys⟩
  if rest ≠ [] ∨ m.wellFormed = false then none else return m

def encodePrekeyPut (m : PrekeyPut) : Bytes :=
  writeU32 (if m.replace then 1 else 0) ++ writeBlob m.generation ++
    writeU32 (UInt32.ofNat m.prekeys.length) ++
    m.prekeys.flatMap fun p =>
      writeBlob p.id ++ writeU32 (if p.lastResort then 1 else 0) ++ writeBlob p.blob

structure PrekeyTake where
  mailboxId : Bytes
  sendToken : Bytes

def decodePrekeyTake (bytes : Bytes) : Option PrekeyTake := do
  let (mailboxId, rest) ← fixedBlob bytes mailboxIdBytes
  let (token, rest) ← fixedBlob rest sendTokenBytes
  if rest ≠ [] then none else return ⟨mailboxId, token⟩

def encodePrekeyTake (m : PrekeyTake) : Bytes := writeBlob m.mailboxId ++ writeBlob m.sendToken

structure PrekeyData where
  lastResort : Bool
  blob : Bytes

def encodePrekeyData (lastResort : Bool) (blob : Bytes) : Bytes :=
  writeU32 (if lastResort then 1 else 0) ++ writeBlob blob

def decodePrekeyData (bytes : Bytes) : Option PrekeyData := do
  let (flag, rest) ← readU32 bytes
  let (blob, rest) ← readBlob rest maxPrekeyBytes
  if flag > 1 ∨ blob = [] ∨ rest ≠ [] then none else return ⟨flag = 1, blob⟩

def encodePrekeyStatus (m : PrekeyStatus) : Bytes :=
  writeU32 m.oneTime ++ writeU32 (if m.lastResort then 1 else 0) ++ writeBlob m.generation

def decodePrekeyStatus (bytes : Bytes) : Option PrekeyStatus := do
  let (oneTime, rest) ← readU32 bytes
  let (flag, rest) ← readU32 rest
  let (generation, rest) ← readBlob rest prekeyGenerationBytes
  if flag > 1 ∨ (generation ≠ [] ∧ generation.length ≠ prekeyGenerationBytes) ∨ rest ≠ [] then none
  else return ⟨oneTime, flag = 1, generation⟩

end PqSuite.Relay
