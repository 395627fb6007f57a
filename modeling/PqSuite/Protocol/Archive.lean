import PqSuite.Protocol.Wire

/-!
# Archive messages of `relay_protocol.cpp`

The payloads a member and the relay exchange about a chat's archive, with the byte strings that are
hashed into its chain. A decoded payload is a structure that carries the limits its decoder checked,
so a value of the type is one the decoder can return.
-/

namespace PqSuite.Relay

/-! ## Sizes and limits -/

def hashBytes : Nat := 32
def mailboxIdBytes : Nat := 16
def archiveIdBytes : Nat := 16
def joinTokenBytes : Nat := 32
def opIdBytes : Nat := 16
def maxKeyBlob : Nat := 8192
def maxArchiveMembers : Nat := 16
def maxArchiveEntryBytes : Nat := 64 * 1024
def maxFetchEntries : Nat := 256
def maxDeleteEntries : Nat := 64

/-- What SHA-256 returns. -/
abbrev Digest := { b : Bytes // b.length = hashBytes }

/-- A checksum with the size of a SHA-256 value, to evaluate the model at concrete inputs. -/
def byteSum (b : Bytes) : Digest := ⟨List.replicate 31 0 ++ [b.foldl (· + ·) 0], rfl⟩

/-! ## What is hashed and signed -/

def archiveGenesisLabel : Bytes := ascii "pq-suite v3 archive genesis"
def archiveEntryLabel : Bytes := ascii "pq-suite v3 archive entry"
def archiveJoinLabel : Bytes := ascii "pq-suite v3 archive join"
def archiveAuthLabel : Bytes := ascii "pq-suite v3 archive auth"
def archiveDeleteLabel : Bytes := ascii "pq-suite v3 archive delete"
def authLabel : Bytes := ascii "pq-suite v3 relay auth"

def archiveGenesisInput (archiveId : Bytes) : Bytes :=
  writeString archiveGenesisLabel ++ writeBlob archiveId

def archiveEntryHashInput (archiveId : Bytes) (number : UInt64) (previousHash : Digest)
    (ciphertext : Bytes) : Bytes :=
  writeString archiveEntryLabel ++ writeBlob archiveId ++ writeU64 number ++
    writeBlob previousHash.1 ++ writeBlob ciphertext

def archiveJoinSigningInput (relayId archiveId publicKey joinTokenHash : Bytes) : Bytes :=
  writeString archiveJoinLabel ++ writeBlob relayId ++ writeBlob archiveId ++
    writeBlob publicKey ++ writeBlob joinTokenHash

def archiveAuthSigningInput (authChallenge relayId archiveId keyHash : Bytes) : Bytes :=
  writeString archiveAuthLabel ++ writeBlob relayId ++ writeBlob archiveId ++
    writeBlob keyHash ++ writeBlob authChallenge

def archiveDeleteSigningInput (relayId archiveId : Bytes) (scope : UInt32) (opId : Bytes)
    (expiresAt : UInt64) (entryHashes : List Bytes) : Bytes :=
  writeString archiveDeleteLabel ++ writeBlob relayId ++ writeBlob archiveId ++ writeU32 scope ++
    writeBlob opId ++ writeU64 expiresAt ++ writeU32 (UInt32.ofNat entryHashes.length) ++
    entryHashes.flatMap writeBlob

def authSigningInput (authChallenge relayId mailboxId : Bytes) : Bytes :=
  writeString authLabel ++ writeBlob relayId ++ writeBlob mailboxId ++ writeBlob authChallenge

/-- Which fields of two entry hash inputs agree when the inputs do. -/
theorem archiveEntryHashInput_inj {id id' c c' : Bytes} {p p' : Digest} {n n' : UInt64}
    (hid : id.length = id'.length)
    (hc : c.length ≤ maxArchiveEntryBytes) (hc' : c'.length ≤ maxArchiveEntryBytes)
    (h : archiveEntryHashInput id n p c = archiveEntryHashInput id' n' p' c') :
    id = id' ∧ n = n' ∧ p = p' ∧ c = c' := by
  simp only [archiveEntryHashInput, List.append_assoc] at h
  obtain ⟨hid', h₁⟩ := writeBlob_append_inj_of_length_eq hid (List.append_cancel_left h)
  obtain ⟨hn, h₂⟩ := writeU64_append_inj h₁
  obtain ⟨hp', h₃⟩ := writeBlob_append_inj_of_length_eq (p.2.trans p'.2.symm) h₂
  have hmax : maxArchiveEntryBytes < 2 ^ 32 := by decide
  rw [← List.append_nil (writeBlob c), ← List.append_nil (writeBlob c')] at h₃
  obtain ⟨hc₀, -⟩ := writeBlob_append_inj (hc.trans_lt hmax) (hc'.trans_lt hmax) h₃
  exact ⟨hid', hn, Subtype.ext hp', hc₀⟩

/-! ## Payloads -/

/-- A chat owner's request to make an archive, with one join token hash per member. -/
structure ArchiveCreate where
  archiveId : Bytes
  joinTokenHashes : List Digest

/-- A member's request to register a key with the join token they were given. -/
structure ArchiveJoin where
  archiveId : Bytes
  joinToken : Bytes
  publicKey : Bytes
  signature : Bytes

structure ArchiveAuth where
  archiveId : Bytes
  keyHash : Digest
  signature : Bytes

structure Auth where
  mailboxId : Bytes
  signature : Bytes

/-- An entry to append, with the head its sender believes is current. -/
structure ArchiveAppend where
  expectedNumber : UInt64
  expectedHash : Digest
  ciphertext : Bytes
  ciphertext_ne_nil : ciphertext ≠ []
  ciphertext_size : ciphertext.length ≤ maxArchiveEntryBytes

/-- The answer to an append or the end of a fetch. -/
structure ArchiveHead where
  number : UInt64
  hash : Digest
  deriving DecidableEq

/-- A request for up to `limit` entries from `fromNumber` on. -/
structure ArchiveFetch where
  fromNumber : UInt64
  limit : UInt32

structure ArchiveEntry where
  number : UInt64
  hash : Digest
  ciphertext : Bytes
  tombstone : Bool
  ciphertext_size : ciphertext.length ≤ maxArchiveEntryBytes
  /-- An entry has content, or it is a tombstone and has none: never both, never neither. -/
  empty_iff : ciphertext = [] ↔ tombstone = true

inductive DeleteScope where
  | chat
  | entries
  deriving DecidableEq

def DeleteScope.toU32 : DeleteScope → UInt32
  | .chat => 1
  | .entries => 2

/-- How many entries an order of this scope may name: none for the whole chat. -/
def DeleteScope.allows : DeleteScope → Nat → Bool
  | .chat, n => n = 0
  | .entries, n => 1 ≤ n ∧ n ≤ maxDeleteEntries

/-- One member's signature on a deletion order. -/
structure ArchiveSignature where
  keyHash : Digest
  signature : Bytes

structure ArchiveDelete where
  scope : DeleteScope
  opId : Bytes
  expiresAt : UInt64
  entryHashes : List Digest
  signatures : List ArchiveSignature
  entryHashes_scope : scope.allows entryHashes.length = true
  entryHashes_nodup : entryHashes.Nodup
  signatures_size : 1 ≤ signatures.length ∧ signatures.length ≤ maxArchiveMembers
  /-- One signature per key. -/
  keys_nodup : (signatures.map ArchiveSignature.keyHash).Nodup

/-! ## Encoding and decoding -/

def encodeArchiveHead (m : ArchiveHead) : Bytes := writeU64 m.number ++ writeBlob m.hash.1

def encodeArchiveEntry (number : UInt64) (hash : Digest) (ciphertext : Bytes) (tombstone : Bool) :
    Bytes :=
  writeU64 number ++ writeBlob hash.1 ++ writeBlob ciphertext ++ writeU32 (if tombstone then 1 else 0)

def encodeArchiveCreate (m : ArchiveCreate) : Bytes :=
  writeBlob m.archiveId ++ writeU32 (UInt32.ofNat m.joinTokenHashes.length) ++
    m.joinTokenHashes.flatMap fun h => writeBlob h.1

def encodeArchiveJoin (m : ArchiveJoin) : Bytes :=
  writeBlob m.archiveId ++ writeBlob m.joinToken ++ writeBlob m.publicKey ++ writeBlob m.signature

def encodeArchiveAuth (m : ArchiveAuth) : Bytes :=
  writeBlob m.archiveId ++ writeBlob m.keyHash.1 ++ writeBlob m.signature

def encodeArchiveAppend (m : ArchiveAppend) : Bytes :=
  writeU64 m.expectedNumber ++ writeBlob m.expectedHash.1 ++ writeBlob m.ciphertext

def encodeArchiveFetch (m : ArchiveFetch) : Bytes := writeU64 m.fromNumber ++ writeU32 m.limit

def encodeArchiveDelete (m : ArchiveDelete) : Bytes :=
  writeU32 m.scope.toU32 ++ writeBlob m.opId ++ writeU64 m.expiresAt ++
    writeU32 (UInt32.ofNat m.entryHashes.length) ++ m.entryHashes.flatMap (fun h => writeBlob h.1) ++
    writeU32 (UInt32.ofNat m.signatures.length) ++
    m.signatures.flatMap fun s => writeBlob s.keyHash.1 ++ writeBlob s.signature

/-- A blob that must be exactly `size` bytes. -/
def fixedBlob (bytes : Bytes) (size : Nat) : Option (Bytes × Bytes) := do
  let (blob, rest) ← readBlob bytes size
  if blob.length ≠ size then none else some (blob, rest)

def fixedDigest (bytes : Bytes) : Option (Digest × Bytes) := do
  let (blob, rest) ← readBlob bytes hashBytes
  if h : blob.length = hashBytes then some (⟨blob, h⟩, rest) else none

/-- `count` hashes in a row. -/
def readDigests : Nat → Bytes → Option (List Digest × Bytes)
  | 0, bytes => some ([], bytes)
  | count + 1, bytes => do
    let (h, rest) ← fixedDigest bytes
    let (hs, rest) ← readDigests count rest
    return (h :: hs, rest)

def readSignatures : Nat → Bytes → Option (List ArchiveSignature × Bytes)
  | 0, bytes => some ([], bytes)
  | count + 1, bytes => do
    let (keyHash, rest) ← fixedDigest bytes
    let (signature, rest) ← readBlob rest maxKeyBlob
    if signature = [] then none else
    let (sigs, rest) ← readSignatures count rest
    return (⟨keyHash, signature⟩ :: sigs, rest)

def decodeArchiveCreate (bytes : Bytes) : Option ArchiveCreate := do
  let (archiveId, rest) ← fixedBlob bytes archiveIdBytes
  let (count, rest) ← readU32 rest
  if count.toNat < 1 ∨ count.toNat > maxArchiveMembers then none else
  let (hashes, rest) ← readDigests count.toNat rest
  if rest ≠ [] then none else return ⟨archiveId, hashes⟩

def decodeArchiveJoin (bytes : Bytes) : Option ArchiveJoin := do
  let (archiveId, rest) ← fixedBlob bytes archiveIdBytes
  let (token, rest) ← fixedBlob rest joinTokenBytes
  let (key, rest) ← readBlob rest maxKeyBlob
  let (signature, rest) ← readBlob rest maxKeyBlob
  if rest ≠ [] then none else return ⟨archiveId, token, key, signature⟩

def decodeArchiveAuth (bytes : Bytes) : Option ArchiveAuth := do
  let (archiveId, rest) ← fixedBlob bytes archiveIdBytes
  let (keyHash, rest) ← fixedDigest rest
  let (signature, rest) ← readBlob rest maxKeyBlob
  if rest ≠ [] then none else return ⟨archiveId, keyHash, signature⟩

def decodeAuth (bytes : Bytes) : Option Auth := do
  let (mailboxId, rest) ← fixedBlob bytes mailboxIdBytes
  let (signature, rest) ← readBlob rest maxKeyBlob
  if rest ≠ [] then none else return ⟨mailboxId, signature⟩

theorem length_of_fixedBlob {bytes blob rest : Bytes} {size : Nat}
    (h : fixedBlob bytes size = some (blob, rest)) : blob.length = size := by
  unfold fixedBlob at h
  obtain ⟨⟨b, r⟩, -, h⟩ := Option.bind_eq_some_iff.1 h
  simp only at h
  split_ifs at h with hlen
  obtain ⟨rfl, rfl⟩ := Prod.mk.inj (Option.some.inj h)
  exact not_not.1 hlen

theorem length_mailboxId_of_decodeAuth {bytes : Bytes} {m : Auth} (h : decodeAuth bytes = some m) :
    m.mailboxId.length = mailboxIdBytes := by
  unfold decodeAuth at h
  obtain ⟨⟨mailboxId, rest⟩, hid, h⟩ := Option.bind_eq_some_iff.1 h
  obtain ⟨⟨signature, rest'⟩, -, h⟩ := Option.bind_eq_some_iff.1 h
  simp only at h
  split_ifs at h
  obtain rfl := Option.some.inj h
  exact length_of_fixedBlob hid

def decodeArchiveAppend (bytes : Bytes) : Option ArchiveAppend := do
  let (number, rest) ← readU64 bytes
  let (hash, rest) ← fixedDigest rest
  let (ciphertext, rest) ← readBlob rest maxArchiveEntryBytes
  if h : ciphertext ≠ [] ∧ ciphertext.length ≤ maxArchiveEntryBytes ∧ rest = [] then
    return ⟨number, hash, ciphertext, h.1, h.2.1⟩
  else none

def decodeArchiveHead (bytes : Bytes) : Option ArchiveHead := do
  let (number, rest) ← readU64 bytes
  let (hash, rest) ← fixedDigest rest
  if rest ≠ [] then none else return ⟨number, hash⟩

def decodeArchiveFetch (bytes : Bytes) : Option ArchiveFetch := do
  let (fromNumber, rest) ← readU64 bytes
  let (limit, rest) ← readU32 rest
  if fromNumber < 1 ∨ limit.toNat < 1 ∨ limit.toNat > maxFetchEntries ∨ rest ≠ [] then none
  else return ⟨fromNumber, limit⟩

def decodeArchiveEntry (bytes : Bytes) : Option ArchiveEntry := do
  let (number, rest) ← readU64 bytes
  let (hash, rest) ← fixedDigest rest
  let (ciphertext, rest) ← readBlob rest maxArchiveEntryBytes
  let (tombstone, rest) ← readU32 rest
  if tombstone > 1 ∨ rest ≠ [] then none
  else if h : ciphertext.length ≤ maxArchiveEntryBytes ∧
      (ciphertext = [] ↔ decide (tombstone = 1) = true) then
    return ⟨number, hash, ciphertext, decide (tombstone = 1), h.1, h.2⟩
  else none

def decodeArchiveDelete (bytes : Bytes) : Option ArchiveDelete := do
  let (scope, rest) ← readU32 bytes
  let (opId, rest) ← fixedBlob rest opIdBytes
  let (expiresAt, rest) ← readU64 rest
  let (hashes, rest) ← readU32 rest
  let scope ← if scope = 1 then some DeleteScope.chat
    else if scope = 2 then some DeleteScope.entries else none
  let (entryHashes, rest) ← readDigests hashes.toNat rest
  let (sigs, rest) ← readU32 rest
  let (signatures, rest) ← readSignatures sigs.toNat rest
  if rest ≠ [] then none
  else if h : scope.allows entryHashes.length = true ∧ entryHashes.Nodup ∧
      (1 ≤ signatures.length ∧ signatures.length ≤ maxArchiveMembers) ∧
      (signatures.map ArchiveSignature.keyHash).Nodup then
    return ⟨scope, opId, expiresAt, entryHashes, signatures, h.1, h.2.1, h.2.2.1, h.2.2.2⟩
  else none

end PqSuite.Relay
