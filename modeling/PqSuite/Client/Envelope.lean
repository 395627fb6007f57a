import PqSuite.Client.ControlRecords
import PqSuite.Client.KeyStore
import PqSuite.Client.PrekeyVault
import PqSuite.Protocol.Codecs

/-!
# The sealed envelope (`envelope.cpp`)

An envelope is a header in the clear and the content under a key that only its recipient can work out.
The content is padded with zeros to one of four sizes. ML-KEM, X25519 and AES-GCM come from libraries;
`EnvelopeCrypto` states what is used of them, and what is drawn at random comes from outside.
-/

namespace PqSuite

open Reader

/-- The primitives of an envelope, taken as correct. -/
structure EnvelopeCrypto extends SecretCrypto where
  kemPublicKeySize : ℕ
  kemCiphertextSize : ℕ
  encapsulate : (publicKey coins : Bytes) → Except String (Bytes × Bytes)
  decapsulate : (ciphertext privateKey : Bytes) → Except String Bytes
  generateX25519 : (coins : Bytes) → Bytes × Bytes
  x25519Shared : (privateKey peerPublicKey : Bytes) → Except String Bytes
  hkdfSha256 : (ikm salt info : Bytes) → ℕ → Bytes
  sha256 : Bytes → Bytes
  KemPair : (publicKey privateKey : Bytes) → Prop
  X25519Pair : (publicKey privateKey : Bytes) → Prop
  /-- That of ML-KEM-768. -/
  kem_ciphertext_size : kemCiphertextSize = 1088
  encapsulate_size : ∀ pk r ct ss, encapsulate pk r = .ok (ct, ss) → ct.length = kemCiphertextSize
  decapsulate_encapsulate : ∀ pk sk r ct ss, KemPair pk sk → encapsulate pk r = .ok (ct, ss) →
    decapsulate ct sk = .ok ss
  x25519_pair : ∀ r, X25519Pair (generateX25519 r).1 (generateX25519 r).2
  x25519_public_size : ∀ r, (generateX25519 r).1.length = 32
  x25519_shared_comm : ∀ pk sk pk' sk' x, X25519Pair pk sk → X25519Pair pk' sk' →
    x25519Shared sk pk' = .ok x → x25519Shared sk' pk = .ok x

namespace Envelope

def envelopeVersion : UInt32 := 1
def envelopeVersion2 : UInt32 := 2
def innerVersion : UInt32 := 3
def minInnerVersion : UInt32 := 1
def aadLabel : Bytes := ascii "pq-suite v3 envelope"
def keyInfo : Bytes := ascii "pq-suite v3 envelope key"
def keyInfo2 : Bytes := ascii "pq-suite v3 envelope key v2"
def buckets : List ℕ := [1024, 4096, 16384, 65536]

def maxRecordsPerEnvelope : ℕ := 16
def maxBundleBytes : ℕ := 16 * 1024
def maxIntroducedPerEnvelope : ℕ := 15
def maxGrantsPerEnvelope : ℕ := 4
def maxRecordBytes : ℕ := 64 * 1024
def prekeyIdBytes : ℕ := 16
def x25519Bytes : ℕ := 32

def headerBytes (kemCiphertext nonce : Bytes) : Bytes :=
  writeU32 envelopeVersion ++ (writeBlob kemCiphertext ++ writeBlob nonce)

def aadFor (header : Bytes) : Bytes := writeString aadLabel ++ header

def headerBytes2 (kemCiphertext prekeyId prekeyCiphertext ephemeralPublic nonce : Bytes) : Bytes :=
  writeU32 envelopeVersion2 ++ (writeBlob kemCiphertext ++ (writeBlob prekeyId ++
    (writeBlob prekeyCiphertext ++ (writeBlob ephemeralPublic ++ writeBlob nonce))))

def deriveKey2 (C : EnvelopeCrypto) (longTerm prekeySecret x25519Secret header : Bytes) : Bytes :=
  C.hkdfSha256 (longTerm ++ prekeySecret ++ x25519Secret) (C.sha256 header) keyInfo2 32

def deriveKey (C : EnvelopeCrypto) (sharedSecret header : Bytes) : Bytes :=
  C.hkdfSha256 sharedSecret (C.sha256 header) keyInfo 32

/-! ## The content -/

structure Inner where
  senderBundle : Bytes := []
  records : List Bytes
  introduced : List Bytes := []
  grants : List AttachmentGrant := []
  deriving DecidableEq

variable {encoded : Bytes} {bucket : ℕ} {inner : Inner}

def writeGrant (g : AttachmentGrant) : Bytes := encodeGrant g.fileId g.key g.token

/-- A grant of the wrong size cannot be made here; the source refuses it. -/
def encodeInner (inner : Inner) : Except String Bytes :=
  if inner.senderBundle.length > maxBundleBytes then .error "The sender bundle is too large"
  else if inner.introduced.length > maxIntroducedPerEnvelope then
    .error "Too many introduced bundles in one envelope"
  else if inner.introduced.any (·.length > maxBundleBytes) then
    .error "An introduced bundle is too large"
  else if inner.records.length > maxRecordsPerEnvelope then .error "Too many records in one envelope"
  else if inner.grants.length > maxGrantsPerEnvelope then
    .error "Too many attachment grants in one envelope"
  else if ¬(inner.grants.map (·.fileId)).Nodup then .error "Two attachment grants name the same file"
  else
    .ok (writeU32 (if inner.grants = [] then 2 else 3) ++ (writeBlob inner.senderBundle ++
      (writeU32 (UInt32.ofNat inner.introduced.length) ++ ((inner.introduced.map writeBlob).flatten ++
      ((if inner.grants = [] then []
        else writeU32 (UInt32.ofNat inner.grants.length) ++ (inner.grants.map writeGrant).flatten) ++
      (writeU32 (UInt32.ofNat inner.records.length) ++ (inner.records.map writeBlob).flatten))))))

def readGrant : Reader UInt8 AttachmentGrant := do
  let (fileId, key, token) ← grantReader
  if h : fileId.length = 16 ∧ key.length = 32 ∧ token.length = 32 then
    return ⟨fileId, key, token, h.1, h.2.1, h.2.2⟩
  else failure

/-- As many grants more, each for a file that none before it is for. -/
def readGrants : ℕ → List AttachmentGrant → Reader UInt8 (List AttachmentGrant)
  | 0, before => pure before
  | n + 1, before => do
    let g ← readGrant
    guard (∀ other ∈ before, other.fileId ≠ g.fileId)
    readGrants n (before ++ [g])

def readIntroduced : Reader UInt8 (List Bytes) := do
  let introduced ← u32
  guard (introduced.toNat ≤ maxIntroducedPerEnvelope)
  many introduced.toNat (blob maxBundleBytes)

/-- Version 3 means there are some grants. -/
def readAllGrants : Reader UInt8 (List AttachmentGrant) := do
  let grants ← u32
  guard (1 ≤ grants.toNat ∧ grants.toNat ≤ maxGrantsPerEnvelope)
  readGrants grants.toNat []

def innerReader : Reader UInt8 Inner := do
  let version ← u32
  guard (minInnerVersion ≤ version ∧ version ≤ innerVersion)
  let senderBundle ← blob maxBundleBytes
  let introduced ← if 2 ≤ version then readIntroduced else pure []
  let grants ← if 3 ≤ version then readAllGrants else pure []
  let count ← u32
  guard (count.toNat ≤ maxRecordsPerEnvelope)
  let records ← many count.toNat (blob maxRecordBytes)
  return { senderBundle, records, introduced, grants }

def decodeInner (b : Bytes) : Option Inner := whole innerReader b

/-! ## Sealing -/

/-- What is drawn for one envelope: the coins of the encapsulations and of the one-time key, and a nonce. -/
structure SealCoins where
  encapsulation : Bytes
  oneTime : Bytes
  ephemeral : Bytes
  nonce : Bytes
  nonce_size : nonce.length = 12

/-- The smallest size that is large enough. -/
def bucketFor (needed : ℕ) : Option ℕ := buckets.find? (needed ≤ ·)

def pad (encoded : Bytes) (bucket : ℕ) : Bytes :=
  let plaintext := writeU32 (UInt32.ofNat encoded.length) ++ encoded
  plaintext ++ List.replicate (bucket - plaintext.length) 0

variable (C : EnvelopeCrypto)

def sealHeader (recipientPublicKey : Bytes) (prekey : Option Prekey) (coins : SealCoins) :
    Except String (Bytes × Bytes) :=
  match C.encapsulate recipientPublicKey coins.encapsulation with
  | .error e => .error e
  | .ok (kemCiphertext, sharedSecret) =>
    match prekey with
    | none =>
      let header := headerBytes kemCiphertext coins.nonce
      .ok (header, deriveKey C sharedSecret header)
    | some prekey =>
      if prekey.id.length ≠ prekeyIdBytes ∨ prekey.kemPublic.length ≠ C.kemPublicKeySize ∨
          prekey.x25519Public.length ≠ x25519Bytes then .error "That prekey is not valid"
      else
        match C.encapsulate prekey.kemPublic coins.oneTime with
        | .error e => .error e
        | .ok (prekeyCiphertext, prekeySecret) =>
          let ephemeral := C.generateX25519 coins.ephemeral
          match C.x25519Shared ephemeral.2 prekey.x25519Public with
          | .error e => .error e
          | .ok x =>
            let header := headerBytes2 kemCiphertext prekey.id prekeyCiphertext ephemeral.1 coins.nonce
            .ok (header, deriveKey2 C sharedSecret prekeySecret x header)

def sealBytes (inner : Inner) (recipientPublicKey : Bytes) (prekey : Option Prekey)
    (coins : SealCoins) : Except String Bytes :=
  match encodeInner inner with
  | .error e => .error e
  | .ok encoded =>
    match bucketFor (4 + encoded.length) with
    | none => .error "That message is too large to send"
    | some bucket =>
      match sealHeader C recipientPublicKey prekey coins with
      | .error e => .error e
      | .ok (header, key) =>
        .ok (header ++ writeBlob (C.encrypt key coins.nonce (pad encoded bucket) (aadFor header)))

def sealEnvelope (inner : Inner) (recipientPublicKey : Bytes) (prekey : Option Prekey)
    (coins : SealCoins) : Except String Bytes :=
  match sealBytes C inner recipientPublicKey prekey coins with
  | .error e => .error e
  | .ok envelope =>
    if envelope.length > Relay.maxEnvelopeBytes then .error "That message is too large to send"
    else .ok envelope

/-! ## Opening -/

def envelopePrekeyId (envelope : Bytes) : Option Bytes := do
  let (version, rest) ← readU32 envelope
  if version ≠ envelopeVersion2 then none
  else
    let (_, rest) ← readBlob rest 4096
    let (id, _) ← readBlob rest prekeyIdBytes
    if id.length ≠ prekeyIdBytes then none else some id

structure OneTimePart where
  prekeyId : Bytes
  prekeyCiphertext : Bytes
  ephemeral : Bytes

structure HeaderParts where
  kemCiphertext : Bytes
  oneTime : Option OneTimePart
  nonce : Bytes

def oneTimeReader : Reader UInt8 OneTimePart := do
  let prekeyId ← blob prekeyIdBytes
  let prekeyCiphertext ← blob 4096
  let ephemeral ← blob x25519Bytes
  guard (prekeyId.length = prekeyIdBytes ∧ prekeyCiphertext.length = C.kemCiphertextSize ∧
    ephemeral.length = x25519Bytes)
  return { prekeyId, prekeyCiphertext, ephemeral }

/-- Only version 2 has that part. -/
def readOneTime (version : UInt32) : Reader UInt8 (Option OneTimePart) :=
  if version = envelopeVersion2 then some <$> oneTimeReader C else pure none

def headerReader : Reader UInt8 HeaderParts := do
  let version ← u32
  guard (version = envelopeVersion ∨ version = envelopeVersion2)
  let kemCiphertext ← blob 4096
  guard (kemCiphertext.length = C.kemCiphertextSize)
  let oneTime ← readOneTime C version
  let nonce ← blob 12
  guard (nonce.length = 12)
  return { kemCiphertext, oneTime, nonce }

def readEnvelope (envelope : Bytes) : Option (HeaderParts × Bytes × Bytes) := do
  let (parts, rest) ← (headerReader C).run envelope
  let header := envelope.take (envelope.length - rest.length)
  let (ciphertext, rest) ← readBlob rest Relay.maxEnvelopeBytes
  if rest ≠ [] then none else some (parts, header, ciphertext)

/-- The private half of a prekey by its ID, if the device still has it. -/
abbrev PrekeyLookup := Bytes → Option PrekeySecret

def openKey (privateKey : Bytes) (lookup : PrekeyLookup) (parts : HeaderParts) (header : Bytes) :
    Option Bytes := do
  let shared ← (C.decapsulate parts.kemCiphertext privateKey).toOption
  match parts.oneTime with
  | none => some (deriveKey C shared header)
  | some p =>
    let secret ← lookup p.prekeyId
    let oneTime ← (C.decapsulate p.prekeyCiphertext secret.kemPrivate).toOption
    let x ← (C.x25519Shared secret.x25519Private p.ephemeral).toOption
    some (deriveKey2 C shared oneTime x header)

/-- What the ciphertext holds, and the prekey it took. -/
def openPlaintext (envelope privateKey : Bytes) (lookup : PrekeyLookup) :
    Option (Bytes × Option Bytes) := do
  let (parts, header, ciphertext) ← readEnvelope C envelope
  let key ← openKey C privateKey lookup parts header
  let plaintext ← C.decrypt key parts.nonce ciphertext (aadFor header)
  some (plaintext, parts.oneTime.map (·.prekeyId))

def unpad (p : Bytes) : Option Bytes :=
  if p.length ∉ buckets then none
  else do
    let (length, rest) ← readU32 p
    if length.toNat > rest.length then none
    -- padding is all zeros
    else if (rest.drop length.toNat).any (· ≠ 0) then none
    else some (rest.take length.toNat)

/-- The content, and the prekey that was used, which is set as soon as the ciphertext is open. -/
def openEnvelope (envelope privateKey : Bytes) (lookup : PrekeyLookup) : Option Inner × Option Bytes :=
  match openPlaintext C envelope privateKey lookup with
  | none => (none, none)
  | some (plaintext, usedPrekeyId) => ((unpad plaintext).bind decodeInner, usedPrekeyId)

/-! ## The content is read back -/

/-- What `encode_inner` checks. -/
structure Fits (inner : Inner) : Prop where
  senderBundle : inner.senderBundle.length ≤ maxBundleBytes
  introducedCount : inner.introduced.length ≤ maxIntroducedPerEnvelope
  introduced : ∀ b ∈ inner.introduced, b.length ≤ maxBundleBytes
  records : inner.records.length ≤ maxRecordsPerEnvelope
  grants : inner.grants.length ≤ maxGrantsPerEnvelope
  files : (inner.grants.map (·.fileId)).Nodup

def grantsBytes (grants : List AttachmentGrant) : Bytes :=
  if grants = [] then []
  else writeU32 (UInt32.ofNat grants.length) ++ (grants.map writeGrant).flatten

theorem encodeInner_ok (h : encodeInner inner = .ok encoded) :
    Fits inner ∧ encoded = writeU32 (if inner.grants = [] then 2 else 3) ++
      (writeBlob inner.senderBundle ++ (writeU32 (UInt32.ofNat inner.introduced.length) ++
      ((inner.introduced.map writeBlob).flatten ++ (grantsBytes inner.grants ++
      (writeU32 (UInt32.ofNat inner.records.length) ++ (inner.records.map writeBlob).flatten))))) := by
  unfold encodeInner at h
  by_cases hbundle : inner.senderBundle.length > maxBundleBytes
  · simp [hbundle] at h
  by_cases hcount : inner.introduced.length > maxIntroducedPerEnvelope
  · simp [hbundle, hcount] at h
  by_cases hintroduced : inner.introduced.any (·.length > maxBundleBytes) = true
  · simp [hbundle, hcount, hintroduced] at h
  by_cases hrecords : inner.records.length > maxRecordsPerEnvelope
  · simp [hbundle, hcount, hintroduced, hrecords] at h
  by_cases hgrants : inner.grants.length > maxGrantsPerEnvelope
  · simp [hbundle, hcount, hintroduced, hrecords, hgrants] at h
  by_cases hfiles : ¬(inner.grants.map (·.fileId)).Nodup
  · simp [hbundle, hcount, hintroduced, hrecords, hgrants, hfiles] at h
  rw [if_neg hbundle, if_neg hcount, if_neg hintroduced, if_neg hrecords, if_neg hgrants,
    if_neg hfiles] at h
  refine ⟨⟨not_lt.1 hbundle, not_lt.1 hcount, ?_, not_lt.1 hrecords, not_lt.1 hgrants,
    not_not.1 hfiles⟩, (Except.ok.inj h).symm⟩
  simpa using hintroduced

theorem encodeInner_of_fits (h : Fits inner) :
    encodeInner inner = .ok (writeU32 (if inner.grants = [] then 2 else 3) ++
      (writeBlob inner.senderBundle ++ (writeU32 (UInt32.ofNat inner.introduced.length) ++
      ((inner.introduced.map writeBlob).flatten ++ (grantsBytes inner.grants ++
      (writeU32 (UInt32.ofNat inner.records.length) ++ (inner.records.map writeBlob).flatten)))))) := by
  have hintroduced : ¬inner.introduced.any (·.length > maxBundleBytes) = true := by
    simpa using h.introduced
  rw [encodeInner, if_neg (not_lt.2 h.senderBundle), if_neg (not_lt.2 h.introducedCount),
    if_neg hintroduced, if_neg (not_lt.2 h.records), if_neg (not_lt.2 h.grants),
    if_neg (not_not.2 h.files)]
  rfl

theorem reads_grant (g : AttachmentGrant) : Reads readGrant (writeGrant g) g := by
  have hparts : Reads grantReader (writeGrant g) (g.fileId, g.key, g.token) :=
    (reads_blob g.fileId_size.le (by decide)).bind ((reads_blob g.key_size.le (by decide)).bind
      ((reads_blob g.token_size.le (by decide)).last (reads_pure _)))
  refine hparts.last ?_
  dsimp only
  rw [dif_pos ⟨g.fileId_size, g.key_size, g.token_size⟩]
  exact reads_pure g

theorem reads_grants (grants : List AttachmentGrant) {before : List AttachmentGrant}
    (h : ((before ++ grants).map (·.fileId)).Nodup) :
    Reads (readGrants grants.length before) (grants.map writeGrant).flatten (before ++ grants) := by
  induction grants generalizing before with
  | nil =>
    rw [List.append_nil]
    exact reads_pure before
  | cons g grants ih =>
    have hnew : ∀ other ∈ before, other.fileId ≠ g.fileId := by
      intro other hother heq
      rw [List.map_append, List.nodup_append] at h
      exact h.2.2 _ (List.mem_map_of_mem hother) _ (List.mem_map_of_mem List.mem_cons_self) heq
    rw [List.append_cons] at h ⊢
    exact (reads_grant g).bind (.check hnew (ih h))

theorem reads_allGrants {grants : List AttachmentGrant} (hsome : grants ≠ [])
    (hmax : grants.length ≤ maxGrantsPerEnvelope) (hfiles : (grants.map (·.fileId)).Nodup) :
    Reads readAllGrants (grantsBytes grants) grants := by
  have hcount : (UInt32.ofNat grants.length).toNat = grants.length := Relay.toNat_count hmax (by decide)
  rw [grantsBytes, if_neg hsome]
  refine (reads_u32 _).bind (.check ?_ ?_)
  · rw [hcount]
    exact ⟨List.length_pos_of_ne_nil hsome, hmax⟩
  · rw [hcount]
    exact reads_grants grants hfiles

theorem reads_introduced {bundles : List Bytes} (hmax : bundles.length ≤ maxIntroducedPerEnvelope)
    (hsize : ∀ b ∈ bundles, b.length ≤ maxBundleBytes) :
    Reads readIntroduced (writeU32 (UInt32.ofNat bundles.length) ++ (bundles.map writeBlob).flatten)
      bundles := by
  have hcount : (UInt32.ofNat bundles.length).toNat = bundles.length :=
    Relay.toNat_count hmax (by decide)
  refine (reads_u32 _).bind (.check (hcount.le.trans hmax) ?_)
  rw [hcount]
  exact reads_blobs hsize (by decide)

/-- What is written is read back, if no record is larger than the reader takes. -/
theorem reads_inner (h : encodeInner inner = .ok encoded)
    (hrecords : ∀ r ∈ inner.records, r.length ≤ maxRecordBytes) : Reads innerReader encoded inner := by
  obtain ⟨hfits, rfl⟩ := encodeInner_ok h
  have hcount : (UInt32.ofNat inner.records.length).toNat = inner.records.length :=
    Relay.toNat_count hfits.records (by decide)
  have hlast : ∀ introduced grants, Reads (do
      let count ← u32
      guard (count.toNat ≤ maxRecordsPerEnvelope)
      let records ← many count.toNat (blob maxRecordBytes)
      return ({ senderBundle := inner.senderBundle, records, introduced, grants } : Inner))
      (writeU32 (UInt32.ofNat inner.records.length) ++ (inner.records.map writeBlob).flatten)
      { senderBundle := inner.senderBundle, records := inner.records, introduced, grants } := by
    intro introduced grants
    refine (reads_u32 _).bind (.check (hcount.le.trans hfits.records) ?_)
    rw [hcount]
    exact (reads_blobs hrecords (by decide)).last (reads_pure _)
  have hintroduced := reads_introduced hfits.introducedCount hfits.introduced
  by_cases hgrants : inner.grants = []
  · rw [if_pos hgrants, grantsBytes, if_pos hgrants]
    refine (reads_u32 2).bind (.check (by decide) ((reads_blob hfits.senderBundle (by decide)).bind ?_))
    rw [← List.append_assoc]
    refine hintroduced.bind ?_
    have := hlast inner.introduced []
    rw [← hgrants] at this ⊢
    exact this
  · rw [if_neg hgrants]
    refine (reads_u32 3).bind (.check (by decide) ((reads_blob hfits.senderBundle (by decide)).bind ?_))
    rw [← List.append_assoc]
    exact hintroduced.bind ((reads_allGrants hgrants hfits.grants hfits.files).bind
      (hlast inner.introduced inner.grants))

/-! ## The padding -/

theorem bucketFor_some {needed : ℕ} (h : bucketFor needed = some bucket) :
    bucket ∈ buckets ∧ needed ≤ bucket :=
  ⟨List.mem_of_find?_eq_some h, by simpa using List.find?_some h⟩

theorem le_of_mem_buckets (h : bucket ∈ buckets) : bucket ≤ 65536 := by
  revert h
  simp only [buckets, List.mem_cons, List.not_mem_nil, or_false]
  omega

theorem length_pad (h : 4 + encoded.length ≤ bucket) : (pad encoded bucket).length = bucket := by
  simp only [pad, List.length_append, length_writeU32, List.length_replicate]
  omega

theorem unpad_pad (hbucket : bucket ∈ buckets) (h : 4 + encoded.length ≤ bucket) :
    unpad (pad encoded bucket) = some encoded := by
  have hmax := le_of_mem_buckets hbucket
  have hlen : (UInt32.ofNat encoded.length).toNat = encoded.length := by
    rw [UInt32.toNat_ofNat', Nat.mod_eq_of_lt (by omega)]
  rw [unpad, length_pad h, if_neg (not_not.2 hbucket), pad]
  simp only [List.append_assoc, readU32_writeU32, Option.bind_eq_bind, Option.bind_some, hlen]
  rw [if_neg (by simp), List.drop_left, List.take_left, if_neg (by simp)]

/-- What is unpadded has one of the sizes, and zeros after its content. -/
theorem unpad_some {p : Bytes} (h : unpad p = some encoded) :
    p.length ∈ buckets ∧ p = pad encoded p.length := by
  unfold unpad at h
  by_cases hbucket : p.length ∉ buckets
  · rw [if_pos hbucket] at h
    exact nomatch h
  rw [if_neg hbucket, readU32_bind] at h
  obtain ⟨length, rest, rfl, h⟩ := h
  dsimp only at h
  split_ifs at h with hlong hzero
  obtain rfl := Option.some.inj h
  refine ⟨not_not.1 hbucket, ?_⟩
  have htake : (rest.take length.toNat).length = length.toNat := List.length_take_of_le (not_lt.1 hlong)
  have hdrop : rest.drop length.toNat = List.replicate (rest.length - length.toNat) 0 := by
    refine List.eq_replicate_iff.2 ⟨List.length_drop, fun b hb => ?_⟩
    by_contra hne
    exact hzero (List.any_eq_true.2 ⟨b, hb, decide_eq_true hne⟩)
  rw [pad, htake, UInt32.ofNat_toNat]
  simp only [List.length_append, length_writeU32, htake]
  rw [Nat.add_sub_add_left, ← hdrop, List.append_assoc, List.take_append_drop]

/-! ## The envelope is read back -/

section

variable {C : EnvelopeCrypto} {recipientPublicKey header key : Bytes} {prekey : Option Prekey}
  {coins : SealCoins} {inner : Inner} {envelope encoded : Bytes}

/-- The header that sealing writes, field by field. -/
inductive Sealed (C : EnvelopeCrypto) (recipientPublicKey : Bytes) (coins : SealCoins) :
    Option Prekey → Bytes → Bytes → Prop
  | longTerm {ct ss : Bytes} (h : C.encapsulate recipientPublicKey coins.encapsulation = .ok (ct, ss)) :
      Sealed C recipientPublicKey coins none (headerBytes ct coins.nonce)
        (deriveKey C ss (headerBytes ct coins.nonce))
  | oneTime {ct ss ct₁ ss₁ x header : Bytes} {prekey : Prekey}
      (h : C.encapsulate recipientPublicKey coins.encapsulation = .ok (ct, ss))
      (hid : prekey.id.length = prekeyIdBytes)
      (h₁ : C.encapsulate prekey.kemPublic coins.oneTime = .ok (ct₁, ss₁))
      (hx : C.x25519Shared (C.generateX25519 coins.ephemeral).2 prekey.x25519Public = .ok x)
      (hheader : header =
        headerBytes2 ct prekey.id ct₁ (C.generateX25519 coins.ephemeral).1 coins.nonce) :
      Sealed C recipientPublicKey coins (some prekey) header (deriveKey2 C ss ss₁ x header)

theorem sealHeader_ok (h : sealHeader C recipientPublicKey prekey coins = .ok (header, key)) :
    Sealed C recipientPublicKey coins prekey header key := by
  unfold sealHeader at h
  split at h
  · exact nomatch h
  rename_i ct ss hct
  cases prekey with
  | none =>
    obtain ⟨rfl, rfl⟩ := Prod.mk.inj (Except.ok.inj h)
    exact .longTerm hct
  | some prekey =>
    simp only at h
    split_ifs at h with hsizes
    split at h
    · exact nomatch h
    rename_i ct₁ ss₁ hct₁
    split at h
    · exact nomatch h
    rename_i x hx
    obtain ⟨rfl, rfl⟩ := Prod.mk.inj (Except.ok.inj h)
    exact .oneTime hct (not_not.1 (not_or.1 hsizes).1) hct₁ hx rfl

theorem sealBytes_ok (h : sealBytes C inner recipientPublicKey prekey coins = .ok envelope) :
    ∃ encoded bucket header key, encodeInner inner = .ok encoded ∧
      bucketFor (4 + encoded.length) = some bucket ∧ Sealed C recipientPublicKey coins prekey header key ∧
      envelope = header ++ writeBlob (C.encrypt key coins.nonce (pad encoded bucket) (aadFor header)) := by
  unfold sealBytes at h
  split at h
  · exact nomatch h
  rename_i encoded hencoded
  split at h
  · exact nomatch h
  rename_i bucket hbucket
  split at h
  · exact nomatch h
  rename_i header key hheader
  exact ⟨encoded, bucket, header, key, hencoded, hbucket, sealHeader_ok hheader,
    (Except.ok.inj h).symm⟩

/-- The private keys that belong to the public ones an envelope is sealed to. -/
structure Matches (C : EnvelopeCrypto) (recipientPublicKey : Bytes) (prekey : Option Prekey)
    (privateKey : Bytes) (lookup : PrekeyLookup) : Prop where
  kem : C.KemPair recipientPublicKey privateKey
  prekey : ∀ p, prekey = some p → ∃ secret, lookup p.id = some secret ∧
    C.KemPair p.kemPublic secret.kemPrivate ∧ C.X25519Pair p.x25519Public secret.x25519Private

theorem reads_kemCiphertext {ct : Bytes} (h : ct.length = C.kemCiphertextSize) :
    Reads (blob 4096) (writeBlob ct) ct := by
  rw [C.kem_ciphertext_size] at h
  exact reads_blob (h.le.trans (by decide)) (by decide)

theorem reads_oneTime {id ct ephemeral : Bytes} (hid : id.length = prekeyIdBytes)
    (hct : ct.length = C.kemCiphertextSize) (hephemeral : ephemeral.length = x25519Bytes) :
    Reads (readOneTime C envelopeVersion2) (writeBlob id ++ (writeBlob ct ++ writeBlob ephemeral))
      (some ⟨id, ct, ephemeral⟩) := by
  have hpart : Reads (oneTimeReader C) (writeBlob id ++ (writeBlob ct ++ writeBlob ephemeral))
      ⟨id, ct, ephemeral⟩ :=
    (reads_blob hid.le (by decide)).bind ((reads_kemCiphertext hct).bind
      ((reads_blob hephemeral.le (by decide)).last (.check ⟨hid, hct, hephemeral⟩ (reads_pure _))))
  rw [readOneTime, if_pos rfl, map_eq_pure_bind]
  exact hpart.last (reads_pure _)

theorem reads_header {version : UInt32} {ct part nonce : Bytes} {oneTime : Option OneTimePart}
    (hversion : version = envelopeVersion ∨ version = envelopeVersion2)
    (hct : ct.length = C.kemCiphertextSize) (hpart : Reads (readOneTime C version) part oneTime)
    (hnonce : nonce.length = 12) :
    Reads (headerReader C) (writeU32 version ++ (writeBlob ct ++ (part ++ writeBlob nonce)))
      ⟨ct, oneTime, nonce⟩ :=
  (reads_u32 version).bind (.check hversion ((reads_kemCiphertext hct).bind (.check hct
    (hpart.bind ((reads_blob hnonce.le (by decide)).last (.check hnonce (reads_pure _)))))))

/-- The recipient reads the header and works out the key. -/
theorem Sealed.opens (h : Sealed C recipientPublicKey coins prekey header key) {privateKey : Bytes}
    {lookup : PrekeyLookup} (hkeys : Matches C recipientPublicKey prekey privateKey lookup) :
    ∃ parts, Reads (headerReader C) header parts ∧ parts.nonce = coins.nonce ∧
      parts.oneTime.map (·.prekeyId) = prekey.map (·.id) ∧
      openKey C privateKey lookup parts header = some key := by
  cases h with
  | @longTerm ct ss hencap =>
    refine ⟨⟨ct, none, coins.nonce⟩, ?_, rfl, rfl, ?_⟩
    · have hpart : Reads (readOneTime C envelopeVersion) [] none := reads_pure none
      have hread := reads_header (.inl rfl) (C.encapsulate_size _ _ _ _ hencap) hpart coins.nonce_size
      rw [headerBytes]
      simpa only [List.nil_append] using hread
    · simp [openKey, C.decapsulate_encapsulate _ _ _ _ _ hkeys.kem hencap, Except.toOption]
  | @oneTime ct ss ct₁ ss₁ x header prekey hencap hid hencap₁ hx hheader =>
    obtain ⟨secret, hlookup, hkem, hx25519⟩ := hkeys.prekey prekey rfl
    have hpart := reads_oneTime hid (C.encapsulate_size _ _ _ _ hencap₁)
      (C.x25519_public_size coins.ephemeral)
    have hshared := C.x25519_shared_comm _ _ _ _ x (C.x25519_pair coins.ephemeral) hx25519 hx
    refine ⟨⟨ct, some ⟨prekey.id, ct₁, (C.generateX25519 coins.ephemeral).1⟩, coins.nonce⟩, ?_, rfl, rfl,
      ?_⟩
    · have hread := reads_header (.inr rfl) (C.encapsulate_size _ _ _ _ hencap) hpart coins.nonce_size
      rw [hheader, headerBytes2]
      simpa only [List.append_assoc] using hread
    · simp [openKey, C.decapsulate_encapsulate _ _ _ _ _ hkeys.kem hencap, hlookup,
        C.decapsulate_encapsulate _ _ _ _ _ hkem hencap₁, hshared, Except.toOption]

theorem readEnvelope_append {parts : HeaderParts} {ciphertext : Bytes}
    (hread : Reads (headerReader C) header parts) (hct : ciphertext.length ≤ Relay.maxEnvelopeBytes) :
    readEnvelope C (header ++ writeBlob ciphertext) = some (parts, header, ciphertext) := by
  have hblob : readBlob (writeBlob ciphertext) Relay.maxEnvelopeBytes = some (ciphertext, []) :=
    (reads_blob hct (by decide)).run_eq
  rw [readEnvelope, hread (writeBlob ciphertext)]
  simp [hblob]

/-! ## The sizes -/

/-- The sizes of the fields of a header, with or without a prekey. -/
def headerLayout : Bool → List ℕ
  | false => [1088, 12]
  | true => [1088, 16, 1088, 32, 12]

theorem length_fields (fields : List Bytes) :
    (fields.flatMap writeBlob).length = ((fields.map List.length).map (4 + ·)).sum := by
  simp [List.length_flatMap, writeBlob, Function.comp_def]

/-- What an envelope looks like from outside: its version, and the sizes of its fields. -/
def Layout (envelope : Bytes) (version : UInt32) (sizes : List ℕ) : Prop :=
  ∃ fields : List Bytes, envelope = writeU32 version ++ fields.flatMap writeBlob ∧
    fields.map List.length = sizes

theorem Sealed.layout (h : Sealed C recipientPublicKey coins prekey header key) :
    Layout header (if prekey.isSome then envelopeVersion2 else envelopeVersion)
      (headerLayout prekey.isSome) := by
  cases h with
  | @longTerm ct ss hencap =>
    have hsize := C.encapsulate_size _ _ _ _ hencap
    rw [C.kem_ciphertext_size] at hsize
    exact ⟨[ct, coins.nonce], by simp [headerBytes], by simp [headerLayout, hsize, coins.nonce_size]⟩
  | @oneTime ct ss ct₁ ss₁ x header prekey hencap hid hencap₁ hx hheader =>
    have hsize := C.encapsulate_size _ _ _ _ hencap
    have hsize₁ := C.encapsulate_size _ _ _ _ hencap₁
    rw [C.kem_ciphertext_size] at hsize hsize₁
    refine ⟨[ct, prekey.id, ct₁, (C.generateX25519 coins.ephemeral).1, coins.nonce],
      by simp [hheader, headerBytes2], ?_⟩
    simp [headerLayout, hsize, hsize₁, hid, prekeyIdBytes, C.x25519_public_size, coins.nonce_size]

theorem Layout.length_eq {version : UInt32} {sizes : List ℕ} (h : Layout envelope version sizes) :
    envelope.length = 4 + (sizes.map (4 + ·)).sum := by
  obtain ⟨fields, rfl, hsizes⟩ := h
  rw [List.length_append, length_writeU32, length_fields, hsizes]

theorem length_encrypt_pad {nonce aad : Bytes} {bucket : ℕ}
    (hbucket : bucketFor (4 + encoded.length) = some bucket) :
    (C.encrypt key nonce (pad encoded bucket) aad).length = bucket + 16 := by
  rw [C.length_encrypt, length_pad (bucketFor_some hbucket).2]

/-- Only the size of the padded content and whether there is a prekey decide what an envelope looks like. -/
theorem layout_sealBytes (h : sealBytes C inner recipientPublicKey prekey coins = .ok envelope) :
    ∃ encoded bucket, encodeInner inner = .ok encoded ∧ bucketFor (4 + encoded.length) = some bucket ∧
      Layout envelope (if prekey.isSome then envelopeVersion2 else envelopeVersion)
        (headerLayout prekey.isSome ++ [bucket + 16]) := by
  obtain ⟨encoded, bucket, header, key, hencoded, hbucket, hsealed, rfl⟩ := sealBytes_ok h
  obtain ⟨fields, hheader, hsizes⟩ := hsealed.layout
  refine ⟨encoded, bucket, hencoded, hbucket,
    fields ++ [C.encrypt key coins.nonce (pad encoded bucket) (aadFor header)], ?_, ?_⟩
  · rw [List.flatMap_append, List.flatMap_singleton, ← List.append_assoc, ← hheader]
  · rw [List.map_append, hsizes, List.map_singleton, length_encrypt_pad hbucket]

/-- The largest padded content fits with either header. -/
theorem length_sealBytes (h : sealBytes C inner recipientPublicKey prekey coins = .ok envelope) :
    envelope.length ≤ Relay.maxEnvelopeBytes := by
  obtain ⟨encoded, bucket, -, hbucket, hlayout⟩ := layout_sealBytes h
  have hmax := le_of_mem_buckets (bucketFor_some hbucket).1
  rw [hlayout.length_eq]
  cases prekey.isSome <;> simp [headerLayout, Relay.maxEnvelopeBytes] <;> omega

theorem sealBytes_of_sealEnvelope
    (h : sealEnvelope C inner recipientPublicKey prekey coins = .ok envelope) :
    sealBytes C inner recipientPublicKey prekey coins = .ok envelope := by
  unfold sealEnvelope at h
  split at h
  · exact nomatch h
  · rename_i sealed hsealed
    split_ifs at h
    rw [hsealed, Except.ok.inj h]

/-! ## What sealing and opening guarantee -/

theorem record_length_le (h : encodeInner inner = .ok encoded) {r : Bytes} (hr : r ∈ inner.records) :
    r.length ≤ encoded.length := by
  obtain ⟨-, rfl⟩ := encodeInner_ok h
  have hpart : (writeBlob r).length ≤ (inner.records.map writeBlob).flatten.length :=
    (List.sublist_flatten_of_mem (List.mem_map_of_mem hr)).length_le
  simp only [writeBlob, List.length_append] at hpart ⊢
  omega

theorem decodeInner_encoded {bucket : ℕ} (h : encodeInner inner = .ok encoded)
    (hbucket : bucketFor (4 + encoded.length) = some bucket) : decodeInner encoded = some inner := by
  obtain ⟨hmem, hle⟩ := bucketFor_some hbucket
  have hmax := le_of_mem_buckets hmem
  refine (reads_inner h fun r hr => ?_).whole_eq
  have hrecord := record_length_le h hr
  simp only [maxRecordBytes]
  omega

theorem openEnvelope_sealed {privateKey : Bytes} {lookup : PrekeyLookup}
    (h : sealBytes C inner recipientPublicKey prekey coins = .ok envelope)
    (hkeys : Matches C recipientPublicKey prekey privateKey lookup) :
    openEnvelope C envelope privateKey lookup = (some inner, prekey.map (·.id)) := by
  obtain ⟨encoded, bucket, header, key, hencoded, hbucket, hsealed, rfl⟩ := sealBytes_ok h
  obtain ⟨parts, hread, hnonce, hid, hkey⟩ := hsealed.opens hkeys
  obtain ⟨hmem, hle⟩ := bucketFor_some hbucket
  have hct : (C.encrypt key coins.nonce (pad encoded bucket) (aadFor header)).length ≤
      Relay.maxEnvelopeBytes := by
    have hmax := le_of_mem_buckets hmem
    rw [length_encrypt_pad hbucket, Relay.maxEnvelopeBytes]
    omega
  have hplaintext : openPlaintext C (header ++ writeBlob (C.encrypt key coins.nonce (pad encoded bucket)
      (aadFor header))) privateKey lookup = some (pad encoded bucket, prekey.map (·.id)) := by
    simp [openPlaintext, readEnvelope_append hread hct, hkey, hnonce, hid, C.decrypt_encrypt]
  rw [openEnvelope, hplaintext]
  simp only [unpad_pad hmem hle, Option.bind_some, decodeInner_encoded hencoded hbucket]

theorem envelopePrekeyId_sealed (h : sealBytes C inner recipientPublicKey prekey coins = .ok envelope) :
    envelopePrekeyId envelope = prekey.map (·.id) := by
  obtain ⟨encoded, bucket, header, key, -, -, hsealed, rfl⟩ := sealBytes_ok h
  cases hsealed with
  | longTerm hencap =>
    simp [envelopePrekeyId, headerBytes, readU32_writeU32, envelopeVersion, envelopeVersion2]
  | @oneTime ct ss ct₁ ss₁ x header prekey hencap hid hencap₁ hx hheader =>
    have hct := C.encapsulate_size _ _ _ _ hencap
    rw [C.kem_ciphertext_size] at hct
    rw [prekeyIdBytes] at hid
    simp (disch := omega) [envelopePrekeyId, hheader, headerBytes2, readU32_writeU32, readBlob_writeBlob,
      prekeyIdBytes, hid]

end

/-- What is sealed opens to the same content with the private keys that belong to it, and names the prekey
that was used; the size that sealing checks last is never too large; and whatever opens was padded to one
of the sizes with zeros. -/
theorem envelope_round_trip (C : EnvelopeCrypto) :
    (∀ inner recipientPublicKey prekey coins envelope privateKey lookup,
      sealEnvelope C inner recipientPublicKey prekey coins = .ok envelope →
      Matches C recipientPublicKey prekey privateKey lookup →
      openEnvelope C envelope privateKey lookup = (some inner, prekey.map (·.id)) ∧
        envelopePrekeyId envelope = prekey.map (·.id)) ∧
    (∀ inner recipientPublicKey prekey coins envelope,
      sealBytes C inner recipientPublicKey prekey coins = .ok envelope →
      sealEnvelope C inner recipientPublicKey prekey coins = .ok envelope) ∧
    ∀ envelope privateKey lookup inner used,
      openEnvelope C envelope privateKey lookup = (some inner, used) →
      ∃ p encoded, openPlaintext C envelope privateKey lookup = some (p, used) ∧ p.length ∈ buckets ∧
        p = pad encoded p.length ∧ decodeInner encoded = some inner := by
  refine ⟨fun inner pk prekey coins envelope privateKey lookup hsealed hkeys => ?_,
    fun inner pk prekey coins envelope hsealed => ?_, fun envelope privateKey lookup inner used hopen => ?_⟩
  · have hbytes := sealBytes_of_sealEnvelope hsealed
    exact ⟨openEnvelope_sealed hbytes hkeys, envelopePrekeyId_sealed hbytes⟩
  · rw [sealEnvelope, hsealed]
    exact if_neg (not_lt.2 (length_sealBytes hsealed))
  · unfold openEnvelope at hopen
    split at hopen
    · exact nomatch (Prod.mk.inj hopen).1
    · rename_i p usedPrekeyId hplaintext
      obtain ⟨hinner, rfl⟩ := Prod.mk.inj hopen
      obtain ⟨encoded, hunpad, hdecode⟩ := Option.bind_eq_some_iff.1 hinner
      obtain ⟨hbucket, hpad⟩ := unpad_some hunpad
      exact ⟨p, encoded, hplaintext, hbucket, hpad, hdecode⟩

/-- Primitives for evaluation: a public key is its private key, and the shared secret is the key itself. -/
def plainCrypto : EnvelopeCrypto where
  toSecretCrypto := tagCrypto
  kemPublicKeySize := 2
  kemCiphertextSize := 1088
  encapsulate publicKey _ := .ok (List.replicate 1088 7, publicKey)
  decapsulate _ privateKey := .ok privateKey
  generateX25519 _ := (List.replicate 32 5, [])
  x25519Shared _ _ := .ok [3]
  hkdfSha256 ikm _ _ _ := ikm
  sha256 := id
  KemPair publicKey privateKey := publicKey = privateKey
  X25519Pair _ _ := True
  kem_ciphertext_size := rfl
  encapsulate_size pk r ct ss h := by
    obtain ⟨rfl, -⟩ := Prod.mk.inj (Except.ok.inj h)
    exact List.length_replicate
  decapsulate_encapsulate pk sk r ct ss hpair h := by
    obtain ⟨-, rfl⟩ := Prod.mk.inj (Except.ok.inj h)
    exact congrArg Except.ok hpair.symm
  x25519_pair _ := trivial
  x25519_public_size _ := rfl
  x25519_shared_comm _ _ _ _ _ _ _ h := h

def sampleCoins : SealCoins := ⟨[], [], [], List.replicate 12 1, rfl⟩

def samplePrekey : Prekey := ⟨List.replicate 16 8, [4, 4], List.replicate 32 6, false, 0, []⟩

def sampleLookup : PrekeyLookup := fun id =>
  if id = List.replicate 16 8 then some ⟨[4, 4], [6]⟩ else none

def sampleInner : Inner :=
  { records := [[1, 2, 3]], grants := [⟨List.replicate 16 1, List.replicate 32 2, List.replicate 32 3,
    rfl, rfl, rfl⟩] }

theorem sampleKeys_match : Matches plainCrypto [9, 9] (some samplePrekey) [9, 9] sampleLookup :=
  ⟨rfl, fun p hp => by
    obtain rfl := Option.some.inj hp
    exact ⟨⟨[4, 4], [6]⟩, if_pos rfl, rfl, trivial⟩⟩

theorem exists_ok {ε α : Type} {x : Except ε α} (h : x.toBool = true) : ∃ a, x = .ok a := by
  cases x with
  | error e => exact nomatch h
  | ok a => exact ⟨a, rfl⟩

/-- It is sealed with the prekey, and opens. -/
theorem envelope_round_trip_sample : ∃ envelope,
    sealEnvelope plainCrypto sampleInner [9, 9] (some samplePrekey) sampleCoins = .ok envelope ∧
    openEnvelope plainCrypto envelope [9, 9] sampleLookup = (some sampleInner, some samplePrekey.id) := by
  obtain ⟨envelope, h⟩ : ∃ envelope,
      sealEnvelope plainCrypto sampleInner [9, 9] (some samplePrekey) sampleCoins = .ok envelope :=
    exists_ok (by decide +kernel)
  exact ⟨envelope, h, ((envelope_round_trip plainCrypto).1 _ _ _ _ _ _ _ h sampleKeys_match).1⟩

/-- Two contents that are padded to the same size, both sealed with a prekey or both without, to whomever:
the envelopes have one length, and fields of the same sizes. -/
theorem envelopes_look_alike (C : EnvelopeCrypto) {inner₁ inner₂ : Inner}
    {recipientPublicKey₁ recipientPublicKey₂ encoded₁ encoded₂ envelope₁ envelope₂ : Bytes}
    {prekey₁ prekey₂ : Option Prekey} {coins₁ coins₂ : SealCoins}
    (h₁ : sealEnvelope C inner₁ recipientPublicKey₁ prekey₁ coins₁ = .ok envelope₁)
    (h₂ : sealEnvelope C inner₂ recipientPublicKey₂ prekey₂ coins₂ = .ok envelope₂)
    (hencoded₁ : encodeInner inner₁ = .ok encoded₁) (hencoded₂ : encodeInner inner₂ = .ok encoded₂)
    (hbucket : bucketFor (4 + encoded₁.length) = bucketFor (4 + encoded₂.length))
    (hprekey : prekey₁.isSome = prekey₂.isSome) :
    envelope₁.length = envelope₂.length ∧
      ∃ version sizes, Layout envelope₁ version sizes ∧ Layout envelope₂ version sizes := by
  obtain ⟨encoded, bucket₁, hsame₁, hbucket₁, hlayout₁⟩ := layout_sealBytes (sealBytes_of_sealEnvelope h₁)
  obtain rfl : encoded = encoded₁ := Except.ok.inj (hsame₁.symm.trans hencoded₁)
  obtain ⟨encoded', bucket₂, hsame₂, hbucket₂, hlayout₂⟩ :=
    layout_sealBytes (sealBytes_of_sealEnvelope h₂)
  obtain rfl : encoded' = encoded₂ := Except.ok.inj (hsame₂.symm.trans hencoded₂)
  obtain rfl : bucket₁ = bucket₂ := Option.some.inj (hbucket₁.symm.trans (hbucket.trans hbucket₂))
  rw [hprekey] at hlayout₁
  exact ⟨hlayout₁.length_eq.trans hlayout₂.length_eq.symm, _, _, hlayout₁, hlayout₂⟩

/-- Two records and someone's bundle. -/
def otherInner : Inner := { records := [[5], [6, 7]], introduced := [[1, 2]] }

def encodedOf (inner : Inner) : Bytes := (encodeInner inner).toOption.getD []

/-- To different people, one with a grant and the other with a bundle. -/
theorem envelopes_look_alike_sample : ∃ envelope₁ envelope₂,
    sealEnvelope plainCrypto sampleInner [9, 9] none sampleCoins = .ok envelope₁ ∧
    sealEnvelope plainCrypto otherInner [8, 8] none sampleCoins = .ok envelope₂ ∧
    envelope₁.length = envelope₂.length := by
  obtain ⟨envelope₁, h₁⟩ : ∃ envelope,
      sealEnvelope plainCrypto sampleInner [9, 9] none sampleCoins = .ok envelope :=
    exists_ok (by decide +kernel)
  obtain ⟨envelope₂, h₂⟩ : ∃ envelope,
      sealEnvelope plainCrypto otherInner [8, 8] none sampleCoins = .ok envelope :=
    exists_ok (by decide +kernel)
  have hencoded₁ : encodeInner sampleInner = .ok (encodedOf sampleInner) := rfl
  have hencoded₂ : encodeInner otherInner = .ok (encodedOf otherInner) := rfl
  exact ⟨envelope₁, envelope₂, h₁, h₂,
    (envelopes_look_alike plainCrypto h₁ h₂ hencoded₁ hencoded₂ (by decide +kernel) rfl).1⟩

end Envelope

end PqSuite
