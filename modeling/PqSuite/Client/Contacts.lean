import PqSuite.Client.MessageRecord

/-!
# Contacts (`identity_bundle.cpp`, `key_store.cpp`, `sharing.cpp`)

An identity bundle is the public half of an identity, signed by its own signing key. Its fields are
typed: a reader passes over the types it does not know and refuses one it knows that comes twice. A
contact is a folder of files: the two public keys, the bundle that binds them and the token for writing
to them. Whatever the folders hold, a contact is found under the fingerprint of its signing key.
-/

namespace PqSuite

open Reader

/-! ## Identity bundles -/

structure IdentityBundle where
  issuedAt : UInt64
  signingKey : Bytes
  encryptionKey : Bytes
  displayName : Bytes
  relayHint : Bytes
  relayId : Bytes
  mailboxId : Bytes
  /-- The exact bytes that were signed and sent. -/
  raw : Bytes
  deriving DecidableEq

namespace IdentityBundle

def magic : UInt32 := 0x50514942
def version : UInt32 := 1
def signatureLabel : Bytes := ascii "pq-suite v3 identity bundle"
def maxBodyBytes : ℕ := 16 * 1024
def maxFields : ℕ := 32
def maxDisplayNameBytes : ℕ := 64
def maxRelayHintBytes : ℕ := 255

/-- A mailbox address is a unit. -/
def hasMailbox (b : IdentityBundle) : Bool := b.relayHint ≠ [] && b.relayId ≠ [] && b.mailboxId ≠ []

def fingerprint (C : ChatCrypto) (b : IdentityBundle) : Bytes := C.fingerprint b.signingKey

def signingInput (body : Bytes) : Bytes := writeString signatureLabel ++ body

structure Fields where
  signingKey : Option Bytes := none
  encryptionKey : Option Bytes := none
  displayName : Option Bytes := none
  relayHint : Option Bytes := none
  relayId : Option Bytes := none
  mailboxId : Option Bytes := none

/-- A known field must not appear twice, or two readers could pick different ones. -/
def Fields.add (f : Fields) : UInt32 × Bytes → Option Fields
  | (1, value) =>
    if f.signingKey.isSome then none else some { f with signingKey := some value }
  | (2, value) =>
    if f.encryptionKey.isSome then none else some { f with encryptionKey := some value }
  | (3, value) =>
    if f.displayName.isSome ∨ value.length > maxDisplayNameBytes then none
    else some { f with displayName := some value }
  | (16, value) =>
    if f.relayHint.isSome ∨ value.length > maxRelayHintBytes then none
    else some { f with relayHint := some value }
  | (5, value) =>
    if f.relayId.isSome ∨ value.length ≠ 32 then none else some { f with relayId := some value }
  | (6, value) =>
    if f.mailboxId.isSome ∨ value.length ≠ 16 then none else some { f with mailboxId := some value }
  | _ => some f

def fieldReader : Reader UInt8 (UInt32 × Bytes) := do
  let type ← u32
  let value ← blob maxBodyBytes
  return (type, value)

def bodyReader : Reader UInt8 (UInt64 × Fields) := do
  let m ← u32
  let v ← u32
  let issuedAt ← u64
  let count ← u32
  guard (m = magic ∧ v = version ∧ count.toNat ≤ maxFields)
  let fields ← many count.toNat fieldReader
  let fields ← StateT.lift (fields.foldlM Fields.add {})
  return (issuedAt, fields)

def rawReader : Reader UInt8 (Bytes × Bytes) := do
  let body ← blob maxBodyBytes
  let signature ← blob 8192
  return (body, signature)

/-- Where an identity can be reached: either empty, or all three set. -/
structure Address where
  relayHint : Bytes := []
  relayId : Bytes := []
  mailboxId : Bytes := []

def Address.anyMailbox (a : Address) : Bool := a.relayId ≠ [] || a.mailboxId ≠ []

/-- The fields of a bundle in the order they are written; an empty one is left out. -/
def fieldsOf (signingPublic encryptionPublic displayName : Bytes) (address : Address) :
    List (UInt32 × Bytes) :=
  [(1, signingPublic), (2, encryptionPublic)] ++
    (if displayName = [] then [] else [(3, displayName)]) ++
    (if address.anyMailbox then [(5, address.relayId), (6, address.mailboxId)] else []) ++
    (if address.relayHint = [] then [] else [(16, address.relayHint)])

def writeField (f : UInt32 × Bytes) : Bytes := writeU32 f.1 ++ writeBlob f.2

def writeBody (issuedAt : UInt64) (fields : List (UInt32 × Bytes)) : Bytes :=
  writeU32 magic ++ writeU32 version ++ writeU64 issuedAt ++
    writeU32 (UInt32.ofNat fields.length) ++ fields.flatMap writeField

end IdentityBundle

open IdentityBundle in
def createIdentityBundle (C : ChatCrypto) (signingPublic encryptionPublic displayName : Bytes)
    (address : Address) (issuedAt : UInt64) (signingPrivate : Bytes) : Except String Bytes :=
  if signingPublic.length ≠ C.sigPublicKeySize ∨ encryptionPublic.length ≠ C.kemPublicKeySize then
    .error "The identity keys have the wrong size"
  else if displayName.length > maxDisplayNameBytes then .error "The display name is too long"
  else if address.relayHint.length > maxRelayHintBytes then .error "The relay address is too long"
  else if address.anyMailbox ∧ (address.relayHint = [] ∨ address.relayId.length ≠ 32 ∨
      address.mailboxId.length ≠ 16) then
    .error ("A mailbox address needs the relay address, the 32-byte relay ID and the 16-byte " ++
      "mailbox ID")
  else
    let body := writeBody issuedAt (fieldsOf signingPublic encryptionPublic displayName address)
    match C.sign (IdentityBundle.signingInput body) signingPrivate with
    | .ok signature => .ok (writeBlob body ++ writeBlob signature)
    | .error e => .error e

open IdentityBundle in
/-- Parses and verifies a bundle: both keys are there in the right size, a mailbox address is complete,
and the signature is valid under the signing key inside. -/
def parseIdentityBundle (C : ChatCrypto) (raw : Bytes) : Option IdentityBundle := do
  let (body, signature) ← whole rawReader raw
  let (issuedAt, f) ← whole bodyReader body
  let signingKey ← f.signingKey
  let encryptionKey ← f.encryptionKey
  let bundle : IdentityBundle :=
    { issuedAt, signingKey, encryptionKey, raw
      displayName := f.displayName.getD []
      relayHint := f.relayHint.getD []
      relayId := f.relayId.getD []
      mailboxId := f.mailboxId.getD [] }
  if (f.relayId.isSome ∨ f.mailboxId.isSome) ∧ ¬bundle.hasMailbox then none
  else if signingKey.length ≠ C.sigPublicKeySize ∨ encryptionKey.length ≠ C.kemPublicKeySize then none
  else if ¬C.verify (IdentityBundle.signingInput body) signature signingKey then none
  else some bundle

open IdentityBundle in
/-- What is said of a bundle that is not accepted. -/
def identityBundleError (C : ChatCrypto) (raw : Bytes) : String :=
  match whole rawReader raw with
  | none => "The identity bundle is malformed"
  | some (body, _) =>
    if (readU32 body).all (·.1 ≠ magic) then "That is not an identity bundle"
    else if ((readU32 body).bind (readU32 ·.2)).all (·.1 ≠ version) then
      "The identity bundle is from an incompatible version"
    else match whole bodyReader body with
      | none => "The identity bundle is malformed"
      | some (_, f) =>
        if f.signingKey.isNone ∨ f.encryptionKey.isNone then "The identity bundle is missing a key"
        else if (f.relayId.isSome ∨ f.mailboxId.isSome) ∧
            (f.relayHint.getD [] = [] ∨ f.relayId.getD [] = [] ∨ f.mailboxId.getD [] = []) then
          "The identity bundle has an incomplete mailbox address"
        else if f.signingKey.any (·.length ≠ C.sigPublicKeySize) ∨
            f.encryptionKey.any (·.length ≠ C.kemPublicKeySize) then
          "The keys in this bundle are not ML-DSA-65 / ML-KEM-768 public keys"
        else "The signature on this identity bundle is not valid. It may have been altered."

/-! ## Contacts -/

/-- The files of a contact's folder; an empty one stands for a missing one. -/
structure ContactFolder where
  name : Bytes
  pubKem : Bytes := []
  pubDsa : Bytes := []
  bundle : Bytes := []
  sendToken : Bytes := []
  deriving DecidableEq

structure Contact where
  name : Bytes
  pubKem : Bytes
  pubDsa : Bytes
  /-- The hash of `pubDsa`, in lowercase hexadecimal. -/
  fingerprint : Bytes
  /-- Whether a valid bundle binds `pubKem` to `pubDsa`. -/
  kemVerified : Bool := false
  bundleIssuedAt : UInt64 := 0
  relayAddress : Bytes := []
  relayId : Bytes := []
  mailboxId : Bytes := []
  sendToken : Bytes := []
  deriving DecidableEq

def asciiLower (s : Bytes) : Bytes := s.map fun c => if 65 ≤ c ∧ c ≤ 90 then c + 32 else c

/-- Names that are devices on Windows. -/
def reservedNames : List Bytes :=
  ["con", "prn", "aux", "nul", "com1", "com2", "com3", "com4", "com5", "com6", "com7", "com8", "com9",
    "lpt1", "lpt2", "lpt3", "lpt4", "lpt5", "lpt6", "lpt7", "lpt8", "lpt9"].map ascii

def isValidContactName (name : Bytes) : Bool :=
  let ok (c : UInt8) : Bool := (97 ≤ c && c ≤ 122) || (65 ≤ c && c ≤ 90) || (48 ≤ c && c ≤ 57) ||
    c ∈ ascii " -_."
  let atEnd (c : UInt8) : Bool := c ∉ ascii ". "
  name ≠ [] && name.length ≤ 64 && name.all ok && name.head?.all atEnd && name.getLast?.all atEnd &&
    asciiLower name ≠ ascii "self" &&
    (asciiLower name).takeWhile (· ≠ (46 : UInt8)) ∉ reservedNames

abbrev Contacts := List ContactFolder

namespace Contacts

variable (C : ChatCrypto)

/-- `contact_dir`: whether a name can be that of a folder. -/
def isFolderName (name : Bytes) : Bool :=
  name ≠ [] && name ≠ ascii "." && name ≠ ascii ".." && name.all (· ∉ 0 :: ascii "/\\:")

/-- Verified only if the bundle is valid and names exactly these keys. -/
def load (f : ContactFolder) : Option Contact :=
  if ¬isFolderName f.name ∨ f.pubKem.length ≠ C.kemPublicKeySize ∨ f.pubDsa.length ≠ C.sigPublicKeySize then none
  else
    let c : Contact :=
      { name := f.name, pubKem := f.pubKem, pubDsa := f.pubDsa
        fingerprint := C.fingerprint f.pubDsa
        sendToken := if f.sendToken.length = 32 then f.sendToken else [] }
    match parseIdentityBundle C f.bundle with
    | some b =>
      if b.signingKey = f.pubDsa ∧ b.encryptionKey = f.pubKem then
        let c := { c with kemVerified := true, bundleIssuedAt := b.issuedAt }
        some (if b.hasMailbox then
          { c with relayAddress := b.relayHint, relayId := b.relayId, mailboxId := b.mailboxId }
        else c)
      else some c
    | none => some c

def loadContact (cs : Contacts) (name : Bytes) : Option Contact :=
  (Rows.lookup ContactFolder.name name cs).bind (load C)

def findContactByFingerprint (cs : Contacts) (fingerprint : Bytes) : Option Contact :=
  (cs.filterMap (load C)).find? (·.fingerprint = fingerprint)

/-- Writes files of the folder with the name, which is made if it is missing. -/
def write (cs : Contacts) (name : Bytes) (files : ContactFolder → ContactFolder) : Contacts :=
  if (Rows.lookup ContactFolder.name name cs).isSome then
    cs.map fun f => if f.name = name then files f else f
  else (cs ++ [files { name }]).insertionSort (bytesLe ·.name ·.name)

def saveContactBundle (cs : Contacts) (name : Bytes) (b : IdentityBundle) : Except String Contacts :=
  if ¬isValidContactName name then
    .error "Invalid contact name. Use 1-64 letters, digits, spaces, '-', '_' or '.'"
  else if b.raw = [] ∨ b.signingKey.length ≠ C.sigPublicKeySize ∨
      b.encryptionKey.length ≠ C.kemPublicKeySize then
    .error "This is not a valid identity bundle"
  else .ok (cs.write name fun f =>
    { f with pubKem := b.encryptionKey, pubDsa := b.signingKey, bundle := b.raw })

variable {C}

end Contacts

/-! ## Server addresses -/

structure ServerAddress where
  host : Bytes
  port : ℕ
  deriving DecidableEq

def defaultRelayPort : ℕ := 9000

def isSpace (c : UInt8) : Bool := c = 32 || (9 ≤ c && c ≤ 13)
def isDigit (c : UInt8) : Bool := 48 ≤ c && c ≤ 57
def isAlnum (c : UInt8) : Bool := isDigit c || (97 ≤ c && c ≤ 122) || (65 ≤ c && c ≤ 90)

theorem isSpace_of_lt {c : UInt8} (h : 32 < c.toNat) : isSpace c = false := by
  simp only [isSpace, Bool.or_eq_false_iff, Bool.and_eq_false_iff, decide_eq_false_iff_not,
    UInt8.le_iff_toNat_le, ← UInt8.toNat_inj, UInt8.reduceToNat]
  omega

theorem isDigit_iff {c : UInt8} : isDigit c = true ↔ 48 ≤ c.toNat ∧ c.toNat ≤ 57 := by
  simp only [isDigit, Bool.and_eq_true, decide_eq_true_eq, UInt8.le_iff_toNat_le, UInt8.reduceToNat]

theorem isAlnum_iff {c : UInt8} : isAlnum c = true ↔ 48 ≤ c.toNat ∧ c.toNat ≤ 57 ∨
    97 ≤ c.toNat ∧ c.toNat ≤ 122 ∨ 65 ≤ c.toNat ∧ c.toNat ≤ 90 := by
  simp only [isAlnum, isDigit, Bool.or_eq_true, Bool.and_eq_true, decide_eq_true_eq, UInt8.le_iff_toNat_le,
    UInt8.reduceToNat, or_assoc]

def trim (s : Bytes) : Bytes := ((s.dropWhile isSpace).reverse.dropWhile isSpace).reverse

/-- A name, or an IPv6 literal if it has a colon. -/
def isValidHost (host : Bytes) : Bool :=
  host ≠ [] && host.length ≤ 253 &&
    if 58 ∈ host then host.all fun c => (nibble c).isSome || c = 58 || c = 46
    else host.head? ≠ some 45 && host.head? ≠ some 46 &&
      host.all fun c => isAlnum c || c ∈ ascii ".-_"

/-- The host and the text of the port, if there is one. -/
def splitAddress (s : Bytes) : Option (Bytes × Option Bytes) :=
  if s.head? = some 91 then
    let host := s.tail.takeWhile (· ≠ (93 : UInt8))
    match s.tail.drop host.length with
    | [] => none
    | [_] => some (host, none)
    | _ :: 58 :: port => some (host, some port)
    | _ => none
  else if s.count 58 = 1 then
    let host := s.takeWhile (· ≠ (58 : UInt8))
    some (host, some (s.drop (host.length + 1)))
  else some (s, none)

def parsePort (text : Bytes) : Option ℕ :=
  let value := text.foldl (fun n c => n * 10 + (c.toNat - 48)) 0
  if text = [] ∨ text.length > 5 ∨ ¬text.all isDigit ∨ value = 0 ∨ value > 65535 then none
  else some value

def parseServerAddress (text : Bytes) : Option ServerAddress := do
  let (host, port) ← splitAddress (trim text)
  if ¬isValidHost host then none
  else match port with
    | none => some ⟨host, defaultRelayPort⟩
    | some text => (parsePort text).map (⟨host, ·⟩)

end PqSuite
