import PqSuite.Client.Protect
import PqSuite.Protocol.Readers

/-!
# The keyring (`keyring.cpp`)

What a device keeps on its relay so that a new installation can be restored: its archives and the
facts that cannot be read back from them. `serialize` limits only how long a text may be, `parse`
limits every size and count, so a keyring comes back when it is within the limits of `parse`
(`parse_serialize`). The bytes are sealed under a key derived from the device's own keys.
-/

namespace PqSuite.Keyring

open Reader

variable {b : Bytes} {α : Type} {max : ℕ} {v : UInt32}

/-! ## Contents -/

/-- `int role`: any value can be kept and written, two have a meaning. -/
def ArchiveRole : Type := Int32
  deriving DecidableEq

def ArchiveRole.creator : ArchiveRole := (1 : Int32)
def ArchiveRole.member : ArchiveRole := (2 : Int32)

/-- `int state`. -/
def ArchiveState : Type := Int32
  deriving DecidableEq

def ArchiveState.granted : ArchiveState := (0 : Int32)
def ArchiveState.joined : ArchiveState := (1 : Int32)
def ArchiveState.failed : ArchiveState := (2 : Int32)

structure ArchiveItem where
  conversationId : Bytes
  relayAddress : Bytes
  relayId : Bytes
  role : ArchiveRole
  state : ArchiveState
  archiveKey : Bytes
  chatPublicKey : Bytes
  chatPrivateKey : Bytes
  /-- Only while granted. -/
  joinToken : Bytes
  deriving DecidableEq

structure MemberToken where
  conversationId : Bytes
  memberFp : Bytes
  token : Bytes
  deriving DecidableEq

structure Introduced where
  fp : Bytes
  bundle : Bytes
  issuedAt : Int64
  introducedBy : Bytes
  firstSeen : Int64
  deriving DecidableEq

structure IssuedToken where
  hash : Bytes
  label : Bytes
  createdAt : Int64
  boundFp : Bytes
  revoked : Bool
  deriving DecidableEq

structure Receipts where
  conversationId : Bytes
  delivery : Bool
  read : Bool
  deriving DecidableEq

structure Contents where
  archives : List ArchiveItem := []
  verified : List Bytes := []
  memberTokens : List MemberToken := []
  introduced : List Introduced := []
  issuedTokens : List IssuedToken := []
  receipts : List Receipts := []
  deriving DecidableEq

def Contents.isEmpty (c : Contents) : Bool :=
  c.archives.isEmpty && c.verified.isEmpty && c.memberTokens.isEmpty && c.introduced.isEmpty &&
    c.issuedTokens.isEmpty && c.receipts.isEmpty

/-! ## Writing -/

def version : UInt32 := 1
def magicLabel : Bytes := ascii "pq-suite v3 keyring"
def aadLabel : Bytes := ascii "pq-suite v3 archive keyring seal"

def maxArchives : ℕ := 4096
def maxEntries : ℕ := 100000
def maxText : ℕ := 4096
def maxBundle : ℕ := 16 * 1024
def maxKeyBlob : ℕ := 8192

def ArchiveRole.code (role : ArchiveRole) : UInt32 := Int32.toUInt32 role
def ArchiveState.code (state : ArchiveState) : UInt32 := Int32.toUInt32 state

def flag (b : Bool) (bit : UInt32) : UInt32 := if b then bit else 0

def putText (s : Bytes) : Except String Bytes :=
  if s.length > maxText then .error "A keyring entry is too long" else .ok (writeBlob s)

def ArchiveItem.write (a : ArchiveItem) : Except String Bytes := do
  let address ← putText a.relayAddress
  return writeBlob a.conversationId ++ (address ++ (writeBlob a.relayId ++
    (writeU32 a.role.code ++ (writeU32 a.state.code ++ (writeBlob a.archiveKey ++
      (writeBlob a.chatPublicKey ++ (writeBlob a.chatPrivateKey ++ writeBlob a.joinToken)))))))

def MemberToken.write (t : MemberToken) : Except String Bytes := do
  let fp ← putText t.memberFp
  return writeBlob t.conversationId ++ (fp ++ writeBlob t.token)

def Introduced.write (i : Introduced) : Except String Bytes := do
  let fp ← putText i.fp
  let introducedBy ← putText i.introducedBy
  return fp ++ (writeBlob i.bundle ++ (writeU64 i.issuedAt.toUInt64 ++
    (introducedBy ++ writeU64 i.firstSeen.toUInt64)))

def IssuedToken.write (t : IssuedToken) : Except String Bytes := do
  let label ← putText t.label
  let boundFp ← putText t.boundFp
  return writeBlob t.hash ++ (label ++ (writeU64 t.createdAt.toUInt64 ++
    (boundFp ++ writeU32 (flag t.revoked 1))))

def Receipts.write (r : Receipts) : Except String Bytes :=
  .ok (writeBlob r.conversationId ++ writeU32 (flag r.delivery 1 ||| flag r.read 2))

def writeAll (write : α → Except String Bytes) : List α → Except String Bytes
  | [] => .ok []
  | a :: rest => do
    let first ← write a
    let rest ← writeAll write rest
    return first ++ rest

def writeList (write : α → Except String Bytes) (items : List α) :
    Except String Bytes := do
  let entries ← writeAll write items
  return writeU32 (UInt32.ofNat items.length) ++ entries

def serialize (c : Contents) : Except String Bytes := do
  let archives ← writeList ArchiveItem.write c.archives
  let verified ← writeList putText c.verified
  let memberTokens ← writeList MemberToken.write c.memberTokens
  let introduced ← writeList Introduced.write c.introduced
  let issuedTokens ← writeList IssuedToken.write c.issuedTokens
  let receipts ← writeList Receipts.write c.receipts
  return writeString magicLabel ++ (writeU32 version ++ (archives ++ (verified ++
    (memberTokens ++ (introduced ++ (issuedTokens ++ receipts))))))

/-! ## Reading -/

/-- A blob of at most `max` bytes; if `exact` is not 0, of exactly that many or, where allowed, none. -/
def sized (max exact : ℕ) (allowEmpty : Bool) : Reader UInt8 Bytes := do
  let v ← blob max
  guard (exact = 0 ∨ v.length = exact ∨ allowEmpty = true ∧ v = [])
  return v

def text (max : ℕ) : Reader UInt8 Bytes := sized max 0 false

/-- A count may not be larger than what is left could hold: an entry has at least 4 bytes. -/
def entries (max : ℕ) (entry : Reader UInt8 α) : Reader UInt8 (List α) := do
  let n ← u32
  let left ← get
  guard (n.toNat ≤ max ∧ n.toNat * 4 ≤ left.length)
  many n.toNat entry

def ArchiveItem.reader : Reader UInt8 ArchiveItem := do
  let conversationId ← sized 32 16 false
  let relayAddress ← text 255
  let relayId ← sized 32 32 false
  let role ← u32
  let state ← u32
  let archiveKey ← sized 32 32 false
  let chatPublicKey ← sized maxKeyBlob 0 false
  let chatPrivateKey ← sized maxKeyBlob 0 false
  let joinToken ← sized 32 32 true
  guard (relayAddress ≠ [] ∧ chatPublicKey ≠ [] ∧ chatPrivateKey ≠ [] ∧ (role = 1 ∨ role = 2) ∧ state ≤ 2)
  return ⟨conversationId, relayAddress, relayId, role.toInt32, state.toInt32, archiveKey, chatPublicKey,
    chatPrivateKey, joinToken⟩

def MemberToken.reader : Reader UInt8 MemberToken := do
  let conversationId ← sized 32 16 false
  let memberFp ← text 64
  let token ← sized 32 32 false
  return ⟨conversationId, memberFp, token⟩

def Introduced.reader : Reader UInt8 Introduced := do
  let fp ← text 64
  let bundle ← sized maxBundle 0 false
  let issuedAt ← u64
  let introducedBy ← text 64
  let firstSeen ← u64
  guard (bundle ≠ [])
  return ⟨fp, bundle, issuedAt.toInt64, introducedBy, firstSeen.toInt64⟩

def IssuedToken.reader : Reader UInt8 IssuedToken := do
  let hash ← sized 32 32 false
  let label ← text maxText
  let createdAt ← u64
  let boundFp ← text 64
  let revoked ← u32
  guard (revoked ≤ 1)
  return ⟨hash, label, createdAt.toInt64, boundFp, revoked = 1⟩

def Receipts.reader : Reader UInt8 Receipts := do
  let conversationId ← sized 32 16 false
  let flags ← u32
  guard (flags ≤ 3)
  return ⟨conversationId, flags &&& 1 ≠ 0, flags &&& 2 ≠ 0⟩

def Contents.reader : Reader UInt8 Contents := do
  let label ← (readString · 64 : Reader UInt8 Bytes)
  guard (label = magicLabel)
  let v ← u32
  guard (v = version)
  let archives ← entries maxArchives ArchiveItem.reader
  let verified ← entries maxEntries (text 64)
  let memberTokens ← entries maxEntries MemberToken.reader
  let introduced ← entries maxEntries Introduced.reader
  let issuedTokens ← entries maxEntries IssuedToken.reader
  let receipts ← entries maxEntries Receipts.reader
  return ⟨archives, verified, memberTokens, introduced, issuedTokens, receipts⟩

/-- Nothing may be left over. -/
def parse (data : Bytes) : Option Contents := whole Contents.reader data

/-! ## Sealing -/

section Seal

variable (C : SecretCrypto)

def sealAad (mailboxId : Bytes) : Bytes := writeString aadLabel ++ writeBlob mailboxId

/-- The nonce is 12 random bytes. -/
def sealKeyring (key mailboxId plaintext nonce : Bytes) : Bytes :=
  nonce ++ C.encrypt key nonce plaintext (sealAad mailboxId)

def openKeyring (key mailboxId data : Bytes) : Option Bytes :=
  if key.length ≠ 32 ∨ data.length < 12 + 16 then none
  else C.decrypt key (data.take 12) (data.drop 12) (sealAad mailboxId)

variable {C}

theorem openKeyring_sealKeyring {key nonce : Bytes} (hkey : key.length = 32) (hnonce : nonce.length = 12)
    (mailboxId plaintext : Bytes) :
    openKeyring C key mailboxId (sealKeyring C key mailboxId plaintext nonce) = some plaintext := by
  have hlen : ¬(key.length ≠ 32 ∨
      (sealKeyring C key mailboxId plaintext nonce).length < 12 + 16) := by
    simp only [sealKeyring, List.length_append, C.length_encrypt, hkey, hnonce]
    omega
  rw [openKeyring, if_neg hlen, sealKeyring, ← hnonce, List.take_left, List.drop_left, C.decrypt_encrypt]

end Seal

/-! ## Reading back what was written -/

/-- A text that `text max` reads back. -/
abbrev Fits (max : ℕ) (s : Bytes) : Prop := s.length ≤ max

/-- The sizes and the values `ArchiveItem.reader` insists on. -/
abbrev ArchiveItem.Readable (a : ArchiveItem) : Prop :=
  a.conversationId.length = 16 ∧ Fits 255 a.relayAddress ∧ a.relayId.length = 32 ∧
    a.archiveKey.length = 32 ∧ Fits maxKeyBlob a.chatPublicKey ∧ Fits maxKeyBlob a.chatPrivateKey ∧
    (a.joinToken.length = 32 ∨ a.joinToken = []) ∧
    (a.relayAddress ≠ [] ∧ a.chatPublicKey ≠ [] ∧ a.chatPrivateKey ≠ []) ∧
    (a.role = .creator ∨ a.role = .member) ∧ (a.state = .granted ∨ a.state = .joined ∨ a.state = .failed)

abbrev MemberToken.Readable (t : MemberToken) : Prop :=
  t.conversationId.length = 16 ∧ Fits 64 t.memberFp ∧ t.token.length = 32

abbrev Introduced.Readable (i : Introduced) : Prop :=
  Fits 64 i.fp ∧ Fits maxBundle i.bundle ∧ Fits 64 i.introducedBy ∧ i.bundle ≠ []

abbrev IssuedToken.Readable (t : IssuedToken) : Prop :=
  t.hash.length = 32 ∧ Fits 64 t.boundFp

abbrev Receipts.Readable (r : Receipts) : Prop := r.conversationId.length = 16

/-- The sizes, counts and values `parse` insists on. -/
structure Contents.Readable (c : Contents) : Prop where
  archives : c.archives.length ≤ maxArchives ∧ ∀ a ∈ c.archives, a.Readable
  verified : c.verified.length ≤ maxEntries ∧ ∀ fp ∈ c.verified, Fits 64 fp
  memberTokens : c.memberTokens.length ≤ maxEntries ∧ ∀ t ∈ c.memberTokens, t.Readable
  introduced : c.introduced.length ≤ maxEntries ∧ ∀ i ∈ c.introduced, i.Readable
  issuedTokens : c.issuedTokens.length ≤ maxEntries ∧ ∀ t ∈ c.issuedTokens, t.Readable
  receipts : c.receipts.length ≤ maxEntries ∧ ∀ r ∈ c.receipts, r.Readable

instance (c : Contents) : Decidable c.Readable :=
  decidable_of_iff
    ((c.archives.length ≤ maxArchives ∧ ∀ a ∈ c.archives, a.Readable) ∧
      (c.verified.length ≤ maxEntries ∧ ∀ fp ∈ c.verified, Fits 64 fp) ∧
      (c.memberTokens.length ≤ maxEntries ∧ ∀ t ∈ c.memberTokens, t.Readable) ∧
      (c.introduced.length ≤ maxEntries ∧ ∀ i ∈ c.introduced, i.Readable) ∧
      (c.issuedTokens.length ≤ maxEntries ∧ ∀ t ∈ c.issuedTokens, t.Readable) ∧
      (c.receipts.length ≤ maxEntries ∧ ∀ r ∈ c.receipts, r.Readable))
    ⟨fun ⟨ha, hv, hm, hi, ht, hr⟩ => ⟨ha, hv, hm, hi, ht, hr⟩, fun ⟨ha, hv, hm, hi, ht, hr⟩ =>
      ⟨ha, hv, hm, hi, ht, hr⟩⟩

theorem reads_sized {exact : ℕ} {allowEmpty : Bool} (hmax : b.length ≤ max) (hlt : max < 2 ^ 32)
    (hb : exact = 0 ∨ b.length = exact ∨ allowEmpty = true ∧ b = []) :
    Reads (sized max exact allowEmpty) (writeBlob b) b :=
  (reads_blob hmax hlt).last <| .check (f := fun _ => pure b) hb <| reads_pure b

theorem reads_exact {n : ℕ} (hb : b.length = n) (hn : n ≤ 32) (allowEmpty : Bool) :
    Reads (sized 32 n allowEmpty) (writeBlob b) b :=
  reads_sized (by omega) (by decide) (.inr (.inl hb))

theorem putText_eq_ok {s : Bytes} (h : putText s = .ok b) : Fits maxText s ∧ b = writeBlob s := by
  unfold putText at h
  split_ifs at h with hlong
  exact ⟨not_lt.1 hlong, (Except.ok.inj h).symm⟩

theorem reads_text {s : Bytes} (h : putText s = .ok b) (hs : Fits max s) (hmax : max < 2 ^ 32) :
    Reads (text max) b s := by
  obtain ⟨-, rfl⟩ := putText_eq_ok h
  exact reads_sized hs hmax (.inl rfl)

theorem reads_fingerprint {fp : Bytes} (hfp : Fits 64 fp) (h : putText fp = .ok b) :
    Reads (text 64) b fp ∧ 4 ≤ b.length := by
  refine ⟨reads_text h hfp (by decide), ?_⟩
  obtain ⟨-, rfl⟩ := putText_eq_ok h
  simp [writeBlob]

theorem reads_archiveItem {a : ArchiveItem} (ha : a.Readable) (h : a.write = .ok b) :
    Reads ArchiveItem.reader b a ∧ 4 ≤ b.length := by
  obtain ⟨hid, haddress, hrelay, hkey, hpub, hpriv, htoken, ⟨haddr, hpubne, hprivne⟩, hrole, hstate⟩ := ha
  obtain ⟨address, htext, hb⟩ := exists_of_bind_eq_ok h
  cases hb
  refine ⟨?_, by simp [writeBlob]⟩
  have hjoin : Reads (sized 32 32 true) (writeBlob a.joinToken) a.joinToken :=
    reads_sized (by rcases htoken with h | h <;> simp [h]) (by decide)
      (.inr (htoken.imp id fun h => ⟨rfl, h⟩))
  have hcodes : (a.role.code = 1 ∨ a.role.code = 2) ∧ a.state.code ≤ 2 := by
    refine ⟨hrole.imp (congrArg ArchiveRole.code) (congrArg ArchiveRole.code), ?_⟩
    rcases hstate with h | h | h <;> rw [h] <;> decide
  have hback : a.role.code.toInt32 = a.role ∧ a.state.code.toInt32 = a.state :=
    ⟨Int32.toInt32_toUInt32 a.role, Int32.toInt32_toUInt32 a.state⟩
  exact (reads_exact hid (by decide) false).bind <|
    (reads_text htext haddress (by decide)).bind <|
    (reads_exact hrelay le_rfl false).bind <| (reads_u32 _).bind <| (reads_u32 _).bind <|
    (reads_exact hkey le_rfl false).bind <| (reads_sized hpub (by decide) (.inl rfl)).bind <|
    (reads_sized hpriv (by decide) (.inl rfl)).bind <| hjoin.last <|
    .check ⟨haddr, hpubne, hprivne, hcodes⟩ <| by
    rw [hback.1, hback.2]
    exact reads_pure a

theorem reads_memberToken {t : MemberToken} (ht : t.Readable) (h : t.write = .ok b) :
    Reads MemberToken.reader b t ∧ 4 ≤ b.length := by
  obtain ⟨hid, hfp, htoken⟩ := ht
  obtain ⟨fp, htext, hb⟩ := exists_of_bind_eq_ok h
  cases hb
  refine ⟨?_, by simp [writeBlob]⟩
  exact (reads_exact hid (by decide) false).bind <| (reads_text htext hfp (by decide)).bind <|
    (reads_exact htoken le_rfl false).last <| reads_pure t

theorem reads_introduced {i : Introduced} (hi : i.Readable) (h : i.write = .ok b) :
    Reads Introduced.reader b i ∧ 4 ≤ b.length := by
  obtain ⟨hfp, hbundle, hby, hne⟩ := hi
  obtain ⟨fp, htext, h⟩ := exists_of_bind_eq_ok h
  obtain ⟨introducedBy, hbytext, hb⟩ := exists_of_bind_eq_ok h
  cases hb
  refine ⟨?_, by simp [writeBlob]; omega⟩
  exact (reads_text htext hfp (by decide)).bind <|
    (reads_sized hbundle (by decide) (.inl rfl)).bind <| (reads_u64 _).bind <|
    (reads_text hbytext hby (by decide)).bind <| (reads_u64 _).last <| .check hne <| reads_pure i

theorem reads_issuedToken {t : IssuedToken} (ht : t.Readable) (h : t.write = .ok b) :
    Reads IssuedToken.reader b t ∧ 4 ≤ b.length := by
  obtain ⟨hhash, hfp⟩ := ht
  obtain ⟨label, hlabel, h⟩ := exists_of_bind_eq_ok h
  obtain ⟨boundFp, htext, hb⟩ := exists_of_bind_eq_ok h
  cases hb
  refine ⟨?_, by simp [writeBlob]⟩
  have hrevoked : flag t.revoked 1 ≤ 1 ∧ decide (flag t.revoked 1 = 1) = t.revoked := by
    cases t.revoked <;> decide
  exact (reads_exact hhash le_rfl false).bind <|
    (reads_text hlabel (putText_eq_ok hlabel).1 (by decide)).bind <| (reads_u64 _).bind <|
    (reads_text htext hfp (by decide)).bind <| (reads_u32 _).last <| .check hrevoked.1 <| by
    rw [hrevoked.2]
    exact reads_pure t

theorem reads_receipts {r : Receipts} (hr : r.Readable) (h : r.write = .ok b) :
    Reads Receipts.reader b r ∧ 4 ≤ b.length := by
  cases h
  refine ⟨?_, by simp [writeBlob]⟩
  have hflags : flag r.delivery 1 ||| flag r.read 2 ≤ 3 ∧
      decide ((flag r.delivery 1 ||| flag r.read 2) &&& 1 ≠ 0) = r.delivery ∧
      decide ((flag r.delivery 1 ||| flag r.read 2) &&& 2 ≠ 0) = r.read := by
    cases r.delivery <;> cases r.read <;> decide
  exact (reads_exact hr (by decide) false).bind <| (reads_u32 _).last <| .check hflags.1 <| by
    rw [hflags.2.1, hflags.2.2]
    exact reads_pure r

/-- What each of the entries wrote, one after the other. -/
theorem parts_of_writeAll {write : α → Except String Bytes} {entry : Reader UInt8 α} {items : List α}
    (hitem : ∀ a ∈ items, ∀ part, write a = .ok part → Reads entry part a ∧ 4 ≤ part.length)
    (h : writeAll write items = .ok b) :
    ∃ parts : List Bytes, b = parts.flatten ∧ items.length * 4 ≤ b.length ∧
      List.Forall₂ (Reads entry) parts items := by
  induction items generalizing b with
  | nil =>
    cases h
    exact ⟨[], rfl, le_rfl, .nil⟩
  | cons a items ih =>
    obtain ⟨first, hfirst, h⟩ := exists_of_bind_eq_ok h
    obtain ⟨rest, hrest, hb⟩ := exists_of_bind_eq_ok h
    obtain ⟨parts, rfl, hlen, hparts⟩ := ih (fun a ha => hitem a (.tail _ ha)) hrest
    obtain ⟨hread, hfour⟩ := hitem a (.head _) first hfirst
    cases hb
    refine ⟨first :: parts, rfl, ?_, .cons hread hparts⟩
    rw [List.length_cons, List.length_append]
    omega

theorem reads_entries {write : α → Except String Bytes} {entry : Reader UInt8 α} {items : List α}
    (hmax : items.length ≤ max) (hlt : max < 2 ^ 32)
    (hitem : ∀ a ∈ items, ∀ part, write a = .ok part → Reads entry part a ∧ 4 ≤ part.length)
    (h : writeList write items = .ok b) : Reads (entries max entry) b items := by
  obtain ⟨body, hbody, hb⟩ := exists_of_bind_eq_ok h
  cases hb
  obtain ⟨parts, rfl, hlen, hparts⟩ := parts_of_writeAll hitem hbody
  have hcount : (UInt32.ofNat items.length).toNat = items.length := by
    rw [UInt32.toNat_ofNat', Nat.mod_eq_of_lt (by omega)]
  intro rest
  rw [entries, List.append_assoc, StateT.run_bind, reads_u32]
  change (do
    guard ((UInt32.ofNat items.length).toNat ≤ max ∧
      (UInt32.ofNat items.length).toNat * 4 ≤ (parts.flatten ++ rest).length)
    many (UInt32.ofNat items.length).toNat entry : Reader UInt8 _).run _ = _
  rw [hcount]
  refine Reads.check ⟨hmax, ?_⟩ (reads_many hparts) rest
  rw [List.length_append]
  omega

theorem parse_serialize {c : Contents} (hc : c.Readable) (h : serialize c = .ok b) :
    parse b = some c := by
  obtain ⟨archives, harchives, h⟩ := exists_of_bind_eq_ok h
  obtain ⟨verified, hverified, h⟩ := exists_of_bind_eq_ok h
  obtain ⟨memberTokens, hmemberTokens, h⟩ := exists_of_bind_eq_ok h
  obtain ⟨introduced, hintroduced, h⟩ := exists_of_bind_eq_ok h
  obtain ⟨issuedTokens, hissuedTokens, h⟩ := exists_of_bind_eq_ok h
  obtain ⟨receipts, hreceipts, hb⟩ := exists_of_bind_eq_ok h
  cases hb
  have hlabel : Reads (readString · 64 : Reader UInt8 Bytes) (writeString magicLabel) magicLabel :=
    fun rest => readBlob_writeBlob (by decide) (by decide) rest
  have hread : Reads Contents.reader _ c :=
    hlabel.bind <| .check rfl <| (reads_u32 version).bind <| .check rfl <|
    (reads_entries hc.archives.1 (by decide)
      (fun a ha _ => reads_archiveItem (hc.archives.2 a ha)) harchives).bind <|
    (reads_entries hc.verified.1 (by decide)
      (fun fp hfp _ => reads_fingerprint (hc.verified.2 fp hfp)) hverified).bind <|
    (reads_entries hc.memberTokens.1 (by decide)
      (fun t ht _ => reads_memberToken (hc.memberTokens.2 t ht)) hmemberTokens).bind <|
    (reads_entries hc.introduced.1 (by decide)
      (fun i hi _ => reads_introduced (hc.introduced.2 i hi)) hintroduced).bind <|
    (reads_entries hc.issuedTokens.1 (by decide)
      (fun t ht _ => reads_issuedToken (hc.issuedTokens.2 t ht)) hissuedTokens).bind <|
    (reads_entries hc.receipts.1 (by decide)
      (fun r hr _ => reads_receipts (hc.receipts.2 r hr)) hreceipts).last (reads_pure c)
  exact hread.whole_eq

/-! ## Nothing else is read -/

theorem takes_sized {exact : ℕ} {allowEmpty : Bool} (hmax : max < 2 ^ 32) :
    Takes (sized max exact allowEmpty) (fun b part => b.length ≤ max ∧
      (exact = 0 ∨ b.length = exact ∨ allowEmpty = true ∧ b = []) ∧ part = writeBlob b) := by
  intro xs b rest hrun
  obtain ⟨v, mid, hv, rfl, hcheck⟩ := (exact_blob hmax).of_run hrun
  obtain ⟨hexact, hpure⟩ := of_run_check hcheck
  obtain ⟨rfl, rfl⟩ := of_run_pure hpure
  exact ⟨writeBlob v, rfl, hv, hexact, rfl⟩

theorem takes_exact {n : ℕ} (hmax : max < 2 ^ 32) (hn : n ≠ 0) :
    Takes (sized max n false) (fun b part => b.length = n ∧ part = writeBlob b) := by
  intro xs b rest hrun
  obtain ⟨part, rfl, -, hexact, rfl⟩ := takes_sized hmax xs b rest hrun
  simp only [hn, Bool.false_eq_true, false_and, or_false, false_or] at hexact
  exact ⟨_, rfl, hexact, rfl⟩

theorem putText_of_fits {s : Bytes} (h : Fits max s) (hmax : max ≤ maxText) :
    putText s = .ok (writeBlob s) :=
  if_neg (not_lt.2 (h.trans hmax))

theorem takes_text (hmax : max ≤ maxText) :
    Takes (text max) (fun s part => Fits max s ∧ part = writeBlob s ∧ putText s = .ok part) := by
  intro xs s rest hrun
  have hlt : max < 2 ^ 32 := hmax.trans_lt (by decide)
  obtain ⟨part, rfl, hs, -, rfl⟩ := takes_sized hlt xs s rest hrun
  exact ⟨_, rfl, hs, rfl, putText_of_fits hs hmax⟩

theorem eq_of_le_two (h : v ≤ 2) : v = 0 ∨ v = 1 ∨ v = 2 := by
  rw [UInt32.le_iff_toNat_le] at h
  simp only [← UInt32.toNat_inj, UInt32.reduceToNat] at h ⊢
  omega

theorem takes_archiveItem :
    Takes ArchiveItem.reader (fun a part => a.Readable ∧ a.write = .ok part) := by
  intro xs a rest hrun
  obtain ⟨conversationId, _, _, ⟨hid, rfl⟩, rfl, h₁⟩ :=
    (takes_exact (by decide) (by decide)).of_run hrun
  obtain ⟨relayAddress, _, _, ⟨haddress, rfl, htext⟩, rfl, h₂⟩ := (takes_text (by decide)).of_run h₁
  obtain ⟨relayId, _, _, ⟨hrelay, rfl⟩, rfl, h₃⟩ := (takes_exact (by decide) (by decide)).of_run h₂
  obtain ⟨roleCode, _, -, rfl, h₄⟩ := exact_u32.of_run h₃
  obtain ⟨stateCode, _, -, rfl, h₅⟩ := exact_u32.of_run h₄
  obtain ⟨archiveKey, _, _, ⟨hkey, rfl⟩, rfl, h₆⟩ := (takes_exact (by decide) (by decide)).of_run h₅
  obtain ⟨chatPublicKey, _, _, ⟨hpub, -, rfl⟩, rfl, h₇⟩ := (takes_sized (by decide)).of_run h₆
  obtain ⟨chatPrivateKey, _, _, ⟨hpriv, -, rfl⟩, rfl, h₈⟩ := (takes_sized (by decide)).of_run h₇
  obtain ⟨joinToken, _, _, ⟨-, hjoin, rfl⟩, rfl, h₉⟩ := (takes_sized (by decide)).of_run h₈
  obtain ⟨⟨haddr, hpubne, hprivne, hrole, hstate⟩, hpure⟩ := of_run_check h₉
  obtain ⟨rfl, rfl⟩ := of_run_pure hpure
  simp only [OfNat.ofNat_ne_zero, true_and, false_or] at hjoin
  have hcodes : ArchiveRole.code roleCode.toInt32 = roleCode ∧ ArchiveState.code stateCode.toInt32 = stateCode :=
    ⟨UInt32.toUInt32_toInt32 roleCode, UInt32.toUInt32_toInt32 stateCode⟩
  refine ⟨?part, ?taken, ⟨hid, haddress, hrelay, hkey, hpub, hpriv, hjoin, ⟨haddr, hpubne, hprivne⟩, ?role,
    ?state⟩, ?written⟩
  case role => exact hrole.imp (congrArg UInt32.toInt32) (congrArg UInt32.toInt32)
  case state =>
    exact (eq_of_le_two hstate).imp (congrArg UInt32.toInt32)
      (.imp (congrArg UInt32.toInt32) (congrArg UInt32.toInt32))
  case written =>
    rw [ArchiveItem.write, htext, hcodes.1, hcodes.2]
    rfl
  case taken => simp only [List.append_assoc]

theorem takes_memberToken :
    Takes MemberToken.reader (fun t part => t.Readable ∧ t.write = .ok part) := by
  intro xs t rest hrun
  obtain ⟨conversationId, _, _, ⟨hid, rfl⟩, rfl, h₁⟩ :=
    (takes_exact (by decide) (by decide)).of_run hrun
  obtain ⟨memberFp, _, _, ⟨hfp, rfl, htext⟩, rfl, h₂⟩ := (takes_text (by decide)).of_run h₁
  obtain ⟨token, _, _, ⟨htoken, rfl⟩, rfl, hpure⟩ := (takes_exact (by decide) (by decide)).of_run h₂
  obtain ⟨rfl, rfl⟩ := of_run_pure hpure
  refine ⟨?part, ?taken, ⟨hid, hfp, htoken⟩, ?written⟩
  case written =>
    rw [MemberToken.write, htext]
    rfl
  case taken => simp only [List.append_assoc]

theorem takes_introduced :
    Takes Introduced.reader (fun i part => i.Readable ∧ i.write = .ok part) := by
  intro xs i rest hrun
  obtain ⟨fp, _, _, ⟨hfp, rfl, htext⟩, rfl, h₁⟩ := (takes_text (by decide)).of_run hrun
  obtain ⟨bundle, _, _, ⟨hbundle, -, rfl⟩, rfl, h₂⟩ := (takes_sized (by decide)).of_run h₁
  obtain ⟨issuedAt, _, -, rfl, h₃⟩ := exact_u64.of_run h₂
  obtain ⟨introducedBy, _, _, ⟨hby, rfl, hbytext⟩, rfl, h₄⟩ := (takes_text (by decide)).of_run h₃
  obtain ⟨firstSeen, _, -, rfl, h₅⟩ := exact_u64.of_run h₄
  obtain ⟨hne, hpure⟩ := of_run_check h₅
  obtain ⟨rfl, rfl⟩ := of_run_pure hpure
  refine ⟨?part, ?taken, ⟨hfp, hbundle, hby, hne⟩, ?written⟩
  case written =>
    rw [Introduced.write, htext, hbytext]
    rfl
  case taken => simp only [List.append_assoc, UInt64.toUInt64_toInt64]

theorem flag_revoked (h : v ≤ 1) : flag (decide (v = 1)) 1 = v := by
  have hv : v = 0 ∨ v = 1 := by
    rw [UInt32.le_iff_toNat_le] at h
    rw [← UInt32.toNat_inj, ← UInt32.toNat_inj]
    simp only [UInt32.reduceToNat] at h ⊢
    omega
  rcases hv with rfl | rfl <;> rfl

theorem takes_issuedToken :
    Takes IssuedToken.reader (fun t part => t.Readable ∧ t.write = .ok part) := by
  intro xs t rest hrun
  obtain ⟨hash, _, _, ⟨hhash, rfl⟩, rfl, h₁⟩ := (takes_exact (by decide) (by decide)).of_run hrun
  obtain ⟨label, _, _, ⟨-, rfl, hlabel⟩, rfl, h₂⟩ := (takes_text le_rfl).of_run h₁
  obtain ⟨createdAt, _, -, rfl, h₃⟩ := exact_u64.of_run h₂
  obtain ⟨boundFp, _, _, ⟨hfp, rfl, htext⟩, rfl, h₄⟩ := (takes_text (by decide)).of_run h₃
  obtain ⟨revoked, _, -, rfl, h₅⟩ := exact_u32.of_run h₄
  obtain ⟨hrevoked, hpure⟩ := of_run_check h₅
  obtain ⟨rfl, rfl⟩ := of_run_pure hpure
  refine ⟨?part, ?taken, ⟨hhash, hfp⟩, ?written⟩
  case written =>
    rw [IssuedToken.write, hlabel, htext]
    rfl
  case taken => simp only [List.append_assoc, UInt64.toUInt64_toInt64, flag_revoked hrevoked]

theorem flag_receipts (h : v ≤ 3) :
    flag (decide (v &&& 1 ≠ 0)) 1 ||| flag (decide (v &&& 2 ≠ 0)) 2 = v := by
  have hv : v = 0 ∨ v = 1 ∨ v = 2 ∨ v = 3 := by
    rw [UInt32.le_iff_toNat_le] at h
    simp only [← UInt32.toNat_inj, UInt32.reduceToNat] at h ⊢
    omega
  rcases hv with rfl | rfl | rfl | rfl <;> rfl

theorem takes_receipts :
    Takes Receipts.reader (fun r part => r.Readable ∧ r.write = .ok part) := by
  intro xs r rest hrun
  obtain ⟨conversationId, _, _, ⟨hid, rfl⟩, rfl, h₁⟩ :=
    (takes_exact (by decide) (by decide)).of_run hrun
  obtain ⟨flags, _, -, rfl, h₂⟩ := exact_u32.of_run h₁
  obtain ⟨hflags, hpure⟩ := of_run_check h₂
  obtain ⟨rfl, rfl⟩ := of_run_pure hpure
  refine ⟨_, ?_, hid, rfl⟩
  rw [flag_receipts hflags, List.append_assoc]

theorem writeAll_of_forall₂ {write : α → Except String Bytes} {items : List α} {parts : List Bytes}
    (h : List.Forall₂ (fun a part => write a = .ok part) items parts) :
    writeAll write items = .ok parts.flatten := by
  induction h with
  | nil => rfl
  | cons hfirst _ ih =>
    rw [writeAll, hfirst, ih]
    rfl

theorem takes_entries {write : α → Except String Bytes} {entry : Reader UInt8 α} {ok : α → Prop}
    (hentry : Takes entry (fun a part => ok a ∧ write a = .ok part)) :
    Takes (entries max entry) (fun items part =>
      (items.length ≤ max ∧ ∀ a ∈ items, ok a) ∧ writeList write items = .ok part) := by
  intro xs items rest hrun
  obtain ⟨n, mid, -, rfl, hget⟩ := exact_u32.of_run hrun
  -- looking at what is left takes nothing
  change ((guard (n.toNat ≤ max ∧ n.toNat * 4 ≤ mid.length) : Reader UInt8 Unit) >>= fun _ =>
    many n.toNat entry).run mid = _ at hget
  obtain ⟨hcount, hmany⟩ := of_run_check hget
  obtain ⟨_, rfl, hlen, parts, rfl, hparts⟩ := hentry.many n.toNat mid items rest hmany
  obtain ⟨hok, hwritten⟩ := (List.forall₂_and_left items parts).1 hparts
  refine ⟨_, (List.append_assoc ..).symm, ⟨hlen.trans_le hcount.1, hok⟩, ?_⟩
  rw [writeList, writeAll_of_forall₂ hwritten, hlen, UInt32.ofNat_toNat]
  rfl

theorem serialize_parse {data : Bytes} {c : Contents} (h : parse data = some c) :
    c.Readable ∧ serialize c = .ok data := by
  have hrun := whole_eq_some h
  have hlabel : Exact (readString · 64 : Reader UInt8 Bytes) (·.length ≤ 64) writeString :=
    exact_blob (by decide)
  obtain ⟨label, _, -, rfl, h₁⟩ := hlabel.of_run hrun
  obtain ⟨rfl, h₂⟩ := of_run_check h₁
  obtain ⟨v, _, -, rfl, h₃⟩ := exact_u32.of_run h₂
  obtain ⟨rfl, h₄⟩ := of_run_check h₃
  obtain ⟨archives, _, _, ⟨harchives, hw₁⟩, rfl, h₅⟩ := (takes_entries takes_archiveItem).of_run h₄
  have hfingerprint : Takes (text 64) (fun fp part => Fits 64 fp ∧ putText fp = .ok part) := by
    intro xs fp rest hrun
    obtain ⟨part, hxs, hfp, -, htext⟩ := takes_text (by decide) xs fp rest hrun
    exact ⟨part, hxs, hfp, htext⟩
  obtain ⟨verified, _, _, ⟨hverified, hw₂⟩, rfl, h₆⟩ := (takes_entries hfingerprint).of_run h₅
  obtain ⟨memberTokens, _, _, ⟨hmembers, hw₃⟩, rfl, h₇⟩ := (takes_entries takes_memberToken).of_run h₆
  obtain ⟨introduced, _, _, ⟨hintroduced, hw₄⟩, rfl, h₈⟩ := (takes_entries takes_introduced).of_run h₇
  obtain ⟨issued, _, _, ⟨hissued, hw₅⟩, rfl, h₉⟩ := (takes_entries takes_issuedToken).of_run h₈
  obtain ⟨receipts, _, _, ⟨hreceipts, hw₆⟩, rfl, hpure⟩ := (takes_entries takes_receipts).of_run h₉
  obtain ⟨rfl, rfl⟩ := of_run_pure hpure
  refine ⟨⟨harchives, hverified, hmembers, hintroduced, hissued, hreceipts⟩, ?_⟩
  rw [serialize, hw₁, hw₂, hw₃, hw₄, hw₅, hw₆, List.append_nil]
  rfl

theorem undoes_serialize : Undoes parse serialize Contents.Readable where
  reads _ _ := parse_serialize
  writes _ _ := serialize_parse

/-- A keyring comes back exactly if it is within the limits of `parse`, of which `serialize` checks
only the length of the longest text. -/
theorem keyring_comes_back_iff {c : Contents} {b : Bytes} (h : serialize c = .ok b) :
    parse b = some c ↔ c.Readable :=
  undoes_serialize.parse_eq_some_iff h

def sampleArchive : ArchiveItem :=
  ⟨List.replicate 16 1, ascii "relay:9000", List.replicate 32 2, .creator, .joined,
    List.replicate 32 3, [4], [5], []⟩

theorem keyring_comes_back_sample :
    ∃ b, serialize { archives := [sampleArchive], verified := [ascii "ab"] } = .ok b ∧
      parse b = some { archives := [sampleArchive], verified := [ascii "ab"] } := by
  obtain ⟨b, hb⟩ : ∃ b, serialize { archives := [sampleArchive], verified := [ascii "ab"] } = .ok b :=
    ⟨_, rfl⟩
  exact ⟨b, hb, (keyring_comes_back_iff hb).2 (by decide)⟩

theorem exists_writeAll {write : α → Except String Bytes} {items : List α}
    (h : ∀ a ∈ items, ∃ part, write a = .ok part) : ∃ b, writeAll write items = .ok b := by
  induction items with
  | nil => exact ⟨[], rfl⟩
  | cons a items ih =>
    obtain ⟨first, hfirst⟩ := h a List.mem_cons_self
    obtain ⟨rest, hrest⟩ := ih fun a' ha' => h a' (List.mem_cons_of_mem a ha')
    exact ⟨first ++ rest, by rw [writeAll, hfirst, hrest]; rfl⟩

def sampleKeyring (n : ℕ) : Contents where
  archives := (List.range n).map fun i =>
    { sampleArchive with conversationId := writeU64 0 ++ writeU64 (UInt64.ofNat i) }

theorem exists_serialize_sampleKeyring (n : ℕ) : ∃ b, serialize (sampleKeyring n) = .ok b := by
  obtain ⟨archives, harchives⟩ : ∃ b, writeAll ArchiveItem.write (sampleKeyring n).archives = .ok b := by
    refine exists_writeAll fun a ha => ?_
    obtain ⟨i, -, rfl⟩ := List.mem_map.1 ha
    exact ⟨_, rfl⟩
  rw [serialize, writeList, harchives]
  exact ⟨_, rfl⟩

theorem parse_ne_sampleKeyring {n : ℕ} (hn : maxArchives < n) (b : Bytes) :
    parse b ≠ some (sampleKeyring n) := by
  intro hparse
  have hmax := (serialize_parse hparse).1.archives.1
  rw [sampleKeyring, List.length_map, List.length_range] at hmax
  exact absurd hmax (not_le.2 hn)

/-- The keyring of a device with 4097 archives is written and cannot be restored. -/
theorem many_archives_not_read :
    ∃ b, serialize (sampleKeyring 4097) = .ok b ∧ parse b ≠ some (sampleKeyring 4097) := by
  obtain ⟨b, hb⟩ := exists_serialize_sampleKeyring 4097
  exact ⟨b, hb, parse_ne_sampleKeyring (by decide) b⟩

end PqSuite.Keyring
