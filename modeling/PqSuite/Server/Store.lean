import PqSuite.Lib.Rows
import PqSuite.Protocol.Archive

/-!
# The relay's database (`relay_store.cpp`)

Each table is the list of its rows in `rowid` order; a `SELECT` finds or filters, an `UPDATE` maps, an
`INSERT` appends and a `DELETE` filters, with the rows that refer to a deleted one going with it. A
store function runs under one lock and in one transaction, so it is one function of the tables, and a
path that returns before the commit returns them as they were.
-/

namespace PqSuite.Relay

/-! ## Rows -/

structure InviteRow where
  hash : Digest
  expiresAt : Time
  /-- The mailbox that vouched for it; none if the operator made it. -/
  issuedBy : Option Bytes
  deriving DecidableEq

structure MailboxRow where
  id : Bytes
  accessPublicKey : Bytes
  createdAt : Time := 0
  invitedBy : Option Bytes := none
  deriving DecidableEq

structure TokenRow where
  mailboxId : Bytes
  hash : Digest
  createdAt : Time
  deriving DecidableEq

structure EnvelopeRow where
  seq : Nat
  id : Bytes
  mailboxId : Bytes
  envelope : Bytes
  depositedAt : Time
  expiresAt : Time
  tokenHash : Digest
  deriving DecidableEq

structure FileRow where
  id : Bytes
  owner : Bytes
  totalSize : UInt64
  chunkSize : UInt32
  chunkCount : UInt32
  expiresAt : Time
  createdAt : Time
  ready : Bool
  /-- History: the upload this record was made for. -/
  upload : Nat
  deriving DecidableEq

structure FileTokenRow where
  fileId : Bytes
  tokenHash : Digest
  redeemed : Bool
  deriving DecidableEq

structure ArchiveRow where
  id : Bytes
  memberCount : Nat
  createdAt : Time
  closesAt : Time
  headNumber : UInt64
  headHash : Digest
  bytes : Int
  lastActivity : Time
  deriving DecidableEq

structure JoinTokenRow where
  archiveId : Bytes
  tokenHash : Digest
  deriving DecidableEq

structure ArchiveKeyRow where
  archiveId : Bytes
  keyHash : Digest
  publicKey : Bytes
  joinedAt : Time
  deriving DecidableEq

structure EntryRow where
  archiveId : Bytes
  number : UInt64
  hash : Digest
  ciphertext : Bytes
  appendedAt : Time
  redacted : Bool
  deriving DecidableEq

structure PrekeyPoolRow where
  mailboxId : Bytes
  generation : Bytes
  deriving DecidableEq

structure PrekeyRow where
  mailboxId : Bytes
  id : Bytes
  blob : Bytes
  lastResort : Bool
  createdAt : Time
  deriving DecidableEq

structure PrekeyTakesRow where
  tokenHash : Digest
  hour : Int
  count : Nat
  deriving DecidableEq

structure KeyringRow where
  mailboxId : Bytes
  blob : Bytes
  updatedAt : Time
  deriving DecidableEq

/-! ## The files folder -/

/-- What the operating system lets the relay do with files: open one, write to it, rename it, and how
much of it is on disk when it is closed (`none` if all is). -/
structure DiskHealth where
  opens : Bool := true
  writes : Bool := true
  renames : Bool := true
  keeps : Option Nat := none

/-- The files folder: which file each name stands for, and what each file holds. A file that is open
stays what it is when its name is removed or given to another. -/
structure Disk where
  part : Bytes → Option Nat := fun _ => none
  bin : Bytes → Option Nat := fun _ => none
  content : Nat → Bytes := fun _ => []
  made : Nat := 0
  health : DiskHealth := {}

/-- History of the uploads, which are numbered as they begin: what each has received, which had their
last chunk confirmed, and whose record went because every token was redeemed, the owner cancelled it,
it expired or its mailbox was removed. -/
structure UploadLog where
  begun : Nat := 0
  received : Nat → Bytes := fun _ => []
  confirmed : List Nat := []
  ended : List Nat := []

/-- The records of these uploads went for one of these reasons. -/
def UploadLog.end (log : UploadLog) (files : List FileRow) : UploadLog :=
  { log with ended := log.ended ++ files.map (·.upload) }

/-- The tables of the relay, with the files folder beside them. `envelopeSeq` is the number the last
envelope got, kept by the database so that none is given twice. -/
structure RelayStore where
  invites : List InviteRow := []
  mailboxes : List MailboxRow := []
  tokens : List TokenRow := []
  envelopes : List EnvelopeRow := []
  envelopeSeq : Nat := 0
  files : List FileRow := []
  fileTokens : List FileTokenRow := []
  disk : Disk := {}
  uploads : UploadLog := {}
  keyrings : List KeyringRow := []
  prekeyPools : List PrekeyPoolRow := []
  prekeys : List PrekeyRow := []
  prekeyTakes : List PrekeyTakesRow := []
  archives : List ArchiveRow := []
  archiveJoinTokens : List JoinTokenRow := []
  archiveKeys : List ArchiveKeyRow := []
  archiveEntries : List EntryRow := []

namespace RelayStore

/-! ## Mailboxes -/

def accessKey (s : RelayStore) (mailboxId : Bytes) : Option Bytes :=
  (Rows.lookup MailboxRow.id mailboxId s.mailboxes).map (·.accessPublicKey)

/-! ## Archives -/

inductive CreateArchiveResult where
  | ok
  | exists
  | limitReached
  deriving DecidableEq

inductive JoinResult where
  | ok
  | noSuchArchive
  | badToken
  | closed
  | keyExists
  deriving DecidableEq

/-- The outcome of an append, with the head it leaves where there is one. -/
inductive AppendResult where
  | ok (head : ArchiveHead)
  | stale (head : ArchiveHead)
  | archiveFull
  | noSuchArchive
  /-- The database refused the row: the exception leaves the tables as they were. -/
  | failed
  deriving DecidableEq

inductive RedactResult where
  | ok
  | noSuchArchive
  | unknownEntry
  deriving DecidableEq

structure ArchiveInfo where
  memberCount : Nat
  joined : Nat
  registrationOpen : Bool
  head : ArchiveHead
  bytes : Int

def findArchive (s : RelayStore) (archiveId : Bytes) : Option ArchiveRow :=
  Rows.lookup ArchiveRow.id archiveId s.archives

def entriesOf (s : RelayStore) (archiveId : Bytes) : List EntryRow :=
  s.archiveEntries.filter (·.archiveId = archiveId)

def keysOf (s : RelayStore) (archiveId : Bytes) : List ArchiveKeyRow :=
  s.archiveKeys.filter (·.archiveId = archiveId)

/-- `INSERT OR IGNORE` of one join token. -/
def addJoinToken (archiveId : Bytes) (tokens : List JoinTokenRow) (tokenHash : Digest) :
    List JoinTokenRow :=
  if ⟨archiveId, tokenHash⟩ ∈ tokens then tokens else tokens ++ [⟨archiveId, tokenHash⟩]

def createArchive (s : RelayStore) (archiveId : Bytes) (joinTokenHashes : List Digest)
    (genesisHash : Digest) (now closesAt : Time) (maxArchives : Nat) :
    CreateArchiveResult × RelayStore :=
  if (s.findArchive archiveId).isSome then (.exists, s)
  else if s.archives.length ≥ maxArchives then (.limitReached, s)
  else
    (.ok, { s with
      archives := s.archives ++
        [⟨archiveId, joinTokenHashes.length, now, closesAt, 0, genesisHash, 0, now⟩]
      archiveJoinTokens := joinTokenHashes.foldl (addJoinToken archiveId) s.archiveJoinTokens })

def joinArchive (s : RelayStore) (archiveId : Bytes) (tokenHash keyHash : Digest)
    (publicKey : Bytes) (now : Time) : JoinResult × RelayStore :=
  match s.findArchive archiveId with
  | none => (.noSuchArchive, s)
  | some a =>
    if ⟨archiveId, tokenHash⟩ ∉ s.archiveJoinTokens then (.badToken, s)
    else if (s.keysOf archiveId).length ≥ a.memberCount ∨ now ≥ a.closesAt then (.closed, s)
    else if (s.keysOf archiveId).any (·.keyHash = keyHash) then (.keyExists, s)
    else
      (.ok, { s with
        archiveKeys := s.archiveKeys ++ [⟨archiveId, keyHash, publicKey, now⟩]
        archiveJoinTokens := s.archiveJoinTokens.filter (· ≠ ⟨archiveId, tokenHash⟩) })

def archiveMemberKey (s : RelayStore) (archiveId : Bytes) (keyHash : Digest) : Option Bytes :=
  ((s.keysOf archiveId).find? (·.keyHash = keyHash)).map (·.publicKey)

def archiveInfo (s : RelayStore) (archiveId : Bytes) (now : Time) : Option ArchiveInfo :=
  (s.findArchive archiveId).map fun a =>
    let joined := (s.keysOf archiveId).length
    ⟨a.memberCount, joined, joined < a.memberCount ∧ now < a.closesAt,
      ⟨a.headNumber, a.headHash⟩, a.bytes⟩

/-- Adds an entry only if the head is still the one the sender named (compare and swap). -/
def appendEntry (s : RelayStore) (archiveId : Bytes) (expectedNumber : UInt64)
    (expectedHash newHash : Digest) (ciphertext : Bytes) (now : Time) (quotaBytes : Nat) :
    AppendResult × RelayStore :=
  match s.findArchive archiveId with
  | none => (.noSuchArchive, s)
  | some a =>
    if a.headNumber ≠ expectedNumber ∨ a.headHash ≠ expectedHash then
      (.stale ⟨a.headNumber, a.headHash⟩, s)
    else if a.bytes + ciphertext.length > quotaBytes then (.archiveFull, s)
    else
      let number := a.headNumber + 1
      -- the primary key is the archive and the number
      if (s.entriesOf archiveId).any (·.number = number) then (.failed, s)
      else
        (.ok ⟨number, newHash⟩, { s with
          archiveEntries := s.archiveEntries ++
            [⟨archiveId, number, newHash, ciphertext, now, false⟩]
          archives := s.archives.map fun r =>
            if r.id = archiveId then
              { r with
                headNumber := number, headHash := newHash,
                bytes := a.bytes + ciphertext.length, lastActivity := now }
            else r })

def archiveMemberKeys (s : RelayStore) (archiveId : Bytes) : List ArchiveKeyRow :=
  (s.keysOf archiveId).mergeSort fun a b =>
    a.joinedAt < b.joinedAt ∨ (a.joinedAt = b.joinedAt ∧ a.keyHash.1 ≤ b.keyHash.1)

/-- Deletes the archives that `p` selects, with the entries, keys and tokens that refer to them. -/
def deleteArchives (s : RelayStore) (p : ArchiveRow → Bool) : RelayStore :=
  let gone := fun id => s.archives.any fun a => a.id = id ∧ p a
  { s with
    archives := s.archives.filter fun a => !p a
    archiveJoinTokens := s.archiveJoinTokens.filter fun t => !gone t.archiveId
    archiveKeys := s.archiveKeys.filter fun k => !gone k.archiveId
    archiveEntries := s.archiveEntries.filter fun e => !gone e.archiveId }

def deleteArchive (s : RelayStore) (archiveId : Bytes) : RelayStore :=
  s.deleteArchives (·.id = archiveId)

/-- Empties the entry with this hash and returns how many bytes that freed; `none` if no entry of the
archive has it. -/
def redactOne (archiveId : Bytes) (entries : List EntryRow) (hash : Digest) :
    Option (Nat × List EntryRow) :=
  (entries.find? fun e => e.archiveId = archiveId ∧ e.hash = hash).map fun found =>
    (found.ciphertext.length, entries.map fun e =>
      if e.archiveId = archiveId ∧ e.hash = hash then
        { e with ciphertext := [], redacted := true } else e)

/-- The loop of `redact_entries` over the hashes named: `none` at the first that is unknown. -/
def redactLoop (archiveId : Bytes) : List Digest → List EntryRow → Nat →
    Option (Nat × List EntryRow)
  | [], entries, freed => some (freed, entries)
  | hash :: hashes, entries, freed =>
    match redactOne archiveId entries hash with
    | none => none
    | some (size, entries) => redactLoop archiveId hashes entries (freed + size)

def redactEntries (s : RelayStore) (archiveId : Bytes) (entryHashes : List Digest) :
    RedactResult × RelayStore :=
  if (s.findArchive archiveId).isNone then (.noSuchArchive, s)
  else
    match redactLoop archiveId entryHashes s.archiveEntries 0 with
    | none => (.unknownEntry, s)
    | some (freed, entries) =>
      (.ok, { s with
        archiveEntries := entries
        archives := s.archives.map fun r =>
          if r.id = archiveId then { r with bytes := r.bytes - freed } else r })

/-- A number as the database compares it. -/
def sqlInt (n : UInt64) : Int := n.toInt64.toInt

def fetchEntries (s : RelayStore) (archiveId : Bytes) (fromNumber : UInt64) (limit : Nat) :
    List EntryRow :=
  (((s.entriesOf archiveId).filter fun e => sqlInt fromNumber ≤ sqlInt e.number).mergeSort
    fun a b => sqlInt a.number ≤ sqlInt b.number).take limit

/-- The archives' part of a sweep: one that nobody joined in time was abandoned. -/
def sweepArchives (s : RelayStore) (now : Time) : RelayStore :=
  s.deleteArchives fun a => a.closesAt ≤ now ∧ !s.archiveKeys.any (·.archiveId = a.id)

end RelayStore

end PqSuite.Relay
