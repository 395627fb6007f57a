import PqSuite.Client.Archive
import PqSuite.Client.History

/-!
# Reading an archive (`messaging_engine.cpp`)

A device that has joined an archive takes entries from the relay page by page, checks that they carry
on from its head, and keeps the new head after every page. The records are stored only once the whole
run has succeeded: a sync and a restore when they are level with the relay, an append when its own entry
is in. The pump and the interface each run one at a time, and any of their requests may fail.
-/

namespace PqSuite

open Keyring (ArchiveItem)
open Relay (Digest ArchiveEntry ArchiveHead)
open Archive (Head verifyChain genesisHash entryHash)

/-! ## Entries -/

namespace Archive

def keyBytes : ℕ := 32
def nonceBytes : ℕ := 12
def tagBytes : ℕ := 16
def maxRecordBytes : ℕ := Relay.maxArchiveEntryBytes - nonceBytes - tagBytes

def entryAad (archiveId : Bytes) (number : UInt64) : Bytes :=
  writeString (ascii "pq-suite v3 archive entry content") ++ writeBlob archiveId ++ writeU64 number

def sealEntry (C : SecretCrypto) (archiveKey archiveId : Bytes) (number : UInt64)
    (record nonce : Bytes) : Except String Bytes :=
  if archiveKey.length ≠ keyBytes then .error "The archive key has the wrong size"
  else if record = [] ∨ record.length > maxRecordBytes then
    .error "That record does not fit in an archive entry"
  else .ok (nonce ++ C.encrypt archiveKey nonce record (entryAad archiveId number))

def openEntry (C : SecretCrypto) (archiveKey archiveId : Bytes) (number : UInt64) (blob : Bytes) :
    Option Bytes :=
  if archiveKey.length ≠ keyBytes ∨ blob.length < nonceBytes + tagBytes + 1 then none
  else C.decrypt archiveKey (blob.take nonceBytes) (blob.drop nonceBytes) (entryAad archiveId number)

end Archive

/-- An entry as it was read: the record is empty if its content is gone or cannot be opened. -/
structure ArchivedRecord where
  number : UInt64
  record : Bytes
  deriving DecidableEq

def archivedRecord (C : SecretCrypto) (archiveKey id : Bytes) (e : ArchiveEntry) : ArchivedRecord where
  number := e.number
  record :=
    if e.tombstone then []
    else (Archive.openEntry C archiveKey id e.number e.ciphertext).getD []

/-! ## Runs over an archive -/

inductive SyncKind where
  /-- `archive_sync` for `sync_archives`. -/
  | sync
  /-- `archive_append` for `flush_archive_item`. -/
  | append (record : Bytes)
  /-- `archive_sync` for one chat of `restore_from_relay`. -/
  | restore
  deriving DecidableEq

inductive SyncPhase where
  | fetching
  /-- Level with the relay, with a record to add. -/
  | appending
  | caughtUp
  deriving DecidableEq

/-- The local variables of a run. -/
structure SyncJob where
  kind : SyncKind
  id : Bytes
  archiveKey : Bytes
  head : Head
  attempt : ℕ := 0
  phase : SyncPhase := .fetching
  fresh : List ArchivedRecord := []

inductive Thread where
  | pump
  | interface
  deriving DecidableEq

instance (p : Thread → Prop) [DecidablePred p] : Decidable (∀ t, p t) :=
  decidable_of_iff (p .pump ∧ p .interface)
    ⟨fun ⟨hp, hi⟩ t => match t with | .pump => hp | .interface => hi, fun h => ⟨h _, h _⟩⟩

structure SyncWorld where
  history : HistoryStore
  jobs : Thread → Option SyncJob
  /-- The records handed to `handle_archived_records` or `restore_records` while the chat existed. -/
  handed : List (Bytes × ArchivedRecord) := []
  /-- The records this device made and appended itself. -/
  own : List (Bytes × ArchivedRecord) := []

inductive AppendOutcome where
  | appended (head : ArchiveHead)
  | stale
  | failed
  deriving DecidableEq

inductive SyncEvent where
  | addArchive (item : ArchiveItem) (now : Time)
  | setArchiveJoined (id : Bytes)
  | setArchiveFailed (id : Bytes)
  | removeArchive (id : Bytes)
  | newChat (id : Bytes) (chat : NewChat)
  /-- The session with the relay is open; if it cannot be opened nothing happens. -/
  | start (t : Thread) (kind : SyncKind) (id : Bytes)
  | fetched (t : Thread) (entries : List ArchiveEntry) (relayHead : ArchiveHead)
  | fetchFailed (t : Thread)
  | append (t : Thread) (nonce : Bytes) (outcome : AppendOutcome)
  /-- The run has succeeded; a restore rebuilds a chat that is missing, if it can. -/
  | handOver (t : Thread) (rebuilt : Option NewChat)
  /-- The program ends, at whatever point its runs are. -/
  | restart

namespace SyncWorld

/-- The cipher and the hash of the archives. -/
structure Setup where
  crypto : SecretCrypto
  sha256 : Bytes → Digest

variable (cfg : Setup)

def setJob (w : SyncWorld) (t : Thread) (job : Option SyncJob) : SyncWorld :=
  { w with jobs := fun t' => if t' = t then job else w.jobs t' }

def headOf (a : HistoryStore.Archive) : Head :=
  ⟨a.headNumber, a.headHash.getD (genesisHash cfg.sha256 a.conversationId)⟩

def start (w : SyncWorld) (t : Thread) (kind : SyncKind) (id : Bytes) : SyncWorld :=
  match w.jobs t, w.history.archive id with
  | none, some a =>
    if a.state = .joined then
      w.setJob t (some { kind, id, archiveKey := a.archiveKey, head := headOf cfg a })
    else w
  | _, _ => w

/-- Where a run goes once it is level with the relay. -/
def SyncKind.next : SyncKind → SyncPhase
  | .append _ => .appending
  | .sync | .restore => .caughtUp

/-- One turn of `archive_catch_up`. The new head is kept before the end is compared with the relay's. -/
def fetched (w : SyncWorld) (t : Thread) (job : SyncJob) (entries : List ArchiveEntry)
    (relayHead : ArchiveHead) : SyncWorld :=
  match verifyChain cfg.sha256 job.id job.head entries with
  | none => w.setJob t none
  | some next =>
    let job :=
      { job with
        head := next
        fresh := job.fresh ++ entries.map (archivedRecord cfg.crypto job.archiveKey job.id) }
    let w := { w with history := w.history.setArchiveHead job.id next.number next.hash }
    if entries = [] ∨ next.number ≥ relayHead.number then
      if relayHead.number ≠ next.number ∨ relayHead.hash ≠ next.hash then w.setJob t none
      else w.setJob t (some { job with phase := SyncKind.next job.kind })
    else w.setJob t (some job)

/-- The relay's answer must be the entry we made, on the head we named. -/
def Confirms (job : SyncJob) (record nonce : Bytes) (newHead : ArchiveHead) : Prop :=
  ∃ blob ∈
      (Archive.sealEntry cfg.crypto job.archiveKey job.id (job.head.number + 1) record nonce).toOption,
    newHead.number = job.head.number + 1 ∧
      newHead.hash = entryHash cfg.sha256 job.id (job.head.number + 1) job.head.hash blob

instance (job : SyncJob) (record nonce : Bytes) (newHead : ArchiveHead) :
    Decidable (Confirms cfg job record nonce newHead) :=
  inferInstanceAs (Decidable (∃ _ ∈ _, _))

/-- One attempt of `archive_append` to add its record; after ten it gives up. -/
def append (w : SyncWorld) (t : Thread) (job : SyncJob) (record nonce : Bytes) :
    AppendOutcome → SyncWorld
  | .appended newHead =>
    if Confirms cfg job record nonce newHead then
      let w : SyncWorld :=
        { w with
          history := w.history.setArchiveHead job.id newHead.number newHead.hash
          own := w.own ++ [(job.id, ⟨newHead.number, record⟩)] }
      w.setJob t (some { job with phase := .caughtUp })
    else w.setJob t none
  | .stale =>
    if job.attempt + 1 < 10 then
      w.setJob t (some { job with phase := .fetching, attempt := job.attempt + 1 })
    else w.setJob t none
  | .failed => w.setJob t none

def rebuild (w : SyncWorld) (job : SyncJob) (rebuilt : Option NewChat) : HistoryStore :=
  if job.kind = .restore ∧ (w.history.conversation job.id).isNone then
    match rebuilt with
    | some chat => chat.make job.id w.history
    | none => w.history
  else w.history

/-- Without a chat the records are not looked at. -/
def handOver (w : SyncWorld) (t : Thread) (job : SyncJob) (rebuilt : Option NewChat) : SyncWorld :=
  let history := w.rebuild job rebuilt
  { w with
    history
    handed :=
      if (history.conversation job.id).isSome then w.handed ++ job.fresh.map (job.id, ·)
      else w.handed }.setJob t none

def step (w : SyncWorld) : SyncEvent → SyncWorld
  | .addArchive item now =>
    { w with history := (w.history.addArchive { toArchiveItem := item, createdAt := now }).2 }
  | .setArchiveJoined id => { w with history := w.history.setArchiveJoined id }
  | .setArchiveFailed id => { w with history := w.history.setArchiveFailed id }
  | .removeArchive id =>
    { w with
      history := w.history.removeArchive id
      handed := w.handed.filter (·.1 ≠ id)
      own := w.own.filter (·.1 ≠ id) }
  | .newChat id chat => { w with history := chat.make id w.history }
  | .start t kind id => w.start cfg t kind id
  | .fetched t entries relayHead =>
    match w.jobs t with
    | some job => if job.phase = .fetching then w.fetched cfg t job entries relayHead else w
    | none => w
  | .fetchFailed t =>
    match w.jobs t with
    | some job => if job.phase = .fetching then w.setJob t none else w
    | none => w
  | .append t nonce outcome =>
    match w.jobs t with
    | some job =>
      match job.kind, job.phase with
      | .append record, .appending => w.append cfg t job record nonce outcome
      | _, _ => w
    | none => w
  | .handOver t rebuilt =>
    match w.jobs t with
    | some job => if job.phase = .caughtUp then w.handOver t job rebuilt else w
    | none => w
  | .restart => { w with jobs := fun _ => none }

/-- A device that has read nothing yet. -/
structure Init (w : SyncWorld) : Prop where
  heads : ∀ a ∈ w.history.archives, a.headNumber = 0
  jobs : ∀ t, w.jobs t = none
  handed : w.handed = []
  own : w.own = []

end SyncWorld

end PqSuite
