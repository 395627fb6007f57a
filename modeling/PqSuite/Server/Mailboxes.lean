import PqSuite.Protocol.Mailbox
import PqSuite.Server.Store

/-!
# Mailboxes on the relay (`relay_store.cpp`)

Invites, mailboxes, the send tokens that allow a deposit, and the envelopes that wait. Envelopes are
numbered in the order they arrive, and a number is never given twice.
-/

namespace PqSuite.Relay.RelayStore

inductive RegisterResult where
  | ok
  | badInvite
  | limitReached
  | mailboxExists
  deriving DecidableEq

inductive IssueResult where
  | ok
  | noSuchMailbox
  | tooManyOutstanding
  | tooManyIssued
  /-- The database refused the row: the exception leaves the tables as they were. -/
  | failed
  deriving DecidableEq

inductive TokenResult where
  | ok
  | noSuchMailbox
  | limitReached
  deriving DecidableEq

inductive DepositResult where
  | ok
  | mailboxFull
  /-- The database refused the row. -/
  | failed
  deriving DecidableEq

/-! ## Invites -/

/-- The operator's invite; the database refuses a hash it has. -/
def addInvite (s : RelayStore) (hash : Digest) (expiresAt : Time) : RelayStore :=
  if s.invites.any (·.hash = hash) then s
  else { s with invites := s.invites ++ [⟨hash, expiresAt, none⟩] }

def addMemberInvite (s : RelayStore) (issuer : Bytes) (hash : Digest) (now expiresAt : Time)
    (maxOutstanding maxTotal : Nat) : IssueResult × RelayStore :=
  if (s.accessKey issuer).isNone then (.noSuchMailbox, s)
  else
    let outstanding :=
      (s.invites.filter fun r => r.issuedBy = some issuer ∧ now < r.expiresAt).length
    let used := (s.mailboxes.filter (·.invitedBy = some issuer)).length
    if outstanding ≥ maxOutstanding then (.tooManyOutstanding, s)
    else if outstanding + used ≥ maxTotal then (.tooManyIssued, s)
    else if s.invites.any (·.hash = hash) then (.failed, s)
    else (.ok, { s with invites := s.invites ++ [⟨hash, expiresAt, some issuer⟩] })

def unusedInvites (s : RelayStore) (issuer : Bytes) (now : Time) : List InviteRow :=
  (s.invites.filter fun r => r.issuedBy = some issuer ∧ now < r.expiresAt).mergeSort fun a b =>
    a.expiresAt < b.expiresAt ∨ (a.expiresAt = b.expiresAt ∧ a.hash.1 ≤ b.hash.1)

/-- The mailboxes made with a member's invites, oldest first. -/
def joinedThrough (s : RelayStore) (issuer : Bytes) : List MailboxRow :=
  (s.mailboxes.filter (·.invitedBy = some issuer)).mergeSort fun a b =>
    a.createdAt < b.createdAt ∨ (a.createdAt = b.createdAt ∧ a.id ≤ b.id)

/-- Cancels a member's own unused invite; `false` if it is not theirs, or not there. -/
def cancelMemberInvite (s : RelayStore) (issuer : Bytes) (hash : Digest) : Bool × RelayStore :=
  (s.invites.any fun r => r.hash = hash ∧ r.issuedBy = some issuer,
    { s with invites := s.invites.filter fun r => ¬(r.hash = hash ∧ r.issuedBy = some issuer) })

/-! ## Mailboxes -/

/-- Makes a mailbox with its first send token and uses the invite up. -/
def registerMailbox (s : RelayStore) (inviteHash : Digest) (mailboxId accessPublicKey : Bytes)
    (tokenHash : Digest) (now : Time) (maxMailboxes : Nat) : RegisterResult × RelayStore :=
  match Rows.lookup InviteRow.hash inviteHash s.invites with
  | none => (.badInvite, s)
  | some invite =>
    if invite.expiresAt ≤ now then (.badInvite, s)
    else if s.mailboxes.length ≥ maxMailboxes then (.limitReached, s)
    else if (s.accessKey mailboxId).isSome then (.mailboxExists, s)
    else
      (.ok, { s with
        mailboxes := s.mailboxes ++
          [⟨mailboxId, accessPublicKey, now,
            if invite.issuedBy = some [] then none else invite.issuedBy⟩]
        tokens := s.tokens ++ [⟨mailboxId, tokenHash, now⟩]
        invites := s.invites.filter (·.hash ≠ inviteHash) })

/-- Deletes a mailbox with the unused invites it made and every row that refers to it, files and their
tokens included. -/
def deleteMailbox (s : RelayStore) (mailboxId : Bytes) : RelayStore :=
  let gone := fun fileId => s.files.any fun f => f.id = fileId ∧ f.owner = mailboxId
  { s with
    invites := s.invites.filter (·.issuedBy ≠ some mailboxId)
    mailboxes := s.mailboxes.filter (·.id ≠ mailboxId)
    tokens := s.tokens.filter (·.mailboxId ≠ mailboxId)
    envelopes := s.envelopes.filter (·.mailboxId ≠ mailboxId)
    prekeyPools := s.prekeyPools.filter (·.mailboxId ≠ mailboxId)
    prekeys := s.prekeys.filter (·.mailboxId ≠ mailboxId)
    keyrings := s.keyrings.filter (·.mailboxId ≠ mailboxId)
    files := s.files.filter (·.owner ≠ mailboxId)
    fileTokens := s.fileTokens.filter fun t => !gone t.fileId
    uploads := s.uploads.end (s.files.filter (·.owner = mailboxId)) }

/-! ## Send tokens -/

def tokenValid (s : RelayStore) (mailboxId : Bytes) (hash : Digest) : Bool :=
  s.tokens.any fun r => r.mailboxId = mailboxId ∧ r.hash = hash

/-- Adding a token twice is harmless. -/
def addToken (s : RelayStore) (mailboxId : Bytes) (hash : Digest) (now : Time) (maxTokens : Nat) :
    TokenResult × RelayStore :=
  if (s.accessKey mailboxId).isNone then (.noSuchMailbox, s)
  else if s.tokenValid mailboxId hash then (.ok, s)
  else if (s.tokens.filter (·.mailboxId = mailboxId)).length ≥ maxTokens then (.limitReached, s)
  else (.ok, { s with tokens := s.tokens ++ [⟨mailboxId, hash, now⟩] })

def revokeToken (s : RelayStore) (mailboxId : Bytes) (hash : Digest) : RelayStore :=
  { s with tokens := s.tokens.filter fun r => ¬(r.mailboxId = mailboxId ∧ r.hash = hash) }

/-! ## Envelopes -/

def queuedBytes (s : RelayStore) (mailboxId : Bytes) (now : Time) : Nat :=
  ((s.envelopes.filter fun e => e.mailboxId = mailboxId ∧ now < e.expiresAt).map
    (·.envelope.length)).sum

def deposit (s : RelayStore) (mailboxId id envelope : Bytes) (tokenHash : Digest) (now : Time)
    (ttl : UInt32) (quotaBytes : Nat) : DepositResult × RelayStore :=
  if s.queuedBytes mailboxId now + envelope.length > quotaBytes then (.mailboxFull, s)
  -- the mailbox is a foreign key and the ID is unique
  else if (s.accessKey mailboxId).isNone ∨ s.envelopes.any (·.id = id) then (.failed, s)
  else
    (.ok, { s with
      envelopeSeq := s.envelopeSeq + 1
      envelopes := s.envelopes ++
        [⟨s.envelopeSeq + 1, id, mailboxId, envelope, now, now + ttl.toNat, tokenHash⟩] })

/-- Up to `limit` unexpired envelopes of a mailbox numbered after `afterSeq`, oldest first. -/
def fetch (s : RelayStore) (mailboxId : Bytes) (afterSeq : Nat) (now : Time) (limit : Nat) :
    List EnvelopeRow :=
  ((s.envelopes.filter fun e =>
      e.mailboxId = mailboxId ∧ afterSeq < e.seq ∧ now < e.expiresAt).mergeSort
    fun a b => a.seq ≤ b.seq).take limit

/-- The loop of `ack`: each envelope named goes if it is in this mailbox. -/
def ackLoop (mailboxId : Bytes) : List Bytes → List EnvelopeRow → Nat → Nat × List EnvelopeRow
  | [], rows, deleted => (deleted, rows)
  | id :: ids, rows, deleted =>
    let named := fun e : EnvelopeRow => e.mailboxId = mailboxId ∧ e.id = id
    ackLoop mailboxId ids (rows.filter fun e => ¬named e)
      (deleted + (rows.filter fun e => named e).length)

def ack (s : RelayStore) (mailboxId : Bytes) (ids : List Bytes) : Nat × RelayStore :=
  let (deleted, rows) := ackLoop mailboxId ids s.envelopes 0
  (deleted, { s with envelopes := rows })

/-! ## Expiry -/

def sweep (s : RelayStore) (now : Time) : RelayStore :=
  ({ s with
    envelopes := s.envelopes.filter fun e => now < e.expiresAt
    invites := s.invites.filter fun r => now < r.expiresAt } : RelayStore).sweepArchives now

/-- Forgets the prekey allowances of hours that are over. -/
def sweepPrekeyTakes (s : RelayStore) (now : Time) : RelayStore :=
  { s with prekeyTakes := s.prekeyTakes.filter fun r => ¬r.hour < now.tdiv 3600 }

end PqSuite.Relay.RelayStore
