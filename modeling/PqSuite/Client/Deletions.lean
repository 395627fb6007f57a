import PqSuite.Client.Contacts
import PqSuite.Client.Engine

/-!
# Deleting by agreement (`messaging_engine.cpp`)

A request to delete a chat, or some messages of it, for everyone waits with the acceptances that have come
for it. Whoever has enough of them submits the order to the relay of the chat's archive. A device erases
its own copy when the relay confirms the order it submitted, when the relay no longer knows its key for
the archive, or when the entries come back without their content.
-/

namespace PqSuite.Engine

open Relay (DeleteScope ArchiveEntry archiveDeleteSigningInput)
open HistoryStore (Archive)
open Chat

variable (cfg : EngineSetup) (out : Outside)

/-! ## Carrying it out -/

def eraseEntry (conversationId : Bytes) (h : HistoryStore) (hash : Bytes) : HistoryStore :=
  match h.archiveNumberOf conversationId hash with
  | none => h
  | some number =>
    ((h.archiveMessagesAt conversationId number).foldl (·.eraseMessage conversationId ·) h).markArchiveRedacted
      conversationId number

def applyDeletionLocally (d : Deletion) (h : HistoryStore) : HistoryStore :=
  let h := match d.scope with
    | .chat => (h.eraseConversationMessages d.conversationId).removeArchive d.conversationId
    | .entries => d.entries.foldl (eraseEntry d.conversationId) h
  h.setDeletionState d.opId .done

def openArchiveSession (a : Archive) : EngineM (Except Bytes Unit) :=
  if a.state ≠ .joined then
    return .error (ascii "This device has not joined the chat's archive yet")
  else if (parseServerAddress a.relayAddress).isNone then
    return .error (ascii "The archive's relay address is not valid")
  else ask out.signIn

def orderOf (d : Deletion) (accepts : List DeletionAccept) : DeletionOrder where
  scope := d.scope
  opId := d.opId
  expiresAt := (Int64.ofInt d.expiresAt).toUInt64
  entryHashes := d.entries
  signatures := accepts.map fun acc => (acc.keyHash, acc.signature)

def answered (d : Deletion) (answer : OrderAnswer) (h : HistoryStore) : HistoryStore :=
  match answer with
  | .done => applyDeletionLocally d h
  | .refused err | .lost err =>
    if mentions err "not valid" then h
    else if mentions err "expired" then h.setDeletionState d.opId .expired
    else h

/-- Once there are acceptances, the order goes to the relay, again when another acceptance has come. -/
def trySubmitDeletion (opId : Bytes) : EngineM Unit := do
  let e ← get
  match e.history.deletion opId with
  | none => pure ()
  | some d =>
    let accepts := e.history.deletionAcceptsOf opId
    if d.state ≠ .accepted ∨ accepts.length < 2 ∨
        (e.submitAttempts.lookup opId).any (accepts.length ≤ ·) then pure ()
    else do
      set { e with
        submitAttempts := (opId, accepts.length) :: e.submitAttempts.filter (·.1 ≠ opId) }
      match e.history.archive d.conversationId with
      | none => pure ()
      | some a =>
        match ← openArchiveSession out a with
        | .error _ => pure ()
        | .ok _ =>
          let answer ← sendOrder out (orderOf d accepts)
          modifyHistory (answered d answer)

/-! ## Looking after requests -/

/-- Whether the content of an entry is gone, as far as this device or the relay can tell. -/
def checkEntry (conversationId hash : Bytes) : EngineM Bool := do
  let e ← get
  match e.history.archiveNumberOf conversationId hash with
  | none => return false
  | some number =>
    if e.history.isArchiveRedacted conversationId number then return true
    else match ← ask out.fetchEntries with
      | .error _ => return false
      | .ok (entries, _) =>
        if entries.head?.any fun entry => entry.number = number ∧ entry.tombstone ∧ entry.hash.1 = hash then do
          modifyHistory (·.markArchiveRedacted conversationId number)
          return true
        else return false

def checkEntries (conversationId : Bytes) : List Bytes → EngineM Bool
  | [] => return true
  | hash :: rest => do
    let gone ← checkEntry out conversationId hash
    let others ← checkEntries conversationId rest
    return gone && others

/-- A request lapses, and one this user accepted may have been carried out by someone else. Says whether
the order is submitted next. -/
def lookAfter (d : Deletion) : EngineM Bool := do
  let e ← get
  if d.state ≠ .pending ∧ d.state ≠ .accepted then return false
  else if d.expiresAt ≤ out.now then do
    modifyHistory (·.setDeletionState d.opId .expired)
    return false
  else if d.state ≠ .accepted then return false
  else match e.history.archive d.conversationId with
    | none => return false
    | some a =>
      match ← openArchiveSession out a with
      | .error err =>
        -- the archive is gone and our key with it
        if d.scope = .chat ∧ mentions err "Authentication failed" then do
          modifyHistory (applyDeletionLocally d)
          return false
        else return false
      | .ok _ =>
        if d.scope = .entries then do
          let all ← checkEntries out d.conversationId d.entries
          if all then do
            modifyHistory (applyDeletionLocally d)
            return true
          else return true
        else return true

/-- One turn of the loop of `check_deletions`. -/
def checkDeletion (d : Deletion) : EngineM Unit := do
  let go ← lookAfter out d
  if go then trySubmitDeletion out d.opId else pure ()

end PqSuite.Engine
