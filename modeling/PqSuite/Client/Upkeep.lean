import PqSuite.Client.Deletions

/-!
# Keeping archives up to date (`messaging_engine.cpp`)

The loop makes the archives that are this user's to make, joins those it was given access to and reads
what is new in each. Entries are taken page by page, and each page is kept once its chain carries on from
the head. An entry of ours goes on the end, after what others added meanwhile.
-/

namespace PqSuite.Engine

open Relay (ArchiveEntry ArchiveHead)
open Archive (Head verifyChain genesisHash entryHash)
open Chat

variable (cfg : EngineSetup) (out : Outside)

/-! ## Reading an archive -/

/-- Whether an entry's record is found by its message, so that the message can be named by its entry. -/
def indexed (r : Record) : Bool := r.type = .text ∨ r.type = .conversation

def saveIndexed (conversationId record : Bytes) (number : UInt64) (h : HistoryStore) : HistoryStore :=
  match (parseRecord cfg.toChatCrypto record).filter (indexed ·.record) with
  | some sr => h.saveArchiveMessage conversationId sr.record.messageId number
  | none => h

/-- Checkpoints don't count towards the next one. -/
def countsAsActivity (record : Bytes) : Bool :=
  (parseRecord cfg.toChatCrypto record).all (·.record.type ≠ .checkpoint)

def catchUpEntry (a : HistoryStore.Archive) (h : HistoryStore) (e : ArchiveEntry) : HistoryStore :=
  if e.tombstone then h.markArchiveRedacted a.conversationId e.number
  else
    saveIndexed cfg a.conversationId
      (archivedRecord cfg.secret a.archiveKey a.conversationId e).record e.number h

/-- The tables after a page whose chain carries on from the head. -/
def catchUpPage (a : HistoryStore.Archive) (entries : List ArchiveEntry) (next : Head)
    (h : HistoryStore) : HistoryStore :=
  let activity := entries.countP fun e => !e.tombstone &&
    countsAsActivity cfg (archivedRecord cfg.secret a.archiveKey a.conversationId e).record
  let h := entries.foldl (catchUpEntry cfg a) h
  let h := entries.foldl (fun h e => h.saveArchiveHash ⟨a.conversationId, e.number, e.hash.1⟩) h
  (h.addArchiveActivity a.conversationId activity).setArchiveHead a.conversationId next.number next.hash

/-! ## Adding to an archive -/

/-- The tables after the relay has confirmed an entry of ours. -/
def appended (a : HistoryStore.Archive) (record : Bytes) (newHead : ArchiveHead) (h : HistoryStore) :
    HistoryStore :=
  let h := h.saveArchiveHash ⟨a.conversationId, newHead.number, newHead.hash.1⟩
  let h := saveIndexed cfg a.conversationId record newHead.number h
  let h := h.setArchiveHead a.conversationId newHead.number newHead.hash
  if countsAsActivity cfg record then h.addArchiveActivity a.conversationId 1 else h

/-! ## Making, joining and following archives -/

/-- One member's grant, sealed later in an envelope of its own. -/
def grantArchive (a : HistoryStore.Archive) (ctx : ArchiveContext) (fp joinToken : Bytes) :
    EngineM Unit := do
  let messageId ← ask (out.random · idBytes)
  let payload ← orThrow
    (archiveGrantPayload ⟨a.relayAddress, a.relayId, a.archiveKey, joinToken⟩)
  let raw ← sign cfg
    { conversationId := a.conversationId, messageId, sender := cfg.myFp
      recipientsHash := ctx.recipientsHash, sentAt := (Int64.ofInt out.now).toUInt64
      type := .archiveGrant, payload }
  enqueue fp .message messageId [raw] out.now

/-- A group's creation record is the first entry of its archive. -/
def queueCreationRecord (id : Bytes) : EngineM Unit := do
  let e ← get
  if (e.history.conversation id).any (·.kind = .group) then
    match e.history.firstMessage id with
    | some first =>
      if (parseRecord cfg.toChatCrypto first.record).any (·.record.type = .conversation) then
        queueArchiveEntry out id first.record first.messageId
      else pure ()
    | none => pure ()
  else pure ()

def createArchive (conversationId : Bytes) : EngineM Unit := do
  let e ← get
  match hexToBytes conversationId with
  | none => throw "That conversation isn't in your list"
  | some id =>
    match archiveContext cfg e.history id, out.home with
    | none, _ => throw "That conversation isn't in your list"
    | some ctx, home =>
      if ctx.makerFp ≠ cfg.myFpHex then
        throw "Someone else makes this chat's archive; you will be given access"
      else if e.history.hasArchive id then throw "This chat already has an archive"
      else match home with
        | none => throw "Set up messaging first"
        | some (relayAddress, relayId) => do
          let archiveKey ← ask (out.random · Archive.keyBytes)
          let tokens ← ctx.others.mapM fun _ => ask (out.random · 32)
          let (publicKey, privateKey) ← ask out.chatKey
          match ← ask out.createArchive with
          | .error err => throw (toText err)
          | .ok _ =>
            let a : HistoryStore.Archive :=
              { conversationId := id, relayAddress, relayId, role := .creator, state := .joined
                archiveKey, chatPublicKey := publicKey, chatPrivateKey := privateKey, joinToken := []
                createdAt := out.now }
            let added ← callHistory (.ok <| ·.addArchive a)
            if added then do
              (ctx.others.zip tokens).forM fun (fp, token) => grantArchive cfg out a ctx fp token
              queueCreationRecord cfg out id
            else throw "This chat already has an archive"

/-- A refusal is final; anything else is tried again. -/
def joinArchive (id : Bytes) : EngineM Unit := do
  let e ← get
  match (e.history.archive id).filter (·.state = .granted) with
  | none => pure ()
  | some a =>
    if (parseServerAddress a.relayAddress).isNone then modifyHistory (·.setArchiveFailed id)
    else match ← ask out.joinArchive with
      | .ok _ => modifyHistory (·.setArchiveJoined id)
      | .error err =>
        if mentions err "closed" ∨ mentions err "Unknown archive or join token" ∨
            mentions err "does not match" then
          modifyHistory (·.setArchiveFailed id)
        else pure ()

end PqSuite.Engine
