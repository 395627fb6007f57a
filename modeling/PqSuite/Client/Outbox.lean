import PqSuite.Client.History

/-!
# Messages, the outbox, deletions and archive entries of the client's database (`history_store.cpp`)

What is to be sent waits in the outbox and says only to whom it goes. A request to delete something for
everyone waits with the acceptances that have come for it, one for each key. For every archive this device
keeps the hashes of the entries it has checked, which message is in which entry, and which entries have
lost their content.
-/

namespace PqSuite.HistoryStore

variable (h : HistoryStore)

/-! ## Messages -/

def findMessage (conversationId messageId : Bytes) : Option Message :=
  h.messages.find? fun m => m.conversationId = conversationId ∧ m.messageId = messageId

/-- Only the place and the hash of the message stay. -/
def eraseMessage (conversationId messageId : Bytes) : HistoryStore :=
  { h with
    messages := h.messages.map fun m =>
      if m.conversationId = conversationId ∧ m.messageId = messageId then { m with record := [] }
      else m }

def eraseConversationMessages (conversationId : Bytes) : HistoryStore :=
  { h with
    messages := h.messages.filter (·.conversationId ≠ conversationId)
    deliveries := h.deliveries.filter (·.conversationId ≠ conversationId) }

/-! ## Outbox -/

def enqueue (contactFp : Bytes) (kind : OutboxKind) (messageId : Bytes) (records : List Bytes)
    (dueAt : Time) : HistoryStore :=
  { h with
    outbox := h.outbox ++ [{ id := h.nextItem, contactFp, kind, messageId, records, dueAt }]
    nextItem := h.nextItem + 1 }

/-! ## How far messages have come -/

def deliveryStatus (conversationId messageId memberFp : Bytes) : ℕ :=
  ((h.deliveries.find? fun d => d.conversationId = conversationId ∧ d.messageId = messageId ∧
    d.memberFp = memberFp).map (·.status)).getD 0

/-- A member's status is only ever raised. -/
def setDelivery (conversationId messageId memberFp : Bytes) (status : ℕ) : HistoryStore :=
  let same (d : Delivery) : Bool := d.conversationId = conversationId ∧ d.messageId = messageId ∧
    d.memberFp = memberFp
  { h with
    deliveries :=
      if h.deliveries.any same then
        h.deliveries.map fun d => if same d ∧ d.status < status then { d with status } else d
      else h.deliveries ++ [⟨conversationId, messageId, memberFp, status⟩] }

/-- A message is as far as the member it is least far with. -/
def raiseDelivery (conversationId messageId memberFp : Bytes) (status : ℕ) : HistoryStore :=
  match h.findMessage conversationId messageId, h.conversation conversationId with
  | some m, some conv =>
    if m.outgoing ∧ memberFp ∈ conv.members then
      let h := h.setDelivery conversationId messageId memberFp status
      let reached := conv.members.map (h.deliveryStatus conversationId messageId)
      let lowest := reached.foldl min (reached.headD 0)
      { h with
        messages := h.messages.map fun m =>
          if m.conversationId = conversationId ∧ m.messageId = messageId ∧ m.status < lowest then
            { m with status := lowest }
          else m }
    else h
  | _, _ => h

def firstMessage (conversationId : Bytes) : Option Message :=
  h.messages.find? (·.conversationId = conversationId)

/-! ## Deletions -/

def deletion (opId : Bytes) : Option Deletion := Rows.lookup Deletion.opId opId h.deletions

/-- `false` if that operation is known already. -/
def addDeletion (d : Deletion) : Bool × HistoryStore :=
  (!(h.deletion d.opId).isSome, { h with deletions := Rows.insertNew Deletion.opId h.deletions d })

def setDeletionState (opId : Bytes) (state : DeletionState) : HistoryStore :=
  { h with deletions := h.deletions.map fun d => if d.opId = opId then { d with state } else d }

/-- The first acceptance with a key stays. -/
def addDeletionAccept (a : DeletionAccept) : HistoryStore :=
  { h with deletionAccepts := Rows.insertNew (fun b => (b.opId, b.keyHash)) h.deletionAccepts a }

def deletionAcceptsOf (opId : Bytes) : List DeletionAccept :=
  h.deletionAccepts.filter (·.opId = opId)

/-! ## Entries of archives -/

def hasArchive (conversationId : Bytes) : Bool := (h.archive conversationId).isSome

def archiveNumberOf (conversationId entryHash : Bytes) : Option UInt64 :=
  (h.archiveChain.find? fun l => l.conversationId = conversationId ∧ l.hash = entryHash).map (·.number)

/-- The first hash with a number stays. -/
def saveArchiveHash (link : ChainLink) : HistoryStore :=
  { h with archiveChain := Rows.insertNew ChainLink.key h.archiveChain link }

def archiveMessageNumber (conversationId messageId : Bytes) : Option UInt64 :=
  (Rows.lookup ArchivedMessage.key (conversationId, messageId) h.archiveMessages).map (·.number)

def archiveMessagesAt (conversationId : Bytes) (number : UInt64) : List Bytes :=
  (h.archiveMessages.filter fun m => m.conversationId = conversationId ∧ m.number = number).map
    (·.messageId)

/-- The first entry with a message stays. -/
def saveArchiveMessage (conversationId messageId : Bytes) (number : UInt64) : HistoryStore :=
  { h with
    archiveMessages := Rows.insertNew ArchivedMessage.key h.archiveMessages ⟨conversationId, messageId, number⟩ }

def isArchiveRedacted (conversationId : Bytes) (number : UInt64) : Bool :=
  (conversationId, number) ∈ h.archiveRedacted

def markArchiveRedacted (conversationId : Bytes) (number : UInt64) : HistoryStore :=
  { h with archiveRedacted := Rows.insertNew id h.archiveRedacted (conversationId, number) }

def addArchiveActivity (conversationId : Bytes) (entries : ℕ) : HistoryStore :=
  h.updateArchive conversationId fun a => { a with activity := a.activity + entries }

end PqSuite.HistoryStore
