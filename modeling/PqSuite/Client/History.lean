import Mathlib.Data.List.Sort
import PqSuite.Client.Keyring
import PqSuite.Lib.Rows
import PqSuite.Protocol.Archive

/-!
# The client's database (`history_store.cpp`)

Each table is the list of its rows in `rowid` order. `INSERT OR IGNORE` appends a row unless one with
its key is there, `INSERT OR REPLACE` appends it in place of that one. The members of a conversation, a
table of their own in the source, are a field of its row. A row that the device sealed opens again, so
the tables here hold what was sealed.
-/

namespace PqSuite

open Keyring (ArchiveItem ArchiveRole ArchiveState MemberToken Introduced IssuedToken)

/-- The order of `std::vector<uint8_t>` and of `std::string`. -/
def bytesLe : Bytes → Bytes → Bool
  | [], _ => true
  | _ :: _, [] => false
  | a :: as, b :: bs => a < b || (a = b && bytesLe as bs)

theorem bytesLe_total (a b : Bytes) : bytesLe a b ∨ bytesLe b a := by
  induction a generalizing b with
  | nil => exact .inl rfl
  | cons x a ih =>
    cases b with
    | nil => exact .inr rfl
    | cons y b =>
      simp only [bytesLe, Bool.or_eq_true, Bool.and_eq_true, decide_eq_true_eq]
      by_cases hxy : x = y
      · subst hxy
        exact (ih b).imp (.inr ⟨rfl, ·⟩) (.inr ⟨rfl, ·⟩)
      · exact (UInt8.lt_or_lt_of_ne hxy).imp .inl .inl

theorem bytesLe_antisymm {a b : Bytes} (hab : bytesLe a b) (hba : bytesLe b a) : a = b := by
  induction a generalizing b with
  | nil =>
    cases b with
    | nil => rfl
    | cons y b => exact nomatch hba
  | cons x a ih =>
    cases b with
    | nil => exact nomatch hab
    | cons y b =>
      simp only [bytesLe, Bool.or_eq_true, Bool.and_eq_true, decide_eq_true_eq] at hab hba
      rcases hab with hlt | ⟨rfl, hab⟩
      · rcases hba with hgt | ⟨rfl, -⟩
        · exact absurd hgt (UInt8.lt_asymm hlt)
        · exact absurd hlt (UInt8.lt_irrefl _)
      · rcases hba with hgt | ⟨-, hba⟩
        · exact absurd hgt (UInt8.lt_irrefl _)
        · rw [ih hab hba]

theorem bytesLe_trans {a b c : Bytes} (hab : bytesLe a b) (hbc : bytesLe b c) : bytesLe a c := by
  induction a generalizing b c with
  | nil => rfl
  | cons x a ih =>
    cases b with
    | nil => exact nomatch hab
    | cons y b =>
      cases c with
      | nil => exact nomatch hbc
      | cons z c =>
        simp only [bytesLe, Bool.or_eq_true, Bool.and_eq_true, decide_eq_true_eq] at hab hbc ⊢
        rcases hab with hlt | ⟨rfl, hab⟩
        · rcases hbc with hlt' | ⟨rfl, -⟩
          · exact .inl (UInt8.lt_trans hlt hlt')
          · exact .inl hlt
        · rcases hbc with hlt | ⟨rfl, hbc⟩
          · exact .inl hlt
          · exact .inr ⟨rfl, ih hab hbc⟩

instance : Std.Total (bytesLe · ·) := ⟨bytesLe_total⟩
instance : IsTrans Bytes (bytesLe · ·) := ⟨fun _ _ _ => bytesLe_trans⟩
instance : Std.Antisymm (bytesLe · ·) := ⟨fun _ _ => bytesLe_antisymm⟩

theorem insertionSort_eq_iff_perm {l l' : List Bytes} :
    l.insertionSort (bytesLe · ·) = l'.insertionSort (bytesLe · ·) ↔ l.Perm l' := by
  constructor
  · intro h
    exact (List.perm_insertionSort _ l).symm.trans (h ▸ List.perm_insertionSort _ l')
  · intro h
    refine List.Perm.eq_of_pairwise' (List.pairwise_insertionSort _ l)
      (List.pairwise_insertionSort _ l') ?_
    exact ((List.perm_insertionSort _ l).trans h).trans (List.perm_insertionSort _ l').symm

/-! ## Rows -/

inductive ConversationKind where
  | direct
  | group
  deriving DecidableEq

inductive ConversationState where
  | active
  /-- A group this user has joined but whose members' send tokens haven't all arrived. -/
  | settingUp
  deriving DecidableEq

structure Conversation where
  id : Bytes
  /-- Direct: the other person, in lowercase hexadecimal. Group: empty. -/
  contactFp : Bytes
  kind : ConversationKind
  state : ConversationState := .active
  title : Bytes := []
  creatorFp : Bytes := []
  previousId : Bytes := []
  /-- Everyone except this user, in lowercase hexadecimal. -/
  members : List Bytes
  sendDeliveryReceipts : Bool := true
  sendReadReceipts : Bool := true
  deriving DecidableEq

/-- A keyring entry, how far its chain has been checked here and when it was added. -/
structure HistoryStore.Archive extends ArchiveItem where
  headNumber : UInt64 := 0
  /-- None before any entry. -/
  headHash : Option Relay.Digest := none
  createdAt : Time
  /-- The entries since this device's last checkpoint, and when that was. -/
  activity : ℕ := 0
  checkpointAt : Time := 0
  deriving DecidableEq

structure VerifiedPerson where
  fp : Bytes
  verifiedAt : Time
  deriving DecidableEq

structure Message where
  conversationId : Bytes
  messageId : Bytes
  outgoing : Bool
  sentAt : Time
  receivedAt : Time
  /-- Outgoing: 0 queued, 1 sent, 2 delivered, 3 read. Incoming: 0 unread, 1 read. -/
  status : ℕ
  /-- The sender's record points at something that never came. -/
  gap : Bool := false
  entryHash : Relay.Digest
  /-- Empty once the message is erased by agreement. -/
  record : Bytes
  deriving DecidableEq

inductive OutboxKind where
  | message
  | receipt
  /-- A job to make send tokens for group members, then forward records to the creator. -/
  | grants
  /-- A sealed envelope to deposit as it is. -/
  | relay
  | archive
  /-- A message with a file: the record, then this recipient's file ID, key and token. -/
  | attachment
  | upload
  deriving DecidableEq

structure OutboxItem where
  id : ℕ
  /-- Who it goes to; for an archive entry the chat's ID and for an upload the file's, in hexadecimal. -/
  contactFp : Bytes
  kind : OutboxKind
  messageId : Bytes
  records : List Bytes
  dueAt : Time
  deriving DecidableEq

inductive DeletionState where
  | pending
  | accepted
  | declined
  | done
  | expired
  deriving DecidableEq

/-- A request to delete a chat, or some entries of its archive, for everyone. -/
structure Deletion where
  opId : Bytes
  conversationId : Bytes
  scope : Relay.DeleteScope
  expiresAt : Time
  requesterFp : Bytes
  entries : List Bytes
  state : DeletionState
  createdAt : Time
  deriving DecidableEq

structure DeletionAccept where
  opId : Bytes
  keyHash : Bytes
  signature : Bytes
  memberFp : Bytes
  deriving DecidableEq

structure ChainLink where
  conversationId : Bytes
  number : UInt64
  hash : Bytes
  deriving DecidableEq

def ChainLink.key (l : ChainLink) : Bytes × UInt64 := (l.conversationId, l.number)

structure ArchivedMessage where
  conversationId : Bytes
  messageId : Bytes
  number : UInt64
  deriving DecidableEq

def ArchivedMessage.key (m : ArchivedMessage) : Bytes × Bytes := (m.conversationId, m.messageId)

structure HistoryStore.Delivery where
  conversationId : Bytes
  messageId : Bytes
  memberFp : Bytes
  status : ℕ
  deriving DecidableEq

structure HistoryStore where
  conversations : List Conversation := []
  introduced : List Introduced := []
  archives : List HistoryStore.Archive := []
  verified : List VerifiedPerson := []
  memberTokens : List MemberToken := []
  issuedTokens : List IssuedToken := []
  messages : List Message := []
  deliveries : List HistoryStore.Delivery := []
  outbox : List OutboxItem := []
  /-- The ID of the next item, which is never used again. -/
  nextItem : ℕ := 1
  deletions : List Deletion := []
  deletionAccepts : List DeletionAccept := []
  archiveChain : List ChainLink := []
  archiveMessages : List ArchivedMessage := []
  /-- The entries whose content is gone. -/
  archiveRedacted : List (Bytes × UInt64) := []

namespace HistoryStore

/-! ## Conversations -/

def conversation (h : HistoryStore) (id : Bytes) : Option Conversation :=
  Rows.lookup Conversation.id id h.conversations

/-- The direct one. -/
def conversationFor (h : HistoryStore) (contactFp : Bytes) : Option Conversation :=
  h.conversations.find? fun c => c.kind = .direct ∧ c.contactFp = contactFp

def setReceiptSettings (h : HistoryStore) (conversationId : Bytes) (delivery read : Bool) :
    HistoryStore :=
  { h with
    conversations := h.conversations.map fun c =>
      if c.id = conversationId then
        { c with sendDeliveryReceipts := delivery, sendReadReceipts := read }
      else c }

/-- The direct conversation with a contact, added if it is missing. The insert is ignored if the ID
is taken, and the source throws if there is still none. -/
def ensureConversation (h : HistoryStore) (id contactFp : Bytes) :
    Except String (Conversation × HistoryStore) :=
  match h.conversationFor contactFp with
  | some c =>
    if contactFp ∈ c.members then .ok (c, h)
    else
      let c' := { c with members := c.members ++ [contactFp] }
      .ok (c', { h with conversations := h.conversations.map fun r => if r.id = c.id then c' else r })
  | none =>
    if (h.conversation id).isSome then .error "database: conversation missing after insert"
    else
      let c : Conversation := { id, contactFp, kind := .direct, members := [contactFp] }
      .ok (c, { h with conversations := h.conversations ++ [c] })

def maxOtherMembers : ℕ := 15
def maxTitleBytes : ℕ := 64

/-- 64 lowercase hexadecimal digits. -/
def isMemberFp (fp : Bytes) : Bool :=
  fp.length = 64 && fp.all fun c => (48 ≤ c && c ≤ 57) || (97 ≤ c && c ≤ 102)

/-- Each member in turn, against the ones `before` it. -/
def checkMembers (before : List Bytes) : List Bytes → Except String Unit
  | [] => .ok ()
  | m :: rest =>
    if ¬isMemberFp m then .error "A group member is not a valid fingerprint"
    else if m ∈ before then .error "A group member is listed twice"
    else checkMembers (before ++ [m]) rest

/-- The existing conversation with that ID is returned unchanged: a replay changes nothing. -/
def createGroup (h : HistoryStore) (id title creatorFp previousId : Bytes) (members : List Bytes)
    (state : ConversationState) : Except String (Conversation × HistoryStore) :=
  if id = [] then .error "A group needs a conversation ID"
  else if title.length > maxTitleBytes then .error "The group name is too long"
  else if creatorFp ≠ [] ∧ ¬isMemberFp creatorFp then
    .error "The group creator is not a valid fingerprint"
  else if members = [] ∨ members.length > maxOtherMembers then
    .error "A group needs between 2 and 16 people"
  else match checkMembers [] members with
    | .error e => .error e
    | .ok _ => match h.conversation id with
      | some c => .ok (c, h)
      | none =>
        let c : Conversation :=
          { id, contactFp := [], kind := .group, state, title, creatorFp, previousId, members }
        .ok (c, { h with conversations := h.conversations ++ [c] })

def setConversationState (h : HistoryStore) (id : Bytes) (state : ConversationState) :
    HistoryStore :=
  { h with conversations := h.conversations.map fun c => if c.id = id then { c with state } else c }

/-! ## People a group's creator introduced -/

def findIntroduced (h : HistoryStore) (fp : Bytes) : Option Introduced :=
  Rows.lookup Introduced.fp fp h.introduced

/-- Keeps the newest bundle of a person; who introduced them and when stay as first recorded. -/
def saveIntroduced (h : HistoryStore) (i : Introduced) : HistoryStore :=
  { h with
    introduced :=
      if (h.findIntroduced i.fp).isSome then
        h.introduced.map fun r =>
          if r.fp = i.fp ∧ i.issuedAt > r.issuedAt then
            { r with bundle := i.bundle, issuedAt := i.issuedAt }
          else r
      else h.introduced ++ [i] }

def deleteIntroducedExcept (h : HistoryStore) (keep : List Bytes) : HistoryStore :=
  { h with introduced := h.introduced.filter (·.fp ∈ keep) }

/-- `ORDER BY first_seen, fp`. -/
def introducedMembers (h : HistoryStore) : List Introduced :=
  h.introduced.insertionSort fun a b =>
    a.firstSeen < b.firstSeen ∨ a.firstSeen = b.firstSeen ∧ bytesLe a.fp b.fp

/-! ## Archives -/

def archive (h : HistoryStore) (conversationId : Bytes) : Option Archive :=
  Rows.lookup (·.conversationId) conversationId h.archives

/-- `false` if the conversation already has an archive. -/
def addArchive (h : HistoryStore) (a : Archive) : Bool × HistoryStore :=
  if (h.archive a.conversationId).isSome then (false, h)
  else (true, { h with archives := h.archives ++ [a] })

def archivesByAge (h : HistoryStore) : List Archive :=
  h.archives.insertionSort (·.createdAt ≤ ·.createdAt)

def updateArchive (h : HistoryStore) (conversationId : Bytes) (f : Archive → Archive) :
    HistoryStore :=
  { h with archives := h.archives.map fun a => if a.conversationId = conversationId then f a else a }

/-- The join token is forgotten. -/
def setArchiveJoined (h : HistoryStore) (conversationId : Bytes) : HistoryStore :=
  h.updateArchive conversationId fun a =>
    { a with toArchiveItem := { a.toArchiveItem with state := .joined, joinToken := [] } }

def setArchiveFailed (h : HistoryStore) (conversationId : Bytes) : HistoryStore :=
  h.updateArchive conversationId fun a =>
    { a with toArchiveItem := { a.toArchiveItem with state := .failed, joinToken := [] } }

/-- Moves the checked head forward, never backwards; the database compares signed numbers. -/
def setArchiveHead (h : HistoryStore) (conversationId : Bytes) (number : UInt64)
    (hash : Relay.Digest) : HistoryStore :=
  h.updateArchive conversationId fun a =>
    if a.headNumber.toInt64 < number.toInt64 then { a with headNumber := number, headHash := some hash } else a

def removeArchive (h : HistoryStore) (conversationId : Bytes) : HistoryStore :=
  { h with
    archives := h.archives.filter (·.conversationId ≠ conversationId)
    archiveChain := h.archiveChain.filter (·.conversationId ≠ conversationId)
    archiveMessages := h.archiveMessages.filter (·.conversationId ≠ conversationId)
    archiveRedacted := h.archiveRedacted.filter (·.1 ≠ conversationId) }

/-! ## People the user has verified, and tokens -/

def setVerified (h : HistoryStore) (fp : Bytes) (verified : Bool) (now : Time) : HistoryStore :=
  { h with
    verified :=
      if verified then
        if (Rows.lookup VerifiedPerson.fp fp h.verified).isSome then h.verified
        else h.verified ++ [⟨fp, now⟩]
      else h.verified.filter (·.fp ≠ fp) }

/-- `ORDER BY verified_at, fp`. -/
def verifiedPeople (h : HistoryStore) : List Bytes :=
  (h.verified.insertionSort fun a b =>
    a.verifiedAt < b.verifiedAt ∨ a.verifiedAt = b.verifiedAt ∧ bytesLe a.fp b.fp).map (·.fp)

/-- Saving again for the same group and member replaces the token. -/
def saveMemberToken (h : HistoryStore) (t : MemberToken) : HistoryStore :=
  { h with
    memberTokens := h.memberTokens.filter
      (fun r => ¬(r.conversationId = t.conversationId ∧ r.memberFp = t.memberFp)) ++ [t] }

/-- `ORDER BY conv_id, fp`. -/
def allMemberTokens (h : HistoryStore) : List MemberToken :=
  h.memberTokens.insertionSort fun a b =>
    if a.conversationId = b.conversationId then bytesLe a.memberFp b.memberFp
    else bytesLe a.conversationId b.conversationId

def findIssuedToken (h : HistoryStore) (hash : Bytes) : Option IssuedToken :=
  Rows.lookup IssuedToken.hash hash h.issuedTokens

def addIssuedToken (h : HistoryStore) (hash label boundFp : Bytes) (now : Int64) : HistoryStore :=
  { h with
    issuedTokens := h.issuedTokens.filter (·.hash ≠ hash) ++ [⟨hash, label, now, boundFp, false⟩] }

/-- `ORDER BY created_at DESC, rowid DESC`. -/
def issuedTokensByAge (h : HistoryStore) : List IssuedToken :=
  h.issuedTokens.reverse.insertionSort (·.createdAt ≥ ·.createdAt)

def bindIssuedToken (h : HistoryStore) (hash fp : Bytes) : HistoryStore :=
  { h with
    issuedTokens := h.issuedTokens.map fun t =>
      if t.hash = hash ∧ t.boundFp = [] then { t with boundFp := fp } else t }

def markTokenRevoked (h : HistoryStore) (hash : Bytes) : HistoryStore :=
  { h with
    issuedTokens := h.issuedTokens.map fun t => if t.hash = hash then { t with revoked := true } else t }

/-! ## What the tables are after it -/

variable {h h' : HistoryStore} {c : Conversation}

/-- The direct conversation is found, with the contact among its members, or it is new. -/
theorem ensureConversation_eq_ok {id contactFp : Bytes}
    (hrun : h.ensureConversation id contactFp = .ok (c, h')) :
    (∃ c₀, h.conversationFor contactFp = some c₀ ∧ contactFp ∈ c₀.members ∧ c = c₀ ∧ h' = h) ∨
    (∃ c₀, h.conversationFor contactFp = some c₀ ∧ contactFp ∉ c₀.members ∧
      c = { c₀ with members := c₀.members ++ [contactFp] } ∧
      h' = { h with conversations := h.conversations.map fun r => if r.id = c₀.id then c else r }) ∨
    (h.conversationFor contactFp = none ∧ h.conversation id = none ∧
      c = { id, contactFp, kind := .direct, members := [contactFp] } ∧
      h' = { h with conversations := h.conversations ++ [c] }) := by
  unfold ensureConversation at hrun
  split at hrun
  · rename_i c₀ hc₀
    split_ifs at hrun with hmem
    · cases hrun
      exact .inl ⟨c, hc₀, hmem, rfl, rfl⟩
    · cases hrun
      exact .inr (.inl ⟨c₀, hc₀, hmem, rfl, rfl⟩)
  · rename_i hc₀
    split_ifs at hrun with hid
    cases hrun
    exact .inr (.inr ⟨hc₀, by simpa using hid, rfl, rfl⟩)

/-- The conversation with the ID is found as it was, or it is a new group. -/
theorem createGroup_eq_ok {id title creatorFp previousId : Bytes} {members : List Bytes}
    {state : ConversationState}
    (hrun : h.createGroup id title creatorFp previousId members state = .ok (c, h')) :
    checkMembers [] members = .ok () ∧
      (h.conversation id = some c ∧ h' = h ∨
        h.conversation id = none ∧
          c = { id, contactFp := [], kind := .group, state, title, creatorFp, previousId, members } ∧
          h' = { h with conversations := h.conversations ++ [c] }) := by
  unfold createGroup at hrun
  split_ifs at hrun
  split at hrun
  · exact nomatch hrun
  · rename_i hcheck
    refine ⟨hcheck, ?_⟩
    split at hrun
    · rename_i hconv
      cases hrun
      exact .inl ⟨hconv, rfl⟩
    · rename_i hconv
      cases hrun
      exact .inr ⟨hconv, rfl, rfl⟩

end HistoryStore

inductive NewChat where
  | direct (contactFp : Bytes)
  | group (title creatorFp previousId : Bytes) (members : List Bytes) (state : ConversationState)
  deriving DecidableEq

/-- A chat that cannot be made leaves the tables as they were. -/
def NewChat.make (id : Bytes) (h : HistoryStore) : NewChat → HistoryStore
  | .direct contactFp =>
    match h.ensureConversation id contactFp with
    | .ok (_, h') => h'
    | .error _ => h
  | .group title creatorFp previousId members state =>
    match h.createGroup id title creatorFp previousId members state with
    | .ok (_, h') => h'
    | .error _ => h

/-- Only conversations change, and none goes away. -/
theorem NewChat.make_eq (chat : NewChat) (id : Bytes) (h : HistoryStore) :
    ∃ cs, chat.make id h = { h with conversations := cs } ∧
      ∀ c ∈ h.conversations, ∃ c' ∈ cs, c'.id = c.id := by
  have hsame : ∃ cs, h = { h with conversations := cs } ∧
      ∀ c ∈ h.conversations, ∃ c' ∈ cs, c'.id = c.id := ⟨_, rfl, fun c hc => ⟨c, hc, rfl⟩⟩
  have hnew : ∀ n, ∃ cs, { h with conversations := h.conversations ++ [n] } =
      { h with conversations := cs } ∧ ∀ c ∈ h.conversations, ∃ c' ∈ cs, c'.id = c.id :=
    fun n => ⟨_, rfl, fun c hc => ⟨c, List.mem_append_left _ hc, rfl⟩⟩
  cases chat with
  | direct contactFp =>
    rw [make]
    split
    · rename_i hrun
      obtain ⟨c₀, -, -, -, rfl⟩ | ⟨c₀, -, -, rfl, rfl⟩ | ⟨-, -, -, rfl⟩ :=
        HistoryStore.ensureConversation_eq_ok hrun
      · exact hsame
      · refine ⟨_, rfl, fun c hc => ⟨_, List.mem_map_of_mem hc, ?_⟩⟩
        split_ifs with heq
        · exact heq.symm
        · rfl
      · exact hnew _
    · exact hsame
  | group =>
    rw [make]
    split
    · rename_i hrun
      obtain ⟨-, rfl⟩ | ⟨-, -, rfl⟩ := (HistoryStore.createGroup_eq_ok hrun).2
      · exact hsame
      · exact hnew _
    · exact hsame

theorem NewChat.archives_make (chat : NewChat) (id : Bytes) (h : HistoryStore) :
    (chat.make id h).archives = h.archives := by
  obtain ⟨cs, heq, -⟩ := chat.make_eq id h
  rw [heq]

theorem NewChat.isSome_conversation_make (chat : NewChat) {id cid : Bytes} {h : HistoryStore}
    (hc : (h.conversation cid).isSome) : ((chat.make id h).conversation cid).isSome := by
  obtain ⟨cs, heq, hkeeps⟩ := chat.make_eq id h
  obtain ⟨c, hmem, rfl⟩ := Rows.lookup_isSome.1 hc
  rw [heq]
  exact Rows.lookup_isSome.2 (hkeeps c hmem)

end PqSuite
