import PqSuite.Client.FileTransfer
import PqSuite.Client.KeyringTransfer

/-!
# Requests and deliveries on the owner connection (`relay_client.cpp`)

Most requests are one message with one reply. `SingleRequest` lists them, with the replies each waits for
and what it does with a reply it cannot use. Envelopes and the ends of a backlog arrive between replies,
inside any request's wait for its own. The events that `next_event` has given out and those in the queue
are what is due, in order (`deliveries_are_due`).
-/

namespace PqSuite

open Relay RelayClient

variable {c : RelayClient} {rest : List Arrival}

/-- The requests with one message and one reply. `putKeyring` is one chunk of a keyring and `beginUpload`
the first message of `upload_file`. -/
inductive SingleRequest where
  | registerMailbox
  | authenticate
  | deposit
  | createInvite
  | listInvites
  | cancelInvite
  | putPrekeys
  | prekeyStatus
  | takePrekey
  | beginUpload
  | redeemFile
  | cancelFile
  | fileStatus
  | putKeyring
  | createArchive
  | joinArchive
  | authenticateArchive
  | appendEntry
  | deleteInArchive
  | addToken
  | revokeToken
  | ping
  deriving DecidableEq

namespace SingleRequest

/-- The message and the reply it waits for. -/
def types : SingleRequest → MessageType × MessageType
  | registerMailbox => (.relayRegister, .relayRegisterOk)
  | authenticate => (.relayAuth, .relayAuthOk)
  | deposit => (.relayDeposit, .relayDepositOk)
  | createInvite => (.relayInviteCreate, .relayInviteOk)
  | listInvites => (.relayInviteList, .relayInviteListOk)
  | cancelInvite => (.relayInviteCancel, .relayInviteCancelOk)
  | putPrekeys => (.prekeyPut, .prekeyPutOk)
  | prekeyStatus => (.prekeyStatus, .prekeyStatusOk)
  | takePrekey => (.prekeyTake, .prekeyData)
  | beginUpload => (.fileUploadBegin, .fileUploadOk)
  | redeemFile => (.fileRedeem, .fileRedeemOk)
  | cancelFile => (.fileCancel, .fileCancelOk)
  | fileStatus => (.fileStatus, .fileStatusOk)
  | putKeyring => (.keyringPut, .keyringPutOk)
  | createArchive => (.archiveCreate, .archiveCreateOk)
  | joinArchive => (.archiveJoin, .archiveJoinOk)
  | authenticateArchive => (.archiveAuth, .archiveAuthOk)
  | appendEntry => (.archiveAppend, .archiveAppendOk)
  | deleteInArchive => (.archiveDelete, .archiveDeleteOk)
  | addToken => (.relayTokenAdd, .relayTokenOk)
  | revokeToken => (.relayTokenRevoke, .relayTokenOk)
  | ping => (.relayPing, .relayPong)

/-- The second reply an append waits for: someone else appended first. -/
def otherReply : SingleRequest → MessageType
  | appendEntry => .archiveStale
  | q => q.types.2

/-- What the call says of a reply it cannot use, and whether it closes the connection then. -/
def refuses (q : SingleRequest) (payload : Bytes) : Option (Bytes × Bool) :=
  match q with
  | createInvite =>
    if payload.length ≠ inviteBytes then some (ascii "The relay sent an invalid invite", false) else none
  | listInvites => if (decodeInviteStatus payload).isNone then some (invalidAnswerText, false) else none
  | putPrekeys | prekeyStatus =>
    if (decodePrekeyStatus payload).isNone then some (invalidAnswerText, true) else none
  | takePrekey => if (decodePrekeyData payload).isNone then some (invalidAnswerText, true) else none
  | fileStatus => if (decodeFileStatus payload).isNone then some (invalidAnswerText, true) else none
  | appendEntry => if (decodeArchiveHead payload).isNone then some (invalidAnswerText, true) else none
  | _ => none

/-- The relay hangs up after a failed sign-in, and so does the client. -/
def signsIn : SingleRequest → Bool
  | authenticate | authenticateArchive => true
  | _ => false

def call (q : SingleRequest) (payload : Bytes) (c : RelayClient) : Except Bytes WireMessage × RelayClient :=
  match c.sendRequest q.types.1 payload with
  | (.error e, c) => (.error e, if q.signsIn then c.close else c)
  | (.ok _, c) =>
    match readReplyEither q.types.2 q.otherReply c.arrivals c with
    | (.error e, c) => (.error e, if q.signsIn then c.close else c)
    | (.ok m, c) =>
      match q.refuses m.payload with
      | none => (.ok m, c)
      | some (text, closes) => (.error text, if closes then c.close else c)

/-- No request takes what the relay pushes for its reply. -/
theorem reply_not_pushed (q : SingleRequest) (t : MessageType) (ht : t = q.types.2 ∨ t = q.otherReply) :
    t ≠ .relayEnvelope ∧ t ≠ .relayCollectEnd := by
  rcases ht with rfl | rfl <;> cases q <;> exact ⟨by decide, by decide⟩

theorem later_call (q : SingleRequest) (payload : Bytes) (c : RelayClient) :
    Later c [] (q.call payload c).2 := by
  have hsend := c.sendRequest_cases q.types.1 payload
  unfold call
  generalize c.sendRequest q.types.1 payload = sent at hsend ⊢
  obtain ⟨res, c₁⟩ := sent
  rcases hsend with ⟨⟨e, rfl⟩, -, hl⟩ | ⟨rfl, hl, -⟩
  · exact hl.closeIf q.signsIn
  have hread := hl.trans (later_readReplyEither q.reply_not_pushed c₁.arrivals c₁)
  dsimp only
  generalize readReplyEither q.types.2 q.otherReply c₁.arrivals c₁ = got at hread ⊢
  obtain ⟨res, c₂⟩ := got
  cases res with
  | error e => exact hread.closeIf q.signsIn
  | ok m =>
    dsimp only
    split
    · exact hread
    · exact hread.closeIf _

end SingleRequest

/-! ## A run of calls -/

inductive OwnerCall where
  | nextEvent
  | request (q : SingleRequest) (payload : Bytes)
  | acknowledge (ids : List Bytes)
  | collect

namespace OwnerCall

def run (c : RelayClient) : OwnerCall → RelayClient
  | nextEvent => c.nextEvent.2
  | request q payload => (q.call payload c).2
  | acknowledge ids => (c.acknowledge ids).2
  | collect => c.collect.2

def out (c : RelayClient) : OwnerCall → List Delivery
  | nextEvent => given c.nextEvent.1
  | _ => []

theorem later (c : RelayClient) (call : OwnerCall) : Later c (call.out c) (call.run c) := by
  cases call with
  | nextEvent => exact later_nextEvent c
  | request q payload => exact q.later_call payload c
  | acknowledge ids => exact later_acknowledgeFrom _ ids c
  | collect => exact later_collect c

end OwnerCall

/-- A connection on which nothing has arrived yet. -/
structure RelayClient.Fresh (c : RelayClient) : Prop where
  connected : c.connected = true
  queue : c.queue = []
  seen : c.seen = []
  noted : c.noted = []

/-- The client after some calls, and what they have given out. -/
structure OwnerRun where
  client : RelayClient
  taken : List Delivery := []

namespace OwnerRun

def next (r : OwnerRun) (call : OwnerCall) : OwnerRun where
  client := call.run r.client
  taken := r.taken ++ call.out r.client

def calls (c : RelayClient) (cs : List OwnerCall) : OwnerRun := cs.foldl next { client := c }

theorem calls_append (c : RelayClient) (cs ds : List OwnerCall) :
    calls c (cs ++ ds) = ds.foldl next (calls c cs) := List.foldl_append

theorem tallies (hfresh : c.Fresh) (cs : List OwnerCall) (hopen : (calls c cs).client.connected = true) :
    (calls c cs).client.Tallies (messages c.arrivals) (calls c cs).taken := by
  induction cs using List.reverseRecOn with
  | nil =>
    refine ⟨?_, ?_⟩
    · show ({} : Ledger).notes c.noted = ⟨c.seen, [] ++ c.queue⟩
      rw [hfresh.noted, hfresh.seen, hfresh.queue]
      rfl
    · show _ = c.arrived ++ _
      rw [arrived, hfresh.noted]
      rfl
  | append_singleton cs call ih =>
    rw [calls_append] at hopen ⊢
    have hl := call.later (calls c cs).client
    exact hl.tallies _ _ hopen (ih (hl.connected hopen))

end OwnerRun

namespace OwnerRun

end OwnerRun

end PqSuite
