import Mathlib.Data.List.Infix
import PqSuite.Client.ArchiveSync
import PqSuite.Client.ControlRecords
import PqSuite.Client.Outbox

/-!
# The engine: its state, the people it knows and what it queues (`messaging_engine.cpp`)

Each function of the engine changes the tables of the client in the order of the source and stops where
the source throws, with the changes made so far. What it draws at random and what relays answer comes from
outside, one answer after the other.

Notices, the times at which the loop looks at something again and whether the view must be refreshed are
left out.
-/

namespace PqSuite

open Relay (ArchiveEntry ArchiveHead)
open Keyring (Introduced MemberToken)
open Chat

/-- The keys of this user, and what their signatures are checked with. -/
structure EngineSetup extends ChatCrypto where
  publicDsa : Bytes
  privateDsa : Bytes
  verify_sign : ∀ m s, sign m privateDsa = .ok s → verify m s publicDsa = true
  secret : SecretCrypto

namespace EngineSetup

variable (cfg : EngineSetup)

/-- `my_fp_`. -/
def myFp : Bytes := cfg.sha256 cfg.publicDsa

/-- `my_fp_hex_`. -/
def myFpHex : Bytes := bytesToHex cfg.myFp

end EngineSetup

/-- A deletion order as it is sent to the relay of a chat's archive. -/
structure DeletionOrder where
  scope : Relay.DeleteScope
  opId : Bytes
  expiresAt : UInt64
  entryHashes : List Bytes
  signatures : List (Bytes × Bytes)

inductive OrderAnswer where
  | done
  | refused (err : Bytes)
  | lost (err : Bytes)

/-- What comes from outside during one step: the clock, and the answer to each question asked. -/
structure Outside where
  now : Time
  /-- `random_bytes`, for a size. -/
  random : ℕ → ℕ → Bytes
  /-- The two halves of a new signing key. -/
  chatKey : ℕ → Bytes × Bytes
  signIn : ℕ → Except Bytes Unit
  deleteInArchive : ℕ → DeletionOrder → OrderAnswer
  fetchEntries : ℕ → Except Bytes (List ArchiveEntry × ArchiveHead)
  /-- Connecting to our relay, making a new archive there and joining it. -/
  createArchive : ℕ → Except Bytes Unit
  joinArchive : ℕ → Except Bytes Unit
  /-- The address and the ID of this user's relay, once messaging is set up. -/
  home : Option (Bytes × Bytes)

structure Engine where
  history : HistoryStore := {}
  submitAttempts : List (Bytes × ℕ) := []
  asked : ℕ := 0
  sent : List (DeletionOrder × OrderAnswer) := []

/-- A program that throws keeps what it changed before. -/
abbrev EngineM := EStateM String Engine

def toText (s : Bytes) : String := .ofList (s.map fun c => Char.ofNat c.toNat)

/-- `text.find(part) != npos`. -/
def mentions (text : Bytes) (part : String) : Bool := decide (ascii part <:+: text)

namespace Engine

variable (cfg : EngineSetup) {α : Type}

/-! ## Statements -/

def ask (answer : ℕ → α) : EngineM α := do
  let e ← get
  set { e with asked := e.asked + 1 }
  return answer e.asked

/-- `delete_in_archive` over an open session. -/
def sendOrder (out : Outside) (order : DeletionOrder) : EngineM OrderAnswer := do
  let e ← get
  let answer := out.deleteInArchive e.asked order
  set { e with asked := e.asked + 1, sent := e.sent ++ [(order, answer)] }
  return answer

def modifyHistory (f : HistoryStore → HistoryStore) : EngineM Unit :=
  modify fun e => { e with history := f e.history }

def callHistory (f : HistoryStore → Except String (α × HistoryStore)) : EngineM α := do
  let e ← get
  match f e.history with
  | .ok (a, history) =>
    set { e with history }
    return a
  | .error err => throw err

def orThrow : Except String α → EngineM α
  | .ok a => return a
  | .error err => throw err

/-- `sign_record` with this user's key. -/
def sign (r : Record) : EngineM Bytes := orThrow (signRecord cfg.toChatCrypto r cfg.privateDsa)

/-! ## People -/

/-- This user and the given others, if all are written in hexadecimal. -/
def everyone (members : List Bytes) : Option (List Bytes) :=
  (members.mapM hexToBytes).map (cfg.myFp :: ·)

/-- Who a chat's archive is for. -/
structure ArchiveContext where
  recipientsHash : Bytes
  others : List Bytes
  direct : Bool
  makerFp : Bytes

def archiveContext (h : HistoryStore) (conversationId : Bytes) : Option ArchiveContext := do
  let conv ← h.conversation conversationId
  let all ← everyone cfg conv.members
  let recipientsHash := recipientsHashFor cfg.toChatCrypto all
  if conv.kind = .direct then
    match conv.members with
    -- the smaller fingerprint makes it
    | [other] => some ⟨recipientsHash, conv.members, true,
        if bytesLe cfg.myFpHex other then cfg.myFpHex else other⟩
    | _ => none
  else some ⟨recipientsHash, conv.members, false, conv.creatorFp⟩

/-! ## Queueing -/

def enqueue (contactFp : Bytes) (kind : OutboxKind) (messageId : Bytes) (records : List Bytes)
    (dueAt : Time) : EngineM Unit :=
  modifyHistory (·.enqueue contactFp kind messageId records dueAt)

def queueArchiveEntry (out : Outside) (conversationId record messageId : Bytes) : EngineM Unit := do
  let e ← get
  if e.history.hasArchive conversationId then
    enqueue (bytesToHex conversationId) .archive messageId [record] out.now
  else pure ()

end Engine

end PqSuite
