import PqSuite.Client.Engine
import PqSuite.Client.RelayClient
import PqSuite.Protocol.Codecs
import PqSuite.Server.Service

/-!
# Requests about archives and the relay (`relay_client.cpp`, `relay_service.cpp`)

A request goes out, the relay handles it and its answer is read. The connection may drop before the
request has arrived, or after it was handled and before the answer has; the client cannot tell which.
-/

namespace PqSuite.ArchiveRequest

open Relay

variable {m : ArchiveJoin}

inductive Fate where
  | requestLost
  | replyLost
  | answered
  deriving DecidableEq

/-- The connection on which a request meets its fate; `replies` is what the relay sends. -/
def line (fate : Fate) (replies : List WireMessage) : RelayClient where
  connected := true
  queue := []
  seen := []
  arrivals := match fate with | .answered => replies.map .message | _ => []
  sends := match fate with | .requestLost => [false] | _ => []
  noted := []
  sent := []

/-- What the client is told of a request, and the relay after it. -/
def exchange (type expected : MessageType) (payload : Bytes) (fate : Fate) (st : RelayStore)
    (handled : Outcome) : Except Bytes Bytes × RelayStore :=
  (((line fate handled.replies).request type payload expected).1,
    if fate = .requestLost then st else handled.store)

section

variable (cfg : EngineSetup) (svc : Service)

/-- The relay's side of a request: when it comes, on which connection, and what was counted before. -/
structure Visit where
  now : Time
  session : Session
  rate : RateLimiter

def joinRequest (id joinToken publicKey privateKey : Bytes) : Except String ArchiveJoin := do
  let signature ← cfg.sign (archiveJoinSigningInput svc.relayId id publicKey (cfg.sha256 joinToken).1)
    privateKey
  return ⟨id, joinToken, publicKey, signature⟩

def handleJoin (visit : Visit) (m : ArchiveJoin) (st : RelayStore) : Outcome :=
  handleArchiveJoin svc visit.now visit.session (encodeArchiveJoin m) st visit.rate

def joinArchive (id joinToken publicKey privateKey : Bytes) (fate : Fate) (visit : Visit)
    (st : RelayStore) : Except Bytes Bytes × RelayStore :=
  match joinRequest cfg svc id joinToken publicKey privateKey with
  | .error err => (.error (ascii err), st)
  | .ok m => exchange .archiveJoin .archiveJoinOk (encodeArchiveJoin m) fate st (handleJoin svc visit m st)

def handleCreate (visit : Visit) (m : ArchiveCreate) (st : RelayStore) : Outcome :=
  handleArchiveCreate svc visit.now visit.session (encodeArchiveCreate m) st visit.rate

def createArchive (id : Bytes) (hashes : List Digest) (fate : Fate) (visit : Visit) (st : RelayStore) :
    Except Bytes Bytes × RelayStore :=
  exchange .archiveCreate .archiveCreateOk (encodeArchiveCreate ⟨id, hashes⟩) fate st
    (handleCreate svc visit ⟨id, hashes⟩ st)

end

variable {svc : Service} {visit : Visit} {st : RelayStore}

def Refused (st : RelayStore) (o : Outcome) : Prop :=
  o.store = st ∧ ∃ text, o.replies = [⟨.errorMsg, text⟩]

theorem refused_refuse (rate : RateLimiter) (ss : Session) (text : String) :
    Refused st (refuse st rate ss text) := ⟨rfl, _, rfl⟩

theorem refused_close (rate : RateLimiter) (text : String) : Refused st (close st rate text) := ⟨rfl, _, rfl⟩

/-- How a request ends that the relay, if it accepts it, answers with nothing more to say and with the
store `st'`. -/
inductive Ended (accepted : Prop) (fate : Fate) (st st' : RelayStore) (r : Except Bytes Bytes × RelayStore) :
    Prop
  | told (haccepted : accepted) (hfate : fate = .answered) (hr : r = (.ok [], st'))
  | untold (haccepted : accepted) (hfate : fate = .replyLost) (hr : ∃ err, r = (.error err, st'))
  | nothing (hnot : ¬(accepted ∧ fate ≠ .requestLost)) (hr : ∃ err, r = (.error err, st))

theorem ended_exchange {accepted : Prop} {st' : RelayStore} {type expected : MessageType} {payload : Bytes}
    {o : Outcome} (fate : Fate) (hne : MessageType.errorMsg ≠ expected)
    (hyes : accepted → o.store = st' ∧ o.replies = [⟨expected, []⟩]) (hno : ¬accepted → Refused st o) :
    Ended accepted fate st st' (exchange type expected payload fate st o) := by
  by_cases haccepted : accepted
  · obtain ⟨hstore, hreplies⟩ := hyes haccepted
    unfold exchange
    rw [hstore, hreplies]
    cases fate with
    | requestLost => exact .nothing (fun h => h.2 rfl) ⟨_, rfl⟩
    | replyLost => exact .untold haccepted rfl ⟨_, rfl⟩
    | answered =>
      refine .told haccepted rfl ?_
      simp [line, RelayClient.request, RelayClient.sendRequest, RelayClient.readReply, RelayClient.readReplyEither,
        Except.map]
  · obtain ⟨hstore, text, hreplies⟩ := hno haccepted
    refine .nothing (fun h => haccepted h.1) ?_
    unfold exchange
    rw [hstore, hreplies, ite_self]
    cases fate with
    | requestLost | replyLost => exact ⟨_, rfl⟩
    | answered =>
      refine ⟨relayErrorText text, ?_⟩
      simp [line, RelayClient.request, RelayClient.sendRequest, RelayClient.readReply, RelayClient.readReplyEither,
        Except.map, hne]

/-! ## Making an archive -/

structure Admitted (svc : Service) (visit : Visit) (st : RelayStore) (m : ArchiveCreate) : Prop where
  signedIn : ∃ mailbox, visit.session.mailbox = some mailbox ∧
    (visit.rate.allow (ascii "archive-create:" ++ bytesToHex mailbox) 10 visit.now).1 = true
  valid : m.Valid
  fresh : st.findArchive m.archiveId = none
  room : st.archives.length < svc.limits.maxArchives

def withArchive (svc : Service) (now : Time) (st : RelayStore) (m : ArchiveCreate) : RelayStore :=
  { st with
    archives := st.archives ++ [⟨m.archiveId, m.joinTokenHashes.length, now,
      now + svc.limits.archiveJoinWindowSeconds, 0, svc.sha256 (archiveGenesisInput m.archiveId), 0, now⟩]
    archiveJoinTokens :=
      m.joinTokenHashes.foldl (RelayStore.addJoinToken m.archiveId) st.archiveJoinTokens }

theorem decode_encode_create {m : ArchiveCreate} (hid : m.archiveId.length < 2 ^ 32)
    (hcount : m.joinTokenHashes.length < 2 ^ 32) :
    decodeArchiveCreate (encodeArchiveCreate m) = none ∧ ¬m.Valid ∨
      decodeArchiveCreate (encodeArchiveCreate m) = some m ∧ m.Valid := by
  by_cases hvalid : m.Valid
  · exact .inr ⟨decodeArchiveCreate_eq_some.2 ⟨hvalid, rfl⟩, hvalid⟩
  refine .inl ⟨?_, hvalid⟩
  cases hm : decodeArchiveCreate (encodeArchiveCreate m) with
  | none => rfl
  | some m' =>
    obtain ⟨hvalid', henc⟩ := decodeArchiveCreate_eq_some.1 hm
    simp only [encodeArchiveCreate, List.append_assoc] at henc
    obtain ⟨hid', henc⟩ := writeBlob_append_inj (by rw [hvalid'.1]; decide) hid henc
    obtain ⟨hlen, -⟩ := writeU32_append_inj henc
    have hlen' := congrArg UInt32.toNat hlen
    have hsmall' : m'.joinTokenHashes.length < 2 ^ 32 := hvalid'.2.2.trans_lt (by decide)
    rw [UInt32.toNat_ofNat', UInt32.toNat_ofNat', Nat.mod_eq_of_lt hsmall', Nat.mod_eq_of_lt hcount] at hlen'
    refine absurd ?_ hvalid
    rw [ArchiveCreate.Valid, ← hid', ← hlen']
    exact hvalid'

theorem handleCreate_spec {m : ArchiveCreate} (hid : m.archiveId.length < 2 ^ 32)
    (hcount : m.joinTokenHashes.length < 2 ^ 32) :
    (Admitted svc visit st m → (handleCreate svc visit m st).store = withArchive svc visit.now st m ∧
      (handleCreate svc visit m st).replies = [⟨.archiveCreateOk, []⟩]) ∧
    (¬Admitted svc visit st m → Refused st (handleCreate svc visit m st)) := by
  refine ⟨fun h => ?_, fun hnot => ?_⟩
  · obtain ⟨mailbox, hmailbox, hrate⟩ := h.signedIn
    unfold handleCreate handleArchiveCreate RelayStore.createArchive
    rw [hmailbox, decodeArchiveCreate_eq_some.2 ⟨h.valid, rfl⟩]
    simp only [hrate, Bool.not_true, Bool.false_eq_true, if_false, h.fresh, Option.isSome_none,
      not_le.2 h.room]
    exact ⟨rfl, trivial⟩
  · unfold handleCreate handleArchiveCreate
    cases hmailbox : visit.session.mailbox with
    | none => exact refused_refuse _ _ _
    | some mailbox =>
      rcases decode_encode_create hid hcount with ⟨hdecode, hvalid⟩ | ⟨hdecode, hvalid⟩ <;> rw [hdecode] <;>
        dsimp only
      · exact refused_close _ _
      cases hrate : (visit.rate.allow (ascii "archive-create:" ++ bytesToHex mailbox) 10 visit.now).1 with
      | false => exact refused_refuse _ _ _
      | true =>
        simp only [Bool.not_true, Bool.false_eq_true, if_false]
        unfold RelayStore.createArchive
        by_cases hexists : (st.findArchive m.archiveId).isSome
        · rw [if_pos hexists]
          exact refused_refuse _ _ _
        rw [if_neg hexists]
        by_cases hfull : st.archives.length ≥ svc.limits.maxArchives
        · rw [if_pos hfull]
          exact refused_refuse _ _ _
        · exact absurd ⟨⟨mailbox, hmailbox, hrate⟩, hvalid, Option.not_isSome_iff_eq_none.1 hexists,
            not_le.1 hfull⟩ hnot

theorem ended_createArchive (svc : Service) (visit : Visit) (st : RelayStore) (fate : Fate) {id : Bytes}
    {hashes : List Digest} (hid : id.length < 2 ^ 32) (hcount : hashes.length < 2 ^ 32) :
    Ended (Admitted svc visit st ⟨id, hashes⟩) fate st (withArchive svc visit.now st ⟨id, hashes⟩)
      (createArchive svc id hashes fate visit st) :=
  let hspec := handleCreate_spec (m := ⟨id, hashes⟩) hid hcount
  ended_exchange fate (by decide) hspec.1 hspec.2

/-! ## What a join does -/

/-- What the relay asks of a join whatever archive it is for. -/
structure Presentable (svc : Service) (visit : Visit) (m : ArchiveJoin) : Prop where
  valid : m.Valid
  rate : (visit.rate.allow (ascii "archive-join:" ++ visit.session.peerIp) 30 visit.now).1 = true
  size : m.publicKey.length = svc.sigPublicKeySize
  proof : svc.verify (archiveJoinSigningInput svc.relayId m.archiveId m.publicKey
    (svc.sha256 m.joinToken).1) m.signature m.publicKey = true

structure Open (svc : Service) (now : Time) (st : RelayStore) (m : ArchiveJoin) : Prop where
  archive : ∃ a, st.findArchive m.archiveId = some a ∧
    (st.keysOf m.archiveId).length < a.memberCount ∧ now < a.closesAt
  token : ⟨m.archiveId, svc.sha256 m.joinToken⟩ ∈ st.archiveJoinTokens
  fresh : (st.keysOf m.archiveId).any (·.keyHash = svc.sha256 m.publicKey) = false

/-- Fields that a 32-bit length can give. -/
def Sized (id joinToken publicKey : Bytes) : Prop :=
  id.length < 2 ^ 32 ∧ joinToken.length < 2 ^ 32 ∧ publicKey.length < 2 ^ 32

theorem decode_encode_join (hsized : Sized m.archiveId m.joinToken m.publicKey) :
    decodeArchiveJoin (encodeArchiveJoin m) = none ∧ ¬m.Valid ∨
      decodeArchiveJoin (encodeArchiveJoin m) = some m ∧ m.Valid := by
  by_cases hvalid : m.Valid
  · exact .inr ⟨decodeArchiveJoin_eq_some.2 ⟨hvalid, rfl⟩, hvalid⟩
  refine .inl ⟨?_, hvalid⟩
  cases hm : decodeArchiveJoin (encodeArchiveJoin m) with
  | none => rfl
  | some m' =>
    obtain ⟨hvalid', henc⟩ := decodeArchiveJoin_eq_some.1 hm
    simp only [encodeArchiveJoin, List.append_assoc] at henc
    have hsmall : ∀ n ≤ maxKeyBlob, n < 2 ^ 32 := fun n hn => hn.trans_lt (by decide)
    obtain ⟨hid, henc⟩ := writeBlob_append_inj (by rw [hvalid'.1]; decide) hsized.1 henc
    obtain ⟨htoken, henc⟩ := writeBlob_append_inj (by rw [hvalid'.2.1]; decide) hsized.2.1 henc
    obtain ⟨hkey, henc⟩ := writeBlob_append_inj (hsmall _ hvalid'.2.2.1) hsized.2.2 henc
    have hsignature : m'.signature = m.signature :=
      (List.append_inj henc (by simp only [writeU32, List.length_cons, List.length_nil])).2
    refine absurd ?_ hvalid
    rw [ArchiveJoin.Valid, ← hid, ← htoken, ← hkey, ← hsignature]
    exact hvalid'

/-- The store with the key of a join registered and its token spent. -/
def withKey (svc : Service) (now : Time) (st : RelayStore) (id joinToken publicKey : Bytes) : RelayStore :=
  { st with
    archiveKeys := st.archiveKeys ++ [⟨id, svc.sha256 publicKey, publicKey, now⟩]
    archiveJoinTokens := st.archiveJoinTokens.filter (· ≠ ⟨id, svc.sha256 joinToken⟩) }

theorem handleJoin_spec (hsized : Sized m.archiveId m.joinToken m.publicKey) :
    (Presentable svc visit m ∧ Open svc visit.now st m →
      (handleJoin svc visit m st).store =
        withKey svc visit.now st m.archiveId m.joinToken m.publicKey ∧
      (handleJoin svc visit m st).replies = [⟨.archiveJoinOk, []⟩]) ∧
    (¬(Presentable svc visit m ∧ Open svc visit.now st m) → Refused st (handleJoin svc visit m st)) := by
  refine ⟨fun ⟨hpresent, hopen⟩ => ?_, fun hnot => ?_⟩
  · obtain ⟨a, ha, hroom, htime⟩ := hopen.archive
    unfold handleJoin handleArchiveJoin RelayStore.joinArchive
    rw [decodeArchiveJoin_eq_some.2 ⟨hpresent.valid, rfl⟩]
    simp only [hpresent.rate, hpresent.size, hpresent.proof, ha, hopen.token, hopen.fresh, Bool.not_true,
      Bool.false_eq_true, ne_eq, not_true, if_false, not_le.2 hroom, not_le.2 htime, or_self]
    exact ⟨rfl, trivial⟩
  · unfold handleJoin handleArchiveJoin
    rcases decode_encode_join hsized with ⟨hdecode, hvalid⟩ | ⟨hdecode, hvalid⟩ <;> rw [hdecode] <;> dsimp only
    · exact refused_close _ _
    cases hrate : (visit.rate.allow (ascii "archive-join:" ++ visit.session.peerIp) 30 visit.now).1 with
    | false => exact refused_refuse _ _ _
    | true =>
      simp only [Bool.not_true, Bool.false_eq_true, if_false]
      by_cases hsize : m.publicKey.length = svc.sigPublicKeySize
      swap
      · rw [if_pos hsize]
        exact refused_refuse _ _ _
      rw [if_neg (not_not.2 hsize)]
      cases hproof : svc.verify (archiveJoinSigningInput svc.relayId m.archiveId m.publicKey
          (svc.sha256 m.joinToken).1) m.signature m.publicKey with
      | false => exact refused_refuse _ _ _
      | true =>
        simp only [Bool.not_true, Bool.false_eq_true, if_false]
        unfold RelayStore.joinArchive
        cases harchive : st.findArchive m.archiveId with
        | none => exact refused_refuse _ _ _
        | some a =>
          dsimp only
          by_cases htoken : ⟨m.archiveId, svc.sha256 m.joinToken⟩ ∈ st.archiveJoinTokens
          swap
          · rw [if_pos htoken]
            exact refused_refuse _ _ _
          rw [if_neg (not_not.2 htoken)]
          by_cases hclosed : (st.keysOf m.archiveId).length ≥ a.memberCount ∨ visit.now ≥ a.closesAt
          · rw [if_pos hclosed]
            exact refused_refuse _ _ _
          rw [if_neg hclosed]
          cases hfresh : (st.keysOf m.archiveId).any (·.keyHash = svc.sha256 m.publicKey) with
          | true => exact refused_refuse _ _ _
          | false =>
            obtain ⟨hroom, htime⟩ := not_or.1 hclosed
            exact absurd ⟨⟨hvalid, hrate, hsize, hproof⟩,
              ⟨a, harchive, not_le.1 hroom, not_le.1 htime⟩, htoken, hfresh⟩ hnot

def Taken (cfg : EngineSetup) (svc : Service) (visit : Visit) (st : RelayStore)
    (id joinToken publicKey privateKey : Bytes) : Prop :=
  ∃ m, joinRequest cfg svc id joinToken publicKey privateKey = .ok m ∧ Presentable svc visit m ∧
    Open svc visit.now st m

theorem joinRequest_ok {cfg : EngineSetup} {id joinToken publicKey privateKey : Bytes}
    (h : joinRequest cfg svc id joinToken publicKey privateKey = .ok m) :
    m.archiveId = id ∧ m.joinToken = joinToken ∧ m.publicKey = publicKey := by
  unfold joinRequest at h
  cases hsign : cfg.sign (archiveJoinSigningInput svc.relayId id publicKey (cfg.sha256 joinToken).1)
    privateKey with
  | error err =>
    rw [hsign] at h
    exact nomatch h
  | ok signature =>
    rw [hsign] at h
    obtain rfl := Except.ok.inj h
    exact ⟨rfl, rfl, rfl⟩

theorem ended_joinArchive (cfg : EngineSetup) (svc : Service) (visit : Visit) (st : RelayStore)
    {id joinToken publicKey : Bytes} (privateKey : Bytes) (fate : Fate)
    (hsized : Sized id joinToken publicKey) :
    Ended (Taken cfg svc visit st id joinToken publicKey privateKey) fate st
      (withKey svc visit.now st id joinToken publicKey)
      (joinArchive cfg svc id joinToken publicKey privateKey fate visit st) := by
  unfold joinArchive Taken
  cases hrequest : joinRequest cfg svc id joinToken publicKey privateKey with
  | error err => exact .nothing (fun ⟨⟨_, h, _⟩, _⟩ => nomatch h) ⟨_, rfl⟩
  | ok m =>
    obtain ⟨rfl, rfl, rfl⟩ := joinRequest_ok hrequest
    have hspec : (Presentable svc visit m ∧ Open svc visit.now st m → _) ∧ _ := handleJoin_spec hsized
    refine ended_exchange fate (by decide) (fun ⟨m', hm', htaken⟩ => ?_) fun hnot => ?_
    · obtain rfl := Except.ok.inj hm'
      exact hspec.1 htaken
    · exact hspec.2 fun htaken => hnot ⟨m, rfl, htaken⟩

end PqSuite.ArchiveRequest
