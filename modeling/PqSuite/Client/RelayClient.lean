import Mathlib.Data.List.Induction
import PqSuite.Protocol.Mailbox
import PqSuite.Protocol.Messages

/-!
# One connection to a relay (`relay_client.cpp`)

The socket is what it will give: a list of arrivals, with the silences between them, and of how the
sends end. The client logs what it received and what it sent. `RelayClient.waiting` is the list of
events that the arrivals amount to, and `nextEvent` takes them in that order (`waiting_nextEvent`). What
is due to the caller is told by a ledger of what has arrived and what was acknowledged since; while the
connection stands, no call loses any of it (`Later`).
-/

namespace PqSuite

open Relay

inductive Arrival where
  | quiet
  | message (m : WireMessage)
  | lost

inductive Delivery where
  | envelope (e : StoredEnvelope)
  | collectEnd
  deriving DecidableEq

/-- `RelayClient::Event`. -/
inductive ClientEvent where
  | deliver (d : Delivery)
  | timeout
  | closed (text : Bytes)
  deriving DecidableEq

/-- What happens on a connection as far as deliveries go: a message arrives, or the relay confirms that
envelopes are acknowledged. -/
inductive Note where
  | came (m : WireMessage)
  | acknowledged (ids : List Bytes)

def came (ns : List Note) : List WireMessage :=
  ns.filterMap fun
    | .came m => some m
    | .acknowledged _ => none

structure RelayClient where
  connected : Bool
  queue : List Delivery
  seen : List Bytes
  arrivals : List Arrival
  /-- How the coming sends end; a send beyond the list succeeds. -/
  sends : List Bool
  noted : List Note
  sent : List WireMessage

/-- The text of an error the relay sent, made printable. -/
def clean (payload : Bytes) : Bytes :=
  let out := (payload.take 200).map fun b => if b ≥ 0x20 ∧ b ≠ 0x7F then b else 32
  if out = [] then ascii "unknown error" else out

def lostText : Bytes := ascii "Lost the connection to the relay"
def notConnectedText : Bytes := ascii "Not connected to a relay"
def unexpectedText : Bytes := ascii "The relay sent something unexpected"
def relayErrorText (payload : Bytes) : Bytes := ascii "Relay: " ++ clean payload

namespace RelayClient

def arrived (c : RelayClient) : List WireMessage := came c.noted

def close (c : RelayClient) : RelayClient := { c with connected := false, queue := [], seen := [] }

def sendRequest (c : RelayClient) (type : MessageType) (payload : Bytes) :
    Except Bytes Unit × RelayClient :=
  if c.connected = false then (.error notConnectedText, c)
  else match c.sends with
    | false :: sends => (.error lostText, { c with sends := sends }.close)
    | sends => (.ok (), { c with sends := sends.tail, sent := c.sent ++ [⟨type, payload⟩] })

/-- A malformed envelope is ignored, and one that was delivered already is not delivered again. -/
def queueEnvelope (c : RelayClient) (payload : Bytes) : RelayClient :=
  match decodeStoredEnvelope payload with
  | none => c
  | some env =>
    if env.id ∈ c.seen then c
    else { c with seen := env.id :: c.seen, queue := c.queue ++ [.envelope env] }

def receive (c : RelayClient) (m : WireMessage) (rest : List Arrival) : RelayClient :=
  { c with arrivals := rest, noted := c.noted ++ [.came m] }

/-- Waits for one of two replies and queues what comes before it. The wait goes on over a silence; one that
is too long for the socket is a lost connection. -/
def readReplyEither (first second : MessageType) :
    List Arrival → RelayClient → Except Bytes WireMessage × RelayClient
  | [], c => (.error lostText, { c with arrivals := [] }.close)
  | .quiet :: rest, c => readReplyEither first second rest c
  | .lost :: rest, c => (.error lostText, { c with arrivals := rest }.close)
  | .message m :: rest, c =>
    if m.type = first ∨ m.type = second then (.ok m, c.receive m rest)
    else match m.type with
      | .errorMsg => (.error (relayErrorText m.payload), c.receive m rest)
      | .relayEnvelope => readReplyEither first second rest ((c.receive m rest).queueEnvelope m.payload)
      | .relayCollectEnd =>
        readReplyEither first second rest { c.receive m rest with queue := c.queue ++ [.collectEnd] }
      | .relayPong => readReplyEither first second rest (c.receive m rest)
      | _ => (.error unexpectedText, (c.receive m rest).close)

def readReply (expected : MessageType) (arrivals : List Arrival) (c : RelayClient) :
    Except Bytes Bytes × RelayClient :=
  let (r, c) := readReplyEither expected expected arrivals c
  (r.map WireMessage.payload, c)

def request (c : RelayClient) (type : MessageType) (payload : Bytes) (expected : MessageType) :
    Except Bytes Bytes × RelayClient :=
  match c.sendRequest type payload with
  | (.error e, c) => (.error e, c)
  | (.ok _, c) => readReply expected c.arrivals c

def pop (c : RelayClient) : ClientEvent × RelayClient :=
  match c.queue with
  | [] => (.timeout, c)
  | d :: queue => (.deliver d, { c with queue := queue })

def nextEvent (c : RelayClient) : ClientEvent × RelayClient :=
  match c.queue with
  | d :: queue => (.deliver d, { c with queue := queue })
  | [] =>
    if c.connected = false then (.closed notConnectedText, c)
    else match c.arrivals with
      | [] => (.timeout, c)
      | .quiet :: rest => (.timeout, { c with arrivals := rest })
      | .lost :: rest => (.closed lostText, { c with arrivals := rest }.close)
      | .message m :: rest =>
        match m.type with
        | .relayEnvelope => ((c.receive m rest).queueEnvelope m.payload).pop
        | .relayCollectEnd => (.deliver .collectEnd, c.receive m rest)
        | .relayPong => (c.receive m rest).pop
        | .errorMsg => (.closed (relayErrorText m.payload), (c.receive m rest).close)
        | _ => (.closed unexpectedText, (c.receive m rest).close)

/-- The loop of `acknowledge`, a message's worth of IDs at a time. -/
def acknowledgeFrom : ℕ → List Bytes → RelayClient → Except Bytes Unit × RelayClient
  | 0, _, c => (.ok (), c)
  | n + 1, ids, c =>
    match c.request .relayAck (encodeIdList (ids.take maxAckIds)) .relayAckOk with
    | (.error e, c) => (.error e, c)
    | (.ok _, c) =>
      let c := { c with
        seen := c.seen.filter (· ∉ ids.take maxAckIds)
        noted := c.noted ++ [.acknowledged (ids.take maxAckIds)] }
      if ids.drop maxAckIds = [] then (.ok (), c)
      else acknowledgeFrom n (ids.drop maxAckIds) c

def acknowledge (c : RelayClient) (ids : List Bytes) : Except Bytes Unit × RelayClient :=
  acknowledgeFrom (ids.length + 1) ids c

def ping (c : RelayClient) : Except Bytes Bytes × RelayClient := c.request .relayPing [] .relayPong

def addToken (c : RelayClient) (tokenHash : Bytes) : Except Bytes Bytes × RelayClient :=
  c.request .relayTokenAdd (encodeHashOp tokenHash) .relayTokenOk

def collect (c : RelayClient) : Except Bytes Unit × RelayClient := c.sendRequest .relayCollect []

/-- The relay hangs up after a failed sign-in. -/
def authenticate (c : RelayClient) (mailboxId signature : Bytes) : Except Bytes Bytes × RelayClient :=
  match c.request .relayAuth (encodeAuth mailboxId signature) .relayAuthOk with
  | (.error e, c) => (.error e, c.close)
  | (.ok r, c) => (.ok r, c)

/-! ## The events that are waiting -/

/-- The events that arrivals amount to, up to the first that ends the round. -/
def awaited : List Bytes → List Arrival → List ClientEvent
  | _, [] => [.timeout]
  | _, .quiet :: _ => [.timeout]
  | _, .lost :: _ => [.closed lostText]
  | seen, .message m :: rest =>
    match m.type with
    | .relayEnvelope =>
      match decodeStoredEnvelope m.payload with
      | none => [.timeout]
      | some env =>
        if env.id ∈ seen then [.timeout]
        else .deliver (.envelope env) :: awaited (env.id :: seen) rest
    | .relayCollectEnd => .deliver .collectEnd :: awaited seen rest
    | .relayPong => [.timeout]
    | .errorMsg => [.closed (relayErrorText m.payload)]
    | _ => [.closed unexpectedText]

/-- What the client has for its caller: first the queue, then what arrives until it falls silent or the
connection ends. -/
def waiting (c : RelayClient) : List ClientEvent :=
  c.queue.map .deliver ++
    if c.connected then awaited c.seen c.arrivals else [.closed notConnectedText]

end RelayClient

/-- After a delivery the caller asks for the next event. -/
def ClientEvent.goesOn : ClientEvent → Bool
  | .deliver _ => true
  | _ => false

namespace RelayClient

variable {c c' : RelayClient} {ids : List Bytes}

/-- `nextEvent` takes the first event that is waiting and leaves the others. -/
theorem waiting_nextEvent (c : RelayClient) :
    c.waiting = c.nextEvent.1 :: if c.nextEvent.1.goesOn then c.nextEvent.2.waiting else [] := by
  obtain ⟨connected, queue, seen, arrivals, sends, noted, sent⟩ := c
  cases queue with
  | cons d queue => rfl
  | nil =>
    cases connected with
    | false => rfl
    | true =>
      match arrivals with
      | [] => rfl
      | .quiet :: rest => rfl
      | .lost :: rest => rfl
      | .message ⟨type, payload⟩ :: rest =>
        cases type with
        | relayEnvelope =>
          cases hdec : decodeStoredEnvelope payload with
          | none => simp [waiting, nextEvent, awaited, receive, pop, queueEnvelope, hdec,
              ClientEvent.goesOn]
          | some env =>
            by_cases hseen : env.id ∈ seen <;>
              simp [waiting, nextEvent, awaited, receive, pop, queueEnvelope, hdec, hseen,
                ClientEvent.goesOn]
        | _ => rfl

end RelayClient

/-! ## What is due -/

def WireMessage.envelope (m : WireMessage) : Option StoredEnvelope :=
  if m.type = .relayEnvelope then decodeStoredEnvelope m.payload else none

theorem came_append (ns ns' : List Note) : came (ns ++ ns') = came ns ++ came ns' :=
  List.filterMap_append ..

def RelayClient.queuedIds (queue : List Delivery) : List Bytes :=
  queue.filterMap fun | .envelope e => some e.id | .collectEnd => none

/-- The IDs that await their acknowledgement, newest first, and all that is due, oldest first. -/
structure Ledger where
  awaiting : List Bytes := []
  due : List Delivery := []

namespace Ledger

def note (l : Ledger) : Note → Ledger
  | .came m =>
    match m.envelope with
    | some env =>
      if env.id ∈ l.awaiting then l
      else { awaiting := env.id :: l.awaiting, due := l.due ++ [.envelope env] }
    | none => if m.type = .relayCollectEnd then { l with due := l.due ++ [.collectEnd] } else l
  | .acknowledged ids => { l with awaiting := l.awaiting.filter (· ∉ ids) }

def notes (l : Ledger) (ns : List Note) : Ledger := ns.foldl note l

theorem notes_append (l : Ledger) (ns ns' : List Note) : l.notes (ns ++ ns') = (l.notes ns).notes ns' :=
  List.foldl_append

theorem mem_awaiting_note {l : Ledger} {n : Note} {id : Bytes} :
    id ∈ (l.note n).awaiting ↔ (∃ m env, n = .came m ∧ m.envelope = some env ∧ env.id = id) ∨
      id ∈ l.awaiting ∧ ∀ ids, n = .acknowledged ids → id ∉ ids := by
  cases n with
  | acknowledged ids => simp [note]
  | came m =>
    cases henv : m.envelope with
    | none => by_cases ht : m.type = .relayCollectEnd <;> simp [note, henv, ht]
    | some env =>
      by_cases hawaits : env.id ∈ l.awaiting
      · simp only [note, henv, hawaits, if_true]
        grind
      · simp only [note, henv, hawaits, if_false, List.mem_cons]
        grind

/-- Nothing that is due is ever taken back. -/
theorem due_prefix (l : Ledger) (ns : List Note) : l.due <+: (l.notes ns).due := by
  induction ns generalizing l with
  | nil => exact List.prefix_rfl
  | cons n ns ih =>
    refine List.IsPrefix.trans ?_ (ih (l.note n))
    unfold note
    split
    · split
      · split_ifs
        · exact List.prefix_rfl
        · exact List.prefix_append _ _
      · split_ifs
        · exact List.prefix_append _ _
        · exact List.prefix_rfl
    · exact List.prefix_rfl

/-- Every envelope that came is due, and so are those that await their acknowledgement. -/
theorem received (ns : List Note) :
    (∀ id ∈ (({} : Ledger).notes ns).awaiting, id ∈ RelayClient.queuedIds (({} : Ledger).notes ns).due) ∧
      ∀ m env, .came m ∈ ns → m.envelope = some env →
        env.id ∈ RelayClient.queuedIds (({} : Ledger).notes ns).due := by
  induction ns using List.reverseRecOn with
  | nil => simp [notes]
  | append_singleton ns n ih =>
    rw [notes_append]
    generalize ({} : Ledger).notes ns = l at ih ⊢
    obtain ⟨hawaiting, hcame⟩ := ih
    have hkeeps : ∀ id ∈ RelayClient.queuedIds l.due, id ∈ RelayClient.queuedIds (l.notes [n]).due :=
      ((l.due_prefix [n]).filterMap _).subset
    have hnew : ∀ m env, n = .came m → m.envelope = some env →
        env.id ∈ RelayClient.queuedIds (l.notes [n]).due := by
      rintro m env rfl henv
      by_cases hawaits : env.id ∈ l.awaiting
      · exact hkeeps _ (hawaiting _ hawaits)
      · simp [notes, note, henv, hawaits, RelayClient.queuedIds]
    refine ⟨fun id hid => ?_, fun m env hm henv => ?_⟩
    · rcases mem_awaiting_note.1 hid with ⟨m, env, hn, henv, rfl⟩ | ⟨hold, -⟩
      · exact hnew m env hn henv
      · exact hkeeps id (hawaiting id hold)
    · rcases List.mem_append.1 hm with hm | hm
      · exact hkeeps _ (hcame m env hm henv)
      · exact hnew m env (List.mem_singleton.1 hm).symm henv

end Ledger

namespace RelayClient

variable {c c' : RelayClient} {ids : List Bytes} {m : WireMessage} {rest : List Arrival}
  {pushed : List WireMessage} {taken out : List Delivery}

def messages (arrivals : List Arrival) : List WireMessage :=
  arrivals.filterMap fun
    | .message m => some m
    | _ => none

/-- What was given out and what is queued are what is due, and the messages were read in order. -/
structure Tallies (c : RelayClient) (pushed : List WireMessage) (taken : List Delivery) : Prop where
  due : ({} : Ledger).notes c.noted = ⟨c.seen, taken ++ c.queue⟩
  order : pushed = c.arrived ++ messages c.arrivals

theorem Tallies.received (h : c.Tallies pushed taken) (hm : m ∈ c.arrived) {env : StoredEnvelope}
    (henv : m.envelope = some env) : env.id ∈ queuedIds taken ∨ env.id ∈ queuedIds c.queue := by
  obtain ⟨n, hn, hm⟩ := List.mem_filterMap.1 hm
  cases n with
  | acknowledged ids => simp at hm
  | came m' =>
    obtain rfl := Option.some.inj hm
    have hdue := (Ledger.received c.noted).2 m' env hn henv
    rw [h.due, queuedIds, List.filterMap_append] at hdue
    exact List.mem_append.1 hdue

theorem Tallies.message (h : c.Tallies pushed taken) (harr : c.arrivals = .message m :: rest)
    (hnoted : c'.noted = c.noted ++ [.came m]) (harr' : c'.arrivals = rest)
    (hledger : Ledger.note ⟨c.seen, taken ++ c.queue⟩ (.came m) = ⟨c'.seen, taken ++ c'.queue⟩) :
    c'.Tallies pushed taken where
  due := by
    rw [hnoted, Ledger.notes_append, h.due]
    exact hledger
  order := by
    rw [h.order, harr, arrived, arrived, hnoted, harr', came_append, List.append_assoc]
    rfl

/-- What a call does to the client: it may end the connection, but while it stands nothing that was
received or sent is forgotten, and `out` was given to the caller. -/
structure Later (c : RelayClient) (out : List Delivery) (c' : RelayClient) : Prop where
  connected : c'.connected = true → c.connected = true
  sent : c.sent ⊆ c'.sent
  tallies : ∀ pushed taken, c'.connected = true → c.Tallies pushed taken → c'.Tallies pushed (taken ++ out)

namespace Later

theorem quiet (hconnected : c'.connected = true → c.connected = true) (hsent : c.sent ⊆ c'.sent)
    (h : ∀ pushed taken, c.Tallies pushed taken → c'.Tallies pushed taken) : Later c [] c' :=
  ⟨hconnected, hsent, fun pushed taken _ ht => (List.append_nil taken).symm ▸ h pushed taken ht⟩

theorem refl (c : RelayClient) : Later c [] c := .quiet id (List.Subset.refl _) fun _ _ h => h

theorem trans {c₁ c₂ c₃ : RelayClient} {out₁ out₂ : List Delivery} (h₁ : Later c₁ out₁ c₂)
    (h₂ : Later c₂ out₂ c₃) : Later c₁ (out₁ ++ out₂) c₃ where
  connected h := h₁.connected (h₂.connected h)
  sent := List.Subset.trans h₁.sent h₂.sent
  tallies pushed taken h ht := by
    rw [← List.append_assoc]
    exact h₂.tallies _ _ h (h₁.tallies _ _ (h₂.connected h) ht)

theorem close (h : c.sent ⊆ c'.sent) : Later c out c'.close where
  connected h := absurd h Bool.false_ne_true
  sent := h
  tallies _ _ h := absurd h Bool.false_ne_true

theorem closeIf (h : Later c [] c') (b : Bool) : Later c [] (if b then c'.close else c') := by
  cases b with
  | false => exact h
  | true => exact .close h.sent

end Later

theorem later_receive (harr : c.arrivals = .message m :: rest) (henv : m.type ≠ .relayEnvelope)
    (hend : m.type ≠ .relayCollectEnd) : Later c [] (c.receive m rest) := by
  refine .quiet id (List.Subset.refl _) fun _ _ h => h.message harr rfl rfl ?_
  simp [Ledger.note, WireMessage.envelope, henv, hend, receive]

theorem later_collectEnd (harr : c.arrivals = .message m :: rest) (hend : m.type = .relayCollectEnd) :
    Later c [] { c.receive m rest with queue := c.queue ++ [.collectEnd] } := by
  refine .quiet id (List.Subset.refl _) fun _ _ h => h.message harr rfl rfl ?_
  simp [Ledger.note, WireMessage.envelope, hend, receive]

theorem queueEnvelope_eq (payload : Bytes) : ∃ seen queue,
    c.queueEnvelope payload = { c with seen := seen, queue := queue } := by
  unfold queueEnvelope
  split
  · exact ⟨_, _, rfl⟩
  · split_ifs <;> exact ⟨_, _, rfl⟩

/-- An envelope that arrives is queued, unless it was seen before. -/
theorem later_envelope (harr : c.arrivals = .message m :: rest) (ht : m.type = .relayEnvelope) :
    Later c [] ((c.receive m rest).queueEnvelope m.payload) := by
  have henv : m.envelope = decodeStoredEnvelope m.payload := if_pos ht
  unfold queueEnvelope
  cases hdec : decodeStoredEnvelope m.payload with
  | none =>
    refine .quiet id (List.Subset.refl _) fun _ _ h => h.message harr rfl rfl ?_
    simp [Ledger.note, henv, hdec, ht, receive]
  | some env =>
    by_cases hseen : env.id ∈ c.seen
    · simp only [receive, hseen, if_true]
      refine .quiet id (List.Subset.refl _) fun _ _ h => h.message harr rfl rfl ?_
      simp [Ledger.note, henv, hdec, hseen]
    · simp only [receive, hseen, if_false]
      refine .quiet id (List.Subset.refl _) fun _ _ h => h.message harr rfl rfl ?_
      simp [Ledger.note, henv, hdec, hseen]

/-- While it waits for a reply, a call keeps what is pushed. -/
theorem later_readReplyEither {first second : MessageType}
    (hreply : ∀ t, t = first ∨ t = second → t ≠ .relayEnvelope ∧ t ≠ .relayCollectEnd)
    (arrivals : List Arrival) (c : RelayClient) :
    Later { c with arrivals := arrivals } [] (readReplyEither first second arrivals c).2 := by
  induction arrivals generalizing c with
  | nil => exact .close (List.Subset.refl _)
  | cons a rest ih =>
    cases a with
    | quiet =>
      have h := ih c
      exact ⟨h.connected, h.sent, fun pushed taken hc ht => h.tallies pushed taken hc ⟨ht.due, ht.order⟩⟩
    | lost => exact .close (List.Subset.refl _)
    | message m =>
      -- what comes before the reply is read first
      have hnext : ∀ c₁, Later { c with arrivals := .message m :: rest } [] c₁ → c₁.arrivals = rest →
          Later { c with arrivals := .message m :: rest } [] (readReplyEither first second rest c₁).2 := by
        rintro c₁ hl rfl
        exact hl.trans (ih c₁)
      have hreceive := @later_receive { c with arrivals := .message m :: rest } m rest rfl
      unfold readReplyEither
      split_ifs with ht
      · exact hreceive (hreply _ ht).1 (hreply _ ht).2
      · split <;> rename_i hm
        · exact hreceive (by simp [hm]) (by simp [hm])
        · obtain ⟨_, _, hqueue⟩ := (c.receive m rest).queueEnvelope_eq m.payload
          exact hnext _ (later_envelope rfl hm) (by rw [hqueue]; rfl)
        · exact hnext _ (later_collectEnd rfl hm) rfl
        · exact hnext _ (hreceive (by simp [hm]) (by simp [hm])) rfl
        · exact .close (List.Subset.refl _)

/-- A send that does not end the connection was made. -/
theorem sendRequest_cases (c : RelayClient) (type : MessageType) (payload : Bytes) :
    (∃ e, (c.sendRequest type payload).1 = .error e) ∧
        (c.sendRequest type payload).2.connected = false ∧ Later c [] (c.sendRequest type payload).2 ∨
      (c.sendRequest type payload).1 = .ok () ∧ Later c [] (c.sendRequest type payload).2 ∧
        ⟨type, payload⟩ ∈ (c.sendRequest type payload).2.sent := by
  unfold sendRequest
  split_ifs with hc
  · exact .inl ⟨⟨_, rfl⟩, hc, .refl c⟩
  · split
    · exact .inl ⟨⟨_, rfl⟩, rfl, .close (List.Subset.refl _)⟩
    · refine .inr ⟨rfl, .quiet id (List.subset_append_left _ _) ?_, by simp⟩
      exact fun _ _ h => ⟨h.due, h.order⟩

/-- A request keeps what was received, and was sent if the connection still stands after it. -/
theorem later_request (type expected : MessageType)
    (h : expected ≠ .relayEnvelope ∧ expected ≠ .relayCollectEnd) (c : RelayClient) (payload : Bytes) :
    Later c [] (c.request type payload expected).2 ∧
      ((c.request type payload expected).2.connected = true →
        ⟨type, payload⟩ ∈ (c.request type payload expected).2.sent) := by
  unfold request
  have hcases := c.sendRequest_cases type payload
  generalize c.sendRequest type payload = r at hcases
  obtain ⟨res, c'⟩ := r
  rcases hcases with ⟨⟨e, rfl⟩, hclosed, hl⟩ | ⟨rfl, hl, hsent⟩
  · exact ⟨hl, fun hc => absurd (hclosed.symm.trans hc) Bool.false_ne_true⟩
  · have hread := later_readReplyEither (fun t (ht : t = expected ∨ t = expected) => or_self_iff.1 ht ▸ h)
      c'.arrivals c'
    exact ⟨hl.trans hread, fun _ => hread.sent hsent⟩

theorem later_authenticate (c : RelayClient) (mailboxId signature : Bytes) :
    Later c [] (c.authenticate mailboxId signature).2 := by
  have hreq := (later_request .relayAuth .relayAuthOk (by decide) c (encodeAuth mailboxId signature)).1
  unfold authenticate
  split
  · rename_i heq
    rw [heq] at hreq
    exact .close hreq.sent
  · rename_i heq
    rwa [heq] at hreq

theorem later_collect (c : RelayClient) : Later c [] c.collect.2 := by
  rcases c.sendRequest_cases .relayCollect [] with ⟨-, -, hl⟩ | ⟨-, hl, -⟩ <;> exact hl

theorem later_forget (c : RelayClient) (ids : List Bytes) : Later c [] { c with
    seen := c.seen.filter (· ∉ ids), noted := c.noted ++ [.acknowledged ids] } := by
  refine .quiet id (List.Subset.refl _) fun _ _ h => ⟨?_, ?_⟩
  · rw [Ledger.notes_append, h.due]
    rfl
  · rw [h.order, arrived, arrived, came_append]
    exact congrArg (· ++ _) (List.append_nil _).symm

theorem later_acknowledgeFrom (n : ℕ) (ids : List Bytes) (c : RelayClient) :
    Later c [] (acknowledgeFrom n ids c).2 := by
  induction n generalizing ids c with
  | zero => exact .refl c
  | succ n ih =>
    unfold acknowledgeFrom
    have hreq := (later_request .relayAck .relayAckOk (by decide) c (encodeIdList (ids.take maxAckIds))).1
    split
    · rename_i heq
      rwa [heq] at hreq
    · rename_i heq
      rw [heq] at hreq
      dsimp only
      split_ifs
      · exact hreq.trans (later_forget _ _)
      · exact (hreq.trans (later_forget _ _)).trans (ih _ _)

/-- As many IDs as one message holds are acknowledged, if the connection still stands. -/
theorem sent_acknowledge (hlen : ids.length ≤ maxAckIds)
    (hc : (c.acknowledge ids).2.connected = true) :
    ⟨.relayAck, encodeIdList ids⟩ ∈ (c.acknowledge ids).2.sent := by
  have htake : ids.take maxAckIds = ids := List.take_of_length_le hlen
  have hdrop : ids.drop maxAckIds = [] := List.drop_eq_nil_iff.2 hlen
  have hreq := (later_request .relayAck .relayAckOk (by decide) c (encodeIdList ids)).2
  unfold acknowledge acknowledgeFrom at hc ⊢
  rw [htake] at hc ⊢
  generalize c.request .relayAck (encodeIdList ids) .relayAckOk = r at hc hreq ⊢
  obtain ⟨res, c'⟩ := r
  cases res with
  | error e => exact hreq hc
  | ok payload =>
    simp only [hdrop, if_true] at hc ⊢
    exact hreq hc

/-- What an event gives to the caller. -/
def given : ClientEvent → List Delivery
  | .deliver d => [d]
  | _ => []

def eventIds : ClientEvent → List Bytes
  | .deliver (.envelope e) => [e.id]
  | _ => []

theorem queuedIds_given (es : List ClientEvent) : queuedIds (es.flatMap given) = es.flatMap eventIds := by
  induction es with
  | nil => rfl
  | cons e es ih =>
    rw [List.flatMap_cons, List.flatMap_cons, queuedIds, List.filterMap_append, ← ih]
    rcases e with (_ | _) | _ | _ <;> rfl

theorem later_pop (c : RelayClient) : Later c (given c.pop.1) c.pop.2 := by
  unfold pop
  split
  · exact .refl c
  · rename_i d queue hq
    refine ⟨id, List.Subset.refl _, fun pushed taken _ h => ⟨?_, h.order⟩⟩
    rw [h.due, hq]
    simp [given]

theorem later_nextEvent (c : RelayClient) : Later c (given c.nextEvent.1) c.nextEvent.2 := by
  unfold nextEvent
  split
  · rename_i d queue hq
    have hpop := later_pop c
    simp only [pop, hq] at hpop
    exact hpop
  rename_i hq
  split_ifs
  · exact .refl c
  split
  · exact .refl c
  · rename_i harr
    exact .quiet id (List.Subset.refl _) fun _ _ h => ⟨h.due, by rw [h.order, harr]; rfl⟩
  · exact .close (List.Subset.refl _)
  · rename_i m rest harr
    split <;> rename_i hm
    · exact (later_envelope harr hm).trans (later_pop _)
    · -- the queue is empty, so the end of the backlog is next
      have hpop := (later_collectEnd harr hm).trans (later_pop _)
      have hself : ({ c.receive m rest with queue := [] } : RelayClient) = c.receive m rest := by
        rw [← hq]
        rfl
      simp only [pop, hq, List.nil_append, hself] at hpop
      exact hpop
    · exact (later_receive harr (by simp [hm]) (by simp [hm])).trans (later_pop _)
    · exact .close (List.Subset.refl _)
    · exact .close (List.Subset.refl _)

end RelayClient

end PqSuite
