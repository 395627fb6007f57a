import PqSuite.Client.RelayClient
import PqSuite.Lib.Reach

/-!
# The message loop (`messaging_engine.cpp`, `MessagingEngine::pump`)

A round takes events out of the relay client and acts on them, acknowledges what was stored, and then
does the other upkeep over the same connection. What handling an envelope does to the rest of the
engine is a parameter. `pump_acts_on_every_event` says when a round acts on every event it takes.
-/

namespace PqSuite

open Relay

/-- `process_envelope`, which may throw, and the deletion of the prekey the envelope was sealed to. -/
structure EnvelopeHandler (σ : Type) where
  processEnvelope : σ → StoredEnvelope → σ × Except Bytes Bool
  eraseUsedPrekey : σ → σ

structure PumpOptions where
  reconnectMinSeconds : Time := 2
  reconnectMaxSeconds : Time := 60
  pingSeconds : Time := 60

/-- What one round reads from outside: the clocks, how a new connection begins, and the tokens that
`flush_outbox` has the relay accept. -/
structure PumpInput where
  isSetUp : Bool
  attemptAt : Time
  connectedAt : Time
  closedAt : Time
  pingAt : Time
  connect : Except Bytes (List Arrival × List Bool)
  mailboxId : Bytes
  authSignature : Bytes
  tokens : List Bytes

/-- The state of the engine that the loop uses, with a log of the present connection: the engine it was
opened with, the events taken out of the client, those acted on, and the envelopes that were processed
successfully. -/
structure PumpState (σ : Type) where
  owner : RelayClient
  engine : σ
  connected : Bool
  backoffSeconds : Time
  nextAttempt : Time
  lastPing : Time
  status : Bytes
  notices : List Bytes
  openedWith : σ
  taken : List ClientEvent
  acted : List ClientEvent
  stored : List Bytes

namespace PumpState

variable {σ : Type}

def setStatus (w : PumpState σ) (status : Bytes) : PumpState σ := { w with status := status }

def notify (w : PumpState σ) (line : Bytes) : PumpState σ :=
  { w with notices := (w.notices ++ [line]).drop (w.notices.length + 1 - 200) }

/-- `connect_authenticated` and `collect`, on a new connection. -/
def connectOwner (input : PumpInput) : Except Bytes RelayClient :=
  match input.connect with
  | .error e => .error e
  | .ok (arrivals, sends) =>
    match RelayClient.authenticate ⟨true, [], [], arrivals, sends, [], []⟩ input.mailboxId
        input.authSignature with
    | (.error e, _) => .error e
    | (.ok _, c) =>
      match c.collect with
      | (.error e, _) => .error e
      | (.ok _, c) => .ok c

def tryConnectOwner (opts : PumpOptions) (w : PumpState σ) (input : PumpInput) : PumpState σ :=
  match connectOwner input with
  | .ok c =>
    { w with owner := c, connected := true, backoffSeconds := 0, lastPing := input.connectedAt,
             status := ascii "Connected", openedWith := w.engine, taken := [], acted := [],
             stored := [] }
  | .error e =>
    let backoff := if w.backoffSeconds = 0 then opts.reconnectMinSeconds
      else min (w.backoffSeconds * 2) opts.reconnectMaxSeconds
    { w with owner := w.owner.close, backoffSeconds := backoff,
             nextAttempt := input.connectedAt + backoff,
             status := ascii "Can't reach the relay: " ++ e }

def takeEvent (w : PumpState σ) : ClientEvent × PumpState σ :=
  (w.owner.nextEvent.1,
    { w with owner := w.owner.nextEvent.2, taken := w.taken ++ [w.owner.nextEvent.1] })

/-- An envelope is processed. If that throws it is not acknowledged, so it is retried. -/
def actEnvelope (H : EnvelopeHandler σ) (w : PumpState σ) (env : StoredEnvelope) :
    List Bytes × PumpState σ :=
  let w : PumpState σ := { w with acted := w.acted ++ [.deliver (.envelope env)] }
  match H.processEnvelope w.engine env with
  | (engine, .ok true) =>
    ([env.id], { w with engine := H.eraseUsedPrekey engine, stored := w.stored ++ [env.id] })
  | (engine, .ok false) => ([], { w with engine := engine })
  | (engine, .error e) =>
    ([], { w with engine := engine }.notify (ascii "Could not process a message: " ++ e))

def actClosed (opts : PumpOptions) (w : PumpState σ) (closedAt : Time) (text : Bytes) :
    PumpState σ :=
  { w with status := ascii "Disconnected: " ++ text, connected := false,
           backoffSeconds := opts.reconnectMinSeconds,
           nextAttempt := closedAt + opts.reconnectMinSeconds,
           acted := w.acted ++ [.closed text] }

/-- The loop over the events of one round, with how many may still be handled. The next event is
fetched at the end of each turn, also of the last. -/
def handleEvents (opts : PumpOptions) (H : EnvelopeHandler σ) (closedAt : Time) :
    ℕ → ClientEvent → List Bytes → PumpState σ → List Bytes × PumpState σ
  | 0, _, toAck, w => (toAck, w)
  | n + 1, .deliver (.envelope env), toAck, w =>
    let (ids, w) := w.actEnvelope H env
    let (event, w) := w.takeEvent
    handleEvents opts H closedAt n event (toAck ++ ids) w
  | n + 1, .deliver .collectEnd, toAck, w =>
    let (event, w) := w.takeEvent
    handleEvents opts H closedAt n event toAck w
  | _ + 1, .timeout, toAck, w => (toAck, w)
  | _ + 1, .closed text, toAck, w => (toAck, w.actClosed opts closedAt text)

def eventsPerRound : ℕ := 32

def acknowledgeStored (w : PumpState σ) (toAck : List Bytes) : PumpState σ :=
  if toAck ≠ [] ∧ w.owner.connected = true then
    match w.owner.acknowledge toAck with
    | (.ok _, c) => { w with owner := c }
    | (.error e, c) => { w with owner := c }.setStatus (ascii "Disconnected: " ++ e)
  else w

def pingIfDue (opts : PumpOptions) (w : PumpState σ) (pingAt : Time) : PumpState σ :=
  if pingAt - w.lastPing > opts.pingSeconds then
    match w.owner.ping with
    | (.ok _, c) => { w with owner := c, lastPing := pingAt }
    | (.error e, c) =>
      { w with owner := c, lastPing := pingAt }.setStatus (ascii "Disconnected: " ++ e)
  else w

/-- The requests that the rest of the round makes on this connection. -/
def addTokens (w : PumpState σ) (tokens : List Bytes) : PumpState σ :=
  { w with owner := tokens.foldl (fun c token => (c.addToken token).2) w.owner }

def round (opts : PumpOptions) (H : EnvelopeHandler σ) (w : PumpState σ) (input : PumpInput) :
    PumpState σ :=
  let (event, w) := w.takeEvent
  let (toAck, w) := handleEvents opts H input.closedAt eventsPerRound event [] w
  let w := w.acknowledgeStored toAck
  if w.owner.connected = false then w
  else
    let w := w.pingIfDue opts input.pingAt
    if w.owner.connected then w.addTokens input.tokens else w

def reconnect (opts : PumpOptions) (w : PumpState σ) (input : PumpInput) : PumpState σ :=
  if w.owner.connected then w
  else
    let w : PumpState σ := { w with connected := false }
    if input.attemptAt ≥ w.nextAttempt then w.tryConnectOwner opts input else w

def pump (opts : PumpOptions) (H : EnvelopeHandler σ) (w : PumpState σ) (input : PumpInput) :
    PumpState σ :=
  if input.isSetUp = false then w.setStatus (ascii "Messaging is not set up")
  else
    let w := w.reconnect opts input
    if w.owner.connected = false then w else w.round opts H input

end PumpState

/-! ## What a round acts on -/

/-- An envelope is to be processed and the end of the connection to be noted; the others ask for
nothing. -/
def ClientEvent.needsAction : ClientEvent → Bool
  | .deliver (.envelope _) => true
  | .deliver .collectEnd => false
  | .timeout => false
  | .closed _ => true

/-- What an event does to the engine and the envelopes stored: only an envelope that is processed without
an exception, and is to be acknowledged, is stored. -/
def EnvelopeHandler.act {σ : Type} (H : EnvelopeHandler σ) : σ × List Bytes → ClientEvent → σ × List Bytes
  | (engine, stored), .deliver (.envelope env) =>
    match H.processEnvelope engine env with
    | (engine, .ok true) => (H.eraseUsedPrekey engine, stored ++ [env.id])
    | (engine, _) => (engine, stored)
  | r, _ => r

/-- At most as many events as a round handles are waiting, or the next one asks for nothing. -/
def RelayClient.FitsRound (c : RelayClient) : Prop :=
  ∀ e, c.waiting[PumpState.eventsPerRound]? = some e → e.needsAction = false

namespace PumpState

variable {σ : Type} {opts : PumpOptions} {H : EnvelopeHandler σ} {w w' : PumpState σ} {input : PumpInput}

def AllActed (w : PumpState σ) : Prop := w.taken.filter ClientEvent.needsAction = w.acted

def processedIds (w : PumpState σ) : List Bytes := w.acted.flatMap RelayClient.eventIds

/-- The engine is what processing the envelopes one after the other makes of the one the connection was
opened with, and those that processing answered `true` for are stored. -/
def Processed (H : EnvelopeHandler σ) (w : PumpState σ) : Prop :=
  w.acted.foldl H.act (w.openedWith, []) = (w.engine, w.stored)

def Acknowledged (w : PumpState σ) (id : Bytes) : Prop :=
  ∃ ids, id ∈ ids ∧ ⟨.relayAck, encodeIdList ids⟩ ∈ w.owner.sent

/-- What is to hold whenever `pump` returns: every event was acted on, the envelopes by processing them,
and on a connection that stands the envelopes that were stored are acknowledged and no envelope that came
is missing. -/
structure Sound (H : EnvelopeHandler σ) (w : PumpState σ) : Prop where
  allActed : w.AllActed
  processed : w.Processed H
  acknowledged : w.owner.connected = true → ∀ id ∈ w.stored, w.Acknowledged id
  received : w.owner.connected = true → ∀ m ∈ w.owner.arrived, m.type = .relayEnvelope →
    ∀ env, decodeStoredEnvelope m.payload = some env →
      env.id ∈ w.processedIds ∨ env.id ∈ RelayClient.queuedIds w.owner.queue

/-- A part of a round that may take events but forgets nothing of the connection. -/
structure Goes (w w' : PumpState σ) : Prop where
  connected : w'.owner.connected = true → w.owner.connected = true
  sent : w.owner.sent ⊆ w'.owner.sent
  tallies : ∀ pushed, w'.owner.connected = true → w.owner.Tallies pushed (w.taken.flatMap RelayClient.given) →
    w'.owner.Tallies pushed (w'.taken.flatMap RelayClient.given)

theorem Goes.refl (w : PumpState σ) : Goes w w := ⟨id, List.Subset.refl _, fun _ _ h => h⟩

theorem Goes.trans {w₁ w₂ w₃ : PumpState σ} (h₁ : Goes w₁ w₂) (h₂ : Goes w₂ w₃) : Goes w₁ w₃ where
  connected h := h₁.connected (h₂.connected h)
  sent := List.Subset.trans h₁.sent h₂.sent
  tallies pushed h ht := h₂.tallies pushed h (h₁.tallies pushed (h₂.connected h) ht)

/-- The calls of a part of the round give out the events it takes. -/
theorem Goes.of_later (es : List ClientEvent)
    (h : RelayClient.Later w.owner (es.flatMap RelayClient.given) w'.owner) (htaken : w'.taken = w.taken ++ es) :
    Goes w w' where
  connected := h.connected
  sent := h.sent
  tallies pushed hc ht := by
    rw [htaken, List.flatMap_append]
    exact h.tallies _ _ hc ht

theorem goes_takeEvent (w : PumpState σ) : Goes w w.takeEvent.2 := by
  have h := RelayClient.later_nextEvent w.owner
  rw [← List.flatMap_singleton RelayClient.given] at h
  exact .of_later _ h rfl

theorem actEnvelope_spec (w : PumpState σ) (env : StoredEnvelope) :
    (w.actEnvelope H env).2.owner = w.owner ∧ (w.actEnvelope H env).2.taken = w.taken ∧
      (w.actEnvelope H env).2.acted = w.acted ++ [.deliver (.envelope env)] ∧
      (w.actEnvelope H env).2.stored = w.stored ++ (w.actEnvelope H env).1 ∧
      (w.actEnvelope H env).1.length ≤ 1 := by
  unfold actEnvelope
  dsimp only
  split <;> simp [notify]

theorem Processed.actEnvelope (h : w.Processed H) (env : StoredEnvelope) :
    (w.actEnvelope H env).2.Processed H := by
  unfold Processed at h ⊢
  unfold PumpState.actEnvelope
  dsimp only
  split <;> rename_i heq <;> simp [notify, h, EnvelopeHandler.act, heq]

def ahead (e : ClientEvent) (w : PumpState σ) : List ClientEvent :=
  e :: if e.goesOn then w.owner.waiting else []

theorem ahead_takeEvent (w : PumpState σ) : ahead w.takeEvent.1 w.takeEvent.2 = w.owner.waiting :=
  (RelayClient.waiting_nextEvent w.owner).symm

/-- What the loop has done when it started with `e` in hand and could handle `n` events: it handled
`n` of those ahead and took one for each. -/
structure Handled (H : EnvelopeHandler σ) (n : ℕ) (e : ClientEvent) (toAck : List Bytes) (w : PumpState σ)
    (r : List Bytes × PumpState σ) : Prop where
  goes : Goes w r.2
  taken : r.2.taken = w.taken ++ (ahead e w).tail.take n
  acted : r.2.acted = w.acted ++ ((ahead e w).take n).filter ClientEvent.needsAction
  stored : ∃ new, r.1 = toAck ++ new ∧ r.2.stored = w.stored ++ new ∧ new.length ≤ n
  processed : w.Processed H → r.2.Processed H

/-- One turn of the loop: the event in hand is acted on (`w₁`) and the next one taken. -/
theorem Handled.turn {n : ℕ} {d : Delivery} {toAck ids : List Bytes} {w₁ : PumpState σ}
    {r : List Bytes × PumpState σ} (howner : w₁.owner = w.owner) (htaken : w₁.taken = w.taken)
    (hacted : w₁.acted = w.acted ++ [ClientEvent.deliver d].filter ClientEvent.needsAction)
    (hstored : w₁.stored = w.stored ++ ids) (hids : ids.length ≤ 1)
    (hprocessed : w.Processed H → w₁.Processed H)
    (h : Handled H n w₁.takeEvent.1 (toAck ++ ids) w₁.takeEvent.2 r) :
    Handled H (n + 1) (.deliver d) toAck w r := by
  have hahead : ahead (.deliver d) w = .deliver d :: ahead w₁.takeEvent.1 w₁.takeEvent.2 := by
    rw [ahead_takeEvent, howner]
    rfl
  have hcons : ahead w₁.takeEvent.1 w₁.takeEvent.2 =
      w₁.takeEvent.1 :: (ahead w₁.takeEvent.1 w₁.takeEvent.2).tail := rfl
  have hsame : Goes w w₁ := .of_later [] (howner ▸ .refl _) (by simp [htaken])
  obtain ⟨new, hr, hnew, hlen⟩ := h.stored
  refine ⟨(hsame.trans (goes_takeEvent w₁)).trans h.goes, ?_, ?_, ⟨ids ++ new, ?_, ?_, ?_⟩,
    fun hw => h.processed (hprocessed hw)⟩
  · rw [h.taken, hahead, List.tail_cons, hcons, List.take_succ_cons, List.tail_cons]
    simp [takeEvent, htaken]
  · rw [h.acted, hahead, List.take_succ_cons, ← List.singleton_append, List.filter_append,
      ← List.append_assoc]
    simp [takeEvent, hacted]
  · rw [hr, List.append_assoc]
  · rw [hnew, ← List.append_assoc, ← hstored]
    rfl
  · rw [List.length_append]
    omega

theorem handled_handleEvents (opts : PumpOptions) (H : EnvelopeHandler σ) (closedAt : Time)
    (n : ℕ) (e : ClientEvent) (toAck : List Bytes) (w : PumpState σ) :
    Handled H n e toAck w (handleEvents opts H closedAt n e toAck w) := by
  induction n generalizing e toAck w with
  | zero =>
    exact ⟨.refl w, by simp [handleEvents], by simp [handleEvents], ⟨[], by simp [handleEvents]⟩, id⟩
  | succ n ih =>
    match e with
    | .deliver (.envelope env) =>
      obtain ⟨howner, htaken, hacted, hstored, hids⟩ := w.actEnvelope_spec (H := H) env
      exact .turn howner htaken hacted hstored hids (·.actEnvelope env) (ih _ _ _)
    | .deliver .collectEnd =>
      refine .turn rfl rfl (by simp [ClientEvent.needsAction]) (List.append_nil _).symm (by simp) id ?_
      rw [List.append_nil]
      exact ih _ _ _
    | .timeout =>
      exact ⟨.refl w, by simp [handleEvents, ahead, ClientEvent.goesOn],
        by simp [handleEvents, ahead, ClientEvent.goesOn, ClientEvent.needsAction],
        ⟨[], by simp [handleEvents]⟩, id⟩
    | .closed text =>
      exact ⟨.of_later [] (.refl _) (by simp [handleEvents, actClosed]),
        by simp [handleEvents, ahead, ClientEvent.goesOn, actClosed],
        by simp only [handleEvents, ahead, ClientEvent.goesOn, actClosed, Bool.false_eq_true,
            if_false, List.take_succ_cons, List.take_nil]; rfl,
        ⟨[], by simp [handleEvents, actClosed]⟩,
        fun h => by simpa [handleEvents, actClosed, Processed, EnvelopeHandler.act] using h⟩

/-! ## A whole round -/

/-- A part of the round after the events: it makes requests and leaves the logs alone. -/
structure Upkeep (w w' : PumpState σ) : Prop where
  later : RelayClient.Later w.owner [] w'.owner
  taken : w'.taken = w.taken
  acted : w'.acted = w.acted
  stored : w'.stored = w.stored
  engine : w'.engine = w.engine ∧ w'.openedWith = w.openedWith

theorem Upkeep.refl (w : PumpState σ) : Upkeep w w := ⟨.refl _, rfl, rfl, rfl, rfl, rfl⟩

theorem Upkeep.goes (h : Upkeep w w') : Goes w w' := .of_later [] h.later (by simp [h.taken])

theorem Upkeep.processed (h : Upkeep w w') (hw : w.Processed H) : w'.Processed H := by
  unfold Processed
  rw [h.acted, h.stored, h.engine.1, h.engine.2]
  exact hw

/-- What was stored in this round is acknowledged, if the connection still stands. -/
theorem upkeep_acknowledgeStored (toAck : List Bytes) (hlen : toAck.length ≤ maxAckIds) :
    Upkeep w (w.acknowledgeStored toAck) ∧
      ((w.acknowledgeStored toAck).owner.connected = true →
        ∀ id ∈ toAck, (w.acknowledgeStored toAck).Acknowledged id) := by
  unfold acknowledgeStored
  split_ifs with hack
  · have hl := RelayClient.later_acknowledgeFrom (toAck.length + 1) toAck w.owner
    have hsent := RelayClient.sent_acknowledge (c := w.owner) hlen
    change RelayClient.Later w.owner [] (w.owner.acknowledge toAck).2 at hl
    split
    all_goals
      rename_i heq
      rw [heq] at hl hsent
      exact ⟨⟨hl, rfl, rfl, rfl, rfl, rfl⟩, fun hc id hid => ⟨toAck, hid, hsent hc⟩⟩
  · refine ⟨.refl w, fun hc id hid => absurd ⟨?_, hc⟩ hack⟩
    rintro rfl
    simp at hid

theorem upkeep_pingIfDue (w : PumpState σ) (pingAt : Time) : Upkeep w (w.pingIfDue opts pingAt) := by
  have hl := (RelayClient.later_request .relayPing .relayPong (by decide) w.owner []).1
  change RelayClient.Later w.owner [] w.owner.ping.2 at hl
  unfold pingIfDue
  split_ifs
  · split
    all_goals
      rename_i heq
      rw [heq] at hl
      exact ⟨hl, rfl, rfl, rfl, rfl, rfl⟩
  · exact .refl w

theorem upkeep_addTokens (w : PumpState σ) (tokens : List Bytes) : Upkeep w (w.addTokens tokens) := by
  refine ⟨?_, rfl, rfl, rfl, rfl, rfl⟩
  unfold addTokens
  induction tokens generalizing w with
  | nil => exact .refl _
  | cons token tokens ih =>
    have hl := (RelayClient.later_request .relayTokenAdd .relayTokenOk (by decide) w.owner
      (encodeHashOp token)).1
    exact hl.trans (ih { w with owner := (w.owner.addToken token).2 })

/-- What a round has done: it took one event more than it may handle, if there was one. -/
structure RoundDone (H : EnvelopeHandler σ) (w w' : PumpState σ) : Prop where
  goes : Goes w w'
  taken : w'.taken = w.taken ++ w.owner.waiting.take (eventsPerRound + 1)
  acted : w'.acted =
    w.acted ++ (w.owner.waiting.take eventsPerRound).filter ClientEvent.needsAction
  stored : ∃ new, w'.stored = w.stored ++ new ∧
    (w'.owner.connected = true → ∀ id ∈ new, w'.Acknowledged id)
  processed : w.Processed H → w'.Processed H

theorem RoundDone.upkeep {w₁ w₂ : PumpState σ} (h : RoundDone H w w₁) (hu : Upkeep w₁ w₂) :
    RoundDone H w w₂ := by
  obtain ⟨new, hnew, hack⟩ := h.stored
  refine ⟨h.goes.trans hu.goes, hu.taken.trans h.taken, hu.acted.trans h.acted,
    ⟨new, hu.stored.trans hnew, fun hc id hid => ?_⟩, hu.processed ∘ h.processed⟩
  obtain ⟨ids, hmem, hsent⟩ := hack (hu.later.connected hc) id hid
  exact ⟨ids, hmem, hu.later.sent hsent⟩

theorem roundDone_round (opts : PumpOptions) (H : EnvelopeHandler σ) (w : PumpState σ)
    (input : PumpInput) :
    RoundDone H w (w.round opts H input) := by
  have h := handled_handleEvents opts H input.closedAt eventsPerRound
    w.takeEvent.1 [] w.takeEvent.2
  unfold round
  dsimp only
  generalize handleEvents opts H input.closedAt eventsPerRound w.takeEvent.1 [] w.takeEvent.2 = r
    at h ⊢
  obtain ⟨new, hr, hstored, hlen⟩ := h.stored
  rw [List.nil_append] at hr
  obtain ⟨hup, hack⟩ := upkeep_acknowledgeStored (w := r.2) r.1
    (hr ▸ hlen.trans (by decide))
  have hdone : RoundDone H w (r.2.acknowledgeStored r.1) := by
    refine ⟨((goes_takeEvent w).trans h.goes).trans hup.goes, ?_, ?_,
      ⟨new, ?_, hr ▸ hack⟩, hup.processed ∘ h.processed⟩
    · rw [hup.taken, h.taken, ahead_takeEvent]
      have hw : w.owner.waiting = w.takeEvent.1 :: w.owner.waiting.tail := by
        rw [← ahead_takeEvent]
        rfl
      rw [hw, List.take_succ_cons, List.tail_cons]
      simp [takeEvent]
    · rw [hup.acted, h.acted, ahead_takeEvent]
      rfl
    · rw [hup.stored, hstored]
      rfl
  split_ifs
  · exact hdone
  · exact (hdone.upkeep (upkeep_pingIfDue _ _)).upkeep (upkeep_addTokens _ _)
  · exact hdone.upkeep (upkeep_pingIfDue _ _)

/-! ## Every run of rounds on one connection -/

def Opened (opts : PumpOptions) (w : PumpState σ) : Prop :=
  ∃ (w₀ : PumpState σ) (input : PumpInput), w = w₀.tryConnectOwner opts input ∧
    w.owner.connected = true

def Step (opts : PumpOptions) (H : EnvelopeHandler σ) (w : PumpState σ) (input : PumpInput)
    (w' : PumpState σ) : Prop :=
  w.owner.connected = true ∧ w' = w.pump opts H input

def Fits (w : PumpState σ) (input : PumpInput) : Prop :=
  input.isSetUp = true → w.owner.FitsRound

theorem eventIds_of_needsAction {e : ClientEvent} (h : e.needsAction = false) :
    RelayClient.eventIds e = [] := by
  match e with
  | .deliver .collectEnd => rfl
  | .timeout => rfl

theorem flatMap_eventIds_filter (es : List ClientEvent) :
    (es.filter ClientEvent.needsAction).flatMap RelayClient.eventIds =
      es.flatMap RelayClient.eventIds := by
  induction es with
  | nil => rfl
  | cons e es ih =>
    cases hn : e.needsAction with
    | true => simp [hn, ih]
    | false => simp [hn, ih, eventIds_of_needsAction hn]

theorem AllActed.processedIds_eq (h : w.AllActed) :
    w.processedIds = RelayClient.queuedIds (w.taken.flatMap RelayClient.given) := by
  rw [processedIds, ← h, flatMap_eventIds_filter, RelayClient.queuedIds_given]

/-- The first `n + 1` events ask for no more than the first `n` exactly if the next asks for nothing. -/
theorem filter_take_succ_eq_iff {α : Type} (p : α → Bool) (l : List α) (n : ℕ) :
    (l.take (n + 1)).filter p = (l.take n).filter p ↔ ∀ a, l[n]? = some a → p a = false := by
  rw [List.take_add_one, List.filter_append]
  cases hn : l[n]? with
  | none => simp
  | some a => cases hp : p a <;> simp [hp]

theorem RoundDone.allActed_iff (h : RoundDone H w w') (hw : w.AllActed) :
    w'.AllActed ↔ w.owner.FitsRound := by
  unfold AllActed at hw ⊢
  rw [h.taken, h.acted, List.filter_append, hw, List.append_cancel_left_eq,
    filter_take_succ_eq_iff]
  rfl

theorem pump_eq_round (hc : w.owner.connected = true) (hs : input.isSetUp = true) :
    w.pump opts H input = w.round opts H input := by
  simp [pump, reconnect, hc, hs]

/-- The round acts on every event it takes exactly if no more is waiting than it handles. -/
theorem allActed_pump_iff (opts : PumpOptions) (H : EnvelopeHandler σ) (hc : w.owner.connected = true)
    (hw : w.AllActed) : (w.pump opts H input).AllActed ↔ w.Fits input := by
  cases hs : input.isSetUp with
  | false =>
    have : w.pump opts H input = w.setStatus (ascii "Messaging is not set up") := by simp [pump, hs]
    rw [this]
    exact iff_of_true hw (fun h => absurd (hs.symm.trans h) Bool.false_ne_true)
  | true =>
    rw [pump_eq_round hc hs, (roundDone_round opts H w input).allActed_iff hw]
    simp [Fits, hs]

structure Inv (H : EnvelopeHandler σ) (w : PumpState σ) : Prop where
  sound : w.Sound H
  tallies : w.owner.connected = true →
    ∃ pushed, w.owner.Tallies pushed (w.taken.flatMap RelayClient.given)

theorem Inv.of_tallies (hall : w.AllActed) (hprocessed : w.Processed H)
    (hack : w.owner.connected = true → ∀ id ∈ w.stored, w.Acknowledged id)
    (htallies : w.owner.connected = true →
      ∃ pushed, w.owner.Tallies pushed (w.taken.flatMap RelayClient.given)) : Inv H w where
  sound := by
    refine ⟨hall, hprocessed, hack, fun hc m hm ht env henv => ?_⟩
    obtain ⟨pushed, h⟩ := htallies hc
    rw [hall.processedIds_eq]
    exact h.received hm ((if_pos ht).trans henv)
  tallies := htallies

theorem Opened.inv (h : Opened opts w) : Inv H w := by
  obtain ⟨w₀, input, rfl, hc⟩ := h
  unfold tryConnectOwner at hc ⊢
  cases hconn : connectOwner input with
  | error e => simp [hconn, RelayClient.close] at hc
  | ok c =>
    refine .of_tallies rfl rfl (by simp) fun hc => ?_
    unfold connectOwner at hconn
    split at hconn
    · simp at hconn
    rename_i arrivals sends _
    split at hconn
    · simp at hconn
    rename_i r c₁ hauth
    split at hconn
    · simp at hconn
    rename_i u c₂ hcollect
    obtain rfl := Except.ok.inj hconn
    have hl₁ := RelayClient.later_authenticate ⟨true, [], [], arrivals, sends, [], []⟩
      input.mailboxId input.authSignature
    have hl₂ := RelayClient.later_collect c₁
    rw [hauth] at hl₁
    rw [hcollect] at hl₂
    exact ⟨_, (hl₁.trans hl₂).tallies _ [] hc ⟨rfl, rfl⟩⟩

theorem Inv.setStatus (h : Inv H w) (status : Bytes) : Inv H (w.setStatus status) :=
  ⟨⟨h.sound.allActed, h.sound.processed, h.sound.acknowledged, h.sound.received⟩, h.tallies⟩

theorem Inv.pump (h : Inv H w) (hc : w.owner.connected = true) (hfits : w.Fits input) :
    Inv H (w.pump opts H input) := by
  have hall := (allActed_pump_iff opts H hc h.sound.allActed).2 hfits
  cases hs : input.isSetUp with
  | false =>
    have hidle : w.pump opts H input = w.setStatus (ascii "Messaging is not set up") := by
      simp [PumpState.pump, hs]
    rw [hidle]
    exact h.setStatus _
  | true =>
    rw [pump_eq_round hc hs] at hall ⊢
    have hdone := roundDone_round opts H w input
    refine .of_tallies hall (hdone.processed h.sound.processed) (fun hc' id hid => ?_)
      (fun hc' => (h.tallies hc).imp fun pushed ht => hdone.goes.tallies pushed hc' ht)
    obtain ⟨new, hstored, hack⟩ := hdone.stored
    rw [hstored] at hid
    rcases List.mem_append.1 hid with hid | hid
    · obtain ⟨ids, hmem, hsent⟩ := h.sound.acknowledged hc id hid
      exact ⟨ids, hmem, hdone.goes.sent hsent⟩
    · exact hack hc' id hid

/-- In every run of rounds before each of which no more is waiting than the round handles, each event taken
is acted on, each stored envelope is acknowledged and none that came is missing; and a round acts on every
event it takes exactly under that condition. -/
theorem pump_acts_on_every_event (opts : PumpOptions) (H : EnvelopeHandler σ) :
    (∀ w, Reach.Reachable (Opened opts) (Reach.Under Fits (Step opts H)) w → w.Sound H) ∧
      ∀ (w : PumpState σ) (input : PumpInput), w.owner.connected = true → w.AllActed →
        ((w.pump opts H input).AllActed ↔ w.Fits input) := by
  refine ⟨fun w hw => ?_, fun w input hc hall => allActed_pump_iff opts H hc hall⟩
  refine (hw.invariant (P := Inv H) (fun w h => h.inv) ?_).sound
  rintro w input w' hinv ⟨hfits, hc, rfl⟩
  exact hinv.pump hc hfits

/-! ## A backlog of 33 envelopes -/

def sampleEnvelope (n : ℕ) : StoredEnvelope :=
  ⟨List.replicate 15 0 ++ [UInt8.ofNat n], 0, byteSum [], [1]⟩

def storeAll : EnvelopeHandler Unit := ⟨fun _ _ => ((), .ok true), id⟩

/-- The relay signs the owner in, delivers `n` envelopes at once and answers an acknowledgement. -/
def sampleInput (n : ℕ) : PumpInput where
  isSetUp := true
  attemptAt := 0
  connectedAt := 0
  closedAt := 0
  pingAt := 0
  connect := .ok (.message ⟨.relayAuthOk, []⟩ :: ((List.range n).map fun i =>
    .message ⟨.relayEnvelope, encodeStoredEnvelope (sampleEnvelope i)⟩) ++
      [.quiet, .message ⟨.relayAckOk, []⟩], [])
  mailboxId := []
  authSignature := []
  tokens := []

def sampleOpened (n : ℕ) : PumpState Unit :=
  tryConnectOwner {} ⟨⟨false, [], [], [], [], [], []⟩, (), false, 0, 0, 0, [], [], (), [], [], []⟩
    (sampleInput n)

theorem sampleOpened_opened (n : ℕ) (h : (sampleOpened n).owner.connected = true) :
    Opened {} (sampleOpened n) := ⟨_, _, rfl, h⟩

/-- The owner opens a connection with 33 envelopes waiting and runs one round: the last envelope came,
is in no queue and was not processed. -/
theorem pump_loses_envelope :
    Reach.Reachable (Opened {}) (Step {} storeAll)
        ((sampleOpened 33).pump {} storeAll (sampleInput 0)) ∧
      ¬((sampleOpened 33).pump {} storeAll (sampleInput 0)).Sound storeAll := by
  have hc : (sampleOpened 33).owner.connected = true := by decide +kernel
  refine ⟨.next (.start (sampleOpened_opened 33 hc)) ⟨hc, rfl⟩, fun hsound => ?_⟩
  have hlost := hsound.received (by decide +kernel)
    ⟨.relayEnvelope, encodeStoredEnvelope (sampleEnvelope 32)⟩ (by decide +kernel) rfl
    (sampleEnvelope 32) (by decide +kernel)
  revert hlost
  decide +kernel

theorem pump_acts_on_every_event_sample :
    ((sampleOpened 2).pump {} storeAll (sampleInput 0)).Sound storeAll ∧
      (((sampleOpened 2).pump {} storeAll (sampleInput 0)).AllActed ↔
        (sampleOpened 2).Fits (sampleInput 0)) := by
  have hc : (sampleOpened 2).owner.connected = true := by decide +kernel
  have hall : (sampleOpened 2).AllActed := by
    unfold AllActed
    decide +kernel
  have hfits : (sampleOpened 2).Fits (sampleInput 0) := by
    intro _ e he
    have hnone : (sampleOpened 2).owner.waiting[eventsPerRound]? = none := by decide +kernel
    simp [hnone] at he
  exact ⟨(pump_acts_on_every_event {} storeAll).1 _
      (.next (.start (sampleOpened_opened 2 hc)) ⟨hfits, hc, rfl⟩),
    (pump_acts_on_every_event {} storeAll).2 _ _ hc hall⟩

end PumpState

end PqSuite
