import PqSuite.Client.Archive
import PqSuite.Server.Frames

/-!
# The relay with any number of sessions

Sessions send requests to one relay, in any interleaving, with sweeps and the operator's commands in
between. `StoreStep` says once what a request can do to the archives, and `handleMessage_steps` and
`resume_steps` that every request does one of these things; the invariants of the archives are proved
from its cases.
-/

namespace PqSuite.Relay

open Archive

variable {tokenHash : Digest} {archiveId : Bytes} {o : Outcome}

/-! ## The relay and its sessions -/

/-- Where the sweeper is in its work on the files folder: at rest, with names left to remove, or
removing names that are not of the files it knows. -/
inductive Sweeper where
  | idle
  | removing (names : List (FileEnding × Bytes))
  | orphans (known : List Bytes)

/-- The relay with its open sessions and its sweeper. `hashed`, `acks` and `deposits` are history: the
inputs hashed for entries, the appends acknowledged to the archives that still exist and the envelopes
that were stored. -/
structure World where
  store : RelayStore
  rate : RateLimiter
  sessions : ℕ → Option Session
  hashed : List Bytes
  acks : List Ack
  deposits : List EnvelopeRow := []
  sweeper : Sweeper := .idle

inductive Event where
  | connect (i : ℕ) (peerIp challenge : Bytes)
  | message (i : ℕ) (now : Time) (msg : WireMessage)
  | resume (i : ℕ) (now : Time)
  | disconnect (i : ℕ)
  | sweep (now : Time)
  /-- The random bytes the next request of a session will draw. -/
  | draw (i : ℕ) (random : Bytes)
  /-- A session that collects looks for news. -/
  | poll (i : ℕ)
  | sweepPrekeyTakes (now : Time)
  | sweepFiles (now : Time)
  | sweepNext
  | sweepOrphan (ending : FileEnding) (fileId : Bytes)
  | removeMailbox (mailboxId : Bytes)
  | createInvite (hash : Digest) (now : Time)
  /-- What the operating system lets the relay do with files changes. -/
  | disk (health : DiskHealth)
  /-- The relay stops and is started again. -/
  | restart

def Event.session : Event → Option ℕ
  | .connect i _ _ | .message i _ _ | .resume i _ | .disconnect i | .draw i _ | .poll i => some i
  | _ => none

/-- Work whose next step only sends: a connection that has gone is noticed there. -/
def Pending.sends : Pending → Bool
  | .push .. | .reply _ | .hangUp _ => true
  | _ => false

/-- Whether the session is in the middle of calls to the store or the files folder. -/
def Session.busy (ss : Session) : Bool := ss.pending.any fun work => !work.sends

namespace World

variable {w : World} {i : ℕ}

def setSession (w : World) (i : ℕ) (ss : Option Session) : World :=
  { w with sessions := Function.update w.sessions i ss }

def prune (w : World) : World :=
  { w with acks := w.acks.filter fun k => (w.store.findArchive k.archiveId).isSome }

/-- The session after an outcome; one that ends with an upload active still has to undo it. -/
def nextSession (ss : Option Session) (o : Outcome) : Option Session :=
  o.session <|> ss.bind Session.leave

def apply (w : World) (i : ℕ) (o : Outcome) : World :=
  prune
    { w with
      store := o.store
      rate := o.rate
      sessions := Function.update w.sessions i (nextSession (w.sessions i) o)
      hashed := w.hashed ++ o.hashed
      acks := w.acks ++ o.acked.toList
      deposits := w.deposits ++ o.deposited.toList }

def names (fileId : Bytes) : List (FileEnding × Bytes) := [(.bin, fileId), (.part, fileId)]

def sweepNext (w : World) : World :=
  match w.sweeper with
  | .idle => w
  | .removing [] => { w with sweeper := .orphans w.store.allFileIds }
  | .removing ((ending, fileId) :: rest) =>
    { w with
      store := { w.store with disk := w.store.disk.remove ending fileId }
      sweeper := .removing rest }
  | .orphans _ => { w with sweeper := .idle }

def step (svc : Service) (w : World) : Event → World
  | .connect i peerIp challenge =>
    match w.sessions i with
    | none => w.setSession i (some { peerIp := peerIp, challenge := challenge })
    | some _ => w
  | .message i now msg =>
    match w.sessions i with
    | none => w
    | some ss =>
      match ss.pending with
      | some _ => w
      | none => w.apply i (handleMessage svc now ss msg w.store w.rate)
  | .resume i now =>
    match w.sessions i with
    | none => w
    | some ss =>
      match ss.pending with
      | none => w
      | some work => w.apply i (resume svc now ss w.store w.rate work)
  | .disconnect i =>
    match w.sessions i with
    | none => w
    | some ss => if ss.busy then w else w.setSession i ss.leave
  | .sweep now => prune { w with store := w.store.sweep now, rate := w.rate.prune now }
  | .draw i random =>
    w.setSession i ((w.sessions i).map fun ss => { ss with random := random })
  | .poll i =>
    w.setSession i ((w.sessions i).map fun ss =>
      if ss.pending.isNone ∧ ss.collecting ∧ ss.mailbox.isSome then
        { ss with pending := some (.push false []) } else ss)
  | .sweepPrekeyTakes now => { w with store := w.store.sweepPrekeyTakes now }
  | .sweepFiles now =>
    match w.sweeper with
    | .idle =>
      let (gone, store) := w.store.sweepFiles now (now - svc.limits.abandonedUploadSeconds)
      { w with store := store, sweeper := .removing (gone.flatMap names) }
    | _ => w
  | .sweepNext => w.sweepNext
  | .sweepOrphan ending fileId =>
    match w.sweeper with
    | .orphans known =>
      if fileId ∈ known then w
      else { w with store := { w.store with disk := w.store.disk.remove ending fileId } }
    | _ => w
  | .removeMailbox mailboxId => { w with store := w.store.deleteMailbox mailboxId }
  | .createInvite hash now =>
    { w with store := w.store.addInvite hash (now + svc.limits.inviteLifetimeSeconds) }
  | .disk health => { w with store := { w.store with disk := { w.store.disk with health := health } } }
  | .restart => { w with rate := ⟨fun _ => {}⟩, sessions := fun _ => none, sweeper := .idle }

/-- A message is handled by a session that has nothing left to do, or nothing happens. -/
theorem message_rule {svc : Service} {now : Time} {msg : WireMessage} {P : World → Prop} (hw : P w)
    (hhandled : ∀ ss, w.sessions i = some ss → ss.pending = none →
      P (w.apply i (handleMessage svc now ss msg w.store w.rate))) :
    P (w.step svc (.message i now msg)) := by
  simp only [step]
  split
  · exact hw
  · rename_i ss hss
    split
    · exact hw
    · rename_i hp
      exact hhandled ss hss hp

/-- A session goes on with the work it has left, or nothing happens. -/
theorem resume_rule {svc : Service} {now : Time} {P : World → Prop} (hw : P w)
    (hresumed : ∀ ss work, w.sessions i = some ss → ss.pending = some work →
      P (w.apply i (resume svc now ss w.store w.rate work))) : P (w.step svc (.resume i now)) := by
  simp only [step]
  split
  · exact hw
  · rename_i ss hss
    split
    · exact hw
    · rename_i work hp
      exact hresumed ss work hss hp

def sent (svc : Service) (w : World) : Event → List WireMessage
  | .message i now msg =>
    match w.sessions i with
    | none => []
    | some ss =>
      match ss.pending with
      | some _ => []
      | none => (handleMessage svc now ss msg w.store w.rate).replies
  | .resume i now =>
    match w.sessions i with
    | none => []
    | some ss =>
      match ss.pending with
      | none => []
      | some work => (resume svc now ss w.store w.rate work).replies
  | _ => []

def Init (w : World) : Prop :=
  w.store.archives = [] ∧ w.store.archiveEntries = [] ∧ w.store.archiveKeys = [] ∧
    w.store.archiveJoinTokens = [] ∧ (∀ i, w.sessions i = none) ∧ w.hashed = [] ∧ w.acks = []

theorem sessions_setSession (w : World) (i : ℕ) (ss : Option Session) :
    (w.setSession i ss).sessions i = ss :=
  Function.update_self i _ w.sessions

theorem sessions_apply (w : World) (i : ℕ) (o : Outcome) :
    (w.apply i o).sessions i = nextSession (w.sessions i) o :=
  Function.update_self i _ w.sessions

theorem sessions_apply_of_ne (w : World) {j : ℕ} (h : j ≠ i) (o : Outcome) :
    (w.apply i o).sessions j = w.sessions j :=
  Function.update_of_ne h _ w.sessions

/-- An event leaves the sessions it is not about as they are, unless the relay is started again. -/
theorem sessions_step_of_ne (svc : Service) (w : World) {e : Event} {j : ℕ} (he : e ≠ .restart)
    (hj : e.session ≠ some j) : (w.step svc e).sessions j = w.sessions j := by
  have hupdate : ∀ {i : ℕ} (_ : some i ≠ some j) (ss : Option Session),
      Function.update w.sessions i ss j = w.sessions j := fun hij ss =>
    Function.update_of_ne (fun h => hij (congrArg some h.symm)) ss w.sessions
  cases e with
  | restart => exact absurd rfl he
  | connect | message | resume | disconnect =>
    simp only [step]
    repeat' split
    all_goals first | rfl | exact hupdate hj _
  | draw | poll => exact hupdate hj _
  | sweepNext => simp only [step, sweepNext]; split <;> rfl
  | sweepFiles => simp only [step]; split <;> rfl
  | sweepOrphan =>
    simp only [step]
    split
    · split <;> rfl
    · rfl
  | _ => rfl

theorem nextSession_of_some (old : Option Session) {o : Outcome} {ss : Session}
    (h : o.session = some ss) : nextSession old o = some ss := by
  rw [nextSession, h]
  rfl

/-- The next session is the one the outcome leaves, or undoes the upload of the one that ends. -/
theorem nextSession_cases {ss ss' : Session} {o : Outcome} (h : nextSession (some ss) o = some ss') :
    o.session = some ss' ∨ o.session = none ∧ ss.leave = some ss' := by
  unfold nextSession at h
  exact (Option.orElse_eq_some _ _ _).1 h

inductive SessionStep (svc : Service) (w : World) (i : ℕ) : Event → Session → Prop
  | same {e : Event} {ss : Session} (h : w.sessions i = some ss) : SessionStep svc w i e ss
  | connect (peerIp challenge : Bytes) :
      SessionStep svc w i (.connect i peerIp challenge) { peerIp := peerIp, challenge := challenge }
  | message {now : Time} {msg : WireMessage} {ss ss' : Session} (h : w.sessions i = some ss)
      (hp : ss.pending = none)
      (ho : nextSession (some ss) (handleMessage svc now ss msg w.store w.rate) = some ss') :
      SessionStep svc w i (.message i now msg) ss'
  | resume {now : Time} {work : Pending} {ss ss' : Session} (h : w.sessions i = some ss)
      (hp : ss.pending = some work)
      (ho : nextSession (some ss) (resume svc now ss w.store w.rate work) = some ss') :
      SessionStep svc w i (.resume i now) ss'
  | draw (random : Bytes) {ss : Session} (h : w.sessions i = some ss) :
      SessionStep svc w i (.draw i random) { ss with random := random }
  | poll {ss : Session} (h : w.sessions i = some ss)
      (hp : ss.pending.isNone ∧ ss.collecting ∧ ss.mailbox.isSome) :
      SessionStep svc w i (.poll i) { ss with pending := some (.push false []) }
  | leave {ss ss' : Session} (h : w.sessions i = some ss) (ho : ss.leave = some ss') :
      SessionStep svc w i (.disconnect i) ss'

theorem session_step {svc : Service} {e : Event} {ss' : Session}
    (h : (w.step svc e).sessions i = some ss') : SessionStep svc w i e ss' := by
  by_cases hrestart : e = .restart
  · subst hrestart
    exact nomatch h
  by_cases hi : e.session = some i
  · cases e with
    | connect j peerIp challenge =>
      obtain rfl := Option.some.inj hi
      simp only [step] at h
      split at h
      · rw [sessions_setSession] at h
        exact Option.some.inj h ▸ .connect peerIp challenge
      · exact .same h
    | message j now msg =>
      obtain rfl := Option.some.inj hi
      simp only [step] at h
      split at h
      · exact .same h
      · rename_i ss hss
        split at h
        · exact .same h
        · rename_i hp
          rw [sessions_apply, hss] at h
          exact .message hss hp h
    | resume j now =>
      obtain rfl := Option.some.inj hi
      simp only [step] at h
      split at h
      · exact .same h
      · rename_i ss hss
        split at h
        · exact .same h
        · rename_i work hp
          rw [sessions_apply, hss] at h
          exact .resume hss hp h
    | disconnect j =>
      obtain rfl := Option.some.inj hi
      simp only [step] at h
      split at h
      · exact .same h
      · rename_i ss hss
        split_ifs at h
        · exact .same h
        · rw [sessions_setSession] at h
          exact .leave hss h
    | draw j random =>
      obtain rfl := Option.some.inj hi
      rw [step, sessions_setSession] at h
      obtain ⟨ss, hss, rfl⟩ := Option.map_eq_some_iff.1 h
      exact .draw random hss
    | poll j =>
      obtain rfl := Option.some.inj hi
      rw [step, sessions_setSession] at h
      obtain ⟨ss, hss, rfl⟩ := Option.map_eq_some_iff.1 h
      split_ifs with hp
      · exact .poll hss hp
      · exact .same hss
    | _ => exact nomatch hi
  · rw [w.sessions_step_of_ne svc hrestart hi] at h
    exact .same h

end World

/-! ## What a request can do to the archives -/

def Ack.input (k : Ack) : Bytes :=
  archiveEntryHashInput k.archiveId (k.expected.number + 1) k.expected.hash k.ciphertext

/-- The effect of one store call on the archives and their entries, with the inputs hashed and the
append acknowledged. -/
inductive StoreStep (svc : Service) (st : RelayStore) :
    RelayStore → List Bytes → Option Ack → Prop
  | keep {st' : RelayStore} {hashed : List Bytes} (harch : st'.archives = st.archives)
      (hentries : st'.archiveEntries = st.archiveEntries) : StoreStep svc st st' hashed none
  | create {st' : RelayStore} {a : ArchiveRow} (hnew : st.findArchive a.id = none)
      (hnumber : a.headNumber = 0) (hhash : a.headHash = genesisHash svc.sha256 a.id)
      (hbytes : a.bytes = 0) (harch : st'.archives = st.archives ++ [a])
      (hentries : st'.archiveEntries = st.archiveEntries) : StoreStep svc st st' [] none
  | append {st' : RelayStore} {a : ArchiveRow} {k : Ack} {now : Time}
      (hfind : st.findArchive k.archiveId = some a)
      (hexpected : k.expected = ⟨a.headNumber, a.headHash⟩)
      (hmax : k.expected.number ≠ 18446744073709551615)
      (hne : k.ciphertext ≠ []) (hsize : k.ciphertext.length ≤ maxArchiveEntryBytes)
      (hhead : k.head = ⟨k.expected.number + 1, svc.sha256 k.input⟩)
      (hquota : a.bytes + k.ciphertext.length ≤ svc.limits.archiveQuotaBytes)
      (hentries : st'.archiveEntries = st.archiveEntries ++
        [⟨k.archiveId, k.head.number, k.head.hash, k.ciphertext, now, false⟩])
      (harch : st'.archives = st.archives.map fun r =>
        if r.id = k.archiveId then
          { r with
            headNumber := k.head.number, headHash := k.head.hash,
            bytes := a.bytes + k.ciphertext.length, lastActivity := now }
        else r) : StoreStep svc st st' [k.input] (some k)
  | delete (p : ArchiveRow → Bool) : StoreStep svc st (st.deleteArchives p) [] none
  | redact {st' : RelayStore} {archiveId : Bytes} {hashes : List Digest}
      (h : st.redactEntries archiveId hashes = (.ok, st')) : StoreStep svc st st' [] none

/-- What handling a message did to the archives is one of the effects of a store call, and an append
is acknowledged exactly when it is recorded. -/
structure Outcome.Steps (o : Outcome) (svc : Service) (st : RelayStore) : Prop where
  effect : StoreStep svc st o.store o.hashed o.acked
  answer : ∀ p, ⟨.archiveAppendOk, p⟩ ∈ o.replies ↔
    ∃ k, o.acked = some k ∧ p = encodeArchiveHead k.head

variable {svc : Service} {now : Time} {ss : Session} {payload : Bytes} {msg : WireMessage}
  {st st' : RelayStore} {rate : RateLimiter}

/-- An outcome that leaves the archives alone. -/
theorem steps_of_same (h : SameArchives st o.store) (hhashed : o.hashed = []) (hacked : o.acked = none)
    (hquiet : ∀ p, ⟨.archiveAppendOk, p⟩ ∉ o.replies) : o.Steps svc st := by
  refine ⟨?_, fun p => ⟨fun hp => absurd hp (hquiet p), ?_⟩⟩
  · rw [hhashed, hacked]
    exact .keep h.archives h.entries
  · rintro ⟨k, hk, -⟩
    rw [hacked] at hk
    exact nomatch hk

theorem MailRequest.steps (h : MailRequest ss st o) : o.Steps svc st := by
  refine steps_of_same h.mailOnly.archives ?_ ?_ ?_ <;> cases h
  all_goals first
    | rfl
    | assumption
    | simp [later, refuse, close, fail, answer]

theorem FileRequest.steps (h : FileRequest ss st o) : o.Steps svc st := by
  refine steps_of_same h.filesOnly.archives ?_ ?_ ?_ <;> cases h
  all_goals first
    | rfl
    | assumption
    | simp [later, refuse, close, answer]

theorem ArchiveRequest.steps (h : ArchiveRequest svc ss msg st o) : o.Steps svc st := by
  cases h with
  | refused => exact ⟨.keep rfl rfl, by simp [refuse]⟩
  | closed => exact ⟨.keep rfl rfl, by simp [close]⟩
  | failed => exact ⟨.keep rfl rfl, by simp⟩
  | created rate hmb ht hm h =>
    obtain ⟨hnew, -, rfl⟩ := (createArchive_spec h).done rfl
    exact ⟨.create hnew rfl rfl rfl rfl rfl, by simp [answer]⟩
  | joined rate h =>
    obtain ⟨-, rfl⟩ := (joinArchive_spec h).done rfl
    exact ⟨.keep rfl rfl, by simp [answer]⟩
  | stale => exact ⟨.keep rfl rfl, by simp⟩
  | @appended rate archiveId input keyHash m now head st' hss ht hm hmax hinput h =>
    obtain ⟨a, ha, hnum, hhash, hroom, hhead, rfl⟩ := (appendEntry_spec h).done ⟨_, rfl⟩
    obtain rfl := RelayStore.AppendResult.ok.inj hhead
    subst hinput
    exact ⟨.append (k := ⟨archiveId, ⟨m.expectedNumber, m.expectedHash⟩, m.ciphertext, _⟩) ha
      (by rw [hnum, hhash]) hmax m.ciphertext_ne_nil m.ciphertext_size rfl hroom rfl rfl,
      by simp [eq_comm]⟩
  | starts rate hss hwork hquiet => exact steps_of_same (.refl _) rfl rfl hquiet

theorem handleMessage_steps : (handleMessage svc now ss msg st rate).Steps svc st := by
  have h := handleMessage_request svc now ss msg st rate
  generalize handleMessage svc now ss msg st rate = o at h
  cases h with
  | mail h | file h | archive h => exact h.steps
  | collects => exact steps_of_same (.refl _) rfl rfl (by simp [later])
  | signsIn | signsInToArchive => exact steps_of_same (.refl _) rfl rfl (by simp [answer])

theorem resumePush_store (now : Time) (ss : Session) (st : RelayStore) (rate : RateLimiter)
    (collect : Bool) (batch : List EnvelopeRow) :
    (resumePush now ss st rate collect batch).store = st ∧
      (resumePush now ss st rate collect batch).hashed = [] ∧
      (resumePush now ss st rate collect batch).acked = none ∧
      (resumePush now ss st rate collect batch).deposited = none := by
  unfold resumePush
  split
  · exact ⟨rfl, rfl, rfl, rfl⟩
  · simp only
    split_ifs <;> exact ⟨rfl, rfl, rfl, rfl⟩
  · exact ⟨rfl, rfl, rfl, rfl⟩

theorem resume_effect {work : Pending} :
    StoreStep svc st (resume svc now ss st rate work).store (resume svc now ss st rate work).hashed
      (resume svc now ss st rate work).acked := by
  have h := resume_resumed svc now ss st rate work
  generalize resume svc now ss st rate work = o at h
  cases h with
  | mail h =>
    have hh : o.hashed = [] ∧ o.acked = none := by cases h <;> exact ⟨rfl, rfl⟩
    rw [hh.1, hh.2]
    exact .keep h.mailOnly.archives.archives h.mailOnly.archives.entries
  | file h =>
    have hh : o.hashed = [] ∧ o.acked = none := by cases h <;> exact ⟨rfl, rfl⟩
    rw [hh.1, hh.2]
    exact .keep h.filesOnly.archives.archives h.filesOnly.archives.entries
  | push collect batch =>
    obtain ⟨hst, hhashed, hacked, -⟩ := resumePush_store now { ss with pending := none } st
      rate collect batch
    rw [hst, hhashed, hacked]
    exact .keep rfl rfl
  | agreed => exact .keep rfl rfl
  | deleteArchive => exact .delete _
  | redactEntries h => exact .redact h

/-! ## Events that are not requests -/

/-- Events that no request and no sweep of the archives is part of. -/
def Event.quiet : Event → Bool
  | .message .. | .resume .. | .sweep _ => false
  | _ => true

theorem World.step_quiet {w : World} {e : Event} (he : e.quiet = true) :
    SameArchives w.store (w.step svc e).store ∧ (w.step svc e).hashed = w.hashed ∧
      (w.step svc e).acks = w.acks := by
  cases e with
  | message | resume | sweep => exact nomatch he
  | createInvite hash now =>
    refine ⟨?_, rfl, rfl⟩
    simp only [World.step, RelayStore.addInvite]
    split_ifs <;> exact ⟨rfl, rfl, rfl, rfl⟩
  | sweepNext =>
    simp only [World.step, World.sweepNext]
    split <;> exact ⟨⟨rfl, rfl, rfl, rfl⟩, rfl, rfl⟩
  | connect => simp only [World.step]; split <;> exact ⟨⟨rfl, rfl, rfl, rfl⟩, rfl, rfl⟩
  | disconnect =>
    simp only [World.step]
    split
    · exact ⟨.refl _, rfl, rfl⟩
    · split_ifs <;> exact ⟨⟨rfl, rfl, rfl, rfl⟩, rfl, rfl⟩
  | sweepFiles => simp only [World.step]; split <;> exact ⟨⟨rfl, rfl, rfl, rfl⟩, rfl, rfl⟩
  | sweepOrphan =>
    simp only [World.step]
    split
    · split_ifs
      · exact ⟨.refl _, rfl, rfl⟩
      · exact ⟨⟨rfl, rfl, rfl, rfl⟩, rfl, rfl⟩
    · exact ⟨.refl _, rfl, rfl⟩
  | _ => exact ⟨⟨rfl, rfl, rfl, rfl⟩, rfl, rfl⟩

end PqSuite.Relay
