import PqSuite.Server.ArchiveLog
import PqSuite.Server.Delivery

/-!
# Signing in

What one connection can do, whatever the relay's tables hold at each of its steps. A request that acts on
a mailbox does nothing before the connection has signed in to it with its own challenge, and then it
changes rows of that mailbox only. `Connection` is the history of one connection.
-/

namespace PqSuite.Relay

open Reach

variable {svc : Service} {now : Time} {ss ss' : Session} {msg : WireMessage}
  {payload challenge mb : Bytes} {st st' st₁ st₂ : RelayStore} {rate : RateLimiter} {w : World} {i : ℕ}
  {work : Pending} {o : Outcome}

/-! ## Connections -/

/-- What is left to do when a connection ends: its upload is undone. -/
def Pending.Undoes : Pending → Prop
  | .remove _ _ next | .dropFile _ next => next.Undoes
  | .hangUp _ => True
  | _ => False

/-- A request, the store it was handled on and what was answered at once. -/
structure Exchange where
  request : WireMessage
  store : RelayStore
  replies : List WireMessage

/-- What was asked on a connection so far, and its session if it has not ended. Each step may find any
store and any counts of the rate limiter. -/
inductive Connection (svc : Service) (challenge : Bytes) : List Exchange → Option Session → Prop
  | opened (peerIp : Bytes) :
      Connection svc challenge [] (some { peerIp := peerIp, challenge := challenge })
  | message {hist : List Exchange} {ss : Session} (h : Connection svc challenge hist (some ss))
      (hp : ss.pending = none) (now : Time) (msg : WireMessage) (st : RelayStore)
      (rate : RateLimiter) :
      Connection svc challenge
        (hist ++ [⟨msg, st, (handleMessage svc now ss msg st rate).replies⟩])
        (World.nextSession (some ss) (handleMessage svc now ss msg st rate))
  | resume {hist : List Exchange} {ss : Session} {work : Pending}
      (h : Connection svc challenge hist (some ss)) (hp : ss.pending = some work) (now : Time)
      (st : RelayStore) (rate : RateLimiter) :
      Connection svc challenge hist (World.nextSession (some ss) (resume svc now ss st rate work))
  | draw {hist : List Exchange} {ss : Session} (h : Connection svc challenge hist (some ss))
      (random : Bytes) : Connection svc challenge hist (some { ss with random := random })
  | poll {hist : List Exchange} {ss : Session} (h : Connection svc challenge hist (some ss))
      (hp : ss.pending.isNone ∧ ss.collecting ∧ ss.mailbox.isSome) :
      Connection svc challenge hist (some { ss with pending := some (.push false []) })
  | leave {hist : List Exchange} {ss : Session} (h : Connection svc challenge hist (some ss)) :
      Connection svc challenge hist ss.leave

variable {hist : List Exchange} {s : Option Session}

/-! ## What a step leaves of the sign-in -/

structure SameSignIn (ss ss' : Session) : Prop where
  challenge : ss'.challenge = ss.challenge
  used : ss'.challengeUsed = ss.challengeUsed
  mailbox : ss'.mailbox = ss.mailbox
  archive : ss'.archiveSession = ss.archiveSession
  key : ss'.key = ss.key

theorem SameSignIn.refl (ss : Session) : SameSignIn ss ss := ⟨rfl, rfl, rfl, rfl, rfl⟩

theorem SameSignIn.leave (h : ss.leave = some ss') : SameSignIn ss ss' := by
  unfold Session.leave at h
  obtain ⟨u, -, rfl⟩ := Option.map_eq_some_iff.1 h
  exact ⟨rfl, rfl, rfl, rfl, rfl⟩

theorem MailRequest.sameSignIn (h : MailRequest ss st o) (ho : o.session = some ss') :
    SameSignIn ss ss' := by
  cases h with
  | closed | failed => exact nomatch ho
  | _ => exact Option.some.inj ho ▸ ⟨rfl, rfl, rfl, rfl, rfl⟩

theorem FileRequest.sameSignIn (h : FileRequest ss st o) (ho : o.session = some ss') :
    SameSignIn ss ss' := by
  cases h with
  | closed => exact nomatch ho
  | _ => exact Option.some.inj ho ▸ ⟨rfl, rfl, rfl, rfl, rfl⟩

theorem ArchiveRequest.sameSignIn (h : ArchiveRequest svc ss msg st o) (ho : o.session = some ss') :
    SameSignIn ss ss' := by
  cases h with
  | closed | failed => exact nomatch ho
  | _ => exact Option.some.inj ho ▸ ⟨rfl, rfl, rfl, rfl, rfl⟩

theorem FileRest.sameSignIn (h : FileRest ss st work o) (ho : o.session = some ss') :
    SameSignIn ss ss' := by
  cases h <;> exact Option.some.inj ho ▸ ⟨rfl, rfl, rfl, rfl, rfl⟩

theorem resumePush_sameSignIn {collect : Bool} {batch : List EnvelopeRow}
    (ho : (resumePush now ss st rate collect batch).session = some ss') : SameSignIn ss ss' := by
  obtain ⟨_, _, _, heq, -⟩ := resumePush_session now ss st rate collect batch
  obtain rfl := Option.some.inj (heq.symm.trans ho)
  exact ⟨rfl, rfl, rfl, rfl, rfl⟩

theorem resume_sameSignIn (ho : (resume svc now ss st rate work).session = some ss') :
    SameSignIn ss ss' := by
  have h := resume_resumed svc now ss st rate work
  generalize resume svc now ss st rate work = o at h ho
  have hsame : SameSignIn { ss with pending := none } ss' := by
    cases h with
    | mail h => exact h.session_eq ho ▸ .refl _
    | file h => exact h.sameSignIn ho
    | push collect batch => exact resumePush_sameSignIn ho
    | agreed => exact Option.some.inj ho ▸ ⟨rfl, rfl, rfl, rfl, rfl⟩
    | deleteArchive | redactEntries => exact Option.some.inj ho ▸ .refl _
  exact ⟨hsame.challenge, hsame.used, hsame.mailbox, hsame.archive, hsame.key⟩

/-! ## Sign-ins -/

def isVerdict (r : WireMessage) : Bool :=
  r.type = .relayAuthOk ∨ r.type = .archiveAuthOk ∨ r = errorReply "Authentication failed"

/-- A sign-in of either kind that succeeded or failed. -/
def Exchange.signIn (x : Exchange) : Bool :=
  (x.request.type = .relayAuth ∨ x.request.type = .archiveAuth) && x.replies.any isVerdict

/-- The connection has presented a signature over its challenge that is valid under the access key that
was registered for the mailbox. -/
def SignedIn (svc : Service) (challenge : Bytes) (hist : List Exchange) (mb : Bytes) : Prop :=
  ∃ x ∈ hist, ∃ m key, x.request.type = .relayAuth ∧ decodeAuth x.request.payload = some m ∧
    m.mailboxId = mb ∧ x.store.accessKey mb = some key ∧
    svc.verify (authSigningInput challenge svc.relayId mb) m.signature key = true

theorem SignedIn.append (h : SignedIn svc challenge hist mb) (xs : List Exchange) :
    SignedIn svc challenge (hist ++ xs) mb := by
  obtain ⟨x, hx, h⟩ := h
  exact ⟨x, List.mem_append_left _ hx, h⟩

/-- A sign-in that was answered ends the connection or uses its challenge up. -/
theorem challengeUsed_of_signIn
    (h : Exchange.signIn ⟨msg, st, (handleMessage svc now ss msg st rate).replies⟩ = true) :
    ss.challengeUsed = false ∧
      ∀ ss', (handleMessage svc now ss msg st rate).session = some ss' → ss'.challengeUsed = true := by
  obtain ⟨ht, hreply⟩ := Bool.and_eq_true_iff.1 h
  let P : Outcome → Prop := fun o => o.replies.any isVerdict = true →
    ss.challengeUsed = false ∧ ∀ ss', o.session = some ss' → ss'.challengeUsed = true
  have hclosed : ∀ {text}, isVerdict (errorReply text) = false → P (close st rate text) := by
    intro text herror h
    rw [close, List.any_cons, List.any_nil, Bool.or_false] at h
    exact absurd (herror.symm.trans h) Bool.false_ne_true
  have hfailed : ∀ {text}, ss.challengeUsed = false → P (close st rate text) := fun hfresh _ =>
    ⟨hfresh, fun _ ho => by cases ho⟩
  have hsigned : ∀ {ss₁ r}, ss₁.challengeUsed = true → ss.challengeUsed = false → P (answer st rate ss₁ r) :=
    fun hused hfresh _ => ⟨hfresh, fun _ ho => Option.some.inj ho ▸ hused⟩
  rcases of_decide_eq_true ht with ht | ht <;> replace ht : msg.type = _ := ht <;>
    simp only [handleMessage, ht] at hreply ⊢
  · exact handleAuth_of (P := P) (hclosed (by decide)) (hclosed (by decide)) hfailed
      (fun _ _ _ hfresh _ _ => hsigned rfl hfresh) hreply
  · exact handleArchiveAuth_of (P := P) (hclosed (by decide)) (hclosed (by decide)) hfailed
      (fun _ _ _ hfresh _ _ => hsigned rfl hfresh) hreply

def Session.Leaving (ss : Session) : Prop := ∃ work, ss.pending = some work ∧ work.Undoes

theorem Session.leave_leaving (h : ss.leave = some ss') : ss'.Leaving := by
  unfold Session.leave at h
  obtain ⟨u, -, rfl⟩ := Option.map_eq_some_iff.1 h
  exact ⟨_, rfl, trivial⟩

theorem resume_leaving (hwork : work.Undoes) (ho : (resume svc now ss st rate work).session = some ss') :
    ss'.Leaving := by
  cases work with
  | remove _ _ next => exact Option.some.inj ho ▸ ⟨next, rfl, hwork⟩
  | dropFile _ next => exact Option.some.inj ho ▸ ⟨next, rfl, hwork⟩
  | hangUp => exact nomatch ho
  | _ => exact hwork.elim

/-- What a session stands for: a mailbox was signed in to with the connection's challenge, and as long as
the challenge is unused no sign-in was answered, unless the connection is ending. -/
structure Session.Knows (ss : Session) (svc : Service) (c : Bytes) (hist : List Exchange) :
    Prop where
  challenge : ss.challenge = c
  mailbox : ∀ mb, ss.mailbox = some mb → ss.challengeUsed = true ∧ mb ≠ [] ∧
    SignedIn svc c hist mb
  fresh : ss.challengeUsed = false → hist.countP Exchange.signIn = 0 ∨ ss.Leaving

theorem Session.Knows.of_same (h : ss.Knows svc challenge hist) (hsame : SameSignIn ss ss')
    (xs : List Exchange)
    (hfresh : ss.challengeUsed = false → (hist ++ xs).countP Exchange.signIn = 0 ∨ ss'.Leaving) :
    ss'.Knows svc challenge (hist ++ xs) := by
  refine ⟨hsame.challenge.trans h.challenge, fun mb hmb => ?_, fun hused => ?_⟩
  · obtain ⟨hu, hne, hs⟩ := h.mailbox mb (hsame.mailbox ▸ hmb)
    exact ⟨hsame.used.trans hu, hne, hs.append xs⟩
  · exact hfresh (hsame.used ▸ hused)

theorem Request.knows (h : Request svc ss msg st o) (hss : ss.Knows svc challenge hist) (x : Exchange)
    (hx : x.request = msg) (hst : x.store = st) (ho : o.session = some ss')
    (hfresh : ss.challengeUsed = false → ss'.challengeUsed = false →
      (hist ++ [x]).countP Exchange.signIn = 0 ∨ ss'.Leaving) :
    ss'.Knows svc challenge (hist ++ [x]) := by
  have hother : SameSignIn ss ss' → ss'.Knows svc challenge (hist ++ [x]) := fun hsame =>
    hss.of_same hsame [x] fun hused => hfresh hused (hsame.used.trans hused)
  cases h with
  | mail h | file h | archive h => exact hother (h.sameSignIn ho)
  | collects => exact hother (Option.some.inj ho ▸ ⟨rfl, rfl, rfl, rfl, rfl⟩)
  | @signsIn rate m key ht hm hused hkey hverify =>
    obtain rfl := Option.some.inj ho
    refine ⟨hss.challenge, fun mb hmb => ?_, fun h => nomatch h⟩
    obtain rfl := Option.some.inj hmb
    refine ⟨rfl, fun hnil => ?_, x, by simp, m, key, hx ▸ ht, hx ▸ hm, rfl, hst ▸ hkey, ?_⟩
    · exact absurd (length_mailboxId_of_decodeAuth hm) (by rw [hnil]; decide)
    · rw [← hss.challenge]
      exact hverify
  | signsInToArchive rate ht hm hused =>
    obtain rfl := Option.some.inj ho
    refine ⟨hss.challenge, fun mb hmb => ?_, fun h => nomatch h⟩
    exact absurd (hss.mailbox mb hmb).1 (by simp [hused])

theorem Connection.knows (h : Connection svc challenge hist s) :
    hist.countP Exchange.signIn ≤ 1 ∧ ∀ ss, s = some ss → ss.Knows svc challenge hist := by
  induction h with
  | opened peerIp =>
    refine ⟨Nat.zero_le _, ?_⟩
    rintro _ ⟨⟩
    exact ⟨rfl, (fun _ h => nomatch h), fun _ => .inl rfl⟩
  | @message hist ss _ hp now msg st rate ih =>
    have hss := ih.2 ss rfl
    have hzero : ss.challengeUsed = false → hist.countP Exchange.signIn = 0 := fun hu =>
      (hss.fresh hu).resolve_right fun ⟨_, hw, _⟩ => by rw [hp] at hw; exact nomatch hw
    refine ⟨?_, fun ss' hs => ?_⟩
    · rw [List.countP_append, List.countP_singleton]
      split_ifs with hx
      · rw [hzero (challengeUsed_of_signIn hx).1]
      · exact ih.1
    · rcases World.nextSession_cases hs with ho | ⟨-, hleave⟩
      · refine (handleMessage_request svc now ss msg st rate).knows hss _ rfl rfl ho fun hold hnew => ?_
        rw [List.countP_append, List.countP_singleton, hzero hold]
        split_ifs with hx
        · rw [(challengeUsed_of_signIn hx).2 ss' ho] at hnew
          exact nomatch hnew
        · exact .inl rfl
      · exact hss.of_same (.leave hleave) _ fun _ => .inr (Session.leave_leaving hleave)
  | @resume hist ss work _ hp now st rate ih =>
    have hss := ih.2 ss rfl
    refine ⟨ih.1, fun ss' hs => ?_⟩
    rw [← List.append_nil hist]
    rcases World.nextSession_cases hs with ho | ⟨-, hleave⟩
    · refine hss.of_same (resume_sameSignIn ho) [] fun hused => ?_
      rcases hss.fresh hused with hzero | ⟨work', hw, hundo⟩
      · exact .inl (by rwa [List.append_nil])
      · obtain rfl := Option.some.inj (hp.symm.trans hw)
        exact .inr (resume_leaving hundo ho)
    · exact hss.of_same (.leave hleave) [] fun _ => .inr (Session.leave_leaving hleave)
  | @draw hist ss _ random ih =>
    have hss := ih.2 ss rfl
    refine ⟨ih.1, ?_⟩
    rintro _ ⟨⟩
    exact ⟨hss.challenge, hss.mailbox, hss.fresh⟩
  | @poll hist ss _ hp ih =>
    have hss := ih.2 ss rfl
    refine ⟨ih.1, ?_⟩
    rintro _ ⟨⟩
    refine ⟨hss.challenge, hss.mailbox, fun hused => .inl ((hss.fresh hused).resolve_right ?_)⟩
    rintro ⟨_, hw, -⟩
    rw [Option.isNone_iff_eq_none.1 hp.1] at hw
    exact nomatch hw
  | @leave hist ss _ ih =>
    refine ⟨ih.1, fun ss' hleave => ?_⟩
    rw [← List.append_nil hist]
    exact (ih.2 ss rfl).of_same (.leave hleave) [] fun _ => .inr (Session.leave_leaving hleave)

/-! ## Requests on a mailbox -/

/-- The requests that act on the mailbox the connection signed in to. -/
def actsOnMailbox : MessageType → Bool
  | .relayCollect | .relayAck | .relayTokenAdd | .relayTokenRevoke | .relayInviteCreate
  | .relayInviteList | .relayInviteCancel | .prekeyPut | .prekeyStatus | .keyringPut | .keyringGet
  | .fileStatus | .fileCancel => true
  | _ => false

/-- Those that only ask. -/
def asksAboutMailbox : MessageType → Bool
  | .relayCollect | .relayInviteList | .prekeyStatus | .keyringGet | .fileStatus => true
  | _ => false

theorem handleMessage_notSignedIn (ht : actsOnMailbox msg.type = true) (hmb : ss.mailbox = none) :
    handleMessage svc now ss msg st rate = refuse st rate ss "Sign in first" := by
  obtain ⟨type, payload⟩ := msg
  have hneeds : ∀ k, needsMailbox st rate ss k = refuse st rate ss "Sign in first" := fun k => by
    rw [needsMailbox, hmb]
  cases type with
  | relayCollect | relayAck | relayTokenAdd | relayTokenRevoke | relayInviteCreate | relayInviteList
  | relayInviteCancel | prekeyPut | prekeyStatus | keyringPut | keyringGet | fileStatus
  | fileCancel => exact hneeds _
  | _ => cases ht

/-- Apart from the mailbox's own rows, among them those of its files, the tables are as they were. -/
structure Touches (mb : Bytes) (st st' : RelayStore) : Prop where
  confined : Confined mb st
    { st' with files := st.files, fileTokens := st.fileTokens, uploads := st.uploads }
  files : st'.files.filter (·.owner ≠ mb) = st.files.filter (·.owner ≠ mb)
  fileTokens :
    (st'.fileTokens.filter fun t => !st.files.any fun f => f.id = t.fileId ∧ f.owner = mb) =
      st.fileTokens.filter fun t => !st.files.any fun f => f.id = t.fileId ∧ f.owner = mb

theorem Confined.touches (h : Confined mb st st') : Touches mb st st' := by
  have hsame : { st' with files := st.files, fileTokens := st.fileTokens, uploads := st.uploads } =
      st' := by
    rw [← h.files.files, ← h.files.tokens, ← h.files.uploads]
  exact ⟨hsame.symm ▸ h, by rw [h.files.files], by rw [h.files.tokens]⟩

theorem touches_deleteFile (hmb : mb ≠ []) (fileId : Bytes) :
    Touches mb st (st.deleteFile fileId mb).2 := by
  unfold RelayStore.deleteFile
  rw [if_neg hmb]
  refine ⟨{ Confined.refl mb st with archives := ⟨rfl, rfl, rfl, rfl⟩, files := ⟨rfl, rfl, rfl, rfl⟩ },
    filter_filter_of_imp fun f hf => ?_, filter_filter_of_imp fun t ht => ?_⟩
  · have : f.owner ≠ mb := by simpa using hf
    simp [this]
  · have hnone : ∀ f ∈ st.files, f.id = t.fileId → f.owner ≠ mb := by simpa using ht
    simpa using fun f hf hid _ => hnone f hf hid

/-- Work that is left of such a request. -/
def Pending.OfMailbox (mb : Bytes) : Pending → Prop
  | .push .. | .reply _ => True
  | .inviteList mailbox _ => mailbox = mb
  | .prekeyPutOk mailbox => mailbox = mb
  | .remove _ _ next => next.OfMailbox mb
  | _ => False

theorem Pending.Own.ofMailbox (h : work.Own mb) : work.OfMailbox mb := by
  cases work <;> first | exact h | exact h.elim

/-- What such a request does once the connection has signed in. -/
structure Outcome.OnMailbox (o : Outcome) (mb : Bytes) (st : RelayStore) : Prop where
  touches : Touches mb st o.store
  pending : ∀ ss work, o.session = some ss → ss.pending = some work → work.OfMailbox mb

theorem OwnRequest.onMailbox (h : OwnRequest ss st o) (hmb : ss.mailbox = some mb)
    (hp : ss.pending = none) : o.OnMailbox mb st := by
  have hkeep : Touches mb st st := (Confined.refl mb st).touches
  cases h with
  | refused => exact ⟨hkeep, by rintro _ _ ⟨⟩ hw; rw [hp] at hw; exact nomatch hw⟩
  | closed | failed => exact ⟨hkeep, by rintro _ _ ⟨⟩⟩
  | acts rate up work hmb' hcall hwork =>
    obtain rfl := Option.some.inj (hmb.symm.trans hmb')
    refine ⟨hcall.confined.touches, ?_⟩
    rintro _ w ⟨⟩ hw
    rcases hwork with rfl | ⟨w', rfl, hown⟩
    · rw [hp] at hw
      exact nomatch hw
    · exact Option.some.inj hw ▸ hown.ofMailbox

theorem handleMessage_onMailbox (ht : actsOnMailbox msg.type = true) (hmb : ss.mailbox = some mb)
    (hne : mb ≠ []) (hp : ss.pending = none) :
    (handleMessage svc now ss msg st rate).OnMailbox mb st := by
  obtain ⟨type, payload⟩ := msg
  have hown : ∀ {o : Outcome}, OwnRequest ss st o → o.OnMailbox mb st := fun h => h.onMailbox hmb hp
  cases type with
  | relayCollect =>
    refine needsMailbox_of (P := fun o => o.OnMailbox mb st)
      (fun _ _ => hown (.refused _ _)) fun _ _ => ⟨(Confined.refl mb st).touches, ?_⟩
    rintro _ _ ⟨⟩ ⟨⟩
    trivial
  | relayAck => exact hown .handleAck
  | relayTokenAdd => exact hown .handleTokenAdd
  | relayTokenRevoke => exact hown .handleTokenRevoke
  | relayInviteCreate => exact hown .handleInviteCreate
  | relayInviteList => exact hown .handleInviteList
  | relayInviteCancel => exact hown .handleInviteCancel
  | prekeyPut => exact hown .handlePrekeyPut
  | prekeyStatus => exact hown .handlePrekeyStatus
  | keyringPut => exact hown .handleKeyringPut
  | keyringGet => exact hown .handleKeyringGet
  | fileStatus => exact hown .handleFileStatus
  | fileCancel =>
    refine needsMailbox_of (P := fun o => o.OnMailbox mb st)
      (fun _ _ => hown (.refused _ _)) fun mb' hmb' => ?_
    obtain rfl := Option.some.inj (hmb.symm.trans hmb')
    refine decoded_of (P := fun o => o.OnMailbox mb st) (fun _ _ => hown (.closed _ _)) fun id _ => ?_
    split_ifs with hmine
    · refine ⟨touches_deleteFile hne id, ?_⟩
      rintro _ _ ⟨⟩ ⟨⟩
      trivial
    · rw [deleteFile_store (by simpa using hmine)]
      exact hown (.refused _ _)
  | _ => exact nomatch ht

/-! ## What is left of them -/

structure SameRows (st st' : RelayStore) : Prop where
  archives : SameArchives st st'
  mail : SameMail st st'
  files : st'.files = st.files
  fileTokens : st'.fileTokens = st.fileTokens

theorem SameRows.refl (st : RelayStore) : SameRows st st := ⟨.refl st, .refl st, rfl, rfl⟩

/-- The rest of such a request changes no row, and what is left after it is of the same mailbox. -/
theorem resume_ofMailbox (hwork : work.OfMailbox mb) :
    SameRows st (resume svc now ss st rate work).store ∧
      ∀ ss' work', (resume svc now ss st rate work).session = some ss' → ss'.pending = some work' →
        work'.OfMailbox mb := by
  cases work with
  | push collect batch =>
    refine ⟨?_, fun ss' work' ho hw => ?_⟩
    · simp only [resume, (resumePush_store now _ st rate collect batch).1]
      exact .refl st
    · obtain ⟨rest, rfl⟩ := resumePush_pending rfl ho hw
      trivial
  | reply | inviteList | prekeyPutOk => exact ⟨.refl st, by rintro _ _ ⟨⟩ ⟨⟩⟩
  | remove ending fileId next =>
    refine ⟨⟨⟨rfl, rfl, rfl, rfl⟩, ⟨rfl, rfl, rfl, rfl, rfl, rfl, rfl, rfl, rfl⟩, rfl, rfl⟩, ?_⟩
    rintro _ _ ⟨⟩ ⟨⟩
    exact hwork
  | _ => exact hwork.elim

/-! ## What is read -/

/-- The two stores have the same rows of this mailbox: its envelopes, invites, prekeys, keyring and
files, and the mailboxes made with its invites. -/
structure Agree (mb : Bytes) (st₁ st₂ : RelayStore) : Prop where
  envelopes : st₂.envelopes.filter (·.mailboxId = mb) = st₁.envelopes.filter (·.mailboxId = mb)
  invites : st₂.invites.filter (·.issuedBy = some mb) = st₁.invites.filter (·.issuedBy = some mb)
  joined : st₂.mailboxes.filter (·.invitedBy = some mb) = st₁.mailboxes.filter (·.invitedBy = some mb)
  prekeyPools : st₂.prekeyPools.filter (·.mailboxId = mb) = st₁.prekeyPools.filter (·.mailboxId = mb)
  prekeys : st₂.prekeys.filter (·.mailboxId = mb) = st₁.prekeys.filter (·.mailboxId = mb)
  keyrings : st₂.keyrings.filter (·.mailboxId = mb) = st₁.keyrings.filter (·.mailboxId = mb)
  files : ∀ id, (st₂.file id).filter (·.owner = mb) = (st₁.file id).filter (·.owner = mb)

/-- A selection among the rows of a key depends on those rows only. -/
theorem filter_and_congr {ρ : Type} {p q : ρ → Prop} [DecidablePred p]
    [DecidablePred q] {l₁ l₂ : List ρ}
    (h : l₂.filter (fun r => decide (p r)) = l₁.filter fun r => decide (p r)) :
    l₂.filter (fun r => decide (p r ∧ q r)) = l₁.filter fun r => decide (p r ∧ q r) := by
  have hsplit : ∀ l : List ρ, (l.filter fun r => decide (p r ∧ q r)) =
      (l.filter fun r => decide (p r)).filter fun r => decide (q r) := fun l => by
    rw [List.filter_filter]
    simp [Bool.and_comm]
  rw [hsplit, hsplit, h]

theorem lookup_congr {ρ κ : Type} [DecidableEq κ] {key : ρ → κ} {k : κ} {l₁ l₂ : List ρ}
    (h : l₂.filter (key · = k) = l₁.filter (key · = k)) :
    Rows.lookup key k l₂ = Rows.lookup key k l₁ := by
  simp only [Rows.lookup, ← List.head?_filter, h]

section

variable (h : Agree mb st₁ st₂)
include h

theorem Agree.fetch (after : ℕ) (now : Time) (limit : ℕ) :
    st₂.fetch mb after now limit = st₁.fetch mb after now limit := by
  rw [RelayStore.fetch, RelayStore.fetch, filter_and_congr h.envelopes]

theorem Agree.unusedInvites (now : Time) : st₂.unusedInvites mb now = st₁.unusedInvites mb now := by
  rw [RelayStore.unusedInvites, RelayStore.unusedInvites, filter_and_congr h.invites]

theorem Agree.joinedThrough : st₂.joinedThrough mb = st₁.joinedThrough mb := by
  rw [RelayStore.joinedThrough, RelayStore.joinedThrough, h.joined]

theorem Agree.prekeyStatus : st₂.prekeyStatus mb = st₁.prekeyStatus mb := by
  have hprekeys : st₂.prekeysOf mb = st₁.prekeysOf mb := h.prekeys
  have hgeneration : st₂.generationOf mb = st₁.generationOf mb := by
    rw [RelayStore.generationOf, RelayStore.generationOf, lookup_congr h.prekeyPools]
  rw [RelayStore.prekeyStatus, RelayStore.prekeyStatus, hprekeys, hgeneration,
    RelayStore.lastResortOf, RelayStore.lastResortOf, hprekeys]

theorem Agree.getKeyring : st₂.getKeyring mb = st₁.getKeyring mb := by
  rw [RelayStore.getKeyring, RelayStore.getKeyring, lookup_congr h.keyrings]

end

/-- The two outcomes answer the same and leave the same session. -/
def SameAnswer (o₁ o₂ : Outcome) : Prop := o₂.replies = o₁.replies ∧ o₂.session = o₁.session

/-- What a question is answered depends on the rows of the mailbox only. -/
theorem handleMessage_agree (ht : asksAboutMailbox msg.type = true) (hmb : ss.mailbox = some mb)
    (h : Agree mb st₁ st₂) :
    SameAnswer (handleMessage svc now ss msg st₁ rate) (handleMessage svc now ss msg st₂ rate) := by
  obtain ⟨type, payload⟩ := msg
  cases type with
  | relayCollect =>
    simp only [handleMessage, handleCollect, needsMailbox, hmb]
    exact ⟨rfl, rfl⟩
  | relayInviteList =>
    simp only [handleMessage, handleInviteList, needsMailbox, hmb, h.unusedInvites]
    split <;> exact ⟨rfl, rfl⟩
  | prekeyStatus =>
    simp only [handleMessage, handlePrekeyStatus, needsMailbox, hmb, h.prekeyStatus]
    exact ⟨rfl, rfl⟩
  | keyringGet =>
    simp only [handleMessage, handleKeyringGet, needsMailbox, hmb, h.getKeyring]
    split <;> exact ⟨rfl, rfl⟩
  | fileStatus =>
    simp only [handleMessage, handleFileStatus, needsMailbox, hmb, decoded, h.files]
    split
    · exact ⟨rfl, rfl⟩
    · split <;> exact ⟨rfl, rfl⟩
  | _ => cases ht

theorem resume_agree (hwork : work.OfMailbox mb) (hmb : ss.mailbox = some mb) (h : Agree mb st₁ st₂) :
    SameAnswer (resume svc now ss st₁ rate work) (resume svc now ss st₂ rate work) := by
  cases work with
  | push collect batch =>
    cases batch with
    | nil =>
      simp only [resume, resumePush, hmb, h.fetch]
      split <;> exact ⟨rfl, rfl⟩
    | cons =>
      simp only [resume, resumePush, hmb]
      exact ⟨rfl, rfl⟩
  | reply => exact ⟨rfl, rfl⟩
  | inviteList mailbox unused =>
    obtain rfl : mailbox = mb := hwork
    simp only [resume, resumeInviteList, h.joinedThrough]
    exact ⟨rfl, rfl⟩
  | prekeyPutOk mailbox =>
    obtain rfl : mailbox = mb := hwork
    simp only [resume, h.prekeyStatus]
    exact ⟨rfl, rfl⟩
  | remove => exact ⟨rfl, rfl⟩
  | _ => exact hwork.elim

/-! ## One sign-in, one mailbox -/

/-- On every connection: at most one sign-in of either kind succeeds or fails; a request that acts on a
mailbox is refused until a signature over the connection's own challenge was valid under the mailbox's
registered key; and it changes rows of that mailbox only, and is answered from those rows. -/
theorem mailbox_requests_signed_in (h : Connection svc challenge hist s) :
    hist.countP Exchange.signIn ≤ 1 ∧
    (∀ ss, s = some ss → ss.pending = none → ∀ now msg st rate, actsOnMailbox msg.type = true →
      handleMessage svc now ss msg st rate = refuse st rate ss "Sign in first" ∨
      ∃ mb, ss.mailbox = some mb ∧ SignedIn svc challenge hist mb ∧
        (handleMessage svc now ss msg st rate).OnMailbox mb st ∧
        (asksAboutMailbox msg.type = true → ∀ st', Agree mb st st' →
          SameAnswer (handleMessage svc now ss msg st rate)
            (handleMessage svc now ss msg st' rate))) ∧
    (∀ ss work mb, s = some ss → ss.pending = some work → work.OfMailbox mb → ss.mailbox = some mb →
      SignedIn svc challenge hist mb ∧ ∀ now st rate,
        SameRows st (resume svc now ss st rate work).store ∧
        (∀ ss' work', (resume svc now ss st rate work).session = some ss' →
          ss'.pending = some work' → work'.OfMailbox mb ∧ ss'.mailbox = some mb) ∧
        ∀ st', Agree mb st st' →
          SameAnswer (resume svc now ss st rate work) (resume svc now ss st' rate work)) := by
  obtain ⟨hcount, hknows⟩ := h.knows
  refine ⟨hcount, fun ss hs hp now msg st rate ht => ?_, fun ss work mb hs _ hwork hmb => ?_⟩
  · cases hmb : ss.mailbox with
    | none => exact .inl (handleMessage_notSignedIn ht hmb)
    | some mb =>
      obtain ⟨-, hne, hsigned⟩ := (hknows ss hs).mailbox mb hmb
      exact .inr ⟨mb, rfl, hsigned, handleMessage_onMailbox ht hmb hne hp,
        fun hask st' hagree => handleMessage_agree hask hmb hagree⟩
  · refine ⟨((hknows ss hs).mailbox mb hmb).2.2, fun now st rate => ?_⟩
    obtain ⟨hrows, hpending⟩ := resume_ofMailbox hwork
    refine ⟨hrows, fun ss' work' ho hw => ⟨hpending ss' work' ho hw, ?_⟩,
      fun st' hagree => resume_agree hwork hmb hagree⟩
    exact (resume_sameSignIn ho).mailbox.trans hmb

def sampleAuth : WireMessage := ⟨.relayAuth, writeBlob sampleMailbox ++ writeBlob [1]⟩

def sampleSignIn : Outcome :=
  handleMessage sampleService 100 { peerIp := [], challenge := [] } sampleAuth sampleWorld.store
    sampleWorld.rate

def sampleTokenAdd (ss : Session) : Outcome :=
  handleMessage sampleService 101 ss ⟨.relayTokenAdd, writeBlob (byteSum sampleToken).1⟩
    sampleWorld.store sampleWorld.rate

theorem mailbox_requests_signed_in_sample :
    ∃ ss, sampleSignIn.session = some ss ∧ (sampleTokenAdd ss).replies = [⟨.relayTokenOk, []⟩] ∧
      SignedIn sampleService [] [⟨sampleAuth, sampleWorld.store, sampleSignIn.replies⟩] sampleMailbox ∧
      (sampleTokenAdd ss).OnMailbox sampleMailbox sampleWorld.store := by
  have hcheck : sampleSignIn.session.any (fun ss => decide (ss.mailbox = some sampleMailbox ∧
      (sampleTokenAdd ss).replies = [⟨.relayTokenOk, []⟩]) && ss.pending.isNone) = true := by
    decide +kernel
  simp only [Option.any_eq_true, Bool.and_eq_true, decide_eq_true_eq, Option.isNone_iff_eq_none]
    at hcheck
  obtain ⟨ss, hss, ⟨hmb, hreplies⟩, hp⟩ := hcheck
  have hconn : Connection sampleService []
      ([] ++ [⟨sampleAuth, sampleWorld.store, sampleSignIn.replies⟩])
      (World.nextSession (some { peerIp := [], challenge := [] }) sampleSignIn) :=
    .message (.opened []) rfl 100 sampleAuth sampleWorld.store sampleWorld.rate
  rcases (mailbox_requests_signed_in hconn).2.1 ss (World.nextSession_of_some _ hss) hp 101
    ⟨.relayTokenAdd, writeBlob (byteSum sampleToken).1⟩ sampleWorld.store sampleWorld.rate rfl with
    href | ⟨mb, hmb', hsigned, hon, -⟩
  · rw [sampleTokenAdd, href] at hreplies
    exact nomatch hreplies
  · obtain rfl := Option.some.inj (hmb.symm.trans hmb')
    exact ⟨ss, hss, hreplies, hsigned, hon⟩

end PqSuite.Relay
