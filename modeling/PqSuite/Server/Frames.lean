import PqSuite.Server.Calls
import PqSuite.Server.Requests

/-!
# What the requests about mailboxes and attachments can do

The tables fall into three parts: mailboxes, archives and attachments. `OwnCall` lists the store calls
a signed-in session makes on its own mailbox; `MailRequest` and `FileRequest` say once what a request
of the first and of the last part can do, and what it leaves alone is read off their cases.
-/

namespace PqSuite.Relay

variable {svc : Service} {now : Time} {ss : Session} {payload : Bytes} {msg : WireMessage}
  {st st' : RelayStore} {rate : RateLimiter} {mb : Bytes} {tokenHash hash : Digest}
  {archiveId fileId : Bytes} {hashes : List Digest} {quota : ℕ} {m : FileBegin} {work : Pending}
  {at' : Time}

/-! ## Parts of the store -/

structure SameArchives (st st' : RelayStore) : Prop where
  archives : st'.archives = st.archives
  joinTokens : st'.archiveJoinTokens = st.archiveJoinTokens
  keys : st'.archiveKeys = st.archiveKeys
  entries : st'.archiveEntries = st.archiveEntries

structure SameFiles (st st' : RelayStore) : Prop where
  files : st'.files = st.files
  tokens : st'.fileTokens = st.fileTokens
  disk : st'.disk = st.disk
  uploads : st'.uploads = st.uploads

/-- The tables of mailboxes, invites, tokens, envelopes, prekeys and keyrings are the same. -/
structure SameMail (st st' : RelayStore) : Prop where
  invites : st'.invites = st.invites
  mailboxes : st'.mailboxes = st.mailboxes
  tokens : st'.tokens = st.tokens
  envelopes : st'.envelopes = st.envelopes
  envelopeSeq : st'.envelopeSeq = st.envelopeSeq
  prekeyPools : st'.prekeyPools = st.prekeyPools
  prekeys : st'.prekeys = st.prekeys
  prekeyTakes : st'.prekeyTakes = st.prekeyTakes
  keyrings : st'.keyrings = st.keyrings

structure FilesOnly (st st' : RelayStore) : Prop where
  archives : SameArchives st st'
  mail : SameMail st st'

structure MailOnly (st st' : RelayStore) : Prop where
  archives : SameArchives st st'
  files : SameFiles st st'

theorem SameArchives.refl (st : RelayStore) : SameArchives st st := ⟨rfl, rfl, rfl, rfl⟩

theorem SameFiles.refl (st : RelayStore) : SameFiles st st := ⟨rfl, rfl, rfl, rfl⟩

theorem SameMail.refl (st : RelayStore) : SameMail st st :=
  ⟨rfl, rfl, rfl, rfl, rfl, rfl, rfl, rfl, rfl⟩

theorem filesOnly_update (st : RelayStore) (files : List FileRow) (tokens : List FileTokenRow)
    (disk : Disk) (uploads : UploadLog) :
    FilesOnly st { st with files := files, fileTokens := tokens, disk := disk, uploads := uploads } :=
  ⟨⟨rfl, rfl, rfl, rfl⟩, ⟨rfl, rfl, rfl, rfl, rfl, rfl, rfl, rfl, rfl⟩⟩

theorem FilesOnly.refl (st : RelayStore) : FilesOnly st st := filesOnly_update st _ _ _ _

/-! ## Checks -/

section

variable {P : Outcome → Prop} {text : String}

theorem needsMailbox_of {k : Bytes → Outcome} (h₀ : ∀ rate text, P (refuse st rate ss text))
    (h : ∀ mb, ss.mailbox = some mb → P (k mb)) : P (needsMailbox st rate ss k) := by
  unfold needsMailbox
  split
  · exact h₀ _ _
  · exact h _ ‹_›

theorem decoded_of {α : Type} {m : Option α} {k : α → Outcome}
    (h₀ : ∀ rate text, P (close st rate text)) (h : ∀ x, m = some x → P (k x)) :
    P (decoded st rate m text k) := by
  unfold decoded
  split
  · exact h₀ _ _
  · exact h _ rfl

theorem limited_of {key : Bytes} {limit : Int} {k : RateLimiter → Outcome}
    (h₀ : ∀ rate text, P (refuse st rate ss text)) (h : ∀ rate, P (k rate)) :
    P (limited st rate ss now key limit text k) := by
  unfold limited
  split_ifs
  · exact h _
  · exact h₀ _ _

/-- A sign-in to a mailbox ends the connection, or a fresh challenge was signed with the mailbox's key. -/
theorem handleAuth_of (hmalformed : P (close st rate "Malformed auth request"))
    (hused : P (close st rate "Reconnect to authenticate again"))
    (hfailed : ss.challengeUsed = false → P (close st rate "Authentication failed"))
    (hsigned : ∀ m key, decodeAuth payload = some m → ss.challengeUsed = false →
      st.accessKey m.mailboxId = some key →
      svc.verify (authSigningInput ss.challenge svc.relayId m.mailboxId) m.signature key = true →
      P (answer st rate { ss with challengeUsed := true, mailbox := some m.mailboxId, key := some key }
        ⟨.relayAuthOk, []⟩)) : P (handleAuth svc ss payload st rate) := by
  unfold handleAuth
  split
  · exact hmalformed
  · rename_i m hm
    split_ifs with hu
    · exact hused
    · have hfresh : ss.challengeUsed = false := by simpa using hu
      split
      · exact hfailed hfresh
      · rename_i key hkey
        split_ifs with hverify
        · exact hfailed hfresh
        · exact hsigned m key hm hfresh hkey (by simpa using hverify)

/-- The same for a sign-in to an archive, with the key of one of its members. -/
theorem handleArchiveAuth_of (hmalformed : P (close st rate "Malformed archive request"))
    (hused : P (close st rate "Reconnect to authenticate again"))
    (hfailed : ss.challengeUsed = false → P (close st rate "Authentication failed"))
    (hsigned : ∀ m key, decodeArchiveAuth payload = some m → ss.challengeUsed = false →
      st.archiveMemberKey m.archiveId m.keyHash = some key →
      svc.verify (archiveAuthSigningInput ss.challenge svc.relayId m.archiveId m.keyHash.1) m.signature key =
        true →
      P (answer st rate
        { ss with challengeUsed := true, archiveSession := some (m.archiveId, m.keyHash), key := some key }
        ⟨.archiveAuthOk, []⟩)) : P (handleArchiveAuth svc ss payload st rate) := by
  unfold handleArchiveAuth
  split
  · exact hmalformed
  · rename_i m hm
    split_ifs with hu
    · exact hused
    · have hfresh : ss.challengeUsed = false := by simpa using hu
      split
      · exact hfailed hfresh
      · rename_i key hkey
        split_ifs with hverify
        · exact hfailed hfresh
        · exact hsigned m key hm hfresh hkey (by simpa using hverify)

end

/-! ## Store calls on one's own mailbox -/

/-- What a session signed in to `mb` asks of the store for that mailbox. -/
inductive OwnCall (mb : Bytes) (st : RelayStore) : RelayStore → Prop
  | keep : OwnCall mb st st
  | ack (ids : List Bytes) : OwnCall mb st (st.ack mb ids).2
  | addMemberInvite {hash : Digest} {now expiresAt : Time} {maxOutstanding maxTotal : ℕ}
      {st' : RelayStore}
      (h : st.addMemberInvite mb hash now expiresAt maxOutstanding maxTotal = (.ok, st')) :
      OwnCall mb st st'
  | cancelMemberInvite (hash : Digest) : OwnCall mb st (st.cancelMemberInvite mb hash).2
  | addToken {hash : Digest} {now : Time} {maxTokens : ℕ} {st' : RelayStore}
      (h : st.addToken mb hash now maxTokens = (.ok, st')) : OwnCall mb st st'
  | revokeToken (hash : Digest) : OwnCall mb st (st.revokeToken mb hash)
  | putPrekeys {replace : Bool} {generation : Bytes} {prekeys : List PrekeyEntry} {now : Time}
      {maxOneTime : ℕ} {st' : RelayStore}
      (h : st.putPrekeys mb replace generation prekeys now maxOneTime = (.ok, st')) :
      OwnCall mb st st'
  | putKeyring (blob : Bytes) (now : Time) : OwnCall mb st (st.putKeyring mb blob now)

theorem cancelMemberInvite_store (h : (st.cancelMemberInvite mb hash).1 = false) :
    (st.cancelMemberInvite mb hash).2 = st := by
  simp only [RelayStore.cancelMemberInvite, List.any_eq_false, decide_eq_true_eq] at h ⊢
  have : st.invites.filter (fun r => ¬(r.hash = hash ∧ r.issuedBy = some mb)) = st.invites :=
    List.filter_eq_self.2 fun r hr => decide_eq_true (h r hr)
  rw [this]

theorem handleKeyringPut_call {kss : KeyringSession} {c : KeyringChunk} {up up' : KeyringUpload}
    {r : KeyringReply} (h : kss.handleKeyringPut c st up = (r, st', up')) :
    OwnCall kss.mailbox st st' := by
  have htake : ∀ u : KeyringUpload, kss.takeChunk c st u = (r, st', up') →
      OwnCall kss.mailbox st st' := by
    intro u hu
    unfold KeyringSession.takeChunk at hu
    simp only at hu
    split_ifs at hu <;> simp only [Prod.mk.injEq] at hu <;> obtain ⟨-, rfl, -⟩ := hu
    · exact .putKeyring _ _
    · exact .keep
  unfold KeyringSession.handleKeyringPut at h
  split_ifs at h
  all_goals first
    | exact htake _ h
    | (simp only [Prod.mk.injEq] at h; obtain ⟨-, rfl, -⟩ := h; exact .keep)

/-- Rows of `mb` about its mail may differ, and of its envelopes some may be gone; all else is the
same. -/
structure Confined (mb : Bytes) (st st' : RelayStore) : Prop where
  archives : SameArchives st st'
  files : SameFiles st st'
  mailboxes : st'.mailboxes = st.mailboxes
  invites : st'.invites.filter (·.issuedBy ≠ some mb) = st.invites.filter (·.issuedBy ≠ some mb)
  tokens : st'.tokens.filter (·.mailboxId ≠ mb) = st.tokens.filter (·.mailboxId ≠ mb)
  envelopes : st'.envelopes.filter (·.mailboxId ≠ mb) = st.envelopes.filter (·.mailboxId ≠ mb)
  sublist : st'.envelopes.Sublist st.envelopes
  envelopeSeq : st'.envelopeSeq = st.envelopeSeq
  prekeyPools : st'.prekeyPools.filter (·.mailboxId ≠ mb) = st.prekeyPools.filter (·.mailboxId ≠ mb)
  prekeys : st'.prekeys.filter (·.mailboxId ≠ mb) = st.prekeys.filter (·.mailboxId ≠ mb)
  prekeyTakes : st'.prekeyTakes = st.prekeyTakes
  keyrings : st'.keyrings.filter (·.mailboxId ≠ mb) = st.keyrings.filter (·.mailboxId ≠ mb)

theorem Confined.refl (mb : Bytes) (st : RelayStore) : Confined mb st st where
  archives := .refl st
  files := .refl st
  mailboxes := rfl
  invites := rfl
  tokens := rfl
  envelopes := rfl
  sublist := .refl _
  envelopeSeq := rfl
  prekeyPools := rfl
  prekeys := rfl
  prekeyTakes := rfl
  keyrings := rfl

/-- Rows that go are of the mailbox, so the others stay. -/
theorem filter_filter_of_imp {ρ : Type} {p q : ρ → Bool} {l : List ρ}
    (h : ∀ r, p r = true → q r = true) : (l.filter q).filter p = l.filter p := by
  rw [List.filter_filter]
  refine List.filter_congr fun r _ => ?_
  cases hp : p r with
  | false => rfl
  | true => simp [h r hp]

/-- A row that comes is of the mailbox, so the others stay. -/
theorem filter_append_of_neg {ρ : Type} {p : ρ → Bool} {l m : List ρ} (h : ∀ r ∈ m, p r = false) :
    (l ++ m).filter p = l.filter p := by
  have hm : m.filter p = [] := List.filter_eq_nil_iff.2 fun r hr => by simp [h r hr]
  rw [List.filter_append, hm, List.append_nil]

theorem ackLoop_spec (mb : Bytes) (ids : List Bytes) (rows : List EnvelopeRow) (n : ℕ) :
    (RelayStore.ackLoop mb ids rows n).2.filter (·.mailboxId ≠ mb) = rows.filter (·.mailboxId ≠ mb) ∧
      (RelayStore.ackLoop mb ids rows n).2.Sublist rows := by
  induction ids generalizing rows n with
  | nil => exact ⟨rfl, .refl _⟩
  | cons id ids ih =>
    obtain ⟨hother, hsub⟩ := ih (rows.filter fun e => ¬(e.mailboxId = mb ∧ e.id = id)) _
    refine ⟨hother.trans (filter_filter_of_imp fun e he => ?_), hsub.trans List.filter_sublist⟩
    simp only [ne_eq, decide_not, Bool.not_eq_eq_eq_not, Bool.not_true, decide_eq_false_iff_not] at he
    simp [he]

theorem insertPrekeys_other (now : Time) (prekeys : List PrekeyEntry) (rows : List PrekeyRow) :
    (prekeys.foldl (RelayStore.insertPrekey mb now) rows).filter (·.mailboxId ≠ mb) =
      rows.filter (·.mailboxId ≠ mb) := by
  induction prekeys generalizing rows with
  | nil => rfl
  | cons p prekeys ih =>
    rw [List.foldl_cons, ih, RelayStore.insertPrekey,
      filter_append_of_neg fun r hr => by simp [List.mem_singleton.1 hr]]
    split_ifs
    · refine filter_filter_of_imp fun r hr => ?_
      have : r.mailboxId ≠ mb := by simpa using hr
      simp [this]
    · rfl

theorem OwnCall.confined (h : OwnCall mb st st') : Confined mb st st' := by
  cases h with
  | keep => exact .refl mb st
  | ack ids =>
    obtain ⟨hother, hsub⟩ := ackLoop_spec mb ids st.envelopes 0
    exact { Confined.refl mb st with
      archives := ⟨rfl, rfl, rfl, rfl⟩, files := ⟨rfl, rfl, rfl, rfl⟩
      envelopes := hother, sublist := hsub }
  | @addMemberInvite hash now expiresAt a b st' h =>
    obtain ⟨-, -, -, -, rfl⟩ := (addMemberInvite_spec h).done rfl
    exact { Confined.refl mb st with
      archives := ⟨rfl, rfl, rfl, rfl⟩, files := ⟨rfl, rfl, rfl, rfl⟩
      invites := filter_append_of_neg fun r hr => by simp [List.mem_singleton.1 hr] }
  | cancelMemberInvite hash =>
    refine { Confined.refl mb st with
      archives := ⟨rfl, rfl, rfl, rfl⟩, files := ⟨rfl, rfl, rfl, rfl⟩
      invites := filter_filter_of_imp fun r hr => ?_ }
    have : r.issuedBy ≠ some mb := by simpa using hr
    simp [this]
  | @addToken hash now maxTokens st' h =>
    rcases (addToken_spec h).done rfl with rfl | ⟨-, -, rfl⟩
    · exact .refl mb _
    · exact { Confined.refl mb st with
        archives := ⟨rfl, rfl, rfl, rfl⟩, files := ⟨rfl, rfl, rfl, rfl⟩
        tokens := filter_append_of_neg fun r hr => by simp [List.mem_singleton.1 hr] }
  | revokeToken hash =>
    refine { Confined.refl mb st with
      archives := ⟨rfl, rfl, rfl, rfl⟩, files := ⟨rfl, rfl, rfl, rfl⟩
      tokens := filter_filter_of_imp fun r hr => ?_ }
    have : r.mailboxId ≠ mb := by simpa using hr
    simp [this]
  | @putPrekeys replace generation prekeys now maxOneTime st' h =>
    obtain ⟨-, -, pools, hother, rfl⟩ := (putPrekeys_spec h).done rfl
    have hkept : (st.keptPrekeys mb replace).filter (·.mailboxId ≠ mb) =
        st.prekeys.filter (·.mailboxId ≠ mb) := by
      unfold RelayStore.keptPrekeys
      split_ifs
      · exact filter_filter_of_imp fun r hr => hr
      · rfl
    exact { Confined.refl mb st with
      archives := ⟨rfl, rfl, rfl, rfl⟩, files := ⟨rfl, rfl, rfl, rfl⟩
      prekeyPools := hother
      prekeys := (insertPrekeys_other now prekeys _).trans hkept }
  | putKeyring blob now =>
    refine { Confined.refl mb st with
      archives := ⟨rfl, rfl, rfl, rfl⟩, files := ⟨rfl, rfl, rfl, rfl⟩
      keyrings := ?_ }
    exact (filter_append_of_neg fun r hr => by simp [List.mem_singleton.1 hr]).trans
      (filter_filter_of_imp fun r hr => hr)

/-! ## Requests about mailboxes -/

/-- Work that only reads, or that is about mail. -/
def Pending.Light : Pending → Prop
  | .deposit .. | .inviteList .. | .prekeyPutOk _ | .takePrekey .. | .sendFile _ | .reply _ => True
  | _ => False

/-- Work a request leaves to be done for one mailbox. -/
def Pending.Own (mb : Bytes) : Pending → Prop
  | .inviteList mailbox _ => mailbox = mb
  | .prekeyPutOk mailbox => mailbox = mb
  | _ => False

theorem Pending.Own.light (h : work.Own mb) : work.Light := by
  cases work <;> first | exact h.elim | trivial

inductive OwnRequest (ss : Session) (st : RelayStore) : Outcome → Prop
  | refused (rate : RateLimiter) (text : String) : OwnRequest ss st (refuse st rate ss text)
  | closed (rate : RateLimiter) (text : String) : OwnRequest ss st (close st rate text)
  | failed (rate : RateLimiter) : OwnRequest ss st (fail st rate)
  | acts (rate : RateLimiter) {mb : Bytes} {st' : RelayStore} (up : KeyringUpload)
      (work : Option Pending) {replies : List WireMessage} (hmb : ss.mailbox = some mb)
      (hcall : OwnCall mb st st') (hwork : work = ss.pending ∨ ∃ w, work = some w ∧ w.Own mb)
      (hquiet : ∀ p, ⟨.archiveAppendOk, p⟩ ∉ replies) :
      OwnRequest ss st
        { store := st', rate := rate
          session := some { ss with keyringUpload := up, pending := work }, replies := replies }

namespace OwnRequest

theorem answered (rate : RateLimiter) (hmb : ss.mailbox = some mb)
    (hcall : OwnCall mb st st') {msg : WireMessage} (hmsg : msg.type ≠ .archiveAppendOk) :
    OwnRequest ss st (answer st' rate ss msg) := by
  refine .acts rate ss.keyringUpload ss.pending hmb hcall (.inl rfl) ?_
  rintro p hmem
  exact hmsg (congrArg WireMessage.type (List.mem_singleton.1 hmem).symm)

theorem handleAck :
    OwnRequest ss st (handleAck ss payload st rate) :=
  needsMailbox_of .refused fun _ hmb => decoded_of .closed fun ids _ =>
    .answered _ hmb (.ack ids) (by simp)

theorem handleInviteCreate :
    OwnRequest ss st (handleInviteCreate svc now ss st rate) := by
  refine needsMailbox_of .refused fun mb hmb => ?_
  split_ifs
  · exact .refused _ _
  · refine limited_of .refused fun rate => ?_
    split <;> rename_i h
    · exact .answered _ hmb (.addMemberInvite h) (by simp)
    all_goals obtain rfl := (addMemberInvite_spec h).kept (by simp)
    · exact .refused _ _
    · exact .refused _ _
    · exact .refused _ _
    · exact .failed _

theorem handleInviteList : OwnRequest ss st (handleInviteList svc now ss st rate) := by
  refine needsMailbox_of .refused fun mb hmb => ?_
  split_ifs
  · exact .refused _ _
  · exact .acts _ _ _ hmb .keep (.inr ⟨_, rfl, rfl⟩) (by simp)

theorem handleInviteCancel :
    OwnRequest ss st (handleInviteCancel ss payload st rate) := by
  refine needsMailbox_of .refused fun mb hmb => decoded_of .closed fun hash _ => ?_
  split_ifs with h
  · exact .answered _ hmb (.cancelMemberInvite hash) (by simp)
  · rw [cancelMemberInvite_store (by simpa using h)]
    exact .refused _ _

theorem handleTokenAdd :
    OwnRequest ss st (handleTokenAdd svc now ss payload st rate) := by
  refine needsMailbox_of .refused fun mb hmb => decoded_of .closed fun hash _ => ?_
  split <;> rename_i h
  · exact .answered _ hmb (.addToken h) (by simp)
  · rename_i hne
    obtain rfl := (addToken_spec h).kept hne
    exact .refused _ _

theorem handleTokenRevoke :
    OwnRequest ss st (handleTokenRevoke ss payload st rate) :=
  needsMailbox_of .refused fun _ hmb => decoded_of .closed fun hash _ =>
    .answered _ hmb (.revokeToken hash) (by simp)

theorem handlePrekeyPut : OwnRequest ss st (handlePrekeyPut svc now ss payload st rate) := by
  refine needsMailbox_of .refused fun mb hmb => decoded_of .closed fun m _ => ?_
  split <;> rename_i h
  · exact .acts _ _ _ hmb (.putPrekeys h) (.inr ⟨_, rfl, rfl⟩) (by simp)
  all_goals
    obtain rfl := (putPrekeys_spec h).kept (by simp)
    exact .refused _ _

theorem handlePrekeyStatus :
    OwnRequest ss st (handlePrekeyStatus ss st rate) :=
  needsMailbox_of .refused fun _ hmb => .answered _ hmb .keep (by simp)

theorem handleKeyringPut :
    OwnRequest ss st (handleKeyringPut svc now ss payload st rate) := by
  refine needsMailbox_of .refused fun mb hmb => decoded_of .closed fun c _ => ?_
  simp only
  split
  · rename_i up h
    exact .acts _ up ss.pending hmb (handleKeyringPut_call h) (.inl rfl) (by simp)
  · rename_i up h
    by_cases hkey : up.active = false ∧ (st.accessKey mb).isNone
    · rw [if_pos hkey]
      exact .failed _
    · rw [if_neg hkey]
      exact .acts _ up ss.pending hmb (handleKeyringPut_call h) (.inl rfl) (by simp)

theorem handleKeyringGet :
    OwnRequest ss st (handleKeyringGet ss st rate) := by
  refine needsMailbox_of .refused fun mb hmb => ?_
  split
  · exact .answered _ hmb .keep (by simp)
  · exact .acts _ _ _ hmb .keep (.inl rfl) (by simp)

theorem handleFileStatus :
    OwnRequest ss st (handleFileStatus ss payload st rate) := by
  refine needsMailbox_of .refused fun mb hmb => decoded_of .closed fun fileId _ => ?_
  split
  · exact .refused _ _
  · exact .answered _ hmb .keep (by simp)

end OwnRequest

inductive MailRequest (ss : Session) (st : RelayStore) : Outcome → Prop
  | refused (rate : RateLimiter) (text : String) : MailRequest ss st (refuse st rate ss text)
  | closed (rate : RateLimiter) (text : String) : MailRequest ss st (close st rate text)
  | failed (rate : RateLimiter) : MailRequest ss st (fail st rate)
  | told (rate : RateLimiter) {replies : List WireMessage}
      (hquiet : ∀ p, ⟨.archiveAppendOk, p⟩ ∉ replies) :
      MailRequest ss st { store := st, rate := rate, session := some ss, replies := replies }
  | starts (rate : RateLimiter) {work : Pending} (hlight : work.Light) :
      MailRequest ss st (later st rate ss work)
  | registered (rate : RateLimiter) {inviteHash tokenHash : Digest} {id key : Bytes} {now : Time}
      {maxMailboxes : ℕ} {st' : RelayStore}
      (h : st.registerMailbox inviteHash id key tokenHash now maxMailboxes = (.ok, st')) :
      MailRequest ss st (answer st' rate ss ⟨.relayRegisterOk, []⟩)
  | own (rate : RateLimiter) {mb : Bytes} {st' : RelayStore} (up : KeyringUpload)
      (work : Option Pending) {replies : List WireMessage} (hmb : ss.mailbox = some mb)
      (hcall : OwnCall mb st st') (hlight : work = ss.pending ∨ ∃ w, work = some w ∧ w.Light)
      (hquiet : ∀ p, ⟨.archiveAppendOk, p⟩ ∉ replies) :
      MailRequest ss st
        { store := st', rate := rate
          session := some { ss with keyringUpload := up, pending := work }, replies := replies }

namespace MailRequest

theorem of_own {o : Outcome} (h : OwnRequest ss st o) : MailRequest ss st o := by
  cases h with
  | refused => exact .refused _ _
  | closed => exact .closed _ _
  | failed => exact .failed _
  | acts rate up work hmb hcall hwork hquiet =>
    refine .own rate up work hmb hcall (hwork.imp id ?_) hquiet
    rintro ⟨w, rfl, hw⟩
    exact ⟨w, rfl, hw.light⟩

theorem handleRegister : MailRequest ss st (handleRegister svc now ss payload st rate) := by
  refine decoded_of .closed fun m _ => limited_of .refused fun rate => ?_
  split_ifs
  · exact .refused _ _
  · exact .refused _ _
  · split <;> rename_i h
    · exact .registered _ h
    all_goals
      obtain rfl := (registerMailbox_spec h).kept (by simp)
      exact .refused _ _

theorem handleDeposit : MailRequest ss st (handleDeposit svc now ss payload st rate) := by
  refine decoded_of .closed fun m _ => ?_
  split_ifs
  · exact .refused _ _
  · refine limited_of .refused fun rate => ?_
    simp only
    split_ifs
    · exact .refused _ _
    · exact limited_of .refused fun rate => .starts rate trivial

theorem handlePrekeyTake : MailRequest ss st (handlePrekeyTake svc now ss payload st rate) := by
  refine decoded_of .closed fun m _ => limited_of .refused fun rate => ?_
  split_ifs
  · exact .refused _ _
  · exact .starts _ trivial

theorem handleFileDownload : MailRequest ss st (handleFileDownload svc now ss payload st rate) := by
  refine decoded_of .closed fun m _ => limited_of .refused fun rate => ?_
  split
  · exact .starts _ trivial
  all_goals exact .refused _ _

theorem mailOnly {o : Outcome} (h : MailRequest ss st o) : MailOnly st o.store := by
  cases h with
  | registered rate h =>
    obtain ⟨_, -, -, -, _, rfl⟩ := (registerMailbox_spec h).done rfl
    exact ⟨⟨rfl, rfl, rfl, rfl⟩, ⟨rfl, rfl, rfl, rfl⟩⟩
  | own rate up work hmb hcall => exact ⟨hcall.confined.archives, hcall.confined.files⟩
  | _ => exact ⟨.refl st, .refl st⟩

end MailRequest

/-! ## Requests about attachments -/

inductive FileRequest (ss : Session) (st : RelayStore) : Outcome → Prop
  | refused (rate : RateLimiter) (text : String) : FileRequest ss st (refuse st rate ss text)
  | closed (rate : RateLimiter) (text : String) : FileRequest ss st (close st rate text)
  | begins (rate : RateLimiter) {mb : Bytes} (m : FileBegin) (now : Time) (hmb : ss.mailbox = some mb)
      (hidle : ss.upload = none) : FileRequest ss st (later st rate ss (.beginFile mb m now))
  | restarts (rate : RateLimiter) {mb : Bytes} {u : Upload} (m : FileBegin) (now : Time)
      (hmb : ss.mailbox = some mb) (hu : ss.upload = some u) :
      FileRequest ss st (later st rate ss (abortUpload u (.beginFile mb m now)))
  | aborts (rate : RateLimiter) {u : Upload} (msg : WireMessage) (hu : ss.upload = some u)
      (hmsg : msg.type = .errorMsg) :
      FileRequest ss st (later st rate ss (abortUpload u (.reply msg)))
  | breaks (rate : RateLimiter) {u : Upload} (msg : WireMessage) (hu : ss.upload = some u)
      (hmsg : msg.type = .errorMsg) :
      FileRequest ss st (later st rate ss (abortUpload u (.hangUp [msg])))
  | wrote (rate : RateLimiter) {u : Upload} {data : Bytes} {replies : List WireMessage}
      (hu : ss.upload = some u) (hsize : data.length = u.expected) (hmore : u.next + 1 ≠ u.count)
      (hquiet : ∀ p, ⟨.archiveAppendOk, p⟩ ∉ replies) :
      FileRequest ss st
        { store := st.writeChunk u data, rate := rate
          session := some { ss with upload := some (u.advance data) }, replies := replies }
  | wroteLast (rate : RateLimiter) {u : Upload} {data : Bytes} (index : UInt32)
      (hu : ss.upload = some u) (hsize : data.length = u.expected) (hlast : u.next + 1 = u.count) :
      FileRequest ss st
        (later { st.writeChunk u data with disk := (st.writeChunk u data).disk.close u.file } rate
          { ss with upload := some (u.advance data) } (.renameFile index))
  | redeemed (rate : RateLimiter) {fileId : Bytes} {tokenHash : Digest} {st' : RelayStore}
      (h : st.redeemFileToken fileId tokenHash = (.ok false, st')) :
      FileRequest ss st (answer st' rate ss ⟨.fileRedeemOk, []⟩)
  | redeemedAll (rate : RateLimiter) {fileId : Bytes} {tokenHash : Digest} {st' : RelayStore}
      (h : st.redeemFileToken fileId tokenHash = (.ok true, st')) :
      FileRequest ss st (later st' rate ss
        (.remove .bin fileId (.remove .part fileId (.reply ⟨.fileRedeemOk, []⟩))))
  | cancelled (rate : RateLimiter) {mb : Bytes} (fileId : Bytes) (hmb : ss.mailbox = some mb)
      (hfound : (st.deleteFile fileId mb).1 = true) :
      FileRequest ss st (later (st.deleteFile fileId mb).2 rate ss
        (.remove .bin fileId (.remove .part fileId (.reply ⟨.fileCancelOk, []⟩))))

theorem deleteFiles_eq_self {p : FileRow → Bool} (h : st.files.any p = false) :
    st.deleteFiles p = st := by
  have hp : ∀ f ∈ st.files, p f = false := by simpa using h
  have hfiles : (st.files.filter fun f => !p f) = st.files :=
    List.filter_eq_self.2 fun f hf => by simp [hp f hf]
  have hgone : ∀ id, (st.files.any fun f => f.id = id ∧ p f) = false := by
    intro id
    simp only [List.any_eq_false, decide_eq_true_eq, not_and]
    exact fun f hf _ => by simp [hp f hf]
  simp only [RelayStore.deleteFiles, hfiles, hgone, Bool.not_false, List.filter_true]

theorem deleteFile_store (h : (st.deleteFile fileId mb).1 = false) :
    (st.deleteFile fileId mb).2 = st := by
  unfold RelayStore.deleteFile at h ⊢
  split_ifs at h ⊢
  · exact deleteFiles_eq_self h
  · have hnone := List.filter_eq_nil_iff.2 (List.any_eq_false.1 h)
    simp only [RelayStore.endFiles, deleteFiles_eq_self h, UploadLog.end, hnone, List.map_nil,
      List.append_nil]

namespace FileRequest

theorem handleFileBegin : FileRequest ss st (handleFileBegin now ss payload st rate) := by
  refine needsMailbox_of .refused fun mb hmb => decoded_of .closed fun m _ => ?_
  split
  · exact .begins _ m now hmb ‹_›
  · exact .restarts _ m now hmb ‹_›

theorem handleFileChunk : FileRequest ss st (handleFileChunk ss payload st rate) := by
  unfold Relay.handleFileChunk
  split
  · exact .refused _ _
  · rename_i u hu
    split
    · exact .breaks _ _ hu rfl
    · rename_i m _
      simp only
      split_ifs with hbad hdisk hlast hack
      · exact .aborts _ _ hu rfl
      · exact .aborts _ _ hu rfl
      · exact .wroteLast _ _ hu (not_not.1 (not_or.1 hbad).2) hlast
      · exact .wrote _ hu (not_not.1 (not_or.1 hbad).2) hlast (by simp)
      · exact .wrote _ hu (not_not.1 (not_or.1 hbad).2) hlast (by simp)

theorem handleFileRedeem : FileRequest ss st (handleFileRedeem svc now ss payload st rate) := by
  refine decoded_of .closed fun m _ => limited_of .refused fun rate => ?_
  split <;> rename_i h
  · exact .redeemedAll _ h
  · exact .redeemed _ h
  all_goals
    obtain rfl := (redeemFileToken_spec h).kept (by simp)
    exact .refused _ _

theorem handleFileCancel : FileRequest ss st (handleFileCancel ss payload st rate) := by
  refine needsMailbox_of .refused fun mb hmb => decoded_of .closed fun fileId _ => ?_
  split_ifs with h
  · exact .cancelled _ fileId hmb h
  · rw [deleteFile_store (by simpa using h)]
    exact .refused _ _

end FileRequest

theorem redeemFileToken_filesOnly {last : Bool}
    (h : st.redeemFileToken fileId tokenHash = (.ok last, st')) : FilesOnly st st' := by
  obtain rfl := (redeemFileToken_ok h).store
  split_ifs <;> exact filesOnly_update st _ _ _ _

theorem deleteFile_filesOnly (st : RelayStore) (fileId owner : Bytes) :
    FilesOnly st (st.deleteFile fileId owner).2 := by
  unfold RelayStore.deleteFile
  split_ifs <;> exact filesOnly_update st _ _ _ _

theorem FileRequest.filesOnly {o : Outcome} (h : FileRequest ss st o) : FilesOnly st o.store := by
  cases h with
  | wrote | wroteLast => exact filesOnly_update st _ _ _ _
  | redeemed rate h | redeemedAll rate h => exact redeemFileToken_filesOnly h
  | cancelled => exact deleteFile_filesOnly st _ _
  | _ => exact .refl _

/-! ## The rest of a request -/

inductive MailRest (ss : Session) (st : RelayStore) : Outcome → Prop
  | refused (rate : RateLimiter) (text : String) : MailRest ss st (refuse st rate ss text)
  | failed (rate : RateLimiter) : MailRest ss st (fail st rate)
  | told (rate : RateLimiter) {replies : List WireMessage} :
      MailRest ss st { store := st, rate := rate, session := some ss, replies := replies }
  | gone (rate : RateLimiter) {replies : List WireMessage} :
      MailRest ss st { store := st, rate := rate, session := none, replies := replies }
  | deposited (rate : RateLimiter) {mailboxId id envelope : Bytes} {tokenHash : Digest} {at' : Time}
      {ttl : UInt32} {quota : ℕ} {st' : RelayStore} {msg : WireMessage}
      (h : st.deposit mailboxId id envelope tokenHash at' ttl quota = (.ok, st')) :
      MailRest ss st { answer st' rate ss msg with deposited := st'.envelopes.getLast? }
  | took (rate : RateLimiter) {mailboxId : Bytes} {tokenHash : Digest} {at' : Time} {perHour : ℕ}
      {r : RelayStore.PrekeyTakeResult} {st' : RelayStore} {msg : WireMessage}
      (h : st.takePrekey mailboxId tokenHash at' perHour = (r, st')) :
      MailRest ss st (answer st' rate ss msg)

theorem MailRest.mailOnly {o : Outcome} (h : MailRest ss st o) : MailOnly st o.store := by
  cases h with
  | deposited rate h =>
    obtain ⟨-, -, rfl⟩ := (deposit_spec h).done rfl
    exact ⟨⟨rfl, rfl, rfl, rfl⟩, ⟨rfl, rfl, rfl, rfl⟩⟩
  | took rate h =>
    obtain ⟨_, _, -, rfl⟩ := takePrekey_spec h
    exact ⟨⟨rfl, rfl, rfl, rfl⟩, ⟨rfl, rfl, rfl, rfl⟩⟩
  | _ => exact ⟨.refl st, .refl st⟩

inductive FileRest (ss : Session) (st : RelayStore) : Pending → Outcome → Prop
  | refused (rate : RateLimiter) (mb : Bytes) (m : FileBegin) (at' : Time) (text : String) :
      FileRest ss st (.beginFile mb m at') (refuse st rate ss text)
  | begun (rate : RateLimiter) {mb : Bytes} {m : FileBegin} {at' : Time} {quota : ℕ}
      {st' : RelayStore} (h : st.beginFile mb m at' quota = (.ok, st')) :
      FileRest ss st (.beginFile mb m at') (later st' rate ss (.openPart m st.uploads.begun))
  | notOpened (rate : RateLimiter) (m : FileBegin) (number : ℕ) (text : String) :
      FileRest ss st (.openPart m number)
        (later st rate ss (.dropFile m.fileId (.reply (errorReply text))))
  | opened (rate : RateLimiter) (m : FileBegin) (number : ℕ) :
      FileRest ss st (.openPart m number)
        (answer { st with disk := (st.disk.openPart m.fileId).2 } rate
          { ss with
            upload := some
              { id := m.fileId, count := m.chunkCount.toNat, next := 0
                chunkSize := m.chunkSize.toNat, total := m.totalSize.toNat
                file := (st.disk.openPart m.fileId).1, written := 0, number := number } }
          ⟨.fileUploadOk, []⟩)
  | noRename (rate : RateLimiter) (index : UInt32) (hu : ss.upload = none) :
      FileRest ss st (.renameFile index)
        { store := st, rate := rate, session := some ss, replies := [] }
  | notRenamed (rate : RateLimiter) {u : Upload} (index : UInt32) (text : String)
      (hu : ss.upload = some u) (h : st.disk.rename u.id = none) :
      FileRest ss st (.renameFile index)
        (later st rate ss (abortUpload u (.reply (errorReply text))))
  | renamed (rate : RateLimiter) {u : Upload} {disk : Disk} (index : UInt32)
      (hu : ss.upload = some u) (h : st.disk.rename u.id = some disk) :
      FileRest ss st (.renameFile index)
        (later { st with disk := disk } rate ss (.finishFile index))
  | noFinish (rate : RateLimiter) (index : UInt32) (hu : ss.upload = none) :
      FileRest ss st (.finishFile index)
        { store := st, rate := rate, session := some ss, replies := [] }
  | finished (rate : RateLimiter) {u : Upload} (index : UInt32) (hu : ss.upload = some u) :
      FileRest ss st (.finishFile index)
        (answer (st.confirm u) rate { ss with upload := none }
          ⟨.fileChunkOk, writeU32 (index + 1)⟩)
  | removed (rate : RateLimiter) (ending : FileEnding) (fileId : Bytes) (next : Pending) :
      FileRest ss st (.remove ending fileId next)
        (later { st with disk := st.disk.remove ending fileId } rate ss next)
  | dropped (rate : RateLimiter) (fileId : Bytes) (next : Pending) :
      FileRest ss st (.dropFile fileId next)
        (later (st.deleteFile fileId []).2 rate { ss with upload := none } next)

theorem FileRest.filesOnly {o : Outcome} (h : FileRest ss st work o) : FilesOnly st o.store := by
  cases h with
  | begun rate h =>
    obtain ⟨-, -, -, rfl⟩ := (beginFile_spec h).done rfl
    exact filesOnly_update st _ _ _ _
  | dropped => exact deleteFile_filesOnly st _ _
  | opened | renamed | finished | removed => exact filesOnly_update st _ _ _ _
  | _ => exact .refl _

/-- Work that has nothing to do with uploads and removals of files. -/
def Pending.Calm : Pending → Prop
  | .beginFile .. | .openPart .. | .renameFile _ | .finishFile _ | .remove .. | .dropFile .. => False
  | _ => True

/-- Work that a request leaves to be done on one archive. -/
inductive Pending.OnArchive (archiveId : Bytes) : Pending → Prop
  | agreement (m : ArchiveDelete) : OnArchive archiveId (.agreement archiveId m)
  | delete : OnArchive archiveId (.deleteArchive archiveId)
  | redact (hashes : List Digest) : OnArchive archiveId (.redactEntries archiveId hashes)
  | fetchEnd : OnArchive archiveId (.fetchEnd archiveId)

/-- The rest of a request: about mailboxes, about attachments, a step of a push round, or the end of a
request about an archive. -/
inductive Resumed (svc : Service) (now : Time) (ss : Session) (st : RelayStore)
    (rate : RateLimiter) : Pending → Outcome → Prop
  | mail {work : Pending} {o : Outcome} (h : MailRest ss st o) (hcalm : work.Calm) :
      Resumed svc now ss st rate work o
  | file {work : Pending} {o : Outcome} (h : FileRest ss st work o) :
      Resumed svc now ss st rate work o
  | push (collect : Bool) (batch : List EnvelopeRow) :
      Resumed svc now ss st rate (.push collect batch) (resumePush now ss st rate collect batch)
  | agreed {archiveId : Bytes} (m : ArchiveDelete) {work : Pending} (h : work.OnArchive archiveId) :
      Resumed svc now ss st rate (.agreement archiveId m) (later st rate ss work)
  | deleteArchive (archiveId : Bytes) :
      Resumed svc now ss st rate (.deleteArchive archiveId)
        (answer (st.deleteArchive archiveId) rate ss ⟨.archiveDeleteOk, []⟩)
  | redactEntries {archiveId : Bytes} {entryHashes : List Digest} {st' : RelayStore}
      (h : st.redactEntries archiveId entryHashes = (.ok, st')) :
      Resumed svc now ss st rate (.redactEntries archiveId entryHashes)
        (answer st' rate ss ⟨.archiveDeleteOk, []⟩)

/-- A step of a push round moves the session's place in the round, and the session goes on. -/
theorem resumePush_session (now : Time) (ss : Session) (st : RelayStore) (rate : RateLimiter)
    (collect : Bool) (batch : List EnvelopeRow) : ∃ lastSeq pushed pending,
      (resumePush now ss st rate collect batch).session =
        some { ss with lastSeq := lastSeq, pushed := pushed, pending := pending } ∧
      (pending = ss.pending ∨ ∃ rest, pending = some (.push collect rest)) := by
  unfold resumePush
  split
  · exact ⟨ss.lastSeq, ss.pushed, ss.pending, rfl, .inl rfl⟩
  · dsimp only
    split
    · exact ⟨ss.lastSeq, ss.pushed, ss.pending, rfl, .inl rfl⟩
    · exact ⟨ss.lastSeq, ss.pushed, _, rfl, .inr ⟨_, rfl⟩⟩
  · exact ⟨_, _, _, rfl, .inr ⟨_, rfl⟩⟩

/-- What a step of a push round leaves to be done is the rest of the round. -/
theorem resumePush_pending (hp : ss.pending = none) {collect : Bool} {batch : List EnvelopeRow}
    {ss' : Session} (h : (resumePush now ss st rate collect batch).session = some ss')
    (hwork : ss'.pending = some work) : ∃ rest, work = .push collect rest := by
  obtain ⟨lastSeq, pushed, pending, heq, hpending⟩ := resumePush_session now ss st rate collect batch
  obtain rfl := Option.some.inj (heq.symm.trans h)
  rcases hpending with hpending | ⟨rest, hrest⟩
  · exact nomatch (hpending.trans hp).symm.trans hwork
  · exact ⟨rest, Option.some.inj (hwork.symm.trans hrest)⟩

theorem resumeDeposit_rest {m : Deposit} :
    MailRest ss st (resumeDeposit svc ss st rate m tokenHash at') := by
  unfold resumeDeposit
  simp only
  split <;> rename_i h
  · exact .deposited _ h
  all_goals obtain rfl := (deposit_spec h).kept (by simp)
  · exact .refused _ _
  · exact .failed _

theorem resumeTakePrekey_rest : MailRest ss st (resumeTakePrekey svc ss st rate mb tokenHash at') := by
  unfold resumeTakePrekey
  split <;> exact .took _ ‹_›

theorem resumeSendFile_rest {m : FileDownload} :
    MailRest ss st (resumeSendFile ss st rate m) := by
  unfold resumeSendFile
  split
  · exact .refused _ _
  · exact .refused _ _
  · simp only
    split_ifs
    · exact .told _
    · exact .gone _

theorem resumeBeginFile_rest :
    FileRest ss st (.beginFile mb m at') (resumeBeginFile svc ss st rate mb m at') := by
  refine limited_of (fun _ _ => .refused _ _ _ _ _) fun rate => ?_
  split_ifs
  · exact .refused _ _ _ _ _
  · exact .refused _ _ _ _ _
  · split <;> rename_i h
    · exact .begun _ h
    all_goals
      obtain rfl := (beginFile_spec h).kept (by simp)
      exact .refused _ _ _ _ _

theorem resumeOpenPart_rest {number : ℕ} :
    FileRest ss st (.openPart m number) (resumeOpenPart ss st rate m number) := by
  unfold resumeOpenPart
  split_ifs
  · exact .notOpened _ _ _ _
  · exact .opened _ _ _

theorem resumeRename_rest {index : UInt32} :
    FileRest ss st (.renameFile index) (resumeRename ss st rate index) := by
  unfold resumeRename
  split
  · exact .noRename _ _ ‹_›
  · split
    · exact .notRenamed _ _ _ ‹_› ‹_›
    · exact .renamed _ _ ‹_› ‹_›

theorem resumeFinish_rest {index : UInt32} :
    FileRest ss st (.finishFile index) (resumeFinish ss st rate index) := by
  unfold resumeFinish
  split
  · exact .noFinish _ _ ‹_›
  · exact .finished _ _ ‹_›

theorem resume_resumed (svc : Service) (now : Time) (ss : Session) (st : RelayStore)
    (rate : RateLimiter) (work : Pending) :
    Resumed svc now { ss with pending := none } st rate work (resume svc now ss st rate work) := by
  unfold resume
  cases work with
  | agreement archiveId m =>
    simp only [resumeAgreement]
    split
    · exact .mail (.refused _ _) trivial
    · exact .mail (.refused _ _) trivial
    · refine .agreed m ?_
      cases m.scope
      · exact .delete
      · exact .redact _
  | deleteArchive archiveId => exact .deleteArchive archiveId
  | redactEntries archiveId hashes =>
    simp only
    split <;> rename_i h
    · exact .redactEntries h
    all_goals
      obtain rfl := (redactEntries_spec h).kept (by simp)
      exact .mail (.refused _ _) trivial
  | fetchEnd archiveId =>
    simp only
    split
    · exact .mail (.refused _ _) trivial
    · exact .mail (.told _) trivial
  | deposit => exact .mail resumeDeposit_rest trivial
  | push collect batch => exact .push collect batch
  | inviteList | prekeyPutOk => exact .mail (.told _) trivial
  | takePrekey => exact .mail resumeTakePrekey_rest trivial
  | beginFile => exact .file resumeBeginFile_rest
  | openPart => exact .file resumeOpenPart_rest
  | renameFile => exact .file resumeRename_rest
  | finishFile => exact .file resumeFinish_rest
  | sendFile => exact .mail resumeSendFile_rest trivial
  | remove ending fileId next => exact .file (.removed _ ending fileId next)
  | dropFile fileId next => exact .file (.dropped _ fileId next)
  | reply => exact .mail (.told _) trivial
  | hangUp => exact .mail (.gone _) trivial

/-! ## Requests about archives -/

structure ArchivesOnly (st st' : RelayStore) : Prop where
  mail : SameMail st st'
  files : SameFiles st st'

theorem ArchivesOnly.refl (st : RelayStore) : ArchivesOnly st st := ⟨.refl st, .refl st⟩

theorem archivesOnly_update (st : RelayStore) (archives : List ArchiveRow)
    (tokens : List JoinTokenRow) (keys : List ArchiveKeyRow) (entries : List EntryRow) :
    ArchivesOnly st { st with
      archives := archives, archiveJoinTokens := tokens, archiveKeys := keys
      archiveEntries := entries } :=
  ⟨⟨rfl, rfl, rfl, rfl, rfl, rfl, rfl, rfl, rfl⟩, ⟨rfl, rfl, rfl, rfl⟩⟩

inductive ArchiveRequest (svc : Service) (ss : Session) (msg : WireMessage) (st : RelayStore) :
    Outcome → Prop
  | refused (rate : RateLimiter) (text : String) (hashed : List Bytes) :
      ArchiveRequest svc ss msg st { refuse st rate ss text with hashed := hashed }
  | closed (rate : RateLimiter) (text : String) : ArchiveRequest svc ss msg st (close st rate text)
  | failed (rate : RateLimiter) (hashed : List Bytes) :
      ArchiveRequest svc ss msg st
        { store := st, rate := rate, session := none, replies := [], hashed := hashed }
  | created (rate : RateLimiter) {mb : Bytes} {m : ArchiveCreate} {now closesAt : Time} {n : ℕ}
      {st' : RelayStore} (hmb : ss.mailbox = some mb) (ht : msg.type = .archiveCreate)
      (hm : decodeArchiveCreate msg.payload = some m)
      (h : st.createArchive m.archiveId m.joinTokenHashes (svc.sha256 (archiveGenesisInput m.archiveId))
        now closesAt n = (.ok, st')) :
      ArchiveRequest svc ss msg st (answer st' rate ss ⟨.archiveCreateOk, []⟩)
  | joined (rate : RateLimiter) {archiveId publicKey : Bytes} {tokenHash keyHash : Digest}
      {now : Time} {st' : RelayStore}
      (h : st.joinArchive archiveId tokenHash keyHash publicKey now = (.ok, st')) :
      ArchiveRequest svc ss msg st (answer st' rate ss ⟨.archiveJoinOk, []⟩)
  | stale (rate : RateLimiter) {archiveId : Bytes} {keyHash : Digest} (head : ArchiveHead)
      (hashed : List Bytes) (hss : ss.archiveSession = some (archiveId, keyHash)) :
      ArchiveRequest svc ss msg st
        { store := st, rate := rate, session := some ss
          replies := [⟨.archiveStale, encodeArchiveHead head⟩], hashed := hashed }
  | appended (rate : RateLimiter) {archiveId input : Bytes} {keyHash : Digest} {m : ArchiveAppend}
      {now : Time} {head : ArchiveHead} {st' : RelayStore}
      (hss : ss.archiveSession = some (archiveId, keyHash))
      (ht : msg.type = .archiveAppend) (hm : decodeArchiveAppend msg.payload = some m)
      (hmax : m.expectedNumber ≠ 18446744073709551615)
      (hinput : input =
        archiveEntryHashInput archiveId (m.expectedNumber + 1) m.expectedHash m.ciphertext)
      (h : st.appendEntry archiveId m.expectedNumber m.expectedHash (svc.sha256 input) m.ciphertext now
        svc.limits.archiveQuotaBytes = (.ok head, st')) :
      ArchiveRequest svc ss msg st
        { store := st', rate := rate, session := some ss
          replies := [⟨.archiveAppendOk, encodeArchiveHead head⟩], hashed := [input]
          acked := some ⟨archiveId, ⟨m.expectedNumber, m.expectedHash⟩, m.ciphertext, head⟩ }
  | starts (rate : RateLimiter) {archiveId : Bytes} {keyHash : Digest} {work : Pending}
      {replies : List WireMessage} (hss : ss.archiveSession = some (archiveId, keyHash))
      (hwork : work.OnArchive archiveId) (hquiet : ∀ p, ⟨.archiveAppendOk, p⟩ ∉ replies) :
      ArchiveRequest svc ss msg st
        { store := st, rate := rate, session := some { ss with pending := some work }
          replies := replies }

namespace ArchiveRequest

theorem handleArchiveCreate (ht : msg.type = .archiveCreate) :
    ArchiveRequest svc ss msg st (handleArchiveCreate svc now ss msg.payload st rate) := by
  unfold Relay.handleArchiveCreate
  split
  · exact .refused _ _ []
  · split
    · exact .closed _ _
    · simp only
      split_ifs
      · exact .refused _ _ []
      · split <;> rename_i h
        · exact .created _ ‹_› ht ‹_› h
        all_goals
          obtain rfl := (createArchive_spec h).kept (by simp)
          exact .refused _ _ []

theorem handleArchiveJoin : ArchiveRequest svc ss msg st (handleArchiveJoin svc now ss payload st rate) := by
  unfold Relay.handleArchiveJoin
  split
  · exact .closed _ _
  · simp only
    split_ifs
    · exact .refused _ _ []
    · exact .refused _ _ []
    · exact .refused _ _ []
    · split <;> rename_i h
      · exact .joined _ h
      all_goals
        obtain rfl := (joinArchive_spec h).kept (by simp)
        exact .refused _ _ []

theorem handleArchiveAppend (ht : msg.type = .archiveAppend) :
    ArchiveRequest svc ss msg st (handleArchiveAppend svc now ss msg.payload st rate) := by
  unfold Relay.handleArchiveAppend
  split
  · exact .refused _ _ []
  · split
    · exact .closed _ _
    · simp only
      split_ifs with hmax
      · exact .closed _ _
      · exact .refused _ _ []
      · split <;> rename_i h
        · exact .appended _ ‹_› ht ‹_› hmax rfl h
        all_goals obtain rfl := (appendEntry_spec h).kept (by simp)
        · exact .stale _ _ _ ‹_›
        · exact .refused _ _ _
        · exact .refused _ _ _
        · exact .failed _ _

theorem handleArchiveDelete : ArchiveRequest svc ss msg st (handleArchiveDelete svc now ss payload st rate) := by
  unfold Relay.handleArchiveDelete
  split
  · exact .refused _ _ []
  · rename_i archiveId keyHash hss
    split
    · exact .closed _ _
    · rename_i m _
      simp only
      split_ifs
      · exact .refused _ _ []
      · exact .refused _ _ []
      · split
        · exact .refused _ _ []
        · split_ifs
          · exact .refused _ _ []
          · exact .starts _ hss (.agreement m) (by simp)

theorem handleArchiveFetch : ArchiveRequest svc ss msg st (handleArchiveFetch svc now ss payload st rate) := by
  unfold Relay.handleArchiveFetch
  split
  · exact .refused _ _ []
  · split
    · exact .closed _ _
    · simp only
      split_ifs
      · exact .refused _ _ []
      · exact .starts _ ‹_› .fetchEnd (by simp)

theorem archivesOnly {o : Outcome} (h : ArchiveRequest svc ss msg st o) : ArchivesOnly st o.store := by
  cases h with
  | created _ _ _ _ h =>
    obtain ⟨-, -, rfl⟩ := (createArchive_spec h).done rfl
    exact archivesOnly_update st _ _ _ _
  | joined _ h =>
    obtain ⟨-, rfl⟩ := (joinArchive_spec h).done rfl
    exact archivesOnly_update st _ _ _ _
  | appended _ _ _ _ _ _ h =>
    obtain ⟨_, -, -, -, -, -, rfl⟩ := (appendEntry_spec h).done ⟨_, rfl⟩
    exact archivesOnly_update st _ _ _ _
  | _ => exact .refl st

end ArchiveRequest

/-! ## Every request -/

/-- What a message does, the sign-ins and collecting spelled out. -/
inductive Request (svc : Service) (ss : Session) (msg : WireMessage) (st : RelayStore) :
    Outcome → Prop
  | mail {o : Outcome} (h : MailRequest ss st o) : Request svc ss msg st o
  | file {o : Outcome} (h : FileRequest ss st o) : Request svc ss msg st o
  | archive {o : Outcome} (h : ArchiveRequest svc ss msg st o) : Request svc ss msg st o
  | collects (ht : msg.type = .relayCollect) (rate : RateLimiter) {mb : Bytes}
      (hmb : ss.mailbox = some mb) :
      Request svc ss msg st
        (later st rate { ss with collecting := true, lastSeq := 0, pushed := [] } (.push true []))
  | signsIn (rate : RateLimiter) {m : Auth} {key : Bytes} (ht : msg.type = .relayAuth)
      (hm : decodeAuth msg.payload = some m) (hfresh : ss.challengeUsed = false)
      (hkey : st.accessKey m.mailboxId = some key)
      (hverify : svc.verify (authSigningInput ss.challenge svc.relayId m.mailboxId) m.signature key =
        true) :
      Request svc ss msg st
        (answer st rate { ss with challengeUsed := true, mailbox := some m.mailboxId, key := some key }
          ⟨.relayAuthOk, []⟩)
  | signsInToArchive (rate : RateLimiter) {m : ArchiveAuth} {key : Bytes}
      (ht : msg.type = .archiveAuth) (hm : decodeArchiveAuth msg.payload = some m)
      (hfresh : ss.challengeUsed = false)
      (hkey : st.archiveMemberKey m.archiveId m.keyHash = some key)
      (hverify : svc.verify (archiveAuthSigningInput ss.challenge svc.relayId m.archiveId m.keyHash.1)
        m.signature key = true) :
      Request svc ss msg st
        (answer st rate
          { ss with
            challengeUsed := true, archiveSession := some (m.archiveId, m.keyHash), key := some key }
          ⟨.archiveAuthOk, []⟩)

theorem handleAuth_request (ht : msg.type = .relayAuth) :
    Request svc ss msg st (handleAuth svc ss msg.payload st rate) := by
  exact handleAuth_of (.mail (.closed _ _)) (.mail (.closed _ _)) (fun _ => .mail (.closed _ _))
    fun _ _ hm hfresh hkey hverify => .signsIn _ ht hm hfresh hkey hverify

theorem handleArchiveAuth_request (ht : msg.type = .archiveAuth) :
    Request svc ss msg st (handleArchiveAuth svc ss msg.payload st rate) := by
  exact handleArchiveAuth_of (.mail (.closed _ _)) (.mail (.closed _ _)) (fun _ => .mail (.closed _ _))
    fun _ _ hm hfresh hkey hverify => .signsInToArchive _ ht hm hfresh hkey hverify

theorem handleMessage_request (svc : Service) (now : Time) (ss : Session) (msg : WireMessage)
    (st : RelayStore) (rate : RateLimiter) :
    Request svc ss msg st (handleMessage svc now ss msg st rate) := by
  unfold handleMessage
  split <;> rename_i ht
  · exact .mail (.told _ (by simp))
  · exact .mail .handleRegister
  · exact handleAuth_request ht
  · exact .mail .handleDeposit
  · exact needsMailbox_of (P := Request svc ss msg st) (fun _ _ => .mail (.refused _ _))
      fun _ hmb => .collects ht _ hmb
  · exact .mail (.of_own .handleAck)
  · exact .mail (.of_own .handleInviteCreate)
  · exact .archive (.handleArchiveCreate ht)
  · exact .archive .handleArchiveJoin
  · exact handleArchiveAuth_request ht
  · exact .archive (.handleArchiveAppend ht)
  · exact .archive .handleArchiveDelete
  · exact .archive .handleArchiveFetch
  · exact .mail (.of_own .handlePrekeyPut)
  · exact .mail .handlePrekeyTake
  · exact .mail (.of_own .handlePrekeyStatus)
  · exact .file .handleFileBegin
  · exact .file .handleFileChunk
  · exact .mail .handleFileDownload
  · exact .file .handleFileRedeem
  · exact .file .handleFileCancel
  · exact .mail (.of_own .handleFileStatus)
  · exact .mail (.of_own .handleKeyringPut)
  · exact .mail (.of_own .handleKeyringGet)
  · exact .mail (.of_own .handleInviteList)
  · exact .mail (.of_own .handleInviteCancel)
  · exact .mail (.of_own .handleTokenAdd)
  · exact .mail (.of_own .handleTokenRevoke)
  · exact .mail (.closed _ _)

end PqSuite.Relay
