import PqSuite.Server.SignIn

/-!
# Sessions whose key is gone

A session keeps the mailbox or archive it signed in to and never looks at the tables again. While no
mailbox is removed under an open session, and no archive is made again under a session that was signed in
to its predecessor, the key a session signed in with is registered whenever one of its requests takes
effect.
-/

namespace PqSuite.Relay

open Reach

variable {svc : Service} {now : Time} {ss ss' : Session} {msg : WireMessage} {st st' : RelayStore}
  {rate : RateLimiter} {w w' : World} {i : ℕ} {new : Option Bytes} {archiveId : Bytes} {o : Outcome}
  {work : Pending} {hashes : List Digest} {e : Event}

/-! ## What happens to the keys of archives -/

def RelayStore.Linked (st : RelayStore) : Prop :=
  ∀ e ∈ st.archiveEntries, (st.findArchive e.archiveId).isSome

/-- Only the archive `new` comes into being; a registered key stays registered as long as its archive
is there; and no entry is left behind. -/
structure KeyStep (new : Option Bytes) (st st' : RelayStore) : Prop where
  gone : ∀ id, new ≠ some id → st.findArchive id = none → st'.findArchive id = none
  keys : ∀ id keyHash key, st.archiveMemberKey id keyHash = some key →
    st'.findArchive id = none ∨ st'.archiveMemberKey id keyHash = some key
  linked : st.Linked → st'.Linked

theorem KeyStep.of_same {st'' : RelayStore} (hsame : SameArchives st st') (h : KeyStep new st' st'') :
    KeyStep new st st'' := by
  have hfind : ∀ id, st'.findArchive id = st.findArchive id := fun id => by
    rw [RelayStore.findArchive, RelayStore.findArchive, hsame.archives]
  refine ⟨fun id hne hnone => h.gone id hne ((hfind id).trans hnone),
    fun id keyHash key hkey => h.keys id keyHash key ?_, fun hl => h.linked fun e he => ?_⟩
  · rwa [RelayStore.archiveMemberKey, RelayStore.keysOf, hsame.keys]
  · rw [hfind]
    exact hl e (hsame.entries ▸ he)

theorem SameArchives.keyStep (h : SameArchives st st') : KeyStep new st st' :=
  .of_same h ⟨fun _ _ hnone => hnone, fun _ _ _ hkey => .inr hkey, id⟩

theorem keyStep_createArchive {genesis : Digest} {closesAt : Time} {n : ℕ}
    (h : st.createArchive archiveId hashes genesis now closesAt n = (.ok, st')) :
    st.findArchive archiveId = none ∧ KeyStep (some archiveId) st st' := by
  obtain ⟨hnew, -, rfl⟩ := (createArchive_spec h).done rfl
  refine ⟨hnew, fun id hne hnone => ?_, fun id keyHash key hkey => .inr hkey,
    fun hl e he => ?_⟩
  · refine Rows.lookup_eq_none.2 fun a ha => ?_
    rcases List.mem_append.1 ha with ha | ha
    · exact Rows.lookup_eq_none.1 hnone a ha
    · rw [List.mem_singleton.1 ha]
      exact fun h => hne (congrArg some h)
  · obtain ⟨a, ha, hid⟩ := findArchive_isSome.1 (hl e he)
    exact findArchive_isSome.2 ⟨a, List.mem_append_left _ ha, hid⟩

theorem keyStep_joinArchive {publicKey : Bytes} {tokenHash keyHash : Digest}
    (h : st.joinArchive archiveId tokenHash keyHash publicKey now = (.ok, st')) :
    KeyStep new st st' := by
  obtain ⟨-, rfl⟩ := (joinArchive_spec h).done rfl
  refine ⟨fun id _ hnone => hnone, fun id keyHash key hkey => .inr ?_, fun hl e he => hl e he⟩
  unfold RelayStore.archiveMemberKey RelayStore.keysOf at hkey ⊢
  obtain ⟨row, hrow, rfl⟩ := Option.map_eq_some_iff.1 hkey
  rw [List.filter_append, List.find?_append, hrow]
  rfl

/-- Archives and entries are updated in place, and an entry of an archive that exists may come. -/
theorem keyStep_update {f : ArchiveRow → ArchiveRow} {archives : List ArchiveRow}
    {entries : List EntryRow} (harch : archives = st.archives.map f) (hf : ∀ a, (f a).id = a.id)
    (hentries : ∀ e ∈ entries, (∃ e' ∈ st.archiveEntries, e.archiveId = e'.archiveId) ∨
      (st.findArchive e.archiveId).isSome) :
    KeyStep new st { st with archives := archives, archiveEntries := entries } := by
  subst harch
  have hfind : ∀ id, RelayStore.findArchive
      { st with archives := st.archives.map f, archiveEntries := entries } id =
        (st.findArchive id).map f := fun id => Rows.lookup_map hf id st.archives
  refine ⟨fun id _ hnone => by rw [hfind, hnone]; rfl, fun id keyHash key hkey => .inr hkey,
    fun hl e he => ?_⟩
  rw [hfind, Option.isSome_map]
  rcases hentries e he with ⟨e', he', hid⟩ | hsome
  · exact hid ▸ hl e' he'
  · exact hsome

theorem keyStep_appendEntry {ciphertext : Bytes} {number : UInt64} {expectedHash newHash : Digest}
    {quota : ℕ} {head : ArchiveHead}
    (h : st.appendEntry archiveId number expectedHash newHash ciphertext now quota = (.ok head, st')) :
    KeyStep new st st' := by
  obtain ⟨a, ha, -, -, -, -, rfl⟩ := (appendEntry_spec h).done ⟨_, rfl⟩
  refine keyStep_update rfl (fun a => by split_ifs <;> rfl) fun e he => ?_
  rcases List.mem_append.1 he with he | he
  · exact .inl ⟨e, he, rfl⟩
  · right
    rw [List.mem_singleton.1 he]
    exact ha ▸ rfl

/-- Redaction empties entries in place: it keeps whatever does not depend on their contents. -/
theorem redactLoop_map {β : Type} {f : EntryRow → β}
    (hf : ∀ e, f { e with ciphertext := [], redacted := true } = f e) {es es' : List EntryRow}
    {freed freed' : ℕ} (h : RelayStore.redactLoop archiveId hashes es freed = some (freed', es')) :
    es'.map f = es.map f := by
  induction hashes generalizing es freed with
  | nil =>
    obtain ⟨-, rfl⟩ := Prod.mk.inj (Option.some.inj h)
    rfl
  | cons hash hashes ih =>
    simp only [RelayStore.redactLoop] at h
    split at h
    · cases h
    · rename_i size es₁ hone
      unfold RelayStore.redactOne at hone
      obtain ⟨found, -, hone⟩ := Option.map_eq_some_iff.1 hone
      obtain ⟨-, rfl⟩ := Prod.mk.inj hone
      rw [ih h, List.map_map]
      refine List.map_congr_left fun e _ => ?_
      rw [Function.comp_apply]
      split_ifs
      · exact hf e
      · rfl

theorem redactLoop_archiveIds {es es' : List EntryRow} {freed freed' : ℕ}
    (h : RelayStore.redactLoop archiveId hashes es freed = some (freed', es')) {e : EntryRow}
    (he : e ∈ es') : ∃ e₀ ∈ es, e.archiveId = e₀.archiveId := by
  have hmem : e.archiveId ∈ es'.map (·.archiveId) := List.mem_map_of_mem he
  rw [redactLoop_map (fun _ => rfl) h] at hmem
  obtain ⟨e₀, he₀, hid⟩ := List.mem_map.1 hmem
  exact ⟨e₀, he₀, hid.symm⟩

theorem keyStep_redactEntries (h : st.redactEntries archiveId hashes = (.ok, st')) :
    KeyStep new st st' := by
  obtain ⟨-, _, _, hloop, rfl⟩ := (redactEntries_spec h).done rfl
  exact keyStep_update rfl (fun a => by split_ifs <;> rfl) fun e he =>
    .inl (redactLoop_archiveIds hloop he)

theorem keyStep_deleteArchives {p : ArchiveRow → Bool}
    (hp : ∀ id keyHash key, st.archiveMemberKey id keyHash = some key →
      (∀ a ∈ st.archives, a.id = id → p a = true) ∨ ∀ a ∈ st.archives, a.id = id → p a = false) :
    KeyStep new st (st.deleteArchives p) := by
  refine ⟨fun id _ hnone => Rows.lookup_eq_none.2 fun a ha => ?_, fun id keyHash key hkey => ?_,
    fun hl e he => ?_⟩
  · exact Rows.lookup_eq_none.1 hnone a (mem_archives_deleteArchives.1 ha).1
  · rcases hp id keyHash key hkey with hall | hnone
    · refine .inl (Rows.lookup_eq_none.2 fun a ha hid => ?_)
      obtain ⟨ha, hpa⟩ := mem_archives_deleteArchives.1 ha
      exact Bool.false_ne_true (hpa.symm.trans (hall a ha hid))
    · right
      have hkeys : (st.deleteArchives p).keysOf id = st.keysOf id := by
        refine filter_filter_of_imp fun k hk => ?_
        have hid : k.archiveId = id := by simpa using hk
        simpa [hid] using hnone
      rwa [RelayStore.archiveMemberKey, hkeys]
  · obtain ⟨he, hkept⟩ := mem_entries_deleteArchives.1 he
    obtain ⟨a, ha, hid⟩ := findArchive_isSome.1 (hl e he)
    exact findArchive_isSome.2 ⟨a, mem_archives_deleteArchives.2 ⟨ha, hkept a ha hid⟩, hid⟩

theorem keyStep_deleteArchive (archiveId : Bytes) : KeyStep new st (st.deleteArchive archiveId) := by
  refine keyStep_deleteArchives fun id keyHash key _ => ?_
  by_cases hid : id = archiveId
  · exact .inl fun a _ ha => decide_eq_true (ha.trans hid)
  · exact .inr fun a _ ha => decide_eq_false fun h => hid (ha.symm.trans h)

/-- An archive that somebody has joined is not swept. -/
theorem keyStep_sweepArchives : KeyStep new st (st.sweepArchives now) := by
  refine keyStep_deleteArchives fun id keyHash key hkey => .inr fun a ha hid => ?_
  obtain ⟨k, hk, -⟩ := Option.map_eq_some_iff.1 hkey
  have hmem := List.mem_filter.1 (List.mem_of_find?_eq_some hk)
  have hany : st.archiveKeys.any (·.archiveId = a.id) = true :=
    List.any_eq_true.2 ⟨k, hmem.1, by rw [hid]; exact hmem.2⟩
  simp [hany]

theorem keyStep_sweep : KeyStep new st (st.sweep now) := by
  have hsame : SameArchives st { st with
      envelopes := st.envelopes.filter fun e => now < e.expiresAt
      invites := st.invites.filter fun r => now < r.expiresAt } := ⟨rfl, rfl, rfl, rfl⟩
  exact .of_same hsame keyStep_sweepArchives

/-! ## What a request does to the keys -/

/-- The access key of a mailbox that exists stays what it is. -/
def SameAccess (st st' : RelayStore) : Prop :=
  ∀ mb key, st.accessKey mb = some key → st'.accessKey mb = some key

theorem SameAccess.of_eq (h : st'.mailboxes = st.mailboxes) : SameAccess st st' := fun mb key hkey => by
  rwa [RelayStore.accessKey, h]

theorem SameAccess.of_append {rows : List MailboxRow} (h : st'.mailboxes = st.mailboxes ++ rows) :
    SameAccess st st' := by
  intro mb key hkey
  obtain ⟨row, hrow, rfl⟩ := Option.map_eq_some_iff.1 hkey
  rw [RelayStore.accessKey, h, Rows.lookup_append hrow]
  rfl

theorem MailRequest.sameAccess (h : MailRequest ss st o) : SameAccess st o.store := by
  cases h with
  | registered rate h =>
    obtain ⟨_, -, -, -, _, rfl⟩ := (registerMailbox_spec h).done rfl
    exact .of_append rfl
  | own rate up work hmb hcall => exact .of_eq hcall.confined.mailboxes
  | _ => exact .of_eq rfl

theorem Request.sameAccess (h : Request svc ss msg st o) : SameAccess st o.store := by
  cases h with
  | mail h => exact h.sameAccess
  | file h => exact .of_eq h.filesOnly.mail.mailboxes
  | archive h => exact .of_eq h.archivesOnly.mail.mailboxes
  | _ => exact .of_eq rfl

/-- The message makes an archive with this ID. -/
def Makes (msg : WireMessage) (archiveId : Bytes) : Prop :=
  ∃ m, msg.type = .archiveCreate ∧ decodeArchiveCreate msg.payload = some m ∧ m.archiveId = archiveId

theorem Request.keyStep (h : Request svc ss msg st o) :
    KeyStep none st o.store ∨ ∃ archiveId, Makes msg archiveId ∧ st.findArchive archiveId = none ∧
      KeyStep (some archiveId) st o.store := by
  cases h with
  | mail h => exact .inl h.mailOnly.archives.keyStep
  | file h => exact .inl h.filesOnly.archives.keyStep
  | archive h =>
    cases h with
    | @created rate mb m _ _ _ _ hmb ht hm h =>
      obtain ⟨hnone, hstep⟩ := keyStep_createArchive h
      exact .inr ⟨m.archiveId, ⟨m, ht, hm, rfl⟩, hnone, hstep⟩
    | joined rate h => exact .inl (keyStep_joinArchive h)
    | appended rate hss ht hm hmax hinput h => exact .inl (keyStep_appendEntry h)
    | _ => exact .inl (SameArchives.refl st).keyStep
  | _ => exact .inl (SameArchives.refl st).keyStep

theorem Resumed.sameAccess (h : Resumed svc now ss st rate work o) : SameAccess st o.store := by
  cases h with
  | mail h =>
    cases h with
    | deposited rate h =>
      obtain ⟨-, -, rfl⟩ := (deposit_spec h).done rfl
      exact .of_eq rfl
    | took rate h =>
      obtain ⟨_, _, -, rfl⟩ := takePrekey_spec h
      exact .of_eq rfl
    | _ => exact .of_eq rfl
  | file h => exact .of_eq h.filesOnly.mail.mailboxes
  | push collect batch => exact .of_eq (by rw [(resumePush_store now ss st rate collect batch).1])
  | agreed | deleteArchive => exact .of_eq rfl
  | redactEntries h =>
    obtain ⟨-, _, _, -, rfl⟩ := (redactEntries_spec h).done rfl
    exact .of_eq rfl

theorem Resumed.keyStep (h : Resumed svc now ss st rate work o) : KeyStep new st o.store := by
  cases h with
  | mail h => exact h.mailOnly.archives.keyStep
  | file h => exact h.filesOnly.archives.keyStep
  | push collect batch =>
    rw [(resumePush_store now ss st rate collect batch).1]
    exact (SameArchives.refl st).keyStep
  | agreed => exact (SameArchives.refl st).keyStep
  | deleteArchive archiveId => exact keyStep_deleteArchive archiveId
  | redactEntries h => exact keyStep_redactEntries h

/-! ## What a session stands for -/

/-- Work on an archive is on the one the session signed in to, and an upload begins in a session that
signed in to a mailbox. -/
def Pending.For (ss : Session) : Pending → Prop
  | .agreement id _ | .deleteArchive id | .redactEntries id _ | .fetchEnd id =>
    ∃ keyHash, ss.archiveSession = some (id, keyHash)
  | .beginFile .. | .openPart .. => ss.mailbox.isSome
  | .remove _ _ next | .dropFile _ next => next.For ss
  | _ => True

theorem Pending.For.of_same (h : work.For ss) (hsame : SameSignIn ss ss') : work.For ss' := by
  induction work with
  | agreement | deleteArchive | redactEntries | fetchEnd =>
    obtain ⟨keyHash, h⟩ := h
    exact ⟨keyHash, hsame.archive.trans h⟩
  | beginFile | openPart =>
    rw [For, hsame.mailbox]
    exact h
  | remove _ _ _ ih | dropFile _ _ ih => exact ih h
  | _ => trivial

/-- A session signed in once, with a key that is still registered, unless it signed in to an archive that
is gone. -/
structure Session.Stands (ss : Session) (st : RelayStore) : Prop where
  used : ss.mailbox.isSome ∨ ss.archiveSession.isSome → ss.challengeUsed = true
  one : ss.mailbox = none ∨ ss.archiveSession = none
  mailbox : ∀ mb, ss.mailbox = some mb → ∃ key, ss.key = some key ∧ st.accessKey mb = some key
  archive : ∀ id keyHash, ss.archiveSession = some (id, keyHash) → st.findArchive id = none ∨
    ∃ key, ss.key = some key ∧ st.archiveMemberKey id keyHash = some key
  upload : ss.upload.isSome → ss.mailbox.isSome
  work : ∀ work, ss.pending = some work → work.For ss

theorem Session.Stands.of_same (h : ss.Stands st) (hsame : SameSignIn ss ss')
    (hupload : ss'.upload.isSome → ss.mailbox.isSome)
    (hwork : ∀ work, ss'.pending = some work → work.For ss) : ss'.Stands st := by
  refine ⟨?_, ?_, ?_, ?_, ?_, fun work hw => (hwork work hw).of_same hsame⟩
  · rw [hsame.mailbox, hsame.archive, hsame.used]
    exact h.used
  · rw [hsame.mailbox, hsame.archive]
    exact h.one
  · rw [hsame.mailbox, hsame.key]
    exact h.mailbox
  · rw [hsame.archive, hsame.key]
    exact h.archive
  · rw [hsame.mailbox]
    exact hupload

/-- The tables change, but no archive is made that the session was signed in to before. -/
theorem Session.Stands.frame (h : ss.Stands st)
    (haccess : ∀ mb key, ss.mailbox = some mb → st.accessKey mb = some key →
      st'.accessKey mb = some key) (hkeys : KeyStep new st st')
    (hnew : ∀ id keyHash, ss.archiveSession = some (id, keyHash) → new ≠ some id) : ss.Stands st' := by
  refine ⟨h.used, h.one, fun mb hmb => ?_, fun id keyHash hss => ?_, h.upload, h.work⟩
  · obtain ⟨key, hk, hkey⟩ := h.mailbox mb hmb
    exact ⟨key, hk, haccess mb key hmb hkey⟩
  · rcases h.archive id keyHash hss with hnone | ⟨key, hk, hkey⟩
    · exact .inl (hkeys.gone id (hnew id keyHash hss) hnone)
    · exact (hkeys.keys id keyHash key hkey).imp_right fun hkey => ⟨key, hk, hkey⟩

theorem Pending.Light.for (h : work.Light) (ss : Session) : work.For ss := by
  cases work <;> trivial

theorem MailRequest.upload_isSome (h : MailRequest ss st o) (ho : o.session = some ss')
    (hu : ss'.upload.isSome) : ss.upload.isSome := by
  cases h with
  | closed | failed => exact nomatch ho
  | _ =>
    obtain rfl := Option.some.inj ho
    exact hu

theorem ArchiveRequest.upload_isSome (h : ArchiveRequest svc ss msg st o) (ho : o.session = some ss')
    (hu : ss'.upload.isSome) : ss.upload.isSome := by
  cases h with
  | closed | failed => exact nomatch ho
  | _ =>
    obtain rfl := Option.some.inj ho
    exact hu

theorem FileRequest.upload_isSome (h : FileRequest ss st o) (ho : o.session = some ss')
    (hu : ss'.upload.isSome) : ss.upload.isSome := by
  cases h with
  | closed => exact nomatch ho
  | wrote rate hu' | wroteLast rate index hu' => exact Option.isSome_of_eq_some hu'
  | _ =>
    obtain rfl := Option.some.inj ho
    exact hu

theorem Request.stands (h : Request svc ss msg st o) (hss : ss.Stands st) (hp : ss.pending = none)
    (ho : o.session = some ss') : ss'.Stands st := by
  have hidle : ∀ {ss' ss'' : Session}, ss'.pending = ss.pending → ∀ work, ss'.pending = some work →
      work.For ss'' := fun heq work hw => by
    rw [heq, hp] at hw
    exact nomatch hw
  cases h with
  | mail h =>
    refine hss.of_same (h.sameSignIn ho) (hss.upload ∘ h.upload_isSome ho) fun work hw => ?_
    cases h with
    | closed | failed => exact nomatch ho
    | starts rate hlight =>
      obtain rfl := Option.some.inj ho
      exact Option.some.inj hw ▸ hlight.for ss
    | own rate up pend hmb hcall hlight =>
      obtain rfl := Option.some.inj ho
      rcases hlight with rfl | ⟨light, rfl, hlight⟩
      · exact hidle rfl work hw
      · exact Option.some.inj hw ▸ hlight.for ss
    | _ =>
      obtain rfl := Option.some.inj ho
      exact hidle rfl work hw
  | file h =>
    refine hss.of_same (h.sameSignIn ho) (hss.upload ∘ h.upload_isSome ho) fun work hw => ?_
    cases h with
    | closed => exact nomatch ho
    | refused | wrote | redeemed =>
      obtain rfl := Option.some.inj ho
      exact hidle rfl work hw
    | begins rate m now hmb | restarts rate m now hmb =>
      obtain rfl := Option.some.inj ho
      obtain rfl := Option.some.inj hw
      exact Option.isSome_of_eq_some hmb
    | _ =>
      obtain rfl := Option.some.inj ho
      exact Option.some.inj hw ▸ trivial
  | archive h =>
    refine hss.of_same (h.sameSignIn ho) (hss.upload ∘ h.upload_isSome ho) fun work hw => ?_
    cases h with
    | closed | failed => exact nomatch ho
    | starts rate hsession hwork =>
      obtain rfl := Option.some.inj ho
      obtain rfl := Option.some.inj hw
      cases hwork <;> exact ⟨_, hsession⟩
    | _ =>
      obtain rfl := Option.some.inj ho
      exact hidle rfl work hw
  | collects =>
    obtain rfl := Option.some.inj ho
    refine hss.of_same ⟨rfl, rfl, rfl, rfl, rfl⟩ hss.upload fun work hw => ?_
    exact Option.some.inj hw ▸ trivial
  | @signsIn rate m key ht hm hfresh hkey =>
    have hnone : ss.mailbox = none ∧ ss.archiveSession = none := by
      have := mt hss.used (by simp [hfresh])
      simpa using this
    obtain rfl := Option.some.inj ho
    refine ⟨fun _ => rfl, .inr hnone.2, fun mb hmb => ⟨key, rfl, Option.some.inj hmb ▸ hkey⟩,
      fun id keyHash hsession => ?_, fun _ => rfl, hidle rfl⟩
    exact nomatch hnone.2.symm.trans hsession
  | @signsInToArchive rate m key ht hm hfresh hkey =>
    have hnone : ss.mailbox = none ∧ ss.archiveSession = none := by
      have := mt hss.used (by simp [hfresh])
      simpa using this
    obtain rfl := Option.some.inj ho
    refine ⟨fun _ => rfl, .inl hnone.1, (fun mb hmb => nomatch hnone.1.symm.trans hmb),
      fun id keyHash hsession => .inr ⟨key, rfl, ?_⟩, hss.upload, hidle rfl⟩
    obtain ⟨rfl, rfl⟩ := Prod.mk.inj (Option.some.inj hsession)
    exact hkey

theorem resumePush_upload {collect : Bool} {batch : List EnvelopeRow}
    (ho : (resumePush now ss st rate collect batch).session = some ss') : ss'.upload = ss.upload := by
  obtain ⟨_, _, _, heq, -⟩ := resumePush_session now ss st rate collect batch
  exact Option.some.inj (heq.symm.trans ho) ▸ rfl

theorem resume_stands (hss : ss.Stands st) (hp : ss.pending = some work)
    (ho : (resume svc now ss st rate work).session = some ss') : ss'.Stands st := by
  have hsame := resume_sameSignIn ho
  have hwork := hss.work work hp
  have h := resume_resumed svc now ss st rate work
  generalize resume svc now ss st rate work = o at h ho
  have hupload : ss'.upload.isSome → ss.mailbox.isSome := by
    intro hu
    cases h with
    | mail h =>
      obtain rfl := h.session_eq ho
      exact hss.upload hu
    | file h =>
      cases h with
      | opened => exact hwork
      | finished | dropped =>
        obtain rfl := Option.some.inj ho
        exact nomatch hu
      | _ =>
        obtain rfl := Option.some.inj ho
        exact hss.upload hu
    | push collect batch =>
      rw [resumePush_upload ho] at hu
      exact hss.upload hu
    | agreed | deleteArchive | redactEntries =>
      obtain rfl := Option.some.inj ho
      exact hss.upload hu
  refine hss.of_same hsame hupload fun work' hw => ?_
  cases h with
  | mail h =>
    obtain rfl := h.session_eq ho
    exact nomatch hw
  | file h =>
    cases h with
    | removed | dropped =>
      obtain rfl := Option.some.inj ho
      exact Option.some.inj hw ▸ hwork
    | begun =>
      obtain rfl := Option.some.inj ho
      exact Option.some.inj hw ▸ hwork
    | notOpened | notRenamed | renamed =>
      obtain rfl := Option.some.inj ho
      exact Option.some.inj hw ▸ trivial
    | _ =>
      obtain rfl := Option.some.inj ho
      exact nomatch hw
  | push collect batch =>
    obtain ⟨rest, rfl⟩ := resumePush_pending rfl ho hw
    trivial
  | agreed m hon =>
    obtain rfl := Option.some.inj ho
    obtain rfl := Option.some.inj hw
    cases hon <;> exact hwork
  | deleteArchive | redactEntries =>
    obtain rfl := Option.some.inj ho
    exact nomatch hw

theorem Session.leave_stands (hss : ss.Stands st) (h : ss.leave = some ss') : ss'.Stands st := by
  have hsame : SameSignIn ss ss' := .leave h
  unfold Session.leave at h
  obtain ⟨u, -, rfl⟩ := Option.map_eq_some_iff.1 h
  exact hss.of_same hsame hss.upload fun work hw => Option.some.inj hw ▸ trivial

/-! ## Runs -/

/-- A mailbox is removed only while no session is signed in to it, and an archive is made only while no
session is signed in to an earlier one with its ID. -/
def World.KeySafe (w : World) : Event → Prop
  | .removeMailbox mb => ∀ i ss, w.sessions i = some ss → ss.mailbox ≠ some mb
  | .message _ _ msg => ∀ id, Makes msg id → w.store.findArchive id = none →
      ∀ i ss keyHash, w.sessions i = some ss → ss.archiveSession ≠ some (id, keyHash)
  | _ => True

/-- No entry is left of an archive that is gone, and every session stands. -/
structure World.Stands (w : World) : Prop where
  linked : w.store.Linked
  sessions : ∀ i ss, w.sessions i = some ss → ss.Stands w.store

theorem Request.sameSignIn (h : Request svc ss msg st o) (ht : msg.type = .archiveCreate)
    (ho : o.session = some ss') : SameSignIn ss ss' := by
  cases h with
  | mail h | file h | archive h => exact h.sameSignIn ho
  | collects => exact Option.some.inj ho ▸ ⟨rfl, rfl, rfl, rfl, rfl⟩
  | signsIn rate ht' | signsInToArchive rate ht' => exact nomatch ht'.symm.trans ht

theorem World.Stands.apply (hw : w.Stands) (hi : w.sessions i = some ss)
    (ho : ∀ ss', o.session = some ss' → ss'.Stands w.store) (haccess : SameAccess w.store o.store)
    (hkeys : KeyStep new w.store o.store)
    (hnew : ∀ j ss', (w.apply i o).sessions j = some ss' → ∀ id keyHash,
      ss'.archiveSession = some (id, keyHash) → new ≠ some id) : (w.apply i o).Stands := by
  refine ⟨hkeys.linked hw.linked, fun j ss' hj => ?_⟩
  have hold : ss'.Stands w.store := by
    by_cases hij : j = i
    · subst hij
      rw [World.sessions_apply, hi] at hj
      rcases World.nextSession_cases hj with hj | ⟨-, hj⟩
      · exact ho ss' hj
      · exact Session.leave_stands (hw.sessions _ ss hi) hj
    · rw [World.sessions_apply_of_ne w hij] at hj
      exact hw.sessions j ss' hj
  exact hold.frame (fun mb key _ => haccess mb key) hkeys (hnew j ss' hj)

/-- Events that are not requests leave the mailboxes alone, but for the operator's removal. -/
theorem World.mailboxes_step_other (svc : Service) (w : World) (he : ∀ i now msg, e ≠ .message i now msg)
    (he' : ∀ i now, e ≠ .resume i now) (hremove : ∀ mb, e ≠ .removeMailbox mb) :
    (w.step svc e).store.mailboxes = w.store.mailboxes := by
  cases e with
  | message => exact absurd rfl (he _ _ _)
  | resume => exact absurd rfl (he' _ _)
  | removeMailbox => exact absurd rfl (hremove _)
  | connect | disconnect | sweepFiles | sweepOrphan =>
    simp only [World.step]
    repeat' split
    all_goals rfl
  | createInvite =>
    simp only [World.step, RelayStore.addInvite]
    split <;> rfl
  | sweepNext =>
    simp only [World.step, World.sweepNext]
    split <;> rfl
  | _ => rfl

theorem accessKey_deleteMailbox {mb mb' : Bytes} (hne : mb ≠ mb') :
    (st.deleteMailbox mb').accessKey mb = st.accessKey mb := by
  unfold RelayStore.accessKey
  congr 1
  refine lookup_congr (filter_filter_of_imp fun r hr => ?_)
  have : r.id = mb := by simpa using hr
  simp [this, hne]

theorem World.keyStep_other (he : ∀ i now msg, e ≠ .message i now msg) (he' : ∀ i now, e ≠ .resume i now) :
    KeyStep new w.store (w.step svc e).store := by
  by_cases hq : e.quiet = true
  · exact (World.step_quiet hq).1.keyStep
  · cases e with
    | message => exact absurd rfl (he _ _ _)
    | resume => exact absurd rfl (he' _ _)
    | sweep => exact keyStep_sweep
    | _ => exact absurd rfl hq

theorem World.Stands.sessions_other (hw : w.Stands) (he : ∀ i now msg, e ≠ .message i now msg)
    (he' : ∀ i now, e ≠ .resume i now) (hi : (w.step svc e).sessions i = some ss') :
    ss'.Stands w.store := by
  cases World.session_step hi with
  | same hss => exact hw.sessions i ss' hss
  | connect =>
    exact ⟨by simp, .inl rfl, (fun _ h => nomatch h), (fun _ _ h => nomatch h), (fun h => nomatch h),
      fun _ h => nomatch h⟩
  | message => exact absurd rfl (he _ _ _)
  | resume => exact absurd rfl (he' _ _)
  | draw random hss =>
    have h := hw.sessions i _ hss
    exact h.of_same ⟨rfl, rfl, rfl, rfl, rfl⟩ h.upload h.work
  | poll hss =>
    have h := hw.sessions i _ hss
    exact h.of_same ⟨rfl, rfl, rfl, rfl, rfl⟩ h.upload fun work hw => Option.some.inj hw ▸ trivial
  | leave hss hleave => exact Session.leave_stands (hw.sessions i _ hss) hleave

theorem World.Stands.step (hw : w.Stands) (hsafe : w.KeySafe e) : (w.step svc e).Stands := by
  by_cases hmsg : ∃ i now msg, e = .message i now msg
  · obtain ⟨i, now, msg, rfl⟩ := hmsg
    refine World.message_rule (P := World.Stands) hw fun ss hss hp => ?_
    have hreq := handleMessage_request svc now ss msg w.store w.rate
    have ho : ∀ ss', (handleMessage svc now ss msg w.store w.rate).session = some ss' →
        ss'.Stands w.store := fun ss' ho => hreq.stands (hw.sessions i ss hss) hp ho
    rcases hreq.keyStep with hkeys | ⟨id, hmakes, hnone, hkeys⟩
    · exact hw.apply hss ho hreq.sameAccess hkeys fun _ _ _ _ _ _ h => by cases h
    · refine hw.apply hss ho hreq.sameAccess hkeys fun j ss' hj id' keyHash hsession heq => ?_
      obtain rfl := Option.some.inj heq
      by_cases hij : j = i
      · subst hij
        rw [World.sessions_apply, hss] at hj
        have hsame : SameSignIn ss ss' := by
          obtain ⟨m, ht, -⟩ := hmakes
          rcases World.nextSession_cases hj with hj | ⟨-, hj⟩
          · exact hreq.sameSignIn ht hj
          · exact .leave hj
        exact hsafe _ hmakes hnone _ ss keyHash hss (hsame.archive ▸ hsession)
      · rw [World.sessions_apply_of_ne w hij] at hj
        exact hsafe _ hmakes hnone j ss' keyHash hj hsession
  by_cases hres : ∃ i now, e = .resume i now
  · obtain ⟨i, now, rfl⟩ := hres
    refine World.resume_rule (P := World.Stands) hw fun ss work hss hp => ?_
    have hres := resume_resumed svc now ss w.store w.rate work
    exact hw.apply hss (fun ss' ho => resume_stands (hw.sessions i ss hss) hp ho) hres.sameAccess
      (hres.keyStep : KeyStep none _ _) fun _ _ _ _ _ _ h => by cases h
  have hmsg' : ∀ i now msg, e ≠ .message i now msg := fun i now msg he => hmsg ⟨i, now, msg, he⟩
  have hres' : ∀ i now, e ≠ .resume i now := fun i now he => hres ⟨i, now, he⟩
  have hkeys : KeyStep none w.store (w.step svc e).store := World.keyStep_other hmsg' hres'
  refine ⟨hkeys.linked hw.linked, fun j ss' hj => ?_⟩
  refine (hw.sessions_other hmsg' hres' hj).frame (fun mb key hmb hkey => ?_) hkeys
    fun _ _ _ h => by cases h
  by_cases hremove : ∃ mb, e = .removeMailbox mb
  · obtain ⟨mb', rfl⟩ := hremove
    have hne : mb ≠ mb' := fun h => hsafe j ss' hj (h ▸ hmb)
    exact (accessKey_deleteMailbox hne).trans hkey
  · rw [RelayStore.accessKey, World.mailboxes_step_other svc w hmsg' hres' fun mb h => hremove ⟨mb, h⟩]
    exact hkey

/-! ## Requests that take effect -/

/-- The requests that need a signed-in mailbox; a chunk goes on with an upload that needed it. -/
def needsSignedInMailbox : MessageType → Bool
  | .archiveCreate | .fileUploadBegin | .fileChunk => true
  | type => actsOnMailbox type

def needsSignedInArchive : MessageType → Bool
  | .archiveAppend | .archiveDelete | .archiveFetch => true
  | _ => false

/-- The event is a request that needs a mailbox. What is left of one counts in every session that is
signed in to a mailbox, whatever the request. -/
def Session.NeedsMailbox (ss : Session) : Event → Prop
  | .message _ _ msg => needsSignedInMailbox msg.type = true
  | .resume _ _ => ss.mailbox.isSome
  | _ => False

/-- The event is a request that needs an archive, or what is left of one. -/
def Session.NeedsArchive (ss : Session) : Event → Prop
  | .message _ _ msg => needsSignedInArchive msg.type = true
  | .resume _ _ => ∃ archiveId work, ss.pending = some work ∧ work.OnArchive archiveId
  | _ => False

/-- The event changes a table or the files folder, or is answered with something other than an error or
a bare confirmation. -/
def World.Effect (svc : Service) (w : World) (e : Event) : Prop :=
  (w.step svc e).store ≠ w.store ∨ ∃ r ∈ w.sent svc e, r.type ≠ .errorMsg ∧ r.payload ≠ []

/-- The key the session signed in with is the registered key of its mailbox. -/
def Session.MailboxRegistered (ss : Session) (st : RelayStore) : Prop :=
  ∃ mb key, ss.mailbox = some mb ∧ ss.key = some key ∧ st.accessKey mb = some key

/-- The key the session signed in with is registered in its archive. -/
def Session.ArchiveRegistered (ss : Session) (st : RelayStore) : Prop :=
  ∃ id keyHash key, ss.archiveSession = some (id, keyHash) ∧ ss.key = some key ∧
    st.archiveMemberKey id keyHash = some key

/-- Nothing is changed and nothing is told. -/
structure Outcome.Silent (o : Outcome) (st : RelayStore) : Prop where
  store : o.store = st
  replies : ∀ r ∈ o.replies, r.type = .errorMsg ∨ r.payload = []

theorem silent_refuse (text : String) : (refuse st rate ss text).Silent st :=
  ⟨rfl, by simp [refuse]⟩

theorem silent_close (text : String) : (close st rate text).Silent st :=
  ⟨rfl, by simp [close]⟩

theorem World.Effect.message (h : w.Effect svc (.message i now msg)) (hss : w.sessions i = some ss) :
    ss.pending = none ∧ ¬(handleMessage svc now ss msg w.store w.rate).Silent w.store := by
  unfold World.Effect World.step World.sent at h
  simp only [hss] at h
  cases hp : ss.pending with
  | some work => simp [hp] at h
  | none =>
    simp only [hp] at h
    refine ⟨rfl, fun hsilent => ?_⟩
    rcases h with h | ⟨r, hr, htype, hpayload⟩
    · exact h hsilent.store
    · exact (hsilent.replies r hr).elim htype hpayload

theorem World.Effect.resume (h : w.Effect svc (.resume i now)) (hss : w.sessions i = some ss)
    (hp : ss.pending = some work) : ¬(resume svc now ss w.store w.rate work).Silent w.store := by
  unfold World.Effect World.step World.sent at h
  simp only [hss, hp] at h
  intro hsilent
  rcases h with h | ⟨r, hr, htype, hpayload⟩
  · exact h hsilent.store
  · exact (hsilent.replies r hr).elim htype hpayload

theorem handleMessage_needsMailbox (ht : needsSignedInMailbox msg.type = true) (hmb : ss.mailbox = none)
    (hupload : ss.upload = none) : (handleMessage svc now ss msg st rate).Silent st := by
  by_cases hacts : actsOnMailbox msg.type = true
  · rw [handleMessage_notSignedIn hacts hmb]
    exact silent_refuse _
  obtain ⟨type, payload⟩ := msg
  cases type with
  | fileUploadBegin =>
    simp only [handleMessage, handleFileBegin, needsMailbox, hmb]
    exact silent_refuse _
  | archiveCreate =>
    simp only [handleMessage, handleArchiveCreate, hmb]
    exact silent_refuse _
  | fileChunk =>
    simp only [handleMessage, handleFileChunk, hupload]
    exact silent_refuse _
  | _ => exact absurd ht hacts

/-- An archive that is gone is not appended to. -/
theorem appendEntry_gone {ciphertext : Bytes} {number : UInt64} {expected new : Digest} {quota : ℕ}
    (hgone : st.findArchive archiveId = none) :
    st.appendEntry archiveId number expected new ciphertext now quota = (.noSuchArchive, st) := by
  rw [RelayStore.appendEntry, hgone]

theorem fetchEntries_gone (hl : st.Linked) (hgone : st.findArchive archiveId = none) (from' : UInt64)
    (limit : ℕ) : st.fetchEntries archiveId from' limit = [] := by
  have hnone : st.entriesOf archiveId = [] := List.filter_eq_nil_iff.2 fun e he hid => by
    have := hl e he
    rw [of_decide_eq_true hid, hgone] at this
    exact nomatch this
  simp [RelayStore.fetchEntries, hnone]

theorem deleteArchive_gone (hgone : st.findArchive archiveId = none) :
    st.deleteArchive archiveId = st := by
  have hne : ∀ a ∈ st.archives, decide (a.id = archiveId) = false := fun a ha =>
    decide_eq_false (Rows.lookup_eq_none.1 hgone a ha)
  have hany : ∀ id, (st.archives.any fun a => a.id = id ∧ decide (a.id = archiveId)) = false :=
    fun id => List.any_eq_false.2 fun a ha => by simp [hne a ha]
  have hkept : st.archives.filter (fun a => !decide (a.id = archiveId)) = st.archives :=
    List.filter_eq_self.2 fun a ha => by simp [hne a ha]
  simp only [RelayStore.deleteArchive, RelayStore.deleteArchives, hkept, hany, Bool.not_false,
    List.filter_true]

theorem handleMessage_needsArchive (ht : needsSignedInArchive msg.type = true)
    (hgone : ∀ id keyHash, ss.archiveSession = some (id, keyHash) → st.findArchive id = none)
    (hl : st.Linked) : (handleMessage svc now ss msg st rate).Silent st := by
  obtain ⟨type, payload⟩ := msg
  cases type with
  | archiveAppend =>
    simp only [handleMessage, handleArchiveAppend]
    split
    · exact silent_refuse _
    · rename_i hsession
      simp only [appendEntry_gone (hgone _ _ hsession)]
      split
      · exact silent_close _
      · split_ifs
        · exact silent_close _
        · exact silent_refuse _
        · exact ⟨rfl, by simp [refuse]⟩
  | archiveDelete =>
    simp only [handleMessage, handleArchiveDelete]
    split
    · exact silent_refuse _
    · rename_i hsession
      simp only [RelayStore.archiveInfo, hgone _ _ hsession, Option.map_none]
      split
      · exact silent_close _
      · split_ifs <;> exact silent_refuse _
  | archiveFetch =>
    simp only [handleMessage, handleArchiveFetch]
    split
    · exact silent_refuse _
    · rename_i hsession
      simp only [fetchEntries_gone hl (hgone _ _ hsession), List.map_nil]
      split
      · exact silent_close _
      · split_ifs
        · exact silent_refuse _
        · exact ⟨rfl, fun r hr => by cases hr⟩
  | _ => cases ht

theorem resume_needsArchive (hwork : work.OnArchive archiveId) (hgone : st.findArchive archiveId = none) :
    (resume svc now ss st rate work).Silent st := by
  cases hwork with
  | agreement =>
    simp only [resume, resumeAgreement]
    split
    · exact silent_refuse _
    · exact silent_refuse _
    · exact ⟨rfl, by simp [later]⟩
  | delete =>
    simp only [resume, deleteArchive_gone hgone]
    exact ⟨rfl, by simp [answer]⟩
  | redact =>
    simp only [resume, RelayStore.redactEntries, hgone, Option.isNone_none, if_true]
    exact silent_refuse _
  | fetchEnd =>
    simp only [resume, RelayStore.archiveInfo, hgone, Option.map_none]
    exact silent_refuse _

theorem Pending.OnArchive.for (h : work.OnArchive archiveId) (hfor : work.For ss) :
    ∃ keyHash, ss.archiveSession = some (archiveId, keyHash) := by
  cases h <;> exact hfor

theorem World.stands_of_reachable (hr : Reachable World.Init (Under World.KeySafe (World.Step svc)) w) :
    w.Stands := by
  refine hr.invariant (fun w h => ?_) fun w e w' hw hs => ?_
  · obtain ⟨-, hentries, -, -, hsessions, -⟩ := h
    exact ⟨fun e he => (List.not_mem_nil (hentries ▸ he)).elim,
      fun i ss hi => nomatch (hsessions i).symm.trans hi⟩
  · obtain ⟨hsafe, rfl⟩ := hs
    exact hw.step hsafe

/-- When a request that needs a signed-in mailbox or archive takes effect, the key the session signed in with
is registered there. A mailbox must not be removed under a session that is signed in to it, nor an
archive made while a session is still signed in to an earlier one with the same ID. -/
theorem effects_of_registered_keys
    (hr : Reachable World.Init (Under World.KeySafe (World.Step svc)) w) {e : Event}
    (hi : e.session = some i) (hss : w.sessions i = some ss) (heffect : w.Effect svc e) :
    (ss.NeedsMailbox e → ss.MailboxRegistered w.store) ∧
    (ss.NeedsArchive e → ss.ArchiveRegistered w.store) := by
  obtain ⟨hl, hsessions⟩ := World.stands_of_reachable hr
  have hstands := hsessions i ss hss
  constructor
  · intro hneeds
    cases hmb : ss.mailbox with
    | some mb =>
      obtain ⟨key, hk, hkey⟩ := hstands.mailbox mb hmb
      exact ⟨mb, key, hmb, hk, hkey⟩
    | none =>
      have hupload : ss.upload = none := by
        by_contra h
        have := hstands.upload (Option.isSome_iff_ne_none.2 h)
        simp [hmb] at this
      cases e with
      | message =>
        obtain rfl := Option.some.inj hi
        exact absurd (handleMessage_needsMailbox hneeds hmb hupload) (heffect.message hss).2
      | resume => simp [Session.NeedsMailbox, hmb] at hneeds
      | _ => exact hneeds.elim
  · intro hneeds
    by_contra hnot
    have hgone : ∀ id keyHash, ss.archiveSession = some (id, keyHash) →
        w.store.findArchive id = none := fun id keyHash hsession =>
      (hstands.archive id keyHash hsession).resolve_right fun ⟨key, hk, hkey⟩ =>
        hnot ⟨id, keyHash, key, hsession, hk, hkey⟩
    cases e with
    | message =>
      obtain rfl := Option.some.inj hi
      exact (heffect.message hss).2 (handleMessage_needsArchive hneeds hgone hl)
    | resume =>
      obtain rfl := Option.some.inj hi
      obtain ⟨archiveId, work, hp, hwork⟩ := hneeds
      obtain ⟨keyHash, hsession⟩ := hwork.for (hstands.work work hp)
      exact heffect.resume hss hp (resume_needsArchive hwork (hgone archiveId keyHash hsession))
    | _ => exact hneeds

def sampleMember : World :=
  (sampleWorld.step sampleService (.connect 0 [] [])).step sampleService (.message 0 100 sampleAuth)

def sampleCreate : Event :=
  .message 0 101 ⟨.archiveCreate,
    writeBlob sampleArchive ++ writeU32 1 ++ writeBlob (byteSum sampleToken).1⟩

theorem effects_of_registered_keys_sample :
    ∃ ss, sampleMember.sessions 0 = some ss ∧ sampleMember.Effect sampleService sampleCreate ∧
      ss.MailboxRegistered sampleMember.store := by
  have hsome : (sampleMember.sessions 0).isSome = true := by decide +kernel
  obtain ⟨ss, hss⟩ := Option.isSome_iff_exists.1 hsome
  have heffect : sampleMember.Effect sampleService sampleCreate := by
    refine .inl fun h => ?_
    have hlen := congrArg (·.archives.length) h
    exact absurd hlen (by decide +kernel)
  have hinit : sampleWorld.Init := ⟨rfl, rfl, rfl, rfl, fun _ => rfl, rfl, rfl⟩
  have hr : Reachable World.Init (Under World.KeySafe (World.Step sampleService)) sampleMember :=
    .next (e := .message 0 100 sampleAuth) (.next (e := .connect 0 [] []) (.start hinit) ⟨trivial, rfl⟩)
      ⟨(fun _ ⟨_, ht, _⟩ => nomatch ht), rfl⟩
  exact ⟨ss, hss, heffect, (effects_of_registered_keys hr rfl hss heffect).1 rfl⟩

/-- A session outlives its mailbox: after the operator removed it, an archive is made all the same. -/
theorem removed_mailbox_makes_archive :
    ∃ (w : World) (e : Event) (i : ℕ) (ss : Session),
      Reachable World.Init (World.Step sampleService) w ∧ e.session = some i ∧
      w.sessions i = some ss ∧ w.Effect sampleService e ∧ ss.NeedsMailbox e ∧
      ¬ss.MailboxRegistered w.store := by
  have hsession : ((sampleMember.step sampleService (.removeMailbox sampleMailbox)).sessions 0).any
      (fun ss => decide (ss.mailbox = some sampleMailbox)) = true := by decide +kernel
  obtain ⟨ss, hss, hmb⟩ := (Option.any_eq_true _ _).1 hsession
  refine ⟨sampleMember.step sampleService (.removeMailbox sampleMailbox), sampleCreate, 0, ss, ?_, rfl,
    hss, .inl fun h => ?_, rfl, ?_⟩
  · have hinit : sampleWorld.Init := ⟨rfl, rfl, rfl, rfl, fun _ => rfl, rfl, rfl⟩
    exact reachable_foldl World.step_step (.start hinit)
      [.connect 0 [] [], .message 0 100 sampleAuth, .removeMailbox sampleMailbox]
  · have hlen := congrArg (·.archives.length) h
    exact absurd hlen (by decide +kernel)
  · rintro ⟨mb, key, hmb', -, hkey⟩
    obtain rfl := Option.some.inj ((of_decide_eq_true hmb).symm.trans hmb')
    have hnone : (sampleMember.step sampleService (.removeMailbox sampleMailbox)).store.accessKey
        sampleMailbox = none := by decide +kernel
    exact nomatch hnone.symm.trans hkey

end PqSuite.Relay
