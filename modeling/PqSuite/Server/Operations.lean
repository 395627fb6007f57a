import PqSuite.Lib.Reach
import PqSuite.Server.Authorisation

/-!
# The operations of the store (`relay_store.cpp`)

Every call of the store that can change it, with the arguments its callers give it, as one type. A run
of the store is a sequence of such calls with the limits of the relay, at times that do not go back. The
calls that only read are left out.
-/

namespace PqSuite.Relay

/-- A call of the store. What is put has passed `decode_prekey_put`, and a file `decode_file_begin`. -/
inductive StoreOp where
  | addInvite (hash : Digest) (expiresAt : Time)
  | addMemberInvite (issuer : Bytes) (hash : Digest) (expiresAt : Time)
  | cancelMemberInvite (issuer : Bytes) (hash : Digest)
  | registerMailbox (inviteHash : Digest) (mailboxId accessPublicKey : Bytes) (tokenHash : Digest)
  | deleteMailbox (mailboxId : Bytes)
  | addToken (mailboxId : Bytes) (hash : Digest)
  | revokeToken (mailboxId : Bytes) (hash : Digest)
  | deposit (mailboxId id envelope : Bytes) (tokenHash : Digest) (ttl : UInt32)
  | ack (mailboxId : Bytes) (ids : List Bytes)
  | putPrekeys (mailboxId : Bytes) (m : PrekeyPut) (wellFormed : m.wellFormed = true)
  | takePrekey (mailboxId : Bytes) (tokenHash : Digest)
  | sweepPrekeyTakes
  | beginFile (owner : Bytes) (m : FileBegin)
  | finishFile (fileId : Bytes)
  | redeemFileToken (fileId : Bytes) (tokenHash : Digest)
  | deleteFile (fileId owner : Bytes)
  | sweepFiles (abandonedBefore : Time)
  | putKeyring (mailboxId blob : Bytes)
  | createArchive (archiveId : Bytes) (joinTokenHashes : List Digest) (genesisHash : Digest)
      (closesAt : Time)
  | joinArchive (archiveId : Bytes) (tokenHash keyHash : Digest) (publicKey : Bytes)
  | appendEntry (archiveId : Bytes) (expectedNumber : UInt64) (expectedHash newHash : Digest)
      (ciphertext : Bytes)
  | deleteArchive (archiveId : Bytes)
  | redactEntries (archiveId : Bytes) (entryHashes : List Digest)
  | sweep

namespace StoreOp

variable (limits : RelayLimits) (now : Time) (s : RelayStore)

/-- Whether the call does what it was asked to, and the tables after it. A call that the database itself
refuses throws, and one that finds nothing to delete says so; both count as refused. -/
def run : StoreOp → Bool × RelayStore
  | addInvite hash expiresAt => (!s.invites.any (·.hash = hash), s.addInvite hash expiresAt)
  | addMemberInvite issuer hash expiresAt =>
    let (r, s) := s.addMemberInvite issuer hash now expiresAt limits.memberInvitesOutstanding
      limits.memberInvitesTotal
    (r = .ok, s)
  | cancelMemberInvite issuer hash => s.cancelMemberInvite issuer hash
  | registerMailbox inviteHash mailboxId accessPublicKey tokenHash =>
    let (r, s) := s.registerMailbox inviteHash mailboxId accessPublicKey tokenHash now
      limits.maxMailboxes
    (r = .ok, s)
  | deleteMailbox mailboxId => ((s.accessKey mailboxId).isSome, s.deleteMailbox mailboxId)
  | addToken mailboxId hash =>
    let (r, s) := s.addToken mailboxId hash now limits.maxTokensPerMailbox
    (r = .ok, s)
  | revokeToken mailboxId hash => (s.tokenValid mailboxId hash, s.revokeToken mailboxId hash)
  | deposit mailboxId id envelope tokenHash ttl =>
    let (r, s) := s.deposit mailboxId id envelope tokenHash now ttl limits.mailboxQuotaBytes
    (r = .ok, s)
  | ack mailboxId ids => (true, (s.ack mailboxId ids).2)
  | putPrekeys mailboxId m _ =>
    let (r, s) := s.putPrekeys mailboxId m.replace m.generation m.prekeys now limits.maxPrekeys
    (r = .ok, s)
  | takePrekey mailboxId tokenHash =>
    let (r, s) := s.takePrekey mailboxId tokenHash now limits.prekeyTakesPerHour
    (r ≠ .rateLimited ∧ r ≠ .empty, s)
  | sweepPrekeyTakes => (true, s.sweepPrekeyTakes now)
  | beginFile owner m =>
    let (r, s) := s.beginFile owner m now limits.attachmentQuotaBytes
    (r = .ok, s)
  | finishFile fileId => (true, s.finishFile fileId)
  | redeemFileToken fileId tokenHash =>
    let (r, s) := s.redeemFileToken fileId tokenHash
    (r = .ok true ∨ r = .ok false, s)
  | deleteFile fileId owner => s.deleteFile fileId owner
  | sweepFiles abandonedBefore => (true, (s.sweepFiles now abandonedBefore).2)
  | putKeyring mailboxId blob =>
    -- the mailbox is a foreign key
    if (s.accessKey mailboxId).isSome then (true, s.putKeyring mailboxId blob now) else (false, s)
  | createArchive archiveId joinTokenHashes genesisHash closesAt =>
    let (r, s) := s.createArchive archiveId joinTokenHashes genesisHash now closesAt limits.maxArchives
    (r = .ok, s)
  | joinArchive archiveId tokenHash keyHash publicKey =>
    let (r, s) := s.joinArchive archiveId tokenHash keyHash publicKey now
    (r = .ok, s)
  | appendEntry archiveId expectedNumber expectedHash newHash ciphertext =>
    let (r, s) := s.appendEntry archiveId expectedNumber expectedHash newHash ciphertext now
      limits.archiveQuotaBytes
    (match r with | .ok _ => true | _ => false, s)
  | deleteArchive archiveId => ((s.findArchive archiveId).isSome, s.deleteArchive archiveId)
  | redactEntries archiveId entryHashes =>
    let (r, s) := s.redactEntries archiveId entryHashes
    (r = .ok, s)
  | sweep => (true, s.sweep now)

end StoreOp

/-! ## Rows refer to rows -/

namespace RelayStore

/-- What the foreign keys of the tables say, and that a member's invites go with the mailbox. -/
structure ForeignKeys (s : RelayStore) : Prop where
  invites : ∀ r ∈ s.invites, ∀ mb, r.issuedBy = some mb → s.Known mb
  tokens : ∀ r ∈ s.tokens, s.Known r.mailboxId
  envelopes : ∀ r ∈ s.envelopes, s.Known r.mailboxId
  prekeyPools : ∀ r ∈ s.prekeyPools, s.Known r.mailboxId
  prekeys : ∀ r ∈ s.prekeys, s.Known r.mailboxId
  keyrings : ∀ r ∈ s.keyrings, s.Known r.mailboxId
  files : ∀ f ∈ s.files, s.Known f.owner
  entries : ∀ e ∈ s.archiveEntries, ∃ a ∈ s.archives, a.id = e.archiveId
  archiveIds : (s.archives.map (·.id)).Nodup

end RelayStore

/-! ## What a call can do -/

/-- The rows with this owner and size, without what a finished upload changes. -/
def FileRow.share (f : FileRow) : Bytes × UInt64 := (f.owner, f.totalSize)

/-- What a call can do to the tables, with what the store has checked before. -/
inductive Effect (limits : RelayLimits) (now : Time) (s : RelayStore) : RelayStore → Prop
  | keep : Effect limits now s s
  | operatorInvite {hash : Digest} {expiresAt : Time} (hnew : ∀ r ∈ s.invites, r.hash ≠ hash) :
      Effect limits now s { s with invites := s.invites ++ [⟨hash, expiresAt, none⟩] }
  | memberInvite {issuer : Bytes} {hash : Digest} {expiresAt : Time} (hknown : s.Known issuer)
      (hnew : ∀ r ∈ s.invites, r.hash ≠ hash)
      (houtstanding : (s.invites.filter fun r => r.issuedBy = some issuer ∧ now < r.expiresAt).length <
        limits.memberInvitesOutstanding)
      (htotal : (s.invites.filter fun r => r.issuedBy = some issuer ∧ now < r.expiresAt).length +
        (s.mailboxes.filter (·.invitedBy = some issuer)).length < limits.memberInvitesTotal) :
      Effect limits now s { s with invites := s.invites ++ [⟨hash, expiresAt, some issuer⟩] }
  | cancelled (issuer : Bytes) (hash : Digest) :
      Effect limits now s (s.cancelMemberInvite issuer hash).2
  | registered {invite : InviteRow} {id key : Bytes} {tokenHash : Digest}
      (hinvite : Rows.lookup InviteRow.hash invite.hash s.invites = some invite)
      (hlive : now < invite.expiresAt) (hroom : s.mailboxes.length < limits.maxMailboxes)
      (hnew : ¬s.Known id) :
      Effect limits now s { s with
        mailboxes := s.mailboxes ++
          [⟨id, key, now, if invite.issuedBy = some [] then none else invite.issuedBy⟩]
        tokens := s.tokens ++ [⟨id, tokenHash, now⟩]
        invites := s.invites.filter (·.hash ≠ invite.hash) }
  | removed (mb : Bytes) : Effect limits now s (s.deleteMailbox mb)
  | tokenAdded {mb : Bytes} {hash : Digest} (hknown : s.Known mb)
      (hroom : (s.tokens.filter (·.mailboxId = mb)).length < limits.maxTokensPerMailbox) :
      Effect limits now s { s with tokens := s.tokens ++ [⟨mb, hash, now⟩] }
  | tokensLost {tokens : List TokenRow} (h : tokens.Sublist s.tokens) :
      Effect limits now s { s with tokens := tokens }
  | deposited {e : EnvelopeRow} (hknown : s.Known e.mailboxId)
      (hroom : s.queuedBytes e.mailboxId now + e.envelope.length ≤ limits.mailboxQuotaBytes) :
      Effect limits now s
        { s with envelopeSeq := s.envelopeSeq + 1, envelopes := s.envelopes ++ [e] }
  | envelopesLost {envelopes : List EnvelopeRow} (h : envelopes.Sublist s.envelopes) :
      Effect limits now s { s with envelopes := envelopes }
  | prekeysPut {mb : Bytes} {m : PrekeyPut} {pools : List PrekeyPoolRow} (hknown : s.Known mb)
      (hpools : pools.filter (·.mailboxId ≠ mb) = s.prekeyPools.filter (·.mailboxId ≠ mb))
      (hroom : (((s.keptPrekeys mb m.replace).filter (·.mailboxId = mb)).filter (!·.lastResort)).length +
        (m.prekeys.filter (!·.lastResort)).length ≤ limits.maxPrekeys) :
      Effect limits now s { s with
        prekeyPools := pools
        prekeys := m.prekeys.foldl (RelayStore.insertPrekey mb now) (s.keptPrekeys mb m.replace) }
  | prekeysTaken {takes : List PrekeyTakesRow} {prekeys : List PrekeyRow} (h : prekeys.Sublist s.prekeys) :
      Effect limits now s { s with prekeyTakes := takes, prekeys := prekeys }
  | fileBegun {f : FileRow} {fileTokens : List FileTokenRow} {uploads : UploadLog}
      (hknown : s.Known f.owner)
      (hroom : ((s.files.filter (·.owner = f.owner)).map (·.totalSize.toNat)).sum + f.totalSize.toNat ≤
        limits.attachmentQuotaBytes) :
      Effect limits now s
        { s with files := s.files ++ [f], fileTokens := fileTokens, uploads := uploads }
  | filesChanged {files : List FileRow} {fileTokens : List FileTokenRow} {uploads : UploadLog}
      (h : (files.map FileRow.share).Sublist (s.files.map FileRow.share)) :
      Effect limits now s { s with files := files, fileTokens := fileTokens, uploads := uploads }
  | keyringPut {mb blob : Bytes} (hknown : s.Known mb) : Effect limits now s (s.putKeyring mb blob now)
  | archiveCreated {a : ArchiveRow} {tokens : List JoinTokenRow} (hnew : ∀ b ∈ s.archives, b.id ≠ a.id)
      (hroom : s.archives.length < limits.maxArchives) (hbytes : a.bytes = 0) :
      Effect limits now s { s with archives := s.archives ++ [a], archiveJoinTokens := tokens }
  | archiveJoined {tokens : List JoinTokenRow} {keys : List ArchiveKeyRow} :
      Effect limits now s { s with archiveJoinTokens := tokens, archiveKeys := keys }
  | appended {a : ArchiveRow} {number : UInt64} {hash : Digest} {ciphertext : Bytes}
      (ha : s.findArchive a.id = some a)
      (hroom : a.bytes + ciphertext.length ≤ limits.archiveQuotaBytes) :
      Effect limits now s { s with
        archiveEntries := s.archiveEntries ++ [⟨a.id, number, hash, ciphertext, now, false⟩]
        archives := s.archives.map fun r =>
          if r.id = a.id then
            { r with
              headNumber := number, headHash := hash,
              bytes := a.bytes + ciphertext.length, lastActivity := now }
          else r }
  | archivesDeleted (p : ArchiveRow → Bool) : Effect limits now s (s.deleteArchives p)
  | redacted {archiveId : Bytes} {hashes : List Digest} {freed : ℕ} {entries : List EntryRow}
      (h : RelayStore.redactLoop archiveId hashes s.archiveEntries 0 = some (freed, entries)) :
      Effect limits now s { s with
        archiveEntries := entries
        archives := s.archives.map fun r =>
          if r.id = archiveId then { r with bytes := r.bytes - freed } else r }
  | swept : Effect limits now s (s.sweep now)

section

variable {limits : RelayLimits} {now : Time} {s s' : RelayStore} {mb : Bytes} {tokenHash : Digest}
  {archiveId : Bytes}

theorem share_sublist_filter (p : FileRow → Bool) :
    ((s.files.filter p).map FileRow.share).Sublist (s.files.map FileRow.share) :=
  List.filter_sublist.map _

theorem effect_addMemberInvite {hash : Digest} {expiresAt : Time} {r : RelayStore.IssueResult}
    (h : s.addMemberInvite mb hash now expiresAt limits.memberInvitesOutstanding
      limits.memberInvitesTotal = (r, s')) : Effect limits now s s' := by
  rcases addMemberInvite_spec h with ⟨-, hknown, hnew, hout, htotal, rfl⟩ | ⟨-, rfl⟩
  · exact .memberInvite hknown hnew hout htotal
  · exact .keep

theorem effect_registerMailbox {inviteHash : Digest} {id key : Bytes} {r : RelayStore.RegisterResult}
    (h : s.registerMailbox inviteHash id key tokenHash now limits.maxMailboxes = (r, s')) :
    Effect limits now s s' := by
  rcases registerMailbox_spec h with ⟨-, invite, hinvite, hlive, hroom, hnone, rfl⟩ | ⟨-, rfl⟩
  · obtain rfl : invite.hash = inviteHash := (Rows.lookup_eq_some hinvite).2
    exact .registered hinvite hlive hroom fun hknown =>
      absurd (RelayStore.accessKey_isSome.2 hknown) (by simp [hnone])
  · exact .keep

theorem effect_addToken {hash : Digest} {r : RelayStore.TokenResult}
    (h : s.addToken mb hash now limits.maxTokensPerMailbox = (r, s')) : Effect limits now s s' := by
  rcases addToken_spec h with ⟨-, rfl | ⟨hknown, hroom, rfl⟩⟩ | ⟨-, rfl⟩
  · exact .keep
  · exact .tokenAdded hknown hroom
  · exact .keep

theorem effect_deposit {id envelope : Bytes} {ttl : UInt32} {r : RelayStore.DepositResult}
    (h : s.deposit mb id envelope tokenHash now ttl limits.mailboxQuotaBytes = (r, s')) :
    Effect limits now s s' := by
  rcases deposit_spec h with ⟨-, hknown, hroom, rfl⟩ | ⟨-, rfl⟩
  · exact .deposited hknown hroom
  · exact .keep

theorem effect_putPrekeys {m : PrekeyPut} {r : RelayStore.PrekeyPutResult}
    (h : s.putPrekeys mb m.replace m.generation m.prekeys now limits.maxPrekeys = (r, s')) :
    Effect limits now s s' := by
  rcases putPrekeys_spec h with ⟨-, hknown, hroom, pools, hpools, rfl⟩ | ⟨-, rfl⟩
  · exact .prekeysPut hknown hpools hroom
  · exact .keep

theorem effect_takePrekey {perHour : ℕ} {r : RelayStore.PrekeyTakeResult}
    (h : s.takePrekey mb tokenHash now perHour = (r, s')) : Effect limits now s s' := by
  obtain ⟨_, _, hsub, rfl⟩ := takePrekey_spec h
  exact .prekeysTaken hsub

theorem effect_beginFile {m : FileBegin} {r : RelayStore.BeginFileResult}
    (h : s.beginFile mb m now limits.attachmentQuotaBytes = (r, s')) : Effect limits now s s' := by
  rcases beginFile_spec h with ⟨-, hknown, -, hroom, rfl⟩ | ⟨-, rfl⟩
  · exact .fileBegun hknown hroom
  · exact .keep

theorem effect_redeemFileToken {fileId : Bytes} {r : RelayStore.RedeemResult}
    (h : s.redeemFileToken fileId tokenHash = (r, s')) : Effect limits now s s' := by
  rcases redeemFileToken_spec h with ⟨-, last, -, hdone⟩ | ⟨-, rfl⟩
  · rw [hdone.store]
    split_ifs
    · exact .filesChanged (share_sublist_filter _)
    · exact .filesChanged (.refl _)
  · exact .keep

theorem effect_deleteFile (fileId owner : Bytes) : Effect limits now s (s.deleteFile fileId owner).2 := by
  unfold RelayStore.deleteFile
  split_ifs <;> exact .filesChanged (share_sublist_filter _)

theorem effect_createArchive {hashes : List Digest} {genesis : Digest} {closesAt : Time}
    {r : RelayStore.CreateArchiveResult}
    (h : s.createArchive archiveId hashes genesis now closesAt limits.maxArchives = (r, s')) :
    Effect limits now s s' := by
  rcases createArchive_spec h with ⟨-, hnew, hroom, rfl⟩ | ⟨-, rfl⟩
  · exact .archiveCreated (Rows.lookup_eq_none.1 hnew) hroom rfl
  · exact .keep

theorem effect_joinArchive {publicKey : Bytes} {keyHash : Digest} {r : RelayStore.JoinResult}
    (h : s.joinArchive archiveId tokenHash keyHash publicKey now = (r, s')) :
    Effect limits now s s' := by
  rcases joinArchive_spec h with ⟨-, -, rfl⟩ | ⟨-, rfl⟩
  · exact .archiveJoined
  · exact .keep

theorem effect_appendEntry {ciphertext : Bytes} {number : UInt64} {expectedHash newHash : Digest}
    {r : RelayStore.AppendResult}
    (h : s.appendEntry archiveId number expectedHash newHash ciphertext now limits.archiveQuotaBytes =
      (r, s')) : Effect limits now s s' := by
  rcases appendEntry_spec h with ⟨-, a, ha, -, -, hroom, -, rfl⟩ | ⟨-, rfl⟩
  · obtain rfl : a.id = archiveId := (Rows.lookup_eq_some ha).2
    exact .appended ha hroom
  · exact .keep

theorem effect_redactEntries {hashes : List Digest} {r : RelayStore.RedactResult}
    (h : s.redactEntries archiveId hashes = (r, s')) : Effect limits now s s' := by
  rcases redactEntries_spec h with ⟨-, -, _, _, hloop, rfl⟩ | ⟨-, rfl⟩
  · exact .redacted hloop
  · exact .keep

end

theorem StoreOp.effect_run (limits : RelayLimits) (now : Time) (s : RelayStore) (op : StoreOp) :
    Effect limits now s (op.run limits now s).2 := by
  cases op with
  | addInvite hash expiresAt =>
    show Effect limits now s (s.addInvite hash expiresAt)
    unfold RelayStore.addInvite
    split_ifs with hany
    · exact .keep
    · exact .operatorInvite (by simpa using hany)
  | addMemberInvite => exact effect_addMemberInvite rfl
  | cancelMemberInvite issuer hash => exact .cancelled issuer hash
  | registerMailbox => exact effect_registerMailbox rfl
  | deleteMailbox mb => exact .removed mb
  | addToken => exact effect_addToken rfl
  | revokeToken => exact .tokensLost List.filter_sublist
  | deposit => exact effect_deposit rfl
  | ack mb ids => exact .envelopesLost (ackLoop_spec mb ids s.envelopes 0).2
  | putPrekeys => exact effect_putPrekeys rfl
  | takePrekey => exact effect_takePrekey rfl
  | sweepPrekeyTakes => exact .prekeysTaken (.refl _)
  | beginFile => exact effect_beginFile rfl
  | finishFile fileId =>
    have hshare : (s.finishFile fileId).files.map FileRow.share = s.files.map FileRow.share :=
      Rows.map_key (fun f => by split_ifs <;> rfl) _
    exact .filesChanged (hshare ▸ .refl _)
  | redeemFileToken => exact effect_redeemFileToken rfl
  | deleteFile fileId owner => exact effect_deleteFile fileId owner
  | sweepFiles => exact .filesChanged (share_sublist_filter _)
  | putKeyring mb blob =>
    simp only [run]
    split_ifs with hmb
    · exact .keyringPut (RelayStore.accessKey_isSome.1 hmb)
    · exact .keep
  | createArchive => exact effect_createArchive rfl
  | joinArchive => exact effect_joinArchive rfl
  | appendEntry => exact effect_appendEntry rfl
  | deleteArchive id => exact .archivesDeleted _
  | redactEntries => exact effect_redactEntries rfl
  | sweep => exact .swept

/-! ## The foreign keys hold -/

namespace RelayStore.ForeignKeys

variable {s : RelayStore} {limits : RelayLimits} {now : Time} {mb : Bytes}

theorem empty : ForeignKeys {} := by constructor <;> simp

/-- A row with a known mailbox is added to a table. -/
theorem concat {ρ : Type} {l : List ρ} {key : ρ → Bytes} (h : ∀ r ∈ l, s.Known (key r)) {r : ρ}
    (hr : s.Known (key r)) : ∀ r' ∈ l ++ [r], s.Known (key r') := by
  intro r' hr'
  rcases List.mem_append.1 hr' with hold | hnew
  · exact h r' hold
  · exact List.mem_singleton.1 hnew ▸ hr

theorem registered (h : s.ForeignKeys) {m : MailboxRow} {tokenHash : Digest} {p : InviteRow → Bool} :
    ForeignKeys { s with
      mailboxes := s.mailboxes ++ [m]
      tokens := s.tokens ++ [⟨m.id, tokenHash, now⟩]
      invites := s.invites.filter p } := by
  have hknown : ∀ mb, s.Known mb → ∃ m' ∈ s.mailboxes ++ [m], m'.id = mb :=
    fun mb ⟨m', hm', hid⟩ => ⟨m', List.mem_append_left _ hm', hid⟩
  exact
    { invites := fun r hr mb hmb => hknown mb (h.invites r (List.mem_filter.1 hr).1 mb hmb)
      tokens := by
        intro r hr
        rcases List.mem_append.1 hr with hr | hr
        · exact hknown _ (h.tokens r hr)
        · rw [List.mem_singleton.1 hr]
          exact ⟨m, by simp, rfl⟩
      envelopes := fun r hr => hknown _ (h.envelopes r hr)
      prekeyPools := fun r hr => hknown _ (h.prekeyPools r hr)
      prekeys := fun r hr => hknown _ (h.prekeys r hr)
      keyrings := fun r hr => hknown _ (h.keyrings r hr)
      files := fun f hf => hknown _ (h.files f hf)
      entries := h.entries
      archiveIds := h.archiveIds }

theorem removed (h : s.ForeignKeys) (mb : Bytes) : (s.deleteMailbox mb).ForeignKeys := by
  have hknown : ∀ mb', mb' ≠ mb → s.Known mb' → (s.deleteMailbox mb).Known mb' :=
    fun mb' hne ⟨m, hm, hid⟩ => ⟨m, List.mem_filter.2 ⟨hm, by simpa [hid] using hne⟩, hid⟩
  have hkeeps : ∀ {ρ : Type} {l : List ρ} {key : ρ → Bytes}, (∀ r ∈ l, s.Known (key r)) →
      ∀ r ∈ l.filter (key · ≠ mb), (s.deleteMailbox mb).Known (key r) := by
    intro ρ l key hl r hr
    obtain ⟨hr, hne⟩ := List.mem_filter.1 hr
    exact hknown _ (by simpa using hne) (hl r hr)
  exact
    { invites := by
        intro r hr mb' hmb
        obtain ⟨hr, hne⟩ := List.mem_filter.1 hr
        refine hknown mb' ?_ (h.invites r hr mb' hmb)
        rintro rfl
        exact absurd hmb (by simpa using hne)
      tokens := hkeeps h.tokens
      envelopes := hkeeps h.envelopes
      prekeyPools := hkeeps h.prekeyPools
      prekeys := hkeeps h.prekeys
      keyrings := hkeeps h.keyrings
      files := hkeeps h.files
      entries := h.entries
      archiveIds := h.archiveIds }

theorem prekeysPut (h : s.ForeignKeys) {m : PrekeyPut} {pools : List PrekeyPoolRow} (hknown : s.Known mb)
    (hpools : pools.filter (·.mailboxId ≠ mb) = s.prekeyPools.filter (·.mailboxId ≠ mb)) :
    ForeignKeys { s with
      prekeyPools := pools
      prekeys := m.prekeys.foldl (insertPrekey mb now) (s.keptPrekeys mb m.replace) } := by
  have hpools : ∀ r ∈ pools, s.Known r.mailboxId := by
    intro r hr
    by_cases hmb : r.mailboxId = mb
    · exact hmb ▸ hknown
    · have hmem : r ∈ pools.filter (·.mailboxId ≠ mb) := List.mem_filter.2 ⟨hr, decide_eq_true hmb⟩
      rw [hpools] at hmem
      exact h.prekeyPools r (List.mem_filter.1 hmem).1
  have hkept : ∀ r ∈ s.keptPrekeys mb m.replace, s.Known r.mailboxId := by
    intro r hr
    unfold keptPrekeys at hr
    split_ifs at hr
    · exact h.prekeys r (List.mem_filter.1 hr).1
    · exact h.prekeys r hr
  refine { h with prekeyPools := hpools, prekeys := fun r hr => ?_ }
  rcases List.mem_append.1 ((foldl_insertPrekey_sublist _ _ _).subset hr) with hr | hr
  · exact hkept r hr
  · obtain ⟨p, -, rfl⟩ := List.mem_map.1 hr
    exact hknown

theorem deleteArchives (h : s.ForeignKeys) (p : ArchiveRow → Bool) : (s.deleteArchives p).ForeignKeys := by
  refine { h with
    entries := fun e he => ?_
    archiveIds := h.archiveIds.sublist (List.filter_sublist.map _) }
  obtain ⟨he, hkept⟩ := List.mem_filter.1 he
  obtain ⟨a, ha, hid⟩ := h.entries e he
  refine ⟨a, List.mem_filter.2 ⟨ha, ?_⟩, hid⟩
  simp only [Bool.not_eq_true', List.any_eq_false, decide_eq_true_eq, not_and] at hkept
  simpa using hkept a ha hid

/-- An update of the archives that keeps their IDs, with entries of archives that are there. -/
theorem updateArchives (h : s.ForeignKeys) {f : ArchiveRow → ArchiveRow} (hf : ∀ a, (f a).id = a.id)
    {entries : List EntryRow}
    (hentries : ∀ e ∈ entries, ∃ a ∈ s.archives, a.id = e.archiveId) :
    ForeignKeys { s with archives := s.archives.map f, archiveEntries := entries } := by
  refine { h with entries := fun e he => ?_, archiveIds := ?_ }
  · obtain ⟨a, ha, hid⟩ := hentries e he
    exact ⟨f a, List.mem_map_of_mem ha, (hf a).trans hid⟩
  · rw [Rows.map_key hf]
    exact h.archiveIds

theorem effect {s' : RelayStore} (h : s.ForeignKeys) (he : Effect limits now s s') : s'.ForeignKeys := by
  cases he with
  | keep => exact h
  | operatorInvite =>
    refine { h with invites := fun r hr mb hmb => ?_ }
    rcases List.mem_append.1 hr with hr | hr
    · exact h.invites r hr mb hmb
    · rw [List.mem_singleton.1 hr] at hmb
      exact nomatch hmb
  | memberInvite hknown =>
    refine { h with invites := fun r hr mb hmb => ?_ }
    rcases List.mem_append.1 hr with hr | hr
    · exact h.invites r hr mb hmb
    · rw [List.mem_singleton.1 hr] at hmb
      exact Option.some.inj hmb ▸ hknown
  | cancelled => exact { h with invites := fun r hr => h.invites r (List.mem_filter.1 hr).1 }
  | registered => exact h.registered
  | removed mb => exact h.removed mb
  | tokenAdded hknown => exact { h with tokens := concat h.tokens hknown }
  | tokensLost hsub => exact { h with tokens := fun r hr => h.tokens r (hsub.subset hr) }
  | deposited hknown => exact { h with envelopes := concat h.envelopes hknown }
  | envelopesLost hsub => exact { h with envelopes := fun r hr => h.envelopes r (hsub.subset hr) }
  | prekeysPut hknown hpools => exact h.prekeysPut hknown hpools
  | prekeysTaken hsub => exact { h with prekeys := fun r hr => h.prekeys r (hsub.subset hr) }
  | fileBegun hknown => exact { h with files := concat h.files hknown }
  | filesChanged hsub =>
    refine { h with files := fun f hf => ?_ }
    obtain ⟨g, hg, hshare⟩ := List.mem_map.1 (hsub.subset (List.mem_map_of_mem hf))
    exact (Prod.mk.inj hshare).1 ▸ h.files g hg
  | keyringPut hknown =>
    exact { h with keyrings := concat (fun r hr => h.keyrings r (List.mem_filter.1 hr).1) hknown }
  | archiveCreated hnew =>
    refine { h with entries := fun e he => ?_, archiveIds := ?_ }
    · obtain ⟨a, ha, hid⟩ := h.entries e he
      exact ⟨a, List.mem_append_left _ ha, hid⟩
    · exact Rows.nodup_concat h.archiveIds hnew
  | archiveJoined => exact { h with }
  | appended ha =>
    refine h.updateArchives (fun a => by split_ifs <;> rfl) fun e he => ?_
    rcases List.mem_append.1 he with he | he
    · exact h.entries e he
    · exact List.mem_singleton.1 he ▸ ⟨_, (Rows.lookup_eq_some ha).1, rfl⟩
  | archivesDeleted p => exact h.deleteArchives p
  | redacted hloop =>
    refine h.updateArchives (fun a => by split_ifs <;> rfl) fun e he => ?_
    obtain ⟨e₀, he₀, hid⟩ := redactLoop_archiveIds hloop he
    exact hid ▸ h.entries e₀ he₀
  | swept =>
    have hexpired : ForeignKeys { s with
        envelopes := s.envelopes.filter fun e => now < e.expiresAt
        invites := s.invites.filter fun r => now < r.expiresAt } :=
      { h with
        invites := fun r hr => h.invites r (List.mem_filter.1 hr).1
        envelopes := fun r hr => h.envelopes r (List.mem_filter.1 hr).1 }
    exact hexpired.deleteArchives _

end RelayStore.ForeignKeys

/-! ## A refused call -/

section

variable {limits : RelayLimits} {now : Time} {s s' : RelayStore} {mb : Bytes}

theorem filter_ne_eq_self {ρ : Type} {l : List ρ} {key : ρ → Bytes} (h : ∀ r ∈ l, s.Known (key r))
    (hmb : ¬s.Known mb) : l.filter (key · ≠ mb) = l :=
  List.filter_eq_self.2 fun r hr => decide_eq_true fun heq => hmb (heq ▸ h r hr)

theorem deleteMailbox_store (h : s.ForeignKeys) (hmb : ¬s.Known mb) : s.deleteMailbox mb = s := by
  have hinvites : s.invites.filter (·.issuedBy ≠ some mb) = s.invites :=
    List.filter_eq_self.2 fun r hr => decide_eq_true fun heq => hmb (h.invites r hr mb heq)
  have hmailboxes : s.mailboxes.filter (·.id ≠ mb) = s.mailboxes :=
    List.filter_eq_self.2 fun m hm => decide_eq_true fun heq => hmb ⟨m, hm, heq⟩
  have howned : s.files.filter (·.owner = mb) = [] :=
    List.filter_eq_nil_iff.2 fun f hf => by simpa using fun heq : f.owner = mb => hmb (heq ▸ h.files f hf)
  have hgone : ∀ id, (s.files.any fun f => f.id = id ∧ f.owner = mb) = false := fun id =>
    List.any_eq_false.2 fun f hf => by
      simpa using fun _ (heq : f.owner = mb) => hmb (heq ▸ h.files f hf)
  have hfileTokens : (s.fileTokens.filter fun t => !s.files.any fun f => f.id = t.fileId ∧ f.owner = mb) =
      s.fileTokens := List.filter_eq_self.2 fun t _ => by rw [hgone]; rfl
  unfold RelayStore.deleteMailbox
  simp only [hinvites, hmailboxes, filter_ne_eq_self h.tokens hmb, filter_ne_eq_self h.envelopes hmb,
    filter_ne_eq_self h.prekeyPools hmb, filter_ne_eq_self h.prekeys hmb,
    filter_ne_eq_self h.keyrings hmb, filter_ne_eq_self h.files hmb, hfileTokens, howned, UploadLog.end,
    List.map_nil, List.append_nil]

/-- A take over the allowance that finds no last-resort prekey changes nothing, one that finds no prekey at
all is counted. -/
theorem takePrekey_store {tokenHash : Digest} {perHour : ℕ} {r : RelayStore.PrekeyTakeResult}
    (h : s.takePrekey mb tokenHash now perHour = (r, s')) :
    (r = .rateLimited → s' = s) ∧ (r = .empty → s' = s.countTake tokenHash (now.tdiv 3600)) := by
  unfold RelayStore.takePrekey at h
  dsimp only at h
  split_ifs at h
  · split at h <;> obtain ⟨rfl, rfl⟩ := Prod.mk.inj h
    · exact ⟨fun _ => rfl, nofun⟩
    · exact ⟨nofun, nofun⟩
  · split at h
    · obtain ⟨rfl, -⟩ := Prod.mk.inj h
      exact ⟨nofun, nofun⟩
    · split at h <;> obtain ⟨rfl, rfl⟩ := Prod.mk.inj h
      · exact ⟨nofun, nofun⟩
      · exact ⟨nofun, fun _ => rfl⟩

/-- A take is answered so exactly if the token is within its allowance and the mailbox has no prekey. -/
theorem takePrekey_empty_iff {tokenHash : Digest} {perHour : ℕ} :
    (s.takePrekey mb tokenHash now perHour).1 = .empty ↔
      s.takesOf tokenHash (now.tdiv 3600) < perHour ∧ s.prekeysOf mb = [] := by
  have hsame : (s.countTake tokenHash (now.tdiv 3600)).prekeysOf mb = s.prekeysOf mb := by
    rw [RelayStore.prekeysOf, (RelayStore.countTake_frame _ _).1, RelayStore.prekeysOf]
  unfold RelayStore.takePrekey
  dsimp only
  split_ifs with hover
  · refine iff_of_false ?_ fun h => Nat.not_lt.2 hover h.1
    split <;> simp
  · rw [and_iff_right (Nat.lt_of_not_le hover), RelayStore.oldestOneTime, RelayStore.lastResortOf, hsame]
    cases hone : (((s.prekeysOf mb).filter (!·.lastResort)).insertionSort
        (·.createdAt ≤ ·.createdAt)).head? with
    | some row => exact iff_of_false (by simp) fun hnone => by simp [hnone] at hone
    | none =>
      cases hlast : (s.prekeysOf mb).find? (·.lastResort) with
      | some row => exact iff_of_false (by simp) fun hnone => by simp [hnone] at hlast
      | none =>
        refine iff_of_true rfl (List.eq_nil_iff_forall_not_mem.2 fun p hp => ?_)
        have hkind : p.lastResort = false := by simpa using List.find?_eq_none.1 hlast p hp
        have hmem : p ∈ ((s.prekeysOf mb).filter (!·.lastResort)).insertionSort (·.createdAt ≤ ·.createdAt) :=
          (List.mem_insertionSort _).2 (List.mem_filter.2 ⟨hp, by simp [hkind]⟩)
        rw [List.head?_eq_none_iff.1 hone] at hmem
        exact List.not_mem_nil hmem

theorem deleteArchives_store {p : ArchiveRow → Bool} (hp : ∀ a ∈ s.archives, p a = false) :
    s.deleteArchives p = s := by
  have hgone : ∀ id, (s.archives.any fun a => a.id = id ∧ p a) = false := fun id =>
    List.any_eq_false.2 fun a ha => by simp [hp a ha]
  have hkeep : ∀ {ρ : Type} (l : List ρ) (key : ρ → Bytes),
      (l.filter fun r => !s.archives.any fun a => a.id = key r ∧ p a) = l := fun l key =>
    List.filter_eq_self.2 fun r _ => by rw [hgone]; rfl
  have harchives : (s.archives.filter fun a => !p a) = s.archives :=
    List.filter_eq_self.2 fun a ha => by simp [hp a ha]
  unfold RelayStore.deleteArchives
  simp only [hkeep, harchives]

end

/-- The tables after a call that is refused: as they were, except that a take from an empty pool is counted
against the token's allowance. -/
def StoreOp.afterRefusal (limits : RelayLimits) (now : Time) (s : RelayStore) : StoreOp → RelayStore
  | .takePrekey mb t =>
    if s.takesOf t (now.tdiv 3600) < limits.prekeyTakesPerHour ∧ s.prekeysOf mb = [] then
      s.countTake t (now.tdiv 3600)
    else s
  | _ => s

theorem StoreOp.run_refused {limits : RelayLimits} {now : Time} {s : RelayStore} (h : s.ForeignKeys)
    {op : StoreOp} (hr : (op.run limits now s).1 = false) :
    (op.run limits now s).2 = op.afterRefusal limits now s := by
  cases op with
  | takePrekey mb t =>
    have hrefused : (s.takePrekey mb t now limits.prekeyTakesPerHour).1 = .rateLimited ∨
        (s.takePrekey mb t now limits.prekeyTakesPerHour).1 = .empty := by
      have := of_decide_eq_false hr
      tauto
    cases hrun : s.takePrekey mb t now limits.prekeyTakesPerHour with
    | mk r s' =>
      have hnone := @takePrekey_empty_iff now s mb t limits.prekeyTakesPerHour
      obtain ⟨hlimited, hempty⟩ := takePrekey_store hrun
      rw [hrun] at hrefused hnone
      simp only [run, hrun, afterRefusal]
      split_ifs with hpool
      · exact hempty (hnone.2 hpool)
      · exact hlimited (hrefused.resolve_right fun h => hpool (hnone.1 h))
  | addInvite hash expiresAt => exact if_pos (by simpa [run] using hr)
  | addMemberInvite => exact (addMemberInvite_spec rfl).kept (of_decide_eq_false hr)
  | cancelMemberInvite => exact cancelMemberInvite_store hr
  | registerMailbox => exact (registerMailbox_spec rfl).kept (of_decide_eq_false hr)
  | deleteMailbox mb =>
    refine deleteMailbox_store h fun hmb => ?_
    exact Bool.false_ne_true (hr.symm.trans (RelayStore.accessKey_isSome.2 hmb))
  | addToken => exact (addToken_spec rfl).kept (of_decide_eq_false hr)
  | revokeToken mb hash =>
    have hnone : ∀ r ∈ s.tokens, ¬(r.mailboxId = mb ∧ r.hash = hash) := by
      simpa [run, RelayStore.tokenValid] using hr
    show s.revokeToken mb hash = s
    rw [RelayStore.revokeToken, List.filter_eq_self.2 fun r hr => decide_eq_true (hnone r hr)]
  | deposit => exact (deposit_spec rfl).kept (of_decide_eq_false hr)
  | ack | sweepPrekeyTakes | finishFile | sweepFiles | sweep => exact nomatch hr
  | putPrekeys => exact (putPrekeys_spec rfl).kept (of_decide_eq_false hr)
  | beginFile => exact (beginFile_spec rfl).kept (of_decide_eq_false hr)
  | redeemFileToken fileId tokenHash =>
    refine (redeemFileToken_spec rfl).kept ?_
    rintro ⟨b, hb⟩
    refine of_decide_eq_false hr ?_
    cases b with
    | true => exact .inl hb
    | false => exact .inr hb
  | deleteFile => exact deleteFile_store hr
  | putKeyring mb blob =>
    simp only [run] at hr ⊢
    split_ifs at hr ⊢
    rfl
  | createArchive => exact (createArchive_spec rfl).kept (of_decide_eq_false hr)
  | joinArchive => exact (joinArchive_spec rfl).kept (of_decide_eq_false hr)
  | appendEntry id number expected new ciphertext =>
    cases hrun : s.appendEntry id number expected new ciphertext now limits.archiveQuotaBytes with
    | mk r s' =>
      simp only [run, hrun] at hr ⊢
      refine (appendEntry_spec hrun).kept ?_
      rintro ⟨head, rfl⟩
      exact nomatch hr
  | deleteArchive id =>
    refine deleteArchives_store fun a ha => decide_eq_false fun hid => ?_
    exact Bool.false_ne_true (hr.symm.trans (Rows.lookup_isSome.2 ⟨a, ha, hid⟩))
  | redactEntries => exact (redactEntries_spec rfl).kept (of_decide_eq_false hr)

/-! ## Runs -/

structure StoreService where
  store : RelayStore := {}
  clock : Time

namespace StoreService

def Init (w : StoreService) : Prop := w.store = {}

def next (limits : RelayLimits) (w : StoreService) (e : StoreOp × Time) : StoreService :=
  ⟨(e.1.run limits e.2 w.store).2, e.2⟩

def Step (limits : RelayLimits) (w : StoreService) (e : StoreOp × Time) (w' : StoreService) : Prop :=
  w.clock ≤ e.2 ∧ w' = w.next limits e

end StoreService

end PqSuite.Relay
