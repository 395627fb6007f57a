import Mathlib.Algebra.Order.BigOperators.Group.List
import PqSuite.Server.Operations
import PqSuite.Server.PrekeyQueue

/-!
# The limits of a relay

Whatever is asked of a store that starts empty, at times that do not go back, its tables stay within the
limits: in the number of mailboxes, tokens, one-time prekeys and archives, and in the bytes of waiting
envelopes, of files and of archived entries. A refused call changes nothing, except that a take which
finds no prekey counts against the token's allowance.
-/

namespace PqSuite.Relay

namespace RelayStore

def fileBytes (s : RelayStore) (mb : Bytes) : ℕ :=
  ((s.files.filter (·.owner = mb)).map (·.totalSize.toNat)).sum

def ciphertextBytes (s : RelayStore) (archiveId : Bytes) : ℕ := totalBytes (s.entriesOf archiveId)

/-- The tables are within the limits. Of the envelopes those count that have not expired; `clock` is the
time of the last call, and time goes on. -/
structure Within (limits : RelayLimits) (clock : Time) (s : RelayStore) : Prop where
  mailboxes : s.mailboxes.length ≤ limits.maxMailboxes
  tokens : ∀ mb, (s.tokens.filter (·.mailboxId = mb)).length ≤ max limits.maxTokensPerMailbox 1
  prekeys : ∀ mb, ((s.prekeysOf mb).filter (!·.lastResort)).length ≤ limits.maxPrekeys
  archives : s.archives.length ≤ limits.maxArchives
  envelopes : ∀ mb t, clock ≤ t → s.queuedBytes mb t ≤ limits.mailboxQuotaBytes
  files : ∀ mb, s.fileBytes mb ≤ limits.attachmentQuotaBytes
  ciphertext : ∀ id, s.ciphertextBytes id ≤ limits.archiveQuotaBytes

/-- What an archive's row says of its bytes covers its entries. -/
def Covers (limits : RelayLimits) (s : RelayStore) : Prop :=
  ∀ a ∈ s.archives, (s.ciphertextBytes a.id : Int) ≤ a.bytes ∧ a.bytes ≤ limits.archiveQuotaBytes

variable {limits : RelayLimits} {now clock : Time} {s s' : RelayStore} {mb : Bytes}

theorem sum_le_of_sublist {l l' : List ℕ} (h : l'.Sublist l) : l'.sum ≤ l.sum :=
  h.sum_le_sum fun _ _ => Nat.zero_le _

/-! ## Archives -/

theorem ciphertextBytes_of_not_mem (h : s.ForeignKeys) {id : Bytes} (hid : ∀ a ∈ s.archives, a.id ≠ id) :
    s.ciphertextBytes id = 0 := by
  have hnone : s.entriesOf id = [] := by
    refine List.filter_eq_nil_iff.2 fun e he heq => ?_
    obtain ⟨a, ha, haid⟩ := h.entries e he
    exact hid a ha (haid.trans (by simpa using heq))
  rw [ciphertextBytes, hnone]
  rfl

/-- What the rows cover is within the quota of every archive, also one that is gone. -/
theorem Covers.within (h : s.Covers limits) (hkeys : s.ForeignKeys) (id : Bytes) :
    s.ciphertextBytes id ≤ limits.archiveQuotaBytes := by
  by_cases hid : ∃ a ∈ s.archives, a.id = id
  · obtain ⟨a, ha, rfl⟩ := hid
    have := h a ha
    omega
  · rw [ciphertextBytes_of_not_mem hkeys fun a ha heq => hid ⟨a, ha, heq⟩]
    exact Nat.zero_le _

theorem Covers.created (h : s.Covers limits) (hkeys : s.ForeignKeys) {a : ArchiveRow}
    {tokens : List JoinTokenRow} (hnew : ∀ b ∈ s.archives, b.id ≠ a.id) (hbytes : a.bytes = 0) :
    Covers limits { s with archives := s.archives ++ [a], archiveJoinTokens := tokens } := by
  intro b hb
  rcases List.mem_append.1 hb with hb | hb
  · exact h b hb
  · obtain rfl := List.mem_singleton.1 hb
    have hzero : s.ciphertextBytes b.id = 0 := ciphertextBytes_of_not_mem hkeys hnew
    show (s.ciphertextBytes b.id : Int) ≤ b.bytes ∧ _
    omega

theorem Covers.appended (h : s.Covers limits) (hkeys : s.ForeignKeys) {a : ArchiveRow} {number : UInt64}
    {hash : Digest} {ciphertext : Bytes} (ha : s.findArchive a.id = some a)
    (hroom : a.bytes + ciphertext.length ≤ limits.archiveQuotaBytes) :
    Covers limits { s with
      archiveEntries := s.archiveEntries ++ [⟨a.id, number, hash, ciphertext, now, false⟩]
      archives := s.archives.map fun r =>
        if r.id = a.id then
          { r with
            headNumber := number, headHash := hash,
            bytes := a.bytes + ciphertext.length, lastActivity := now }
        else r } := by
  intro b hb
  obtain ⟨r, hr, rfl⟩ := List.mem_map.1 hb
  have hbytes : ∀ id, ciphertextBytes { s with
      archiveEntries := s.archiveEntries ++ [⟨a.id, number, hash, ciphertext, now, false⟩] } id =
        s.ciphertextBytes id + if id = a.id then ciphertext.length else 0 := by
    intro id
    unfold ciphertextBytes totalBytes entriesOf
    rw [List.filter_append, List.map_append, List.sum_append]
    by_cases hid : id = a.id
    · simp [hid]
    · simp [hid, Ne.symm hid]
  by_cases hid : r.id = a.id
  · have hra : r = a := by
      have := Rows.lookup_of_mem hkeys.archiveIds hr
      rw [hid] at this
      exact Option.some.inj (this.symm.trans ha)
    subst hra
    have hcovered := h r hr
    have := hbytes r.id
    rw [if_pos rfl] at this ⊢
    show (ciphertextBytes { s with archiveEntries := _ } r.id : Int) ≤ r.bytes + _ ∧ _
    rw [this]
    push_cast
    omega
  · have hcovered := h r hr
    have := hbytes r.id
    rw [if_neg hid] at this ⊢
    show (ciphertextBytes { s with archiveEntries := _ } r.id : Int) ≤ r.bytes ∧ _
    rw [this]
    exact hcovered

theorem Covers.deleted (h : s.Covers limits) (p : ArchiveRow → Bool) : (s.deleteArchives p).Covers limits := by
  intro a ha
  have hcovered := h a (List.mem_filter.1 ha).1
  have hless : (s.deleteArchives p).ciphertextBytes a.id ≤ s.ciphertextBytes a.id := by
    refine sum_le_of_sublist (List.Sublist.map _ ?_)
    exact List.filter_sublist.filter _
  omega

/-- Taking contents out frees at least the bytes that are subtracted. -/
theorem totalBytes_redactLoop {archiveId : Bytes} {hashes : List Digest} {es es' : List EntryRow}
    {freed freed' : ℕ} (h : redactLoop archiveId hashes es freed = some (freed', es')) :
    totalBytes (ofArchive archiveId es') + freed' ≤ totalBytes (ofArchive archiveId es) + freed ∧
      ∀ id ≠ archiveId, ofArchive id es' = ofArchive id es := by
  induction hashes generalizing es freed with
  | nil =>
    obtain ⟨rfl, rfl⟩ := Prod.mk.inj (Option.some.inj h)
    exact ⟨le_refl _, fun _ _ => rfl⟩
  | cons hash hashes ih =>
    simp only [redactLoop] at h
    split at h
    · cases h
    · rename_i size es₁ hone
      obtain ⟨hbytes, hother⟩ := ih h
      obtain ⟨found, hmem, hf, rfl, rfl⟩ := exists_of_redactOne hone
      have hleast : totalBytes (ofArchive archiveId (es.map fun e =>
          if e.archiveId = archiveId ∧ e.hash = hash then { e with ciphertext := [], redacted := true }
          else e)) + found.ciphertext.length ≤ totalBytes (ofArchive archiveId es) := by
        rw [ofArchive_redact]
        exact Rows.sum_map_zero_le hmem hf fun _ => rfl
      refine ⟨by omega, fun id hid => (hother id hid).trans ?_⟩
      exact Rows.filter_map_ite_of_ne EntryRow.archiveId
        (fun e => { e with ciphertext := [], redacted := true }) (fun _ => rfl) hid (·.hash = hash)

theorem Covers.redacted (h : s.Covers limits) {archiveId : Bytes} {hashes : List Digest} {freed : ℕ}
    {entries : List EntryRow} (hloop : redactLoop archiveId hashes s.archiveEntries 0 = some (freed, entries)) :
    Covers limits { s with
      archiveEntries := entries
      archives := s.archives.map fun r =>
        if r.id = archiveId then { r with bytes := r.bytes - freed } else r } := by
  obtain ⟨hbytes, hother⟩ := totalBytes_redactLoop hloop
  intro b hb
  obtain ⟨r, hr, rfl⟩ := List.mem_map.1 hb
  have hcovered := h r hr
  by_cases hid : r.id = archiveId
  · subst hid
    rw [if_pos rfl]
    have hsum : totalBytes (ofArchive r.id entries) + freed ≤ s.ciphertextBytes r.id := hbytes
    show (totalBytes (ofArchive r.id entries) : Int) ≤ r.bytes - freed ∧ r.bytes - freed ≤ _
    omega
  · rw [if_neg hid]
    have hsum : totalBytes (ofArchive r.id entries) = s.ciphertextBytes r.id :=
      congrArg totalBytes (hother r.id hid)
    show (totalBytes (ofArchive r.id entries) : Int) ≤ r.bytes ∧ r.bytes ≤ _
    omega

theorem Covers.effect (h : s.Covers limits) (hkeys : s.ForeignKeys) (he : Effect limits now s s') :
    s'.Covers limits := by
  cases he with
  | archiveCreated hnew hroom hbytes => exact h.created hkeys hnew hbytes
  | appended ha hroom => exact h.appended hkeys ha hroom
  | archivesDeleted p => exact h.deleted p
  | redacted hloop => exact h.redacted hloop
  | swept =>
    have hexpired : Covers limits { s with
        envelopes := s.envelopes.filter fun e => now < e.expiresAt
        invites := s.invites.filter fun r => now < r.expiresAt } := h
    exact hexpired.deleted _
  | _ => exact h

/-! ## Mailboxes -/

theorem length_filter_le_of_sublist {ρ : Type} {l l' : List ρ} (h : l'.Sublist l) (p : ρ → Bool) :
    (l'.filter p).length ≤ (l.filter p).length := (h.filter p).length_le

theorem tokens_effect (h : ∀ mb, (s.tokens.filter (·.mailboxId = mb)).length ≤ max limits.maxTokensPerMailbox 1)
    (hkeys : s.ForeignKeys) (he : Effect limits now s s') (mb : Bytes) :
    (s'.tokens.filter (·.mailboxId = mb)).length ≤ max limits.maxTokensPerMailbox 1 := by
  have hlost : ∀ {l : List TokenRow}, l.Sublist s.tokens →
      (l.filter (·.mailboxId = mb)).length ≤ max limits.maxTokensPerMailbox 1 :=
    fun hsub => (length_filter_le_of_sublist hsub _).trans (h mb)
  cases he with
  | @registered invite id key tokenHash hinvite hlive hroom hnew =>
    rw [List.filter_append, List.length_append]
    by_cases hmb : id = mb
    · have hnone : s.tokens.filter (·.mailboxId = mb) = [] :=
        List.filter_eq_nil_iff.2 fun r hr heq => hnew (by
          have hkey := hkeys.tokens r hr
          rwa [of_decide_eq_true heq, ← hmb] at hkey)
      rw [hnone, hmb]
      simp
    · simpa [hmb] using h mb
  | @tokenAdded mb' hash hknown hroom =>
    rw [List.filter_append, List.length_append]
    by_cases hmb : mb' = mb
    · subst hmb
      simp only [decide_true, List.filter_cons_of_pos, List.filter_nil, List.length_singleton]
      omega
    · simpa [hmb] using h mb
  | removed => exact hlost List.filter_sublist
  | tokensLost hsub => exact hlost hsub
  | _ => exact h mb

theorem prekeys_effect (h : ∀ mb, ((s.prekeysOf mb).filter (!·.lastResort)).length ≤ limits.maxPrekeys)
    (he : Effect limits now s s') (mb : Bytes) :
    ((s'.prekeysOf mb).filter (!·.lastResort)).length ≤ limits.maxPrekeys := by
  have hlost : ∀ {l : List PrekeyRow}, l.Sublist s.prekeys →
      ((l.filter (·.mailboxId = mb)).filter (!·.lastResort)).length ≤ limits.maxPrekeys :=
    fun hsub => (length_filter_le_of_sublist (hsub.filter _) _).trans (h mb)
  cases he with
  | @prekeysPut mb' m pools hknown hpools hroom =>
    by_cases hmb : mb = mb'
    · subst hmb
      show (List.filter _ (List.filter _ (m.prekeys.foldl (insertPrekey mb now) _))).length ≤ _
      rw [filter_foldl_insertPrekey, oneTime_foldl_insertPrekey, List.length_append, List.length_map]
      exact hroom
    · show (List.filter _ (List.filter _ (m.prekeys.foldl (insertPrekey mb' now) _))).length ≤ _
      rw [filter_foldl_insertPrekey_of_ne hmb, filter_keptPrekeys_of_ne hmb]
      exact h mb
  | removed => exact hlost List.filter_sublist
  | prekeysTaken hsub => exact hlost hsub
  | _ => exact h mb

theorem queuedBytes_le_of_sublist {envelopes : List EnvelopeRow} (h : envelopes.Sublist s.envelopes)
    (mb : Bytes) (t : Time) : queuedBytes { s with envelopes := envelopes } mb t ≤ s.queuedBytes mb t :=
  sum_le_of_sublist ((h.filter _).map _)

theorem queuedBytes_anti {t : Time} (h : now ≤ t) : s.queuedBytes mb t ≤ s.queuedBytes mb now := by
  refine sum_le_of_sublist (List.Sublist.map _ ?_)
  have hfilter : s.envelopes.filter (fun e => e.mailboxId = mb ∧ t < e.expiresAt) =
      (s.envelopes.filter fun e => e.mailboxId = mb ∧ now < e.expiresAt).filter (t < ·.expiresAt) := by
    rw [List.filter_filter]
    refine List.filter_congr fun e _ => ?_
    by_cases hlater : t < e.expiresAt
    · simp [hlater, h.trans_lt hlater]
    · simp [hlater]
  rw [hfilter]
  exact List.filter_sublist

theorem envelopes_effect (h : ∀ mb t, clock ≤ t → s.queuedBytes mb t ≤ limits.mailboxQuotaBytes)
    (hnow : clock ≤ now) (he : Effect limits now s s') (mb : Bytes) (t : Time) (ht : now ≤ t) :
    s'.queuedBytes mb t ≤ limits.mailboxQuotaBytes := by
  have hold := h mb t (hnow.trans ht)
  have hlost : ∀ {l : List EnvelopeRow}, l.Sublist s.envelopes →
      queuedBytes { s with envelopes := l } mb t ≤ limits.mailboxQuotaBytes :=
    fun hsub => (queuedBytes_le_of_sublist hsub mb t).trans hold
  cases he with
  | @deposited e hknown hroom =>
    show ((List.filter _ (s.envelopes ++ [e])).map _).sum ≤ _
    rw [List.filter_append, List.map_append, List.sum_append]
    by_cases hmb : e.mailboxId = mb ∧ t < e.expiresAt
    · rw [List.filter_cons_of_pos (by simpa using hmb), List.filter_nil]
      have hless : s.queuedBytes e.mailboxId t ≤ s.queuedBytes e.mailboxId now := queuedBytes_anti ht
      rw [hmb.1] at hroom hless
      show s.queuedBytes mb t + _ ≤ _
      simp only [List.map_cons, List.map_nil, List.sum_cons, List.sum_nil]
      omega
    · rw [List.filter_cons_of_neg (by simpa using hmb), List.filter_nil]
      exact hold
  | removed => exact hlost List.filter_sublist
  | envelopesLost hsub => exact hlost hsub
  | swept => exact hlost List.filter_sublist
  | _ => exact hold

/-- What files take up depends on owners and sizes only. -/
theorem fileBytes_eq (s : RelayStore) (mb : Bytes) :
    s.fileBytes mb = (((s.files.map FileRow.share).filter (·.1 = mb)).map (·.2.toNat)).sum := by
  rw [fileBytes, List.filter_map, List.map_map]
  rfl

theorem files_effect (h : ∀ mb, s.fileBytes mb ≤ limits.attachmentQuotaBytes)
    (he : Effect limits now s s') (mb : Bytes) : s'.fileBytes mb ≤ limits.attachmentQuotaBytes := by
  have hlost : ∀ {t : RelayStore}, (t.files.map FileRow.share).Sublist (s.files.map FileRow.share) →
      t.fileBytes mb ≤ limits.attachmentQuotaBytes := by
    intro t hsub
    refine le_trans ?_ (h mb)
    rw [fileBytes_eq, fileBytes_eq]
    exact sum_le_of_sublist ((hsub.filter _).map _)
  cases he with
  | @fileBegun f _ _ hknown hroom =>
    show ((List.filter _ (s.files ++ [f])).map _).sum ≤ _
    rw [List.filter_append, List.map_append, List.sum_append]
    by_cases hmb : f.owner = mb
    · subst hmb
      simpa using hroom
    · simpa [hmb, fileBytes] using h mb
  | removed => exact hlost (share_sublist_filter _)
  | filesChanged hsub => exact hlost hsub
  | _ => exact h mb

/-! ## The store -/

theorem Within.effect (h : s.Within limits clock) (hkeys : s.ForeignKeys) (hcovers : s.Covers limits)
    (hnow : clock ≤ now) (he : Effect limits now s s') : s'.Within limits now where
  mailboxes := by
    cases he with
    | registered hinvite hlive hroom hnew =>
      rw [List.length_append]
      exact hroom
    | removed => exact (List.length_filter_le _ _).trans h.mailboxes
    | _ => exact h.mailboxes
  tokens := tokens_effect h.tokens hkeys he
  prekeys := prekeys_effect h.prekeys he
  archives := by
    cases he with
    | archiveCreated hnew hroom hbytes =>
      rw [List.length_append]
      exact hroom
    | appended | redacted => simpa using h.archives
    | archivesDeleted | swept => exact (List.length_filter_le _ _).trans h.archives
    | _ => exact h.archives
  envelopes := envelopes_effect h.envelopes hnow he
  files := files_effect h.files he
  ciphertext := (hcovers.effect hkeys he).within (hkeys.effect he)

theorem within_empty (limits : RelayLimits) (clock : Time) : ({} : RelayStore).Within limits clock where
  mailboxes := Nat.zero_le _
  tokens _ := Nat.zero_le _
  prekeys _ := Nat.zero_le _
  archives := Nat.zero_le _
  envelopes _ _ _ := Nat.zero_le _
  files _ := Nat.zero_le _
  ciphertext _ := Nat.zero_le _

end RelayStore

namespace StoreService

/-- In every run the tables stay within the limits, where a mailbox may always have one token; and a call
that is refused changes nothing, except that a take from an empty pool counts against the token's
allowance. -/
theorem limits_are_kept (limits : RelayLimits) {w : StoreService}
    (h : Reach.Reachable Init (Step limits) w) :
    w.store.Within limits w.clock ∧
    ∀ op now, (StoreOp.run limits now w.store op).1 = false →
      (op.run limits now w.store).2 = op.afterRefusal limits now w.store := by
  have hinv : w.store.ForeignKeys ∧ w.store.Covers limits ∧ w.store.Within limits w.clock := by
    refine h.invariant (P := fun w => w.store.ForeignKeys ∧ w.store.Covers limits ∧
      w.store.Within limits w.clock) (fun w hinit => ?_) ?_
    · rw [hinit]
      exact ⟨.empty, fun a ha => absurd ha List.not_mem_nil, RelayStore.within_empty _ _⟩
    · rintro w e w' ⟨hkeys, hcovers, hwithin⟩ ⟨hnow, rfl⟩
      have heffect := e.1.effect_run limits e.2 w.store
      exact ⟨hkeys.effect heffect, hcovers.effect hkeys heffect,
        hwithin.effect hkeys hcovers hnow heffect⟩
  exact ⟨hinv.2.2, fun op now hrefused => StoreOp.run_refused hinv.1 hrefused⟩

def oneMailbox : RelayLimits := { maxMailboxes := 1, maxTokensPerMailbox := 0 }

def inviteHash (n : UInt8) : Digest := ⟨List.replicate 32 n, List.length_replicate⟩

def twoInvited : List (StoreOp × Time) :=
  [(.addInvite (inviteHash 1) 100, 0), (.addInvite (inviteHash 2) 100, 0),
    (.registerMailbox (inviteHash 1) [1] [10] (inviteHash 11), 5),
    (.registerMailbox (inviteHash 2) [2] [20] (inviteHash 12), 6)]

def afterInvites : StoreService := twoInvited.foldl (next oneMailbox) { clock := 0 }

theorem afterInvites_reachable : Reach.Reachable Init (Step oneMailbox) afterInvites :=
  ((((Reach.Reachable.start rfl : Reach.Reachable Init (Step oneMailbox) { clock := 0 }).next
    ⟨by decide, rfl⟩).next ⟨by decide, rfl⟩).next ⟨by decide, rfl⟩).next ⟨by decide, rfl⟩

/-- The second registration is refused, so one mailbox is there. -/
theorem limits_are_kept_one_mailbox :
    afterInvites.store.mailboxes.map (·.id) = [[1]] ∧ afterInvites.store.Within oneMailbox 6 :=
  ⟨by decide +kernel, (limits_are_kept oneMailbox afterInvites_reachable).1⟩

/-- The first token is there though the limit is zero, and a take that finds no prekey is refused and
counted all the same. -/
theorem first_token_over_limit_and_refused_take_counts :
    Reach.Reachable Init (Step oneMailbox) afterInvites ∧
    oneMailbox.maxTokensPerMailbox < (afterInvites.store.tokens.filter (·.mailboxId = [1])).length ∧
    ((StoreOp.takePrekey [1] (inviteHash 11)).run oneMailbox 7 afterInvites.store).1 = false ∧
    ((StoreOp.takePrekey [1] (inviteHash 11)).run oneMailbox 7 afterInvites.store).2.prekeyTakes ≠
      afterInvites.store.prekeyTakes :=
  ⟨afterInvites_reachable, by decide +kernel, by decide +kernel, by decide +kernel⟩

end StoreService

end PqSuite.Relay
