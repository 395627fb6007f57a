import PqSuite.Server.Service

/-!
# What each call of the store does (`relay_store.cpp`)

A call that is refused leaves the tables as they are. One that succeeds has made its checks, and what it
does to the tables then is written out here once.
-/

namespace PqSuite.Relay

/-- A call with the result `r` does all of this if it is a success, and nothing if it is not. -/
def AllOrNothing {ρ : Type} (ok : ρ → Prop) (r : ρ) (st st' : RelayStore) (does : Prop) : Prop :=
  ok r ∧ does ∨ ¬ok r ∧ st' = st

namespace AllOrNothing

variable {ρ : Type} {ok : ρ → Prop} {r r' : ρ} {does : Prop} {st st' : RelayStore}

theorem done (h : AllOrNothing ok r st st' does) (hok : ok r) : does :=
  (h.resolve_right fun hno => hno.1 hok).2

theorem kept (h : AllOrNothing ok r st st' does) (hno : ¬ok r) : st' = st :=
  (h.resolve_left fun hok => hno hok.1).2

theorem of_refused (h : (r', st) = (r, st')) (hno : ¬ok r') : AllOrNothing ok r st st' does := by
  obtain ⟨rfl, rfl⟩ := Prod.mk.inj h
  exact .inr ⟨hno, rfl⟩

end AllOrNothing

namespace RelayStore

def Known (s : RelayStore) (mb : Bytes) : Prop := ∃ m ∈ s.mailboxes, m.id = mb

theorem accessKey_isSome {st : RelayStore} {mb : Bytes} : (st.accessKey mb).isSome ↔ st.Known mb := by
  rw [accessKey, Option.isSome_map]
  exact Rows.lookup_isSome

theorem known_of_accessKey {st : RelayStore} {mb : Bytes} (h : ¬(st.accessKey mb).isNone = true) :
    st.Known mb := by
  rw [← accessKey_isSome]
  simpa [Option.isSome_iff_ne_none] using h

theorem exists_setGeneration (s : RelayStore) (mb generation : Bytes) :
    ∃ pools, pools.filter (·.mailboxId ≠ mb) = s.prekeyPools.filter (·.mailboxId ≠ mb) ∧
      s.setGeneration mb generation = { s with prekeyPools := pools } := by
  unfold setGeneration
  split_ifs
  · refine ⟨_, ?_, rfl⟩
    have hid : ∀ r : PrekeyPoolRow,
        (if r.mailboxId = mb then { r with generation := generation } else r).mailboxId =
          r.mailboxId := by
      intro r; split_ifs <;> rfl
    simp only [List.filter_map, Function.comp_def, hid]
    refine (List.map_congr_left fun r hr => ?_).trans (List.map_id _)
    have : r.mailboxId ≠ mb := by simpa using (List.mem_filter.1 hr).2
    simp [this]
  · exact ⟨_, by simp, rfl⟩

def useToken (fileId : Bytes) (tokenHash : Digest) (t : FileTokenRow) : FileTokenRow :=
  if t.fileId = fileId ∧ t.tokenHash = tokenHash then { t with redeemed := true } else t

/-- The store after a token is marked, before the record goes. -/
def markToken (s : RelayStore) (id : Bytes) (hash : Digest) : RelayStore :=
  { s with fileTokens := s.fileTokens.map (useToken id hash) }

end RelayStore

open RelayStore

variable {st st' : RelayStore} {mb id archiveId : Bytes} {hash tokenHash : Digest} {now : Time} {quota : ℕ}

/-! ## Mailboxes -/

theorem addMemberInvite_spec {expiresAt : Time} {maxOutstanding maxTotal : ℕ} {r : IssueResult}
    (h : st.addMemberInvite mb hash now expiresAt maxOutstanding maxTotal = (r, st')) :
    AllOrNothing (· = .ok) r st st' (st.Known mb ∧ (∀ r ∈ st.invites, r.hash ≠ hash) ∧
      (st.invites.filter fun r => r.issuedBy = some mb ∧ now < r.expiresAt).length < maxOutstanding ∧
      (st.invites.filter fun r => r.issuedBy = some mb ∧ now < r.expiresAt).length +
        (st.mailboxes.filter (·.invitedBy = some mb)).length < maxTotal ∧
      st' = { st with invites := st.invites ++ [⟨hash, expiresAt, some mb⟩] }) := by
  unfold addMemberInvite at h
  dsimp only at h
  split_ifs at h with hmb hout htotal hany
  on_goal 5 =>
    obtain ⟨rfl, rfl⟩ := Prod.mk.inj h
    exact .inl ⟨rfl, known_of_accessKey hmb, by simpa using hany, not_le.1 hout, not_le.1 htotal, rfl⟩
  all_goals exact .of_refused h (by simp)

theorem registerMailbox_spec {key : Bytes} {maxMailboxes : ℕ} {r : RegisterResult}
    (h : st.registerMailbox hash id key tokenHash now maxMailboxes = (r, st')) :
    AllOrNothing (· = .ok) r st st' (∃ invite, Rows.lookup InviteRow.hash hash st.invites = some invite ∧
      now < invite.expiresAt ∧ st.mailboxes.length < maxMailboxes ∧ st.accessKey id = none ∧ st' = { st with
        mailboxes := st.mailboxes ++
          [⟨id, key, now, if invite.issuedBy = some [] then none else invite.issuedBy⟩]
        tokens := st.tokens ++ [⟨id, tokenHash, now⟩]
        invites := st.invites.filter (·.hash ≠ hash) }) := by
  unfold registerMailbox at h
  split at h
  · exact .of_refused h (by simp)
  rename_i invite hinvite
  split at h
  · exact .of_refused h (by simp)
  split at h
  · exact .of_refused h (by simp)
  split at h
  · exact .of_refused h (by simp)
  rename_i hexpired hfull hsome
  obtain ⟨rfl, rfl⟩ := Prod.mk.inj h
  exact .inl ⟨rfl, invite, hinvite, not_le.1 hexpired, not_le.1 hfull, by simpa using hsome, rfl⟩

/-- A token that is there already is not added again. -/
theorem addToken_spec {maxTokens : ℕ} {r : TokenResult}
    (h : st.addToken mb hash now maxTokens = (r, st')) :
    AllOrNothing (· = .ok) r st st' (st' = st ∨ st.Known mb ∧
      (st.tokens.filter (·.mailboxId = mb)).length < maxTokens ∧
      st' = { st with tokens := st.tokens ++ [⟨mb, hash, now⟩] }) := by
  unfold addToken at h
  split_ifs at h with hmb hvalid hmax
  · exact .of_refused h (by simp)
  · obtain ⟨rfl, rfl⟩ := Prod.mk.inj h
    exact .inl ⟨rfl, .inl rfl⟩
  · exact .of_refused h (by simp)
  · obtain ⟨rfl, rfl⟩ := Prod.mk.inj h
    exact .inl ⟨rfl, .inr ⟨known_of_accessKey hmb, not_le.1 hmax, rfl⟩⟩

theorem deposit_spec {envelope : Bytes} {ttl : UInt32} {r : DepositResult}
    (h : st.deposit mb id envelope tokenHash now ttl quota = (r, st')) :
    AllOrNothing (· = .ok) r st st' (st.Known mb ∧ st.queuedBytes mb now + envelope.length ≤ quota ∧
      st' = { st with
        envelopeSeq := st.envelopeSeq + 1
        envelopes := st.envelopes ++
          [⟨st.envelopeSeq + 1, id, mb, envelope, now, now + ttl.toNat, tokenHash⟩] }) := by
  unfold deposit at h
  split_ifs at h with hfull hbad
  · exact .of_refused h (by simp)
  · exact .of_refused h (by simp)
  · obtain ⟨rfl, rfl⟩ := Prod.mk.inj h
    exact .inl ⟨rfl, known_of_accessKey fun hnone => hbad (.inl hnone), not_lt.1 hfull, rfl⟩

/-! ## Prekeys -/

theorem putPrekeys_spec {replace : Bool} {generation : Bytes} {prekeys : List PrekeyEntry} {maxOneTime : ℕ}
    {r : PrekeyPutResult} (h : st.putPrekeys mb replace generation prekeys now maxOneTime = (r, st')) :
    AllOrNothing (· = .ok) r st st' (st.Known mb ∧
      (((st.keptPrekeys mb replace).filter (·.mailboxId = mb)).filter (!·.lastResort)).length +
        (prekeys.filter (!·.lastResort)).length ≤ maxOneTime ∧
      ∃ pools, pools.filter (·.mailboxId ≠ mb) = st.prekeyPools.filter (·.mailboxId ≠ mb) ∧ st' = { st with
        prekeyPools := pools
        prekeys := prekeys.foldl (insertPrekey mb now) (st.keptPrekeys mb replace) }) := by
  obtain ⟨pools, hpools, hset⟩ := st.exists_setGeneration mb generation
  unfold putPrekeys at h
  simp only [hset] at h
  split_ifs at h with hmb hgen hmany hdup
  on_goal 5 =>
    obtain ⟨rfl, rfl⟩ := Prod.mk.inj h
    exact .inl ⟨rfl, known_of_accessKey hmb, not_lt.1 hmany, pools, hpools, rfl⟩
  all_goals exact .of_refused h (by simp)

/-- A take changes the allowances, and takes prekeys away at most. -/
theorem takePrekey_spec {perHour : ℕ} {r : PrekeyTakeResult}
    (h : st.takePrekey mb tokenHash now perHour = (r, st')) : ∃ takes prekeys,
      prekeys.Sublist st.prekeys ∧ st' = { st with prekeyTakes := takes, prekeys := prekeys } := by
  have hcount : ∃ takes, st.countTake tokenHash (now.tdiv 3600) = { st with prekeyTakes := takes } := by
    unfold countTake
    split_ifs <;> exact ⟨_, rfl⟩
  obtain ⟨takes, htakes⟩ := hcount
  unfold takePrekey at h
  simp only [htakes] at h
  split_ifs at h
  · split at h <;> obtain ⟨-, rfl⟩ := Prod.mk.inj h <;> exact ⟨_, _, .refl _, rfl⟩
  · split at h
    · obtain ⟨-, rfl⟩ := Prod.mk.inj h
      exact ⟨_, _, List.filter_sublist, rfl⟩
    · split at h <;> obtain ⟨-, rfl⟩ := Prod.mk.inj h <;> exact ⟨_, _, .refl _, rfl⟩

/-! ## Files -/

theorem beginFile_spec {m : FileBegin} {r : BeginFileResult} (h : st.beginFile mb m now quota = (r, st')) :
    AllOrNothing (· = .ok) r st st' (st.Known mb ∧ st.findFile m.fileId = none ∧
      ((st.files.filter (·.owner = mb)).map (·.totalSize.toNat)).sum + m.totalSize.toNat ≤ quota ∧
      st' = { st with
        files := st.files ++ [⟨m.fileId, mb, m.totalSize, m.chunkSize, m.chunkCount,
          m.expiresAt.toInt64.toInt, now, false, st.uploads.begun⟩]
        fileTokens := st.fileTokens ++ m.tokenHashes.map fun h => ⟨m.fileId, h, false⟩
        uploads := { st.uploads with begun := st.uploads.begun + 1 } }) := by
  unfold beginFile at h
  split_ifs at h with hmb hsome hfull
  on_goal 4 =>
    obtain ⟨rfl, rfl⟩ := Prod.mk.inj h
    exact .inl ⟨rfl, known_of_accessKey hmb, by simpa using hsome, not_lt.1 hfull, rfl⟩
  all_goals exact .of_refused h (by simp)

/-- A redemption needs the record and a token that is not redeemed. The record goes if none is left. -/
structure Redeemed (st st' : RelayStore) (id : Bytes) (hash : Digest) (last : Bool) : Prop where
  file : (st.findFile id).isSome
  token : ∃ t ∈ st.tokensOf id, t.tokenHash = hash ∧ t.redeemed = false
  all : last = ((st.markToken id hash).tokensOf id).all (·.redeemed)
  store : st' = if last then (st.markToken id hash).endFiles (·.id = id) else st.markToken id hash

theorem redeemFileToken_spec {r : RedeemResult} (h : st.redeemFileToken id hash = (r, st')) :
    AllOrNothing (∃ last, · = .ok last) r st st' (∃ last, r = .ok last ∧ Redeemed st st' id hash last) := by
  unfold redeemFileToken at h
  split_ifs at h with hfile
  · exact .of_refused h (by simp)
  split at h
  · exact .of_refused h (by simp)
  rename_i t ht
  by_cases hredeemed : t.redeemed = true
  · rw [if_pos hredeemed] at h
    exact .of_refused h (by simp)
  rw [if_neg hredeemed] at h
  have hmem : ∃ t ∈ st.tokensOf id, t.tokenHash = hash ∧ t.redeemed = false :=
    ⟨t, List.mem_of_find?_eq_some ht, by simpa using List.find?_some ht, by simpa using hredeemed⟩
  have hsome : (st.findFile id).isSome := by simpa [Option.isSome_iff_ne_none] using hfile
  dsimp only at h
  split_ifs at h with hall <;> obtain ⟨rfl, rfl⟩ := Prod.mk.inj h
  · exact .inl ⟨⟨_, rfl⟩, true, rfl, hsome, hmem, hall.symm, rfl⟩
  · exact .inl ⟨⟨_, rfl⟩, false, rfl, hsome, hmem, (Bool.eq_false_iff.2 hall).symm, rfl⟩

theorem redeemFileToken_ok {last : Bool} (h : st.redeemFileToken id hash = (.ok last, st')) :
    Redeemed st st' id hash last := by
  obtain ⟨last', hlast, hdone⟩ := (redeemFileToken_spec h).done ⟨_, rfl⟩
  exact RedeemResult.ok.inj hlast ▸ hdone

/-! ## Archives -/

theorem createArchive_spec {hashes : List Digest} {genesis : Digest} {closesAt : Time} {maxArchives : ℕ}
    {r : CreateArchiveResult}
    (h : st.createArchive archiveId hashes genesis now closesAt maxArchives = (r, st')) :
    AllOrNothing (· = .ok) r st st' (st.findArchive archiveId = none ∧ st.archives.length < maxArchives ∧
      st' = { st with
        archives := st.archives ++ [⟨archiveId, hashes.length, now, closesAt, 0, genesis, 0, now⟩]
        archiveJoinTokens := hashes.foldl (addJoinToken archiveId) st.archiveJoinTokens }) := by
  unfold createArchive at h
  split_ifs at h with hsome hmax
  · exact .of_refused h (by simp)
  · exact .of_refused h (by simp)
  · obtain ⟨rfl, rfl⟩ := Prod.mk.inj h
    exact .inl ⟨rfl, by simpa using hsome, not_le.1 hmax, rfl⟩

theorem joinArchive_spec {publicKey : Bytes} {keyHash : Digest} {r : JoinResult}
    (h : st.joinArchive archiveId tokenHash keyHash publicKey now = (r, st')) :
    AllOrNothing (· = .ok) r st st' ((st.findArchive archiveId).isSome ∧ st' = { st with
      archiveKeys := st.archiveKeys ++ [⟨archiveId, keyHash, publicKey, now⟩]
      archiveJoinTokens := st.archiveJoinTokens.filter (· ≠ ⟨archiveId, tokenHash⟩) }) := by
  unfold joinArchive at h
  split at h
  · exact .of_refused h (by simp)
  · rename_i a ha
    split_ifs at h
    on_goal 3 =>
      obtain ⟨rfl, rfl⟩ := Prod.mk.inj h
      exact .inl ⟨rfl, ha ▸ rfl, rfl⟩
    all_goals exact .of_refused h (by simp)

theorem appendEntry_spec {number : UInt64} {expectedHash newHash : Digest} {ciphertext : Bytes}
    {r : AppendResult}
    (h : st.appendEntry archiveId number expectedHash newHash ciphertext now quota = (r, st')) :
    AllOrNothing (∃ head, · = .ok head) r st st' (∃ a, st.findArchive archiveId = some a ∧
      a.headNumber = number ∧ a.headHash = expectedHash ∧ a.bytes + ciphertext.length ≤ quota ∧
      r = .ok ⟨number + 1, newHash⟩ ∧ st' = { st with
        archiveEntries := st.archiveEntries ++ [⟨archiveId, number + 1, newHash, ciphertext, now, false⟩]
        archives := st.archives.map fun r =>
          if r.id = archiveId then
            { r with
              headNumber := number + 1, headHash := newHash,
              bytes := a.bytes + ciphertext.length, lastActivity := now }
          else r }) := by
  unfold appendEntry at h
  split at h
  · exact .of_refused h (by simp)
  · rename_i a ha
    dsimp only at h
    split_ifs at h with hstale hfull
    on_goal 4 =>
      obtain ⟨hnumber, hhash⟩ := not_or.1 hstale
      obtain rfl := not_not.1 hnumber
      obtain ⟨rfl, rfl⟩ := Prod.mk.inj h
      exact .inl ⟨⟨_, rfl⟩, a, ha, rfl, not_not.1 hhash, not_lt.1 hfull, rfl, rfl⟩
    all_goals exact .of_refused h (by simp)

theorem redactEntries_spec {hashes : List Digest} {r : RedactResult}
    (h : st.redactEntries archiveId hashes = (r, st')) :
    AllOrNothing (· = .ok) r st st' ((st.findArchive archiveId).isSome ∧ ∃ freed entries,
      redactLoop archiveId hashes st.archiveEntries 0 = some (freed, entries) ∧ st' = { st with
        archiveEntries := entries
        archives := st.archives.map fun r =>
          if r.id = archiveId then { r with bytes := r.bytes - freed } else r }) := by
  unfold redactEntries at h
  split_ifs at h with hnone
  · exact .of_refused h (by simp)
  · split at h
    · exact .of_refused h (by simp)
    · rename_i freed entries hloop
      obtain ⟨rfl, rfl⟩ := Prod.mk.inj h
      exact .inl ⟨rfl, by simpa [Option.isSome_iff_ne_none] using hnone, freed, entries, hloop, rfl⟩

end PqSuite.Relay
