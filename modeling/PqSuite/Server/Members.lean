import PqSuite.Protocol.Codecs
import PqSuite.Server.Authorisation

/-!
# Who can join an archive (`relay_store.cpp`)

The member count of an archive is the length of the list of join tokens it was made with. The tokens are
inserted with conflicts ignored, and `decode_archive_create` lets a list through that names one twice. If
no list does, the tokens not yet used and the registered keys always make up the count: exactly the
announced members can join, and registration is closed when the last of them has.
-/

namespace PqSuite.Relay

open Reach

variable {svc : Service} {now : Time} {ss : Session} {msg : WireMessage} {st st' : RelayStore}
  {rate : RateLimiter} {w : World} {id : Bytes}

namespace RelayStore

def joinTokensOf (s : RelayStore) (archiveId : Bytes) : List JoinTokenRow :=
  s.archiveJoinTokens.filter (·.archiveId = archiveId)

def withMember (st : RelayStore) (id : Bytes) (tokenHash keyHash : Digest) (publicKey : Bytes) (now : Time) :
    RelayStore :=
  { st with
    archiveKeys := st.archiveKeys ++ [⟨id, keyHash, publicKey, now⟩]
    archiveJoinTokens := st.archiveJoinTokens.filter (· ≠ ⟨id, tokenHash⟩) }

/-- Tokens and keys are of archives that are there, and make up their member counts. -/
structure Counted (st : RelayStore) : Prop where
  ids : (st.archives.map (·.id)).Nodup
  tokens : st.archiveJoinTokens.Nodup
  ofToken : ∀ t ∈ st.archiveJoinTokens, ∃ a ∈ st.archives, a.id = t.archiveId
  ofKey : ∀ k ∈ st.archiveKeys, ∃ a ∈ st.archives, a.id = k.archiveId
  count : ∀ a ∈ st.archives, (st.joinTokensOf a.id).length + (st.keysOf a.id).length = a.memberCount

namespace Counted

variable {hashes : List Digest} {tokenHash : Digest}

theorem row_eq (h : st.Counted) {a b : ArchiveRow} (ha : a ∈ st.archives) (hb : b ∈ st.archives)
    (hid : a.id = b.id) : a = b :=
  List.inj_on_of_nodup_map h.ids ha hb hid

theorem update (h : st.Counted) {f : ArchiveRow → ArchiveRow} (harchives : st'.archives = st.archives.map f)
    (hid : ∀ a, (f a).id = a.id) (hcount : ∀ a, (f a).memberCount = a.memberCount)
    (htokens : st'.archiveJoinTokens = st.archiveJoinTokens) (hkeys : st'.archiveKeys = st.archiveKeys) :
    st'.Counted := by
  have hrow : ∀ {id}, (∃ a ∈ st.archives, a.id = id) → ∃ a ∈ st'.archives, a.id = id := by
    rintro _ ⟨a, ha, rfl⟩
    exact ⟨f a, harchives ▸ List.mem_map_of_mem ha, hid a⟩
  refine ⟨?_, htokens ▸ h.tokens, fun t ht => hrow (h.ofToken t (htokens ▸ ht)),
    fun k hk => hrow (h.ofKey k (hkeys ▸ hk)), fun a' ha' => ?_⟩
  · rw [harchives, Rows.map_key hid]
    exact h.ids
  · rw [harchives] at ha'
    obtain ⟨a, ha, rfl⟩ := List.mem_map.1 ha'
    rw [joinTokensOf, keysOf, htokens, hkeys, hid, hcount]
    exact h.count a ha

theorem of_same (h : st.Counted) (hsame : SameArchives st st') : st'.Counted :=
  h.update (f := id) (by rw [hsame.archives, List.map_id]) (fun _ => rfl) (fun _ => rfl) hsame.joinTokens
    hsame.keys

/-! ### A new archive -/

/-- Tokens that are all different, for an archive that has none. -/
theorem foldl_addJoinToken {tokens : List JoinTokenRow} (hnodup : hashes.Nodup)
    (hnew : ∀ hash ∈ hashes, ⟨id, hash⟩ ∉ tokens) :
    hashes.foldl (addJoinToken id) tokens = tokens ++ hashes.map (⟨id, ·⟩) := by
  induction hashes generalizing tokens with
  | nil => rw [List.foldl_nil, List.map_nil, List.append_nil]
  | cons hash hashes ih =>
    obtain ⟨hnot, hnodup⟩ := List.nodup_cons.1 hnodup
    rw [List.foldl_cons, addJoinToken, if_neg (hnew hash List.mem_cons_self), ih hnodup, List.map_cons,
      List.append_assoc, List.singleton_append]
    intro other hother hmem
    rcases List.mem_append.1 hmem with hmem | hmem
    · exact hnew other (List.mem_cons_of_mem hash hother) hmem
    · have hsame : other = hash := congrArg JoinTokenRow.tokenHash (List.mem_singleton.1 hmem)
      exact hnot (hsame ▸ hother)

theorem create (h : st.Counted) {genesis : Digest} {closesAt : Time} {n : ℕ} (hnodup : hashes.Nodup)
    (hmade : st.createArchive id hashes genesis now closesAt n = (.ok, st')) : st'.Counted := by
  unfold createArchive at hmade
  split_ifs at hmade with hsome hmax
  · cases hmade
  · cases hmade
  obtain rfl := (Prod.mk.inj hmade).2
  have hnone : ∀ a ∈ st.archives, a.id ≠ id :=
    Rows.lookup_eq_none.1 (Option.not_isSome_iff_eq_none.1 hsome)
  have htokens : ∀ t ∈ st.archiveJoinTokens, t.archiveId ≠ id := by
    intro t ht heq
    obtain ⟨a, ha, hid⟩ := h.ofToken t ht
    exact hnone a ha (hid.trans heq)
  have hkeys : ∀ k ∈ st.archiveKeys, k.archiveId ≠ id := by
    intro k hk heq
    obtain ⟨a, ha, hid⟩ := h.ofKey k hk
    exact hnone a ha (hid.trans heq)
  rw [foldl_addJoinToken hnodup fun hash _ hmem => htokens _ hmem rfl]
  have hinj : Function.Injective fun hash => JoinTokenRow.mk id hash := fun _ _ heq =>
    congrArg JoinTokenRow.tokenHash heq
  refine ⟨?_, ?_, fun t ht => ?_, fun k hk => ?_, fun a ha => ?_⟩
  · exact Rows.nodup_concat h.ids hnone
  · rw [List.nodup_append]
    refine ⟨h.tokens, hnodup.map hinj, fun t ht t' ht' heq => ?_⟩
    obtain ⟨hash, -, rfl⟩ := List.mem_map.1 ht'
    exact htokens t ht (heq ▸ rfl)
  · rcases List.mem_append.1 ht with ht | ht
    · obtain ⟨a, ha, hid⟩ := h.ofToken t ht
      exact ⟨a, List.mem_append_left _ ha, hid⟩
    · obtain ⟨hash, -, rfl⟩ := List.mem_map.1 ht
      exact ⟨_, List.mem_append_right _ (List.mem_singleton.2 rfl), rfl⟩
  · obtain ⟨a, ha, hid⟩ := h.ofKey k hk
    exact ⟨a, List.mem_append_left _ ha, hid⟩
  · rw [joinTokensOf, List.filter_append]
    rcases List.mem_append.1 ha with ha | ha
    · -- an archive that was there before
      have hnot : ((hashes.map (JoinTokenRow.mk id ·)).filter (·.archiveId = a.id)) = [] := by
        rw [List.filter_eq_nil_iff]
        intro t ht
        obtain ⟨hash, -, rfl⟩ := List.mem_map.1 ht
        simpa using fun heq => hnone a ha heq.symm
      rw [hnot, List.append_nil]
      exact h.count a ha
    · obtain rfl := List.mem_singleton.1 ha
      have hold : st.archiveJoinTokens.filter (·.archiveId = id) = [] :=
        List.filter_eq_nil_iff.2 fun t ht => by simpa using htokens t ht
      have hall : (hashes.map (JoinTokenRow.mk id ·)).filter (·.archiveId = id) =
          hashes.map (JoinTokenRow.mk id ·) := by
        refine List.filter_eq_self.2 fun t ht => ?_
        obtain ⟨hash, -, rfl⟩ := List.mem_map.1 ht
        simp
      have hnokeys : st.archiveKeys.filter (·.archiveId = id) = [] :=
        List.filter_eq_nil_iff.2 fun k hk => by simpa using hkeys k hk
      rw [keysOf]
      dsimp only
      rw [hold, hall, hnokeys, List.nil_append, List.length_map, List.length_nil, Nat.add_zero]

/-! ### A new member -/

theorem erase_joinTokensOf (h : st.Counted) :
    (st.joinTokensOf id).erase ⟨id, tokenHash⟩ =
      (st.archiveJoinTokens.filter (· ≠ ⟨id, tokenHash⟩)).filter (·.archiveId = id) := by
  have hnodup : (st.joinTokensOf id).Nodup := h.tokens.filter _
  rw [hnodup.erase_eq_filter, joinTokensOf, List.filter_filter, List.filter_filter]
  refine List.filter_congr fun t _ => ?_
  rw [Bool.eq_iff_iff]
  simp [and_comm]

/-- Without the token that was used there is one less. -/
theorem length_joinTokensOf (h : st.Counted) (htoken : ⟨id, tokenHash⟩ ∈ st.archiveJoinTokens) :
    ((st.archiveJoinTokens.filter (· ≠ ⟨id, tokenHash⟩)).filter (·.archiveId = id)).length + 1 =
      (st.joinTokensOf id).length := by
  have hmem : (⟨id, tokenHash⟩ : JoinTokenRow) ∈ st.joinTokensOf id :=
    List.mem_filter.2 ⟨htoken, by simp⟩
  rw [← h.erase_joinTokensOf, List.length_erase_of_mem hmem]
  have hpos : 0 < (st.joinTokensOf id).length := List.length_pos_of_mem hmem
  omega

/-- A token that is left is enough: the members are never complete before the tokens are used up. -/
theorem join_eq (h : st.Counted) {a : ArchiveRow} (ha : a ∈ st.archives) (hid : a.id = id)
    (tokenHash keyHash : Digest) (publicKey : Bytes) (now : Time) :
    st.joinArchive id tokenHash keyHash publicKey now =
      if ⟨id, tokenHash⟩ ∉ st.archiveJoinTokens then (.badToken, st)
      else if a.closesAt ≤ now then (.closed, st)
      else if (st.keysOf id).any (·.keyHash = keyHash) then (.keyExists, st)
      else (.ok, withMember st id tokenHash keyHash publicKey now) := by
  have hfind : st.findArchive id = some a := hid ▸ Rows.lookup_of_mem h.ids ha
  rw [joinArchive, hfind]
  dsimp only
  by_cases htoken : ⟨id, tokenHash⟩ ∉ st.archiveJoinTokens
  · rw [if_pos htoken, if_pos htoken]
  rw [if_neg htoken, if_neg htoken]
  have hleft := h.length_joinTokensOf (not_not.1 htoken)
  have hcount := h.count a ha
  rw [hid] at hcount
  have hroom : ¬(st.keysOf id).length ≥ a.memberCount := by omega
  simp only [hroom, false_or, ge_iff_le]
  rfl

theorem join (h : st.Counted) {keyHash : Digest} {publicKey : Bytes}
    (hjoined : st.joinArchive id tokenHash keyHash publicKey now = (.ok, st')) : st'.Counted := by
  have hfound : ∃ a ∈ st.archives, a.id = id := by
    rw [← findArchive_isSome]
    by_contra hnone
    rw [joinArchive, Option.not_isSome_iff_eq_none.1 hnone] at hjoined
    cases hjoined
  obtain ⟨a, ha, hid⟩ := hfound
  rw [h.join_eq ha hid] at hjoined
  by_cases htoken : ⟨id, tokenHash⟩ ∉ st.archiveJoinTokens
  · rw [if_pos htoken] at hjoined
    cases hjoined
  rw [if_neg htoken] at hjoined
  split_ifs at hjoined
  · cases hjoined
  · cases hjoined
  obtain rfl := (Prod.mk.inj hjoined).2
  refine ⟨h.ids, h.tokens.filter _, fun t ht => h.ofToken t (List.mem_filter.1 ht).1, fun k hk => ?_,
    fun b hb => ?_⟩
  · rcases List.mem_append.1 hk with hk | hk
    · exact h.ofKey k hk
    · rw [List.mem_singleton.1 hk]
      exact ⟨a, ha, hid⟩
  · have hcount := h.count b hb
    rw [joinTokensOf, keysOf, withMember]
    dsimp only
    rw [List.filter_append]
    by_cases hb' : b.id = id
    · have hleft := h.length_joinTokensOf (not_not.1 htoken)
      rw [hb'] at hcount ⊢
      have hnew : [(⟨id, keyHash, publicKey, now⟩ : ArchiveKeyRow)].filter (·.archiveId = id) =
          [⟨id, keyHash, publicKey, now⟩] := by simp
      rw [hnew, List.length_append, List.length_singleton]
      rw [keysOf] at hcount
      omega
    · have hother : (st.archiveJoinTokens.filter (· ≠ ⟨id, tokenHash⟩)).filter (·.archiveId = b.id) =
          st.joinTokensOf b.id := by
        refine filter_filter_of_imp fun t ht => ?_
        have htid : t.archiveId = b.id := by simpa using ht
        have hne : t ≠ ⟨id, tokenHash⟩ := fun heq => hb' (htid.symm.trans (congrArg (·.archiveId) heq))
        simpa using hne
      have hnew : [(⟨id, keyHash, publicKey, now⟩ : ArchiveKeyRow)].filter (·.archiveId = b.id) = [] := by
        simpa using fun heq => hb' heq.symm
      rw [hother, hnew, List.append_nil]
      exact hcount

/-! ### Archives that go -/

theorem delete (h : st.Counted) (p : ArchiveRow → Bool) : (st.deleteArchives p).Counted := by
  have hkept : ∀ {a : ArchiveRow}, a ∈ st.archives → p a = false →
      ∀ b ∈ st.archives, b.id = a.id → p b = false := by
    intro a ha hpa b hb hid
    rw [h.row_eq hb ha hid]
    exact hpa
  refine ⟨?_, h.tokens.filter _, fun t ht => ?_, fun k hk => ?_, fun a ha => ?_⟩
  · exact h.ids.sublist (List.filter_sublist.map _)
  · obtain ⟨ht, hnot⟩ := List.mem_filter.1 ht
    obtain ⟨a, ha, hid⟩ := h.ofToken t ht
    refine ⟨a, mem_archives_deleteArchives.2 ⟨ha, ?_⟩, hid⟩
    by_contra hp
    simp only [Bool.not_eq_true', List.any_eq_false, decide_eq_true_eq, not_and] at hnot
    exact hnot a ha hid (by simpa using hp)
  · obtain ⟨hk, hkeep⟩ := mem_keys_deleteArchives.1 hk
    obtain ⟨a, ha, hid⟩ := h.ofKey k hk
    exact ⟨a, mem_archives_deleteArchives.2 ⟨ha, hkeep a ha hid⟩, hid⟩
  · obtain ⟨ha, hpa⟩ := mem_archives_deleteArchives.1 ha
    have htokens : (st.deleteArchives p).joinTokensOf a.id = st.joinTokensOf a.id := by
      refine filter_filter_of_imp fun t ht => ?_
      have hid : t.archiveId = a.id := by simpa using ht
      simpa [hid] using hkept ha hpa
    have hkeys : (st.deleteArchives p).keysOf a.id = st.keysOf a.id := by
      refine filter_filter_of_imp fun k hk => ?_
      have hid : k.archiveId = a.id := by simpa using hk
      simpa [hid] using hkept ha hpa
    rw [htokens, hkeys]
    exact h.count a ha

theorem sweep (h : st.Counted) : (st.sweep now).Counted := by
  have hsame : SameArchives st { st with
      envelopes := st.envelopes.filter fun e => now < e.expiresAt
      invites := st.invites.filter fun r => now < r.expiresAt } := ⟨rfl, rfl, rfl, rfl⟩
  exact (h.of_same hsame).delete _

theorem append (h : st.Counted) {ciphertext : Bytes} {number : UInt64} {expectedHash newHash : Digest}
    {quota : ℕ} {head : ArchiveHead}
    (hdone : st.appendEntry id number expectedHash newHash ciphertext now quota = (.ok head, st')) :
    st'.Counted := by
  obtain ⟨_, -, -, -, -, -, rfl⟩ := (appendEntry_spec hdone).done ⟨_, rfl⟩
  exact h.update rfl (fun a => by split_ifs <;> rfl) (fun a => by split_ifs <;> rfl) rfl rfl

theorem redact (h : st.Counted) (hdone : st.redactEntries id hashes = (.ok, st')) : st'.Counted := by
  obtain ⟨-, _, _, -, rfl⟩ := (redactEntries_spec hdone).done rfl
  exact h.update rfl (fun a => by split_ifs <;> rfl) (fun a => by split_ifs <;> rfl) rfl rfl

/-- Registration is open as long as a token is left. -/
theorem registrationOpen_iff (h : st.Counted) {a : ArchiveRow} (ha : a ∈ st.archives) (now : Time) :
    (st.archiveInfo a.id now).any (·.registrationOpen) = true ↔
      st.joinTokensOf a.id ≠ [] ∧ now < a.closesAt := by
  have hfind : st.findArchive a.id = some a := Rows.lookup_of_mem h.ids ha
  have hcount := h.count a ha
  rw [archiveInfo, hfind, Option.map_some, Option.any_some, decide_eq_true_eq, ← List.length_pos_iff]
  refine and_congr_left fun _ => ?_
  omega

end Counted

/-! ### Everyone joins -/

structure Join where
  tokenHash : Digest
  keyHash : Digest
  publicKey : Bytes
  now : Time

def joins (st : RelayStore) (archiveId : Bytes) : List Join → List JoinResult × RelayStore
  | [] => ([], st)
  | j :: js =>
    let (result, st) := st.joinArchive archiveId j.tokenHash j.keyHash j.publicKey j.now
    let (results, st) := st.joins archiveId js
    (result :: results, st)

/-- Members who have one of the tokens each, with keys that are new, all join. -/
theorem Counted.joins_eq (h : st.Counted) {a : ArchiveRow} (ha : a ∈ st.archives) {js : List Join}
    (htokens : (js.map fun j => JoinTokenRow.mk a.id j.tokenHash).Perm (st.joinTokensOf a.id))
    (hkeys : (js.map (·.keyHash)).Nodup)
    (hnew : ∀ j ∈ js, ∀ k ∈ st.keysOf a.id, k.keyHash ≠ j.keyHash)
    (hopen : ∀ j ∈ js, j.now < a.closesAt) :
    ∃ st', st.joins a.id js = (js.map fun _ => .ok, st') ∧ st'.Counted ∧ a ∈ st'.archives ∧
      st'.joinTokensOf a.id = [] := by
  induction js generalizing st with
  | nil => exact ⟨st, rfl, h, ha, htokens.symm.eq_nil⟩
  | cons j js ih =>
    have hmem : (⟨a.id, j.tokenHash⟩ : JoinTokenRow) ∈ st.joinTokensOf a.id :=
      htokens.subset List.mem_cons_self
    have htoken : ¬(⟨a.id, j.tokenHash⟩ : JoinTokenRow) ∉ st.archiveJoinTokens :=
      not_not.2 (List.mem_filter.1 hmem).1
    have hkey : ¬(st.keysOf a.id).any (·.keyHash = j.keyHash) = true := by
      rw [List.any_eq_true]
      rintro ⟨k, hk, heq⟩
      exact hnew j List.mem_cons_self k hk (by simpa using heq)
    have hjoined := h.join_eq ha rfl j.tokenHash j.keyHash j.publicKey j.now
    rw [if_neg htoken, if_neg (by have := hopen j List.mem_cons_self; lia), if_neg hkey] at hjoined
    obtain ⟨hnot, hkeys⟩ := List.nodup_cons.1 hkeys
    have hleft : (js.map fun j => JoinTokenRow.mk a.id j.tokenHash).Perm
        ((st.withMember a.id j.tokenHash j.keyHash j.publicKey j.now).joinTokensOf a.id) := by
      have herase := (List.cons_perm_iff_perm_erase.1 htokens).2
      rwa [h.erase_joinTokensOf] at herase
    have hfresh : ∀ j' ∈ js, ∀ k ∈ (st.withMember a.id j.tokenHash j.keyHash j.publicKey j.now).keysOf a.id,
        k.keyHash ≠ j'.keyHash := by
      intro j' hj' k hk
      obtain ⟨hk, hid⟩ := List.mem_filter.1 hk
      rcases List.mem_append.1 hk with hk | hk
      · exact hnew j' (List.mem_cons_of_mem j hj') k (List.mem_filter.2 ⟨hk, hid⟩)
      · rw [List.mem_singleton.1 hk]
        exact fun heq => hnot (List.mem_map.2 ⟨j', hj', heq.symm⟩)
    obtain ⟨st', hrest, hcounted, ha', hnone⟩ := ih (h.join hjoined) ha hleft hkeys hfresh fun j' hj' =>
      hopen j' (List.mem_cons_of_mem j hj')
    refine ⟨st', ?_, hcounted, ha', hnone⟩
    rw [joins, hjoined]
    dsimp only
    rw [hrest, List.map_cons]

end RelayStore

/-! ## The relay -/

/-- A request for an archive names every token once. -/
def Event.NamesTokensOnce : Event → Prop
  | .message _ _ msg => msg.type = .archiveCreate → ∀ m, decodeArchiveCreate msg.payload = some m →
    m.joinTokenHashes.Nodup
  | _ => True

theorem Request.counted {o : Outcome} (h : Request svc ss msg st o) (hst : st.Counted)
    (honce : msg.type = .archiveCreate → ∀ m, decodeArchiveCreate msg.payload = some m →
      m.joinTokenHashes.Nodup) : o.store.Counted := by
  cases h with
  | mail h => exact hst.of_same h.mailOnly.archives
  | file h => exact hst.of_same h.filesOnly.archives
  | archive h =>
    cases h with
    | @created rate mb m _ _ _ _ hmb ht hm h => exact hst.create (honce ht m hm) h
    | joined rate h => exact hst.join h
    | appended rate hss ht hm hmax hinput h => exact hst.append h
    | _ => exact hst
  | _ => exact hst

theorem Resumed.counted {work : Pending} {o : Outcome} (h : Resumed svc now ss st rate work o)
    (hst : st.Counted) : o.store.Counted := by
  cases h with
  | mail h => exact hst.of_same h.mailOnly.archives
  | file h => exact hst.of_same h.filesOnly.archives
  | push collect batch =>
    rw [(resumePush_store now ss st rate collect batch).1]
    exact hst
  | agreed => exact hst
  | deleteArchive archiveId => exact hst.delete _
  | redactEntries h => exact hst.redact h

theorem World.counted_step (hw : w.store.Counted) {e : Event} (honce : e.NamesTokensOnce) :
    (w.step svc e).store.Counted := by
  by_cases hq : e.quiet = true
  · exact hw.of_same (World.step_quiet hq).1
  cases e with
  | message i now msg =>
    exact World.message_rule (P := fun v => v.store.Counted) hw fun ss _ _ =>
      (handleMessage_request svc now ss msg w.store w.rate).counted hw honce
  | resume i now =>
    exact World.resume_rule (P := fun v => v.store.Counted) hw fun ss work _ _ =>
      (resume_resumed svc now ss w.store w.rate work).counted hw
  | sweep now => exact hw.sweep
  | _ => exact absurd rfl hq

theorem World.counted_init (hw : w.Init) : w.store.Counted := by
  obtain ⟨harchives, -, hkeys, htokens, -⟩ := hw
  refine ⟨?_, ?_, ?_, ?_, ?_⟩
  · rw [harchives]
    exact .nil
  · rw [htokens]
    exact .nil
  · rw [htokens]
    exact fun t ht => absurd ht List.not_mem_nil
  · rw [hkeys]
    exact fun k hk => absurd hk List.not_mem_nil
  · rw [harchives]
    exact fun a ha => absurd ha List.not_mem_nil

/-- In every run of the relay in which the requests for archives name each token once: a join succeeds
exactly with a token that is left, before the archive closes and with a new key, and uses the token; and
members with one of these tokens each can all join, after which registration is closed. -/
theorem members_join_once
    (hr : Reachable World.Init (Under (fun _ e => Event.NamesTokensOnce e) (World.Step svc)) w) :
    ∀ a ∈ w.store.archives,
      (w.store.joinTokensOf a.id).length + (w.store.keysOf a.id).length = a.memberCount ∧
      (∀ tokenHash keyHash publicKey now st',
        w.store.joinArchive a.id tokenHash keyHash publicKey now = (.ok, st') ↔
          (⟨a.id, tokenHash⟩ ∈ w.store.archiveJoinTokens ∧ now < a.closesAt ∧
            ∀ k ∈ w.store.keysOf a.id, k.keyHash ≠ keyHash) ∧
          st' = w.store.withMember a.id tokenHash keyHash publicKey now) ∧
      (∀ now, (w.store.archiveInfo a.id now).any (·.registrationOpen) = true ↔
        w.store.joinTokensOf a.id ≠ [] ∧ now < a.closesAt) ∧
      ∀ js : List RelayStore.Join,
        (js.map fun j => JoinTokenRow.mk a.id j.tokenHash).Perm (w.store.joinTokensOf a.id) →
        (js.map (·.keyHash)).Nodup → (∀ j ∈ js, ∀ k ∈ w.store.keysOf a.id, k.keyHash ≠ j.keyHash) →
        (∀ j ∈ js, j.now < a.closesAt) →
        ∃ st', w.store.joins a.id js = (js.map fun _ => .ok, st') ∧
          (st'.keysOf a.id).length = a.memberCount ∧
          ∀ now, (st'.archiveInfo a.id now).any (·.registrationOpen) = false := by
  have hw : w.store.Counted := hr.invariant (P := fun w => w.store.Counted)
    (fun w hw => World.counted_init hw) fun w e w' hw hstep => by
      obtain ⟨honce, rfl⟩ := hstep
      exact World.counted_step hw honce
  intro a ha
  refine ⟨hw.count a ha, fun tokenHash keyHash publicKey now st' => ?_, hw.registrationOpen_iff ha,
    fun js htokens hkeys hnew hopen => ?_⟩
  · rw [hw.join_eq ha rfl]
    by_cases htoken : (⟨a.id, tokenHash⟩ : JoinTokenRow) ∈ w.store.archiveJoinTokens
    · rw [if_neg (not_not.2 htoken)]
      split_ifs with hclosed hkey
      · have hlate : ¬now < a.closesAt := by lia
        simp [hlate]
      · obtain ⟨k, hk, heq⟩ := List.any_eq_true.1 hkey
        have hold : ¬∀ k ∈ w.store.keysOf a.id, k.keyHash ≠ keyHash := fun hall =>
          hall k hk (by simpa using heq)
        simp [hold]
      · have hearly : now < a.closesAt := by lia
        have hfresh : ∀ k ∈ w.store.keysOf a.id, k.keyHash ≠ keyHash := fun k hk heq =>
          hkey (List.any_eq_true.2 ⟨k, hk, by simpa using heq⟩)
        rw [Prod.mk.injEq]
        exact ⟨fun h => ⟨⟨htoken, hearly, hfresh⟩, h.2.symm⟩, fun h => ⟨rfl, h.2.symm⟩⟩
    · rw [if_pos htoken]
      simp [htoken]
  · obtain ⟨st', hjoins, hcounted, ha', hnone⟩ := hw.joins_eq ha htokens hkeys hnew hopen
    refine ⟨st', hjoins, ?_, fun now => ?_⟩
    · have hcount := hcounted.count a ha'
      rw [hnone, List.length_nil, Nat.zero_add] at hcount
      exact hcount
    · rw [← Bool.not_eq_true, hcounted.registrationOpen_iff ha']
      exact fun h => h.1 hnone

def sampleCreation (hashes : List Digest) : List Event :=
  [.connect 0 [] [], .message 0 100 ⟨.relayAuth, writeBlob sampleMailbox ++ writeBlob [1]⟩,
    .message 0 100 ⟨.archiveCreate, encodeArchiveCreate ⟨sampleArchive, hashes⟩⟩]

def sampleCreated (hashes : List Digest) : World :=
  (sampleCreation hashes).foldl (World.step sampleService) sampleWorld

/-- An archive for two has both tokens, and is closed when two have joined. -/
theorem members_join_once_sample :
    (sampleCreated [byteSum [1], byteSum [2]]).store.archives.map (·.memberCount) = [2] ∧
      ∀ a ∈ (sampleCreated [byteSum [1], byteSum [2]]).store.archives,
        ((sampleCreated [byteSum [1], byteSum [2]]).store.joinTokensOf a.id).length +
          ((sampleCreated [byteSum [1], byteSum [2]]).store.keysOf a.id).length = a.memberCount := by
  have hinit : sampleWorld.Init := ⟨rfl, rfl, rfl, rfl, fun _ => rfl, rfl, rfl⟩
  have hdecode : decodeArchiveCreate (encodeArchiveCreate ⟨sampleArchive, [byteSum [1], byteSum [2]]⟩) =
      some ⟨sampleArchive, [byteSum [1], byteSum [2]]⟩ :=
    decodeArchiveCreate_eq_some.2 ⟨⟨rfl, by decide, by decide⟩, rfl⟩
  have honce : Along (fun _ e => Event.NamesTokensOnce e) (World.step sampleService) sampleWorld
      (sampleCreation [byteSum [1], byteSum [2]]) := by
    refine ⟨trivial, fun h => ?_, fun _ m hm => ?_, trivial⟩
    · cases h
    · rw [Option.some.inj (hm.symm.trans hdecode)]
      decide
  have hstart : Reachable World.Init (Under (fun _ e => Event.NamesTokensOnce e) (World.Step sampleService))
      sampleWorld := .start hinit
  have hr := reachable_foldl_under World.step_step hstart honce
  exact ⟨by decide +kernel, fun a ha => (members_join_once hr a ha).1⟩

def sampleTwice : RelayStore := (sampleCreated [byteSum sampleToken, byteSum sampleToken]).store

def sampleJoined : RelayStore :=
  (sampleTwice.joinArchive sampleArchive (byteSum sampleToken) (byteSum sampleKey) sampleKey 101).2

/-- It announces two members and has one token. After one has joined, registration is still open, and no
token is left. -/
theorem token_named_twice :
    sampleTwice.archives.map (·.memberCount) = [2] ∧ (sampleTwice.joinTokensOf sampleArchive).length = 1 ∧
      (sampleTwice.keysOf sampleArchive).length = 0 ∧ (sampleJoined.keysOf sampleArchive).length = 1 ∧
      sampleJoined.joinTokensOf sampleArchive = [] ∧
      (sampleJoined.archiveInfo sampleArchive 102).any (·.registrationOpen) = true := by
  decide +kernel

end PqSuite.Relay
