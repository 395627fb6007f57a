import PqSuite.Server.Frames

/-!
# The tokens of a file (`relay_store.cpp`)

A file's record is a row of one table and its recipients' tokens are rows of another, linked by a
cascade. What an operation can do to the two tables is said once, by `FileEffect`, and everything else
follows from it: a file's tokens only become fewer or redeemed, and a record is there exactly as long as
one of its tokens is not redeemed, or until it is cancelled or swept.
-/

namespace PqSuite.Relay

namespace RelayStore

/-! ## Operations -/

/-- What the relay does with its files, and what it does with its other tables. -/
inductive FileOp where
  | begin (owner : Bytes) (m : FileBegin) (now : Time) (quotaBytes : ℕ)
  | finish (fileId : Bytes)
  | check (fileId : Bytes) (tokenHash : Digest) (now : Time)
  | redeem (fileId : Bytes) (tokenHash : Digest)
  /-- By its owner, or by the relay itself if the owner is empty. -/
  | cancel (fileId owner : Bytes)
  | sweep (now abandonedBefore : Time)
  | removeMailbox (mailboxId : Bytes)
  | elsewhere (change : RelayStore → RelayStore)

def FileOp.run (s : RelayStore) : FileOp → RelayStore
  | .begin owner m now quotaBytes => (s.beginFile owner m now quotaBytes).2
  | .finish fileId => s.finishFile fileId
  | .check .. => s
  | .redeem fileId tokenHash => (s.redeemFileToken fileId tokenHash).2
  | .cancel fileId owner => (s.deleteFile fileId owner).2
  | .sweep now abandonedBefore => (s.sweepFiles now abandonedBefore).2
  | .removeMailbox mailboxId => s.deleteMailbox mailboxId
  | .elsewhere change => { change s with files := s.files, fileTokens := s.fileTokens }

def FileOp.Begins (id : Bytes) : FileOp → Prop
  | .begin _ m _ _ => m.fileId = id
  | .finish _ | .check .. | .redeem .. | .cancel .. | .sweep .. | .removeMailbox _ | .elsewhere _ => False

def Selects (s : RelayStore) (p : FileRow → Bool) (id : Bytes) : Bool :=
  s.files.any fun f => f.id = id ∧ p f

inductive FileEffect (s s' : RelayStore) : FileOp → Prop
  | none {op : FileOp} (hfiles : s'.files = s.files) (htokens : s'.fileTokens = s.fileTokens) :
      FileEffect s s' op
  | begins {owner : Bytes} {m : FileBegin} {now : Time} {quotaBytes : ℕ} (f : FileRow)
      (hnew : s.findFile m.fileId = Option.none) (hid : f.id = m.fileId) (hfiles : s'.files = s.files ++ [f])
      (htokens : s'.fileTokens = s.fileTokens ++ m.tokenHashes.map fun h => ⟨m.fileId, h, false⟩) :
      FileEffect s s' (.begin owner m now quotaBytes)
  | changes {op : FileOp} (g : FileRow → FileRow) (hg : ∀ f, (g f).id = f.id)
      (hfiles : s'.files = s.files.map g) (htokens : s'.fileTokens = s.fileTokens) : FileEffect s s' op
  | redeems {fileId : Bytes} {tokenHash : Digest} (hfiles : s'.files = s.files)
      (htokens : s'.fileTokens = s.fileTokens.map (useToken fileId tokenHash))
      (hleft : ∃ t ∈ s'.tokensOf fileId, t.redeemed = false) : FileEffect s s' (.redeem fileId tokenHash)
  | drops {op : FileOp} (p : FileRow → Bool) (hfiles : s'.files = s.files.filter fun f => !p f)
      (htokens : s'.fileTokens = s.fileTokens.filter fun t => !s.Selects p t.fileId) : FileEffect s s' op

theorem mem_tokensOf {s : RelayStore} {id : Bytes} {t : FileTokenRow} :
    t ∈ s.tokensOf id ↔ t ∈ s.fileTokens ∧ t.fileId = id := by
  simp [tokensOf]

theorem useToken_fileId (fileId : Bytes) (tokenHash : Digest) (t : FileTokenRow) :
    (useToken fileId tokenHash t).fileId = t.fileId := by
  unfold useToken
  split_ifs <;> rfl

theorem useToken_tokenHash (fileId : Bytes) (tokenHash : Digest) (t : FileTokenRow) :
    (useToken fileId tokenHash t).tokenHash = t.tokenHash := by
  unfold useToken
  split_ifs <;> rfl

theorem useToken_redeemed {fileId : Bytes} {tokenHash : Digest} {t : FileTokenRow}
    (h : t.redeemed = true) : (useToken fileId tokenHash t).redeemed = true := by
  unfold useToken
  split_ifs
  · rfl
  · exact h

/-! ## Redeeming -/

section redeem

variable {s s' : RelayStore} {id : Bytes} {hash : Digest} {last : Bool}

theorem tokensOf_markToken :
    (s.markToken id hash).tokensOf id = (s.tokensOf id).map (useToken id hash) :=
  Rows.filter_map_of_key FileTokenRow.fileId (useToken id hash) (useToken_fileId id hash) (· = id)

/-- The tokens of the file are gone, and those of others were not marked. -/
theorem endFiles_markToken (hfile : (s.findFile id).isSome) :
    ((s.markToken id hash).endFiles (·.id = id)).fileTokens =
      s.fileTokens.filter fun t => !s.Selects (·.id = id) t.fileId := by
  obtain ⟨f, hf, hid⟩ := Rows.lookup_isSome.1 hfile
  have hkey := Rows.filter_map_of_key (l := s.fileTokens) FileTokenRow.fileId (useToken id hash)
    (useToken_fileId id hash) fun k => !s.Selects (·.id = id) k
  refine hkey.trans ((List.map_congr_left fun t ht => ?_).trans (List.map_id _))
  have hother : t.fileId ≠ id := by
    intro heq
    have hkept := (List.mem_filter.1 ht).2
    rw [Bool.not_eq_true', Selects, List.any_eq_false] at hkept
    exact hkept f hf (by simp [hid, heq])
  exact if_neg fun h => hother h.1

end redeem

theorem fileEffect_run (s : RelayStore) (op : FileOp) : FileEffect s (op.run s) op := by
  cases op with
  | begin owner m now quotaBytes =>
    cases hrun : s.beginFile owner m now quotaBytes with
    | mk r s' =>
      rw [FileOp.run, hrun]
      by_cases hr : r = .ok
      · obtain ⟨-, hnew, -, rfl⟩ := (beginFile_spec hrun).done hr
        exact .begins _ hnew rfl rfl rfl
      · obtain rfl := (beginFile_spec hrun).kept hr
        exact .none rfl rfl
  | finish fileId =>
    refine .changes (fun f => if f.id = fileId then { f with ready := true } else f) (fun f => ?_) rfl rfl
    split_ifs <;> rfl
  | check | elsewhere => exact .none rfl rfl
  | redeem fileId tokenHash =>
    cases hrun : s.redeemFileToken fileId tokenHash with
    | mk r s' =>
      rw [FileOp.run, hrun]
      cases r with
      | ok last =>
        obtain ⟨hfile, -, hlast, hs'⟩ := redeemFileToken_ok hrun
        cases last with
        | true =>
          rw [if_pos rfl] at hs'
          subst hs'
          exact .drops (·.id = fileId) rfl (endFiles_markToken hfile)
        | false =>
          rw [if_neg Bool.false_ne_true] at hs'
          subst hs'
          refine .redeems rfl rfl ?_
          simpa using hlast
      | noSuchFile | badToken | alreadyRedeemed =>
        obtain rfl := (redeemFileToken_spec hrun).kept (by simp)
        exact .none rfl rfl
  | cancel fileId owner =>
    rw [FileOp.run, deleteFile]
    split_ifs
    · exact .drops (·.id = fileId) rfl rfl
    · exact .drops (fun f => f.id = fileId ∧ f.owner = owner) rfl rfl
  | sweep now abandonedBefore =>
    exact .drops (fun f => f.expiresAt ≤ now ∨ (f.ready = false ∧ f.createdAt ≤ abandonedBefore)) rfl rfl
  | removeMailbox mailboxId =>
    refine .drops (·.owner = mailboxId) (List.filter_congr fun f _ => by simp) ?_
    refine List.filter_congr fun t _ => ?_
    simp [Selects]

/-! ## What holds of the two tables -/

/-- The keys of the tables, the link between them, and a token that is left for each record. -/
structure FilesSound (s : RelayStore) : Prop where
  ids : (s.files.map (·.id)).Nodup
  tokens : (s.fileTokens.map fun t => (t.fileId, t.tokenHash)).Nodup
  linked : ∀ t ∈ s.fileTokens, ∃ f ∈ s.files, f.id = t.fileId
  unspent : ∀ f ∈ s.files, ∃ t ∈ s.fileTokens, t.fileId = f.id ∧ t.redeemed = false

section

variable {s s' : RelayStore} {op : FileOp} {id : Bytes}

theorem not_selects {p : FileRow → Bool} (hids : (s.files.map (·.id)).Nodup) {f : FileRow} (hf : f ∈ s.files)
    (hp : p f = false) : s.Selects p f.id = false := by
  rw [Selects, List.any_eq_false]
  intro g hg hsel
  obtain ⟨hid, hpg⟩ := of_decide_eq_true hsel
  rw [List.inj_on_of_nodup_map hids hg hf hid, hp] at hpg
  exact Bool.false_ne_true hpg

theorem FilesSound.effect (h : s.FilesSound) (he : FileEffect s s' op) : s'.FilesSound := by
  cases he with
  | none hfiles htokens =>
    exact ⟨hfiles ▸ h.ids, htokens ▸ h.tokens, hfiles ▸ htokens ▸ h.linked, hfiles ▸ htokens ▸ h.unspent⟩
  | @begins owner m now quotaBytes f hnew hid hfiles htokens =>
    have hfresh : ∀ g ∈ s.files, g.id ≠ m.fileId := Rows.lookup_eq_none.1 hnew
    constructor
    · rw [hfiles]
      exact Rows.nodup_concat h.ids (hid ▸ hfresh)
    · rw [htokens, List.map_append, List.map_map, List.nodup_append]
      refine ⟨h.tokens, m.tokens_nodup.map fun a b hab => (Prod.mk.inj hab).2, fun a ha b hb => ?_⟩
      obtain ⟨t, ht, rfl⟩ := List.mem_map.1 ha
      obtain ⟨hash, -, rfl⟩ := List.mem_map.1 hb
      obtain ⟨g, hg, hgid⟩ := h.linked t ht
      exact fun heq => hfresh g hg (hgid.trans (Prod.mk.inj heq).1)
    · rw [hfiles, htokens]
      intro t ht
      rcases List.mem_append.1 ht with ht | ht
      · obtain ⟨g, hg, hgid⟩ := h.linked t ht
        exact ⟨g, List.mem_append_left _ hg, hgid⟩
      · obtain ⟨hash, -, rfl⟩ := List.mem_map.1 ht
        exact ⟨f, List.mem_append_right _ (List.mem_singleton_self f), hid⟩
    · rw [hfiles, htokens]
      intro g hg
      rcases List.mem_append.1 hg with hg | hg
      · obtain ⟨t, ht, hleft⟩ := h.unspent g hg
        exact ⟨t, List.mem_append_left _ ht, hleft⟩
      · obtain ⟨hash, hhash⟩ := List.exists_mem_of_length_pos m.tokens_size.1
        rw [List.mem_singleton.1 hg, hid]
        exact ⟨_, List.mem_append_right _ (List.mem_map_of_mem hhash), rfl, rfl⟩
  | changes g hg hfiles htokens =>
    constructor
    · rw [hfiles, List.map_map, show FileRow.id ∘ g = FileRow.id from funext hg]
      exact h.ids
    · exact htokens ▸ h.tokens
    · rw [hfiles, htokens]
      intro t ht
      obtain ⟨f, hf, hid⟩ := h.linked t ht
      exact ⟨g f, List.mem_map_of_mem hf, (hg f).trans hid⟩
    · rw [hfiles, htokens]
      intro f' hf'
      obtain ⟨f, hf, rfl⟩ := List.mem_map.1 hf'
      rw [hg]
      exact h.unspent f hf
  | @redeems fileId tokenHash hfiles htokens hleft =>
    constructor
    · exact hfiles ▸ h.ids
    · rw [htokens, List.map_map]
      refine (List.map_congr_left fun t _ => ?_) ▸ h.tokens
      rw [Function.comp_apply, useToken_fileId, useToken_tokenHash]
    · rw [hfiles, htokens]
      intro t' ht'
      obtain ⟨t, ht, rfl⟩ := List.mem_map.1 ht'
      rw [useToken_fileId]
      exact h.linked t ht
    · intro f hf
      by_cases hid : f.id = fileId
      · obtain ⟨t, ht, hleft⟩ := hleft
        obtain ⟨ht, htid⟩ := mem_tokensOf.1 ht
        exact ⟨t, ht, htid.trans hid.symm, hleft⟩
      · obtain ⟨t, ht, htid, hleft⟩ := h.unspent f (hfiles ▸ hf)
        rw [htokens]
        refine ⟨t, List.mem_map.2 ⟨t, ht, if_neg fun hsame => hid (htid.symm.trans hsame.1)⟩, htid, hleft⟩
  | drops p hfiles htokens =>
    constructor
    · rw [hfiles]
      exact h.ids.sublist (List.filter_sublist.map _)
    · rw [htokens]
      exact h.tokens.sublist (List.filter_sublist.map _)
    · rw [hfiles, htokens]
      intro t ht
      obtain ⟨ht, hkept⟩ := List.mem_filter.1 ht
      obtain ⟨f, hf, hid⟩ := h.linked t ht
      refine ⟨f, List.mem_filter.2 ⟨hf, ?_⟩, hid⟩
      rw [Bool.not_eq_true', Selects, List.any_eq_false] at hkept
      simpa [hid] using hkept f hf
    · rw [hfiles, htokens]
      intro f hf
      obtain ⟨hf, hp⟩ := List.mem_filter.1 hf
      obtain ⟨t, ht, htid, hleft⟩ := h.unspent f hf
      refine ⟨t, List.mem_filter.2 ⟨ht, ?_⟩, htid, hleft⟩
      rw [htid, not_selects h.ids hf (by simpa using hp)]
      rfl

theorem FilesSound.runs (h : s.FilesSound) (ops : List FileOp) : (ops.foldl FileOp.run s).FilesSound := by
  induction ops generalizing s with
  | nil => exact h
  | cons op ops ih => exact ih (h.effect (fileEffect_run s op))

/-! ## The tokens of one file -/

/-- Every token of the file was one of its tokens before, and is redeemed if it was. -/
def Shrinks (id : Bytes) (s s' : RelayStore) : Prop :=
  ∀ t' ∈ s'.tokensOf id, ∃ t ∈ s.tokensOf id, t.tokenHash = t'.tokenHash ∧
    (t.redeemed = true → t'.redeemed = true)

theorem Shrinks.of_subset (h : ∀ t ∈ s'.fileTokens, t.fileId = id → t ∈ s.fileTokens) : Shrinks id s s' := by
  intro t ht
  obtain ⟨ht, hid⟩ := mem_tokensOf.1 ht
  exact ⟨t, mem_tokensOf.2 ⟨h t ht hid, hid⟩, rfl, fun hredeemed => hredeemed⟩

theorem FileEffect.shrinks (he : FileEffect s s' op) (hother : ¬op.Begins id) : Shrinks id s s' := by
  cases he with
  | none hfiles htokens | changes g hg hfiles htokens => exact .of_subset fun t ht _ => htokens ▸ ht
  | begins f hnew hid hfiles htokens =>
    refine .of_subset fun t ht htid => ?_
    rw [htokens] at ht
    refine (List.mem_append.1 ht).resolve_right fun hnew => ?_
    obtain ⟨hash, -, rfl⟩ := List.mem_map.1 hnew
    exact hother htid
  | @redeems fileId tokenHash hfiles htokens hleft =>
    intro t' ht'
    obtain ⟨hmem, hid⟩ := mem_tokensOf.1 ht'
    rw [htokens] at hmem
    obtain ⟨t, ht, rfl⟩ := List.mem_map.1 hmem
    rw [useToken_fileId] at hid
    exact ⟨t, mem_tokensOf.2 ⟨ht, hid⟩, (useToken_tokenHash _ _ t).symm, useToken_redeemed⟩
  | drops p hfiles htokens =>
    refine .of_subset fun t ht _ => ?_
    rw [htokens] at ht
    exact List.mem_of_mem_filter ht

theorem shrinks_runs {ops : List FileOp} (hother : ∀ op ∈ ops, ¬op.Begins id) :
    Shrinks id s (ops.foldl FileOp.run s) := by
  induction ops generalizing s with
  | nil => exact .of_subset fun t ht _ => ht
  | cons op ops ih =>
    obtain ⟨hop, hops⟩ := List.forall_mem_cons.1 hother
    intro t' ht'
    obtain ⟨t₁, ht₁, hhash₁, hredeemed₁⟩ := ih hops t' ht'
    obtain ⟨t, ht, hhash, hredeemed⟩ := (fileEffect_run s op).shrinks hop t₁ ht₁
    exact ⟨t, ht, hhash.trans hhash₁, fun h => hredeemed₁ (hredeemed h)⟩

/-- If the token is still there, it is redeemed. -/
def Spent (id : Bytes) (hash : Digest) (s : RelayStore) : Prop :=
  ∀ t ∈ s.tokensOf id, t.tokenHash = hash → t.redeemed = true

variable {hash : Digest} {last : Bool}

theorem Spent.shrinks (h : Spent id hash s) (hs : Shrinks id s s') : Spent id hash s' := by
  intro t' ht' hhash'
  obtain ⟨t, ht, hhash, hredeemed⟩ := hs t' ht'
  exact hredeemed (h t ht (hhash.trans hhash'))

theorem spent_markToken : Spent id hash (s.markToken id hash) := by
  intro t' ht' hhash
  rw [tokensOf_markToken] at ht'
  obtain ⟨t, ht, rfl⟩ := List.mem_map.1 ht'
  rw [useToken_tokenHash] at hhash
  rw [useToken, if_pos ⟨(mem_tokensOf.1 ht).2, hhash⟩]

theorem Spent.redeemFileToken_ne_ok (h : Spent id hash s) : (s.redeemFileToken id hash).1 ≠ .ok last := by
  intro hok
  obtain ⟨-, ⟨t, ht, hhash, hleft⟩, -⟩ :=
    redeemFileToken_ok (show s.redeemFileToken id hash = (.ok last, _) from Prod.ext hok rfl)
  exact Bool.false_ne_true (hleft.symm.trans (h t ht hhash))

/-- A download is let through with a token of the file that is not redeemed, before it expires. -/
theorem checkFileToken_ok {now : Time} (h : s.checkFileToken id hash now = .ok) :
    ∃ f t, s.findFile id = some f ∧ now < f.expiresAt ∧ t ∈ s.tokensOf id ∧ t.tokenHash = hash ∧
      t.redeemed = false := by
  unfold checkFileToken at h
  split at h
  · exact nomatch h
  · rename_i f hf
    split at h
    · exact nomatch h
    · rename_i t ht
      split_ifs at h with hredeemed hready hexpired
      exact ⟨f, t, hf, not_le.1 hexpired, List.mem_of_find?_eq_some ht, by simpa using List.find?_some ht,
        by simpa using hredeemed⟩

theorem Spent.checkFileToken_ne_ok (h : Spent id hash s) (now : Time) :
    s.checkFileToken id hash now ≠ .ok := by
  intro hok
  obtain ⟨-, t, -, -, ht, hhash, hleft⟩ := checkFileToken_ok hok
  exact Bool.false_ne_true (hleft.symm.trans (h t ht hhash))

theorem all_redeemed_markToken :
    ((s.markToken id hash).tokensOf id).all (·.redeemed) = true ↔
      ∀ t ∈ s.tokensOf id, t.tokenHash ≠ hash → t.redeemed = true := by
  rw [tokensOf_markToken, List.all_eq_true, List.forall_mem_map]
  refine forall₂_congr fun t ht => ?_
  have hid := (mem_tokensOf.1 ht).2
  by_cases hhash : t.tokenHash = hash
  · simp [useToken, hid, hhash]
  · simp [useToken, hhash]

theorem findFile_endFiles : (s.endFiles (·.id = id)).findFile id = none := by
  refine Rows.lookup_eq_none.2 fun f hf => ?_
  simpa using (List.mem_filter.1 hf).2

/-- The last redemption of a file removes its record, and only it does. -/
theorem redeemFileToken_last_iff (h : s.redeemFileToken id hash = (.ok last, s')) :
    (last = true ↔ ∀ t ∈ s.tokensOf id, t.tokenHash ≠ hash → t.redeemed = true) ∧
      (last = true ↔ s'.findFile id = none) := by
  obtain ⟨hfile, -, hlast, hs'⟩ := redeemFileToken_ok h
  refine ⟨hlast ▸ all_redeemed_markToken, ?_⟩
  cases last with
  | true =>
    rw [if_pos rfl] at hs'
    exact ⟨fun _ => hs' ▸ findFile_endFiles, fun _ => rfl⟩
  | false =>
    rw [if_neg Bool.false_ne_true] at hs'
    refine ⟨fun h => absurd h Bool.false_ne_true, fun hnone => ?_⟩
    have hsame : s'.findFile id = s.findFile id := hs' ▸ rfl
    rw [← hsame, hnone] at hfile
    exact nomatch hfile

theorem spent_redeem (h : s.redeemFileToken id hash = (.ok last, s')) : Spent id hash s' := by
  obtain ⟨hfile, -, -, hs'⟩ := redeemFileToken_ok h
  cases last with
  | true =>
    rw [if_pos rfl] at hs'
    have hsub : Shrinks id (s.markToken id hash) s' :=
      .of_subset fun t ht _ => by
        rw [hs'] at ht
        exact List.mem_of_mem_filter ht
    exact spent_markToken.shrinks hsub
  | false =>
    rw [if_neg Bool.false_ne_true] at hs'
    exact hs' ▸ spent_markToken

end

def tokenSet (s : RelayStore) (id : Bytes) : List Digest := (s.tokensOf id).map (·.tokenHash)

/-- A file is begun in any state, and `after` is what happens then, other than beginning a file of that ID
again. The tokens of the file never become more. A token that was redeemed is not redeemed again and lets
no download through, and neither does one that is unknown or expired. A record goes with the redemption
of its last token, which says so. -/
theorem file_tokens_are_spent_once {s₀ s : RelayStore} (hfiles : s₀.files = []) (htokens : s₀.fileTokens = [])
    (before after : List FileOp) {owner : Bytes} {m : FileBegin} {now : Time} {quota : ℕ}
    (hbegin : (before.foldl FileOp.run s₀).beginFile owner m now quota = (.ok, s))
    (hafter : ∀ op ∈ after, ¬op.Begins m.fileId) :
    ((after.foldl FileOp.run s).tokenSet m.fileId ⊆ m.tokenHashes ∧
      ∀ more : List FileOp, (∀ op ∈ more, ¬op.Begins m.fileId) →
        ((after ++ more).foldl FileOp.run s).tokenSet m.fileId ⊆
          (after.foldl FileOp.run s).tokenSet m.fileId) ∧
    (∀ hash last, ((after.foldl FileOp.run s).redeemFileToken m.fileId hash).1 = .ok last →
      ∀ more : List FileOp, (∀ op ∈ more, ¬op.Begins m.fileId) →
        (∀ last', (((after ++ .redeem m.fileId hash :: more).foldl FileOp.run s).redeemFileToken
          m.fileId hash).1 ≠ .ok last') ∧
        ∀ now', ((after ++ .redeem m.fileId hash :: more).foldl FileOp.run s).checkFileToken
          m.fileId hash now' ≠ .ok) ∧
    (∀ hash now', (after.foldl FileOp.run s).checkFileToken m.fileId hash now' = .ok →
      ∃ f t, (after.foldl FileOp.run s).findFile m.fileId = some f ∧ now' < f.expiresAt ∧
        t ∈ (after.foldl FileOp.run s).tokensOf m.fileId ∧ t.tokenHash = hash ∧ t.redeemed = false) ∧
    ((after.foldl FileOp.run s).findFile m.fileId ≠ none →
      ∃ t ∈ (after.foldl FileOp.run s).tokensOf m.fileId, t.redeemed = false) ∧
    ∀ hash last s', (after.foldl FileOp.run s).redeemFileToken m.fileId hash = (.ok last, s') →
      (last = true ↔ ∀ t ∈ (after.foldl FileOp.run s).tokensOf m.fileId, t.tokenHash ≠ hash →
        t.redeemed = true) ∧
      (last = true ↔ s'.findFile m.fileId = none) := by
  have hsound₀ : s₀.FilesSound := by
    constructor <;> simp [hfiles, htokens]
  have hsound : s.FilesSound := by
    have := (hsound₀.runs before).effect (fileEffect_run _ (.begin owner m now quota))
    rwa [FileOp.run, hbegin] at this
  have hsubset : ∀ {s₁ s₂ : RelayStore}, Shrinks m.fileId s₁ s₂ → s₂.tokenSet m.fileId ⊆ s₁.tokenSet m.fileId := by
    intro s₁ s₂ hs hash hhash
    obtain ⟨t', ht', rfl⟩ := List.mem_map.1 hhash
    obtain ⟨t, ht, heq, -⟩ := hs t' ht'
    exact List.mem_map.2 ⟨t, ht, heq⟩
  have hbegun : s.tokenSet m.fileId ⊆ m.tokenHashes := by
    obtain ⟨-, hnew, -, rfl⟩ := (beginFile_spec hbegin).done rfl
    intro hash hhash
    obtain ⟨t, ht, rfl⟩ := List.mem_map.1 hhash
    obtain ⟨ht, hid⟩ := mem_tokensOf.1 ht
    rcases List.mem_append.1 ht with ht | ht
    · obtain ⟨f, hf, hfid⟩ := (hsound₀.runs before).linked t ht
      exact absurd (hfid.trans hid) (Rows.lookup_eq_none.1 hnew f hf)
    · obtain ⟨hash, hmem, rfl⟩ := List.mem_map.1 ht
      exact hmem
  refine ⟨⟨List.Subset.trans (hsubset (shrinks_runs hafter)) hbegun, fun more hmore => ?_⟩,
    fun hash last hok more hmore => ?_, fun hash now' => checkFileToken_ok, fun hfile => ?_,
    fun hash last s' => redeemFileToken_last_iff⟩
  · rw [List.foldl_append]
    exact hsubset (shrinks_runs hmore)
  · have hspent := spent_redeem (show (after.foldl FileOp.run s).redeemFileToken m.fileId hash =
      (.ok last, _) from Prod.ext hok rfl)
    rw [List.foldl_append, List.foldl_cons]
    have hlater := hspent.shrinks (shrinks_runs hmore)
    exact ⟨fun last' => hlater.redeemFileToken_ne_ok, hlater.checkFileToken_ne_ok⟩
  · obtain ⟨f, hf, hid⟩ := Rows.lookup_isSome.1 (Option.isSome_iff_ne_none.2 hfile)
    obtain ⟨t, ht, htid, hleft⟩ := (hsound.runs after).unspent f hf
    exact ⟨t, mem_tokensOf.2 ⟨ht, htid.trans hid⟩, hleft⟩

def sampleBegin : FileBegin where
  fileId := [5]
  totalSize := 2
  chunkSize := 2
  chunkCount := 1
  expiresAt := 100
  tokenHashes := [byteSum [1], byteSum [2]]
  total_size := by decide
  chunk_size := by decide
  chunk_count := rfl
  not_tiny := .inr rfl
  tokens_size := by decide
  tokens_nodup := by decide

def sampleDepot : RelayStore := { mailboxes := [⟨[1], [2], 0, none⟩] }

/-- The first redemption leaves the record and the second takes it. -/
theorem file_tokens_are_spent_once_sample :
    ∃ s, sampleDepot.beginFile [1] sampleBegin 0 10 = (.ok, s) ∧
      (s.redeemFileToken [5] (byteSum [1])).1 = .ok false ∧
      (([.redeem [5] (byteSum [1])].foldl FileOp.run s).redeemFileToken [5] (byteSum [2])).1 = .ok true ∧
      ∀ last, (([.redeem [5] (byteSum [1])].foldl FileOp.run s).redeemFileToken [5] (byteSum [1])).1 ≠
        .ok last := by
  have hbegin : sampleDepot.beginFile [1] sampleBegin 0 10 =
      (.ok, (sampleDepot.beginFile [1] sampleBegin 0 10).2) := Prod.ext (by decide) rfl
  have hspent := @file_tokens_are_spent_once sampleDepot _ rfl rfl [] [] _ _ _ _ hbegin (by simp)
  refine ⟨_, hbegin, by decide, by decide, ?_⟩
  exact (hspent.2.1 (byteSum [1]) false (by decide) [] (by simp)).1

end RelayStore

end PqSuite.Relay
