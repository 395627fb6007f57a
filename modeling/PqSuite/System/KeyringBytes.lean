import PqSuite.System.KeyringUpkeep

/-!
# A keyring that has not changed

Upkeep stores a keyring again only if its bytes differ from those stored last. `build_keyring` sorts the
chats and the verified people, so the same ones give the same bytes in whatever order the database lists
them. The archives and the tokens are taken in the order of the database, in which those of the same
second stand as they were added.
-/

namespace PqSuite

open Keyring (Receipts)

namespace HistoryStore

def receiptSettings (h : HistoryStore) : List Receipts :=
  h.conversations.map fun c => ⟨c.id, c.sendDeliveryReceipts, c.sendReadReceipts⟩

/-- The same archives in the same order, verified people, tokens, introduced members and receipt
settings, with the verified people and the chats listed in any order. -/
structure SameKeyring (h h' : HistoryStore) : Prop where
  archives : h.archivesByAge.map (·.toArchiveItem) = h'.archivesByAge.map (·.toArchiveItem)
  verified : h.verifiedPeople.Perm h'.verifiedPeople
  memberTokens : h.allMemberTokens = h'.allMemberTokens
  introduced : h.introducedMembers = h'.introducedMembers
  issuedTokens : h.issuedTokensByAge = h'.issuedTokensByAge
  receipts : h.receiptSettings.Perm h'.receiptSettings

def ChatsKeyed (h : HistoryStore) : Prop := (h.conversations.map (·.id)).Nodup

/-! ## No two chats have one ID -/

variable {h h' : HistoryStore}

theorem ChatsKeyed.concat (hkeyed : h.ChatsKeyed) {c : Conversation} (hnew : h.conversation c.id = none) :
    ((h.conversations ++ [c]).map (·.id)).Nodup :=
  Rows.nodup_concat hkeyed (Rows.lookup_eq_none.1 hnew)

theorem ChatsKeyed.map (hkeyed : h.ChatsKeyed) {f : Conversation → Conversation}
    (hf : ∀ c, (f c).id = c.id) : ((h.conversations.map f).map (·.id)).Nodup := by
  rw [List.map_map, show (·.id) ∘ f = Conversation.id from funext hf]
  exact hkeyed

theorem ChatsKeyed.newChat (hkeyed : h.ChatsKeyed) (id : Bytes) (chat : NewChat) :
    (chat.make id h).ChatsKeyed := by
  cases chat with
  | direct contactFp =>
    rw [NewChat.make]
    split
    · rename_i hrun
      obtain ⟨c, -, -, -, rfl⟩ | ⟨c, -, -, rfl, rfl⟩ | ⟨-, hnew, rfl, rfl⟩ :=
        ensureConversation_eq_ok hrun
      · exact hkeyed
      · refine hkeyed.map fun r => ?_
        split_ifs with heq
        · exact heq.symm
        · rfl
      · exact hkeyed.concat hnew
    · exact hkeyed
  | group =>
    rw [NewChat.make]
    split
    · rename_i hrun
      obtain ⟨-, rfl⟩ | ⟨hnew, rfl, rfl⟩ := (createGroup_eq_ok hrun).2
      · exact hkeyed
      · exact hkeyed.concat hnew
    · exact hkeyed

theorem ChatsKeyed.run (hkeyed : h.ChatsKeyed) (op : TableOp) : (op.run h).ChatsKeyed := by
  cases op with
  | newChat id chat => exact hkeyed.newChat id chat
  | setConversationState | setReceiptSettings =>
    refine hkeyed.map fun c => ?_
    split_ifs <;> rfl
  | addArchive a =>
    rw [TableOp.run, addArchive]
    split_ifs <;> exact hkeyed
  | restoreIssuedToken t =>
    rw [TableOp.run]
    split_ifs <;> exact hkeyed
  | saveIntroduced | deleteIntroducedExcept | setArchiveJoined | setArchiveFailed | setArchiveHead
  | removeArchive | setVerified | saveMemberToken | addIssuedToken | bindIssuedToken
  | markTokenRevoked => exact hkeyed

theorem ChatsKeyed.runs (hkeyed : h.ChatsKeyed) (ops : List TableOp) :
    (ops.foldl TableOp.run h).ChatsKeyed := by
  induction ops generalizing h with
  | nil => exact hkeyed
  | cons op ops ih => exact ih (hkeyed.run op)

/-! ## The same keyring -/

/-- Settings of different chats are sorted in one way only. -/
theorem sorted_receipts_eq {l l' : List Receipts} (hids : (l.map (·.conversationId)).Nodup)
    (hperm : l.Perm l') :
    l.insertionSort (bytesLe ·.conversationId ·.conversationId) =
      l'.insertionSort (bytesLe ·.conversationId ·.conversationId) := by
  have : Std.Total fun a b : Receipts => bytesLe a.conversationId b.conversationId :=
    ⟨fun a b => bytesLe_total _ _⟩
  have : IsTrans Receipts fun a b => bytesLe a.conversationId b.conversationId :=
    ⟨fun _ _ _ => bytesLe_trans⟩
  have hsorted := List.perm_insertionSort fun a b : Receipts => bytesLe a.conversationId b.conversationId
  refine List.Perm.eq_of_pairwise ?_ (List.pairwise_insertionSort _ l) (List.pairwise_insertionSort _ l')
    (((hsorted l).trans hperm).trans (hsorted l').symm)
  intro a b ha hb hab hba
  exact List.inj_on_of_nodup_map hids ((hsorted l).mem_iff.1 ha)
    (hperm.mem_iff.2 ((hsorted l').mem_iff.1 hb)) (bytesLe_antisymm hab hba)

theorem SameKeyring.build_eq (hsame : h.SameKeyring h') (hkeyed : h.ChatsKeyed) :
    h.buildKeyring = h'.buildKeyring := by
  have hids : (h.receiptSettings.map (·.conversationId)).Nodup := by
    rw [receiptSettings, List.map_map]
    exact hkeyed
  rw [buildKeyring, buildKeyring, hsame.archives, hsame.memberTokens, hsame.introduced,
    hsame.issuedTokens, insertionSort_eq_iff_perm.2 hsame.verified]
  exact congrArg _ (sorted_receipts_eq hids hsame.receipts)

end HistoryStore

theorem KeyringWorld.maintainKeyring_unchanged {cfg : KeyringSetup} {w : KeyringWorld} {plain : Bytes}
    (hplain : Keyring.serialize w.history.buildKeyring = .ok plain)
    (hhash : w.uploadedHash = some (cfg.sha256 plain)) (t : StoreAttempt) :
    w.maintainKeyring cfg t = w := by
  rw [maintainKeyring]
  split_ifs
  · rfl
  · rw [hplain]
    exact if_pos hhash.symm

/-- What is parsed is written as it was, and a keyring with the same content has the same bytes in
whatever order the chats and the verified people were listed, so that upkeep does not store it again. -/
theorem keyring_has_one_spelling (cfg : KeyringSetup) :
    (∀ data c, Keyring.parse data = some c → Keyring.serialize c = .ok data) ∧
    ∀ ops ops' : List TableOp,
      (ops.foldl TableOp.run {}).SameKeyring (ops'.foldl TableOp.run {}) →
      Keyring.serialize (ops.foldl TableOp.run {}).buildKeyring =
        Keyring.serialize (ops'.foldl TableOp.run {}).buildKeyring ∧
      ∀ (w : KeyringWorld) (plain : Bytes) (t : StoreAttempt), w.history = ops'.foldl TableOp.run {} →
        Keyring.serialize (ops.foldl TableOp.run {}).buildKeyring = .ok plain →
        w.uploadedHash = some (cfg.sha256 plain) → w.maintainKeyring cfg t = w := by
  refine ⟨fun data c hparse => (Keyring.serialize_parse hparse).2, fun ops ops' hsame => ?_⟩
  have hempty : HistoryStore.ChatsKeyed {} := List.nodup_nil
  have hkeyed := hempty.runs ops
  have hbuild := hsame.build_eq hkeyed
  refine ⟨congrArg Keyring.serialize hbuild, fun w plain t hw hplain hhash => ?_⟩
  rw [hbuild, ← hw] at hplain
  exact KeyringWorld.maintainKeyring_unchanged hplain hhash t

/-- Two people, verified in one order and in the other, and two groups. -/
def sampleListing (first second : Bytes) : List TableOp :=
  [.newChat first (.group [1] [] [] [List.replicate 64 97] .active), .setVerified first true 5,
    .newChat second (.group [1] [] [] [List.replicate 64 97] .active), .setVerified second true 6]

theorem keyring_has_one_spelling_sample :
    Keyring.serialize ((sampleListing [1] [2]).foldl TableOp.run {}).buildKeyring =
      Keyring.serialize ((sampleListing [2] [1]).foldl TableOp.run {}).buildKeyring :=
  ((keyring_has_one_spelling KeyringWorld.sampleSetup).2 (sampleListing [1] [2]) (sampleListing [2] [1])
    ⟨rfl, by decide, rfl, rfl, rfl, by decide⟩).1

end PqSuite
