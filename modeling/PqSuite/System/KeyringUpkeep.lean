import PqSuite.Client.History
import PqSuite.Client.KeyStore
import PqSuite.Client.KeyringTransfer
import PqSuite.Lib.Reach

/-!
# The keyring of a device and its relay (`messaging_engine.cpp`)

A device changes its tables, builds its keyring from them every now and then, stores it on the relay
if it differs from the one it stored last, and may restore its tables from the stored one, beside the
upkeep and one change at a time. A new installation has empty tables, so that the keyring it builds has
none of the archives in the stored one until it has been restored.
-/

namespace PqSuite

open Keyring (ArchiveItem Contents MemberToken Introduced IssuedToken)
open Relay (Digest RelayStore KeyringSession Hop)
open HistoryStore (Archive)
open Reach

/-! ## Changes of the tables -/

/-- What the engine does to the tables the keyring is built from. -/
inductive TableOp where
  | newChat (id : Bytes) (chat : NewChat)
  | setConversationState (id : Bytes) (state : ConversationState)
  | setReceiptSettings (id : Bytes) (delivery read : Bool)
  | saveIntroduced (i : Introduced)
  | deleteIntroducedExcept (keep : List Bytes)
  | addArchive (a : Archive)
  | setArchiveJoined (id : Bytes)
  | setArchiveFailed (id : Bytes)
  | setArchiveHead (id : Bytes) (number : UInt64) (hash : Digest)
  | removeArchive (id : Bytes)
  | setVerified (fp : Bytes) (verified : Bool) (now : Time)
  | saveMemberToken (t : MemberToken)
  | addIssuedToken (hash label boundFp : Bytes) (now : Int64)
  | bindIssuedToken (hash fp : Bytes)
  | markTokenRevoked (hash : Bytes)
  /-- A token of the stored keyring: added if it is not known, and revoked if it was. -/
  | restoreIssuedToken (t : IssuedToken)
  deriving DecidableEq

def TableOp.run (h : HistoryStore) : TableOp → HistoryStore
  | .newChat id chat => chat.make id h
  | .setConversationState id state => h.setConversationState id state
  | .setReceiptSettings id delivery read => h.setReceiptSettings id delivery read
  | .saveIntroduced i => h.saveIntroduced i
  | .deleteIntroducedExcept keep => h.deleteIntroducedExcept keep
  | .addArchive a => (h.addArchive a).2
  | .setArchiveJoined id => h.setArchiveJoined id
  | .setArchiveFailed id => h.setArchiveFailed id
  | .setArchiveHead id number hash => h.setArchiveHead id number hash
  | .removeArchive id => h.removeArchive id
  | .setVerified fp verified now => h.setVerified fp verified now
  | .saveMemberToken t => h.saveMemberToken t
  | .addIssuedToken hash label boundFp now => h.addIssuedToken hash label boundFp now
  | .bindIssuedToken hash fp => h.bindIssuedToken hash fp
  | .markTokenRevoked hash => h.markTokenRevoked hash
  | .restoreIssuedToken t =>
    let h := if (h.findIssuedToken t.hash).isSome then h
      else h.addIssuedToken t.hash t.label t.boundFp t.createdAt
    if t.revoked then h.markTokenRevoked t.hash else h

/-! ## The keyring a device builds -/

def HistoryStore.archiveIds (h : HistoryStore) : List Bytes := h.archives.map (·.conversationId)

def HistoryStore.buildKeyring (h : HistoryStore) : Contents where
  archives := h.archivesByAge.map (·.toArchiveItem)
  verified := h.verifiedPeople.insertionSort (bytesLe · ·)
  memberTokens := h.allMemberTokens
  introduced := h.introducedMembers
  issuedTokens := h.issuedTokensByAge
  receipts := (h.conversations.map fun c =>
      ⟨c.id, c.sendDeliveryReceipts, c.sendReadReceipts⟩).insertionSort
    (bytesLe ·.conversationId ·.conversationId)

/-- The changes of a restore, in their order. The archives come last, and after them only the chats
are read. -/
def restoreOps (c : Contents) (now : Time) : List TableOp :=
  c.verified.map (.setVerified · true now) ++ c.memberTokens.map .saveMemberToken ++
    c.introduced.map .saveIntroduced ++ c.issuedTokens.map .restoreIssuedToken ++
    c.archives.map fun a => .addArchive { toArchiveItem := a, createdAt := now }

/-! ## The device and its relay -/

/-- What a device keeps through a new installation, and the limit its relay sets. -/
structure KeyringSetup where
  crypto : SecretCrypto
  sha256 : Bytes → Digest
  key : Bytes
  key_size : key.length = 32
  mailboxId : Bytes
  keyringMaxBytes : ℕ

structure KeyringWorld where
  history : HistoryStore := {}
  relay : RelayStore
  uploadedHash : Option Digest := none
  /-- What a running restore has still to do. -/
  restoring : Option (List TableOp) := none
  /-- Whether every archive of the stored keyring has come into the tables since the installation. -/
  covered : Bool
  removed : List Bytes := []

structure StoreAttempt where
  /-- Whether the keys can be read and the relay lets the device in. -/
  connected : Bool
  nonce : Bytes
  nonce_size : nonce.length = 12
  hops : List Hop
  /-- Whether the relay's rate limit lets the upload start. -/
  allow : Bool
  now : Time

inductive KeyringEvent where
  | change (op : TableOp)
  /-- The periodic `maintain_keyring`. -/
  | upkeep (attempt : StoreAttempt)
  | save (attempt : StoreAttempt)
  /-- A restore begins; the first `arrived` chunks of the stored keyring get through. -/
  | restore (arrived : ℕ) (now : Time)
  | restoreNext
  | restoreEnd
  | restart
  | reinstall
  /-- Another mailbox of the relay stores its keyring. -/
  | otherPut (mailboxId blob : Bytes) (now : Time)

namespace KeyringWorld

variable (cfg : KeyringSetup) {h : HistoryStore} {id : Bytes}

def storedContents (w : KeyringWorld) : Option Contents := do
  let blob ← w.relay.getKeyring cfg.mailboxId
  let plain ← Keyring.openKeyring cfg.crypto cfg.key cfg.mailboxId blob
  Keyring.parse plain

def stored (w : KeyringWorld) : List Bytes :=
  ((w.storedContents cfg).map fun c => c.archives.map (·.conversationId)).getD []

def change (w : KeyringWorld) (op : TableOp) : KeyringWorld :=
  { w with
    history := op.run w.history
    removed := match op with
      | .removeArchive id => w.removed ++ [id]
      | .addArchive a => w.removed.filter (· ≠ a.conversationId)
      | _ => w.removed }

/-- Whether it was stored, as far as the device can tell. -/
def storeKeyring (w : KeyringWorld) (plain : Bytes) (t : StoreAttempt) : Bool × RelayStore :=
  if t.connected then
    KeyringSession.putKeyring ⟨cfg.mailboxId, cfg.keyringMaxBytes, t.allow, t.now⟩
      (Keyring.sealKeyring cfg.crypto cfg.key cfg.mailboxId plain t.nonce) t.hops w.relay
  else (false, w.relay)

def upload (w : KeyringWorld) (plain : Bytes) (t : StoreAttempt) : KeyringWorld :=
  let (ok, relay) := w.storeKeyring cfg plain t
  { w with relay, uploadedHash := if ok then some (cfg.sha256 plain) else w.uploadedHash }

def maintainKeyring (w : KeyringWorld) (t : StoreAttempt) : KeyringWorld :=
  let contents := w.history.buildKeyring
  if contents.isEmpty then w
  else match Keyring.serialize contents with
    | .error _ => w
    | .ok plain => if some (cfg.sha256 plain) = w.uploadedHash then w else w.upload cfg plain t

def saveKeyring (w : KeyringWorld) (t : StoreAttempt) : KeyringWorld :=
  match Keyring.serialize w.history.buildKeyring with
  | .error _ => w
  | .ok plain => w.upload cfg plain t

/-- The keyring is fetched, opened and parsed before anything is changed. -/
def beginRestore (w : KeyringWorld) (arrived : ℕ) (now : Time) : KeyringWorld :=
  match Relay.getKeyring w.relay cfg.mailboxId arrived with
  | some (some blob) =>
    match (Keyring.openKeyring cfg.crypto cfg.key cfg.mailboxId blob).bind Keyring.parse with
    | some c =>
      { w with restoring := some (restoreOps c now), covered := w.covered || (restoreOps c now).isEmpty }
    | none => w
  | _ => w

def restoreNext (w : KeyringWorld) : KeyringWorld :=
  match w.restoring with
  | some (op :: rest) =>
    { w.change op with restoring := some rest, covered := w.covered || rest.isEmpty }
  | _ => w

/-- Once the archives are there and the chats read, the keyring may be stored again. -/
def endRestore (w : KeyringWorld) : KeyringWorld :=
  match w.restoring with
  | some [] => { w with restoring := none, uploadedHash := none }
  | _ => w

def step (w : KeyringWorld) : KeyringEvent → KeyringWorld
  | .change op => w.change op
  | .upkeep t => w.maintainKeyring cfg t
  | .save t => w.saveKeyring cfg t
  | .restore arrived now => w.beginRestore cfg arrived now
  | .restoreNext => w.restoreNext
  | .restoreEnd => w.endRestore
  | .restart => { w with uploadedHash := none, restoring := none }
  | .reinstall =>
    { relay := w.relay, covered := (w.stored cfg).isEmpty }
  | .otherPut mailboxId blob now =>
    if mailboxId = cfg.mailboxId then w else { w with relay := w.relay.putKeyring mailboxId blob now }

/-- A new installation, whatever the relay has. -/
structure Init (w : KeyringWorld) : Prop where
  history : w.history = {}
  restoring : w.restoring = none
  removed : w.removed = []
  covered : w.covered = (w.stored cfg).isEmpty

/-- An upkeep that finds something to store comes after a restore or the stored keyring has no
archives to lose, and what is stored is within the limits of the keyring's own format. -/
def Safe (w : KeyringWorld) : KeyringEvent → Prop
  | .upkeep _ =>
    (w.covered = true ∨ w.history.buildKeyring.isEmpty = true) ∧ w.history.buildKeyring.Readable
  | .save _ => w.history.buildKeyring.Readable
  | .change _ | .restore .. | .restoreNext | .restoreEnd | .restart | .reinstall | .otherPut .. => True

/-- The archive is in the tables, or this installation has removed it. -/
def Known (w : KeyringWorld) (id : Bytes) : Prop := id ∈ w.history.archiveIds ∨ id ∈ w.removed

/-- What is known of the archives of the stored keyring. -/
structure Inv (w : KeyringWorld) : Prop where
  covered : w.covered = true → ∀ id ∈ w.stored cfg, w.Known id
  restoring : ∀ ops, w.restoring = some ops → ∀ id ∈ w.stored cfg,
    w.Known id ∨ ∃ a : Archive, TableOp.addArchive a ∈ ops ∧ a.conversationId = id

variable {cfg} {w : KeyringWorld}

/-! ## Changes of the tables keep what is known -/

theorem mem_archiveIds_updateArchive {cid : Bytes} {f : Archive → Archive} (hid : id ∈ h.archiveIds)
    (hf : ∀ a, (f a).conversationId = a.conversationId) : id ∈ (h.updateArchive cid f).archiveIds := by
  obtain ⟨a, ha, rfl⟩ := List.mem_map.1 hid
  refine List.mem_map.2 ⟨_, List.mem_map_of_mem ha, ?_⟩
  split_ifs
  · exact hf a
  · rfl

theorem mem_archiveIds_addArchive (h : HistoryStore) (a : Archive) (id : Bytes) :
    id ∈ (h.addArchive a).2.archiveIds ↔ id ∈ h.archiveIds ∨ id = a.conversationId := by
  unfold HistoryStore.addArchive
  split_ifs with hthere
  · obtain ⟨b, hb, heq⟩ := Rows.lookup_isSome.1 hthere
    refine ⟨.inl, fun hid => hid.elim (fun hid => hid) fun hid => ?_⟩
    exact hid ▸ heq ▸ List.mem_map_of_mem hb
  · simp [HistoryStore.archiveIds]

/-- Only adding and removing an archive changes which chats have one. -/
theorem mem_archiveIds_run (hid : id ∈ h.archiveIds) (op : TableOp) :
    id ∈ (op.run h).archiveIds ∨ op = .removeArchive id := by
  cases op with
  | newChat cid chat =>
    left
    rwa [TableOp.run, HistoryStore.archiveIds, chat.archives_make]
  | addArchive a => exact .inl ((mem_archiveIds_addArchive h a id).2 (.inl hid))
  | setArchiveJoined cid =>
    exact .inl (mem_archiveIds_updateArchive hid fun _ => rfl)
  | setArchiveFailed cid =>
    exact .inl (mem_archiveIds_updateArchive hid fun _ => rfl)
  | setArchiveHead cid number hash =>
    refine .inl (mem_archiveIds_updateArchive hid fun a => ?_)
    split_ifs <;> rfl
  | removeArchive cid =>
    by_cases heq : id = cid
    · exact .inr (heq ▸ rfl)
    · obtain ⟨a, ha, rfl⟩ := List.mem_map.1 hid
      exact .inl (List.mem_map_of_mem (List.mem_filter.2 ⟨ha, by simpa using heq⟩))
  | restoreIssuedToken t =>
    refine .inl ?_
    rw [TableOp.run]
    split_ifs <;> exact hid
  | setConversationState | setReceiptSettings | saveIntroduced | deleteIntroducedExcept
  | setVerified | saveMemberToken | addIssuedToken | bindIssuedToken | markTokenRevoked =>
    exact .inl hid

theorem Known.change (h : w.Known id) (op : TableOp) : (w.change op).Known id := by
  rcases h with h | h
  · rcases mem_archiveIds_run h op with h | rfl
    · exact .inl h
    · exact .inr (List.mem_append_right _ (List.mem_singleton_self id))
  · cases op with
    | removeArchive => exact .inr (List.mem_append_left _ h)
    | addArchive a =>
      by_cases heq : id = a.conversationId
      · exact .inl ((mem_archiveIds_addArchive _ _ _).2 (.inr heq))
      · exact .inr (List.mem_filter.2 ⟨h, by simpa using heq⟩)
    | _ => exact .inr h

theorem known_addArchive (w : KeyringWorld) (a : Archive) :
    (w.change (.addArchive a)).Known a.conversationId :=
  .inl ((mem_archiveIds_addArchive _ _ _).2 (.inr rfl))

/-! ## Storing the keyring -/

theorem mem_buildKeyring : id ∈ h.buildKeyring.archives.map (·.conversationId) ↔ id ∈ h.archiveIds := by
  have hperm := (List.perm_insertionSort (fun a b : Archive => a.createdAt ≤ b.createdAt)
    h.archives).map (·.conversationId)
  rw [HistoryStore.buildKeyring, List.map_map]
  exact hperm.mem_iff

/-- The relay has the keyring it had or the new one. -/
theorem stored_upload (cfg : KeyringSetup) {c : Contents} {plain : Bytes} (hc : c.Readable)
    (hplain : Keyring.serialize c = .ok plain) (w : KeyringWorld) (t : StoreAttempt) :
    (w.upload cfg plain t).stored cfg = w.stored cfg ∨
      (w.upload cfg plain t).stored cfg = c.archives.map (·.conversationId) := by
  have hrelay : (w.upload cfg plain t).relay = w.relay ∨
      (w.upload cfg plain t).relay = w.relay.putKeyring cfg.mailboxId
        (Keyring.sealKeyring cfg.crypto cfg.key cfg.mailboxId plain t.nonce) t.now := by
    change (w.storeKeyring cfg plain t).2 = _ ∨ (w.storeKeyring cfg plain t).2 = _
    unfold storeKeyring
    split_ifs
    · exact (Relay.store_putKeyring _ _ _ _).imp (congrArg Prod.snd) id
    · exact .inl rfl
  rcases hrelay with hrelay | hrelay
  · left
    rw [stored, storedContents, hrelay]
    rfl
  · right
    rw [stored, storedContents, hrelay, RelayStore.getKeyring_putKeyring, if_pos rfl]
    simp only [Option.bind_eq_bind, Option.bind_some,
      Keyring.openKeyring_sealKeyring cfg.key_size t.nonce_size, Keyring.parse_serialize hc hplain]
    rfl

theorem maintainKeyring_cases (w : KeyringWorld) (t : StoreAttempt) :
    w.maintainKeyring cfg t = w ∨ w.history.buildKeyring.isEmpty = false ∧
      ∃ plain, Keyring.serialize w.history.buildKeyring = .ok plain ∧
        w.maintainKeyring cfg t = w.upload cfg plain t := by
  unfold maintainKeyring
  dsimp only
  split_ifs with hempty
  · exact .inl rfl
  · cases hplain : Keyring.serialize w.history.buildKeyring with
    | error => exact .inl rfl
    | ok plain =>
      dsimp only
      split_ifs
      · exact .inl rfl
      · exact .inr ⟨by simpa using hempty, plain, rfl, rfl⟩

/-! ## What a step does to what is known -/

theorem Init.inv (h : w.Init cfg) : w.Inv cfg where
  covered hc id hid := by
    rw [h.covered, List.isEmpty_iff] at hc
    rw [hc] at hid
    exact nomatch hid
  restoring ops hops := by
    rw [h.restoring] at hops
    exact nomatch hops

theorem Inv.upload (h : w.Inv cfg) {plain : Bytes} (hc : w.history.buildKeyring.Readable)
    (hplain : Keyring.serialize w.history.buildKeyring = .ok plain) (t : StoreAttempt) :
    (w.upload cfg plain t).Inv cfg := by
  rcases stored_upload cfg hc hplain w t with hstored | hstored
  · refine ⟨?_, ?_⟩ <;> rw [hstored]
    · exact h.covered
    · exact h.restoring
  · have hknown : ∀ id ∈ (w.upload cfg plain t).stored cfg, (w.upload cfg plain t).Known id := by
      intro id hid
      rw [hstored] at hid
      exact .inl (mem_buildKeyring.1 hid)
    exact ⟨fun _ => hknown, fun _ _ id hid => .inl (hknown id hid)⟩

theorem Inv.change (h : w.Inv cfg) (op : TableOp) : (w.change op).Inv cfg where
  covered hc id hid := (h.covered hc id hid).change op
  restoring ops hops id hid := (h.restoring ops hops id hid).imp (fun hk => hk.change op) fun ha => ha

theorem Inv.beginRestore (h : w.Inv cfg) (arrived : ℕ) (now : Time) :
    (w.beginRestore cfg arrived now).Inv cfg := by
  unfold KeyringWorld.beginRestore
  split
  · rename_i blob hget
    split
    · rename_i c hc
      have hcontents : w.storedContents cfg = some c := by
        rw [storedContents, ← Relay.getKeyring_eq hget]
        exact hc
      have hops : ∀ id ∈ w.stored cfg, ∃ a : Archive,
          TableOp.addArchive a ∈ restoreOps c now ∧ a.conversationId = id := by
        intro id hid
        rw [stored, hcontents] at hid
        obtain ⟨a, ha, rfl⟩ := List.mem_map.1 hid
        exact ⟨_, List.mem_append_right _ (List.mem_map_of_mem ha), rfl⟩
      refine ⟨fun hcov id hid => ?_, fun ops hsome id hid => ?_⟩
      · rcases Bool.or_eq_true_iff.1 hcov with hcov | hnil
        · exact h.covered hcov id hid
        · obtain ⟨a, ha, -⟩ := hops id hid
          rw [List.isEmpty_iff.1 hnil] at ha
          exact nomatch ha
      · obtain rfl := Option.some.inj hsome
        exact .inr (hops id hid)
    · exact h
  · exact h

theorem Inv.restoreNext (h : w.Inv cfg) : w.restoreNext.Inv cfg := by
  unfold KeyringWorld.restoreNext
  split
  · rename_i op rest hops
    have hnext : ∀ id ∈ w.stored cfg, (w.change op).Known id ∨
        ∃ a : Archive, TableOp.addArchive a ∈ rest ∧ a.conversationId = id := by
      intro id hid
      rcases h.restoring _ hops id hid with hk | ⟨a, ha, rfl⟩
      · exact .inl (hk.change op)
      · rcases List.mem_cons.1 ha with rfl | ha
        · exact .inl (known_addArchive w a)
        · exact .inr ⟨a, ha, rfl⟩
    refine ⟨fun hcov id hid => ?_, fun ops hsome id hid => ?_⟩
    · rcases Bool.or_eq_true_iff.1 hcov with hcov | hnil
      · exact (h.covered hcov id hid).change op
      · refine (hnext id hid).resolve_right ?_
        rintro ⟨a, ha, -⟩
        rw [List.isEmpty_iff.1 hnil] at ha
        exact nomatch ha
    · obtain rfl := Option.some.inj hsome
      exact hnext id hid
  · exact h

theorem Inv.of_relay (h : w.Inv cfg) {relay : RelayStore}
    (hrelay : relay.getKeyring cfg.mailboxId = w.relay.getKeyring cfg.mailboxId) :
    Inv cfg { w with relay } := by
  have hstored : stored cfg { w with relay } = w.stored cfg := by
    simp only [stored, storedContents, hrelay]
  exact ⟨fun hc id hid => h.covered hc id (hstored ▸ hid),
    fun ops hops id hid => h.restoring ops hops id (hstored ▸ hid)⟩

theorem Inv.step (h : w.Inv cfg) {e : KeyringEvent} (hsafe : w.Safe e) : (w.step cfg e).Inv cfg := by
  cases e with
  | change op => exact h.change op
  | upkeep t =>
    rw [KeyringWorld.step]
    rcases w.maintainKeyring_cases t with hsame | ⟨-, plain, hplain, hup⟩
    · rwa [hsame]
    · rw [hup]
      exact h.upload hsafe.2 hplain t
  | save t =>
    rw [KeyringWorld.step, saveKeyring]
    split
    · exact h
    · rename_i plain hplain
      exact h.upload hsafe hplain t
  | restore arrived now => exact h.beginRestore arrived now
  | restoreNext => exact h.restoreNext
  | restoreEnd =>
    rw [KeyringWorld.step, endRestore]
    split
    · exact ⟨h.covered, fun _ hops => nomatch hops⟩
    · exact h
  | restart => exact ⟨h.covered, fun _ hops => nomatch hops⟩
  | reinstall => exact Init.inv ⟨rfl, rfl, rfl, rfl⟩
  | otherPut mailboxId blob now =>
    rw [KeyringWorld.step]
    split_ifs with heq
    · exact h
    · refine h.of_relay ?_
      rw [RelayStore.getKeyring_putKeyring, if_neg (Ne.symm heq)]

/-! ## Runs -/

/-- Every archive of the stored keyring is in the one that replaced it, or was removed here. -/
def Keeps (cfg : KeyringSetup) (w w' : KeyringWorld) : Prop :=
  ∀ id ∈ w.stored cfg, id ∈ w'.stored cfg ∨ id ∈ w.removed

def Step (cfg : KeyringSetup) (w : KeyringWorld) (e : KeyringEvent) (w' : KeyringWorld) : Prop :=
  w' = w.step cfg e

theorem step_step (w : KeyringWorld) (e : KeyringEvent) : Step cfg w e (w.step cfg e) := rfl

theorem Inv.keeps (h : w.Inv cfg) {t : StoreAttempt} (hsafe : w.Safe (.upkeep t)) :
    w.Keeps cfg (w.maintainKeyring cfg t) := by
  intro id hid
  rcases w.maintainKeyring_cases t with hsame | ⟨hsome, plain, hplain, hup⟩
  · rw [hsame]
    exact .inl hid
  · have hcovered : w.covered = true :=
      hsafe.1.resolve_right fun hempty => Bool.false_ne_true (hsome.symm.trans hempty)
    rw [hup]
    rcases stored_upload cfg hsafe.2 hplain w t with hstored | hstored
    · exact .inl (hstored ▸ hid)
    · rw [hstored]
      exact (h.covered hcovered id hid).imp mem_buildKeyring.2 fun hr => hr

/-- In every run in which upkeep finds something to store only once the stored keyring has been taken
in, and what is stored is within the limits of the format, upkeep keeps every archive of the stored
keyring that this installation has not removed. -/
theorem upkeep_keeps_archives (cfg : KeyringSetup) {w : KeyringWorld}
    (hw : Reachable (Init cfg) (Under Safe (Step cfg)) w) (t : StoreAttempt)
    (hsafe : w.Safe (.upkeep t)) : w.Keeps cfg (w.step cfg (.upkeep t)) := by
  have hinv : w.Inv cfg := hw.invariant (fun w h => h.inv) fun w e w' h hs => hs.2 ▸ h.step hs.1
  exact hinv.keeps hsafe

/-! ## Runs that can be evaluated -/

instance (w : KeyringWorld) : ∀ e, Decidable (w.Safe e)
  | .upkeep _ => inferInstanceAs (Decidable ((w.covered = true ∨
      w.history.buildKeyring.isEmpty = true) ∧ w.history.buildKeyring.Readable))
  | .save _ => inferInstanceAs (Decidable w.history.buildKeyring.Readable)
  | .change _ | .restore .. | .restoreNext | .restoreEnd | .restart | .reinstall | .otherPut .. =>
    isTrue trivial

def safeStep (cfg : KeyringSetup) (w : KeyringWorld) (e : KeyringEvent) : Option KeyringWorld :=
  if w.Safe e then some (w.step cfg e) else none

theorem under_of_safeStep (w : KeyringWorld) (e : KeyringEvent) (w' : KeyringWorld)
    (h : w.safeStep cfg e = some w') : Under Safe (Step cfg) w e w' := by
  unfold safeStep at h
  split_ifs at h with hsafe
  exact ⟨hsafe, (Option.some.inj h).symm⟩

def sampleSetup : KeyringSetup where
  crypto := tagCrypto
  sha256 := Relay.byteSum
  key := List.replicate 32 5
  key_size := List.length_replicate
  mailboxId := [1]
  keyringMaxBytes := 4 * 1024 * 1024

def sampleId : Bytes := List.replicate 16 7

def sampleArchive : Archive where
  conversationId := sampleId
  relayAddress := ascii "relay"
  relayId := List.replicate 32 1
  role := .creator
  state := .joined
  archiveKey := List.replicate 32 2
  chatPublicKey := [3]
  chatPrivateKey := [4]
  joinToken := []
  createdAt := 0

def sampleAttempt : StoreAttempt where
  connected := true
  nonce := List.replicate 12 0
  nonce_size := rfl
  hops := [.through]
  allow := true
  now := 0

def sampleStart : KeyringWorld where
  relay := {}
  covered := true

theorem sampleStart_init : Init sampleSetup sampleStart := ⟨rfl, rfl, rfl, rfl⟩

def sampleCard : KeyringEvent :=
  .change (.addIssuedToken (List.replicate 32 6) (ascii "unnamed card") [] 0)

/-- A device with an archive stores its keyring, and is installed again. -/
def sampleReinstalled : List KeyringEvent :=
  [.change (.addArchive sampleArchive), .upkeep sampleAttempt, .reinstall]

/-- A card is made before the restore: the next upkeep replaces the stored keyring by one without the
archive. -/
theorem upkeep_drops_archives :
    ∃ w, Reachable (Init sampleSetup) (Step sampleSetup) w ∧ sampleId ∈ w.stored sampleSetup ∧
      w.removed = [] ∧ ¬w.Keeps sampleSetup (w.step sampleSetup (.upkeep sampleAttempt)) := by
  refine ⟨(sampleReinstalled ++ [sampleCard]).foldl (step sampleSetup) sampleStart,
    reachable_foldl step_step (.start sampleStart_init) _, by decide +kernel,
    by decide +kernel, fun h => ?_⟩
  have hlost := h sampleId (by decide +kernel)
  revert hlost
  decide +kernel

/-- The same device once it has been restored: the card and the archive are both stored. -/
def sampleRestored : Option KeyringWorld :=
  (sampleReinstalled ++ [.restore 1 0, .restoreNext, .restoreEnd, sampleCard]).foldlM
    (safeStep sampleSetup) sampleStart

theorem upkeep_keeps_archives_sample :
    ∃ w, sampleRestored = some w ∧ sampleId ∈ w.stored sampleSetup ∧
      w.Safe (.upkeep sampleAttempt) ∧
      w.Keeps sampleSetup (w.step sampleSetup (.upkeep sampleAttempt)) := by
  have hrun : sampleRestored.any (fun w =>
      sampleId ∈ w.stored sampleSetup ∧ w.Safe (.upkeep sampleAttempt)) = true := by decide +kernel
  obtain ⟨w, hw, hP⟩ := (Option.any_eq_true _ _).1 hrun
  obtain ⟨hmem, hsafe⟩ := of_decide_eq_true hP
  exact ⟨w, hw, hmem, hsafe, upkeep_keeps_archives sampleSetup
    (reachable_foldlM under_of_safeStep (.start sampleStart_init) _ hw) sampleAttempt hsafe⟩

end KeyringWorld

end PqSuite
