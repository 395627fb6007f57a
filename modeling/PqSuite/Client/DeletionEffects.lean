import PqSuite.Client.ArchivedMessages
import PqSuite.Client.DeletionOrders

/-!
# What carrying out a deletion erases (`messaging_engine.cpp`)

A request names entries of the archive by their hashes. `apply_deletion_locally` looks up each hash and
then the messages noted at its entry, and skips what it does not know. A message whose entry this device
has not read yet stays (`unread_entry_keeps_message`). In whatever order entries, requests and acceptances
came, the messages at the named entries are erased exactly if each was first noted at one
(`done_erases_iff`).
-/

namespace PqSuite.Engine

open HistoryStore
open Reach (Reachable)

/-- An entry of a chat's archive as it is at the relay: its hash and the message in it. -/
structure HeldEntry where
  hash : Bytes
  messageId : Bytes

variable {cfg : EngineSetup} {s : Device} {d : Deletion} {c messageId : Bytes}

/-- Every stored message that the archive holds at a named entry is erased. -/
def Erased (archive : List HeldEntry) (d : Deletion) (h : HistoryStore) : Prop :=
  ∀ m ∈ h.messages, m.conversationId = d.conversationId →
    (∃ x ∈ archive, x.hash ∈ d.entries ∧ x.messageId = m.messageId) → m.record = []

/-- The first record that this device noted under an ID is at an entry that the request names. -/
def NotedFirst (cfg : EngineSetup) (read : List ReadEntry) (d : Deletion) (messageId : Bytes) : Prop :=
  ∃ y, firstNoted cfg read d.conversationId messageId = some y ∧ y.hash ∈ d.entries

/-! ## What is found for a named entry -/

theorem mem_archiveChain {l : ChainLink} (ht : s.Tables cfg) (hl : l ∈ s.engine.history.archiveChain) :
    ∃ x ∈ s.read, x.link = l := by
  rw [ht.chain] at hl
  exact List.mem_map.1 (Rows.lookup_eq_some (Rows.mem_firsts_iff.1 hl)).1

/-- The hash of an entry that was read leads to its number. -/
theorem archiveNumberOf_iff (ht : s.Tables cfg) (hone : OneChain s.read) {hash : Bytes} {n : UInt64} :
    s.engine.history.archiveNumberOf c hash = some n ↔
      ∃ x ∈ s.read, x.conversationId = c ∧ x.hash = hash ∧ x.number = n := by
  -- whatever the table has under the hash was read
  have hfound : ∀ l, s.engine.history.archiveChain.find? (fun l => l.conversationId = c ∧ l.hash = hash) =
      some l → ∃ x ∈ s.read, x.conversationId = c ∧ x.hash = hash ∧ x.number = l.number := by
    intro l hl
    have hmatch := List.find?_some hl
    obtain ⟨hc, hhash⟩ := of_decide_eq_true hmatch
    obtain ⟨x, hx, rfl⟩ := mem_archiveChain ht (List.mem_of_find?_eq_some hl)
    exact ⟨x, hx, hc, hhash, rfl⟩
  rw [archiveNumberOf, Option.map_eq_some_iff]
  constructor
  · rintro ⟨l, hl, rfl⟩
    exact hfound l hl
  · rintro ⟨x, hx, rfl, rfl, rfl⟩
    -- the first entry with the number is in the table, and has the hash
    have hlink : (Rows.lookup ChainLink.key x.link.key (s.read.map ReadEntry.link)).isSome = true :=
      Rows.lookup_isSome.2 ⟨x.link, List.mem_map_of_mem hx, rfl⟩
    obtain ⟨l, hl⟩ := Option.isSome_iff_exists.1 hlink
    obtain ⟨hmem, hkey⟩ := Rows.lookup_eq_some hl
    obtain ⟨y, hy, rfl⟩ := List.mem_map.1 hmem
    obtain ⟨hc, hnumber⟩ := Prod.mk.inj hkey
    have hchain : y.link ∈ s.engine.history.archiveChain := by
      rw [ht.chain]
      exact Rows.mem_firsts_iff.2 (hkey ▸ hl)
    have hhash : y.hash = x.hash := (hone y hy x hx hc).1.1 hnumber
    have hsome : (s.engine.history.archiveChain.find? fun l =>
        l.conversationId = x.conversationId ∧ l.hash = x.hash).isSome = true :=
      List.find?_isSome.2 ⟨y.link, hchain, decide_eq_true ⟨hc, hhash⟩⟩
    obtain ⟨l, hl⟩ := Option.isSome_iff_exists.1 hsome
    obtain ⟨z, hz, hzc, hzhash, hznumber⟩ := hfound l hl
    exact ⟨l, hl, hznumber.symm.trans ((hone z hz x hx hzc).1.2 hzhash)⟩

theorem mem_archiveMessagesAt_iff (ht : s.Tables cfg) {n : UInt64} :
    messageId ∈ s.engine.history.archiveMessagesAt c n ↔
      ∃ y, firstNoted cfg s.read c messageId = some y ∧ y.number = n := by
  have hrow : (⟨c, messageId, n⟩ : ArchivedMessage) ∈ s.engine.history.archiveMessages ↔
      ∃ y, firstNoted cfg s.read c messageId = some y ∧ y.number = n := by
    have hfirst : (⟨c, messageId, n⟩ : ArchivedMessage) ∈ s.engine.history.archiveMessages ↔
        Rows.lookup ArchivedMessage.key (c, messageId) s.engine.history.archiveMessages =
          some ⟨c, messageId, n⟩ := by
      rw [ht.messages]
      exact Rows.mem_firsts_iff.trans (by rw [← Rows.lookup_firsts]; rfl)
    rw [hfirst, lookup_archiveMessages ht, Option.map_eq_some_iff]
    simp only [ArchivedMessage.mk.injEq, true_and]
  rw [← hrow, archiveMessagesAt, List.mem_map]
  constructor
  · rintro ⟨⟨c', messageId', n'⟩, hm, rfl⟩
    obtain ⟨hmem, hat⟩ := List.mem_filter.1 hm
    obtain ⟨rfl, rfl⟩ := of_decide_eq_true hat
    exact hmem
  · exact fun hm => ⟨_, List.mem_filter.2 ⟨hm, decide_eq_true ⟨rfl, rfl⟩⟩, rfl⟩

theorem mem_idsAt_iff (ht : s.Tables cfg) (hone : OneChain s.read) :
    messageId ∈ d.entries.flatMap (idsAt s.engine.history d.conversationId) ↔
      NotedFirst cfg s.read d messageId := by
  have hids : ∀ hash, messageId ∈ idsAt s.engine.history d.conversationId hash ↔
      ∃ n, s.engine.history.archiveNumberOf d.conversationId hash = some n ∧
        messageId ∈ s.engine.history.archiveMessagesAt d.conversationId n := by
    intro hash
    unfold idsAt
    cases s.engine.history.archiveNumberOf d.conversationId hash <;> simp
  simp only [List.mem_flatMap, hids, archiveNumberOf_iff ht hone, mem_archiveMessagesAt_iff ht, NotedFirst]
  constructor
  · rintro ⟨hash, hnamed, n, ⟨x, hx, hc, rfl, rfl⟩, y, hy, hnumber⟩
    obtain ⟨hyread, hynoted⟩ := firstNoted_spec hy
    have hyc : d.conversationId = y.conversationId := message_conversationId hynoted
    rw [(hone x hx y hyread (hc.trans hyc)).1.1 hnumber.symm] at hnamed
    exact ⟨y, hy, hnamed⟩
  · rintro ⟨y, hy, hnamed⟩
    obtain ⟨hyread, hynoted⟩ := firstNoted_spec hy
    exact ⟨y.hash, hnamed, y.number, ⟨y, hyread, (message_conversationId hynoted).symm, rfl, rfl⟩, y, hy, rfl⟩

/-! ## Becoming done -/

/-- Only carrying a request out makes it done. -/
theorem applied_of_done {ev : DeviceEvent} {e : Engine} (hd : e.history.deletion d.opId = some d)
    (hnot : d.state ≠ .done) (hdone : stateOf (ev.apply cfg e) d.opId = some .done) : ∃ redacted,
      (ev.apply cfg e).history = applyDeletionLocally d { e.history with archiveRedacted := redacted } := by
  cases effect_apply cfg ev e with
  | quiet hq => exact absurd hdone (hq.undone d hd hnot)
  | ends d' state redacted f hd' hf hh hreads =>
    have hknown : HistoryStore.deletion { e.history with archiveRedacted := redacted } d.opId = some d := hd
    rw [stateOf, hh] at hdone
    cases hf with
    | same =>
      rw [id, hknown] at hdone
      exact absurd (Option.some.inj hdone) hnot
    | expired =>
      rw [deletion_setDeletionState, hknown, Option.map_some, Option.map_some] at hdone
      split_ifs at hdone
      · cases hdone
      · exact absurd (Option.some.inj hdone) hnot
    | done harchive =>
      by_cases hop : d.opId = d'.opId
      · have hrow : d = { d' with state } := Option.some.inj ((hop ▸ hd).symm.trans hd')
        refine ⟨redacted, hh.trans ?_⟩
        rw [hrow]
        rfl
      · rw [deletion_applyDeletionLocally, hknown, Option.map_some, if_neg hop] at hdone
        exact absurd (Option.some.inj hdone) hnot

theorem messages_of_done {ev : DeviceEvent} {e : Engine} (hd : e.history.deletion d.opId = some d)
    (hscope : d.scope = .entries) (hnot : d.state ≠ .done)
    (hdone : stateOf (ev.apply cfg e) d.opId = some .done) :
    (ev.apply cfg e).history.messages = e.history.messages.map
      (without d.conversationId (d.entries.flatMap (idsAt e.history d.conversationId))) := by
  obtain ⟨redacted, happlied⟩ := applied_of_done hd hnot hdone
  obtain ⟨redacted', herased⟩ := applyDeletionLocally_entries
    (h := { e.history with archiveRedacted := redacted }) hscope
  rw [happlied, herased]
  rfl

/-- When a request for messages becomes done in a run, every message at a named entry is erased exactly if
each of them that still had content was first noted at one. -/
theorem done_erases_iff (hr : Reachable Device.Init (Device.Step cfg) s) (hone : OneChain s.read)
    {ev : DeviceEvent} (hd : s.engine.history.deletion d.opId = some d) (hscope : d.scope = .entries)
    (hnot : d.state ≠ .done) (hdone : stateOf (s.next cfg ev).engine d.opId = some .done)
    (archive : List HeldEntry) :
    Erased archive d (s.next cfg ev).engine.history ↔
      ∀ m ∈ s.engine.history.messages, m.conversationId = d.conversationId → m.record ≠ [] →
        (∃ x ∈ archive, x.hash ∈ d.entries ∧ x.messageId = m.messageId) →
          NotedFirst cfg s.read d m.messageId := by
  have hmessages : (s.next cfg ev).engine.history.messages = _ := messages_of_done hd hscope hnot hdone
  unfold Erased
  rw [hmessages, List.forall_mem_map]
  refine forall₂_congr fun m _ => ?_
  rw [← mem_idsAt_iff (Device.tables hr) hone]
  by_cases hmem : m.messageId ∈ d.entries.flatMap (idsAt s.engine.history d.conversationId)
  · by_cases hc : m.conversationId = d.conversationId
    · simp [without, hc, hmem]
    · simp [without, hc]
  · have hsame : without d.conversationId (d.entries.flatMap (idsAt s.engine.history d.conversationId)) m = m :=
      if_neg fun hm => hmem hm.2
    rw [hsame]
    constructor
    · intro herased hc hrecord hheld
      exact absurd (herased hc hheld) hrecord
    · intro hall hc hheld
      by_contra hrecord
      exact hmem (hall hc hrecord hheld)

/-! ## Entries that were read, and one that was not -/

def namedDeletion : Deletion :=
  { orderedDeletion with conversationId := groupId, scope := .entries, entries := [(Relay.byteSum []).1] }

/-- A device that has an archive and a message of its first entry. -/
def keeper : Device where
  engine := { history := {
    archives := [shownArchive]
    messages := [{ conversationId := groupId, messageId := groupId, outgoing := false, sentAt := 0
                   receivedAt := 0, status := 0, entryHash := Relay.byteSum [], record := [5] }] } }

/-- Someone asks to delete the entry, the user agrees and both acceptances come. -/
def agreement : List DeviceEvent :=
  [.input (.request namedDeletion false), .input (.answer [1] true),
    .input (.acceptance ⟨[1], [2], [], []⟩), .input (.acceptance ⟨[1], [3], [], []⟩)]

def agreed (s : Device) : Device := agreement.foldl (Device.next sizedSetup) s

theorem agreed_reachable (h : Reachable Device.Init (Device.Step sizedSetup) s) :
    Reachable Device.Init (Device.Step sizedSetup) (agreed s) := by
  have hnext : ∀ s ev, Device.Step sizedSetup s ev (s.next sizedSetup ev) := fun _ _ => rfl
  exact Reach.reachable_foldl hnext h agreement

theorem read_agreed (s : Device) : (agreed s).read = s.read := by
  simp only [agreed, agreement, List.foldl_cons, List.foldl_nil, Device.read_input, DeviceEvent.reads,
    List.append_nil]

/-- Nothing is known of requests, and the archive has been joined. -/
structure Fresh (s : Device) (a : HistoryStore.Archive) : Prop where
  deletions : s.engine.history.deletions = []
  accepts : s.engine.history.deletionAccepts = []
  attempts : s.engine.submitAttempts = []
  archive : s.engine.history.archive groupId = some a
  item : a.toArchiveItem = shownArchive.toArchiveItem

variable {a : HistoryStore.Archive}

theorem Fresh.agreed_engine (hs : Fresh s a) : (agreed s).engine =
    { s.engine with history := { s.engine.history with
      deletions := [namedDeletion], deletionAccepts := bothAccepts } } := by
  simp [agreed, agreement, Device.next, DeviceEvent.apply, Input.history, addDeletion, addDeletionAccept,
    hs.deletions, hs.accepts, Rows.insertNew, Rows.lookup, deletion, setDeletionState, namedDeletion,
    orderedDeletion, bothAccepts]

theorem Fresh.agreed_ready (hs : Fresh s a) : Ready (agreed s).engine namedDeletion a := by
  rw [hs.agreed_engine]
  refine ⟨rfl, rfl, hs.archive, ?_, ?_⟩
  · rw [hs.item]
    rfl
  · rw [hs.item]
    exact (accepted_ready []).address

/-- The relay takes the order, and the request is carried out. -/
theorem Fresh.submit_done (hs : Fresh s a) :
    stateOf ((agreed s).next sizedSetup (.submit (orderOut true) [1])).engine [1] = some .done := by
  have hheld : ¬Held (agreed s).engine namedDeletion := by
    rw [hs.agreed_engine, Held, hs.attempts]
    rintro (h | h | h)
    · exact h rfl
    · exact absurd h (by decide : ¬(bothAccepts.filter (·.opId = [1])).length < 2)
    · cases h
  have hrun : trySubmitDeletion (orderOut true) [1] (agreed s).engine = .ok () _ :=
    hs.agreed_ready.trySubmitDeletion_eq (orderOut true) hheld
  have hknown : (agreed s).engine.history.deletion [1] = some namedDeletion := hs.agreed_ready.known
  simp only [Device.next, DeviceEvent.apply, Program.after, hrun, stateOf]
  show ((applyDeletionLocally namedDeletion (agreed s).engine.history).deletion [1]).map (·.state) = _
  rw [deletion_applyDeletionLocally, hknown]
  rfl

def relayArchive : List HeldEntry := [⟨(Relay.byteSum []).1, groupId⟩]

def reader : Device := keeper.next sizedSetup (.input (.own shownArchive (shownRaw .text) ⟨1, Relay.byteSum []⟩))

theorem reader_fresh : ∃ a, Fresh reader a := by
  obtain ⟨archives, hown, harchives⟩ := appended_eq sizedSetup shownArchive (shownRaw .text)
    ⟨1, Relay.byteSum []⟩ keeper.engine.history
  have hhistory : reader.engine.history = _ := (Device.history_input _).trans hown
  obtain ⟨a, rfl, hitem⟩ := List.map_eq_singleton_iff.1 harchives
  have hitem : a.toArchiveItem = shownArchive.toArchiveItem :=
    (congrArg HistoryStore.Archive.toArchiveItem hitem :)
  have hid : a.conversationId = groupId := congrArg Keyring.ArchiveItem.conversationId hitem
  refine ⟨a, ?_, ?_, rfl, ?_, hitem⟩ <;> rw [hhistory]
  · rfl
  · rfl
  · rw [HistoryStore.archive, Rows.lookup, List.find?_singleton, hid]
    rfl

theorem read_entry_erases_message : Erased relayArchive namedDeletion
    ((agreed reader).next sizedSetup (.submit (orderOut true) [1])).engine.history := by
  obtain ⟨a, hfresh⟩ := reader_fresh
  have hread : (agreed reader).read = [shownEntry .text] := (read_agreed reader).trans (Device.read_input _)
  have hr : Reachable Device.Init (Device.Step sizedSetup) (agreed reader) :=
    agreed_reachable (.next (.start ⟨rfl, rfl, rfl, rfl, rfl⟩ : Reachable _ _ keeper) rfl)
  refine (done_erases_iff hr (by rw [hread]; exact oneChain_singleton _) hfresh.agreed_ready.known rfl nofun
    hfresh.submit_done _).2 fun m hm _ _ ⟨x, hx, _, hid⟩ => ?_
  obtain rfl := List.mem_singleton.1 hx
  rw [← hid, hread]
  -- the one entry that was read is noted under the ID
  obtain ⟨sr, hparse, hrecord⟩ := @parse_shownRaw .text (by decide)
  have hnoted : (shownEntry .text).message sizedSetup = some ⟨groupId, groupId, 1⟩ :=
    message_eq_some_iff.2 ⟨_, rfl, sr, hparse, by rw [hrecord]; decide, by rw [hrecord]; rfl⟩
  refine ⟨shownEntry .text, List.find?_cons_of_pos ?_, List.mem_singleton_self _⟩
  rw [hnoted, Option.any_some, decide_eq_true_iff]
  rfl

/-- The archive holds the message at the named entry, which this device has not read. The relay takes the
order, the request becomes done, and the message keeps its content. -/
theorem unread_entry_keeps_message :
    let s := (agreed keeper).next sizedSetup (.submit (orderOut true) [1])
    Reachable Device.Init (Device.Step sizedSetup) s ∧ stateOf s.engine [1] = some .done ∧
      ¬Erased relayArchive namedDeletion s.engine.history := by
  have hfresh : Fresh keeper shownArchive := ⟨rfl, rfl, rfl, rfl, rfl⟩
  have hr : Reachable Device.Init (Device.Step sizedSetup) (agreed keeper) :=
    agreed_reachable (.start ⟨rfl, rfl, rfl, rfl, rfl⟩)
  refine ⟨hr.next rfl, hfresh.submit_done, fun herased => ?_⟩
  have hmessages : ((agreed keeper).next sizedSetup (.submit (orderOut true) [1])).engine.history.messages = _ :=
    messages_of_done hfresh.agreed_ready.known rfl nofun hfresh.submit_done
  -- no entry was read, so nothing is found for the named one
  rw [hfresh.agreed_engine] at hmessages
  have hkept : ((agreed keeper).next sizedSetup (.submit (orderOut true) [1])).engine.history.messages =
      keeper.engine.history.messages := hmessages.trans rfl
  have hrecord := herased _ (by rw [hkept]; exact List.mem_singleton_self _) rfl
    ⟨_, List.mem_singleton_self _, List.mem_singleton_self _, rfl⟩
  cases hrecord

end PqSuite.Engine
