import PqSuite.Client.DeletionRuns
import PqSuite.Client.RecordSizes

/-!
# Which entry holds a message (`messaging_engine.cpp`)

To have a message deleted for everyone it is named by the entry of the archive that holds it. A device
notes that entry when it reads or adds it, but only for texts and for the record that makes a group, and
only the first one for each ID. Attachments are in the archive and are shown as well, and no request can
name them (`attachment_is_not_named`). Another record of the transcript can be named exactly if it is the
first that was noted under its ID (`named_iff_first_noted`).
-/

namespace PqSuite.Engine

open Chat HistoryStore
open Reach (Reachable)

variable {cfg : EngineSetup} {s : Device} {x : ReadEntry} {c messageId : Bytes}

/-- What `restore_records` shows of an archive. -/
def transcript (r : Record) : Bool := r.type = .text ∨ r.type = .conversation ∨ r.type = .attachment

theorem indexed_iff {r : Record} (h : transcript r = true) : indexed r = true ↔ r.type ≠ .attachment := by
  rw [transcript, decide_eq_true_iff] at h
  rw [indexed, decide_eq_true_iff]
  rcases h with h | h | h <;> rw [h] <;> decide

/-- The entries read of an archive are those of one chain: each number has one hash and one content, and
no two have one hash. -/
def OneChain (read : List ReadEntry) : Prop :=
  ∀ x ∈ read, ∀ y ∈ read, x.conversationId = y.conversationId →
    (x.number = y.number ↔ x.hash = y.hash) ∧
      (x.number = y.number → ∀ r ∈ x.record, ∀ r' ∈ y.record, r = r')

theorem oneChain_singleton (x : ReadEntry) : OneChain [x] := by
  intro y hy z hz _
  rw [List.mem_singleton.1 hy, List.mem_singleton.1 hz]
  exact ⟨iff_of_true rfl rfl, fun _ r hr r' hr' => Option.mem_unique hr hr'⟩

/-- The first entry that was read whose record is noted under an ID. -/
def firstNoted (cfg : EngineSetup) (read : List ReadEntry) (c messageId : Bytes) : Option ReadEntry :=
  read.find? fun x => (x.message cfg).any (·.key = (c, messageId))

theorem message_eq_some_iff {m : ArchivedMessage} : x.message cfg = some m ↔
    ∃ record ∈ x.record, ∃ sr, parseRecord cfg.toChatCrypto record = some sr ∧ indexed sr.record = true ∧
      m = ⟨x.conversationId, sr.record.messageId, x.number⟩ := by
  simp only [ReadEntry.message, bind, Option.bind_eq_some_iff, Option.filter_eq_some_iff, pure,
    Option.some.injEq, and_assoc, Option.mem_def, eq_comm (a := m)]

theorem firstNoted_spec {y : ReadEntry} (h : firstNoted cfg s.read c messageId = some y) :
    y ∈ s.read ∧ y.message cfg = some ⟨c, messageId, y.number⟩ := by
  refine ⟨List.mem_of_find?_eq_some h, ?_⟩
  have hkey := List.find?_some h
  rw [Option.any_eq_true] at hkey
  obtain ⟨m, hm, hkey⟩ := hkey
  obtain ⟨record, hrecord, sr, hparse, hindexed, rfl⟩ := message_eq_some_iff.1 hm
  obtain ⟨rfl, rfl⟩ := Prod.mk.inj (of_decide_eq_true hkey)
  exact hm

theorem lookup_archiveMessages (ht : s.Tables cfg) (c messageId : Bytes) :
    Rows.lookup ArchivedMessage.key (c, messageId) s.engine.history.archiveMessages =
      (firstNoted cfg s.read c messageId).map fun y => ⟨c, messageId, y.number⟩ := by
  have hfirst : Rows.lookup ArchivedMessage.key (c, messageId) s.engine.history.archiveMessages =
      (firstNoted cfg s.read c messageId).bind (·.message cfg) := by
    rw [ht.messages]
    refine (Rows.lookup_firsts _).trans ?_
    rw [Rows.lookup, List.find?_filterMap]
    rfl
  rw [hfirst]
  cases hy : firstNoted cfg s.read c messageId with
  | none => rfl
  | some y => exact (firstNoted_spec hy).2

theorem archiveMessageNumber_eq (ht : s.Tables cfg) (c messageId : Bytes) :
    s.engine.history.archiveMessageNumber c messageId =
      (firstNoted cfg s.read c messageId).map (·.number) := by
  rw [archiveMessageNumber, lookup_archiveMessages ht, Option.map_map]
  rfl

/-- In every run, the ID of a record of the transcript leads to an entry that holds it, exactly if it is
not an attachment and the first record that was noted under the ID is this one. -/
theorem named_iff_first_noted (hr : Reachable Device.Init (Device.Step cfg) s) (hone : OneChain s.read)
    (hx : x ∈ s.read) {record : Bytes} (hrecord : x.record = some record) {sr : SignedRecord}
    (hparse : parseRecord cfg.toChatCrypto record = some sr) (hshown : transcript sr.record = true) :
    (∃ n, s.engine.history.archiveMessageNumber x.conversationId sr.record.messageId = some n ∧
      ∃ y ∈ s.read, y.conversationId = x.conversationId ∧ y.number = n ∧ y.record = some record) ↔
    sr.record.type ≠ .attachment ∧
      ∀ y, firstNoted cfg s.read x.conversationId sr.record.messageId = some y → y.record = some record := by
  rw [archiveMessageNumber_eq (Device.tables hr), ← indexed_iff hshown]
  constructor
  · rintro ⟨n, hn, y, hy, hc, hnumber, hyrecord⟩
    obtain ⟨z, hz, rfl⟩ := Option.map_eq_some_iff.1 hn
    obtain ⟨hzread, hznoted⟩ := firstNoted_spec hz
    obtain ⟨zrecord, hzrecord, zsr, hzparse, hzindexed, heq⟩ := message_eq_some_iff.1 hznoted
    have hzc : x.conversationId = z.conversationId := congrArg ArchivedMessage.conversationId heq
    -- the two entries have one number, so they hold one record
    have hsame : zrecord = record :=
      (hone z hzread y hy (hzc.symm.trans hc.symm)).2 hnumber.symm _ hzrecord _ hyrecord
    subst hsame
    obtain rfl := Option.some.inj (hparse.symm.trans hzparse)
    refine ⟨hzindexed, fun y hy => ?_⟩
    rw [← Option.some.inj (hz.symm.trans hy)]
    exact hzrecord
  · rintro ⟨hindexed, hfirst⟩
    have hnoted : x.message cfg = some ⟨x.conversationId, sr.record.messageId, x.number⟩ :=
      message_eq_some_iff.2 ⟨record, hrecord, sr, hparse, hindexed, rfl⟩
    have hsome : (firstNoted cfg s.read x.conversationId sr.record.messageId).isSome = true := by
      rw [firstNoted, List.find?_isSome]
      refine ⟨x, hx, ?_⟩
      rw [hnoted]
      exact decide_eq_true rfl
    obtain ⟨y, hy⟩ := Option.isSome_iff_exists.1 hsome
    obtain ⟨hyread, hynoted⟩ := firstNoted_spec hy
    refine ⟨y.number, by rw [hy]; rfl, y, hyread, ?_, rfl, hfirst y hy⟩
    exact (message_conversationId hynoted).symm

/-! ## An attachment in an archive -/

def shownRecord (type : RecordType) : Record where
  conversationId := groupId
  messageId := groupId
  sender := List.replicate 32 1
  recipientsHash := List.replicate 32 1
  sentAt := 0
  type
  payload := []

def shownRaw (type : RecordType) : Bytes :=
  writeBlob (writeBody (shownRecord type)) ++ writeBlob (List.replicate 3309 0)

def shownArchive : HistoryStore.Archive where
  conversationId := groupId
  relayAddress := ascii "relay.example"
  relayId := []
  role := .creator
  state := .joined
  archiveKey := []
  chatPublicKey := []
  chatPrivateKey := []
  joinToken := []
  createdAt := 0

theorem parse_shownRaw {type : RecordType} (hwell : wellFormed (shownRecord type) = true) :
    ∃ sr, parseRecord sizedSetup.toChatCrypto (shownRaw type) = some sr ∧ sr.record = shownRecord type := by
  have hsign := signRecord_sized hwell
  have hsize := sizedSetup_sizes.length_record hsign rfl rfl
  have hfits : (shownRaw type).length ≤ Chat.maxRecordBytes := by
    rw [shownRaw, hsize]
    exact (by decide : 3461 + 0 ≤ Chat.maxRecordBytes)
  obtain ⟨sr, hparse⟩ := Option.isSome_iff_exists.1 (sizedSetup_sizes.parseRecord_signed hsign hfits)
  exact ⟨sr, hparse, (parseRecord_signRecord hsign hparse).1⟩

def shownEntry (type : RecordType) : ReadEntry := ⟨groupId, 1, (Relay.byteSum []).1, some (shownRaw type)⟩

def shown (type : RecordType) : Device :=
  Device.next sizedSetup ⟨{ history := { archives := [shownArchive] } }, [], []⟩
    (.input (.own shownArchive (shownRaw type) ⟨1, Relay.byteSum []⟩))

theorem shown_reachable (type : RecordType) : Reachable Device.Init (Device.Step sizedSetup) (shown type) :=
  .next (.start ⟨rfl, rfl, rfl, rfl, rfl⟩) rfl

theorem read_shown (type : RecordType) : (shown type).read = [shownEntry type] := Device.read_input _

theorem text_is_named : ∃ n, (shown .text).engine.history.archiveMessageNumber groupId groupId = some n := by
  obtain ⟨sr, hparse, hrecord⟩ := @parse_shownRaw .text (by decide)
  have hread := read_shown .text
  have hmem : shownEntry .text ∈ (shown .text).read := by rw [hread]; exact List.mem_singleton_self _
  have hone : OneChain (shown .text).read := by rw [hread]; exact oneChain_singleton _
  have hfirst : ∀ y, firstNoted sizedSetup (shown .text).read groupId sr.record.messageId = some y →
      y.record = some (shownRaw .text) := by
    intro y hy
    have hy := (firstNoted_spec hy).1
    rw [hread] at hy
    rw [List.mem_singleton.1 hy]
    rfl
  obtain ⟨n, hn, -⟩ := (named_iff_first_noted (shown_reachable .text) hone hmem rfl hparse
    (by rw [hrecord]; decide)).2 ⟨by rw [hrecord]; decide, hfirst⟩
  rw [hrecord] at hn
  exact ⟨n, hn⟩

/-- The record of an attachment is signed, added to the archive and shown, and no entry is noted for it. -/
theorem attachment_is_not_named :
    Reachable Device.Init (Device.Step sizedSetup) (shown .attachment) ∧
    shownEntry .attachment ∈ (shown .attachment).read ∧
    (∃ sr, parseRecord sizedSetup.toChatCrypto (shownRaw .attachment) = some sr ∧
      transcript sr.record = true ∧ sr.record.messageId = groupId) ∧
    (shown .attachment).engine.history.archiveMessageNumber groupId groupId = none := by
  obtain ⟨sr, hparse, hrecord⟩ := @parse_shownRaw .attachment (by decide)
  have hread := read_shown .attachment
  refine ⟨shown_reachable _, by rw [hread]; exact List.mem_singleton_self _,
    ⟨sr, hparse, by rw [hrecord]; decide, by rw [hrecord]; rfl⟩, ?_⟩
  rw [archiveMessageNumber_eq (Device.tables (shown_reachable _))]
  cases hy : firstNoted sizedSetup (shown .attachment).read groupId groupId with
  | none => rfl
  | some y =>
    obtain ⟨hmem, hnoted⟩ := firstNoted_spec hy
    rw [hread] at hmem
    obtain rfl := List.mem_singleton.1 hmem
    obtain ⟨record, hmem, sr', hparse', hindexed, -⟩ := message_eq_some_iff.1 hnoted
    obtain rfl := Option.some.inj hmem
    rw [Option.some.inj (hparse'.symm.trans hparse), hrecord] at hindexed
    exact absurd hindexed (by decide)

end PqSuite.Engine
