import PqSuite.Client.Upkeep
import PqSuite.Lib.Program
import PqSuite.Lib.Reach

/-!
# A device in which deletions are agreed on (`messaging_engine.cpp`)

Archives and pages of their entries, messages, requests to delete and acceptances reach a device in any
order. In between its user answers requests, and it looks after them and submits orders, with any answers
from the relays. Its tables hold the first entry it has read with each number and the first one noted for
each message (`Device.Tables`).
-/

namespace PqSuite.Engine

open Relay (ArchiveEntry ArchiveHead)
open Archive (Head verifyChain)
open Chat HistoryStore
open Reach (Reachable)

variable {cfg : EngineSetup} {out : Outside} {e : Engine} {h : HistoryStore} {c opId : Bytes}
  {d : Deletion} {h' : HistoryStore}

/-! ## What a program does -/

/-- The messages with these IDs lose their content. -/
def without (c : Bytes) (ids : List Bytes) (m : Message) : Message :=
  if m.conversationId = c ∧ m.messageId ∈ ids then { m with record := [] } else m

/-- The messages that are noted at the entry with a hash. -/
def idsAt (h : HistoryStore) (c hash : Bytes) : List Bytes :=
  ((h.archiveNumberOf c hash).map (h.archiveMessagesAt c)).getD []

theorem without_nil (c : Bytes) : without c [] = id := funext fun _ => if_neg fun hm => nomatch hm.2

theorem without_append (c : Bytes) (ids ids' : List Bytes) :
    without c ids' ∘ without c ids = without c (ids ++ ids') := by
  funext m
  by_cases hc : m.conversationId = c <;> by_cases hm : m.messageId ∈ ids <;>
    by_cases hs : m.messageId ∈ ids' <;> simp [without, hc, hm, hs]

theorem eraseMessages_eq (ids : List Bytes) : ids.foldl (·.eraseMessage c ·) h =
    { h with messages := h.messages.map (without c ids) } := by
  induction ids generalizing h with
  | nil => rw [without_nil, List.map_id, List.foldl_nil]
  | cons id ids ih =>
    have hone : h.eraseMessage c id = { h with messages := h.messages.map (without c [id]) } := by
      unfold eraseMessage without
      simp only [List.mem_singleton]
    rw [List.foldl_cons, hone, ih, List.map_map, without_append, List.singleton_append]

theorem eraseEntry_eq (hash : Bytes) : ∃ redacted, eraseEntry c h hash =
    { h with messages := h.messages.map (without c (idsAt h c hash)), archiveRedacted := redacted } := by
  unfold eraseEntry idsAt
  cases h.archiveNumberOf c hash with
  | none => exact ⟨h.archiveRedacted, by rw [Option.map_none, Option.getD_none, without_nil, List.map_id]⟩
  | some n =>
    dsimp only [Option.map_some, Option.getD_some]
    rw [eraseMessages_eq]
    exact ⟨_, rfl⟩

theorem eraseEntries_eq (hashes : List Bytes) : ∃ redacted, hashes.foldl (eraseEntry c) h =
    { h with
      messages := h.messages.map (without c (hashes.flatMap (idsAt h c)))
      archiveRedacted := redacted } := by
  induction hashes generalizing h with
  | nil => exact ⟨h.archiveRedacted, by rw [List.flatMap_nil, without_nil, List.map_id, List.foldl_nil]⟩
  | cons hash hashes ih =>
    obtain ⟨redacted, hentry⟩ := eraseEntry_eq (h := h) (c := c) hash
    obtain ⟨redacted', hrest⟩ := ih (h := eraseEntry c h hash)
    refine ⟨redacted', ?_⟩
    -- what is noted where stays the same, so the entries can be looked up at the start
    rw [List.foldl_cons, hrest, hentry, List.map_map, without_append]
    rfl

theorem applyDeletionLocally_entries (hscope : d.scope = .entries) : ∃ redacted,
    applyDeletionLocally d h =
      { h with
        messages := h.messages.map (without d.conversationId (d.entries.flatMap (idsAt h d.conversationId)))
        archiveRedacted := redacted
        deletions := (h.setDeletionState d.opId .done).deletions } := by
  obtain ⟨redacted, herased⟩ := eraseEntries_eq (h := h) (c := d.conversationId) d.entries
  unfold applyDeletionLocally
  rw [hscope]
  dsimp only
  rw [herased]
  exact ⟨redacted, rfl⟩

theorem applyDeletionLocally_chat (hscope : d.scope = .chat) : applyDeletionLocally d h =
    ((h.eraseConversationMessages d.conversationId).removeArchive d.conversationId).setDeletionState
      d.opId .done := by
  unfold applyDeletionLocally
  rw [hscope]

theorem deletion_setDeletionState (opId' : Bytes) (state : DeletionState) :
    (h.setDeletionState opId state).deletion opId' =
      (h.deletion opId').map fun d => if d.opId = opId then { d with state } else d :=
  Rows.lookup_map (fun d => by split_ifs <;> rfl) opId' h.deletions

theorem deletion_applyDeletionLocally (opId : Bytes) : (applyDeletionLocally d h).deletion opId =
    (h.deletion opId).map fun r => if r.opId = d.opId then { r with state := .done } else r := by
  refine Eq.trans ?_ (deletion_setDeletionState opId .done)
  cases hscope : d.scope with
  | chat => rw [applyDeletionLocally_chat hscope]; rfl
  | entries =>
    obtain ⟨redacted, herased⟩ := applyDeletionLocally_entries (h := h) hscope
    rw [herased]
    rfl

/-- What a look at a request, or its submission, can do to the tables, apart from the entries that are
marked as gone. -/
inductive Ends (h : HistoryStore) (d : Deletion) : (HistoryStore → HistoryStore) → Prop where
  | same : Ends h d id
  | expired : Ends h d (·.setDeletionState d.opId .expired)
  | done (harchive : h.hasArchive d.conversationId = true) : Ends h d (applyDeletionLocally d)

theorem openArchiveSession_spec (out : Outside) (a : HistoryStore.Archive) (e : Engine) :
    ∃ r asked, openArchiveSession out a e = .ok r { e with asked } := by
  unfold openArchiveSession
  split_ifs <;> exact ⟨_, _, rfl⟩

theorem checkEntry_spec (out : Outside) (c hash : Bytes) (e : Engine) : ∃ gone asked redacted,
    checkEntry out c hash e =
      .ok gone { e with asked, history := { e.history with archiveRedacted := redacted } } := by
  unfold checkEntry
  simp only [bind, EStateM.bind, Program.get_apply]
  cases e.history.archiveNumberOf c hash with
  | none => exact ⟨false, e.asked, e.history.archiveRedacted, rfl⟩
  | some number =>
    dsimp only
    split_ifs
    · exact ⟨true, e.asked, e.history.archiveRedacted, rfl⟩
    · simp only [ask, bind, EStateM.bind, Program.get_apply, Program.set_apply, pure, EStateM.pure]
      cases out.fetchEntries e.asked with
      | error err => exact ⟨false, e.asked + 1, e.history.archiveRedacted, rfl⟩
      | ok page =>
        dsimp only
        split_ifs
        · exact ⟨true, e.asked + 1, _, rfl⟩
        · exact ⟨false, e.asked + 1, e.history.archiveRedacted, rfl⟩

theorem checkEntries_spec (out : Outside) (c : Bytes) (hashes : List Bytes) (e : Engine) :
    ∃ all asked redacted, checkEntries out c hashes e =
      .ok all { e with asked, history := { e.history with archiveRedacted := redacted } } := by
  induction hashes generalizing e with
  | nil => exact ⟨true, e.asked, e.history.archiveRedacted, rfl⟩
  | cons hash rest ih =>
    obtain ⟨gone, asked, redacted, hone⟩ := checkEntry_spec out c hash e
    obtain ⟨others, asked', redacted', hrest⟩ := ih
      { e with asked, history := { e.history with archiveRedacted := redacted } }
    refine ⟨gone && others, asked', redacted', ?_⟩
    simp only [checkEntries, bind, EStateM.bind, hone, hrest, pure, EStateM.pure]

theorem lookAfter_spec (out : Outside) (d : Deletion) (e : Engine) : ∃ go asked redacted f,
    lookAfter out d e =
      .ok go { e with asked, history := f { e.history with archiveRedacted := redacted } } ∧
    Ends e.history d f := by
  have hsame : ∀ go, ∃ asked redacted f, (pure go : EngineM Bool) e =
      .ok go { e with asked, history := f { e.history with archiveRedacted := redacted } } ∧
      Ends e.history d f := fun go => ⟨e.asked, e.history.archiveRedacted, id, rfl, .same⟩
  unfold lookAfter
  simp only [bind, EStateM.bind, Program.get_apply]
  by_cases hopen : d.state ≠ .pending ∧ d.state ≠ .accepted
  · simp only [if_pos hopen]
    exact ⟨_, hsame false⟩
  by_cases hlate : d.expiresAt ≤ out.now
  · simp only [if_neg hopen, if_pos hlate]
    exact ⟨_, e.asked, e.history.archiveRedacted, _, rfl, .expired⟩
  by_cases haccepted : d.state ≠ .accepted
  · simp only [if_neg hopen, if_neg hlate, if_pos haccepted]
    exact ⟨_, hsame false⟩
  simp only [if_neg hopen, if_neg hlate, if_neg haccepted]
  cases ha : e.history.archive d.conversationId with
  | none => exact ⟨_, hsame false⟩
  | some a =>
    have harchive : e.history.hasArchive d.conversationId = true := by rw [hasArchive, ha]; rfl
    obtain ⟨r, asked, hsession⟩ := openArchiveSession_spec out a e
    simp only [EStateM.bind, hsession]
    cases r with
    | error err =>
      by_cases hgone : d.scope = .chat ∧ mentions err "Authentication failed" = true
      · simp only [if_pos hgone]
        exact ⟨_, asked, e.history.archiveRedacted, _, rfl, .done harchive⟩
      · simp only [if_neg hgone]
        exact ⟨_, asked, e.history.archiveRedacted, _, rfl, .same⟩
    | ok u =>
      by_cases hscope : d.scope = .entries
      · obtain ⟨all, asked, redacted, hall⟩ :=
          checkEntries_spec out d.conversationId d.entries { e with asked }
        simp only [if_pos hscope, EStateM.bind, hall]
        cases all with
        | true => exact ⟨_, asked, redacted, _, rfl, .done harchive⟩
        | false => exact ⟨_, asked, redacted, _, rfl, .same⟩
      · simp only [if_neg hscope]
        exact ⟨_, asked, e.history.archiveRedacted, _, rfl, .same⟩

/-- When `try_submit_deletion` returns at once. -/
def Held (e : Engine) (d : Deletion) : Prop :=
  d.state ≠ .accepted ∨ (e.history.deletionAcceptsOf d.opId).length < 2 ∨
    (e.submitAttempts.lookup d.opId).any
      (fun n => decide ((e.history.deletionAcceptsOf d.opId).length ≤ n)) = true

instance : Decidable (Held e d) := inferInstanceAs (Decidable (_ ∨ _ ∨ _))

def attempts (e : Engine) (d : Deletion) : List (Bytes × ℕ) :=
  if Held e d then e.submitAttempts
  else (d.opId, (e.history.deletionAcceptsOf d.opId).length) :: e.submitAttempts.filter (·.1 ≠ d.opId)

theorem ends_answered (harchive : h.hasArchive d.conversationId = true) (answer : OrderAnswer) :
    Ends h d (answered d answer) := by
  cases answer with
  | done => exact .done harchive
  | refused err | lost err =>
    unfold answered
    dsimp only
    split_ifs
    · exact .same
    · exact .expired
    · exact .same

theorem trySubmitDeletion_none (hd : e.history.deletion opId = none) :
    trySubmitDeletion out opId e = .ok () e := by
  unfold trySubmitDeletion
  simp only [bind, EStateM.bind, Program.get_apply, hd]
  rfl

theorem trySubmitDeletion_spec (out : Outside) (hd : e.history.deletion d.opId = some d) :
    ∃ asked sent f, trySubmitDeletion out d.opId e =
      .ok () { e with asked, sent, submitAttempts := attempts e d, history := f e.history } ∧
    Ends e.history d f := by
  unfold trySubmitDeletion attempts
  by_cases hheld : Held e d
  · rw [if_pos hheld]
    unfold Held at hheld
    simp only [bind, EStateM.bind, Program.get_apply, hd, if_pos hheld]
    exact ⟨_, _, _, rfl, .same⟩
  · rw [if_neg hheld]
    unfold Held at hheld
    simp only [bind, EStateM.bind, Program.get_apply, hd, if_neg hheld, Program.set_apply]
    cases ha : e.history.archive d.conversationId with
    | none => exact ⟨_, _, _, rfl, .same⟩
    | some a =>
      have harchive : e.history.hasArchive d.conversationId = true := by rw [hasArchive, ha]; rfl
      obtain ⟨r, asked, hsession⟩ := openArchiveSession_spec out a { e with
        submitAttempts := (d.opId, (e.history.deletionAcceptsOf d.opId).length) ::
          e.submitAttempts.filter (·.1 ≠ d.opId) }
      simp only [EStateM.bind, hsession]
      cases r with
      | error err => exact ⟨_, _, _, rfl, .same⟩
      | ok u => exact ⟨_, _, _, rfl, ends_answered harchive _⟩

/-! ## Entries -/

structure ReadEntry where
  conversationId : Bytes
  number : UInt64
  hash : Bytes
  /-- None if its content was gone. -/
  record : Option Bytes

def ReadEntry.link (x : ReadEntry) : ChainLink := ⟨x.conversationId, x.number, x.hash⟩

def ReadEntry.message (cfg : EngineSetup) (x : ReadEntry) : Option ArchivedMessage := do
  let record ← x.record
  let sr ← (parseRecord cfg.toChatCrypto record).filter (indexed ·.record)
  return ⟨x.conversationId, sr.record.messageId, x.number⟩

def readEntry (cfg : EngineSetup) (a : HistoryStore.Archive) (x : ArchiveEntry) : ReadEntry where
  conversationId := a.conversationId
  number := x.number
  hash := x.hash.1
  record := if x.tombstone then none
    else some (archivedRecord cfg.secret a.archiveKey a.conversationId x).record

/-- The rows for the messages of entries that were read, added to a table. -/
def noteMessages (cfg : EngineSetup) (read : List ReadEntry) (l : List ArchivedMessage) :
    List ArchivedMessage :=
  (read.filterMap (ReadEntry.message cfg)).foldl (Rows.insertNew ArchivedMessage.key) l

def noteLinks (read : List ReadEntry) (l : List ChainLink) : List ChainLink :=
  (read.map ReadEntry.link).foldl (Rows.insertNew ChainLink.key) l

theorem saveIndexed_eq (c record hash : Bytes) (number : UInt64) (h : HistoryStore) :
    saveIndexed cfg c record number h =
      { h with archiveMessages := noteMessages cfg [⟨c, number, hash, some record⟩] h.archiveMessages } := by
  unfold saveIndexed noteMessages
  cases hp : (parseRecord cfg.toChatCrypto record).filter (indexed ·.record) <;>
    simp [ReadEntry.message, hp, saveArchiveMessage]

theorem catchUpEntry_eq (cfg : EngineSetup) (a : HistoryStore.Archive) (h : HistoryStore)
    (x : ArchiveEntry) : ∃ redacted, catchUpEntry cfg a h x =
      { h with
        archiveMessages := noteMessages cfg [readEntry cfg a x] h.archiveMessages
        archiveRedacted := redacted } := by
  unfold catchUpEntry readEntry
  split_ifs
  · exact ⟨_, rfl⟩
  · exact ⟨_, saveIndexed_eq ..⟩

theorem catchUpEntries_eq (cfg : EngineSetup) (a : HistoryStore.Archive) (entries : List ArchiveEntry)
    (h : HistoryStore) : ∃ redacted, entries.foldl (catchUpEntry cfg a) h =
      { h with
        archiveMessages := noteMessages cfg (entries.map (readEntry cfg a)) h.archiveMessages
        archiveRedacted := redacted } := by
  induction entries generalizing h with
  | nil => exact ⟨h.archiveRedacted, rfl⟩
  | cons x entries ih =>
    obtain ⟨redacted, hentry⟩ := catchUpEntry_eq cfg a h x
    obtain ⟨redacted', hrest⟩ := ih (catchUpEntry cfg a h x)
    refine ⟨redacted', ?_⟩
    rw [List.foldl_cons, hrest, hentry]
    simp only [noteMessages, List.map_cons, ← List.foldl_append, ← List.filterMap_append,
      List.singleton_append]

theorem saveArchiveHashes_eq (cfg : EngineSetup) (a : HistoryStore.Archive) (entries : List ArchiveEntry)
    (h : HistoryStore) :
    entries.foldl (fun h x => h.saveArchiveHash ⟨a.conversationId, x.number, x.hash.1⟩) h =
      { h with archiveChain := noteLinks (entries.map (readEntry cfg a)) h.archiveChain } := by
  induction entries generalizing h with
  | nil => rfl
  | cons x entries ih =>
    rw [List.foldl_cons, ih]
    rfl

/-- The archives, apart from how much was added to them. -/
def uncounted (h : HistoryStore) : List HistoryStore.Archive := h.archives.map ({ · with activity := 0 })

theorem uncounted_addArchiveActivity (h : HistoryStore) (n : ℕ) :
    uncounted (h.addArchiveActivity c n) = uncounted h := by
  unfold uncounted addArchiveActivity updateArchive
  rw [List.map_map]
  refine List.map_congr_left fun a _ => ?_
  dsimp only [Function.comp_apply]
  split_ifs <;> rfl

theorem uncounted_setArchiveHead (h : HistoryStore) (number : UInt64) (hash : Relay.Digest) :
    uncounted (h.setArchiveHead c number hash) = (uncounted h).map fun a =>
      if a.conversationId = c ∧ a.headNumber.toInt64 < number.toInt64 then
        { a with headNumber := number, headHash := some hash }
      else a := by
  unfold uncounted setArchiveHead updateArchive
  rw [List.map_map, List.map_map]
  refine List.map_congr_left fun a _ => ?_
  by_cases hc : a.conversationId = c <;> by_cases hn : a.headNumber.toInt64 < number.toInt64 <;>
    simp [hc, hn]

theorem catchUpPage_eq (cfg : EngineSetup) (a : HistoryStore.Archive) (entries : List ArchiveEntry)
    (next : Head) (h : HistoryStore) : ∃ redacted archives, catchUpPage cfg a entries next h =
      { h with
        archives
        archiveChain := noteLinks (entries.map (readEntry cfg a)) h.archiveChain
        archiveMessages := noteMessages cfg (entries.map (readEntry cfg a)) h.archiveMessages
        archiveRedacted := redacted } ∧
      uncounted { h with archives } =
        uncounted (h.setArchiveHead a.conversationId next.number next.hash) := by
  obtain ⟨redacted, hentries⟩ := catchUpEntries_eq cfg a entries h
  unfold catchUpPage
  dsimp only
  rw [saveArchiveHashes_eq cfg, hentries]
  refine ⟨redacted, _, rfl, ?_⟩
  rw [uncounted_setArchiveHead]
  refine (uncounted_setArchiveHead (h.addArchiveActivity a.conversationId _) ..).trans ?_
  rw [uncounted_addArchiveActivity]

theorem appended_eq (cfg : EngineSetup) (a : HistoryStore.Archive) (record : Bytes) (newHead : ArchiveHead)
    (h : HistoryStore) : ∃ archives, appended cfg a record newHead h =
      { h with
        archives
        archiveChain := noteLinks [⟨a.conversationId, newHead.number, newHead.hash.1, some record⟩] h.archiveChain
        archiveMessages := noteMessages cfg
          [⟨a.conversationId, newHead.number, newHead.hash.1, some record⟩] h.archiveMessages } ∧
      uncounted { h with archives } =
        uncounted (h.setArchiveHead a.conversationId newHead.number newHead.hash) := by
  unfold appended
  dsimp only
  rw [saveIndexed_eq _ _ newHead.hash.1]
  split_ifs
  · exact ⟨_, rfl, uncounted_addArchiveActivity (h.setArchiveHead a.conversationId newHead.number newHead.hash) 1⟩
  · exact ⟨_, rfl, rfl⟩

/-- A page that is kept moves the heads as one turn of the loop over an archive does. -/
theorem uncounted_fetched {w : SyncWorld} {t : Thread} {job : SyncJob} {entries : List ArchiveEntry}
    {relayHead : ArchiveHead} {next : Head} {a : HistoryStore.Archive} (hid : job.id = a.conversationId)
    (hchain : verifyChain cfg.sha256 job.id job.head entries = some next) :
    uncounted (w.fetched ⟨cfg.secret, cfg.sha256⟩ t job entries relayHead).history =
      uncounted (catchUpPage cfg a entries next w.history) := by
  obtain ⟨redacted, archives, hpage, harchives⟩ := catchUpPage_eq cfg a entries next w.history
  have hhistory : (w.fetched ⟨cfg.secret, cfg.sha256⟩ t job entries relayHead).history =
      w.history.setArchiveHead job.id next.number next.hash := by
    unfold SyncWorld.fetched
    dsimp only
    rw [hchain]
    dsimp only
    split_ifs <;> rfl
  rw [hhistory, hpage, hid, ← harchives]
  rfl

/-! ## Runs -/

def stateOf (e : Engine) (opId : Bytes) : Option DeletionState := (e.history.deletion opId).map (·.state)

/-- A device, with what it has read of the archives it has and how often it tried to submit an order. -/
structure Device where
  engine : Engine
  read : List ReadEntry := []
  /-- The accepted operations that were to be submitted since the program was started, each with the
  acceptances there were. -/
  tried : List (Bytes × List DeletionAccept) := []

inductive Input where
  | archive (a : HistoryStore.Archive)
  /-- A page is kept if it carries on from the head. -/
  | page (a : HistoryStore.Archive) (head : Head) (entries : List ArchiveEntry)
  /-- The relay confirms an entry of ours. -/
  | own (a : HistoryStore.Archive) (record : Bytes) (newHead : ArchiveHead)
  | message (m : Message)
  /-- Someone asks to delete something; whoever asks has agreed. -/
  | request (d : Deletion) (mine : Bool)
  | acceptance (acc : DeletionAccept)
  | answer (opId : Bytes) (agrees : Bool)

inductive DeviceEvent where
  | input (i : Input)
  /-- The loop looks at a request, which may have changed since the loop read it. -/
  | look (out : Outside) (opId : Bytes) (state : DeletionState)
  | submit (out : Outside) (opId : Bytes)
  | restart

section

variable (cfg : EngineSetup)

def Input.history (h : HistoryStore) : Input → HistoryStore
  | .archive a => (h.addArchive a).2
  | .page a head entries =>
    match verifyChain cfg.sha256 a.conversationId head entries with
    | some next => catchUpPage cfg a entries next h
    | none => h
  | .own a record newHead => appended cfg a record newHead h
  | .message m => { h with messages := h.messages ++ [m] }
  | .request d mine => (h.addDeletion { d with state := if mine then .accepted else .pending }).2
  | .acceptance acc => h.addDeletionAccept acc
  | .answer opId agrees =>
    if (h.deletion opId).any (·.state = .pending) then
      h.setDeletionState opId (if agrees then .accepted else .declined)
    else h

def DeviceEvent.reads : DeviceEvent → List ReadEntry
  | .input (.page a head entries) =>
    if (verifyChain cfg.sha256 a.conversationId head entries).isSome then entries.map (readEntry cfg a) else []
  | .input (.own a record newHead) => [⟨a.conversationId, newHead.number, newHead.hash.1, some record⟩]
  | _ => []

def DeviceEvent.apply (e : Engine) : DeviceEvent → Engine
  | .input i => { e with history := i.history cfg e.history }
  | .look out opId state =>
    match e.history.deletion opId with
    | some d => Program.after (lookAfter out { d with state }) e
    | none => e
  | .submit out opId => Program.after (trySubmitDeletion out opId) e
  | .restart => { e with submitAttempts := [] }

end

namespace Device

variable (cfg : EngineSetup)

def triedBy (s : Device) : DeviceEvent → List (Bytes × List DeletionAccept)
  | .submit _ opId =>
    if stateOf s.engine opId = some .accepted then
      s.tried ++ [(opId, s.engine.history.deletionAcceptsOf opId)]
    else s.tried
  | .restart => []
  | _ => s.tried

/-- What was read of an archive is forgotten with it. -/
def next (s : Device) (ev : DeviceEvent) : Device :=
  let e := ev.apply cfg s.engine
  { engine := e
    read := (s.read ++ ev.reads cfg).filter fun x =>
      e.history.hasArchive x.conversationId || !s.engine.history.hasArchive x.conversationId
    tried := s.triedBy ev }

structure Init (s : Device) : Prop where
  chain : s.engine.history.archiveChain = []
  messages : s.engine.history.archiveMessages = []
  attempts : s.engine.submitAttempts = []
  read : s.read = []
  tried : s.tried = []

def Step (s : Device) (ev : DeviceEvent) (s' : Device) : Prop := s' = s.next cfg ev

/-- What the tables say of the entries that were read. -/
structure Tables (s : Device) : Prop where
  chain : s.engine.history.archiveChain = noteLinks s.read []
  messages : s.engine.history.archiveMessages = noteMessages cfg s.read []

end Device

/-! ## What a step does -/

/-- A step in which no request is carried out, and more may be read. -/
structure Quiet (cfg : EngineSetup) (h h' : HistoryStore) (new : List ReadEntry) : Prop where
  archives : ∀ c, h.hasArchive c = true → h'.hasArchive c = true
  chain : h'.archiveChain = noteLinks new h.archiveChain
  messages : h'.archiveMessages = noteMessages cfg new h.archiveMessages
  accepts : ∀ opId, h.deletionAcceptsOf opId <+: h'.deletionAcceptsOf opId
  undone : ∀ d, h.deletion d.opId = some d → d.state ≠ .done →
    (h'.deletion d.opId).map (·.state) ≠ some .done

/-- The tables of archives and requests are as they were. -/
theorem Quiet.of_reads {new : List ReadEntry}
    (archives : ∀ c, h.hasArchive c = true → h'.hasArchive c = true)
    (chain : h'.archiveChain = noteLinks new h.archiveChain)
    (messages : h'.archiveMessages = noteMessages cfg new h.archiveMessages)
    (accepts : h'.deletionAccepts = h.deletionAccepts) (deletions : h'.deletions = h.deletions) :
    Quiet cfg h h' new := by
  refine ⟨archives, chain, messages, fun opId => ?_, fun d hd hnot => ?_⟩
  · rw [deletionAcceptsOf, deletionAcceptsOf, accepts]
  · rw [deletion, deletions, ← deletion, hd]
    exact fun hdone => hnot (Option.some.inj hdone)

theorem Quiet.refl (cfg : EngineSetup) (h : HistoryStore) : Quiet cfg h h [] := .of_reads (fun _ hc => hc) rfl rfl rfl rfl

theorem hasArchive_of_uncounted {number : UInt64} {hash : Relay.Digest}
    (harchives : uncounted h' = uncounted (h.setArchiveHead c number hash)) (c' : Bytes)
    (hc : h.hasArchive c' = true) : h'.hasArchive c' = true := by
  obtain ⟨a, ha, rfl⟩ := Rows.lookup_isSome.1 hc
  have hids := congrArg (List.map (·.conversationId)) harchives
  rw [uncounted_setArchiveHead, Rows.map_key (fun a => by split_ifs <;> rfl), uncounted, uncounted,
    List.map_map, List.map_map] at hids
  obtain ⟨b, hb, hid⟩ := List.mem_map.1 (hids ▸ List.mem_map_of_mem ha)
  exact Rows.lookup_isSome.2 ⟨b, hb, hid⟩

theorem quiet_input (i : Input) (h : HistoryStore) :
    Quiet cfg h (i.history cfg h) (DeviceEvent.reads cfg (.input i)) := by
  cases i with
  | archive a =>
    simp only [Input.history, addArchive]
    split_ifs
    · exact .refl cfg h
    · refine .of_reads (fun c hc => ?_) rfl rfl rfl rfl
      obtain ⟨b, hb⟩ := Option.isSome_iff_exists.1 hc
      rw [hasArchive, HistoryStore.archive, Rows.lookup_append hb]
      rfl
  | page a head entries =>
    simp only [Input.history, DeviceEvent.reads]
    cases verifyChain cfg.sha256 a.conversationId head entries with
    | none => exact .refl cfg h
    | some next =>
      obtain ⟨redacted, archives, hpage, harchives⟩ := catchUpPage_eq cfg a entries next h
      dsimp only
      rw [hpage]
      exact .of_reads (hasArchive_of_uncounted harchives) rfl rfl rfl rfl
  | own a record newHead =>
    obtain ⟨archives, hown, harchives⟩ := appended_eq cfg a record newHead h
    simp only [Input.history, hown]
    exact .of_reads (hasArchive_of_uncounted harchives) rfl rfl rfl rfl
  | message m => exact .of_reads (fun _ hc => hc) rfl rfl rfl rfl
  | request d mine =>
    refine ⟨fun _ hc => hc, rfl, rfl, fun _ => List.prefix_rfl, fun d' hd hnot => ?_⟩
    simp only [Input.history, addDeletion, deletion, Rows.lookup_insertNew]
    rw [Rows.lookup_append hd]
    exact fun hdone => hnot (Option.some.inj hdone)
  | acceptance acc =>
    refine ⟨fun _ hc => hc, rfl, rfl, fun opId => ?_, (Quiet.refl cfg h).undone⟩
    simp only [Input.history, addDeletionAccept, deletionAcceptsOf, Rows.insertNew]
    split_ifs
    · exact List.prefix_rfl
    · rw [List.filter_append]
      exact List.prefix_append ..
  | answer opId agrees =>
    simp only [Input.history]
    by_cases hpending : (h.deletion opId).any (·.state = .pending) = true
    · rw [if_pos hpending]
      refine ⟨fun _ hc => hc, rfl, rfl, fun _ => List.prefix_rfl, fun d hd hnot => ?_⟩
      rw [deletion_setDeletionState, hd]
      by_cases hop : d.opId = opId <;> cases agrees <;> simp [hop, hnot]
    · rw [if_neg hpending]
      exact .refl cfg h

/-- What a step does: it is quiet, or a request ends with what was found of its entries. -/
inductive Effect (cfg : EngineSetup) (h h' : HistoryStore) (ev : DeviceEvent) : Prop where
  | quiet (hq : Quiet cfg h h' (ev.reads cfg))
  | ends (d : Deletion) (state : DeletionState) (redacted : List (Bytes × UInt64))
      (f : HistoryStore → HistoryStore) (hd : h.deletion d.opId = some { d with state }) (hf : Ends h d f)
      (hh : h' = f { h with archiveRedacted := redacted }) (hreads : ev.reads cfg = [])

theorem effect_apply (cfg : EngineSetup) (ev : DeviceEvent) (e : Engine) :
    Effect cfg e.history (ev.apply cfg e).history ev := by
  cases ev with
  | input i => exact .quiet (quiet_input i e.history)
  | look out opId state =>
    simp only [DeviceEvent.apply]
    cases hd : e.history.deletion opId with
    | none => exact .quiet (.refl cfg _)
    | some d =>
      obtain ⟨go, asked, redacted, f, hrun, hf⟩ := lookAfter_spec out { d with state } e
      simp only [Program.after, hrun]
      obtain rfl := (Rows.lookup_eq_some hd).2
      exact .ends { d with state } d.state redacted f hd hf rfl rfl
  | submit out opId =>
    simp only [DeviceEvent.apply]
    cases hd : e.history.deletion opId with
    | none =>
      rw [Program.after, trySubmitDeletion_none hd]
      exact .quiet (.refl cfg _)
    | some d =>
      obtain rfl := (Rows.lookup_eq_some hd).2
      obtain ⟨asked, sent, f, hrun, hf⟩ := trySubmitDeletion_spec out hd
      rw [Program.after, hrun]
      exact .ends d d.state e.history.archiveRedacted f hd hf rfl rfl
  | restart => exact .quiet (.refl cfg _)

/-! ## What the tables say -/

theorem hasArchive_filter_iff (harchives : h'.archives = h.archives.filter (·.conversationId ≠ c))
    (c' : Bytes) : h'.hasArchive c' = true ↔ c' ≠ c ∧ h.hasArchive c' = true := by
  rw [hasArchive, HistoryStore.archive, harchives, Rows.lookup_isSome, hasArchive, HistoryStore.archive,
    Rows.lookup_isSome]
  constructor
  · rintro ⟨a, ha, rfl⟩
    obtain ⟨hmem, hne⟩ := List.mem_filter.1 ha
    exact ⟨of_decide_eq_true hne, a, hmem, rfl⟩
  · rintro ⟨hne, a, ha, rfl⟩
    exact ⟨a, List.mem_filter.2 ⟨ha, decide_eq_true hne⟩, rfl⟩

theorem message_conversationId {x : ReadEntry} {m : ArchivedMessage} (h : x.message cfg = some m) :
    m.conversationId = x.conversationId := by
  obtain ⟨record, -, hrest⟩ := Option.bind_eq_some_iff.1 h
  obtain ⟨sr, -, hm⟩ := Option.bind_eq_some_iff.1 hrest
  rw [← Option.some.inj hm]

/-- What was read of one archive can be left out on either side. -/
theorem noteLinks_filter (c : Bytes) (read : List ReadEntry) :
    noteLinks (read.filter (·.conversationId ≠ c)) [] = (noteLinks read []).filter (·.conversationId ≠ c) := by
  refine Eq.trans ?_ (Rows.filter_firsts ChainLink.key (fun k => k.1 ≠ c) _).symm
  rw [List.filter_map]
  rfl

theorem noteMessages_filter (c : Bytes) (read : List ReadEntry) :
    noteMessages cfg (read.filter (·.conversationId ≠ c)) [] =
      (noteMessages cfg read []).filter (·.conversationId ≠ c) := by
  refine Eq.trans ?_ (Rows.filter_firsts ArchivedMessage.key (fun k => k.1 ≠ c) _).symm
  rw [List.filter_filterMap, noteMessages, List.filterMap_filter]
  unfold Rows.firsts
  congr 1
  refine List.filterMap_congr fun x _ => ?_
  cases hm : x.message cfg with
  | none => rw [ite_self]; rfl
  | some m =>
    have hc := message_conversationId hm
    by_cases hx : x.conversationId = c <;> simp [Option.filter, ArchivedMessage.key, hc, hx]

namespace Device

variable {s : Device} {ev : DeviceEvent}

theorem read_next (harchives : ∀ c, s.engine.history.hasArchive c = true →
    (ev.apply cfg s.engine).history.hasArchive c = true) : (s.next cfg ev).read = s.read ++ ev.reads cfg := by
  refine List.filter_eq_self.2 fun x _ => ?_
  cases hc : s.engine.history.hasArchive x.conversationId with
  | false => exact Bool.or_true _
  | true => rw [harchives _ hc, Bool.true_or]

theorem history_input (i : Input) :
    (s.next cfg (.input i)).engine.history = i.history cfg s.engine.history := rfl

theorem read_input (i : Input) : (s.next cfg (.input i)).read = s.read ++ DeviceEvent.reads cfg (.input i) :=
  read_next (quiet_input i s.engine.history).archives

theorem Tables.reads (ht : s.Tables cfg) (harchives : ∀ c, s.engine.history.hasArchive c = true →
      (s.next cfg ev).engine.history.hasArchive c = true)
    (hchain : (s.next cfg ev).engine.history.archiveChain =
      noteLinks (ev.reads cfg) s.engine.history.archiveChain)
    (hmessages : (s.next cfg ev).engine.history.archiveMessages =
      noteMessages cfg (ev.reads cfg) s.engine.history.archiveMessages) : (s.next cfg ev).Tables cfg := by
  constructor
  · rw [read_next harchives, noteLinks, List.map_append, List.foldl_append]
    exact hchain.trans (congrArg _ ht.chain)
  · rw [read_next harchives, noteMessages, List.filterMap_append, List.foldl_append]
    exact hmessages.trans (congrArg _ ht.messages)

/-- An archive is removed with all that was read of it. -/
theorem Tables.removed (ht : s.Tables cfg) (hc : s.engine.history.hasArchive c = true)
    (hreads : ev.reads cfg = [])
    (harchives : (s.next cfg ev).engine.history.archives =
      s.engine.history.archives.filter (·.conversationId ≠ c))
    (hchain : (s.next cfg ev).engine.history.archiveChain =
      s.engine.history.archiveChain.filter (·.conversationId ≠ c))
    (hmessages : (s.next cfg ev).engine.history.archiveMessages =
      s.engine.history.archiveMessages.filter (·.conversationId ≠ c)) : (s.next cfg ev).Tables cfg := by
  have hread : (s.next cfg ev).read = s.read.filter (·.conversationId ≠ c) := by
    have hnext : (s.next cfg ev).read = (s.read ++ ev.reads cfg).filter _ := rfl
    rw [hnext, hreads, List.append_nil]
    refine List.filter_congr fun x _ => ?_
    rw [Bool.eq_iff_iff, Bool.or_eq_true, Bool.not_eq_true', decide_eq_true_iff]
    refine (or_congr_left (hasArchive_filter_iff harchives x.conversationId)).trans ⟨?_, fun hne => ?_⟩
    · rintro (⟨hne, -⟩ | hgone) rfl
      · exact hne rfl
      · exact nomatch hc.symm.trans hgone
    · cases s.engine.history.hasArchive x.conversationId with
      | false => exact .inr rfl
      | true => exact .inl ⟨hne, rfl⟩
  constructor
  · rw [hread, noteLinks_filter, ← ht.chain]
    exact hchain
  · rw [hread, noteMessages_filter, ← ht.messages]
    exact hmessages

theorem tables (hr : Reachable Init (Step cfg) s) : s.Tables cfg := by
  refine hr.invariant (fun s hs => ?_) fun s ev s' ht hs => ?_
  · exact ⟨by rw [hs.chain, hs.read]; rfl, by rw [hs.messages, hs.read]; rfl⟩
  · subst hs
    cases effect_apply cfg ev s.engine with
    | quiet hq => exact ht.reads hq.archives hq.chain hq.messages
    | ends d state redacted f hd hf hh hreads =>
      have hsame : ∀ h', (s.next cfg ev).engine.history = h' → h'.archives = s.engine.history.archives →
          h'.archiveChain = s.engine.history.archiveChain →
          h'.archiveMessages = s.engine.history.archiveMessages → (s.next cfg ev).Tables cfg := by
        rintro h' rfl harchives hchain hmessages
        refine ht.reads (fun c hc => ?_) ?_ ?_
        · rwa [hasArchive, HistoryStore.archive, harchives]
        · rw [hreads, hchain]
          rfl
        · rw [hreads, hmessages]
          rfl
      cases hf with
      | same => exact hsame _ hh rfl rfl rfl
      | expired => exact hsame _ hh rfl rfl rfl
      | done harchive =>
        cases hscope : d.scope with
        | chat =>
          have hgone := hh.trans (applyDeletionLocally_chat hscope)
          exact ht.removed harchive hreads (congrArg HistoryStore.archives hgone)
            (congrArg archiveChain hgone) (congrArg archiveMessages hgone)
        | entries =>
          obtain ⟨redacted', herased⟩ := applyDeletionLocally_entries
            (h := { s.engine.history with archiveRedacted := redacted }) hscope
          exact hsame _ (hh.trans herased) rfl rfl rfl

end Device

end PqSuite.Engine
