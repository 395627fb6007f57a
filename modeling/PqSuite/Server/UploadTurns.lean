import PqSuite.Protocol.Codecs
import PqSuite.Server.Uploads

/-!
# One upload from its first to its last chunk

A session handles each message to its end before it reads the next. Here one session begins an upload
and receives any chunk messages for it, while the disk does what it likes. A chunk that fits is written;
one that does not, or cannot be written, discards the upload; the last one closes the file, renames it
and is confirmed. Closing is not checked: `confirmed_is_whole_iff` says for which uploads and disks a
confirmed file is whole.
-/

namespace PqSuite.Relay

/-! ## Handling a message to its end -/

/-- The operating system does as given from here on. -/
def RelayStore.withHealth (st : RelayStore) (health : DiskHealth) : RelayStore :=
  { st with disk := { st.disk with health } }

def Outcome.withHealth (o : Outcome) (health : DiskHealth) : Outcome :=
  { o with store := o.store.withHealth health }

def Outcome.following (o : Outcome) (sent : List WireMessage) : Outcome :=
  { o with replies := sent ++ o.replies }

/-- The rest of a request, call by call; `n` bounds how many calls it takes. -/
def settle (svc : Service) (now : Time) : ℕ → Outcome → Outcome
  | 0, o => o
  | n + 1, o =>
    match o.session with
    | none => o
    | some ss =>
      match ss.pending with
      | none => o
      | some work =>
        settle svc now n ((resume svc now ss o.store o.rate work).following o.replies)

/-- No request about an upload takes more calls after its first than these: two to give up another
upload, one to make the record, one to open the file, and two to undo that. -/
def maxCalls : ℕ := 6

def beginTurn (svc : Service) (now : Time) (payload : Bytes) (ss : Session) (st : RelayStore)
    (rate : RateLimiter) : Outcome :=
  settle svc now maxCalls (handleMessage svc now ss ⟨.fileUploadBegin, payload⟩ st rate)

/-- A chunk message, with what the disk does when the chunk is written and when the file is renamed. -/
structure ChunkTurn where
  now : Time
  payload : Bytes
  writing : DiskHealth := {}
  naming : DiskHealth := {}

/-- A session that has ended reads nothing. -/
def chunkTurn (svc : Service) (o : Outcome) (t : ChunkTurn) : Outcome :=
  match o.session with
  | none => o
  | some ss =>
    let handled :=
      handleMessage svc t.now ss ⟨.fileChunk, t.payload⟩ (o.store.withHealth t.writing) o.rate
    (settle svc t.now maxCalls (handled.withHealth t.naming)).following o.replies

def feed (svc : Service) (o : Outcome) (ts : List ChunkTurn) : Outcome := ts.foldl (chunkTurn svc) o

/-! ## What an upload asks for -/

def FileBegin.sizeOf (m : FileBegin) (i : ℕ) : ℕ :=
  if i + 1 < m.chunkCount.toNat then m.chunkSize.toNat
  else m.totalSize.toNat - m.chunkSize.toNat * (m.chunkCount.toNat - 1)

/-- The bytes of a chunk message that comes as number `i`, if it is the chunk that is due. -/
def FileBegin.chunk (m : FileBegin) (i : ℕ) (payload : Bytes) : Option Bytes :=
  (decodeFileChunk payload).bind fun c =>
    if c.index.toNat ≠ i ∨ c.data.length ≠ m.sizeOf i then none else some c.data

def FileBegin.lastOk (m : FileBegin) : WireMessage := ⟨.fileChunkOk, writeU32 m.chunkCount⟩

variable {svc : Service} {m : FileBegin} {o : Outcome} {t : ChunkTurn} {ts : List ChunkTurn}
  {chunks more : List Bytes} {before : Option ℕ} {data : Bytes} {i : ℕ}

theorem FileBegin.count_pos (m : FileBegin) : 0 < m.chunkCount.toNat := by
  rw [m.chunk_count]
  have h₁ := m.total_size.1
  have h₂ := m.chunk_size.1
  exact Nat.div_pos (by omega) h₂

theorem FileBegin.full_lt (m : FileBegin) :
    m.chunkSize.toNat * (m.chunkCount.toNat - 1) < m.totalSize.toNat := by
  have h₁ := m.total_size.1
  have h₂ := m.chunk_size.1
  have hle := Nat.div_mul_le_self (m.totalSize.toNat + m.chunkSize.toNat - 1) m.chunkSize.toNat
  rw [← m.chunk_count] at hle
  have hpos := m.count_pos
  rw [Nat.mul_sub, Nat.mul_one, Nat.mul_comm]
  omega

theorem FileBegin.total_le (m : FileBegin) :
    m.totalSize.toNat ≤ m.chunkSize.toNat * m.chunkCount.toNat := by
  have h₁ := m.total_size.1
  have h₂ := m.chunk_size.1
  have hlt := Nat.lt_div_mul_add (a := m.totalSize.toNat + m.chunkSize.toNat - 1) h₂
  rw [← m.chunk_count, Nat.mul_comm] at hlt
  omega

theorem FileBegin.sizeOf_of_lt (h : i + 1 < m.chunkCount.toNat) :
    m.sizeOf i = m.chunkSize.toNat := if_pos h

theorem FileBegin.sizeOf_last (h : i + 1 = m.chunkCount.toNat) :
    m.chunkSize.toNat * i + m.sizeOf i = m.totalSize.toNat := by
  rw [FileBegin.sizeOf, if_neg (by omega)]
  have hlt := m.full_lt
  have hi : i = m.chunkCount.toNat - 1 := by omega
  rw [hi]
  omega

/-! ## States of an upload -/

/-- The upload is going on, and these chunks have come. Under the file's name is what was there before. -/
structure Uploading (m : FileBegin) (before : Option ℕ) (chunks : List Bytes) (o : Outcome)
    (ss : Session) (u : Upload) (row : FileRow) : Prop where
  session : o.session = some ss
  pending : ss.pending = none
  upload : ss.upload = some u
  id : u.id = m.fileId
  count : u.count = m.chunkCount.toNat
  chunkSize : u.chunkSize = m.chunkSize.toNat
  total : u.total = m.totalSize.toNat
  next : u.next = chunks.length
  more : chunks.length < m.chunkCount.toNat
  written : u.written = chunks.flatten.length
  full : chunks.flatten.length = m.chunkSize.toNat * chunks.length
  part : o.store.disk.part m.fileId = some u.file
  content : o.store.disk.content u.file = chunks.flatten
  bin : o.store.disk.bin m.fileId = before
  record : o.store.findFile m.fileId = some row
  unready : row.ready = false
  dims : row.totalSize = m.totalSize ∧ row.chunkSize = m.chunkSize ∧ row.chunkCount = m.chunkCount

/-- The session has no upload: it has ended, or waits for the next message. -/
def Idle (o : Outcome) : Prop := ∀ ss, o.session = some ss → ss.pending = none ∧ ss.upload = none

/-- Nothing is left of the upload: no record, no temporary file, and under the file's name what was
there before. -/
structure Discarded (m : FileBegin) (before : Option ℕ) (o : Outcome) : Prop where
  idle : Idle o
  record : o.store.findFile m.fileId = none
  part : o.store.disk.part m.fileId = none
  bin : o.store.disk.bin m.fileId = before

structure Confirmed (m : FileBegin) (bytes : Bytes) (o : Outcome) : Prop where
  idle : Idle o
  stored : o.store.disk.stored m.fileId = some bytes
  record : ∃ row, o.store.findFile m.fileId = some row ∧ row.ready = true ∧
    row.totalSize = m.totalSize ∧ row.chunkSize = m.chunkSize ∧ row.chunkCount = m.chunkCount

variable {ss : Session} {u : Upload} {row : FileRow}

/-! ## One chunk -/

def RelayStore.abort (st : RelayStore) (id : Bytes) : RelayStore :=
  { st with disk := st.disk.remove .part id }.deleteFile id [] |>.2

theorem findFile_abort (st : RelayStore) (id : Bytes) : (st.abort id).findFile id = none := by
  rw [RelayStore.findFile, Rows.lookup_eq_none]
  intro f hf hid
  simp [RelayStore.abort, RelayStore.deleteFile, RelayStore.deleteFiles, hid] at hf

section Abort

variable (svc : Service) (now : Time) (st : RelayStore) (rate : RateLimiter) (ss : Session)

theorem settle_abort_reply (u : Upload) (msg : WireMessage) :
    settle svc now maxCalls (later st rate ss (abortUpload u (.reply msg))) =
      answer (st.abort u.id) rate { ss with pending := none, upload := none } msg := rfl

theorem settle_abort_hangUp (u : Upload) (replies : List WireMessage) :
    settle svc now maxCalls (later st rate ss (abortUpload u (.hangUp replies))) =
      { fail (st.abort u.id) rate with replies } := rfl

theorem discarded_reply (hid : u.id = m.fileId) (hbin : st.disk.bin m.fileId = before)
    (msg : WireMessage) (sent : List WireMessage) :
    Discarded m before ((settle svc now maxCalls
      (later st rate ss (abortUpload u (.reply msg)))).following sent) := by
  rw [settle_abort_reply, hid]
  refine ⟨fun ss' heq => ?_, findFile_abort st m.fileId, Function.update_self .., hbin⟩
  obtain rfl := Option.some.inj heq
  exact ⟨rfl, rfl⟩

theorem discarded_hangUp (hid : u.id = m.fileId) (hbin : st.disk.bin m.fileId = before)
    (replies sent : List WireMessage) :
    Discarded m before ((settle svc now maxCalls
      (later st rate ss (abortUpload u (.hangUp replies)))).following sent) := by
  rw [settle_abort_hangUp, hid]
  exact ⟨nofun, findFile_abort st m.fileId, Function.update_self .., hbin⟩

end Abort

theorem later_withHealth (st : RelayStore) (rate : RateLimiter) (ss : Session) (work : Pending)
    (health : DiskHealth) :
    (later st rate ss work).withHealth health = later (st.withHealth health) rate ss work := rfl

/-- What the session does with a chunk message. -/
theorem chunkTurn_eq (hsession : o.session = some ss) :
    chunkTurn svc o t = (settle svc t.now maxCalls
      ((handleFileChunk ss t.payload (o.store.withHealth t.writing) o.rate).withHealth
        t.naming)).following o.replies := by
  rw [chunkTurn, hsession]
  rfl

theorem Uploading.expected_eq (h : Uploading m before chunks o ss u row) :
    u.expected = m.sizeOf chunks.length := by
  rw [Upload.expected, FileBegin.sizeOf, h.next, h.count, h.chunkSize, h.total]

/-- A chunk that is not the one that is due, or that cannot be written, discards the upload. -/
theorem Uploading.discards (svc : Service) (h : Uploading m before chunks o ss u row)
    (hbad : m.chunk chunks.length t.payload = none ∨ t.writing.writes = false) :
    Discarded m before (chunkTurn svc o t) ∧
      ∃ text, (chunkTurn svc o t).replies = o.replies ++ [errorReply text] := by
  rw [chunkTurn_eq h.session, handleFileChunk, h.upload]
  dsimp only
  have hreply := fun msg => discarded_reply svc t.now
    ((o.store.withHealth t.writing).withHealth t.naming) o.rate ss h.id h.bin msg o.replies
  cases hdecode : decodeFileChunk t.payload with
  | none =>
    dsimp only
    rw [later_withHealth]
    refine ⟨discarded_hangUp _ _ ((o.store.withHealth t.writing).withHealth t.naming) _ _ h.id h.bin _ _,
      "Malformed file request", ?_⟩
    rw [settle_abort_hangUp]
    rfl
  | some c =>
    dsimp only
    by_cases hfits : c.index.toNat ≠ u.next ∨ c.data.length ≠ u.expected
    · rw [if_pos hfits, later_withHealth]
      refine ⟨hreply _, "File chunks out of order, or of the wrong size", ?_⟩
      rw [settle_abort_reply]
      rfl
    · have hwrites : t.writing.writes = false := by
        rcases hbad with hbad | hbad
        · rw [h.next, h.expected_eq] at hfits
          rw [FileBegin.chunk, hdecode, Option.bind_some, if_neg hfits] at hbad
          cases hbad
        · exact hbad
      rw [if_neg hfits, if_pos (by simpa [RelayStore.withHealth] using hwrites), later_withHealth]
      refine ⟨hreply _, "The relay can't store files right now", ?_⟩
      rw [settle_abort_reply]
      rfl

/-! ### A chunk that fits -/

/-- The store and the session once a chunk is written. -/
theorem handleFileChunk_fits (h : Uploading m before chunks o ss u row)
    (hchunk : m.chunk chunks.length t.payload = some data) (hwrites : t.writing.writes = true) :
    ∃ index : UInt32, index.toNat = chunks.length ∧
      handleFileChunk ss t.payload (o.store.withHealth t.writing) o.rate =
        let st := (o.store.withHealth t.writing).writeChunk u data
        let ss := { ss with upload := some (u.advance data) }
        if u.next + 1 = u.count then
          later { st with disk := st.disk.close u.file } o.rate ss (.renameFile index)
        else if (u.next + 1) % fileAckWindow = 0 then
          answer st o.rate ss ⟨.fileChunkOk, writeU32 (UInt32.ofNat (u.next + 1))⟩
        else { store := st, rate := o.rate, session := some ss, replies := [] } := by
  obtain ⟨c, hdecode, hc⟩ := Option.bind_eq_some_iff.1 hchunk
  split_ifs at hc with hfits
  obtain rfl := Option.some.inj hc
  obtain ⟨hindex, -⟩ := not_or.1 hfits
  refine ⟨c.index, not_not.1 hindex, ?_⟩
  rw [handleFileChunk, h.upload, hdecode]
  dsimp only
  rw [h.next, h.expected_eq, if_neg hfits, if_neg (by simp [RelayStore.withHealth, hwrites])]

theorem settle_idle {now : Time} (h : o.session.bind (·.pending) = none) (n : ℕ) :
    settle svc now n o = o := by
  cases n with
  | zero => rfl
  | succ n =>
    rw [settle]
    cases hsession : o.session with
    | none => rfl
    | some ss =>
      rw [hsession, Option.bind_some] at h
      dsimp only
      rw [h]

theorem FileBegin.length_chunk {payload : Bytes} (h : m.chunk i payload = some data) :
    data.length = m.sizeOf i := by
  obtain ⟨c, -, hc⟩ := Option.bind_eq_some_iff.1 h
  split_ifs at hc with hfits
  obtain rfl := Option.some.inj hc
  exact not_not.1 (not_or.1 hfits).2

/-- What a chunk's bytes are in the file after those of the chunks before. -/
theorem Uploading.content_write (h : Uploading m before chunks o ss u row) (data : Bytes) :
    (((o.store.withHealth t.writing).writeChunk u data).disk).content u.file =
      (chunks ++ [data]).flatten := by
  rw [List.flatten_append, List.flatten_singleton]
  exact Disk.content_write data h.content h.written.symm

/-- A chunk before the last is added to the file. -/
theorem Uploading.advances (svc : Service) (h : Uploading m before chunks o ss u row)
    (hchunk : m.chunk chunks.length t.payload = some data) (hwrites : t.writing.writes = true)
    (hmore : chunks.length + 1 < m.chunkCount.toNat) :
    (∃ ss', Uploading m before (chunks ++ [data]) (chunkTurn svc o t) ss' (u.advance data) row) ∧
      ∃ acks, (chunkTurn svc o t).replies = o.replies ++ acks ∧ m.lastOk ∉ acks := by
  obtain ⟨index, hindex, hhandle⟩ := handleFileChunk_fits h hchunk hwrites
  have hsize : data.length = m.chunkSize.toNat := by
    rw [FileBegin.length_chunk hchunk, FileBegin.sizeOf_of_lt hmore]
  have hnext : u.next + 1 ≠ u.count := by
    rw [h.next, h.count]
    omega
  obtain ⟨acks, hturn, hacks⟩ : ∃ acks, chunkTurn svc o t =
      { store := ((o.store.withHealth t.writing).writeChunk u data).withHealth t.naming, rate := o.rate
        session := some { ss with upload := some (u.advance data) }, replies := o.replies ++ acks } ∧
      m.lastOk ∉ acks := by
    rw [chunkTurn_eq h.session, hhandle]
    dsimp only
    rw [if_neg hnext]
    split_ifs
    · refine ⟨[⟨.fileChunkOk, writeU32 (UInt32.ofNat (u.next + 1))⟩], ?_, fun hmem => ?_⟩
      · rw [settle_idle]
        · rfl
        · exact h.pending
      · have heq := (WireMessage.mk.inj (List.mem_singleton.1 hmem)).2
        have hcount : m.chunkCount = UInt32.ofNat (u.next + 1) :=
          (writeU32_append_inj (congrArg (· ++ []) heq)).1
        have hlt : u.next + 1 < 2 ^ 32 := by
          have := m.chunkCount.toNat_lt
          rw [h.next]
          omega
        rw [hcount, UInt32.toNat_ofNat_of_lt' hlt, h.next] at hmore
        omega
    · refine ⟨[], ?_, List.not_mem_nil⟩
      rw [settle_idle]
      · rfl
      · exact h.pending
  refine ⟨⟨{ ss with upload := some (u.advance data) }, ?_⟩, acks, by rw [hturn], hacks⟩
  rw [hturn]
  constructor
  case session => rfl
  case pending => exact h.pending
  case upload => rfl
  case id => exact h.id
  case count => exact h.count
  case chunkSize => exact h.chunkSize
  case total => exact h.total
  case next =>
    rw [Upload.advance, List.length_append, h.next]
    rfl
  case more =>
    rw [List.length_append]
    exact hmore
  case written => simp [Upload.advance, h.written]
  case full =>
    rw [List.flatten_append, List.length_append, List.flatten_singleton, h.full, hsize, List.length_append]
    exact (Nat.mul_succ _ _).symm
  case part => exact h.part
  case content => exact h.content_write data
  case bin => exact h.bin
  case record => exact h.record
  case unready => exact h.unready
  case dims => exact h.dims

/-! ### The last chunk -/

section Rename

variable {now : Time} {st : RelayStore} {rate : RateLimiter} {index : UInt32}

/-- The file gets its name, its record is marked ready and the chunk confirmed. -/
theorem settle_rename {disk : Disk} (hupload : ss.upload = some u) (h : st.disk.rename u.id = some disk) :
    settle svc now maxCalls (later st rate ss (.renameFile index)) =
      answer (({ st with disk } : RelayStore).confirm u) rate { ss with pending := none, upload := none }
        ⟨.fileChunkOk, writeU32 (index + 1)⟩ := by
  have hrename : resumeRename { ss with pending := none } st rate index =
      later { st with disk } rate { ss with pending := none } (.finishFile index) := by
    rw [resumeRename]
    dsimp only
    rw [hupload]
    dsimp only
    rw [h]
  have hfinish : resumeFinish { ss with pending := none } ({ st with disk } : RelayStore) rate index =
      answer (({ st with disk } : RelayStore).confirm u) rate { ss with pending := none, upload := none }
        ⟨.fileChunkOk, writeU32 (index + 1)⟩ := by
    rw [resumeFinish]
    dsimp only
    rw [hupload]
  show settle svc now 5 ((resumeRename { ss with pending := none } st rate index).following []) = _
  rw [hrename]
  show settle svc now 4
    ((resumeFinish { ss with pending := none } ({ st with disk } : RelayStore) rate index).following []) = _
  rw [hfinish]
  exact settle_idle rfl 4

theorem settle_rename_none (hupload : ss.upload = some u) (h : st.disk.rename u.id = none) :
    settle svc now maxCalls (later st rate ss (.renameFile index)) =
      answer (st.abort u.id) rate { ss with pending := none, upload := none }
        (errorReply "The relay can't store files right now") := by
  have hrename : resumeRename { ss with pending := none } st rate index =
      later st rate { ss with pending := none }
        (abortUpload u (.reply (errorReply "The relay can't store files right now"))) := by
    rw [resumeRename]
    dsimp only
    rw [hupload]
    dsimp only
    rw [h]
  show settle svc now 5 ((resumeRename { ss with pending := none } st rate index).following []) = _
  rw [hrename]
  rfl

end Rename

/-- What is on disk of these bytes once the file is closed. -/
def DiskHealth.kept (health : DiskHealth) (bytes : Bytes) : Bytes :=
  match health.keeps with
  | none => bytes
  | some size => bytes.take size

theorem content_close (d : Disk) (file : ℕ) :
    (d.close file).content file = d.health.kept (d.content file) := by
  cases hkeeps : d.health.keeps with
  | none => simp only [Disk.close, DiskHealth.kept, hkeeps]
  | some size => simp only [Disk.close, DiskHealth.kept, hkeeps, Function.update_self]

theorem findFile_confirm {st : RelayStore} (h : st.findFile u.id = some row) :
    (st.confirm u).findFile u.id = some { row with ready := true } := by
  have hid : row.id = u.id := (Rows.lookup_eq_some h).2
  have hkeep : ∀ f : FileRow, (if f.id = u.id then { f with ready := true } else f).id = f.id := by
    intro f
    split_ifs <;> rfl
  show Rows.lookup FileRow.id u.id (st.files.map fun f => if f.id = u.id then _ else f) = _
  rw [Rows.lookup_map hkeep]
  show (st.findFile u.id).map _ = _
  rw [h, Option.map_some, if_pos hid]

/-- The store when the last chunk is written and the file closed. -/
def RelayStore.closeLast (st : RelayStore) (u : Upload) (data : Bytes) : RelayStore :=
  { st.writeChunk u data with disk := (st.writeChunk u data).disk.close u.file }

/-- What the session does with the last chunk: it goes on to rename the file. -/
theorem Uploading.turn_last (svc : Service) (h : Uploading m before chunks o ss u row)
    (hchunk : m.chunk chunks.length t.payload = some data) (hwrites : t.writing.writes = true)
    (hlast : chunks.length + 1 = m.chunkCount.toNat) :
    ∃ index : UInt32, index + 1 = m.chunkCount ∧
      chunkTurn svc o t = (settle svc t.now maxCalls
        (later (((o.store.withHealth t.writing).closeLast u data).withHealth t.naming) o.rate
          { ss with upload := some (u.advance data) } (.renameFile index))).following o.replies := by
  obtain ⟨index, hindex, hhandle⟩ := handleFileChunk_fits h hchunk hwrites
  refine ⟨index, ?_, ?_⟩
  · have hlt := m.chunkCount.toNat_lt
    rw [← UInt32.toNat_inj, UInt32.toNat_add, hindex, UInt32.toNat_one, hlast]
    exact Nat.mod_eq_of_lt hlt
  · rw [chunkTurn_eq h.session, hhandle]
    dsimp only
    rw [if_pos (by rw [h.next, h.count]; exact hlast), later_withHealth]
    rfl

theorem part_closeLast (st : RelayStore) (u : Upload) (data : Bytes) (health : DiskHealth) :
    ((st.closeLast u data).withHealth health).disk.part = st.disk.part :=
  (Disk.sameNames_close _ u.file).part

/-- The last chunk closes the file, and what is on disk then gets the file's name. -/
theorem Uploading.confirms (svc : Service) (h : Uploading m before chunks o ss u row)
    (hchunk : m.chunk chunks.length t.payload = some data) (hwrites : t.writing.writes = true)
    (hlast : chunks.length + 1 = m.chunkCount.toNat) (hrenames : t.naming.renames = true) :
    Confirmed m (t.writing.kept (chunks ++ [data]).flatten) (chunkTurn svc o t) ∧
      (chunkTurn svc o t).replies = o.replies ++ [m.lastOk] := by
  obtain ⟨index, hindex, hturn⟩ := h.turn_last svc hchunk hwrites hlast
  set st := ((o.store.withHealth t.writing).closeLast u data).withHealth t.naming with hst
  have hpart : st.disk.part u.id = some u.file := by
    rw [hst, part_closeLast, h.id]
    exact h.part
  have hcontent : st.disk.content u.file = t.writing.kept (chunks ++ [data]).flatten := by
    rw [← h.content_write data]
    exact content_close _ u.file
  have hrename : st.disk.rename (u.advance data).id = some { st.disk with
      bin := Function.update st.disk.bin u.id (some u.file)
      part := Function.update st.disk.part u.id none } := by
    rw [Disk.rename]
    show (match st.disk.part u.id with | none => none | some file => _) = _
    rw [hpart]
    exact if_pos hrenames
  have hrecord : st.findFile (u.advance data).id = some row := h.id ▸ h.record
  rw [hturn, settle_rename rfl hrename]
  refine ⟨⟨fun ss' heq => ?_, ?_, ?_⟩, ?_⟩
  · obtain rfl := Option.some.inj heq
    exact ⟨rfl, rfl⟩
  · rw [← hcontent, ← h.id]
    show (Function.update st.disk.bin u.id (some u.file) u.id).map st.disk.content = _
    rw [Function.update_self]
    rfl
  · rw [← h.id]
    exact ⟨_, findFile_confirm hrecord, rfl, h.dims⟩
  · rw [hindex]
    rfl

theorem Uploading.unnamed (svc : Service) (h : Uploading m before chunks o ss u row)
    (hchunk : m.chunk chunks.length t.payload = some data) (hwrites : t.writing.writes = true)
    (hlast : chunks.length + 1 = m.chunkCount.toNat) (hrenames : t.naming.renames = false) :
    Discarded m before (chunkTurn svc o t) ∧
      ∃ text, (chunkTurn svc o t).replies = o.replies ++ [errorReply text] := by
  obtain ⟨index, -, hturn⟩ := h.turn_last svc hchunk hwrites hlast
  set st := ((o.store.withHealth t.writing).closeLast u data).withHealth t.naming with hst
  have hrename : st.disk.rename (u.advance data).id = none := by
    rw [Disk.rename]
    split
    · rfl
    · exact if_neg (by simp [hst, RelayStore.withHealth, hrenames])
  have hbin : st.disk.bin m.fileId = before :=
    (congrFun (Disk.sameNames_close _ u.file).bin m.fileId).trans h.bin
  rw [hturn, settle_rename_none rfl hrename]
  refine ⟨⟨fun ss' heq => ?_, ?_, ?_, hbin⟩, _, rfl⟩
  · obtain rfl := Option.some.inj heq
    exact ⟨rfl, rfl⟩
  · exact h.id ▸ findFile_abort st u.id
  · exact h.id ▸ Function.update_self ..

/-! ## Beginning -/

section Begin

variable {now at' : Time} {payload mailbox : Bytes} {st : RelayStore} {rate : RateLimiter}

theorem openPart_part (d : Disk) (id : Bytes) :
    (d.openPart id).2.part id = some (d.openPart id).1 ∧
      (d.openPart id).2.content (d.openPart id).1 = [] ∧ (d.openPart id).2.bin = d.bin := by
  unfold Disk.openPart
  split
  · next file hfile => exact ⟨hfile, Function.update_self .., rfl⟩
  · exact ⟨Function.update_self .., Function.update_self .., rfl⟩

theorem beginFile_row {quota : ℕ} (h : (st.beginFile mailbox m at' quota).1 = .ok) :
    (st.beginFile mailbox m at' quota).2.disk = st.disk ∧ ∃ row,
      (st.beginFile mailbox m at' quota).2.findFile m.fileId = some row ∧ row.ready = false ∧
      row.totalSize = m.totalSize ∧ row.chunkSize = m.chunkSize ∧ row.chunkCount = m.chunkCount := by
  unfold RelayStore.beginFile at h ⊢
  split_ifs at h ⊢ with _ hexists
  have hnew : Rows.lookup FileRow.id m.fileId st.files = none := by
    simpa [RelayStore.findFile] using hexists
  let row : FileRow := ⟨m.fileId, mailbox, m.totalSize, m.chunkSize, m.chunkCount,
    m.expiresAt.toInt64.toInt, at', false, st.uploads.begun⟩
  exact ⟨rfl, row, @Rows.lookup_concat _ _ FileRow.id st.files row _ hnew, rfl, rfl, rfl, rfl⟩

theorem uploading_of_open {number : ℕ} (n : ℕ) (hpending : ss.pending = none)
    (hrow : st.findFile m.fileId = some row) (hunready : row.ready = false)
    (hdims : row.totalSize = m.totalSize ∧ row.chunkSize = m.chunkSize ∧ row.chunkCount = m.chunkCount)
    (hok : ⟨.fileUploadOk, []⟩ ∈ (settle svc now (n + 2) (resumeOpenPart ss st rate m number)).replies) :
    (∃ ss' u, Uploading m (st.disk.bin m.fileId) []
        (settle svc now (n + 2) (resumeOpenPart ss st rate m number)) ss' u row) ∧
      (settle svc now (n + 2) (resumeOpenPart ss st rate m number)).replies = [⟨.fileUploadOk, []⟩] := by
  unfold resumeOpenPart at hok ⊢
  by_cases hopens : (!st.disk.health.opens) = true
  · rw [if_pos hopens] at hok
    have hreplies : (settle svc now (n + 2) (later st rate ss (.dropFile m.fileId
        (.reply (errorReply "The relay can't store files right now"))))).replies =
        [errorReply "The relay can't store files right now"] := by
      show (settle svc now n (answer _ rate _ _)).replies = _
      rw [settle_idle]
      · rfl
      · rfl
    rw [hreplies] at hok
    cases List.mem_singleton.1 hok
  · rw [if_neg hopens, settle_idle]
    · obtain ⟨hpart, hcontent, hbin⟩ := openPart_part st.disk m.fileId
      exact ⟨⟨_, _, rfl, hpending, rfl, rfl, rfl, rfl, rfl, rfl, m.count_pos, rfl, rfl, hpart, hcontent,
        congrFun hbin m.fileId, hrow, hunready, hdims⟩, rfl⟩
    · exact hpending

theorem not_mem_refuse {text : String} (n : ℕ) (hpending : ss.pending = none) :
    (⟨.fileUploadOk, []⟩ : WireMessage) ∉ (settle svc now n (refuse st rate ss text)).replies := by
  rw [settle_idle]
  · intro hmem
    cases List.mem_singleton.1 hmem
  · exact hpending

theorem uploading_of_begin (n : ℕ) (hpending : ss.pending = none) (hok : ⟨.fileUploadOk, []⟩ ∈
      (settle svc now (n + 3) (resumeBeginFile svc ss st rate mailbox m at')).replies) :
    (∃ ss' u row, Uploading m (st.disk.bin m.fileId) []
        (settle svc now (n + 3) (resumeBeginFile svc ss st rate mailbox m at')) ss' u row) ∧
      (settle svc now (n + 3) (resumeBeginFile svc ss st rate mailbox m at')).replies =
        [⟨.fileUploadOk, []⟩] := by
  unfold resumeBeginFile limited at hok ⊢
  split_ifs at hok ⊢
  · exact absurd hok (not_mem_refuse _ hpending)
  · exact absurd hok (not_mem_refuse _ hpending)
  · cases hbegin : st.beginFile mailbox m at' svc.limits.attachmentQuotaBytes with
    | mk result st' =>
      rw [hbegin] at hok
      cases result with
      | ok =>
        have hresult : (st.beginFile mailbox m at' svc.limits.attachmentQuotaBytes).1 = .ok := by
          rw [hbegin]
        obtain ⟨hdisk, row, hrow, hunready, hdims⟩ := beginFile_row hresult
        rw [hbegin] at hdisk hrow
        obtain ⟨⟨ss', u, hup⟩, hreplies⟩ := uploading_of_open n rfl hrow hunready hdims hok
        exact ⟨⟨ss', u, row, hdisk ▸ hup⟩, hreplies⟩
      | «exists» => exact absurd hok (not_mem_refuse _ hpending)
      | quotaExceeded | noSuchMailbox => exact absurd hok (not_mem_refuse _ hpending)
  · exact absurd hok (not_mem_refuse _ hpending)

/-- The relay has accepted a file: its upload is going on, with nothing received. -/
theorem uploading_of_beginTurn (hpending : ss.pending = none)
    (hok : ⟨.fileUploadOk, []⟩ ∈ (beginTurn svc now payload ss st rate).replies) :
    ∃ m ss' u row, decodeFileBegin payload = some m ∧
      Uploading m (st.disk.bin m.fileId) [] (beginTurn svc now payload ss st rate) ss' u row ∧
      (beginTurn svc now payload ss st rate).replies = [⟨.fileUploadOk, []⟩] := by
  have hbegin : beginTurn svc now payload ss st rate =
      settle svc now maxCalls (handleFileBegin now ss payload st rate) := rfl
  rw [hbegin] at hok ⊢
  unfold handleFileBegin needsMailbox decoded at hok ⊢
  cases hmailbox : ss.mailbox with
  | none =>
    rw [hmailbox] at hok
    exact absurd hok (not_mem_refuse _ hpending)
  | some mailbox =>
    rw [hmailbox] at hok
    cases hdecode : decodeFileBegin payload with
    | none =>
      rw [hdecode] at hok
      cases List.mem_singleton.1 hok
    | some m =>
      rw [hdecode] at hok
      dsimp only at hok ⊢
      cases hupload : ss.upload with
      | none =>
        rw [hupload] at hok
        obtain ⟨⟨ss', u, row, hup⟩, hreplies⟩ := uploading_of_begin 2 rfl hok
        exact ⟨m, ss', u, row, rfl, hup, hreplies⟩
      | some old =>
        rw [hupload] at hok
        obtain ⟨⟨ss', u, row, hup⟩, hreplies⟩ := uploading_of_begin 0 rfl hok
        exact ⟨m, ss', u, row, rfl, hup, hreplies⟩

end Begin

/-! ## All chunks -/

/-- The bytes of chunk messages that come from number `i` on, if each is the chunk that is due and can
be written. -/
def FileBegin.received (m : FileBegin) : ℕ → List ChunkTurn → Option (List Bytes)
  | _, [] => some []
  | i, t :: ts =>
    if t.writing.writes then
      (m.chunk i t.payload).bind fun data => (m.received (i + 1) ts).map (data :: ·)
    else none

theorem FileBegin.received_cons (h : m.received i (t :: ts) = some more) :
    t.writing.writes = true ∧ ∃ data rest, m.chunk i t.payload = some data ∧
      m.received (i + 1) ts = some rest ∧ more = data :: rest := by
  rw [FileBegin.received] at h
  split_ifs at h with hwrites
  obtain ⟨data, hdata, h⟩ := Option.bind_eq_some_iff.1 h
  obtain ⟨rest, hrest, rfl⟩ := Option.map_eq_some_iff.1 h
  exact ⟨hwrites, data, rest, hdata, hrest, rfl⟩

/-- While fewer chunks than the file has have come, and all were the ones due, the upload goes on. -/
theorem Uploading.goes_on (svc : Service) (h : Uploading m before chunks o ss u row)
    (hreceived : m.received chunks.length ts = some more)
    (hmore : chunks.length + more.length < m.chunkCount.toNat) :
    (∃ ss' u', Uploading m before (chunks ++ more) (feed svc o ts) ss' u' row) ∧
      ∃ acks, (feed svc o ts).replies = o.replies ++ acks ∧ m.lastOk ∉ acks := by
  induction ts generalizing chunks o ss u more with
  | nil =>
    obtain rfl := Option.some.inj hreceived
    rw [List.append_nil]
    exact ⟨⟨ss, u, h⟩, [], (List.append_nil _).symm, List.not_mem_nil⟩
  | cons t ts ih =>
    obtain ⟨hwrites, data, rest, hdata, hrest, rfl⟩ := FileBegin.received_cons hreceived
    rw [List.length_cons] at hmore
    obtain ⟨⟨ss', hnext⟩, acks, hreplies, hacks⟩ := h.advances svc hdata hwrites (by omega)
    obtain ⟨⟨ss'', u'', hlast⟩, acks', hreplies', hacks'⟩ := ih hnext
      (by rwa [List.length_append, List.length_singleton])
      (by rw [List.length_append, List.length_singleton]; omega)
    rw [List.append_assoc, List.singleton_append] at hlast
    refine ⟨⟨ss'', u'', hlast⟩, acks ++ acks', ?_, ?_⟩
    · rw [← List.append_assoc, ← hreplies]
      exact hreplies'
    · rw [List.mem_append]
      exact fun hmem => hmem.elim hacks hacks'

theorem Idle.turn (svc : Service) (m : FileBegin) (t : ChunkTurn) (h : Idle o) :
    Idle (chunkTurn svc o t) ∧ (∃ health, (chunkTurn svc o t).store = o.store.withHealth health) ∧
      ∃ errors, (chunkTurn svc o t).replies = o.replies ++ errors ∧ m.lastOk ∉ errors := by
  cases hsession : o.session with
  | none =>
    have hturn : chunkTurn svc o t = o := by rw [chunkTurn, hsession]
    rw [hturn]
    exact ⟨h, ⟨o.store.disk.health, rfl⟩, [], (List.append_nil _).symm, List.not_mem_nil⟩
  | some ss =>
    obtain ⟨hpending, hupload⟩ := h ss hsession
    have hturn : chunkTurn svc o t =
        { store := o.store.withHealth t.naming, rate := o.rate, session := some ss
          replies := o.replies ++ [errorReply "No upload in progress"] } := by
      rw [chunkTurn_eq hsession, handleFileChunk, hupload]
      dsimp only
      rw [settle_idle]
      · rfl
      · exact hpending
    rw [hturn]
    refine ⟨fun ss' heq => ?_, ⟨t.naming, rfl⟩, _, rfl, fun hmem => ?_⟩
    · obtain rfl := Option.some.inj heq
      exact ⟨hpending, hupload⟩
    · cases List.mem_singleton.1 hmem

theorem Idle.stays (svc : Service) (m : FileBegin) (ts : List ChunkTurn) (h : Idle o) :
    Idle (feed svc o ts) ∧ (∃ health, (feed svc o ts).store = o.store.withHealth health) ∧
      ∃ errors, (feed svc o ts).replies = o.replies ++ errors ∧ m.lastOk ∉ errors := by
  induction ts generalizing o with
  | nil => exact ⟨h, ⟨o.store.disk.health, rfl⟩, [], (List.append_nil _).symm, List.not_mem_nil⟩
  | cons t ts ih =>
    obtain ⟨hidle, ⟨health, hstore⟩, errors, hreplies, herrors⟩ := h.turn svc m t
    obtain ⟨hidle', ⟨health', hstore'⟩, errors', hreplies', herrors'⟩ := ih hidle
    refine ⟨hidle', ⟨health', ?_⟩, errors ++ errors', ?_, ?_⟩
    · exact hstore'.trans (congrArg (·.withHealth health') hstore)
    · rw [← List.append_assoc, ← hreplies]
      exact hreplies'
    · rw [List.mem_append]
      exact fun hmem => hmem.elim herrors herrors'

/-- Among any chunk messages the first that is not due, or cannot be written, discards the upload, and
otherwise the last one of the file finishes it. -/
inductive FileBegin.Course (m : FileBegin) (i : ℕ) (ts : List ChunkTurn) : Prop
  | goesOn {more : List Bytes} (h : m.received i ts = some more)
    (hlt : i + more.length < m.chunkCount.toNat)
  | breaks (ts₁ : List ChunkTurn) {ts₂ : List ChunkTurn} {t : ChunkTurn} {more : List Bytes}
    (hts : ts = ts₁ ++ t :: ts₂) (h : m.received i ts₁ = some more) (hlt : i + more.length < m.chunkCount.toNat)
    (hbad : m.chunk (i + more.length) t.payload = none ∨ t.writing.writes = false)
  | ends (ts₁ : List ChunkTurn) {ts₂ : List ChunkTurn} {t : ChunkTurn} {more : List Bytes} {data : Bytes}
    (hts : ts = ts₁ ++ t :: ts₂) (h : m.received i ts₁ = some more)
    (hdata : m.chunk (i + more.length) t.payload = some data) (hwrites : t.writing.writes = true)
    (hlast : i + more.length + 1 = m.chunkCount.toNat)

theorem FileBegin.course (m : FileBegin) (hi : i < m.chunkCount.toNat) (ts : List ChunkTurn) :
    m.Course i ts := by
  induction ts generalizing i with
  | nil => exact .goesOn rfl hi
  | cons t ts ih =>
    cases hwrites : t.writing.writes with
    | false => exact .breaks [] rfl rfl hi (.inr hwrites)
    | true =>
      cases hdata : m.chunk i t.payload with
      | none => exact .breaks [] rfl rfl hi (.inl hdata)
      | some data =>
        have hcons : ∀ {ts' : List ChunkTurn} {more : List Bytes}, m.received (i + 1) ts' = some more →
            m.received i (t :: ts') = some (data :: more) := by
          intro ts' more hmore
          rw [FileBegin.received, if_pos hwrites, hdata, Option.bind_some, hmore]
          rfl
        have hlength : ∀ more : List Bytes, i + (data :: more).length = i + 1 + more.length := by
          intro more
          rw [List.length_cons]
          omega
        by_cases hlast : i + 1 = m.chunkCount.toNat
        · exact .ends [] rfl rfl hdata hwrites hlast
        · rcases ih (i := i + 1) (by omega) with ⟨h, hlt⟩ | ⟨_, rfl, h, hlt, hbad⟩ |
            ⟨_, rfl, h, hdata', hwrites', hlast'⟩
          · exact .goesOn (hcons h) (by rwa [hlength])
          · exact .breaks _ (List.cons_append ..).symm (hcons h) (by rwa [hlength]) (by rwa [hlength])
          · exact .ends _ (List.cons_append ..).symm (hcons h) (by rwa [hlength]) hwrites'
              (by rwa [hlength])

theorem feed_append (svc : Service) (o : Outcome) (ts₁ ts₂ : List ChunkTurn) :
    feed svc o (ts₁ ++ ts₂) = feed svc (feed svc o ts₁) ts₂ := List.foldl_append ..

theorem Discarded.stays (h : Discarded m before o) (ts : List ChunkTurn) :
    Discarded m before (feed svc o ts) := by
  obtain ⟨hidle, ⟨health, hstore⟩, -⟩ := h.idle.stays svc m ts
  refine ⟨hidle, ?_, ?_, ?_⟩ <;> rw [hstore]
  · exact h.record
  · exact h.part
  · exact h.bin

theorem Confirmed.stays {bytes : Bytes} (h : Confirmed m bytes o) (ts : List ChunkTurn) :
    Confirmed m bytes (feed svc o ts) := by
  obtain ⟨hidle, ⟨health, hstore⟩, -⟩ := h.idle.stays svc m ts
  refine ⟨hidle, ?_, ?_⟩ <;> rw [hstore]
  · exact h.stored
  · exact h.record

section Runs

variable {ts₁ ts₂ : List ChunkTurn}

/-- The last confirmation of an upload is not among messages that were sent before it. -/
def Silent (m : FileBegin) (o o' : Outcome) : Prop := m.lastOk ∈ o'.replies → m.lastOk ∈ o.replies

theorem Silent.of_append {new : List WireMessage} {o' : Outcome} (h : o'.replies = o.replies ++ new)
    (hnew : m.lastOk ∉ new) : Silent m o o' := by
  intro hmem
  rw [h, List.mem_append] at hmem
  exact hmem.resolve_right hnew

/-- After a chunk that ended the upload with an error nothing confirms it any more. -/
theorem discarded_silent {text : String}
    (hbefore : ∃ acks, (feed svc o ts₁).replies = o.replies ++ acks ∧ m.lastOk ∉ acks)
    (hdiscarded : Discarded m before (chunkTurn svc (feed svc o ts₁) t))
    (htext : (chunkTurn svc (feed svc o ts₁) t).replies = (feed svc o ts₁).replies ++ [errorReply text]) :
    Discarded m before (feed svc o (ts₁ ++ t :: ts₂)) ∧ Silent m o (feed svc o (ts₁ ++ t :: ts₂)) := by
  obtain ⟨acks, hacks, hno⟩ := hbefore
  obtain ⟨-, -, errors, herrors, hnot⟩ := hdiscarded.idle.stays svc m ts₂
  rw [feed_append]
  refine ⟨hdiscarded.stays ts₂, fun hmem => ?_⟩
  have hmem := Silent.of_append herrors hnot hmem
  have hmem := Silent.of_append htext (fun hmem => by cases List.mem_singleton.1 hmem) hmem
  exact Silent.of_append hacks hno hmem

/-- A chunk that is not due or cannot be written ends the upload, and it is never confirmed. -/
theorem Uploading.breaks (h : Uploading m before [] o ss u row) (hreceived : m.received 0 ts₁ = some more)
    (hlt : more.length < m.chunkCount.toNat)
    (hbad : m.chunk more.length t.payload = none ∨ t.writing.writes = false) :
    Discarded m before (feed svc o (ts₁ ++ t :: ts₂)) ∧ Silent m o (feed svc o (ts₁ ++ t :: ts₂)) := by
  obtain ⟨⟨ss', u', hup⟩, acks, hacks, hno⟩ := h.goes_on svc hreceived (by simpa using hlt)
  obtain ⟨hdiscarded, text, htext⟩ := hup.discards svc hbad
  exact discarded_silent ⟨acks, hacks, hno⟩ hdiscarded htext

/-- The last chunk of a file that cannot be renamed ends the upload too. -/
theorem Uploading.ends_unnamed (h : Uploading m before [] o ss u row)
    (hreceived : m.received 0 ts₁ = some more) (hdata : m.chunk more.length t.payload = some data)
    (hwrites : t.writing.writes = true) (hlast : more.length + 1 = m.chunkCount.toNat)
    (hrenames : t.naming.renames = false) :
    Discarded m before (feed svc o (ts₁ ++ t :: ts₂)) ∧ Silent m o (feed svc o (ts₁ ++ t :: ts₂)) := by
  obtain ⟨⟨ss', u', hup⟩, acks, hacks, hno⟩ :=
    h.goes_on svc hreceived (by rw [List.length_nil]; omega)
  obtain ⟨hdiscarded, text, htext⟩ := hup.unnamed svc hdata hwrites hlast hrenames
  exact discarded_silent ⟨acks, hacks, hno⟩ hdiscarded htext

theorem Uploading.ends (svc : Service) (h : Uploading m before [] o ss u row)
    (hreceived : m.received 0 ts₁ = some more)
    (hdata : m.chunk more.length t.payload = some data) (hwrites : t.writing.writes = true)
    (hlast : more.length + 1 = m.chunkCount.toNat) (hrenames : t.naming.renames = true) :
    Confirmed m (t.writing.kept (more ++ [data]).flatten) (feed svc o (ts₁ ++ t :: ts₂)) ∧
      m.lastOk ∈ (feed svc o (ts₁ ++ t :: ts₂)).replies := by
  obtain ⟨⟨ss', u', hup⟩, -⟩ := h.goes_on svc hreceived (by rw [List.length_nil]; omega)
  obtain ⟨hconfirmed, hreplies⟩ := hup.confirms svc hdata hwrites hlast hrenames
  obtain ⟨-, -, errors, herrors, -⟩ := hconfirmed.idle.stays svc m ts₂
  rw [feed_append]
  refine ⟨hconfirmed.stays ts₂, ?_⟩
  show m.lastOk ∈ (feed svc (chunkTurn svc (feed svc o ts₁) t) ts₂).replies
  rw [herrors, hreplies]
  simp

/-! ## The whole file -/

theorem FileBegin.length_of_received {i : ℕ} (h : m.received i ts = some more) :
    more.length = ts.length := by
  induction ts generalizing i more with
  | nil =>
    obtain rfl := Option.some.inj h
    rfl
  | cons t ts ih =>
    obtain ⟨-, data, rest, -, hrest, rfl⟩ := FileBegin.received_cons h
    rw [List.length_cons, List.length_cons, ih hrest]

theorem FileBegin.length_flatten {i : ℕ} (h : m.received i ts = some more)
    (hlt : i + more.length < m.chunkCount.toNat) :
    more.flatten.length = m.chunkSize.toNat * more.length := by
  induction ts generalizing i more with
  | nil =>
    obtain rfl := Option.some.inj h
    rfl
  | cons t ts ih =>
    obtain ⟨-, data, rest, hdata, hrest, rfl⟩ := FileBegin.received_cons h
    rw [List.length_cons] at hlt
    rw [List.flatten_cons, List.length_append, ih hrest (by omega), FileBegin.length_chunk hdata,
      FileBegin.sizeOf_of_lt (by omega), List.length_cons, Nat.mul_succ, Nat.add_comm]

theorem FileBegin.received_concat {i : ℕ} (h : m.received i ts = some more)
    (hwrites : t.writing.writes = true) (hdata : m.chunk (i + more.length) t.payload = some data) :
    m.received i (ts ++ [t]) = some (more ++ [data]) := by
  induction ts generalizing i more with
  | nil =>
    obtain rfl := Option.some.inj h
    rw [List.nil_append, FileBegin.received, if_pos hwrites]
    rw [List.length_nil, Nat.add_zero] at hdata
    rw [hdata]
    rfl
  | cons t' ts ih =>
    obtain ⟨hwrites', data', rest, hdata', hrest, rfl⟩ := FileBegin.received_cons h
    rw [List.length_cons, ← Nat.add_assoc, Nat.add_right_comm] at hdata
    rw [List.cons_append, FileBegin.received, if_pos hwrites', hdata', Option.bind_some, ih hrest hdata]
    rfl

theorem FileBegin.length_whole (h : m.received 0 ts = some more)
    (hdata : m.chunk more.length t.payload = some data) (hlast : more.length + 1 = m.chunkCount.toNat) :
    (more ++ [data]).flatten.length = m.totalSize.toNat := by
  rw [List.flatten_append, List.length_append, List.flatten_singleton,
    FileBegin.length_flatten h (by omega), FileBegin.length_chunk hdata, FileBegin.sizeOf_last hlast]

/-- The chunk messages up to the last chunk of the file. -/
theorem FileBegin.received_take (h : m.received 0 ts₁ = some more) (hwrites : t.writing.writes = true)
    (hdata : m.chunk more.length t.payload = some data) (hlast : more.length + 1 = m.chunkCount.toNat) :
    m.received 0 ((ts₁ ++ t :: ts₂).take m.chunkCount.toNat) = some (more ++ [data]) := by
  have htake : (ts₁ ++ t :: ts₂).take m.chunkCount.toNat = ts₁ ++ [t] := by
    rw [← hlast, FileBegin.length_of_received h, List.take_append, List.take_of_length_le (Nat.le_succ _)]
    simp
  rw [htake]
  exact FileBegin.received_concat h hwrites (by rwa [Nat.zero_add])

end Runs

/-- The relay has told the uploader that it has the file, or offers it for download. -/
def FileBegin.Vouched (m : FileBegin) (o : Outcome) : Prop :=
  m.lastOk ∈ o.replies ∨ ∃ row, o.store.findFile m.fileId = some row ∧ row.ready = true

/-- All bytes of the file, as they were received, are under its name. -/
def FileBegin.Whole (m : FileBegin) (ts : List ChunkTurn) (o : Outcome) : Prop :=
  ∃ chunks, m.received 0 (ts.take m.chunkCount.toNat) = some chunks ∧
    o.store.disk.stored m.fileId = some chunks.flatten ∧ chunks.flatten.length = m.totalSize.toNat

/-- If the last chunk comes to be written and the file can be renamed, nothing is lost when it is
closed. -/
def FileBegin.Closes (m : FileBegin) (ts : List ChunkTurn) : Prop :=
  ∀ ts₁ t ts₂ more data, ts = ts₁ ++ t :: ts₂ → m.received 0 ts₁ = some more →
    m.chunk more.length t.payload = some data → t.writing.writes = true →
    more.length + 1 = m.chunkCount.toNat → t.naming.renames = true →
    ∀ size, t.writing.keeps = some size → m.totalSize.toNat ≤ size

/-- The last chunk of the file came, was written, and the file was renamed. -/
structure FileBegin.Ended (m : FileBegin) (ts : List ChunkTurn) (ts₁ : List ChunkTurn) (t : ChunkTurn)
    (ts₂ : List ChunkTurn) (more : List Bytes) (data : Bytes) : Prop where
  turns : ts = ts₁ ++ t :: ts₂
  received : m.received 0 ts₁ = some more
  chunk : m.chunk more.length t.payload = some data
  writes : t.writing.writes = true
  last : more.length + 1 = m.chunkCount.toNat
  renames : t.naming.renames = true

/-- The relay vouches for a file only after its last chunk. -/
theorem Uploading.vouched (hup : Uploading m before [] o ss u row) (hnew : m.lastOk ∉ o.replies)
    (hvouched : m.Vouched (feed svc o ts)) : ∃ ts₁ t ts₂ more data, m.Ended ts ts₁ t ts₂ more data := by
  -- An upload that goes on or was discarded is not vouched for.
  have hnot : ∀ o', Silent m o o' →
      (∀ row, o'.store.findFile m.fileId = some row → row.ready = false) → ¬m.Vouched o' := by
    rintro o' hsilent hunready (hmem | ⟨row, hrow, hready⟩)
    · exact hnew (hsilent hmem)
    · simp [hunready row hrow] at hready
  have hdiscarded : ∀ o', Discarded m before o' → Silent m o o' → ¬m.Vouched o' := by
    intro o' hdiscarded hsilent
    refine hnot o' hsilent fun row hrow => ?_
    simp [hdiscarded.record] at hrow
  cases m.course m.count_pos ts with
  | goesOn h hlt =>
    obtain ⟨⟨ss'', u', hup'⟩, acks, hacks, hno⟩ := hup.goes_on svc h (by simpa using hlt)
    refine absurd hvouched (hnot _ (Silent.of_append hacks hno) fun row' hrow' => ?_)
    obtain rfl := Option.some.inj (hup'.record.symm.trans hrow')
    exact hup'.unready
  | breaks ts₁ hts h hlt hbad =>
    subst hts
    rw [Nat.zero_add] at hlt hbad
    obtain ⟨hgone, hsilent⟩ := hup.breaks h hlt hbad
    exact absurd hvouched (hdiscarded _ hgone hsilent)
  | @ends ts₁ ts₂ t more data hts h hdata hwrites hlast =>
    subst hts
    rw [Nat.zero_add] at hdata hlast
    cases hrenames : t.naming.renames with
    | false =>
      obtain ⟨hgone, hsilent⟩ := hup.ends_unnamed h hdata hwrites hlast hrenames
      exact absurd hvouched (hdiscarded _ hgone hsilent)
    | true => exact ⟨ts₁, t, ts₂, more, data, rfl, h, hdata, hwrites, hlast, hrenames⟩

/-- An upload that ended is whole if nothing was lost when its file was closed. -/
theorem Uploading.whole {ts₁ ts₂ : List ChunkTurn} (svc : Service)
    (hup : Uploading m before [] o ss u row) (h : m.Ended ts ts₁ t ts₂ more data)
    (hroom : ∀ size, t.writing.keeps = some size → m.totalSize.toNat ≤ size) :
    ∃ chunks, m.received 0 (ts.take m.chunkCount.toNat) = some chunks ∧
      Confirmed m chunks.flatten (feed svc o ts) ∧ chunks.flatten.length = m.totalSize.toNat := by
  obtain ⟨rfl, hreceived, hdata, hwrites, hlast, hrenames⟩ := h
  have hlength := FileBegin.length_whole hreceived hdata hlast
  have hconfirmed : Confirmed m _ (feed svc o (ts₁ ++ t :: ts₂)) :=
    (hup.ends svc hreceived hdata hwrites hlast hrenames).1
  have hkept : t.writing.kept (more ++ [data]).flatten = (more ++ [data]).flatten := by
    unfold DiskHealth.kept
    split
    · rfl
    · next size hsize => exact List.take_of_length_le (hlength.trans_le (hroom size hsize))
  rw [hkept] at hconfirmed
  exact ⟨more ++ [data], FileBegin.received_take hreceived hwrites hdata hlast, hconfirmed, hlength⟩

theorem not_lastOk_of_begin {m' : FileBegin} (h : o.replies = [⟨.fileUploadOk, []⟩]) :
    m'.lastOk ∉ o.replies := by
  rw [h]
  intro hmem
  cases List.mem_singleton.1 hmem

/-- For every upload that the relay begins, every chunk messages and every disk: the relay vouches for
the file only if it is whole, exactly if closing it loses nothing. -/
theorem confirmed_is_whole_iff {svc : Service} {now : Time} {payload : Bytes} {ss : Session}
    {st : RelayStore} {rate : RateLimiter} {m : FileBegin} (hpending : ss.pending = none)
    (hok : ⟨.fileUploadOk, []⟩ ∈ (beginTurn svc now payload ss st rate).replies)
    (hm : decodeFileBegin payload = some m) (ts : List ChunkTurn) :
    (m.Vouched (feed svc (beginTurn svc now payload ss st rate) ts) →
        m.Whole ts (feed svc (beginTurn svc now payload ss st rate) ts)) ↔ m.Closes ts := by
  obtain ⟨m', ss', u, row, hm', hup, hreplies⟩ := uploading_of_beginTurn hpending hok
  obtain rfl := Option.some.inj (hm'.symm.trans hm)
  constructor
  · rintro hall ts₁ t ts₂ more data rfl hreceived hdata hwrites hlast hrenames size hkeeps
    obtain ⟨hconfirmed, hmem⟩ := hup.ends svc hreceived hdata hwrites hlast hrenames
    obtain ⟨chunks, -, hstored, hlength⟩ := hall (.inl hmem)
    have hkept : t.writing.kept (more ++ [data]).flatten = chunks.flatten :=
      Option.some.inj (hconfirmed.stored.symm.trans hstored)
    rw [← hkept, DiskHealth.kept, hkeeps] at hlength
    dsimp only at hlength
    have := List.length_take_le size (more ++ [data]).flatten
    omega
  · intro hcloses hvouched
    obtain ⟨ts₁, t, ts₂, more, data, hended⟩ := hup.vouched (not_lastOk_of_begin hreplies) hvouched
    obtain ⟨chunks, hchunks, hconfirmed, hlength⟩ := hup.whole svc hended
      (hcloses ts₁ t ts₂ more data hended.turns hended.received hended.chunk hended.writes hended.last
        hended.renames)
    exact ⟨chunks, hchunks, hconfirmed.stored, hlength⟩

/-! ### A file of one byte -/

def sampleUploader : Session := { peerIp := [], challenge := [], mailbox := some sampleMailbox }

def sampleBegun : Outcome :=
  beginTurn sampleService 100 sampleBegin.payload sampleUploader sampleWorld.store sampleWorld.rate

def sampleTurn (writing : DiskHealth) : ChunkTurn where
  now := 101
  payload := sampleChunk.payload
  writing

theorem sampleBegun_ok : (⟨.fileUploadOk, []⟩ : WireMessage) ∈ sampleBegun.replies := by decide +kernel

def sampleFileBegin : FileBegin where
  fileId := sampleFile
  totalSize := 1
  chunkSize := 1
  chunkCount := 1
  expiresAt := 1000
  tokenHashes := [byteSum sampleToken]
  total_size := by decide
  chunk_size := by decide
  chunk_count := by decide
  not_tiny := by decide
  tokens_size := by decide
  tokens_nodup := by decide

theorem decode_sampleBegin : decodeFileBegin sampleBegin.payload = some sampleFileBegin :=
  decodeFileBegin_eq_some.2 ⟨rfl, by decide +kernel⟩

theorem confirmed_is_whole_sample :
    sampleFileBegin.Whole [sampleTurn {}] (feed sampleService sampleBegun [sampleTurn {}]) := by
  refine (confirmed_is_whole_iff rfl sampleBegun_ok decode_sampleBegin [sampleTurn {}]).2 ?_ (.inl ?_)
  · intro ts₁ t ts₂ more data hts _ _ _ _ _ size hkeeps
    have ht : t ∈ [sampleTurn {}] := hts ▸ List.mem_append_right _ List.mem_cons_self
    rw [List.mem_singleton.1 ht] at hkeeps
    cases hkeeps
  · decide +kernel

/-- The disk has no room when the file is closed: its upload is confirmed, and nothing of it is there. -/
theorem unchecked_close_loses_bytes :
    sampleFileBegin.Vouched (feed sampleService sampleBegun [sampleTurn { keeps := some 0 }]) ∧
      ¬sampleFileBegin.Whole [sampleTurn { keeps := some 0 }]
        (feed sampleService sampleBegun [sampleTurn { keeps := some 0 }]) := by
  refine ⟨.inl (by decide +kernel), ?_⟩
  rintro ⟨chunks, -, hstored, hlength⟩
  have hempty : (feed sampleService sampleBegun [sampleTurn { keeps := some 0 }]).store.disk.stored
      sampleFileBegin.fileId = some [] := by decide +kernel
  rw [hempty] at hstored
  rw [← Option.some.inj hstored] at hlength
  cases hlength

end PqSuite.Relay
