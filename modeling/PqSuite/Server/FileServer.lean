import Mathlib.Data.Fintype.Basic
import PqSuite.Lib.Rows
import PqSuite.Protocol.FileHeader

/-!
# The server of the file protocol (`main.cpp`)

Each connection uploads or downloads one transfer, and a thread removes what has expired. They share the
registered transfers and the bytes that are reserved, under one lock; between two uses of it, and between
two changes of the disk, anything else can happen. Of the storage directory only the transfers' own
directories are here. Removing one takes its files away one after the other, and may fail or be cut off.
The reserved bytes are a natural number: the 64 bits of the source hold more than any disk does.
-/

namespace PqSuite.FileServer

open FileProtocol

variable {age : Bytes → Time} {now : Time}

def transferIdHexLen : ℕ := 32

def transferTtl : Time := 24 * 3600

structure StoredTransfer where
  id : Bytes
  header : FileHeader
  created : Time
  reservedBytes : ℕ
  downloading : Bool
  deriving DecidableEq

/-- The directory of a transfer. `reservation` is what the upload that made it had reserved; no function
reads it. -/
structure Directory where
  name : Bytes
  header : Option Bytes := none
  chunks : ℕ → Option Bytes := fun _ => none
  reservation : ℕ

inductive FileName where
  | header
  | chunk (index : ℕ)

def Directory.unlink (d : Directory) : FileName → Directory
  | .header => { d with header := none }
  | .chunk index => { d with chunks := Function.update d.chunks index none }

/-- How writing a whole file ends: it is there, it could not be opened, or its first bytes are there. -/
inductive WriteResult where
  | ok
  | cannotOpen
  | cut (written : ℕ)

def WriteResult.content (data : Bytes) (before : Option Bytes) : WriteResult → Option Bytes
  | .ok => some data
  | .cannotOpen => before
  | .cut written => some (data.take written)

def isLowerHex (s : Bytes) (expectedLen : ℕ) : Bool :=
  s.length = expectedLen && s.all fun c => (48 ≤ c && c ≤ 57) || (97 ≤ c && c ≤ 102)

def storageCost (h : FileHeader) (headerBytes : ℕ) : ℕ :=
  h.fileSize.toNat + h.totalChunks.toNat * aeadTagSize + headerBytes

inductive Reply where
  | ack (text : Bytes)
  | error (text : String)
  | downloadHeader (payload : Bytes)
  | downloadChunk (payload : Bytes)
  | downloadDone
  deriving DecidableEq

inductive Conn where
  | idle
  | reserved (header : FileHeader) (bytes : Bytes)
  /-- Its directory is made, and `header.bin` still to be written. -/
  | opened (id : Bytes) (header : FileHeader) (bytes : Bytes)
  | receiving (id : Bytes) (header : FileHeader) (bytes : Bytes) (received : List ℕ)
  | aborting (dir : Option Bytes) (reserve : ℕ)
  | removing (dir : Bytes)
  /-- A download, with a copy of the transfer and the index of the chunk that is sent next. -/
  | sending (transfer : StoredTransfer) (headerSent : Bool) (index : ℕ)
  /-- Everything was sent, and the receiver has not answered. -/
  | awaiting (transfer : StoredTransfer)
  | confirmed (transfer : StoredTransfer)
  | releasing (id : Bytes)

/-- The server with `n` connections. `startup` is what was reserved when the server started; no function
reads it. -/
structure World (n : ℕ) where
  transfers : List StoredTransfer := []
  reserved : ℕ := 0
  disk : List Directory := []
  conns : Fin n → Conn := fun _ => .idle
  cleaner : List Bytes := []
  startup : ℕ := 0

namespace World

variable {n : ℕ} (w : World n)

def setConn (i : Fin n) (c : Conn) : World n := { w with conns := Function.update w.conns i c }

def updateDir (name : Bytes) (f : Directory → Directory) : World n :=
  { w with disk := w.disk.map fun d => if d.name = name then f d else d }

def removeDir (name : Bytes) : World n := { w with disk := w.disk.filter (·.name ≠ name) }

def findTransfer (id : Bytes) : Option StoredTransfer := Rows.lookup StoredTransfer.id id w.transfers

def findDir (name : Bytes) : Option Directory := Rows.lookup Directory.name name w.disk

def setDownloading (id : Bytes) (downloading : Bool) : World n :=
  { w with transfers := w.transfers.map fun t => if t.id = id then { t with downloading } else t }

end World

/-! ## Uploads -/

namespace World

variable {n : ℕ} (w : World n) (quota : ℕ)

/-- Checks the header and reserves space up front. -/
def uploadRequest (i : Fin n) (bytes : Bytes) : World n × List Reply :=
  match deserializeFileHeader bytes with
  | none => (w, [.error "Malformed file header (client and server versions may not match)"])
  | some header =>
    if validateFileHeader header ≠ "" then (w, [.error (validateFileHeader header)])
    else
      let reserve := storageCost header bytes.length
      if w.reserved + reserve > quota then (w, [.error "Relay server storage is full, try again later"])
      else
        (({ w with reserved := w.reserved + reserve } : World n).setConn i (.reserved header bytes), [])

def makeDirectory (i : Fin n) (id : Bytes) (header : FileHeader) (bytes : Bytes) :
    World n × List Reply :=
  let reserve := storageCost header bytes.length
  if (w.findDir id).isSome then (w.setConn i (.aborting none reserve), [.error "Server storage error"])
  else
    (({ w with disk := w.disk ++ [{ name := id, reservation := reserve }] } : World n).setConn i
      (.opened id header bytes), [])

/-- Writes `header.bin`, and tells the ID. -/
def writeHeader (i : Fin n) (id : Bytes) (header : FileHeader) (bytes : Bytes) (result : WriteResult) :
    World n × List Reply :=
  let written := w.updateDir id fun d => { d with header := result.content bytes d.header }
  match result with
  | .ok => (written.setConn i (.receiving id header bytes []), [.ack id])
  | _ => (written.setConn i (.aborting (some id) (storageCost header bytes.length)),
      [.error "Server storage error"])

def uploadChunk (i : Fin n) (id : Bytes) (header : FileHeader) (bytes : Bytes) (received : List ℕ)
    (payload : Bytes) (result : WriteResult) : World n × List Reply :=
  let aborting := Conn.aborting (some id) (storageCost header bytes.length)
  match deserializeFileChunk payload with
  | none => (w.setConn i aborting, [.error "Malformed chunk"])
  | some chunk =>
    let idx := chunk.chunkIndex.toNat
    if idx ≥ header.totalChunks.toNat ∨ idx ∈ received then
      (w.setConn i aborting, [.error ("Invalid or duplicate chunk index " ++ toString idx)])
    else if chunk.data.length ≠ expectedChunkPlaintextSize header idx + aeadTagSize then
      (w.setConn i aborting, [.error ("Chunk " ++ toString idx ++ " has an unexpected size")])
    else
      let written := w.updateDir id fun d =>
        { d with chunks := Function.update d.chunks idx (result.content chunk.data (d.chunks idx)) }
      match result with
      | .ok => (written.setConn i (.receiving id header bytes (idx :: received)), [])
      | _ => (written.setConn i aborting, [.error "Server storage error"])

def uploadDone (i : Fin n) (id : Bytes) (header : FileHeader) (bytes : Bytes) (received : List ℕ)
    (now : Time) : World n × List Reply :=
  let reserve := storageCost header bytes.length
  if received.length ≠ header.totalChunks.toNat then
    (w.setConn i (.aborting (some id) reserve),
      [.error ("Upload incomplete: received " ++ toString received.length ++ " of " ++
        toString header.totalChunks.toNat ++ " chunks")])
  else
    (({ w with transfers := w.transfers.filter (·.id ≠ id) ++ [⟨id, header, now, reserve, false⟩] } :
      World n).setConn i .idle, [.ack (ascii "UPLOAD_COMPLETE")])

def abort (i : Fin n) (dir : Option Bytes) (reserve : ℕ) : World n :=
  ({ w with reserved := w.reserved - reserve } : World n).setConn i
    (match dir with | some id => .removing id | none => .idle)

end World

/-! ## Downloads -/

namespace World

variable {n : ℕ} (w : World n)

def notFound : String := "Transfer not found (it may have expired or already been received)"

def downloadRequest (i : Fin n) (payload : Bytes) : World n × List Reply :=
  if ¬isLowerHex payload transferIdHexLen then (w, [.error notFound])
  else
    match w.findTransfer payload with
    | none => (w, [.error notFound])
    | some t =>
      if t.downloading then (w, [.error "This transfer is already being downloaded"])
      else
        ((w.setDownloading payload true).setConn i (.sending { t with downloading := true } false 0), [])

def readHeader (t : StoredTransfer) : Option Bytes :=
  ((w.findDir t.id).bind (·.header)).filter (·.length ≤ maxHeaderMessage)

def readChunk (t : StoredTransfer) (index : ℕ) : Option Bytes :=
  ((w.findDir t.id).bind (·.chunks index)).filter (·.length ≤ maxChunkSize + aeadTagSize)

/-- Sends the next message: the header, a chunk, or that all was sent. -/
def sendNext (i : Fin n) (t : StoredTransfer) (headerSent : Bool) (index : ℕ) : World n × List Reply :=
  let storageError := (w.setConn i (.releasing t.id), [.error "Server storage error"])
  if ¬headerSent then
    match w.readHeader t with
    | none => storageError
    | some bytes => (w.setConn i (.sending t true index), [.downloadHeader bytes])
  else if index < t.header.totalChunks.toNat then
    match w.readChunk t index with
    | none => storageError
    | some data => (w.setConn i (.sending t true (index + 1)),
        [.downloadChunk (serializeFileChunk ⟨UInt32.ofNat index, data⟩)])
  else (w.setConn i (.awaiting t), [.downloadDone])

/-- The receiver confirmed: the transfer is no longer there, and its directory goes next. -/
def finish (i : Fin n) (t : StoredTransfer) : World n :=
  match w.findTransfer t.id with
  | some row =>
    ({ w with
      reserved := w.reserved - row.reservedBytes
      transfers := w.transfers.filter (·.id ≠ t.id) } : World n).setConn i (.removing t.id)
  | none => w.setConn i (.removing t.id)

def release (i : Fin n) (id : Bytes) : World n := (w.setDownloading id false).setConn i .idle

end World

/-! ## Cleanup and start -/

/-- Nobody is downloading it, and its time is over. -/
def StoredTransfer.expired (t : StoredTransfer) (now : Time) : Bool :=
  !t.downloading && now - t.created > transferTtl

/-- One round over the registered transfers: what is still reserved, the directories to remove, and the
transfers that stay. -/
def expireLoop (now : Time) : List StoredTransfer → ℕ → ℕ × List Bytes × List StoredTransfer
  | [], reserved => (reserved, [], [])
  | t :: rest, reserved =>
    if t.expired now then
      let (reserved, expired, kept) := expireLoop now rest (reserved - t.reservedBytes)
      (reserved, t.id :: expired, kept)
    else
      let (reserved, expired, kept) := expireLoop now rest reserved
      (reserved, expired, t :: kept)

/-- The header of a directory that has a valid one and every chunk at its exact size, with the size of
`header.bin`. -/
def Directory.complete (d : Directory) : Option (FileHeader × ℕ) := do
  let bytes ← d.header.filter (·.length ≤ maxHeaderMessage)
  let header ← deserializeFileHeader bytes
  if validateFileHeader header = "" ∧ ∀ i < header.totalChunks.toNat,
      (d.chunks i).map List.length = some (expectedChunkPlaintextSize header i + aeadTagSize) then
    some (header, bytes.length)
  else none

/-- What is left of a directory that is removed: nothing, or the directory without the files that went
before the removal failed. -/
def Directory.removed (d : Directory) (left : Bytes → Option (List FileName)) : Option Directory :=
  (left d.name).map fun files => files.foldl Directory.unlink d

/-- What the server finds when it starts: the transfers, what they reserve, and the directories it leaves. -/
structure Restored where
  transfers : List StoredTransfer := []
  reserved : ℕ := 0
  disk : List Directory := []

/-- Registers a directory again if it is complete and not too old, and removes it otherwise. -/
def restoreOne (now : Time) (age : Bytes → Time) (left : Bytes → Option (List FileName)) (r : Restored)
    (d : Directory) : Restored :=
  let removed := { r with disk := r.disk ++ (d.removed left).toList }
  match d.complete with
  | none => removed
  | some (header, size) =>
    if age d.name > transferTtl then removed
    else
      let cost := storageCost header size
      { transfers := r.transfers.filter (·.id ≠ d.name) ++
          [⟨d.name, header, now - age d.name, cost, false⟩]
        reserved := r.reserved + cost
        disk := r.disk ++ [d] }

def restoreTransfers (now : Time) (age : Bytes → Time) (left : Bytes → Option (List FileName))
    (disk : List Directory) : Restored :=
  disk.foldl (restoreOne now age left) {}

theorem expireLoop_eq (now : Time) (l : List StoredTransfer) (reserved : ℕ) :
    expireLoop now l reserved =
      (reserved - ((l.filter (·.expired now)).map (·.reservedBytes)).sum,
        (l.filter (·.expired now)).map (·.id), l.filter (!·.expired now)) := by
  induction l generalizing reserved with
  | nil => rfl
  | cons t rest ih =>
    rw [expireLoop]
    by_cases ht : t.expired now = true
    · simp [ht, ih, Nat.sub_sub]
    · simp [ht, ih]

def Directory.restored (d : Directory) (now : Time) (age : Bytes → Time) : Option StoredTransfer :=
  match d.complete with
  | none => none
  | some (header, size) =>
    if age d.name > transferTtl then none
    else some ⟨d.name, header, now - age d.name, storageCost header size, false⟩

theorem Directory.restored_id {d : Directory} {t : StoredTransfer} (h : d.restored now age = some t) :
    t.id = d.name := by
  unfold Directory.restored at h
  split at h
  · exact nomatch h
  · split_ifs at h
    rw [← Option.some.inj h]

theorem Directory.restored_downloading {d : Directory} {t : StoredTransfer}
    (h : d.restored now age = some t) : t.downloading = false := by
  unfold Directory.restored at h
  split at h
  · exact nomatch h
  · split_ifs at h
    rw [← Option.some.inj h]

def Directory.kept (d : Directory) (now : Time) (age : Bytes → Time)
    (left : Bytes → Option (List FileName)) : Option Directory :=
  if (d.restored now age).isSome then some d else d.removed left

/-- Unlinking files takes nothing but them away. -/
theorem Directory.unlinks (files : List FileName) (d : Directory) :
    (files.foldl Directory.unlink d).name = d.name ∧
      (files.foldl Directory.unlink d).reservation = d.reservation ∧
      ((files.foldl Directory.unlink d).header = d.header ∨
        (files.foldl Directory.unlink d).header = none) := by
  induction files generalizing d with
  | nil => exact ⟨rfl, rfl, .inl rfl⟩
  | cons file files ih =>
    obtain ⟨hname, hreservation, hheader⟩ := ih (d.unlink file)
    rw [List.foldl_cons, hname, hreservation]
    cases file with
    | header => exact ⟨rfl, rfl, .inr (hheader.elim id id)⟩
    | chunk index => exact ⟨rfl, rfl, hheader⟩

/-- What is left has the name of the directory, and its header or none. -/
theorem Directory.of_kept {d d' : Directory} {left : Bytes → Option (List FileName)}
    (h : d.kept now age left = some d') :
    d'.name = d.name ∧ d'.reservation = d.reservation ∧ (d'.header = d.header ∨ d'.header = none) := by
  unfold Directory.kept at h
  split_ifs at h
  · obtain rfl := Option.some.inj h
    exact ⟨rfl, rfl, .inl rfl⟩
  · obtain ⟨files, -, rfl⟩ := Option.map_eq_some_iff.1 h
    exact Directory.unlinks files d

theorem restoreOne_eq (now : Time) (age : Bytes → Time) (left : Bytes → Option (List FileName))
    (r : Restored) (d : Directory) :
    restoreOne now age left r d =
      match d.restored now age with
      | none => { r with disk := r.disk ++ (d.kept now age left).toList }
      | some t => ⟨r.transfers.filter (·.id ≠ d.name) ++ [t], r.reserved + t.reservedBytes,
          r.disk ++ (d.kept now age left).toList⟩ := by
  unfold restoreOne Directory.kept Directory.restored
  cases d.complete with
  | none => rfl
  | some complete => by_cases hage : age d.name > transferTtl <;> simp [hage]

theorem foldl_restoreOne (now : Time) (age : Bytes → Time) (left : Bytes → Option (List FileName))
    (disk : List Directory) (r : Restored) (hnames : (disk.map (·.name)).Nodup)
    (hnew : ∀ t ∈ r.transfers, t.id ∉ disk.map (·.name)) :
    disk.foldl (restoreOne now age left) r =
      ⟨r.transfers ++ disk.filterMap (·.restored now age),
        r.reserved + ((disk.filterMap (·.restored now age)).map (·.reservedBytes)).sum,
        r.disk ++ disk.filterMap (·.kept now age left)⟩ := by
  have hdisk : ∀ (d : Directory) (l : List Directory),
      (d.kept now age left).toList ++ l.filterMap (·.kept now age left) =
        (d :: l).filterMap (·.kept now age left) := by
    intro d l
    rw [List.filterMap_cons]
    cases d.kept now age left <;> rfl
  induction disk generalizing r with
  | nil => simp
  | cons d disk ih =>
    rw [List.map_cons, List.nodup_cons] at hnames
    rw [List.foldl_cons, restoreOne_eq, ← hdisk d disk]
    cases hd : d.restored now age with
    | none =>
      simp only
      rw [ih _ hnames.2]
      · simp [hd]
      · exact fun t ht hmem => hnew t ht (List.mem_cons_of_mem _ hmem)
    | some t =>
      have hkept : r.transfers.filter (·.id ≠ d.name) = r.transfers :=
        List.filter_eq_self.2 fun t ht => decide_eq_true fun heq =>
          hnew t ht (by rw [heq]; exact List.mem_cons_self)
      simp only [hkept]
      rw [ih _ hnames.2]
      · simp [hd, Nat.add_assoc]
      · intro t' ht' hmem
        rcases List.mem_append.1 ht' with hold | hlast
        · exact hnew t' hold (List.mem_cons_of_mem _ hmem)
        · rw [List.mem_singleton.1 hlast, Directory.restored_id hd] at hmem
          exact hnames.1 hmem

/-- What a start finds, when every directory has its own name. -/
theorem restoreTransfers_eq (now : Time) (age : Bytes → Time) (left : Bytes → Option (List FileName))
    {disk : List Directory} (hnames : (disk.map (·.name)).Nodup) :
    restoreTransfers now age left disk =
      ⟨disk.filterMap (·.restored now age),
        ((disk.filterMap (·.restored now age)).map (·.reservedBytes)).sum,
        disk.filterMap (·.kept now age left)⟩ := by
  rw [restoreTransfers, foldl_restoreOne now age left disk {} hnames nofun]
  simp

namespace World

variable {n : ℕ} (w : World n)

def expire (now : Time) : World n :=
  let (reserved, expired, kept) := expireLoop now w.transfers w.reserved
  { w with reserved := reserved, transfers := kept, cleaner := expired }

/-- The server is stopped at any point, and starts again on the same disk. -/
def restart (now : Time) (age : Bytes → Time) (left : Bytes → Option (List FileName)) : World n :=
  let r := restoreTransfers now age left w.disk
  { transfers := r.transfers, reserved := r.reserved, disk := r.disk, startup := r.reserved }

end World

/-! ## Interleavings -/

/-- What can happen next: a connection goes on, the cleanup thread does, or the server is restarted. -/
inductive Event (n : ℕ) where
  | uploadRequest (i : Fin n) (bytes : Bytes)
  /-- No ID could be drawn. -/
  | noId (i : Fin n)
  | makeDirectory (i : Fin n) (id : Bytes)
  | cannotMake (i : Fin n)
  | writeHeader (i : Fin n) (result : WriteResult)
  | uploadChunk (i : Fin n) (payload : Bytes) (result : WriteResult)
  | uploadDone (i : Fin n) (now : Time)
  /-- A message of another type during an upload. -/
  | unexpected (i : Fin n)
  /-- Nothing can be sent to the other side, or received from it. -/
  | hangUp (i : Fin n)
  | abort (i : Fin n)
  | unlink (i : Fin n) (file : FileName)
  /-- The directory is removed, or stays as it is since it cannot be. -/
  | removed (i : Fin n) (gone : Bool)
  | downloadRequest (i : Fin n) (payload : Bytes)
  | sendNext (i : Fin n)
  /-- The receiver's answer, and whether it is an ACK. -/
  | answer (i : Fin n) (ack : Bool)
  | finish (i : Fin n)
  | release (i : Fin n)
  | expire (now : Time)
  | cleanerUnlink (file : FileName)
  | cleanerRemoved (gone : Bool)
  | restart (now : Time) (age : Bytes → Time) (left : Bytes → Option (List FileName))

def Event.conn {n : ℕ} : Event n → Option (Fin n)
  | .uploadRequest i _ | .noId i | .makeDirectory i _ | .cannotMake i | .writeHeader i _
  | .uploadChunk i _ _ | .uploadDone i _ | .unexpected i | .hangUp i | .abort i | .unlink i _
  | .removed i _ | .downloadRequest i _ | .sendNext i | .answer i _ | .finish i | .release i => some i
  | .expire _ | .cleanerUnlink _ | .cleanerRemoved _ | .restart _ _ _ => none

def Event.isRestart {n : ℕ} : Event n → Bool
  | .restart _ _ _ => true
  | _ => false

namespace World

variable {n : ℕ} (quota : ℕ) (w : World n)

def silent (w : World n) : World n × List Reply := (w, [])

/-- The state after an event and what is sent to the connection, if the event is possible. -/
def next : Event n → Option (World n × List Reply)
  | .uploadRequest i bytes =>
    match w.conns i with
    | .idle => if bytes.length ≤ maxHeaderMessage then some (w.uploadRequest quota i bytes) else none
    | _ => none
  | .noId i =>
    match w.conns i with
    | .reserved header bytes => some (w.setConn i (.aborting none (storageCost header bytes.length)),
        [.error "Server could not generate a transfer ID"])
    | _ => none
  | .makeDirectory i id =>
    match w.conns i with
    | .reserved header bytes => some (w.makeDirectory i id header bytes)
    | _ => none
  | .cannotMake i =>
    match w.conns i with
    | .reserved header bytes => some (w.setConn i (.aborting none (storageCost header bytes.length)),
        [.error "Server storage error"])
    | _ => none
  | .writeHeader i result =>
    match w.conns i with
    | .opened id header bytes => some (w.writeHeader i id header bytes result)
    | _ => none
  | .uploadChunk i payload result =>
    match w.conns i with
    | .receiving id header bytes received => some (w.uploadChunk i id header bytes received payload result)
    | _ => none
  | .uploadDone i now =>
    match w.conns i with
    | .receiving id header bytes received => some (w.uploadDone i id header bytes received now)
    | _ => none
  | .unexpected i =>
    match w.conns i with
    | .receiving id header bytes _ => some (w.setConn i (.aborting (some id)
        (storageCost header bytes.length)), [.error "Unexpected message during upload"])
    | _ => none
  | .hangUp i =>
    match w.conns i with
    | .receiving id header bytes _ =>
      some (w.setConn i (.aborting (some id) (storageCost header bytes.length))).silent
    | .sending t _ _ | .awaiting t => some (w.setConn i (.releasing t.id)).silent
    | _ => none
  | .abort i =>
    match w.conns i with
    | .aborting dir reserve => some (w.abort i dir reserve).silent
    | _ => none
  | .unlink i file =>
    match w.conns i with
    | .removing dir => some (w.updateDir dir (·.unlink file)).silent
    | _ => none
  | .removed i gone =>
    match w.conns i with
    | .removing dir => some ((if gone then w.removeDir dir else w).setConn i .idle).silent
    | _ => none
  | .downloadRequest i payload =>
    match w.conns i with
    | .idle => some (w.downloadRequest i payload)
    | _ => none
  | .sendNext i =>
    match w.conns i with
    | .sending t headerSent index => some (w.sendNext i t headerSent index)
    | _ => none
  | .answer i ack =>
    match w.conns i with
    | .awaiting t => some (w.setConn i (if ack then .confirmed t else .releasing t.id)).silent
    | _ => none
  | .finish i =>
    match w.conns i with
    | .confirmed t => some (w.finish i t).silent
    | _ => none
  | .release i =>
    match w.conns i with
    | .releasing id => some (w.release i id).silent
    | _ => none
  | .expire now => if w.cleaner = [] then some (w.expire now).silent else none
  | .cleanerUnlink file =>
    match w.cleaner with
    | dir :: _ => some (w.updateDir dir (·.unlink file)).silent
    | [] => none
  | .cleanerRemoved gone =>
    match w.cleaner with
    | dir :: rest => some ({ (if gone then w.removeDir dir else w) with cleaner := rest } : World n).silent
    | [] => none
  | .restart now age left => some (w.restart now age left).silent

end World

end PqSuite.FileServer
