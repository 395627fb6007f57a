import PqSuite.Client.RelayClient
import PqSuite.Protocol.Codecs

/-!
# Fetching a file from a relay (`relay_client.cpp`)

`download_file` asks for a file from one of its chunks on and checks every chunk against the dimensions
the relay announced. A stream of chunks with these dimensions is handed over to its end
(`receiveChunks_stream`).
-/

namespace PqSuite

open Relay

/-- `MAX_MESSAGE_PAYLOAD`: a longer message is a lost connection for the one who receives it. -/
def maxMessagePayload : ℕ := maxEnvelopeBytes + 1024

def recvMessage (m : WireMessage) : Arrival :=
  if m.payload.length ≤ maxMessagePayload then .message m else .lost

def invalidAnswerText : Bytes := ascii "The relay sent an invalid answer"
def misfitText : Bytes := ascii "The relay sent a chunk that doesn't fit"
def stoppedText : Bytes := ascii "The download was stopped"
def tooShortText : Bytes := ascii "The relay stopped sending before the end of the file"

/-- `FileChunkSink`: takes a chunk, and says whether the download goes on. -/
abbrev FileChunkSink (σ : Type) := UInt32 → Bytes → σ → Bool × σ

structure Download (σ : Type) where
  result : Except Bytes Unit
  info : Option FileInfo
  sunk : σ
  client : RelayClient

def wantedSize (info : FileInfo) (index : UInt32) : UInt64 :=
  if index + 1 < info.chunkCount then info.chunkSize.toUInt64
  else info.totalSize - index.toUInt64 * info.chunkSize.toUInt64

namespace RelayClient

variable {σ : Type} {c : RelayClient}

/-- The loop of `download_file`. -/
def receiveChunks (info : FileInfo) (sink : FileChunkSink σ) :
    UInt32 → List Arrival → σ → RelayClient → Except Bytes Unit × σ × RelayClient
  | _, [], s, c => (.error lostText, s, { c with arrivals := [] }.close)
  | expected, .quiet :: rest, s, c => receiveChunks info sink expected rest s c
  | _, .lost :: rest, s, c => (.error lostText, s, { c with arrivals := rest }.close)
  | expected, .message m :: rest, s, c =>
    match m.type with
    | .fileData =>
      match decodeFileChunk m.payload with
      | none => (.error misfitText, s, (c.receive m rest).close)
      | some chunk =>
        if chunk.index ≠ expected ∨ chunk.data.length ≠ (wantedSize info chunk.index).toNat ∨
            info.chunkCount ≤ expected then
          (.error misfitText, s, (c.receive m rest).close)
        else match sink chunk.index chunk.data s with
          | (false, s) => (.error stoppedText, s, (c.receive m rest).close)
          | (true, s) => receiveChunks info sink (expected + 1) rest s (c.receive m rest)
    | .fileDownloadEnd =>
      if expected ≠ info.chunkCount then (.error tooShortText, s, (c.receive m rest).close)
      else (.ok (), s, c.receive m rest)
    | .errorMsg => (.error (relayErrorText m.payload), s, c.receive m rest)
    | _ => (.error unexpectedText, s, (c.receive m rest).close)

def downloadFile (c : RelayClient) (m : FileDownload) (sink : FileChunkSink σ) (s : σ) : Download σ :=
  match c.request .fileDownload (encodeFileDownload m) .fileInfo with
  | (.error e, c) => ⟨.error e, none, s, c⟩
  | (.ok payload, c) =>
    match (decodeFileInfo payload).filter (m.fromChunk < ·.chunkCount) with
    | none => ⟨.error invalidAnswerText, none, s, c.close⟩
    | some info =>
      let ended := receiveChunks info sink m.fromChunk c.arrivals s c
      ⟨ended.1, some info, ended.2.1, ended.2.2⟩

/-! ## A stream that fits -/

def dataMessage (i : ℕ) (data : Bytes) : WireMessage :=
  ⟨.fileData, encodeFileChunk (UInt32.ofNat i) data⟩

structure Fits (info : FileInfo) (i : ℕ) (data : Bytes) : Prop where
  index : i < info.chunkCount.toNat
  size : data.length = (wantedSize info (UInt32.ofNat i)).toNat
  nonempty : data ≠ []
  bound : data.length ≤ maxFileChunkBytes

/-- Hands the chunks over from number `i` on, until the sink stops. -/
def handOver (sink : FileChunkSink σ) : ℕ → List Bytes → σ → Bool × σ
  | _, [], s => (true, s)
  | i, data :: chunks, s =>
    match sink (UInt32.ofNat i) data s with
    | (false, s) => (false, s)
    | (true, s) => handOver sink (i + 1) chunks s

def stream : ℕ → List Bytes → List WireMessage
  | _, [] => [⟨.fileDownloadEnd, []⟩]
  | i, data :: chunks => dataMessage i data :: stream (i + 1) chunks

variable {info : FileInfo} {i : ℕ} {data : Bytes}

theorem Fits.toNat_index (h : Fits info i data) : (UInt32.ofNat i).toNat = i :=
  UInt32.toNat_ofNat_of_lt' (h.index.trans info.chunkCount.toNat_lt)

theorem Fits.decode (h : Fits info i data) :
    decodeFileChunk (encodeFileChunk (UInt32.ofNat i) data) = some ⟨UInt32.ofNat i, data⟩ :=
  decodeFileChunk_eq_some.2 ⟨⟨h.nonempty, h.bound⟩, rfl⟩

theorem Fits.recv (h : Fits info i data) :
    recvMessage (dataMessage i data) = .message (dataMessage i data) := by
  have hlength : (dataMessage i data).payload.length = 8 + data.length := by
    rw [dataMessage, encodeFileChunk, List.length_append, length_writeU32, length_writeBlob]
    omega
  have hroom : maxFileChunkBytes + 8 ≤ maxMessagePayload := by decide
  have hbound := h.bound
  rw [recvMessage, if_pos]
  omega

theorem receiveChunks_data (h : Fits info i data) (sink : FileChunkSink σ) (rest : List Arrival) (s : σ)
    (c : RelayClient) :
    receiveChunks info sink (UInt32.ofNat i) (.message (dataMessage i data) :: rest) s c =
      match sink (UInt32.ofNat i) data s with
      | (false, s) => (.error stoppedText, s, (c.receive (dataMessage i data) rest).close)
      | (true, s) =>
        receiveChunks info sink (UInt32.ofNat (i + 1)) rest s (c.receive (dataMessage i data) rest) := by
  have hindex : ¬info.chunkCount ≤ UInt32.ofNat i := by
    rw [UInt32.le_iff_toNat_le, h.toNat_index]
    exact Nat.not_le.2 h.index
  rw [receiveChunks, dataMessage]
  dsimp only
  rw [h.decode]
  dsimp only
  rw [if_neg (by simp [hindex, h.size]), UInt32.ofNat_add]
  rfl

/-- The client hands over every chunk of a stream that fits, and is content at its end. -/
theorem receiveChunks_stream (sink : FileChunkSink σ) (rest : List Arrival) (chunks : List Bytes) :
    ∀ (i : ℕ) (s : σ) (c : RelayClient), i + chunks.length = info.chunkCount.toNat →
      (∀ k data, chunks[k]? = some data → Fits info (i + k) data) →
      ∃ c', receiveChunks info sink (UInt32.ofNat i) ((stream i chunks).map recvMessage ++ rest) s c =
        (if (handOver sink i chunks s).1 then .ok () else .error stoppedText,
          (handOver sink i chunks s).2, c') := by
  induction chunks with
  | nil =>
    intro i s c hcount _
    have hend : UInt32.ofNat i = info.chunkCount := by
      rw [← UInt32.ofNat_toNat (x := info.chunkCount), ← hcount]
      rfl
    refine ⟨c.receive ⟨.fileDownloadEnd, []⟩ rest, ?_⟩
    change receiveChunks info sink (UInt32.ofNat i) (.message ⟨.fileDownloadEnd, []⟩ :: rest) s c = _
    rw [receiveChunks]
    simp [hend, handOver]
  | cons data chunks ih =>
    intro i s c hcount hfit
    have hdata : Fits info i data := hfit 0 data rfl
    have hrest : ∀ k data', chunks[k]? = some data' → Fits info (i + 1 + k) data' := by
      intro k data' hk
      have := hfit (k + 1) data' hk
      rwa [Nat.add_comm k, ← Nat.add_assoc] at this
    rw [stream, List.map_cons, List.cons_append, hdata.recv, receiveChunks_data hdata, handOver]
    obtain ⟨goesOn, s'⟩ := sink (UInt32.ofNat i) data s
    cases goesOn with
    | false => exact ⟨_, rfl⟩
    | true => exact ih (i + 1) s' _ (by rw [← hcount, List.length_cons]; omega) hrest

structure CanSend (c : RelayClient) : Prop where
  connected : c.connected = true
  sends : c.sends.head? ≠ some false

theorem CanSend.sendRequest (h : c.CanSend) (type : MessageType) (payload : Bytes) :
    c.sendRequest type payload =
      (.ok (), { c with sends := c.sends.tail, sent := c.sent ++ [⟨type, payload⟩] }) := by
  have hsends := h.sends
  unfold RelayClient.sendRequest
  rw [if_neg (by simp [h.connected])]
  split
  · next heq => simp [heq] at hsends
  · rfl

def infoMessage (info : FileInfo) : WireMessage :=
  ⟨.fileInfo, encodeFileInfo info.totalSize info.chunkSize info.chunkCount info.expiresAt⟩

theorem recvMessage_info (info : FileInfo) :
    recvMessage (infoMessage info) = .message (infoMessage info) := by
  rw [recvMessage, if_pos]
  simp only [infoMessage, encodeFileInfo, List.length_append, length_writeU64, length_writeU32]
  decide

theorem CanSend.request_info (h : c.CanSend) {rest : List Arrival}
    (harrivals : c.arrivals = .message (infoMessage info) :: rest) (payload : Bytes) :
    ∃ c', c'.arrivals = rest ∧
      c.request .fileDownload payload .fileInfo = (.ok (infoMessage info).payload, c') := by
  unfold RelayClient.request
  rw [h.sendRequest]
  dsimp only
  rw [harrivals, readReply, readReplyEither, if_pos (.inl rfl)]
  exact ⟨_, rfl, rfl⟩

/-- How a download ends whose announcement is in order. -/
theorem downloadFile_of_info {c₁ c₂ : RelayClient} {req : FileDownload} {payload : Bytes}
    {sink : FileChunkSink σ} {s s' : σ} {result : Except Bytes Unit}
    (hrequest : c.request .fileDownload (encodeFileDownload req) .fileInfo = (.ok payload, c₁))
    (hdecode : (decodeFileInfo payload).filter (req.fromChunk < ·.chunkCount) = some info)
    (hchunks : receiveChunks info sink req.fromChunk c₁.arrivals s c₁ = (result, s', c₂)) :
    c.downloadFile req sink s = ⟨result, some info, s', c₂⟩ := by
  rw [downloadFile, hrequest]
  dsimp only
  rw [hdecode]
  dsimp only
  rw [hchunks]

/-- A download whose stream fits what was announced is handed over to its end. -/
theorem downloadFile_stream (hsend : c.CanSend) (hinfo : info.Valid) {req : FileDownload}
    {chunks : List Bytes} {rest : List Arrival} (hsome : chunks ≠ [])
    (hcount : req.fromChunk.toNat + chunks.length = info.chunkCount.toNat)
    (hfit : ∀ k data, chunks[k]? = some data → Fits info (req.fromChunk.toNat + k) data)
    (harrivals : c.arrivals =
      (infoMessage info :: stream req.fromChunk.toNat chunks).map recvMessage ++ rest)
    (sink : FileChunkSink σ) (s : σ) :
    ∃ c', c.downloadFile req sink s =
      ⟨if (handOver sink req.fromChunk.toNat chunks s).1 then .ok () else .error stoppedText,
        some info, (handOver sink req.fromChunk.toNat chunks s).2, c'⟩ := by
  have hlt : req.fromChunk < info.chunkCount := by
    have := List.length_pos_iff.2 hsome
    rw [UInt32.lt_iff_toNat_lt]
    omega
  have hdecode : (decodeFileInfo (infoMessage info).payload).filter (req.fromChunk < ·.chunkCount) =
      some info := by
    rw [infoMessage, decodeFileInfo_eq_some.2 ⟨hinfo, rfl⟩, Option.filter_some,
      if_pos (by simpa using hlt)]
  rw [List.map_cons, List.cons_append, recvMessage_info] at harrivals
  obtain ⟨c₁, hrest, hrequest⟩ := hsend.request_info harrivals (encodeFileDownload req)
  obtain ⟨c₂, hchunks⟩ := receiveChunks_stream sink rest chunks req.fromChunk.toNat s c₁ hcount hfit
  rw [UInt32.ofNat_toNat, ← hrest] at hchunks
  exact ⟨c₂, downloadFile_of_info hrequest hdecode hchunks⟩

def keepAll : FileChunkSink Bytes := fun _ data s => (true, s ++ data)

theorem handOver_keepAll (chunks : List Bytes) : ∀ (i : ℕ) (s : Bytes),
    handOver keepAll i chunks s = (true, s ++ chunks.flatten) := by
  induction chunks with
  | nil => intro i s; rw [List.flatten_nil, List.append_nil]; rfl
  | cons data chunks ih =>
    intro i s
    rw [List.flatten_cons, ← List.append_assoc, ← ih (i + 1)]
    rfl

end RelayClient

end PqSuite
