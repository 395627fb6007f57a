import Mathlib.Data.List.TakeWhile
import PqSuite.Client.FileTransfer
import PqSuite.Server.UploadTurns

/-!
# A file from one client to another

The relay reckons the size of a chunk when it receives a file and again when it sends it, and the client
that fetches the file reckons it a third time. The three agree for every file the relay accepts, so a
file comes back as it went up, from whichever chunk on it is fetched (`upload_then_download`).
-/

namespace PqSuite.Relay

def downloadTurn (svc : Service) (now : Time) (payload : Bytes) (ss : Session) (st : RelayStore)
    (rate : RateLimiter) : Outcome :=
  settle svc now maxCalls (handleMessage svc now ss ⟨.fileDownload, payload⟩ st rate)

structure RelayStore.Holds (st : RelayStore) (m : FileBegin) (bytes : Bytes) : Prop where
  stored : st.disk.stored m.fileId = some bytes
  record : ∃ row, st.findFile m.fileId = some row ∧
    row.totalSize = m.totalSize ∧ row.chunkSize = m.chunkSize ∧ row.chunkCount = m.chunkCount

def FileBegin.pieces (m : FileBegin) (bytes : Bytes) (first : ℕ) : List Bytes :=
  (List.range' first (m.chunkCount.toNat - first)).map fun i =>
    (bytes.drop (i * m.chunkSize.toNat)).take (m.sizeOf i)

variable {m : FileBegin} {bytes : Bytes} {i first : ℕ}

/-! ## The sizes of chunks -/

/-- The size by the relay that sends the file is the one by the relay that received it. -/
theorem FileBegin.min_eq_sizeOf (h : i < m.chunkCount.toNat) :
    min m.chunkSize.toNat (m.totalSize.toNat - i * m.chunkSize.toNat) = m.sizeOf i := by
  have hfull := m.full_lt
  have htotal := m.total_le
  by_cases hlast : i + 1 = m.chunkCount.toNat
  · have hsize := FileBegin.sizeOf_last hlast
    rw [← hlast, Nat.mul_add, Nat.mul_one] at htotal
    rw [Nat.mul_comm]
    omega
  · have hmore : i + 1 < m.chunkCount.toNat := by omega
    have hle : m.chunkSize.toNat * (i + 1) ≤ m.chunkSize.toNat * (m.chunkCount.toNat - 1) :=
      Nat.mul_le_mul_left _ (by omega)
    rw [FileBegin.sizeOf_of_lt hmore, Nat.mul_comm]
    rw [Nat.mul_add, Nat.mul_one] at hle
    omega

theorem FileBegin.end_le (h : i < m.chunkCount.toNat) :
    i * m.chunkSize.toNat + m.sizeOf i ≤ m.totalSize.toNat := by
  have hfull := m.full_lt
  have hle : m.chunkSize.toNat * i ≤ m.chunkSize.toNat * (m.chunkCount.toNat - 1) :=
    Nat.mul_le_mul_left _ (by omega)
  rw [← FileBegin.min_eq_sizeOf h, Nat.mul_comm]
  omega

theorem FileBegin.sizeOf_pos (h : i < m.chunkCount.toNat) : 0 < m.sizeOf i := by
  have hfull := m.full_lt
  have hsize := m.chunk_size.1
  have hle : m.chunkSize.toNat * i ≤ m.chunkSize.toNat * (m.chunkCount.toNat - 1) :=
    Nat.mul_le_mul_left _ (by omega)
  rw [← FileBegin.min_eq_sizeOf h, Nat.mul_comm]
  omega

theorem FileBegin.sizeOf_le (h : i < m.chunkCount.toNat) : m.sizeOf i ≤ m.chunkSize.toNat := by
  rw [← FileBegin.min_eq_sizeOf h]
  exact Nat.min_le_left ..

def FileBegin.info (m : FileBegin) (expiresAt : UInt64) : FileInfo :=
  ⟨m.totalSize, m.chunkSize, m.chunkCount, expiresAt⟩

/-- The size by the client that fetches the file is the one by the relay that received it. -/
theorem FileBegin.wantedSize_eq (expiresAt : UInt64) (h : i < m.chunkCount.toNat) :
    (wantedSize (m.info expiresAt) (UInt32.ofNat i)).toNat = m.sizeOf i := by
  have hcount := m.chunkCount.toNat_lt
  have hindex : (UInt32.ofNat i).toNat = i := UInt32.toNat_ofNat_of_lt' (h.trans hcount)
  have hnext : (UInt32.ofNat i + 1).toNat = (i + 1) % 2 ^ 32 := by
    rw [UInt32.toNat_add, hindex]
    rfl
  unfold wantedSize
  by_cases hlast : i + 1 < m.chunkCount.toNat
  · rw [if_pos, FileBegin.sizeOf_of_lt hlast, UInt32.toNat_toUInt64]
    · rfl
    · rw [UInt32.lt_iff_toNat_lt, hnext, Nat.mod_eq_of_lt (hlast.trans hcount)]
      exact hlast
  · have hsize := FileBegin.sizeOf_last (m := m) (i := i) (by omega)
    have htotal := m.total_size.2
    have hoffset : ((UInt32.ofNat i).toUInt64 * m.chunkSize.toUInt64).toNat = m.chunkSize.toNat * i := by
      rw [UInt64.toNat_mul, UInt32.toNat_toUInt64, UInt32.toNat_toUInt64, hindex, Nat.mul_comm]
      refine Nat.mod_eq_of_lt ?_
      simp only [maxFileBytes] at htotal
      omega
    have hle : (UInt32.ofNat i).toUInt64 * m.chunkSize.toUInt64 ≤ m.totalSize := by
      rw [UInt64.le_iff_toNat_le, hoffset]
      omega
    rw [if_neg]
    · change (m.totalSize - (UInt32.ofNat i).toUInt64 * m.chunkSize.toUInt64).toNat = _
      rw [UInt64.toNat_sub_of_le _ _ hle, hoffset]
      omega
    · rw [UInt32.lt_iff_toNat_lt, hnext]
      change ¬(i + 1) % 2 ^ 32 < m.chunkCount.toNat
      rw [Nat.mod_eq_of_lt (by omega)]
      exact hlast

/-! ## The chunks of a file -/

theorem FileBegin.pieces_of_lt (m : FileBegin) (bytes : Bytes) (h : first < m.chunkCount.toNat) :
    m.pieces bytes first = (bytes.drop (first * m.chunkSize.toNat)).take (m.sizeOf first) ::
      m.pieces bytes (first + 1) := by
  have hsucc : m.chunkCount.toNat - first = (m.chunkCount.toNat - (first + 1)) + 1 := by omega
  rw [FileBegin.pieces, hsucc, List.range'_succ, List.map_cons]
  rfl

theorem FileBegin.pieces_end (m : FileBegin) (bytes : Bytes) (h : m.chunkCount.toNat ≤ first) :
    m.pieces bytes first = [] := by
  rw [FileBegin.pieces, Nat.sub_eq_zero_of_le h]
  rfl

/-- The chunks from one on are what is left of the file there. -/
theorem FileBegin.flatten_pieces (hlength : bytes.length = m.totalSize.toNat) {left : ℕ} :
    ∀ {first : ℕ}, first + left = m.chunkCount.toNat →
      (m.pieces bytes first).flatten = bytes.drop (first * m.chunkSize.toNat) := by
  induction left with
  | zero =>
    intro first hfirst
    have htotal := m.total_le
    rw [Nat.add_zero] at hfirst
    rw [m.pieces_end bytes hfirst.ge, List.flatten_nil, List.drop_of_length_le]
    rwa [hlength, hfirst, Nat.mul_comm]
  | succ left ih =>
    intro first hfirst
    have hlt : first < m.chunkCount.toNat := by omega
    rw [m.pieces_of_lt bytes hlt, List.flatten_cons, ih (by omega)]
    by_cases hlast : first + 1 = m.chunkCount.toNat
    · -- The last chunk is all that is left.
      have hsize := FileBegin.sizeOf_last hlast
      have htotal := m.total_le
      rw [Nat.mul_comm] at hsize htotal
      rw [hlast, List.drop_of_length_le (l := bytes) (hlength.trans_le htotal), List.append_nil,
        List.take_of_length_le]
      rw [List.length_drop]
      omega
    · rw [FileBegin.sizeOf_of_lt (by omega), Nat.add_mul, Nat.one_mul, ← List.drop_drop,
        List.take_append_drop]

theorem FileBegin.length_pieces (m : FileBegin) (bytes : Bytes) (first : ℕ) :
    (m.pieces bytes first).length = m.chunkCount.toNat - first := by
  rw [FileBegin.pieces, List.length_map, List.length_range']

theorem FileBegin.fits_pieces (hlength : bytes.length = m.totalSize.toNat) (expiresAt : UInt64)
    (first k : ℕ) (data : Bytes) (h : (m.pieces bytes first)[k]? = some data) :
    RelayClient.Fits (m.info expiresAt) (first + k) data := by
  obtain ⟨hk, hdata⟩ := List.getElem?_eq_some_iff.1 h
  rw [m.length_pieces] at hk
  have hlt : first + k < m.chunkCount.toNat := by omega
  simp only [FileBegin.pieces, List.getElem_map, List.getElem_range', Nat.one_mul] at hdata
  have hsize : data.length = m.sizeOf (first + k) := by
    have hend := FileBegin.end_le hlt
    rw [← hdata, List.length_take, List.length_drop, hlength]
    omega
  have hpos := FileBegin.sizeOf_pos hlt
  refine ⟨hlt, hsize.trans (FileBegin.wantedSize_eq expiresAt hlt).symm, ?_, ?_⟩
  · rintro rfl
    rw [List.length_nil] at hsize
    omega
  · exact hsize.trans_le ((FileBegin.sizeOf_le hlt).trans m.chunk_size.2)

/-! ## What the relay sends -/

theorem stream_pieces (m : FileBegin) (bytes : Bytes) {left : ℕ} :
    ∀ {first : ℕ}, first + left = m.chunkCount.toNat →
      RelayClient.stream first (m.pieces bytes first) =
        (List.range' first left).map (fun i => RelayClient.dataMessage i
          ((bytes.drop (i * m.chunkSize.toNat)).take (m.sizeOf i))) ++ [⟨.fileDownloadEnd, []⟩] := by
  induction left with
  | zero =>
    intro first hfirst
    rw [Nat.add_zero] at hfirst
    rw [m.pieces_end bytes hfirst.ge]
    rfl
  | succ left ih =>
    intro first hfirst
    rw [m.pieces_of_lt bytes (by omega), RelayClient.stream, ih (by omega), List.range'_succ]
    rfl

variable {st : RelayStore} {svc : Service} {now : Time} {ss : Session} {rate : RateLimiter}
  {req : FileDownload}

/-- A relay that has the whole file sends all chunks from the one that was asked for. -/
theorem resumeSendFile_replies (hholds : st.Holds m bytes) (hlength : bytes.length = m.totalSize.toNat)
    (hid : req.fileId = m.fileId) (hfirst : req.fromChunk < m.chunkCount) :
    ∃ expiresAt, (resumeSendFile ss st rate req).replies =
      RelayClient.infoMessage (m.info expiresAt) ::
        RelayClient.stream req.fromChunk.toNat (m.pieces bytes req.fromChunk.toNat) := by
  obtain ⟨row, hrow, htotal, hsize, hcount⟩ := hholds.record
  obtain ⟨f, hfile, hdims⟩ : ∃ f, (st.file req.fileId).filter (req.fromChunk < ·.chunkCount) = some f ∧
      f.totalSize = m.totalSize ∧ f.chunkSize = m.chunkSize ∧ f.chunkCount = m.chunkCount := by
    rw [RelayStore.file, hid, hrow]
    exact ⟨_, Option.filter_some_pos (by simpa [hcount] using hfirst), htotal, hsize, hcount⟩
  obtain ⟨htotal, hsize, hcount⟩ := hdims
  have hlt : req.fromChunk.toNat < m.chunkCount.toNat := UInt32.lt_iff_toNat_lt.1 hfirst
  have hpiece : ∀ i ∈ List.range' req.fromChunk.toNat (f.chunkCount.toNat - req.fromChunk.toNat),
      chunkAt f i = (i * m.chunkSize.toNat, m.sizeOf i) ∧
        i * m.chunkSize.toNat + m.sizeOf i ≤ bytes.length := by
    intro i hi
    have hbounds := List.mem_range'_1.1 hi
    rw [hcount] at hbounds
    have hlast : i < m.chunkCount.toNat := by omega
    rw [chunkAt, htotal, hsize, FileBegin.min_eq_sizeOf hlast]
    exact ⟨rfl, hlength ▸ FileBegin.end_le hlast⟩
  refine ⟨UInt64.ofInt f.expiresAt, ?_⟩
  unfold resumeSendFile
  rw [hfile, hid, hholds.stored]
  dsimp only
  rw [List.takeWhile_eq_self_iff.2, if_pos rfl, stream_pieces m bytes (Nat.add_sub_of_le hlt.le), htotal,
    hsize, hcount]
  · refine congrArg (_ :: · ++ _) (List.map_congr_left fun i hi => ?_)
    rw [RelayClient.dataMessage, (hpiece i (hcount ▸ hi)).1]
  · intro i hi
    rw [(hpiece i hi).1]
    exact decide_eq_true (hpiece i hi).2

structure Admits (svc : Service) (now : Time) (ss : Session) (st : RelayStore) (rate : RateLimiter)
    (req : FileDownload) : Prop where
  rate : (rate.allow (ascii "file-dl:" ++ ss.peerIp) svc.limits.rateLimitPerMinute now).1 = true
  token : st.checkFileToken req.fileId (svc.sha256 req.token) now = .ok

theorem session_resumeSendFile (hpending : ss.pending = none) :
    (resumeSendFile ss st rate req).session.bind (·.pending) = none := by
  unfold resumeSendFile
  split
  · exact hpending
  · exact hpending
  · dsimp only
    split_ifs
    · exact hpending
    · rfl

theorem downloadTurn_replies (hholds : st.Holds m bytes) (hlength : bytes.length = m.totalSize.toNat)
    (hvalid : req.Valid) (hadmits : Admits svc now ss st rate req)
    (hid : req.fileId = m.fileId) (hfirst : req.fromChunk < m.chunkCount) :
    ∃ expiresAt, (downloadTurn svc now (encodeFileDownload req) ss st rate).replies =
      RelayClient.infoMessage (m.info expiresAt) ::
        RelayClient.stream req.fromChunk.toNat (m.pieces bytes req.fromChunk.toNat) := by
  have hhandled : handleFileDownload svc now ss (encodeFileDownload req) st rate =
      later st (rate.allow (ascii "file-dl:" ++ ss.peerIp) svc.limits.rateLimitPerMinute now).2 ss
        (.sendFile req) := by
    unfold handleFileDownload
    rw [decodeFileDownload_eq_some.2 ⟨hvalid, rfl⟩]
    simp only [decoded, limited]
    rw [if_pos hadmits.rate, hadmits.token]
  change ∃ expiresAt, (settle svc now maxCalls
    (handleFileDownload svc now ss (encodeFileDownload req) st rate)).replies = _
  rw [hhandled, maxCalls, settle]
  dsimp only [later, resume]
  rw [settle_idle]
  · exact resumeSendFile_replies hholds hlength hid hfirst
  · exact session_resumeSendFile rfl

/-- What a client gets that fetches the file from some chunk on. -/
theorem downloadFile_pieces (hholds : st.Holds m bytes) (hlength : bytes.length = m.totalSize.toNat)
    (hvalid : req.Valid) (hadmits : Admits svc now ss st rate req)
    (hid : req.fileId = m.fileId) (hfirst : req.fromChunk < m.chunkCount) {c : RelayClient}
    (hsend : c.CanSend) {rest : List Arrival}
    (harrivals : c.arrivals =
      (downloadTurn svc now (encodeFileDownload req) ss st rate).replies.map recvMessage ++ rest) :
    (c.downloadFile req RelayClient.keepAll []).result = .ok () ∧
      (c.downloadFile req RelayClient.keepAll []).sunk =
        bytes.drop (req.fromChunk.toNat * m.chunkSize.toNat) := by
  obtain ⟨expiresAt, hreplies⟩ := downloadTurn_replies hholds hlength hvalid hadmits hid hfirst
  rw [hreplies] at harrivals
  have hlt : req.fromChunk.toNat < m.chunkCount.toNat := UInt32.lt_iff_toNat_lt.1 hfirst
  have hcount := m.length_pieces bytes req.fromChunk.toNat
  have hsum : req.fromChunk.toNat + (m.pieces bytes req.fromChunk.toNat).length = m.chunkCount.toNat := by
    omega
  have hsome : m.pieces bytes req.fromChunk.toNat ≠ [] := List.length_pos_iff.1 (by omega)
  have hinfo : (m.info expiresAt).Valid := ⟨m.total_size, m.chunk_size, m.chunk_count⟩
  obtain ⟨c', hdownload⟩ := RelayClient.downloadFile_stream hsend hinfo hsome hsum
    (FileBegin.fits_pieces hlength expiresAt _) harrivals RelayClient.keepAll []
  rw [hdownload, RelayClient.handOver_keepAll, FileBegin.flatten_pieces hlength (Nat.add_sub_of_le hlt.le)]
  exact ⟨rfl, rfl⟩

/-! ## Up and down again -/

structure ChunkTurn.Succeeds (t : ChunkTurn) : Prop where
  writes : t.writing.writes = true
  keeps : t.writing.keeps = none
  renames : t.naming.renames = true

/-- For every file the relay accepts and all chunk messages: the last confirmation is sent only if the
chunks received are the stored file and have its size; a chunk that does not fit leaves nothing of the
upload; and a file that was confirmed comes back from any chunk on to any client that may fetch it. -/
theorem upload_then_download {svc : Service} {now : Time} {payload : Bytes} {ss : Session}
    {st : RelayStore} {rate : RateLimiter} {m : FileBegin} (hpending : ss.pending = none)
    (hok : ⟨.fileUploadOk, []⟩ ∈ (beginTurn svc now payload ss st rate).replies)
    (hm : decodeFileBegin payload = some m) (ts : List ChunkTurn) (hdisk : ∀ t ∈ ts, t.Succeeds) :
    let o := feed svc (beginTurn svc now payload ss st rate) ts
    (m.lastOk ∈ o.replies → m.Whole ts o) ∧
      (∀ ts₁ t ts₂ more, ts = ts₁ ++ t :: ts₂ → m.received 0 ts₁ = some more →
        more.length < m.chunkCount.toNat → m.chunk more.length t.payload = none →
        Discarded m (st.disk.bin m.fileId) o) ∧
      (m.lastOk ∈ o.replies →
        ∀ (chunks : List Bytes) (svc' : Service) (now' : Time) (ss' : Session) (st' : RelayStore)
          (rate' : RateLimiter) (req : FileDownload) (c : RelayClient) (rest : List Arrival),
          m.received 0 (ts.take m.chunkCount.toNat) = some chunks →
          st'.disk.stored m.fileId = o.store.disk.stored m.fileId →
          st'.findFile m.fileId = o.store.findFile m.fileId →
          req.Valid → req.fileId = m.fileId → req.fromChunk < m.chunkCount →
          Admits svc' now' ss' st' rate' req → c.CanSend →
          c.arrivals = (downloadTurn svc' now' (encodeFileDownload req) ss' st' rate').replies.map
            recvMessage ++ rest →
          (c.downloadFile req RelayClient.keepAll []).result = .ok () ∧
            (c.downloadFile req RelayClient.keepAll []).sunk =
              chunks.flatten.drop (req.fromChunk.toNat * m.chunkSize.toNat)) := by
  obtain ⟨m', ss', u, row, hm', hup, hreplies⟩ := uploading_of_beginTurn hpending hok
  obtain rfl := Option.some.inj (hm'.symm.trans hm)
  have hwhole : m'.lastOk ∈ (feed svc (beginTurn svc now payload ss st rate) ts).replies →
      ∃ chunks, m'.received 0 (ts.take m'.chunkCount.toNat) = some chunks ∧
        Confirmed m' chunks.flatten (feed svc (beginTurn svc now payload ss st rate) ts) ∧
        chunks.flatten.length = m'.totalSize.toNat := by
    intro hmem
    obtain ⟨ts₁, t, ts₂, more, data, hended⟩ := hup.vouched (not_lastOk_of_begin hreplies) (.inl hmem)
    have ht : t ∈ ts := hended.turns ▸ List.mem_append_right _ List.mem_cons_self
    exact hup.whole svc hended (by simp [(hdisk t ht).keeps])
  refine ⟨fun hmem => ?_, ?_, fun hmem => ?_⟩
  · obtain ⟨chunks, hchunks, hconfirmed, hlength⟩ := hwhole hmem
    exact ⟨chunks, hchunks, hconfirmed.stored, hlength⟩
  · rintro ts₁ t ts₂ more rfl hreceived hlt hbad
    exact (hup.breaks hreceived hlt (.inl hbad)).1
  · intro chunks svc' now' ss'' st' rate' req c rest hchunks hstored hfile hvalid hid hfirst hadmits hsend
      harrivals
    obtain ⟨chunks', hchunks', hconfirmed, hlength⟩ := hwhole hmem
    obtain rfl := Option.some.inj (hchunks'.symm.trans hchunks)
    obtain ⟨row', hrow', -, hdims⟩ := hconfirmed.record
    have hholds : st'.Holds m' chunks'.flatten :=
      ⟨hstored.trans hconfirmed.stored, row', hfile.trans hrow', hdims⟩
    exact downloadFile_pieces hholds hlength hvalid hadmits hid hfirst hsend harrivals

/-! ### A file of a full chunk and one byte -/

def samplePlan : FileBegin :=
  { sampleFileBegin with
    totalSize := 4097, chunkSize := 4096, chunkCount := 2, total_size := by decide
    chunk_size := by decide, chunk_count := by decide, not_tiny := by decide }

theorem decode_samplePlan : decodeFileBegin (encodeFileBegin samplePlan) = some samplePlan :=
  decodeFileBegin_eq_some.2 ⟨rfl, rfl⟩

def samplePlanned : Outcome :=
  beginTurn sampleService 100 (encodeFileBegin samplePlan) sampleUploader sampleWorld.store sampleWorld.rate

def sampleChunks : List ChunkTurn :=
  [{ now := 101, payload := writeU32 0 ++ writeBlob (List.replicate 4096 3) },
    { now := 101, payload := writeU32 1 ++ writeBlob [7] }]

/-- The second chunk alone. -/
def sampleFetch : FileDownload := ⟨sampleFile, sampleToken, 1⟩

def sampleFetched : Outcome :=
  downloadTurn sampleService 102 (encodeFileDownload sampleFetch) { peerIp := [], challenge := [] }
    (feed sampleService samplePlanned sampleChunks).store sampleWorld.rate

def sampleFetcher : RelayClient where
  connected := true
  queue := []
  seen := []
  arrivals := sampleFetched.replies.map recvMessage
  sends := []
  noted := []
  sent := []

theorem upload_then_download_sample :
    (sampleFetcher.downloadFile sampleFetch RelayClient.keepAll []).sunk = [7] := by
  have hdisk : ∀ t ∈ sampleChunks, t.Succeeds := by
    intro t ht
    simp only [sampleChunks, List.mem_cons, List.not_mem_nil, or_false] at ht
    rcases ht with rfl | rfl <;> exact ⟨rfl, rfl, rfl⟩
  have hadmits : Admits sampleService 102 { peerIp := [], challenge := [] }
      (feed sampleService samplePlanned sampleChunks).store sampleWorld.rate sampleFetch :=
    ⟨by decide +kernel, by decide +kernel⟩
  have hok : ⟨.fileUploadOk, []⟩ ∈ samplePlanned.replies := by decide +kernel
  have hround := upload_then_download rfl hok decode_samplePlan sampleChunks hdisk
  have harrivals : sampleFetcher.arrivals = sampleFetched.replies.map recvMessage ++ [] := by
    simp only [sampleFetcher, List.append_nil]
  have hlast : samplePlan.lastOk ∈ (feed sampleService samplePlanned sampleChunks).replies := by
    decide +kernel
  obtain ⟨chunks, hchunks, hstored, -⟩ := hround.1 hlast
  have hsunk := (hround.2.2 hlast chunks sampleService 102 { peerIp := [], challenge := [] } _
    sampleWorld.rate sampleFetch sampleFetcher [] hchunks rfl rfl ⟨rfl, rfl⟩ rfl (by decide) hadmits
    ⟨rfl, nofun⟩ harrivals).2
  have hrest : ((feed sampleService samplePlanned sampleChunks).store.disk.stored samplePlan.fileId).map
      (·.drop 4096) = some [7] := by decide +kernel
  rw [samplePlanned, hstored] at hrest
  exact hsunk.trans (Option.some.inj hrest)

end PqSuite.Relay
