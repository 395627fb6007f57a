import PqSuite.Server.Keyrings

/-!
# Storing and fetching the keyring (`relay_client.cpp`)

Both directions send the keyring in chunks, and the connection may break at any of them. Storing one
leaves the relay with the keyring it had or with all of the new one (`store_putKeyring`), and reports
success only in the second case. Fetching one returns what the relay holds or fails.
-/

namespace PqSuite.Relay

inductive Hop where
  | through
  | requestLost
  | replyLost
  deriving DecidableEq

namespace KeyringSession

variable (ss : KeyringSession)

/-- One chunk after the other, each once the one before it has been accepted. -/
def sendChunks : List KeyringChunk → List Hop → RelayStore → KeyringUpload → Bool × RelayStore
  | [], _, s, _ => (true, s)
  | _ :: _, [], s, _ => (false, s)
  | _ :: _, .requestLost :: _, s, _ => (false, s)
  | c :: _, .replyLost :: _, s, up => (false, (ss.handleKeyringPut c s up).2.1)
  | c :: rest, .through :: hops, s, up =>
    match ss.handleKeyringPut c s up with
    | (.ok, s, up) => sendChunks rest hops s up
    | (.error _, s, _) => (false, s)

def putKeyring (blob : Bytes) (hops : List Hop) (s : RelayStore) : Bool × RelayStore :=
  if blob = [] ∨ blob.length > maxKeyringBytes then (false, s)
  else ss.sendChunks (chunksOf blob) hops s {}

end KeyringSession

/-- The client's state while a keyring arrives. -/
structure KeyringDownload where
  total : ℕ := 0
  count : ℕ := 0
  next : ℕ := 0
  blob : Bytes := []

/-- Reads chunks until the last has come: `none` is a failure, `some none` that there is no keyring. -/
def readChunks (d : KeyringDownload) : List KeyringChunk → Option (Option Bytes)
  | [] => none
  | c :: rest =>
    if !c.wellFormed then none
    else if c.count = 0 then if d.next ≠ 0 then none else some none
    else
      let d := if d.next = 0 then { d with total := c.totalSize, count := c.count } else d
      if c.index ≠ d.next ∨ c.totalSize ≠ d.total ∨ c.count ≠ d.count then none
      else
        let d := { d with blob := d.blob ++ c.data, next := d.next + 1 }
        if d.next = d.count then some (some d.blob) else readChunks d rest

def keyringAnswer (s : RelayStore) (mailbox : Bytes) : List KeyringChunk :=
  match s.getKeyring mailbox with
  | none => [{}]
  | some blob => chunksOf blob

/-- The first `arrived` chunks of the answer get through. -/
def getKeyring (s : RelayStore) (mailbox : Bytes) (arrived : ℕ) : Option (Option Bytes) :=
  readChunks {} ((keyringAnswer s mailbox).take arrived)

/-! ## Cutting a keyring into chunks -/

variable {blob : Bytes} {i : ℕ}

theorem chunkCount_pos (hblob : blob ≠ []) : 0 < chunkCount blob.length := by
  have := List.length_pos_iff.2 hblob
  simp only [chunkCount, keyringChunkBytes]
  omega

theorem mul_chunkBytes_lt (hi : i + 1 < chunkCount blob.length) :
    (i + 1) * keyringChunkBytes < blob.length := by
  simp only [chunkCount, keyringChunkBytes] at hi ⊢
  omega

theorem length_le_chunkCount_mul (blob : Bytes) :
    blob.length ≤ chunkCount blob.length * keyringChunkBytes := by
  simp only [chunkCount, keyringChunkBytes]
  omega

theorem wellFormed_chunkOf (hblob : blob ≠ []) (hmax : blob.length ≤ maxKeyringBytes)
    (hi : i < chunkCount blob.length) : (chunkOf blob i).wellFormed = true := by
  have hpos := List.length_pos_iff.2 hblob
  have hlen : ((blob.drop (i * keyringChunkBytes)).take keyringChunkBytes).length =
      if i + 1 < chunkCount blob.length then keyringChunkBytes
      else blob.length - keyringChunkBytes * (chunkCount blob.length - 1) := by
    have hle := length_le_chunkCount_mul blob
    rw [List.length_take, List.length_drop]
    split_ifs with hlast
    · have := mul_chunkBytes_lt hlast
      rw [Nat.add_mul] at this
      omega
    · obtain rfl : i = chunkCount blob.length - 1 := by omega
      simp only [chunkCount, keyringChunkBytes] at *
      omega
  have hsize : (chunkOf blob i).totalSize ≠ 0 := Nat.ne_of_gt hpos
  rw [KeyringChunk.wellFormed, if_neg hsize]
  simp only [Bool.and_eq_true, decide_eq_true_eq]
  exact ⟨⟨⟨hmax, rfl⟩, hi⟩, hlen⟩

/-- Chunk by chunk the buffer becomes a longer part of the keyring. -/
theorem take_append_chunk (blob : Bytes) (i : ℕ) :
    blob.take (i * keyringChunkBytes) ++ (chunkOf blob i).data =
      blob.take ((i + 1) * keyringChunkBytes) := by
  rw [Nat.add_mul, Nat.one_mul, List.take_add]
  rfl

theorem take_last (hlast : i + 1 = chunkCount blob.length) :
    blob.take ((i + 1) * keyringChunkBytes) = blob := by
  rw [hlast]
  exact List.take_of_length_le (length_le_chunkCount_mul blob)

/-! ## Storing -/

/-- The session after the first `i` chunks. -/
def uploadAt (blob : Bytes) (i : ℕ) : KeyringUpload where
  active := true
  total := blob.length
  count := chunkCount blob.length
  next := i
  buffer := blob.take (i * keyringChunkBytes)

variable {ss : KeyringSession} {s : RelayStore} {up : KeyringUpload}

theorem takeChunk_chunkOf (blob : Bytes) (i : ℕ) :
    ss.takeChunk (chunkOf blob i) s (uploadAt blob i) =
      if i + 1 = chunkCount blob.length then (.ok, s.putKeyring ss.mailbox blob ss.now, {})
      else (.ok, s, uploadAt blob (i + 1)) := by
  have hbuffer : (uploadAt blob i).buffer ++ (chunkOf blob i).data =
      blob.take ((i + 1) * keyringChunkBytes) := take_append_chunk blob i
  rw [KeyringSession.takeChunk, hbuffer]
  by_cases hlast : i + 1 = chunkCount blob.length
  · rw [take_last hlast, if_pos hlast]
    exact if_pos hlast
  · rw [if_neg hlast]
    exact if_neg hlast

/-- A chunk in its turn is taken; only the first may be refused. -/
theorem handleKeyringPut_chunkOf (ss : KeyringSession) (s : RelayStore) (hblob : blob ≠ [])
    (hmax : blob.length ≤ maxKeyringBytes) (hi : i < chunkCount blob.length) (hup : i = 0 ∨ up = uploadAt blob i) :
    (∃ e up', ss.handleKeyringPut (chunkOf blob i) s up = (.error e, s, up')) ∨
      ss.handleKeyringPut (chunkOf blob i) s up =
        if i + 1 = chunkCount blob.length then (.ok, s.putKeyring ss.mailbox blob ss.now, {})
        else (.ok, s, uploadAt blob (i + 1)) := by
  have hmalformed : (!(chunkOf blob i).wellFormed || decide ((chunkOf blob i).count = 0)) = false := by
    have hcount : (chunkOf blob i).count ≠ 0 := Nat.ne_of_gt (chunkCount_pos hblob)
    simp [wellFormed_chunkOf hblob hmax hi, hcount]
  rw [← takeChunk_chunkOf, KeyringSession.handleKeyringPut, hmalformed, if_neg Bool.false_ne_true]
  rcases Nat.eq_zero_or_pos i with rfl | hpos
  · rw [if_pos (show (chunkOf blob 0).index = 0 from rfl)]
    split_ifs
    · exact .inl ⟨_, _, rfl⟩
    · exact .inl ⟨_, _, rfl⟩
    · refine .inr (congrArg _ ?_)
      simp [uploadAt, chunkOf]
  · obtain rfl : up = uploadAt blob i := hup.resolve_left (by omega)
    rw [if_neg (show (chunkOf blob i).index ≠ 0 from Nat.ne_of_gt hpos),
      if_neg (by simp [chunkOf, uploadAt])]
    exact .inr rfl

/-- From any chunk on, the relay keeps what it had until it has stored the whole keyring. -/
theorem sendChunks_store (hblob : blob ≠ []) (hmax : blob.length ≤ maxKeyringBytes) (n : ℕ)
    (hn : i + (n + 1) = chunkCount blob.length) (hup : i = 0 ∨ up = uploadAt blob i)
    (hops : List Hop) :
    ss.sendChunks ((List.range' i (n + 1)).map (chunkOf blob)) hops s up = (false, s) ∨
      (ss.sendChunks ((List.range' i (n + 1)).map (chunkOf blob)) hops s up).2 =
        s.putKeyring ss.mailbox blob ss.now := by
  induction n generalizing i up hops with
  | zero =>
    have hput := handleKeyringPut_chunkOf ss s hblob hmax (show i < _ by omega) hup
    rw [if_pos (by omega)] at hput
    match hops with
    | [] => exact .inl rfl
    | .requestLost :: _ => exact .inl rfl
    | .replyLost :: hops =>
      rcases hput with ⟨e, up', hput⟩ | hput
      · exact .inl (congrArg (fun r => (false, r.2.1)) hput)
      · exact .inr (congrArg (fun r => r.2.1) hput)
    | .through :: hops =>
      change KeyringSession.sendChunks ss [chunkOf blob i] _ s up = _ ∨
        (KeyringSession.sendChunks ss [chunkOf blob i] _ s up).2 = _
      rw [KeyringSession.sendChunks]
      rcases hput with ⟨e, up', hput⟩ | hput <;> rw [hput]
      · exact .inl rfl
      · exact .inr rfl
  | succ n ih =>
    have hput := handleKeyringPut_chunkOf ss s hblob hmax (show i < _ by omega) hup
    rw [if_neg (by omega)] at hput
    rw [List.range'_succ, List.map_cons]
    match hops with
    | [] => exact .inl rfl
    | .requestLost :: _ => exact .inl rfl
    | .replyLost :: hops =>
      rcases hput with ⟨e, up', hput⟩ | hput <;>
        exact .inl (congrArg (fun r => (false, r.2.1)) hput)
    | .through :: hops =>
      rw [KeyringSession.sendChunks]
      rcases hput with ⟨e, up', hput⟩ | hput <;> rw [hput]
      · exact .inl rfl
      · exact ih (by omega) (.inr rfl) hops

/-- Storing a keyring is all or nothing, and success means all. -/
theorem store_putKeyring (ss : KeyringSession) (blob : Bytes) (hops : List Hop) (s : RelayStore) :
    ss.putKeyring blob hops s = (false, s) ∨
      (ss.putKeyring blob hops s).2 = s.putKeyring ss.mailbox blob ss.now := by
  unfold KeyringSession.putKeyring
  split_ifs with hsize
  · exact .inl rfl
  · obtain ⟨hblob, hmax⟩ := not_or.1 hsize
    have hpos := chunkCount_pos hblob
    have h := @sendChunks_store blob 0 ss s {} hblob (not_lt.1 hmax)
      (chunkCount blob.length - 1) (by omega) (.inl rfl) hops
    rwa [Nat.sub_add_cancel hpos, ← List.range_eq_range'] at h

/-! ## Fetching -/

/-- The client's state after the first `i` chunks. -/
def downloadAt (blob : Bytes) (i : ℕ) : KeyringDownload where
  total := blob.length
  count := chunkCount blob.length
  next := i
  blob := blob.take (i * keyringChunkBytes)

theorem readChunks_chunks (n k : ℕ) (hn : i + n = chunkCount blob.length) {d : KeyringDownload}
    (hd : d = downloadAt blob i ∨ i = 0 ∧ d = {}) {r : Option Bytes}
    (h : readChunks d (((List.range' i n).map (chunkOf blob)).take k) = some r) : r = some blob := by
  induction n generalizing i d k with
  | zero => simp [readChunks] at h
  | succ n ih =>
    cases k with
    | zero => simp [readChunks] at h
    | succ k =>
      rw [List.range'_succ, List.map_cons, List.take_succ_cons, readChunks] at h
      have hcount : (chunkOf blob i).count ≠ 0 :=
        show chunkCount blob.length ≠ 0 by omega
      have hstart : (if d.next = 0 then
          { d with total := (chunkOf blob i).totalSize, count := (chunkOf blob i).count }
          else d) = downloadAt blob i := by
        rcases hd with rfl | ⟨rfl, rfl⟩
        · exact ite_id _
        · simp [downloadAt, chunkOf]
      have hnext : (downloadAt blob i).blob ++ (chunkOf blob i).data =
          (downloadAt blob (i + 1)).blob := take_append_chunk blob i
      simp only [hcount, if_false, hstart, hnext] at h
      split_ifs at h with _ _ hlast
      · rw [← Option.some.inj h]
        exact congrArg some (take_last hlast)
      · exact ih (i := i + 1) k (by omega) (.inl rfl) h

/-- A fetch that does not fail returns what the relay holds. -/
theorem getKeyring_eq {mailbox : Bytes} {arrived : ℕ} {r : Option Bytes}
    (h : getKeyring s mailbox arrived = some r) : r = s.getKeyring mailbox := by
  unfold getKeyring keyringAnswer at h
  cases hs : s.getKeyring mailbox with
  | none =>
    rw [hs] at h
    cases arrived with
    | zero => exact nomatch h
    | succ k => exact (Option.some.inj h).symm
  | some blob =>
    rw [hs] at h
    dsimp only at h
    rw [chunksOf, List.range_eq_range'] at h
    exact readChunks_chunks _ _ (Nat.zero_add _) (.inr ⟨rfl, rfl⟩) h

end PqSuite.Relay
