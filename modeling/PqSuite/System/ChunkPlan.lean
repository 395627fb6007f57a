import Mathlib.Algebra.BigOperators.Group.List.Basic
import PqSuite.Client.Decryptor
import PqSuite.Server.UploadTurns

/-!
# The chunks of a file (`attachment.cpp`)

The sender cuts a file by the size of what is in it, and the relay reckons chunks by the size of what it
is sent, sixteen bytes more for each of them. The two agree for every file that may be sent: the relay
accepts the plan and expects of each chunk what the sender makes of it (`plan_agrees_with_relay`).
-/

namespace PqSuite.Attachment

open Relay

structure Plan where
  chunkCount : UInt32
  chunkSize : UInt32
  ciphertextSize : UInt64

def planFor (size : UInt64) : Except String Plan :=
  if size.toNat > maxPlaintextBytes then .error "That file is too large to send"
  else
    let count : UInt32 := if size = 0 then 1
      else ((size + UInt64.ofNat chunkPlaintextBytes - 1) / UInt64.ofNat chunkPlaintextBytes).toUInt32
    .ok
      { chunkCount := count
        chunkSize := UInt32.ofNat (chunkPlaintextBytes + tagBytes)
        ciphertextSize := size + count.toUInt64 * UInt64.ofNat tagBytes }

def sealChunk (C : SecretCrypto) (key fileId : Bytes) (index count : ℕ) (plain : Bytes) :
    Except String Bytes :=
  if key.length ≠ keyBytes then .error "The file key has the wrong size"
  else if fileId.length ≠ Attachment.fileIdBytes ∨ chunkPlaintextBytes < plain.length ∨ count = 0 ∨
      count ≤ index then .error "That chunk is not valid"
  else .ok (C.encrypt key (chunkNonce index) plain (chunkAad fileId index count))

/-- `Encryptor::chunk`. The file is what is found at its path, if it could be opened. -/
def encryptChunk (C : SecretCrypto) (key fileId : Bytes) (size : ℕ) (file : Option Bytes) (index : ℕ) :
    Except String Bytes :=
  match file with
  | none => .error "That file could not be opened"
  | some bytes =>
    if chunkCount size ≤ index then .error "That chunk is past the end of the file"
    else
      let want := plainSizeOfChunk size index
      let plain := (bytes.drop (index * chunkPlaintextBytes)).take want
      if plain.length ≠ want then .error "The file changed while it was being sent"
      else sealChunk C key fileId index (chunkCount size) plain

def announce (plan : Plan) (fileId : Bytes) (expiresAt : UInt64) (hashes : List Digest) : Bytes :=
  writeBlob fileId ++ writeU64 plan.ciphertextSize ++ writeU32 plan.chunkSize ++
    writeU32 plan.chunkCount ++ writeU64 expiresAt ++ writeU32 (UInt32.ofNat hashes.length) ++
    hashes.flatMap fun h => writeBlob h.1

variable {size : UInt64} {n i : ℕ}

/-! ## In whole numbers -/

theorem chunkCount_pos (n : ℕ) : 0 < chunkCount n := by
  unfold chunkCount chunkPlaintextBytes
  split_ifs with h
  · exact Nat.one_pos
  · omega

theorem chunkCount_bounds (n : ℕ) : chunkPlaintextBytes * (chunkCount n - 1) ≤ n ∧
    n ≤ chunkPlaintextBytes * chunkCount n := by
  unfold chunkCount chunkPlaintextBytes
  split_ifs with h <;> omega

theorem plainSizeOfChunk_le (n i : ℕ) : plainSizeOfChunk n i ≤ chunkPlaintextBytes := by
  have hpos := chunkCount_pos n
  have hle := (chunkCount_bounds n).2
  unfold plainSizeOfChunk
  split_ifs
  · exact le_rfl
  · have hsplit : chunkPlaintextBytes * chunkCount n =
        chunkPlaintextBytes * (chunkCount n - 1) + chunkPlaintextBytes := by
      rw [Nat.mul_sub_one, Nat.sub_add_cancel (Nat.le_mul_of_pos_right _ hpos)]
    omega

theorem plainSizeOfChunk_end (hi : i < chunkCount n) :
    i * chunkPlaintextBytes + plainSizeOfChunk n i ≤ n := by
  have hle := (chunkCount_bounds n).1
  unfold plainSizeOfChunk
  split_ifs with hmore
  · have hfull : chunkPlaintextBytes * (i + 1) ≤ chunkPlaintextBytes * (chunkCount n - 1) :=
      Nat.mul_le_mul_left _ (by omega)
    rw [Nat.mul_add, Nat.mul_one, Nat.mul_comm] at hfull
    omega
  · have hlast : i = chunkCount n - 1 := by omega
    rw [hlast, Nat.mul_comm]
    omega

/-- What the first chunks add up to, as long as the last is not among them. -/
theorem sum_plainSizes_of_lt {k : ℕ} (hk : k < chunkCount n) :
    ((List.range k).map (plainSizeOfChunk n)).sum = k * chunkPlaintextBytes := by
  induction k with
  | zero => rw [List.range_zero, List.map_nil, List.sum_nil, Nat.zero_mul]
  | succ k ih =>
    rw [List.range_succ, List.map_append, List.sum_append, ih (by omega), List.map_singleton,
      List.sum_singleton, plainSizeOfChunk, if_pos hk, Nat.succ_mul]

theorem sum_plainSizes (n : ℕ) : ((List.range (chunkCount n)).map (plainSizeOfChunk n)).sum = n := by
  have hpos := chunkCount_pos n
  have hle := (chunkCount_bounds n).1
  have hcount : chunkCount n = chunkCount n - 1 + 1 := by omega
  rw [hcount, List.range_succ, List.map_append, List.sum_append, sum_plainSizes_of_lt (by omega),
    List.map_singleton, List.sum_singleton, plainSizeOfChunk, if_neg (by omega), Nat.mul_comm]
  omega

theorem sum_sealedSizes (n : ℕ) :
    ((List.range (chunkCount n)).map fun i => plainSizeOfChunk n i + tagBytes).sum =
      n + chunkCount n * tagBytes := by
  rw [List.sum_map_add, sum_plainSizes, List.map_const', List.sum_replicate_nat, List.length_range]

/-! ## In the source's widths -/

theorem chunkCount_lt (h : n ≤ maxPlaintextBytes) : chunkCount n ≤ 327680 := by
  unfold maxPlaintextBytes at h
  unfold chunkCount chunkPlaintextBytes
  split_ifs <;> omega

/-- No width of the plan is exceeded. -/
theorem planFor_eq (h : size.toNat ≤ maxPlaintextBytes) : ∃ plan, planFor size = .ok plan ∧
    plan.chunkCount.toNat = chunkCount size.toNat ∧
    plan.chunkSize.toNat = chunkPlaintextBytes + tagBytes ∧
    plan.ciphertextSize.toNat = size.toNat + chunkCount size.toNat * tagBytes := by
  have hcount := chunkCount_lt h
  refine ⟨_, if_neg (Nat.not_lt.2 h), ?_⟩
  have hvalue : (if size = 0 then (1 : UInt32) else ((size + UInt64.ofNat chunkPlaintextBytes - 1) /
      UInt64.ofNat chunkPlaintextBytes).toUInt32).toNat = chunkCount size.toNat := by
    unfold maxPlaintextBytes at h
    unfold chunkCount at hcount ⊢
    by_cases hzero : size = 0
    · subst hzero
      rfl
    · have hne : size.toNat ≠ 0 := fun h => hzero (UInt64.toNat_inj.1 h)
      rw [if_neg hzero, if_neg hne]
      unfold chunkPlaintextBytes at hcount ⊢
      rw [if_neg hne] at hcount
      simp only [UInt64.toNat_toUInt32, UInt64.toNat_div, UInt64.toNat_sub, UInt64.toNat_add,
        UInt64.toNat_ofNat', UInt64.toNat_one, Nat.reduceMul, Nat.reducePow, Nat.reduceMod,
        Nat.reduceSub] at hcount ⊢
      omega
  refine ⟨hvalue, rfl, ?_⟩
  simp only [UInt64.toNat_add, UInt64.toNat_mul, UInt32.toNat_toUInt64, hvalue, UInt64.toNat_ofNat']
  unfold maxPlaintextBytes at h
  unfold tagBytes
  omega

/-! ## What the relay makes of it -/

/-- The relay counts as many chunks as the sender, although it divides other sizes. -/
theorem count_of_sealed (n : ℕ) : chunkCount n =
    (n + chunkCount n * tagBytes + (chunkPlaintextBytes + tagBytes) - 1) /
      (chunkPlaintextBytes + tagBytes) := by
  have hpos := chunkCount_pos n
  have hbounds := chunkCount_bounds n
  unfold chunkPlaintextBytes tagBytes at *
  omega

/-- The size the relay expects is that of the sealed chunk. -/
theorem expected_eq {u : Upload} (hnext : u.next = i) (hcount : u.count = chunkCount n)
    (hsize : u.chunkSize = chunkPlaintextBytes + tagBytes)
    (htotal : u.total = n + chunkCount n * tagBytes) : u.expected = plainSizeOfChunk n i + tagBytes := by
  have hpos := chunkCount_pos n
  have hbounds := chunkCount_bounds n
  rw [Upload.expected, plainSizeOfChunk, hnext, hcount, hsize, htotal]
  split_ifs with hmore
  · rfl
  · unfold chunkPlaintextBytes tagBytes at *
    omega

theorem encryptChunk_ok (C : SecretCrypto) {key fileId file : Bytes} (hkey : key.length = keyBytes)
    (hid : fileId.length = Attachment.fileIdBytes) (hfile : file.length = n) (hi : i < chunkCount n) :
    ∃ sealed, encryptChunk C key fileId n (some file) i = .ok sealed ∧
      sealed.length = plainSizeOfChunk n i + tagBytes := by
  have hwithin := plainSizeOfChunk_end hi
  have hlength : ((file.drop (i * chunkPlaintextBytes)).take (plainSizeOfChunk n i)).length =
      plainSizeOfChunk n i := by
    rw [List.length_take, List.length_drop, hfile]
    omega
  have hvalid : ¬(fileId.length ≠ Attachment.fileIdBytes ∨ chunkPlaintextBytes <
      ((file.drop (i * chunkPlaintextBytes)).take (plainSizeOfChunk n i)).length ∨
      chunkCount n = 0 ∨ chunkCount n ≤ i) := by
    have hle := plainSizeOfChunk_le n i
    rw [hlength]
    omega
  refine ⟨C.encrypt key (chunkNonce i) ((file.drop (i * chunkPlaintextBytes)).take
    (plainSizeOfChunk n i)) (chunkAad fileId i (chunkCount n)), ?_, ?_⟩
  · dsimp only [encryptChunk]
    rw [if_neg (Nat.not_le.2 hi), if_neg (not_not.2 hlength), sealChunk, if_neg (not_not.2 hkey),
      if_neg hvalid]
  · rw [C.length_encrypt, hlength]
    rfl

/-- The relay decodes the announcement of every plan, expects of each chunk the size that the sender gives
it, and both sums come out: that of the sealed chunks at the size announced, that of the plain ones at the
size of the file. -/
theorem plan_agrees_with_relay (C : SecretCrypto) {key fileId file : Bytes} {expiresAt : UInt64}
    {hashes : List Digest} (hsize : size.toNat ≤ maxPlaintextBytes) (hkey : key.length = keyBytes)
    (hid : fileId.length = Attachment.fileIdBytes)
    (htokens : 1 ≤ hashes.length ∧ hashes.length ≤ maxFileTokens) (hnodup : hashes.Nodup)
    (hfile : file.length = size.toNat) :
    ∃ plan m, planFor size = .ok plan ∧ decodeFileBegin (announce plan fileId expiresAt hashes) = some m ∧
      m.totalSize = plan.ciphertextSize ∧ m.chunkSize = plan.chunkSize ∧ m.chunkCount = plan.chunkCount ∧
      (∀ i < plan.chunkCount.toNat, ∀ u : Upload, u.next = i → u.count = m.chunkCount.toNat →
        u.chunkSize = m.chunkSize.toNat → u.total = m.totalSize.toNat →
        ∃ sealed, encryptChunk C key fileId size.toNat (some file) i = .ok sealed ∧
          sealed.length = plainSizeOfChunk size.toNat i + tagBytes ∧ u.expected = sealed.length) ∧
      ((List.range plan.chunkCount.toNat).map fun i => plainSizeOfChunk size.toNat i + tagBytes).sum =
        plan.ciphertextSize.toNat ∧
      ((List.range plan.chunkCount.toNat).map (plainSizeOfChunk size.toNat)).sum = size.toNat := by
  obtain ⟨plan, hplan, hcount, hchunk, htotal⟩ := planFor_eq hsize
  have hpos := chunkCount_pos size.toNat
  have hlt := chunkCount_lt hsize
  have hsealed : 1 ≤ plan.ciphertextSize.toNat ∧ plan.ciphertextSize.toNat ≤ maxFileBytes := by
    rw [htotal]
    unfold maxPlaintextBytes at hsize
    unfold tagBytes maxFileBytes
    omega
  let m : FileBegin :=
    { fileId, expiresAt, tokenHashes := hashes
      totalSize := plan.ciphertextSize, chunkSize := plan.chunkSize, chunkCount := plan.chunkCount
      total_size := hsealed
      chunk_size := by rw [hchunk]; decide
      chunk_count := by rw [hcount, hchunk, htotal]; exact count_of_sealed _
      not_tiny := .inl (by rw [hchunk]; decide)
      tokens_size := htokens
      tokens_nodup := hnodup }
  refine ⟨plan, m, hplan, decodeFileBegin_eq_some.2 ⟨hid, rfl⟩, rfl, rfl, rfl, ?_, ?_, ?_⟩
  · intro i hi u hnext hu hs ht
    rw [hcount] at hi
    obtain ⟨sealed, hok, hlength⟩ := encryptChunk_ok C hkey hid hfile hi
    refine ⟨sealed, hok, hlength, ?_⟩
    rw [hlength]
    exact expected_eq hnext (hu.trans hcount) (hs.trans hchunk) (ht.trans htotal)
  · rw [hcount, htotal, sum_sealedSizes]
  · rw [hcount, sum_plainSizes]

/-- A full chunk and three bytes. -/
theorem plan_agrees_past_one_chunk : ∃ plan m, planFor 49155 = .ok plan ∧
    decodeFileBegin (announce plan (List.replicate 16 1) 0 [byteSum []]) = some m ∧
    plan.chunkCount = 2 ∧ m.totalSize.toNat = 49168 + 19 ∧
    ∀ i < 2, ∃ sealed, encryptChunk tagCrypto (List.replicate 32 0) (List.replicate 16 1) 49155
      (some (List.replicate 49155 5)) i = .ok sealed ∧ sealed.length = [49168, 19].getD i 0 := by
  obtain ⟨plan, m, hplan, hdecode, htotal, -, -, hchunks, -⟩ := @plan_agrees_with_relay 49155 tagCrypto
    (List.replicate 32 0) (List.replicate 16 1) (List.replicate 49155 5) 0 [byteSum []] (by decide) rfl rfl
    (by decide) (List.nodup_singleton _) List.length_replicate
  have hknown : plan = ⟨2, 49168, 49187⟩ := Except.ok.inj (hplan.symm.trans (by rfl))
  subst hknown
  refine ⟨_, m, hplan, hdecode, rfl, by rw [htotal]; rfl, fun i hi => ?_⟩
  obtain ⟨sealed, hok, hlength, -⟩ := hchunks i hi
    ⟨[], m.chunkCount.toNat, i, m.chunkSize.toNat, m.totalSize.toNat, 0, 0, 0⟩ rfl rfl rfl rfl
  refine ⟨sealed, hok, hlength.trans ?_⟩
  have hcases : ∀ i < 2, plainSizeOfChunk 49155 i + tagBytes = [49168, 19].getD i 0 := by decide
  exact hcases i hi

end PqSuite.Attachment
