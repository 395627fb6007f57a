import PqSuite.Server.Store

/-!
# Keyrings on the relay (`relay_store.cpp`, `relay_service.cpp`)

A mailbox has one keyring, a sealed blob. It arrives in chunks, kept apart in the session until the
last one, so that a dropped connection changes nothing; the last one replaces what was stored.
-/

namespace PqSuite.Relay

def keyringChunkBytes : ℕ := 48 * 1024
def maxKeyringBytes : ℕ := 16 * 1024 * 1024

/-- A count of 0 stands for no keyring. -/
structure KeyringChunk where
  totalSize : ℕ := 0
  index : ℕ := 0
  count : ℕ := 0
  data : Bytes := []
  deriving DecidableEq

def chunkCount (size : ℕ) : ℕ := (size + keyringChunkBytes - 1) / keyringChunkBytes

/-- What `decode_keyring_chunk` insists on. -/
def KeyringChunk.wellFormed (c : KeyringChunk) : Bool :=
  if c.totalSize = 0 then c.index = 0 && c.count = 0 && c.data = []
  else
    c.totalSize ≤ maxKeyringBytes && c.count = chunkCount c.totalSize && c.index < c.count &&
      c.data.length =
        if c.index + 1 < c.count then keyringChunkBytes
        else c.totalSize - keyringChunkBytes * (c.count - 1)

def encodeKeyringChunk (c : KeyringChunk) : Bytes :=
  writeU32 (UInt32.ofNat c.totalSize) ++ writeU32 (UInt32.ofNat c.index) ++
    writeU32 (UInt32.ofNat c.count) ++ writeBlob c.data

def decodeKeyringChunk (bytes : Bytes) : Option KeyringChunk := do
  let (total, rest) ← readU32 bytes
  let (index, rest) ← readU32 rest
  let (count, rest) ← readU32 rest
  let (data, rest) ← readBlob rest keyringChunkBytes
  let c : KeyringChunk := ⟨total.toNat, index.toNat, count.toNat, data⟩
  if rest ≠ [] ∨ c.wellFormed = false then none else return c

/-- The chunk with the given index, as both sides cut a keyring. -/
def chunkOf (blob : Bytes) (i : ℕ) : KeyringChunk where
  totalSize := blob.length
  index := i
  count := chunkCount blob.length
  data := (blob.drop (i * keyringChunkBytes)).take keyringChunkBytes

def chunksOf (blob : Bytes) : List KeyringChunk :=
  (List.range (chunkCount blob.length)).map (chunkOf blob)

namespace RelayStore

def putKeyring (s : RelayStore) (mailboxId blob : Bytes) (now : Time) : RelayStore :=
  { s with keyrings := s.keyrings.filter (·.mailboxId ≠ mailboxId) ++ [⟨mailboxId, blob, now⟩] }

def getKeyring (s : RelayStore) (mailboxId : Bytes) : Option Bytes :=
  (Rows.lookup KeyringRow.mailboxId mailboxId s.keyrings).map (·.blob)

theorem getKeyring_putKeyring (s : RelayStore) (mb mb' blob : Bytes) (now : Time) :
    (s.putKeyring mb blob now).getKeyring mb' = if mb' = mb then some blob else s.getKeyring mb' := by
  unfold getKeyring putKeyring Rows.lookup
  rw [List.find?_append]
  split_ifs with heq
  · subst heq
    have hnone : (s.keyrings.filter (·.mailboxId ≠ mb')).find? (·.mailboxId = mb') = none := by
      simp [List.find?_eq_none]
    rw [hnone]
    simp
  · have hlast : ([⟨mb, blob, now⟩] : List KeyringRow).find? (·.mailboxId = mb') = none := by
      simp [Ne.symm heq]
    rw [hlast, Option.or_none, List.find?_filter]
    congr 2
    funext r
    by_cases hr : r.mailboxId = mb' <;> simp [hr, heq]

end RelayStore

/-! ## A keyring arriving -/

structure KeyringUpload where
  active : Bool := false
  total : ℕ := 0
  count : ℕ := 0
  next : ℕ := 0
  buffer : Bytes := []
  deriving DecidableEq

inductive KeyringReply where
  | ok
  | error (message : String)
  deriving DecidableEq

/-- The relay's side of one upload: the mailbox that has signed in and the limits that apply. -/
structure KeyringSession where
  mailbox : Bytes
  keyringMaxBytes : ℕ
  /-- Whether the rate limit lets a new upload start. -/
  allow : Bool
  now : Time

namespace KeyringSession

variable (ss : KeyringSession)

def takeChunk (c : KeyringChunk) (s : RelayStore) (up : KeyringUpload) :
    KeyringReply × RelayStore × KeyringUpload :=
  let up := { up with buffer := up.buffer ++ c.data, next := up.next + 1 }
  if up.next = up.count then (.ok, s.putKeyring ss.mailbox up.buffer ss.now, {})
  else (.ok, s, up)

def handleKeyringPut (c : KeyringChunk) (s : RelayStore) (up : KeyringUpload) :
    KeyringReply × RelayStore × KeyringUpload :=
  if !c.wellFormed || c.count = 0 then (.error "Malformed keyring request", s, up)
  else if c.index = 0 then
    if !ss.allow then (.error "Too many requests, try again later", s, up)
    else if c.totalSize > ss.keyringMaxBytes then
      (.error ("Your keyring is larger than this relay allows (" ++
        toString (ss.keyringMaxBytes / 1024) ++ " KiB)"), s, {})
    else ss.takeChunk c s { active := true, total := c.totalSize, count := c.count }
  else if !up.active || c.index ≠ up.next || c.totalSize ≠ up.total || c.count ≠ up.count then
    (.error "Keyring chunks out of order", s, {})
  else ss.takeChunk c s up

end KeyringSession

end PqSuite.Relay
