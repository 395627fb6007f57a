import PqSuite.Protocol.Mailbox

/-!
# Messages of an attachment (`relay_protocol.h`)

A file goes up in chunks, is fetched with a recipient's token, and is used up with it.
-/

namespace PqSuite.Relay

def fileIdBytes : Nat := 16
def fileTokenBytes : Nat := 32
def maxFileTokens : Nat := 16
def maxFileChunkBytes : Nat := 64 * 1024
def minFileChunkBytes : Nat := 4096
def maxFileBytes : Nat := 16 * 1024 * 1024 * 1024
def fileAckWindow : Nat := 64

/-- A file about to come. A value of the type is one the decoder can return: the chunk count is what
the total and the chunk size need, and every recipient has a token of their own. -/
structure FileBegin where
  fileId : Bytes
  totalSize : UInt64
  chunkSize : UInt32
  chunkCount : UInt32
  expiresAt : UInt64
  tokenHashes : List Digest
  total_size : 1 ≤ totalSize.toNat ∧ totalSize.toNat ≤ maxFileBytes
  chunk_size : 1 ≤ chunkSize.toNat ∧ chunkSize.toNat ≤ maxFileChunkBytes
  chunk_count : chunkCount.toNat = (totalSize.toNat + chunkSize.toNat - 1) / chunkSize.toNat
  not_tiny : minFileChunkBytes ≤ chunkSize.toNat ∨ chunkCount = 1
  tokens_size : 1 ≤ tokenHashes.length ∧ tokenHashes.length ≤ maxFileTokens
  tokens_nodup : tokenHashes.Nodup

def encodeFileBegin (m : FileBegin) : Bytes :=
  writeBlob m.fileId ++ writeU64 m.totalSize ++ writeU32 m.chunkSize ++ writeU32 m.chunkCount ++
    writeU64 m.expiresAt ++ writeU32 (UInt32.ofNat m.tokenHashes.length) ++
    m.tokenHashes.flatMap fun h => writeBlob h.1

structure FileChunk where
  index : UInt32
  data : Bytes

structure FileDownload where
  fileId : Bytes
  token : Bytes
  fromChunk : UInt32

structure FileRedeem where
  fileId : Bytes
  token : Bytes

def decodeFileBegin (bytes : Bytes) : Option FileBegin := do
  let (fileId, rest) ← fixedBlob bytes fileIdBytes
  let (total, rest) ← readU64 rest
  let (chunkSize, rest) ← readU32 rest
  let (count, rest) ← readU32 rest
  let (expires, rest) ← readU64 rest
  let (tokens, rest) ← readU32 rest
  let (hashes, rest) ← readDigests tokens.toNat rest
  if rest ≠ [] then none
  else if h : (1 ≤ total.toNat ∧ total.toNat ≤ maxFileBytes) ∧
      (1 ≤ chunkSize.toNat ∧ chunkSize.toNat ≤ maxFileChunkBytes) ∧
      count.toNat = (total.toNat + chunkSize.toNat - 1) / chunkSize.toNat ∧
      (minFileChunkBytes ≤ chunkSize.toNat ∨ count = 1) ∧
      (1 ≤ hashes.length ∧ hashes.length ≤ maxFileTokens) ∧ hashes.Nodup then
    return ⟨fileId, total, chunkSize, count, expires, hashes, h.1, h.2.1, h.2.2.1, h.2.2.2.1,
      h.2.2.2.2.1, h.2.2.2.2.2⟩
  else none

def decodeFileChunk (bytes : Bytes) : Option FileChunk := do
  let (index, rest) ← readU32 bytes
  let (data, rest) ← readBlob rest maxFileChunkBytes
  if data = [] ∨ rest ≠ [] then none else return ⟨index, data⟩

def encodeFileChunk (index : UInt32) (data : Bytes) : Bytes := writeU32 index ++ writeBlob data

def decodeFileDownload (bytes : Bytes) : Option FileDownload := do
  let (fileId, rest) ← fixedBlob bytes fileIdBytes
  let (token, rest) ← fixedBlob rest fileTokenBytes
  let (fromChunk, rest) ← readU32 rest
  if rest ≠ [] then none else return ⟨fileId, token, fromChunk⟩

def encodeFileDownload (m : FileDownload) : Bytes :=
  writeBlob m.fileId ++ writeBlob m.token ++ writeU32 m.fromChunk

def encodeFileRedeem (m : FileRedeem) : Bytes := writeBlob m.fileId ++ writeBlob m.token

def encodeFileRef (fileId : Bytes) : Bytes := writeBlob fileId

def decodeFileRedeem (bytes : Bytes) : Option FileRedeem := do
  let (fileId, rest) ← fixedBlob bytes fileIdBytes
  let (token, rest) ← fixedBlob rest fileTokenBytes
  if rest ≠ [] then none else return ⟨fileId, token⟩

/-- Which file a cancel or a status request is about. -/
def decodeFileRef (bytes : Bytes) : Option Bytes := do
  let (fileId, rest) ← fixedBlob bytes fileIdBytes
  if rest ≠ [] then none else return fileId

/-- What a downloader is told of a file before its chunks. -/
structure FileInfo where
  totalSize : UInt64
  chunkSize : UInt32
  chunkCount : UInt32
  expiresAt : UInt64

structure FileStatus where
  tokensTotal : UInt32
  tokensRedeemed : UInt32
  expiresAt : UInt64
  /-- Fully uploaded. -/
  ready : Bool

def encodeFileInfo (totalSize : UInt64) (chunkSize chunkCount : UInt32) (expiresAt : UInt64) :
    Bytes :=
  writeU64 totalSize ++ writeU32 chunkSize ++ writeU32 chunkCount ++ writeU64 expiresAt

def decodeFileInfo (bytes : Bytes) : Option FileInfo := do
  let (total, rest) ← readU64 bytes
  let (chunkSize, rest) ← readU32 rest
  let (count, rest) ← readU32 rest
  let (expires, rest) ← readU64 rest
  if rest ≠ [] then none
  else if total.toNat < 1 ∨ total.toNat > maxFileBytes ∨ chunkSize.toNat < 1 ∨
      chunkSize.toNat > maxFileChunkBytes ∨
      count.toNat ≠ (total.toNat + chunkSize.toNat - 1) / chunkSize.toNat then none
  else return ⟨total, chunkSize, count, expires⟩

def encodeFileStatus (tokensTotal tokensRedeemed : UInt32) (expiresAt : UInt64) (ready : Bool) :
    Bytes :=
  writeU32 tokensTotal ++ writeU32 tokensRedeemed ++ writeU64 expiresAt ++
    writeU32 (if ready then 1 else 0)

def decodeFileStatus (bytes : Bytes) : Option FileStatus := do
  let (total, rest) ← readU32 bytes
  let (redeemed, rest) ← readU32 rest
  let (expires, rest) ← readU64 rest
  let (ready, rest) ← readU32 rest
  if ready > 1 ∨ redeemed > total ∨ total.toNat > maxFileTokens ∨ rest ≠ [] then none
  else return ⟨total, redeemed, expires, ready = 1⟩

end PqSuite.Relay
