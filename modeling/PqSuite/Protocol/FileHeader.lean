import PqSuite.Protocol.Wire

/-!
# The file protocol of `protocol.cpp`

A file travels as a header, which is all the relay can read, and chunks. The names of the file and of
its sender are in the metadata, sealed into the header, with the sender's signature over the header's
public fields.
-/

namespace PqSuite.FileProtocol

def protocolMagic : UInt32 := 0x50514654
def protocolVersion : UInt32 := 2
def minChunkSize : ℕ := 4 * 1024
def maxChunkSize : ℕ := 1024 * 1024
def maxFileSize : ℕ := 16 * 1024 * 1024 * 1024
def maxHeaderMessage : ℕ := 64 * 1024
def aeadTagSize : ℕ := 16
def nonceSize : ℕ := 12
def maxKemCiphertextSize : ℕ := 4096
def maxSealedMetadataSize : ℕ := 16 * 1024
def maxFilenameBytes : ℕ := 255
def maxFingerprintChars : ℕ := 128
def maxSignatureSize : ℕ := 8192

structure FileHeader where
  fileSize : UInt64
  chunkSize : UInt32
  totalChunks : UInt32
  kemCiphertext : Bytes
  nonce : Bytes
  sealedMetadata : Bytes
  deriving DecidableEq

structure FileMetadata where
  filename : Bytes
  senderFingerprint : Bytes
  signature : Bytes

/-- The ciphertext of a chunk ends with its tag. -/
structure FileChunk where
  chunkIndex : UInt32
  data : Bytes

/-! ## The header -/

def serializeHeaderPublicFields (h : FileHeader) : Bytes :=
  writeU32 protocolMagic ++ writeU32 protocolVersion ++ writeU64 h.fileSize ++
    writeU32 h.chunkSize ++ writeU32 h.totalChunks ++ writeBlob h.kemCiphertext ++ writeBlob h.nonce

def serializeFileHeader (h : FileHeader) : Bytes :=
  serializeHeaderPublicFields h ++ writeBlob h.sealedMetadata

def deserializeFileHeader (bytes : Bytes) : Option FileHeader := do
  let (magic, rest) ← readU32 bytes
  if magic ≠ protocolMagic then none else
  let (version, rest) ← readU32 rest
  if version ≠ protocolVersion then none else
  let (fileSize, rest) ← readU64 rest
  let (chunkSize, rest) ← readU32 rest
  let (totalChunks, rest) ← readU32 rest
  let (kemCiphertext, rest) ← readBlob rest maxKemCiphertextSize
  let (nonce, rest) ← readBlob rest nonceSize
  let (sealedMetadata, rest) ← readBlob rest maxSealedMetadataSize
  if rest ≠ [] then none
  else return ⟨fileSize, chunkSize, totalChunks, kemCiphertext, nonce, sealedMetadata⟩

/-- An empty file has one chunk. -/
def expectedTotalChunks (fileSize : UInt64) (chunkSize : UInt32) : UInt32 :=
  if chunkSize = 0 then 0
  else if fileSize = 0 then 1
  else ((fileSize + chunkSize.toUInt64 - 1) / chunkSize.toUInt64).toUInt32

def validateFileHeader (h : FileHeader) : String :=
  if h.chunkSize.toNat < minChunkSize ∨ h.chunkSize.toNat > maxChunkSize then "Invalid chunk size"
  else if h.fileSize.toNat > maxFileSize then "File is larger than the 16 GiB limit"
  else if h.totalChunks ≠ expectedTotalChunks h.fileSize h.chunkSize then
    "Chunk count does not match file size"
  else if h.nonce.length ≠ nonceSize then "Invalid nonce"
  else if h.kemCiphertext = [] then "Missing key encapsulation"
  else if h.sealedMetadata.length < aeadTagSize then "Missing encrypted metadata"
  else ""

def expectedChunkPlaintextSize (h : FileHeader) (index : ℕ) : ℕ :=
  let start := index * h.chunkSize.toNat
  if start ≥ h.fileSize.toNat then 0 else min h.chunkSize.toNat (h.fileSize.toNat - start)

/-! ## Sealed metadata -/

def serializeFileMetadata (m : FileMetadata) : Bytes :=
  writeString m.filename ++ writeString m.senderFingerprint ++ writeBlob m.signature

def deserializeFileMetadata (bytes : Bytes) : Option FileMetadata := do
  let (filename, rest) ← readString bytes maxFilenameBytes
  let (fingerprint, rest) ← readString rest maxFingerprintChars
  let (signature, rest) ← readBlob rest maxSignatureSize
  if rest ≠ [] then none else return ⟨filename, fingerprint, signature⟩

/-! ## Chunks -/

def serializeFileChunk (c : FileChunk) : Bytes := writeU32 c.chunkIndex ++ writeBlob c.data

def deserializeFileChunk (bytes : Bytes) : Option FileChunk := do
  let (index, rest) ← readU32 bytes
  let (data, rest) ← readBlob rest (maxChunkSize + aeadTagSize)
  if rest ≠ [] then none else return ⟨index, data⟩

/-! ## What the sender signs -/

def signatureContext : Bytes := ascii "pq-file-transfer v2 header signature"

/-- `build_signing_payload` of `transfer_engine.cpp`: the public header and the sealed fields. -/
def buildSigningPayload (publicFields filename senderFingerprint : Bytes) : Bytes :=
  writeString signatureContext ++ writeBlob publicFields ++ writeString filename ++
    writeString senderFingerprint

end PqSuite.FileProtocol
