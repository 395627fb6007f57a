import PqSuite.Protocol.Files
import PqSuite.Server.Store

/-!
# Attachments on the relay (`relay_store.cpp`, `relay_service.cpp`)

A file's record and its recipients' token hashes are rows; its bytes are in the files folder, under a
name with the ending `.part` while they arrive and `.bin` when all have.
-/

namespace PqSuite.Relay

namespace RelayStore

inductive BeginFileResult where
  | ok
  | noSuchMailbox
  | exists
  | quotaExceeded
  deriving DecidableEq

inductive TokenCheck where
  | ok
  | noSuchFile
  | notReady
  | expired
  | badToken
  | alreadyRedeemed
  deriving DecidableEq

/-- A redemption; the last one of a file takes its record with it. -/
inductive RedeemResult where
  | ok (allRedeemed : Bool)
  | noSuchFile
  | badToken
  | alreadyRedeemed
  deriving DecidableEq

structure FileMeta where
  owner : Bytes
  totalSize : UInt64
  chunkSize : UInt32
  chunkCount : UInt32
  expiresAt : Time
  ready : Bool
  tokensTotal : UInt32
  tokensRedeemed : UInt32

def findFile (s : RelayStore) (fileId : Bytes) : Option FileRow :=
  Rows.lookup FileRow.id fileId s.files

def tokensOf (s : RelayStore) (fileId : Bytes) : List FileTokenRow :=
  s.fileTokens.filter (·.fileId = fileId)

def deleteFiles (s : RelayStore) (p : FileRow → Bool) : RelayStore :=
  let gone := fun id => s.files.any fun f => f.id = id ∧ p f
  { s with
    files := s.files.filter fun f => !p f
    fileTokens := s.fileTokens.filter fun t => !gone t.fileId }

def endFiles (s : RelayStore) (p : FileRow → Bool) : RelayStore :=
  { s.deleteFiles p with uploads := s.uploads.end (s.files.filter p) }

def beginFile (s : RelayStore) (owner : Bytes) (m : FileBegin) (now : Time) (quotaBytes : Nat) :
    BeginFileResult × RelayStore :=
  if (s.accessKey owner).isNone then (.noSuchMailbox, s)
  else if (s.findFile m.fileId).isSome then (.exists, s)
  else if ((s.files.filter (·.owner = owner)).map (·.totalSize.toNat)).sum + m.totalSize.toNat >
      quotaBytes then (.quotaExceeded, s)
  else
    (.ok, { s with
      files := s.files ++ [⟨m.fileId, owner, m.totalSize, m.chunkSize, m.chunkCount,
        m.expiresAt.toInt64.toInt, now, false, s.uploads.begun⟩]
      fileTokens := s.fileTokens ++ m.tokenHashes.map fun h => ⟨m.fileId, h, false⟩
      uploads := { s.uploads with begun := s.uploads.begun + 1 } })

def finishFile (s : RelayStore) (fileId : Bytes) : RelayStore :=
  { s with files := s.files.map fun f => if f.id = fileId then { f with ready := true } else f }

def file (s : RelayStore) (fileId : Bytes) : Option FileMeta :=
  (s.findFile fileId).map fun f =>
    ⟨f.owner, f.totalSize, f.chunkSize, f.chunkCount, f.expiresAt, f.ready,
      UInt32.ofNat (s.tokensOf fileId).length,
      UInt32.ofNat ((s.tokensOf fileId).filter (·.redeemed)).length⟩

def checkFileToken (s : RelayStore) (fileId : Bytes) (tokenHash : Digest) (now : Time) :
    TokenCheck :=
  match s.findFile fileId with
  | none => .noSuchFile
  | some f =>
    match (s.tokensOf fileId).find? (·.tokenHash = tokenHash) with
    | none => .badToken
    | some t =>
      if t.redeemed then .alreadyRedeemed
      else if !f.ready then .notReady
      else if f.expiresAt ≤ now then .expired
      else .ok

def redeemFileToken (s : RelayStore) (fileId : Bytes) (tokenHash : Digest) :
    RedeemResult × RelayStore :=
  if (s.findFile fileId).isNone then (.noSuchFile, s)
  else
    match (s.tokensOf fileId).find? (·.tokenHash = tokenHash) with
    | none => (.badToken, s)
    | some t =>
      if t.redeemed then (.alreadyRedeemed, s)
      else
        let used := fun t : FileTokenRow =>
          if t.fileId = fileId ∧ t.tokenHash = tokenHash then { t with redeemed := true } else t
        let s := { s with fileTokens := s.fileTokens.map used }
        if (s.tokensOf fileId).all (·.redeemed) then
          (.ok true, s.endFiles fun f => f.id = fileId)
        else (.ok false, s)

/-- Deletes a file's record. With an owner only that mailbox's file goes, and it was cancelled. -/
def deleteFile (s : RelayStore) (fileId owner : Bytes) : Bool × RelayStore :=
  if owner = [] then (s.files.any (·.id = fileId), s.deleteFiles (·.id = fileId))
  else
    let mine := fun f : FileRow => f.id = fileId ∧ f.owner = owner
    (s.files.any fun f => mine f, s.endFiles fun f => mine f)

/-- Removes the records of expired files and abandoned uploads and says which they were. -/
def sweepFiles (s : RelayStore) (now abandonedBefore : Time) : List Bytes × RelayStore :=
  let gone := fun f : FileRow => f.expiresAt ≤ now ∨ (f.ready = false ∧ f.createdAt ≤ abandonedBefore)
  ((s.files.filter fun f => gone f).map (·.id),
    { s.deleteFiles (fun f => gone f) with
      uploads := s.uploads.end (s.files.filter (·.expiresAt ≤ now)) })

def allFileIds (s : RelayStore) : List Bytes := s.files.map (·.id)

end RelayStore

/-! ## The files folder -/

/-- A name in the folder is a file's ID with one of these endings. -/
inductive FileEnding where
  | bin
  | part
  deriving DecidableEq

namespace Disk

/-- Opens the temporary file of an upload: a file of that name is emptied, or a new one made. -/
def openPart (d : Disk) (fileId : Bytes) : Nat × Disk :=
  match d.part fileId with
  | some file => (file, { d with content := Function.update d.content file [] })
  | none =>
    (d.made, { d with
      part := Function.update d.part fileId (some d.made)
      content := Function.update d.content d.made []
      made := d.made + 1 })

/-- Puts bytes at a place of an open file; a gap before it reads as zeros. -/
def write (d : Disk) (file offset : Nat) (data : Bytes) : Disk :=
  let old := d.content file
  let new := old.take offset ++ List.replicate (offset - old.length) 0 ++ data ++
    old.drop (offset + data.length)
  { d with content := Function.update d.content file new }

/-- Closing writes out what is still buffered; what the disk has no room for is lost. -/
def close (d : Disk) (file : Nat) : Disk :=
  match d.health.keeps with
  | none => d
  | some size => { d with content := Function.update d.content file ((d.content file).take size) }

def remove (d : Disk) (ending : FileEnding) (fileId : Bytes) : Disk :=
  match ending with
  | .part => { d with part := Function.update d.part fileId none }
  | .bin => { d with bin := Function.update d.bin fileId none }

/-- Gives a finished upload its name; `none` if it cannot be done. -/
def rename (d : Disk) (fileId : Bytes) : Option Disk :=
  match d.part fileId with
  | none => none
  | some file =>
    if d.health.renames then
      some { d with
        bin := Function.update d.bin fileId (some file)
        part := Function.update d.part fileId none }
    else none

def stored (d : Disk) (fileId : Bytes) : Option Bytes := (d.bin fileId).map d.content

end Disk

end PqSuite.Relay
