import PqSuite.Client.KeyStore
import PqSuite.Client.MessageRecord
import PqSuite.Lib.Reach

/-!
# Saving an attachment (`attachment.cpp`)

The chunks of a file are opened one after the other and appended to a partial file, while a hash of them
is kept in memory. The next attempt cuts what an interrupted one left to whole chunks, reads it back and
carries on. When all chunks are there and the hash is the one the sender signed, the file gets its name.

What the file holds is not read again before that, and the disk may fail at every call: a failed write is
noticed, a failed `resize_file`, `flush` or `close` is not (`unchecked_calls_save_other_file`). As long
as none of those fails, a saved file is what was signed (`saved_has_signed_hash`).
-/

namespace PqSuite.Attachment

def keyBytes : ℕ := 32
def tagBytes : ℕ := 16
def fileIdBytes : ℕ := 16
def chunkPlaintextBytes : ℕ := 48 * 1024
def maxPlaintextBytes : ℕ := 15 * 1024 * 1024 * 1024

/-! ## Chunks -/

def chunkAad (fileId : Bytes) (index count : ℕ) : Bytes :=
  writeString (ascii "pq-suite v3 attachment chunk") ++ writeBlob fileId ++
    writeU32 (UInt32.ofNat index) ++ writeU32 (UInt32.ofNat count)

def chunkNonce (index : ℕ) : Bytes :=
  List.replicate 8 (0 : UInt8) ++ (List.range 4).map fun i => UInt8.ofNat (index >>> (8 * (3 - i)))

/-- `plan_for`: an empty file has one empty chunk. -/
def chunkCount (size : ℕ) : ℕ :=
  if size = 0 then 1 else (size + chunkPlaintextBytes - 1) / chunkPlaintextBytes

def plainSizeOfChunk (size index : ℕ) : ℕ :=
  if index + 1 < chunkCount size then chunkPlaintextBytes
  else size - chunkPlaintextBytes * (chunkCount size - 1)

def openChunk (C : SecretCrypto) (key fileId : Bytes) (index count : ℕ) (sealed : Bytes) : Option Bytes :=
  if key.length ≠ keyBytes ∨ fileId.length ≠ fileIdBytes ∨ count = 0 ∨ count ≤ index ∨
      sealed.length < tagBytes ∨ chunkPlaintextBytes + tagBytes < sealed.length then none
  else C.decrypt key (chunkNonce index) sealed (chunkAad fileId index count)

/-! ## The state of a download -/

/-- What is to be saved: the arguments of the constructor. -/
structure Job where
  key : Bytes
  fileId : Bytes
  size : ℕ
  sha256 : Bytes
  size_le : size ≤ maxPlaintextBytes

/-- `Sha256`: what was put in, until the hash is taken. -/
inductive Hashing where
  | running (bytes : Bytes)
  | finished

/-- `std::ofstream`. -/
structure Stream where
  isOpen : Bool := false
  good : Bool := true
  /-- Written to the stream, but perhaps not to the file yet. -/
  pending : Bytes := []

structure Decryptor where
  out : Stream := {}
  hash : Option Hashing := none
  next : ℕ := 0
  written : ℕ := 0
  /-- The partial file. -/
  part : Option Bytes
  /-- The files that got their final names, with what they held then. -/
  saved : List (Bytes × Bytes) := []

namespace Decryptor

/-- How a call to the stream ends: it succeeds, or it fails and leaves the file with these bytes. -/
abbrev Fault := Option Bytes

def writeOut (d : Decryptor) (data : Bytes) (fault : Fault) : Decryptor :=
  if data = [] then d
  else if d.out.isOpen = false then { d with out := { d.out with good := false } }
  else match fault with
    | none => { d with out := { d.out with pending := d.out.pending ++ data } }
    | some left => { d with part := d.part.map fun _ => left, out := ⟨true, false, []⟩ }

/-- A stream that has failed is not flushed. -/
def flushOut (d : Decryptor) (fault : Fault) : Decryptor :=
  if d.out.isOpen = false ∨ d.out.good = false then d
  else match fault with
    | none => { d with part := d.part.map (· ++ d.out.pending), out := { d.out with pending := [] } }
    | some left => { d with part := d.part.map fun _ => left, out := ⟨true, false, []⟩ }

/-- Closing what is not open fails. -/
def closeOut (d : Decryptor) (fault : Fault) : Decryptor :=
  if d.out.isOpen = false then { d with out := { d.out with good := false } }
  else match fault with
    | none => { d with part := d.part.map (· ++ d.out.pending), out := ⟨false, d.out.good, []⟩ }
    | some left => { d with part := d.part.map fun _ => left, out := ⟨false, false, []⟩ }

def openOut (d : Decryptor) (content : Bytes) (opens : Bool) : Decryptor :=
  if opens then { d with part := some content, out := ⟨true, true, []⟩ }
  else { d with out := ⟨false, false, []⟩ }

/-! ## The calls -/

/-- What the file system does while a download is begun. -/
structure Beginning where
  isDirectory : Bool := true
  closing : Fault := none
  found : Bool := true
  /-- `fs::file_size` succeeds. -/
  sized : Bool := true
  resizes : Bool := true
  /-- It can be read back. -/
  reads : Bool := true
  /-- Emptying it succeeds. -/
  empties : Bool := true
  opens : Bool := true

/-- How much of a partial file is to be kept: whole chunks. -/
def keepSize (job : Job) (content : Bytes) (f : Beginning) : ℕ :=
  let size := if f.sized then content.length else 0
  if job.size ≤ size then job.size else size - size % chunkPlaintextBytes

/-- Carries on with what an earlier attempt left. The results of the two `resize_file` calls are not
looked at. -/
def carryOn (job : Job) (d : Decryptor) (content : Bytes) (f : Beginning) : Decryptor :=
  let keep := keepSize job content f
  let content := if 0 < keep ∧ f.resizes then content.take keep else content
  let kept := if 0 < keep ∧ f.reads then keep else 0
  let d : Decryptor := { d with
    hash := some (.running (content.take kept))
    written := kept
    next := if job.size ≤ kept ∧ 0 < job.size then chunkCount job.size else kept / chunkPlaintextBytes }
  let content := if kept = 0 ∧ f.empties then [] else content
  { d with part := some content }.openOut content f.opens

/-- Opens the partial file again, or a new one. -/
def reopen (job : Job) (d : Decryptor) (resume : Bool) (f : Beginning) : Decryptor :=
  let d : Decryptor :=
    { d.closeOut f.closing with hash := some (.running []), next := 0, written := 0 }
  match d.part.filter fun _ => resume && f.found with
  | some content => carryOn job d content f
  | none => d.openOut [] f.opens

def begin (job : Job) (d : Decryptor) (resume : Bool) (f : Beginning) : Except Bytes Unit × Decryptor :=
  if f.isDirectory = false then (.error (ascii "The folder to save in doesn't exist"), d)
  else if (reopen job d resume f).out.good = false then
    (.error (ascii "The file could not be saved here"), reopen job d resume f)
  else (.ok (), reopen job d resume f)

def accept (C : SecretCrypto) (job : Job) (d : Decryptor) (index : ℕ) (sealed : Bytes) (fault : Fault) :
    Except Bytes Unit × Decryptor :=
  match d.hash.filter fun _ => d.out.good with
  | none => (.error (ascii "The download was not started"), d)
  | some hash =>
    if index ≠ d.next ∨ chunkCount job.size ≤ index then
      (.error (ascii "A chunk arrived out of order"), d)
    else match openChunk C job.key job.fileId index (chunkCount job.size) sealed with
      | none =>
        (.error (ascii "A chunk of the file could not be opened: it is damaged, or not from this file"), d)
      | some plain =>
        if plain.length ≠ plainSizeOfChunk job.size index then
          (.error (ascii "A chunk of the file is the wrong size"), d)
        else
          let d := d.writeOut plain fault
          if d.out.good = false then
            (.error (ascii "The file could not be saved here (is the disk full?)"), d)
          else match hash with
            | .finished =>
              if plain = [] then (.ok (), { d with next := d.next + 1 })
              else (.error (ascii "Hashing failed"), d)
            | .running bytes => (.ok (), { d with
                hash := some (.running (bytes ++ plain))
                written := d.written + plain.length
                next := d.next + 1 })

def abort (d : Decryptor) (closing : Fault) (removes : Bool) : Decryptor :=
  let d := d.closeOut closing
  { d with part := if removes then none else d.part, next := 0, written := 0 }

/-- What the file system does while a download is finished. -/
structure Finishing where
  flushing : Fault := none
  closing : Fault := none
  removes : Bool := true
  /-- A free name in the folder. -/
  target : Option Bytes
  renames : Bool := true
  message : Bytes := []

def finish (sha256 : Bytes → Relay.Digest) (job : Job) (d : Decryptor) (f : Finishing) :
    Except Bytes Bytes × Decryptor :=
  if d.out.good = false ∨ d.next ≠ chunkCount job.size ∨ d.written ≠ job.size then
    (.error (ascii "The file is not complete"), d)
  else match d.hash with
    | none => (.error (ascii "The file is not complete"), d)
    | some hash =>
      let d := (d.flushOut f.flushing).closeOut f.closing
      match hash with
      | .finished => (.error (ascii "Hashing failed"), d)
      | .running bytes =>
        let d : Decryptor := { d with hash := some .finished }
        if (sha256 bytes).1 ≠ job.sha256 then
          (.error (ascii ("The file does not match the fingerprint the sender signed: it was altered, " ++
            "so it was not saved")), d.abort none f.removes)
        else match f.target, d.part.filter fun _ => f.renames with
          | none, _ => (.error (ascii "No free file name was found in that folder"), d)
          | some _, none => (.error (ascii "The file could not be saved: " ++ f.message), d)
          | some path, some content =>
            (.ok path, { d with part := none, saved := d.saved ++ [(path, content)] })

/-! ## Sequences of calls -/

inductive Call where
  | begin (resume : Bool) (f : Beginning)
  | accept (index : ℕ) (sealed : Bytes) (fault : Fault)
  | finish (f : Finishing)
  | abort (closing : Fault) (removes : Bool)
  /-- The object is destroyed or the process ends, and a partial file is left with whatever it holds. -/
  | interrupt (left : Option Bytes)

variable (C : SecretCrypto) (sha256 : Bytes → Relay.Digest) (job : Job)

def call (d : Decryptor) : Call → Decryptor
  | .begin resume f => (begin job d resume f).2
  | .accept index sealed fault => (accept C job d index sealed fault).2
  | .finish f => (finish sha256 job d f).2
  | .abort closing removes => d.abort closing removes
  | .interrupt left => { part := left, saved := d.saved }

/-- The calls whose results are not looked at succeed: cutting a partial file that is carried on with, or
emptying it if nothing of it is kept, and the last `flush` and `close`. -/
def Heeded (job : Job) (d : Decryptor) : Call → Prop
  | .begin resume f => f.isDirectory = true → resume = true → f.found = true →
    ∀ content ∈ (d.closeOut f.closing).part,
      if 0 < keepSize job content f ∧ f.reads = true then f.resizes = true else f.empties = true
  | .finish f => d.out.isOpen = true → f.flushing = none ∧ f.closing = none
  | _ => True

structure Agrees (d : Decryptor) (bytes : Bytes) : Prop where
  opened : d.out.isOpen = true → ∃ content, d.part = some content ∧ content ++ d.out.pending = bytes ∧
    bytes.length = d.written
  /-- Only an empty file can be complete without an open stream. -/
  closed : d.out.isOpen = false → d.written = 0 ∧
    (job.size = 0 → ∀ content, d.part = some content → content = [])
  empty : job.size = 0 → bytes = []

/-- What was saved has the size and the hash, and a stream that has not failed agrees with the hash. -/
structure Sound (d : Decryptor) : Prop where
  saved : ∀ file ∈ d.saved, file.2.length = job.size ∧ (sha256 file.2).1 = job.sha256
  agrees : ∀ bytes, d.out.good = true → d.hash = some (.running bytes) → Agrees job d bytes

variable {C sha256 job} {d : Decryptor} {f : Beginning} {content bytes : Bytes}

theorem saved_closeOut (d : Decryptor) (fault : Fault) : (d.closeOut fault).saved = d.saved := by
  unfold closeOut
  split_ifs
  · rfl
  · cases fault <;> rfl

theorem hash_closeOut (d : Decryptor) (fault : Fault) : (d.closeOut fault).hash = d.hash := by
  unfold closeOut
  split_ifs
  · rfl
  · cases fault <;> rfl

theorem saved_flushOut (d : Decryptor) (fault : Fault) : (d.flushOut fault).saved = d.saved := by
  unfold flushOut
  split_ifs
  · rfl
  · cases fault <;> rfl

theorem saved_openOut (d : Decryptor) (content : Bytes) (opens : Bool) :
    (d.openOut content opens).saved = d.saved := by
  unfold openOut
  split_ifs <;> rfl

theorem saved_reopen (d : Decryptor) (resume : Bool) (f : Beginning) :
    (reopen job d resume f).saved = d.saved := by
  unfold reopen
  dsimp only
  split
  · simp only [carryOn, saved_openOut, saved_closeOut]
  · rw [saved_openOut, saved_closeOut]

theorem begin_cases (d : Decryptor) (resume : Bool) (f : Beginning) :
    (begin job d resume f).2 = d ∨
      f.isDirectory = true ∧ (begin job d resume f).2 = reopen job d resume f := by
  unfold begin
  split_ifs with hdirectory
  · exact .inl rfl
  · exact .inr ⟨Bool.not_eq_false _ ▸ hdirectory, rfl⟩
  · exact .inr ⟨Bool.not_eq_false _ ▸ hdirectory, rfl⟩

theorem good_openOut {opens : Bool} (h : (d.openOut content opens).out.good = true) :
    d.openOut content opens = { d with part := some content, out := ⟨true, true, []⟩ } := by
  cases opens with
  | true => rfl
  | false => cases h

theorem keepSize_le (content : Bytes) (f : Beginning) : keepSize job content f ≤ content.length := by
  unfold keepSize
  dsimp only
  split_ifs <;> omega

theorem keepSize_zero (h : job.size = 0) (content : Bytes) (f : Beginning) : keepSize job content f = 0 := by
  unfold keepSize
  dsimp only
  rw [h, if_pos (Nat.zero_le _)]

/-- What is kept of a partial file is what is hashed of it. -/
theorem agrees_carryOn
    (hheeded : if 0 < keepSize job content f ∧ f.reads = true then f.resizes = true else f.empties = true)
    (hgood : (carryOn job d content f).out.good = true)
    (hhash : (carryOn job d content f).hash = some (.running bytes)) :
    Agrees job (carryOn job d content f) bytes := by
  have hopen := good_openOut hgood
  unfold carryOn at hhash hopen ⊢
  dsimp only at hhash hopen ⊢
  rw [hopen] at hhash ⊢
  obtain rfl := Hashing.running.inj (Option.some.inj hhash)
  by_cases hread : 0 < keepSize job content f ∧ f.reads = true
  · rw [if_pos hread] at hheeded
    have hkept : (if 0 < keepSize job content f ∧ f.reads = true then keepSize job content f else 0) =
        keepSize job content f := if_pos hread
    simp only [hkept, hheeded, and_true, if_pos hread.1, hread.1.ne', false_and, if_false]
    refine ⟨fun _ => ⟨_, rfl, ?_, ?_⟩, nofun, fun h => absurd (keepSize_zero h content f) hread.1.ne'⟩
    · rw [List.append_nil, List.take_take, Nat.min_self]
    · rw [List.take_take, Nat.min_self, List.length_take, Nat.min_eq_left (keepSize_le content f)]
  · rw [if_neg hread] at hheeded
    simp only [if_neg hread, hheeded, and_self, if_true, List.take_zero]
    exact ⟨fun _ => ⟨[], rfl, rfl, rfl⟩, nofun, fun _ => rfl⟩

theorem agrees_reopen {resume : Bool} (hdirectory : f.isDirectory = true)
    (hheeded : d.Heeded job (.begin resume f)) (hgood : (reopen job d resume f).out.good = true)
    (hhash : (reopen job d resume f).hash = some (.running bytes)) :
    Agrees job (reopen job d resume f) bytes := by
  revert hgood hhash
  unfold reopen
  dsimp only
  split
  · rename_i content hpart
    obtain ⟨hpart, hresume⟩ := Option.filter_eq_some_iff.1 hpart
    rw [Bool.and_eq_true] at hresume
    exact agrees_carryOn (hheeded hdirectory hresume.1 hresume.2 content hpart)
  · intro hgood hhash
    rw [good_openOut hgood] at hhash ⊢
    obtain rfl := Hashing.running.inj (Option.some.inj hhash)
    exact ⟨fun _ => ⟨[], rfl, rfl, rfl⟩, nofun, fun _ => rfl⟩

theorem Sound.begin (h : Sound sha256 job d) (resume : Bool) (hheeded : d.Heeded job (.begin resume f)) :
    Sound sha256 job (begin job d resume f).2 := by
  obtain heq | ⟨hdirectory, heq⟩ := @begin_cases job d resume f <;> rw [heq]
  · exact h
  · exact ⟨saved_reopen d resume f ▸ h.saved, fun bytes => agrees_reopen hdirectory hheeded⟩

structure Taken (job : Job) (d : Decryptor) (plain : Bytes) (fault : Fault) (d' : Decryptor) : Prop where
  size : job.size = 0 → plain = []
  good : d.out.good = true
  stream : (d.writeOut plain fault).out.good = true
  result : ∀ bytes, d'.hash = some (.running bytes) → ∃ before, d.hash = some (.running before) ∧
    d' = { d.writeOut plain fault with
      hash := some (.running (before ++ plain)), written := d.written + plain.length, next := d.next + 1 }

theorem writeOut_fields (d : Decryptor) (data : Bytes) (fault : Fault) :
    (d.writeOut data fault).saved = d.saved ∧ (d.writeOut data fault).hash = d.hash ∧
      (d.writeOut data fault).next = d.next ∧ (d.writeOut data fault).written = d.written := by
  unfold writeOut
  split_ifs
  · exact ⟨rfl, rfl, rfl, rfl⟩
  · exact ⟨rfl, rfl, rfl, rfl⟩
  · cases fault <;> exact ⟨rfl, rfl, rfl, rfl⟩

theorem writeOut_of_good {data : Bytes} {fault : Fault} (h : (d.writeOut data fault).out.good = true) :
    data = [] ∧ d.writeOut data fault = d ∨ data ≠ [] ∧ d.out.isOpen = true ∧
      d.writeOut data fault = { d with out := { d.out with pending := d.out.pending ++ data } } := by
  unfold writeOut at h ⊢
  split_ifs at h ⊢ with hdata hopen
  · exact .inl ⟨hdata, rfl⟩
  · cases fault with
    | none => exact .inr ⟨hdata, Bool.eq_true_of_not_eq_false hopen, rfl⟩
    | some left => cases h

theorem plainSizeOfChunk_zero (index : ℕ) : plainSizeOfChunk 0 index = 0 := by
  rw [plainSizeOfChunk, if_neg]
  · exact Nat.zero_sub _
  · simp [chunkCount]

theorem accept_cases (d : Decryptor) (index : ℕ) (sealed : Bytes) (fault : Fault) :
    (accept C job d index sealed fault).2.saved = d.saved ∧
      ((accept C job d index sealed fault).2 = d ∨
        (accept C job d index sealed fault).2.out.good = false ∨
        ∃ plain, Taken job d plain fault (accept C job d index sealed fault).2) := by
  unfold accept
  cases hhash : d.hash.filter fun _ => d.out.good with
  | none => exact ⟨rfl, .inl rfl⟩
  | some hash =>
    obtain ⟨hhash, hgood⟩ := Option.filter_eq_some_iff.1 hhash
    dsimp only
    split_ifs with hindex
    · exact ⟨rfl, .inl rfl⟩
    cases openChunk C job.key job.fileId index (chunkCount job.size) sealed with
    | none => exact ⟨rfl, .inl rfl⟩
    | some plain =>
      obtain ⟨hsaved, hhash', hnext, hwritten⟩ := writeOut_fields d plain fault
      dsimp only
      by_cases hsize : plain.length ≠ plainSizeOfChunk job.size index
      · rw [if_pos hsize]
        exact ⟨rfl, .inl rfl⟩
      by_cases hfailed : (d.writeOut plain fault).out.good = false
      · rw [if_neg hsize, if_pos hfailed]
        exact ⟨hsaved, .inr (.inl hfailed)⟩
      rw [if_neg hsize, if_neg hfailed]
      have hempty : job.size = 0 → plain = [] := by
        intro hzero
        rw [not_not, hzero, plainSizeOfChunk_zero] at hsize
        exact List.eq_nil_of_length_eq_zero hsize
      have hstream := Bool.eq_true_of_not_eq_false hfailed
      cases hash with
      | finished =>
        dsimp only
        split_ifs
        · refine ⟨hsaved, .inr (.inr ⟨plain, hempty, hgood, hstream, fun bytes h => ?_⟩)⟩
          rw [hhash', hhash] at h
          cases h
        · refine ⟨hsaved, .inr (.inr ⟨plain, hempty, hgood, hstream, fun bytes h => ?_⟩)⟩
          rw [hhash', hhash] at h
          cases h
      | running bytes =>
        refine ⟨hsaved, .inr (.inr ⟨plain, hempty, hgood, hstream, fun bytes' _ => ⟨bytes, hhash, ?_⟩⟩)⟩
        rw [hnext, hwritten]

theorem Sound.accept (h : Sound sha256 job d) (index : ℕ) (sealed : Bytes) (fault : Fault) :
    Sound sha256 job (accept C job d index sealed fault).2 := by
  obtain ⟨hsaved, hsame | hfailed | ⟨plain, htaken⟩⟩ := @accept_cases C job d index sealed fault
  · rwa [hsame]
  · refine ⟨hsaved ▸ h.saved, fun bytes hgood => ?_⟩
    rw [hfailed] at hgood
    cases hgood
  refine ⟨hsaved ▸ h.saved, fun bytes _ hhash => ?_⟩
  obtain ⟨before, hbefore, hresult⟩ := htaken.result bytes hhash
  rw [hresult] at hhash ⊢
  obtain rfl := Hashing.running.inj (Option.some.inj hhash)
  have hagrees := h.agrees before htaken.good hbefore
  obtain ⟨rfl, heq⟩ | ⟨hplain, hopen, heq⟩ := writeOut_of_good htaken.stream
  · simp only [heq, List.append_nil, List.length_nil, Nat.add_zero]
    exact ⟨hagrees.opened, hagrees.closed, hagrees.empty⟩
  · obtain ⟨content, hpart, hcontent, hlength⟩ := hagrees.opened hopen
    simp only [heq]
    refine ⟨fun _ => ⟨content, hpart, ?_, ?_⟩, fun hclosed => ?_, fun hzero => ?_⟩
    · rw [← hcontent]
      exact (List.append_assoc ..).symm
    · exact List.length_append.trans (congrArg (· + _) hlength)
    · exact nomatch hopen.symm.trans hclosed
    · exact absurd (htaken.size hzero) hplain

/-! ### Giving up and finishing -/

theorem Sound.abort (h : Sound sha256 job d) (closing : Fault) (removes : Bool) :
    Sound sha256 job (d.abort closing removes) := by
  refine ⟨saved_closeOut d closing ▸ h.saved, fun bytes hgood hhash => ?_⟩
  unfold Decryptor.abort closeOut at hgood hhash ⊢
  cases hopen : d.out.isOpen with
  | false =>
    rw [if_pos hopen] at hgood
    cases hgood
  | true =>
    rw [if_neg (by simp [hopen])] at hgood hhash
    simp only [Bool.true_eq_false, if_false]
    cases closing with
    | some left => cases hgood
    | none =>
      have hagrees := h.agrees bytes hgood hhash
      obtain ⟨content, hpart, hcontent, -⟩ := hagrees.opened hopen
      refine ⟨nofun, fun _ => ⟨rfl, fun hzero left hleft => ?_⟩, hagrees.empty⟩
      -- what is closed without a failure is what was hashed
      cases removes with
      | true => cases hleft
      | false =>
        have hleft : d.part.map (· ++ d.out.pending) = some left := hleft
        rw [hpart, Option.map_some, hcontent, hagrees.empty hzero] at hleft
        exact (Option.some.inj hleft).symm

/-- Where the last `flush` and `close` succeed, the file holds what was hashed. -/
theorem Agrees.closed_part (h : Agrees job d bytes) (hgood : d.out.good = true)
    (hsize : d.written = job.size) {f : Finishing}
    (hheeded : d.out.isOpen = true → f.flushing = none ∧ f.closing = none)
    (hpart : ((d.flushOut f.flushing).closeOut f.closing).part = some content) :
    content = bytes ∧ bytes.length = job.size := by
  cases hopen : d.out.isOpen with
  | true =>
    obtain ⟨hflushing, hclosing⟩ := hheeded hopen
    obtain ⟨before, hbefore, hcontent, hlength⟩ := h.opened hopen
    have hend : ((d.flushOut none).closeOut none).part = some (before ++ d.out.pending ++ []) := by
      simp [flushOut, closeOut, hopen, hgood, hbefore]
    rw [hflushing, hclosing, hend, List.append_nil, hcontent] at hpart
    exact ⟨(Option.some.inj hpart).symm, hlength.trans hsize⟩
  | false =>
    obtain ⟨hwritten, hempty⟩ := h.closed hopen
    have hzero : job.size = 0 := hsize.symm.trans hwritten
    have hend : ((d.flushOut f.flushing).closeOut f.closing).part = d.part := by
      simp [flushOut, closeOut, hopen]
    rw [hend] at hpart
    rw [h.empty hzero, hempty hzero content hpart, hzero]
    exact ⟨rfl, rfl⟩

/-- A finished download either saves the partial file, whose hash was right, or saves nothing. -/
theorem finish_cases (d : Decryptor) (f : Finishing) :
    (∃ path content bytes, (finish sha256 job d f).1 = .ok path ∧ d.out.good = true ∧
      d.written = job.size ∧ d.hash = some (.running bytes) ∧ (sha256 bytes).1 = job.sha256 ∧
      ((d.flushOut f.flushing).closeOut f.closing).part = some content ∧
      (finish sha256 job d f).2.saved = d.saved ++ [(path, content)] ∧
      (finish sha256 job d f).2.hash = some .finished) ∨
    (∃ e, (finish sha256 job d f).1 = .error e) ∧ (finish sha256 job d f).2.saved = d.saved ∧
      ((finish sha256 job d f).2 = d ∨ (finish sha256 job d f).2.hash = some .finished) := by
  unfold finish
  by_cases hpart : d.out.good = false ∨ d.next ≠ chunkCount job.size ∨ d.written ≠ job.size
  · rw [if_pos hpart]
    exact .inr ⟨⟨_, rfl⟩, rfl, .inl rfl⟩
  rw [if_neg hpart]
  obtain ⟨hgood, hrest⟩ := not_or.1 hpart
  have hwritten : d.written = job.size := not_not.1 (not_or.1 hrest).2
  have hsaved : ((d.flushOut f.flushing).closeOut f.closing).saved = d.saved := by
    rw [saved_closeOut, saved_flushOut]
  have hhash_closed : ((d.flushOut f.flushing).closeOut f.closing).hash = d.hash := by
    rw [hash_closeOut]
    unfold flushOut
    split_ifs
    · rfl
    · cases f.flushing <;> rfl
  have hgood : d.out.good = true := Bool.eq_true_of_not_eq_false hgood
  cases hhash : d.hash with
  | none => exact .inr ⟨⟨_, rfl⟩, rfl, .inl rfl⟩
  | some hash =>
    dsimp only
    cases hash with
    | finished => exact .inr ⟨⟨_, rfl⟩, hsaved, .inr (hhash_closed.trans hhash)⟩
    | running bytes =>
      dsimp only
      by_cases hwrong : (sha256 bytes).1 ≠ job.sha256
      · rw [if_pos hwrong]
        refine .inr ⟨⟨_, rfl⟩, ?_, .inr ?_⟩
        · exact (saved_closeOut _ none).trans hsaved
        · exact hash_closeOut _ none
      rw [if_neg hwrong]
      cases f.target with
      | none => exact .inr ⟨⟨_, rfl⟩, hsaved, .inr rfl⟩
      | some path =>
        cases hcontent : ((d.flushOut f.flushing).closeOut f.closing).part.filter fun _ => f.renames with
        | none => exact .inr ⟨⟨_, rfl⟩, hsaved, .inr rfl⟩
        | some content =>
          exact .inl ⟨path, content, bytes, rfl, hgood, hwritten, rfl, not_not.1 hwrong,
            (Option.filter_eq_some_iff.1 hcontent).1, congrArg (· ++ _) hsaved, rfl⟩

theorem Sound.finish (h : Sound sha256 job d) {f : Finishing}
    (hheeded : d.out.isOpen = true → f.flushing = none ∧ f.closing = none) :
    Sound sha256 job (finish sha256 job d f).2 ∧
      ((∃ path content, (Decryptor.finish sha256 job d f).1 = .ok path ∧
          (Decryptor.finish sha256 job d f).2.saved = d.saved ++ [(path, content)] ∧
          content.length = job.size ∧ (sha256 content).1 = job.sha256) ∨
        (∃ e, (Decryptor.finish sha256 job d f).1 = .error e) ∧
          (Decryptor.finish sha256 job d f).2.saved = d.saved) := by
  obtain ⟨path, content, bytes, hok, hgood, hwritten, hhash, hsha, hpart, hsaved, hfinished⟩ |
    ⟨herror, hsaved, hcases⟩ := @finish_cases sha256 job d f
  · obtain ⟨rfl, hlength⟩ := (h.agrees bytes hgood hhash).closed_part hgood hwritten hheeded hpart
    refine ⟨⟨?_, fun bytes _ hrunning => ?_⟩, .inl ⟨path, content, hok, hsaved, hlength, hsha⟩⟩
    · rw [hsaved]
      intro file hfile
      rcases List.mem_append.1 hfile with hfile | hfile
      · exact h.saved file hfile
      · rw [List.mem_singleton.1 hfile]
        exact ⟨hlength, hsha⟩
    · rw [hfinished] at hrunning
      cases hrunning
  · refine ⟨?_, .inr ⟨herror, hsaved⟩⟩
    obtain hsame | hfinished := hcases
    · rwa [hsame]
    · refine ⟨hsaved ▸ h.saved, fun bytes _ hrunning => ?_⟩
      rw [hfinished] at hrunning
      cases hrunning

theorem Sound.call (h : Sound sha256 job d) {c : Call} (hheeded : d.Heeded job c) :
    Sound sha256 job (call C sha256 job d c) := by
  cases c with
  | begin resume f => exact h.begin resume hheeded
  | accept index sealed fault => exact h.accept index sealed fault
  | finish f => exact (h.finish hheeded).1
  | abort closing removes => exact h.abort closing removes
  | interrupt left => exact ⟨h.saved, nofun⟩

theorem Sound.calls {cs : List Call} (h : Sound sha256 job d)
    (hheeded : Reach.Along (Heeded job) (Decryptor.call C sha256 job) d cs) :
    Sound sha256 job (cs.foldl (Decryptor.call C sha256 job) d) := by
  induction cs generalizing d with
  | nil => exact h
  | cons c cs ih => exact ih (h.call hheeded.1) hheeded.2

/-- For every leftover file, every sequence of calls, and every behaviour of the disk in which the calls
that are not looked at succeed: `finish` saves exactly one file, of the size and with the hash that were
signed, or it fails and saves none. -/
theorem saved_has_signed_hash (left : Option Bytes) (cs : List Call)
    (hheeded : Reach.Along (Heeded job) (Decryptor.call C sha256 job) { part := left } cs) :
    let d := cs.foldl (Decryptor.call C sha256 job) { part := left }
    (∀ file ∈ d.saved, file.2.length = job.size ∧ (sha256 file.2).1 = job.sha256) ∧
      (∀ f : Finishing, d.Heeded job (.finish f) →
        (∃ path content, (Decryptor.finish sha256 job d f).1 = .ok path ∧
            (Decryptor.finish sha256 job d f).2.saved = d.saved ++ [(path, content)] ∧
            content.length = job.size ∧ (sha256 content).1 = job.sha256) ∨
          (∃ e, (Decryptor.finish sha256 job d f).1 = .error e) ∧
            (Decryptor.finish sha256 job d f).2.saved = d.saved) ∧
      ∀ c : Call, (∀ f, c ≠ .finish f) → (Decryptor.call C sha256 job d c).saved = d.saved := by
  have hstart : Sound sha256 job { part := left } := ⟨nofun, nofun⟩
  have hsound := hstart.calls hheeded
  refine ⟨hsound.saved, fun f hf => (hsound.finish hf).2, fun c hc => ?_⟩
  cases c with
  | begin resume f =>
    obtain heq | ⟨-, heq⟩ := @begin_cases job (cs.foldl _ _) resume f
    · exact congrArg Decryptor.saved heq
    · exact (congrArg Decryptor.saved heq).trans (saved_reopen _ resume f)
  | accept index sealed fault => exact (accept_cases _ index sealed fault).1
  | finish f => exact absurd rfl (hc f)
  | abort closing removes => exact saved_closeOut _ closing
  | interrupt left => rfl

/-! ### A file of one byte -/

namespace OneByte

def photo : Job where
  key := List.replicate 32 1
  fileId := List.replicate 16 2
  size := 1
  sha256 := (Relay.byteSum [7]).1
  size_le := by decide

def chunk : Bytes := tagCrypto.encrypt photo.key [] [7] []

def download (begun : Beginning) : List Call := [.begin true begun, .accept 0 chunk none]

def target : Bytes := ascii "photo"

/-- What is saved when the calls have been made and the download is finished. -/
def saves (left : Option Bytes) (cs : List Call) (f : Finishing) : List (Bytes × Bytes) :=
  (finish Relay.byteSum photo (cs.foldl (call tagCrypto Relay.byteSum photo) { part := left }) f).2.saved

end OneByte

theorem saved_has_signed_hash_sample :
    ∃ path content, OneByte.saves none (OneByte.download {}) { target := some OneByte.target } =
      [(path, content)] ∧ content.length = 1 := by
  have hheeded : Reach.Along (Heeded OneByte.photo) (Decryptor.call tagCrypto Relay.byteSum OneByte.photo) { part := none }
      (OneByte.download {}) := ⟨nofun, trivial, trivial⟩
  obtain ⟨path, content, -, hsaved, hlength, -⟩ | ⟨⟨e, herror⟩, -⟩ :=
    (saved_has_signed_hash none (OneByte.download {}) hheeded).2.1 { target := some OneByte.target }
      fun _ => ⟨rfl, rfl⟩
  · exact ⟨path, content, hsaved, hlength⟩
  · have hok : (finish Relay.byteSum OneByte.photo ((OneByte.download {}).foldl
        (call tagCrypto Relay.byteSum OneByte.photo) { part := none })
        { target := some OneByte.target }).1.toBool = true := by decide +kernel
    rw [herror] at hok
    cases hok

/-- A leftover file that cannot be cut is saved with what follows the signed byte, and a file whose last
bytes cannot be written when it is closed is saved without them. -/
theorem unchecked_calls_save_other_file :
    OneByte.saves (some [7, 8]) [.begin true { resizes := false }] { target := some OneByte.target } =
        [(OneByte.target, [7, 8])] ∧
      OneByte.saves none (OneByte.download {}) ⟨some [], some [], true, some OneByte.target, true, []⟩ =
        [(OneByte.target, [])] := by
  decide +kernel

end Decryptor

end PqSuite.Attachment
