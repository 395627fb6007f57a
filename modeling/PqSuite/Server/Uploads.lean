import PqSuite.Server.Probing
import PqSuite.Server.Requests

/-!
# The stock of attachments

What sessions, sweeps and cancellations touch of the relay's state: the records of attachments, the files
folder and the history of uploads. Requests about mailboxes and archives leave it as it is, and a redeemed
token ends the record of a file when it was the last one.
-/

namespace PqSuite.Relay

open Reach

variable {o : Outcome}

/-- The records of attachments, the files folder and the history of uploads. -/
structure Stock where
  files : List FileRow
  disk : Disk
  log : UploadLog

def Stock.Has (s : Stock) (id : Bytes) : Prop := ∃ f ∈ s.files, f.id = id

def FileRow.markReady (id : Bytes) (f : FileRow) : FileRow :=
  if f.id = id then { f with ready := true } else f

/-! ## Writing and closing -/

/-- Bytes written at the end of a file come after those that are there. -/
theorem Disk.content_write {d : Disk} {file offset : ℕ} {old : Bytes} (data : Bytes)
    (hold : d.content file = old) (hlen : old.length = offset) :
    (d.write file offset data).content file = old ++ data := by
  subst hlen
  simp [Disk.write, hold]

/-- Only what a file holds is different. -/
structure SameNames (d d' : Disk) : Prop where
  part : d'.part = d.part
  bin : d'.bin = d.bin
  made : d'.made = d.made

theorem Disk.sameNames_close (d : Disk) (file : ℕ) : SameNames d (d.close file) := by
  unfold Disk.close
  split <;> exact ⟨rfl, rfl, rfl⟩

theorem FileRow.id_markReady (id : Bytes) (f : FileRow) : (f.markReady id).id = f.id := by
  unfold FileRow.markReady
  split_ifs <;> rfl

variable {svc : Service} {now : Time} {ss ss' : Session} {msg : WireMessage} {st st' : RelayStore}
  {rate : RateLimiter} {w w' : World} {i : ℕ} {s s' : Stock} {jobs : ℕ → Job} {home : ℕ → Bytes}

/-! ## The stock and the jobs of a relay -/

def RelayStore.stock (st : RelayStore) : Stock := ⟨st.files, st.disk, st.uploads⟩

theorem SameFiles.stock (h : SameFiles st st') : st'.stock = st.stock := by
  rw [RelayStore.stock, RelayStore.stock, h.files, h.disk, h.uploads]

def Sweeper.Clear (s : Stock) : Sweeper → Prop
  | .idle => True
  | .removing names => ∀ name ∈ names, ¬s.Has name.2
  | .orphans known => ∀ f ∈ s.files, f.id ∈ known

/-! ## When an ID is free -/

/-- A sweep that is under way will not touch a file with this ID. -/
def Sweeper.Spares (id : Bytes) : Sweeper → Prop
  | .idle => True
  | .removing names => ∀ name ∈ names, name.2 ≠ id
  | .orphans known => id ∈ known

/-! ## Messages -/

/-- A redeemed token ends its file when it was the last one. -/
theorem redeemFileToken_stock {fileId : Bytes} {tokenHash : Digest} {last : Bool}
    (h : st.redeemFileToken fileId tokenHash = (.ok last, st')) :
    st'.stock = if last then
      { st.stock with
        files := st.files.filter fun f => !decide (f.id = fileId)
        log := st.uploads.end (st.files.filter fun f => decide (f.id = fileId)) }
      else st.stock := by
  rw [(redeemFileToken_ok h).store]
  cases last <;> rfl

/-! ## Which files have a record -/

theorem has_iff {id : Bytes} : st.stock.Has id ↔ id ∈ st.allFileIds := List.mem_map.symm

theorem ids_filter (files : List FileRow) (keep : FileRow → Bool) :
    ((files.filter keep).map (·.id)).Sublist (files.map (·.id)) :=
  List.filter_sublist.map _

theorem ids_congr (h : st'.stock = st.stock) : st'.allFileIds.Sublist st.allFileIds := by
  have hfiles : st'.files = st.files := congrArg Stock.files h
  rw [RelayStore.allFileIds, hfiles, RelayStore.allFileIds]

theorem FileRequest.ids (h : FileRequest ss st o) : o.store.allFileIds.Sublist st.allFileIds := by
  cases h with
  | redeemed rate h => exact ids_congr (redeemFileToken_stock h)
  | redeemedAll rate h =>
    have hids := congrArg (fun s : Stock => (s.files.map FileRow.id).Sublist st.allFileIds)
      (redeemFileToken_stock h)
    exact hids.mpr (ids_filter _ _)
  | cancelled rate fileId hmb hfound =>
    simp only [later, RelayStore.deleteFile]
    split_ifs
    all_goals exact ids_filter _ _
  | _ => exact List.Sublist.refl _

theorem Request.ids (h : Request svc ss msg st o) : o.store.allFileIds.Sublist st.allFileIds := by
  cases h with
  | mail h => exact ids_congr h.mailOnly.files.stock
  | file h => exact h.ids
  | archive h => exact ids_congr h.archivesOnly.files.stock
  | _ => exact List.Sublist.refl _

/-- Only an upload that begins makes a record, with an ID that has none. -/
theorem resume_ids (svc : Service) (now : Time) (ss : Session) (st : RelayStore) (rate : RateLimiter)
    (work : Pending) :
    (resume svc now ss st rate work).store.allFileIds.Sublist st.allFileIds ∨
      ∃ mb m at', work = .beginFile mb m at' ∧ m.fileId ∉ st.allFileIds ∧
        (resume svc now ss st rate work).store.allFileIds = st.allFileIds ++ [m.fileId] := by
  have h := resume_resumed svc now ss st rate work
  generalize resume svc now ss st rate work = o at h
  cases h with
  | mail h => exact .inl (ids_congr h.mailOnly.files.stock)
  | file h =>
    cases h with
    | begun rate h =>
      obtain ⟨-, hnew, -, rfl⟩ := (beginFile_spec h).done rfl
      refine .inr ⟨_, _, _, rfl, fun hmem => ?_, List.map_append⟩
      obtain ⟨f, hf, hid⟩ := List.mem_map.1 hmem
      exact Rows.lookup_eq_none.1 hnew f hf hid
    | finished rate index hu =>
      refine .inl ?_
      have hids : ∀ (id : Bytes), (st.finishFile id).allFileIds = st.allFileIds := by
        intro id
        rw [RelayStore.allFileIds, RelayStore.finishFile, List.map_map]
        exact List.map_congr_left fun f _ => f.id_markReady id
      exact (hids _) ▸ List.Sublist.refl _
    | dropped rate fileId next =>
      refine .inl ?_
      simp only [later, RelayStore.deleteFile, if_true]
      exact ids_filter _ _
    | _ => exact .inl (List.Sublist.refl _)
  | push collect batch =>
    rw [(resumePush_store now _ st rate collect batch).1]
    exact .inl (List.Sublist.refl _)
  | agreed | deleteArchive => exact .inl (List.Sublist.refl _)
  | redactEntries h =>
    obtain ⟨-, _, _, -, rfl⟩ := (redactEntries_spec h).done rfl
    exact .inl (List.Sublist.refl _)

theorem Sweeper.Clear.mono {sweeper : Sweeper} (h : sweeper.Clear s)
    (hs : ∀ id, s'.Has id → s.Has id ∨ sweeper.Spares id) : sweeper.Clear s' := by
  cases sweeper with
  | idle => trivial
  | removing names =>
    intro name hname hhas
    rcases hs name.2 hhas with hhas | hspares
    · exact h name hname hhas
    · exact hspares name hname rfl
  | orphans known =>
    intro f hf
    rcases hs f.id ⟨f, hf, rfl⟩ with ⟨g, hg, hid⟩ | hspares
    · exact hid ▸ h g hg
    · exact hspares

/-! ## Events -/

/-- The names the sweeper will remove are of files whose records went with this sweep. -/
theorem sweepFiles_gone (hunique : ∀ f ∈ st.files, ∀ g ∈ st.files, f.id = g.id → f = g)
    {now before : Time} {name : FileEnding × Bytes}
    (hname : name ∈ (st.sweepFiles now before).1.flatMap World.names) :
    ¬(st.sweepFiles now before).2.stock.Has name.2 := by
  obtain ⟨id, hid, hname⟩ := List.mem_flatMap.1 hname
  have heq : name.2 = id := by
    simp only [World.names, List.mem_cons, List.not_mem_nil, or_false] at hname
    rcases hname with rfl | rfl <;> rfl
  subst heq
  rintro ⟨g, hg, hgname⟩
  obtain ⟨f, hf, hfg⟩ := List.mem_map.1 hid
  obtain ⟨hf, hgone⟩ := List.mem_filter.1 hf
  obtain ⟨hg, hkept⟩ := List.mem_filter.1 hg
  obtain rfl := hunique f hf g hg (hfg.trans hgname.symm)
  simp only [hgone, Bool.not_true, Bool.false_eq_true] at hkept

/-! ## Every interleaving -/

def sampleBegin : WireMessage :=
  ⟨.fileUploadBegin, writeBlob sampleFile ++ writeU64 1 ++ writeU32 1 ++ writeU32 1 ++ writeU64 1000 ++
    writeU32 1 ++ writeBlob (byteSum sampleToken).1⟩

def sampleChunk : WireMessage := ⟨.fileChunk, writeU32 0 ++ writeBlob [7]⟩

def sampleUpload : List Event :=
  [.connect 0 [] [], .message 0 100 sampleAuth, .message 0 100 sampleBegin, .resume 0 100, .resume 0 100,
    .message 0 101 sampleChunk, .resume 0 101, .resume 0 101]

end PqSuite.Relay
